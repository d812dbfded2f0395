import Mathlib

/-!
Tables with a primary key: a list of rows no two of which have the same key.
Uniqueness is a field, so every operation proves that it keeps it and no
later proof asks for it.
-/

namespace VmIo.Lib

/-- Rows of type `α`, unique under the key `pk`. -/
structure Table (α : Type*) {κ : Type*} (pk : α → κ) where
  rows : List α
  nodup : (rows.map pk).Nodup

namespace Table

variable {α κ : Type*} {pk : α → κ}

def empty : Table α pk := ⟨[], List.nodup_nil⟩

@[simp] theorem empty_rows : (empty : Table α pk).rows = [] := rfl

theorem eq_of_pk_eq (t : Table α pk) {r r' : α} (hr : r ∈ t.rows) (hr' : r' ∈ t.rows)
    (h : pk r = pk r') : r = r' :=
  List.inj_on_of_nodup_map t.nodup hr hr' h

def deleteWhere (t : Table α pk) (p : α → Bool) : Table α pk :=
  ⟨t.rows.filter (fun r => !p r), (List.filter_sublist.map pk).nodup t.nodup⟩

@[simp] theorem mem_deleteWhere {t : Table α pk} {p : α → Bool} {r : α} :
    r ∈ (t.deleteWhere p).rows ↔ r ∈ t.rows ∧ p r = false := by
  simp [deleteWhere, List.mem_filter]

variable [DecidableEq κ]

def find? (t : Table α pk) (k : κ) : Option α :=
  t.rows.find? (fun r => decide (pk r = k))

theorem find?_eq_some_iff {t : Table α pk} {k : κ} {r : α} :
    t.find? k = some r ↔ r ∈ t.rows ∧ pk r = k := by
  constructor
  · intro h
    exact ⟨List.mem_of_find?_eq_some h, by simpa using List.find?_some h⟩
  · rintro ⟨hr, rfl⟩
    cases hf : t.find? (pk r) with
    | none =>
        have := List.find?_eq_none.mp hf r hr
        simp at this
    | some r' =>
        have hr' : r' ∈ t.rows := List.mem_of_find?_eq_some hf
        have hk : pk r' = pk r := by simpa using List.find?_some hf
        rw [t.eq_of_pk_eq hr' hr hk]

theorem find?_eq_none_iff {t : Table α pk} {k : κ} :
    t.find? k = none ↔ ∀ r ∈ t.rows, pk r ≠ k := by
  simp [find?]

theorem find?_pk {t : Table α pk} {r : α} (h : r ∈ t.rows) : t.find? (pk r) = some r :=
  find?_eq_some_iff.mpr ⟨h, rfl⟩

theorem find?_isSome_iff {t : Table α pk} {k : κ} :
    (t.find? k).isSome ↔ ∃ r ∈ t.rows, pk r = k := by
  simp only [Option.isSome_iff_exists, find?_eq_some_iff]

@[simp] theorem find?_empty (k : κ) : (empty : Table α pk).find? k = none := rfl

/-- Two tables answer a lookup alike when they hold the same rows under the key. -/
theorem find?_congr {t t' : Table α pk} {k : κ}
    (h : ∀ r, pk r = k → (r ∈ t.rows ↔ r ∈ t'.rows)) : t.find? k = t'.find? k := by
  ext r
  simp only [find?_eq_some_iff]
  constructor
  · rintro ⟨hr, hk⟩
    exact ⟨(h r hk).mp hr, hk⟩
  · rintro ⟨hr, hk⟩
    exact ⟨(h r hk).mpr hr, hk⟩

theorem find?_deleteWhere_of_keep {t : Table α pk} {p : α → Bool} {k : κ}
    (h : ∀ r, pk r = k → p r = false) : (t.deleteWhere p).find? k = t.find? k := by
  apply find?_congr
  intro r hr
  simp [h r hr]

theorem find?_deleteWhere_of_drop {t : Table α pk} {p : α → Bool} {k : κ}
    (h : ∀ r, pk r = k → p r = true) : (t.deleteWhere p).find? k = none := by
  rw [find?_eq_none_iff]
  intro r hr hk
  simp [h r hk] at hr

def put (t : Table α pk) (r : α) : Table α pk :=
  ⟨r :: t.rows.filter (fun x => decide (pk x ≠ pk r)), by
    rw [List.map_cons, List.nodup_cons]
    refine ⟨?_, (List.filter_sublist.map pk).nodup t.nodup⟩
    simp only [List.mem_map, List.mem_filter, decide_eq_true_eq, not_exists, not_and]
    rintro x ⟨_, hx⟩
    exact hx⟩

@[simp] theorem mem_put {t : Table α pk} {r x : α} :
    x ∈ (t.put r).rows ↔ x = r ∨ x ∈ t.rows ∧ pk x ≠ pk r := by
  simp [put, List.mem_filter]

theorem find?_put_self {t : Table α pk} {r : α} {k : κ} (h : pk r = k) :
    (t.put r).find? k = some r := by
  rw [find?_eq_some_iff]
  simp [h]

theorem find?_put_ne {t : Table α pk} {r : α} {k : κ} (h : pk r ≠ k) :
    (t.put r).find? k = t.find? k := by
  apply find?_congr
  intro x hx
  have hne : pk x ≠ pk r := by rw [hx]; exact h.symm
  have : x ≠ r := fun e => hne (by rw [e])
  simp [hne, this]

theorem find?_put (t : Table α pk) (r : α) (k : κ) :
    (t.put r).find? k = if pk r = k then some r else t.find? k := by
  split
  · rename_i h
    exact find?_put_self h
  · rename_i h
    exact find?_put_ne h

def erase (t : Table α pk) (k : κ) : Table α pk :=
  t.deleteWhere (fun r => decide (pk r = k))

theorem find?_erase (t : Table α pk) (k k' : κ) :
    (t.erase k).find? k' = if k = k' then none else t.find? k' := by
  split
  · rename_i h
    subst h
    exact find?_deleteWhere_of_drop (fun r hr => by simp [hr])
  · rename_i h
    exact find?_deleteWhere_of_keep (fun r hr => by simp [hr, Ne.symm h])

end Table

end VmIo.Lib
