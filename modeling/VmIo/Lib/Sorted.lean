import Mathlib

/-!
Lists that are strictly sorted by a relation: the members determine the list,
and a member's place is how many members come before it.
-/

namespace VmIo.Lib

section Sorted

variable {α : Type*} {r : α → α → Prop}

/-- A strictly sorted list is determined by its members. -/
theorem eq_of_mem_iff (hasymm : ∀ a b, r a b → ¬r b a) {l l' : List α} (hl : l.Pairwise r)
    (hl' : l'.Pairwise r) (hmem : ∀ a, a ∈ l ↔ a ∈ l') : l = l' := by
  have hne : ∀ a b, r a b → a ≠ b := by
    rintro a _ hab rfl
    exact hasymm a a hab hab
  have hperm : l.Perm l' :=
    (List.perm_ext_iff_of_nodup (hl.imp fun h => hne _ _ h) (hl'.imp fun h => hne _ _ h)).mpr hmem
  exact hperm.eq_of_pairwise (fun a b _ _ hab hba => absurd hba (hasymm a b hab)) hl hl'

/-- The first `n` of a list survive a filter as its first `n` exactly when each of
them does. -/
theorem take_filter_eq_iff (p : α → Bool) (l : List α) (n : ℕ) :
    (l.filter p).take n = l.take n ↔ ∀ a ∈ l.take n, p a = true := by
  constructor
  · intro h a ha
    rw [← h] at ha
    exact (List.mem_filter.mp (List.mem_of_mem_take ha)).2
  · intro h
    induction l generalizing n with
    | nil => rfl
    | cons x l ih =>
        cases n with
        | zero => rfl
        | succ n =>
            rw [List.take_succ_cons] at h ⊢
            rw [List.filter_cons_of_pos (h x List.mem_cons_self), List.take_succ_cons,
              ih n fun a ha => h a (List.mem_cons_of_mem x ha)]

/-- A member of a strictly sorted list is among the first `n` when fewer than `n`
members come before it. -/
theorem mem_take_iff [DecidableRel r] (hasymm : ∀ a b, r a b → ¬r b a) {l : List α}
    (hl : l.Pairwise r) {a : α} (ha : a ∈ l) (n : ℕ) :
    a ∈ l.take n ↔ (l.filter (fun b => r b a)).length < n := by
  obtain ⟨before, after, rfl⟩ := List.append_of_mem ha
  obtain ⟨_, hafter, hacross⟩ := List.pairwise_append.mp hl
  have hfilter : (before ++ a :: after).filter (fun b => r b a) = before := by
    have hin : before.filter (fun b => r b a) = before :=
      List.filter_eq_self.mpr fun b hb => by
        simpa using hacross b hb a List.mem_cons_self
    have hout : (a :: after).filter (fun b => r b a) = [] := by
      rw [List.filter_eq_nil_iff]
      intro b hb
      rcases List.mem_cons.mp hb with rfl | hb
      · simpa using fun h => hasymm b b h h
      · simpa using hasymm a b ((List.pairwise_cons.mp hafter).1 b hb)
    rw [List.filter_append, hin, hout, List.append_nil]
  rw [hfilter, List.take_append, List.mem_append]
  constructor
  · rintro (hmem | hmem)
    · exact absurd (hacross a (List.mem_of_mem_take hmem) a List.mem_cons_self)
        fun h => hasymm a a h h
    · by_contra hle
      rw [Nat.sub_eq_zero_of_le (not_lt.mp hle), List.take_zero] at hmem
      exact absurd hmem List.not_mem_nil
  · intro hlt
    right
    obtain ⟨k, hk⟩ : ∃ k, n - before.length = k + 1 := ⟨n - before.length - 1, by omega⟩
    rw [hk, List.take_succ_cons]
    exact List.mem_cons_self

end Sorted

end VmIo.Lib
