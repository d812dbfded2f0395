import Mathlib

/-!
Paging through a collection by a moving cursor.

The collection holds items that carry a time, no two items one time. A page is
the first items past the cursor, and the last time it shows is the next cursor.
Between two pages the collection may change. As long as an item is only ever
superseded by a later one, the scan shows every item it began with or a
successor of it (`Scan.finds`); where nothing changes it shows exactly the items
past its first cursor (`Scan.mem_iff`).
-/

namespace VmIo.Lib

section Paging

variable {σ α τ : Type*} [LinearOrder τ]

/-- The first `n` of the items past a cursor, in order of time. -/
structure IsPage (time : α → τ) (items : α → Prop) (past : τ → Prop) (n : ℕ)
    (page : List α) : Prop where
  sorted : page.Pairwise (fun a b => time a < time b)
  sound : ∀ a ∈ page, items a ∧ past (time a)
  length_le : page.length ≤ n
  /-- what is left out comes after a full page -/
  complete : ∀ a, items a → past (time a) →
    a ∈ page ∨ page.length = n ∧ ∀ b ∈ page, time b < time a

/-- Pages are taken until one is not full. `between` is what may happen to the
collection from one page to the next. -/
inductive Scan (time : α → τ) (items : σ → α → Prop) (between : σ → σ → Prop) (n : ℕ) :
    (τ → Prop) → σ → List α → Prop
  | last {past : τ → Prop} {s : σ} {page : List α} (h : IsPage time (items s) past n page)
      (hlt : page.length < n) : Scan time items between n past s page
  | more {past : τ → Prop} {s s' : σ} {page rest : List α} {a : α}
      (h : IsPage time (items s) past n page) (hlast : page.getLast? = some a)
      (hs : between s s') (hrest : Scan time items between n (fun t => time a < t) s' rest) :
      Scan time items between n past s (page ++ rest)

variable {time : α → τ} {items : σ → α → Prop} {between : σ → σ → Prop} {n : ℕ}

/-- The last item of a page has the greatest time of it. -/
theorem IsPage.le_last {p : α → Prop} {past : τ → Prop} {page : List α} {a : α}
    (h : IsPage time p past n page) (hlast : page.getLast? = some a) :
    ∀ b ∈ page, time b ≤ time a := by
  obtain ⟨front, rfl⟩ := List.getLast?_eq_some_iff.mp hlast
  intro b hb
  rcases List.mem_append.mp hb with hb | hb
  · exact ((List.pairwise_append.mp h.sorted).2.2 b hb a (by simp)).le
  · rw [List.mem_singleton.mp hb]

theorem Scan.past {past : τ → Prop} {s : σ} {l : List α} (hup : ∀ t u, past t → t < u → past u)
    (h : Scan time items between n past s l) : ∀ a ∈ l, past (time a) := by
  induction h with
  | last h _ => exact fun a ha => (h.sound a ha).2
  | more h hlast hs _ ih =>
      intro b hb
      rcases List.mem_append.mp hb with hb | hb
      · exact (h.sound b hb).2
      · have hbeyond := ih (fun t u ht htu => ht.trans htu) b hb
        exact hup _ _ (h.sound _ (List.mem_of_getLast? hlast)).2 hbeyond

theorem Scan.sorted {past : τ → Prop} {s : σ} {l : List α}
    (h : Scan time items between n past s l) : l.Pairwise (fun a b => time a < time b) := by
  induction h with
  | last h _ => exact h.sorted
  | more h hlast hs hrest ih =>
      refine List.pairwise_append.mpr ⟨h.sorted, ih, fun b hb c hc => ?_⟩
      have hbeyond := hrest.past (fun t u ht htu => ht.trans htu) c hc
      exact (h.le_last hlast b hb).trans_lt hbeyond

/-- An item past the first cursor is shown, or a successor of it is. -/
theorem Scan.finds {newer : α → α → Prop} (hrefl : ∀ a, newer a a)
    (htrans : ∀ a b c, newer a b → newer b c → newer a c)
    (htime : ∀ a b, newer a b → time a ≤ time b)
    (hadvance : ∀ s s', between s s' → ∀ a, items s a → ∃ b, items s' b ∧ newer a b)
    {past : τ → Prop} {s : σ} {l : List α} (h : Scan time items between n past s l) {a : α}
    (ha : items s a) (hpast : past (time a)) : ∃ b ∈ l, newer a b := by
  induction h generalizing a with
  | last h hlt =>
      rcases h.complete a ha hpast with hmem | ⟨hfull, _⟩
      · exact ⟨a, hmem, hrefl a⟩
      · omega
  | more h hlast hs _ ih =>
      rcases h.complete a ha hpast with hmem | ⟨_, hafter⟩
      · exact ⟨a, List.mem_append_left _ hmem, hrefl a⟩
      · obtain ⟨b, hb, hab⟩ := hadvance _ _ hs a ha
        have hbeyond := (hafter _ (List.mem_of_getLast? hlast)).trans_le (htime a b hab)
        obtain ⟨c, hc, hbc⟩ := ih hb hbeyond
        exact ⟨c, List.mem_append_right _ hc, htrans a b c hab hbc⟩

theorem Scan.mem_iff (hsame : ∀ s s', between s s' → items s' = items s) {past : τ → Prop}
    {s : σ} {l : List α} (hup : ∀ t u, past t → t < u → past u)
    (h : Scan time items between n past s l) (a : α) :
    a ∈ l ↔ items s a ∧ past (time a) := by
  constructor
  · intro ha
    refine ⟨?_, h.past hup a ha⟩
    clear hup
    induction h with
    | last h _ => exact (h.sound a ha).1
    | more h hlast hs _ ih =>
        rcases List.mem_append.mp ha with ha | ha
        · exact (h.sound a ha).1
        · exact hsame _ _ hs ▸ ih ha
  · rintro ⟨ha, hpast⟩
    have hadvance : ∀ s s', between s s' → ∀ a, items s a → ∃ b, items s' b ∧ a = b :=
      fun s s' hs a ha => ⟨a, hsame s s' hs ▸ ha, rfl⟩
    obtain ⟨b, hb, rfl⟩ : ∃ b ∈ l, a = b :=
      h.finds (fun _ => rfl) (fun _ _ _ => Eq.trans) (fun _ _ hab => hab ▸ le_rfl) hadvance ha
        hpast
    exact hb

theorem Scan.nodup {past : τ → Prop} {s : σ} {l : List α}
    (h : Scan time items between n past s l) : l.Nodup :=
  h.sorted.imp fun hab heq => (heq ▸ hab).false

end Paging

end VmIo.Lib
