import Mathlib

/-!
Last-writer-wins registers and maps.

A register holds the latest write it has seen, the first one on a tie. A map
holds a register for every key. What a sequence of writes leaves in a map is
the latest write of each key, whatever the order of the sequence and however
often it repeats a write.
-/

namespace VmIo.Lib.Lww

section Register

variable {W τ : Type*} [LinearOrder τ] (time : W → τ)

/-- What a register holds after a write. -/
def later : Option W → W → Option W
  | none, w => some w
  | some v, w => if time v < time w then some w else some v

/-- A write of the set that no other write of the set is later than. -/
def IsLatest (S : Set W) (w : W) : Prop := w ∈ S ∧ ∀ v ∈ S, time v ≤ time w

variable {time}

theorem later_of_lt {r : Option W} {w : W} (h : ∀ v ∈ r, time v < time w) :
    later time r w = some w := by
  cases r with
  | none => rfl
  | some v => simp [later, h v rfl]

theorem later_of_le {v w : W} (h : time w ≤ time v) : later time (some v) w = some v := by
  simp [later, not_lt.mpr h]

theorem IsLatest.unique {S : Set W} {v w : W} (hinj : Set.InjOn time S)
    (hv : IsLatest time S v) (hw : IsLatest time S w) : v = w :=
  hinj hv.1 hw.1 (le_antisymm (hw.2 v hv.1) (hv.2 w hw.1))

/-- Adding a write to the set a register has seen. -/
theorem IsLatest.later {S : Set W} {r : Option W} {w x : W}
    (hr : ∀ v ∈ r, IsLatest time S v) (hempty : r = none → S = ∅)
    (h : later time r w = some x) : IsLatest time (insert w S) x := by
  cases r with
  | none =>
      cases h
      rw [hempty rfl]
      exact ⟨Set.mem_insert _ _, by simp⟩
  | some v =>
      obtain ⟨hvS, hmax⟩ := hr v rfl
      by_cases hlt : time v < time w
      · rw [Lww.later, if_pos hlt] at h
        cases h
        refine ⟨Set.mem_insert _ _, ?_⟩
        rintro y (rfl | hy)
        · exact le_rfl
        · exact (hmax y hy).trans hlt.le
      · rw [Lww.later, if_neg hlt] at h
        cases h
        refine ⟨Set.mem_insert_of_mem _ hvS, ?_⟩
        rintro y (rfl | hy)
        · exact not_lt.mp hlt
        · exact hmax y hy

theorem later_isSome (r : Option W) (w : W) : (later time r w).isSome := by
  cases r with
  | none => rfl
  | some v =>
      rw [later]
      split <;> rfl

/-- After a sequence of writes a register holds one of the latest it has seen. -/
theorem isLatest_foldl {S : Set W} {r : Option W} {l : List W} {x : W}
    (hr : ∀ v ∈ r, IsLatest time S v) (hempty : r = none → S = ∅)
    (h : l.foldl (later time) r = some x) : IsLatest time (S ∪ {w | w ∈ l}) x := by
  induction l generalizing r S with
  | nil =>
      simp only [List.not_mem_nil, Set.ofPred_false, Set.union_empty]
      exact hr x h
  | cons w l ih =>
      have hsome : (later time r w).isSome := later_isSome r w
      have hset : S ∪ {v | v ∈ w :: l} = insert w S ∪ {v | v ∈ l} := by
        ext v
        simp only [List.mem_cons, Set.mem_union, Set.mem_ofPred_eq, Set.mem_insert_iff]
        tauto
      rw [hset]
      exact ih (fun v hv => IsLatest.later hr hempty hv)
        (fun hnone => by rw [hnone] at hsome; contradiction) h

theorem foldl_later_eq_none {r : Option W} {l : List W} :
    l.foldl (later time) r = none ↔ r = none ∧ l = [] := by
  induction l generalizing r with
  | nil => simp
  | cons w l ih =>
      rw [List.foldl_cons, ih]
      have hsome : (later time r w).isSome := later_isSome r w
      constructor
      · rintro ⟨hnone, _⟩
        rw [hnone] at hsome
        contradiction
      · rintro ⟨_, hnil⟩
        contradiction

end Register

section Map

variable {κ W τ : Type*} [DecidableEq κ] [LinearOrder τ] (key : W → κ) (time : W → τ)

def deliver (m : κ → Option W) (w : W) : κ → Option W :=
  Function.update m (key w) (later time (m (key w)) w)

variable {key time}

theorem deliver_of_lt {m : κ → Option W} {w : W} (h : ∀ v ∈ m (key w), time v < time w) :
    deliver key time m w = Function.update m (key w) (some w) := by
  rw [deliver, later_of_lt h]

theorem deliver_of_le {m : κ → Option W} {v w : W} (hv : m (key w) = some v)
    (h : time w ≤ time v) : deliver key time m w = m := by
  rw [deliver, hv, later_of_le h, ← hv, Function.update_eq_self]

theorem foldl_deliver (m : κ → Option W) (l : List W) (k : κ) :
    l.foldl (deliver key time) m k =
      (l.filter (fun w => key w = k)).foldl (later time) (m k) := by
  induction l generalizing m with
  | nil => rfl
  | cons w l ih =>
      rw [List.foldl_cons, ih]
      by_cases hk : key w = k
      · subst hk
        simp [deliver]
      · simp [deliver, hk, Function.update_of_ne (Ne.symm hk)]

/-- The writes of a key that a map holds or is delivered. -/
def seen (key : W → κ) (m : κ → Option W) (l : List W) (k : κ) : Set W :=
  {w | w ∈ m k ∨ w ∈ l ∧ key w = k}

/-- What a sequence of writes leaves under a key: the latest write of the key,
provided no two of them are as late. -/
theorem foldl_deliver_eq_some_iff {m : κ → Option W} {l : List W} {k : κ} {x : W}
    (hinj : Set.InjOn time (seen key m l k)) :
    l.foldl (deliver key time) m k = some x ↔ IsLatest time (seen key m l k) x := by
  have hset : seen key m l k = {w | w ∈ m k} ∪ {w | w ∈ l.filter (fun w => key w = k)} := by
    ext w
    simp [seen, List.mem_filter]
  have held : ∀ v ∈ m k, IsLatest time {w | w ∈ m k} v := by
    intro v hv
    refine ⟨hv, fun w hw => ?_⟩
    rw [Option.mem_unique hw hv]
  have hempty : m k = none → {w | w ∈ m k} = ∅ := by
    intro hnone
    simp [hnone]
  rw [foldl_deliver]
  constructor
  · intro h
    rw [hset]
    exact isLatest_foldl held hempty h
  · intro h
    cases hfold : (l.filter (fun w => key w = k)).foldl (later time) (m k) with
    | none =>
        obtain ⟨hnone, hnil⟩ := foldl_later_eq_none.mp hfold
        rw [hset, hnone, hnil] at h
        exact absurd h.1 (by simp)
    | some y =>
        have hy := isLatest_foldl held hempty hfold
        rw [← hset] at hy
        rw [hy.unique hinj h]

end Map

section Offer

/-! A map may ask for more: that no two of its keys hold writes of one time. It
then rejects a write that would break this, and is left as it was. -/

variable {κ W τ : Type*} [DecidableEq κ] [LinearOrder τ] (key : W → κ) (time : W → τ)

/-- The write is later than what its key holds. -/
def Fresh (m : κ → Option W) (w : W) : Prop := ∀ v ∈ m (key w), time v < time w

/-- Another key holds the time of the write. -/
def Taken (m : κ → Option W) (w : W) : Prop := ∃ k, k ≠ key w ∧ ∃ v ∈ m k, time v = time w

def Rejects (m : κ → Option W) (w : W) : Prop := Fresh key time m w ∧ Taken key time m w

/-- A map is offered a sequence of writes: the writes it rejects, and the map it
becomes. -/
inductive Offers : (κ → Option W) → List W → List W → (κ → Option W) → Prop
  | nil (m : κ → Option W) : Offers m [] [] m
  | accept {m m' : κ → Option W} {w : W} {ws rejected : List W} :
      ¬Rejects key time m w → Offers (deliver key time m w) ws rejected m' →
        Offers m (w :: ws) rejected m'
  | reject {m m' : κ → Option W} {w : W} {ws rejected : List W} :
      Rejects key time m w → Offers m ws rejected m' → Offers m (w :: ws) (w :: rejected) m'

variable {key time} {m m' : κ → Option W} {ws rejected : List W}

theorem deliver_of_ne {w : W} {k : κ} (h : key w ≠ k) : deliver key time m w k = m k :=
  Function.update_of_ne (Ne.symm h) _ _

theorem mem_deliver {w v : W} {k : κ} :
    v ∈ deliver key time m w k ↔
      (v = w ∧ k = key w ∧ Fresh key time m w) ∨ (v ∈ m k ∧ (k = key w → ¬time v < time w)) := by
  by_cases hk : k = key w
  · subst hk
    rw [deliver, Function.update_self]
    cases hm : m (key w) with
    | none => simp [later, Fresh, hm, eq_comm]
    | some r =>
        by_cases hlt : time r < time w
        · simp only [later, if_pos hlt, Fresh, hm, Option.mem_some, true_and, forall_const]
          constructor
          · rintro rfl
            exact .inl ⟨rfl, by rintro _ rfl; exact hlt⟩
          · rintro (⟨rfl, _⟩ | ⟨rfl, hnot⟩)
            · rfl
            · exact absurd hlt hnot
        · simp only [later, if_neg hlt, Fresh, hm, Option.mem_some, true_and, forall_const]
          constructor
          · rintro rfl
            exact .inr ⟨rfl, hlt⟩
          · rintro (⟨rfl, hfresh⟩ | ⟨rfl, _⟩)
            · exact absurd (hfresh r rfl) hlt
            · rfl
  · rw [deliver_of_ne (Ne.symm hk)]
    simp [hk]

theorem Offers.sublist (h : Offers key time m ws rejected m') : rejected.Sublist ws := by
  induction h with
  | nil => exact .slnil
  | accept _ _ ih => exact ih.cons _
  | reject _ _ ih => exact ih.cons_cons _

theorem Offers.frame (h : Offers key time m ws rejected m') {k : κ}
    (hk : ∀ w ∈ ws, key w ≠ k) : m' k = m k := by
  induction h with
  | nil => rfl
  | accept _ _ ih =>
      rw [ih fun w hw => hk w (List.mem_cons_of_mem _ hw)]
      exact deliver_of_ne (hk _ List.mem_cons_self)
  | reject _ _ ih => exact ih fun w hw => hk w (List.mem_cons_of_mem _ hw)

/-- Where the writes have different keys, a key gets its write unless that was
rejected. -/
theorem Offers.result (h : Offers key time m ws rejected m')
    (hkeys : ws.Pairwise (fun a b => key a ≠ key b)) {w : W} (hw : w ∈ ws) :
    (w ∈ rejected → m' (key w) = m (key w)) ∧
      (w ∉ rejected → m' (key w) = later time (m (key w)) w) := by
  induction h with
  | nil => exact absurd hw List.not_mem_nil
  | @accept m _ x ws rejected _ hrest ih =>
      obtain ⟨hx, hkeys⟩ := List.pairwise_cons.mp hkeys
      rcases List.mem_cons.mp hw with rfl | hw
      · have hlast := hrest.frame fun v hv => (hx v hv).symm
        refine ⟨fun hrej => absurd rfl (hx w (hrest.sublist.subset hrej)), fun _ => ?_⟩
        rw [hlast, deliver, Function.update_self]
      · have hres := ih hkeys hw
        rwa [deliver_of_ne (hx w hw)] at hres
  | @reject m _ x ws rejected _ hrest ih =>
      obtain ⟨hx, hkeys⟩ := List.pairwise_cons.mp hkeys
      rcases List.mem_cons.mp hw with rfl | hw
      · exact ⟨fun _ => hrest.frame fun v hv => (hx v hv).symm,
          fun hnot => absurd List.mem_cons_self hnot⟩
      · obtain ⟨hkept, htaken⟩ := ih hkeys hw
        refine ⟨fun hrej => ?_, fun hnot => htaken fun hrej => hnot (List.mem_cons_of_mem _ hrej)⟩
        rcases List.mem_cons.mp hrej with heq | hrej
        · exact absurd (congrArg key heq.symm) (hx w hw)
        · exact hkept hrej

/-- Which writes are rejected: those later than what their key held whose time
another key held, unless an earlier write of the sequence has taken its place. -/
theorem Offers.mem_rejected_iff (h : Offers key time m ws rejected m')
    (hkeys : ws.Pairwise (fun a b => key a ≠ key b))
    (htimes : ws.Pairwise (fun a b => time a ≠ time b))
    {before : W → W → Prop} (hasymm : ∀ a b, before a b → ¬before b a)
    (hsorted : ws.Pairwise before) {w : W} (hw : w ∈ ws) :
    w ∈ rejected ↔ Fresh key time m w ∧ ∃ k, k ≠ key w ∧ ∃ v ∈ m k, time v = time w ∧
      ¬∃ u ∈ ws, before u w ∧ key u = k ∧ time v < time u ∧ u ∉ rejected := by
  -- on the offers: no later write is of the first one's key
  induction h with
  | nil => exact absurd hw List.not_mem_nil
  | @accept m _ x ws rejected hok hrest ih =>
      obtain ⟨hxkeys, hkeys⟩ := List.pairwise_cons.mp hkeys
      obtain ⟨hxtimes, htimes⟩ := List.pairwise_cons.mp htimes
      obtain ⟨hxbefore, hsorted⟩ := List.pairwise_cons.mp hsorted
      have hx : x ∉ rejected := fun hrej => hxkeys x (hrest.sublist.subset hrej) rfl
      rcases List.mem_cons.mp hw with rfl | hmem
      · refine ⟨fun hrej => absurd hrej hx, ?_⟩
        rintro ⟨hfresh, k, hk, v, hv, htime, _⟩
        exact absurd ⟨hfresh, k, hk, v, hv, htime⟩ hok
      · have hfresh : Fresh key time (deliver key time m x) w ↔ Fresh key time m w := by
          rw [Fresh, Fresh, deliver_of_ne (hxkeys w hmem)]
        rw [ih hkeys htimes hsorted hmem, hfresh]
        refine and_congr_right fun _ => exists_congr fun k => and_congr_right fun _ => ?_
        constructor
        · rintro ⟨v, hv, htime, hnone⟩
          rcases mem_deliver.mp hv with ⟨rfl, _⟩ | ⟨hv, hkeep⟩
          · exact absurd htime (hxtimes w hmem)
          · refine ⟨v, hv, htime, ?_⟩
            rintro ⟨u, hu, hbefore, hku, hlt, hrej⟩
            rcases List.mem_cons.mp hu with rfl | hu
            · -- the accepted write itself has not taken the place of v
              exact hkeep hku.symm hlt
            · exact hnone ⟨u, hu, hbefore, hku, hlt, hrej⟩
        · rintro ⟨v, hv, htime, hnone⟩
          refine ⟨v, mem_deliver.mpr (.inr ⟨hv, fun hk hlt => ?_⟩), htime, ?_⟩
          · exact hnone ⟨x, List.mem_cons_self, hxbefore w hmem, hk.symm, hlt, hx⟩
          · rintro ⟨u, hu, hrest⟩
            exact hnone ⟨u, List.mem_cons_of_mem _ hu, hrest⟩
  | @reject m _ x ws rejected hrej hrest ih =>
      obtain ⟨hxkeys, hkeys⟩ := List.pairwise_cons.mp hkeys
      obtain ⟨hxtimes, htimes⟩ := List.pairwise_cons.mp htimes
      obtain ⟨hxbefore, hsorted⟩ := List.pairwise_cons.mp hsorted
      rcases List.mem_cons.mp hw with rfl | hw
      · obtain ⟨hfresh, k, hk, v, hv, htime⟩ := hrej
        refine ⟨fun _ => ⟨hfresh, k, hk, v, hv, htime, ?_⟩, fun _ => List.mem_cons_self⟩
        rintro ⟨u, hu, hbefore, _⟩
        rcases List.mem_cons.mp hu with rfl | hu
        · exact hasymm _ _ hbefore hbefore
        · exact hasymm _ _ hbefore (hxbefore u hu)
      · have hcons : ∀ u ∈ ws, (u ∈ x :: rejected ↔ u ∈ rejected) := by
          intro u hu
          rw [List.mem_cons, or_iff_right]
          rintro rfl
          exact hxkeys u hu rfl
        rw [hcons w hw, ih hkeys htimes hsorted hw]
        refine and_congr_right fun _ => exists_congr fun k => and_congr_right fun _ =>
          exists_congr fun v => and_congr_right fun _ => and_congr_right fun _ => not_congr ?_
        constructor
        · rintro ⟨u, hu, hbefore, hku, hlt, hrej⟩
          exact ⟨u, List.mem_cons_of_mem _ hu, hbefore, hku, hlt, fun h => hrej ((hcons u hu).mp h)⟩
        · rintro ⟨u, hu, hbefore, hku, hlt, hrej⟩
          rcases List.mem_cons.mp hu with rfl | hu
          · exact absurd List.mem_cons_self hrej
          · exact ⟨u, hu, hbefore, hku, hlt, fun h => hrej ((hcons u hu).mpr h)⟩

/-- Where writes of one time are writes of one key, none is rejected. -/
theorem Offers.eq_foldl (h : Offers key time m ws rejected m')
    (hone : ∀ k, ∀ v ∈ m k, ∀ w ∈ ws, time v = time w → k = key w)
    (htimes : ∀ v ∈ ws, ∀ w ∈ ws, time v = time w → key v = key w) :
    rejected = [] ∧ m' = ws.foldl (deliver key time) m := by
  induction h with
  | nil => exact ⟨rfl, rfl⟩
  | @accept m _ x ws _ _ _ ih =>
      refine ih (fun k v hv w hw htime => ?_) fun v hv w hw =>
        htimes v (List.mem_cons_of_mem _ hv) w (List.mem_cons_of_mem _ hw)
      rcases mem_deliver.mp hv with ⟨rfl, hk, _⟩ | ⟨hv, _⟩
      · rw [hk]
        exact htimes v List.mem_cons_self w (List.mem_cons_of_mem _ hw) htime
      · exact hone k v hv w (List.mem_cons_of_mem _ hw) htime
  | reject hrej _ _ =>
      obtain ⟨_, k, hk, v, hv, htime⟩ := hrej
      exact absurd (hone k v hv _ List.mem_cons_self htime) hk

end Offer

section Change

/-! A map may lose keys too. Changes are listed with the latest first, as a history
grows. -/

inductive Change (κ W : Type*)
  | write (w : W)
  | remove (ks : List κ)
  deriving DecidableEq

variable {κ W τ : Type*} [DecidableEq κ] [LinearOrder τ] (key : W → κ) (time : W → τ)

def Change.apply (m : κ → Option W) : Change κ W → κ → Option W
  | .write w => deliver key time m w
  | .remove ks => fun k => if k ∈ ks then none else m k

def changed (m : κ → Option W) : List (Change κ W) → κ → Option W
  | [] => m
  | c :: cs => c.apply key time (changed m cs)

/-- The writes of a key since it was last removed. -/
def writesOf (m : κ → Option W) (k : κ) : List (Change κ W) → Set W
  | [] => {w | w ∈ m k}
  | .write w :: cs => if key w = k then insert w (writesOf m k cs) else writesOf m k cs
  | .remove ks :: cs => if k ∈ ks then ∅ else writesOf m k cs

variable {key time} {m : κ → Option W} {k : κ} {cs : List (Change κ W)}

@[simp] theorem changed_remove (m : κ → Option W) (ks : List κ) (cs : List (Change κ W)) (k : κ) :
    changed key time m (.remove ks :: cs) k = if k ∈ ks then none else changed key time m cs k := rfl

/-- A key is empty when nothing was written to it since it was last removed, and holds one
of the latest writes since then otherwise. -/
theorem changed_latest (m : κ → Option W) (k : κ) (cs : List (Change κ W)) :
    (∀ w ∈ changed key time m cs k, IsLatest time (writesOf key m k cs) w) ∧
      (changed key time m cs k = none → writesOf key m k cs = ∅) := by
  induction cs with
  | nil =>
      refine ⟨fun w hw => ⟨hw, fun v hv => ?_⟩, fun hnone => ?_⟩
      · rw [Option.mem_unique hv hw]
      · have hnone : m k = none := hnone
        simp [writesOf, hnone]
  | cons c cs ih =>
      cases c with
      | write w =>
          rw [changed, Change.apply, writesOf]
          by_cases hk : key w = k
          · subst hk
            rw [if_pos rfl, deliver, Function.update_self]
            refine ⟨fun x hx => IsLatest.later ih.1 ih.2 hx, fun hnone => ?_⟩
            have hsome : (later time (changed key time m cs (key w)) w).isSome := later_isSome _ w
            rw [hnone] at hsome
            contradiction
          · rw [if_neg hk, deliver_of_ne hk]
            exact ih
      | remove ks =>
          rw [changed_remove, writesOf]
          by_cases hk : k ∈ ks
          · simp [hk]
          · simpa only [if_neg hk] using ih

theorem mem_changed {w : W} (h : w ∈ changed key time m cs k) :
    w ∈ m k ∨ .write w ∈ cs ∧ key w = k := by
  induction cs with
  | nil => exact .inl h
  | cons c cs ih =>
      have hrest : w ∈ changed key time m cs k → w ∈ m k ∨ .write w ∈ c :: cs ∧ key w = k :=
        fun hw => (ih hw).imp_right fun hw => ⟨List.mem_cons_of_mem _ hw.1, hw.2⟩
      cases c with
      | write v =>
          rcases mem_deliver.mp h with ⟨rfl, rfl, _⟩ | ⟨hw, _⟩
          · exact .inr ⟨List.mem_cons_self, rfl⟩
          · exact hrest hw
      | remove ks =>
          rw [changed_remove] at h
          split at h
          · cases h
          · exact hrest h

/-- A key keeps its write or holds a later one, as long as it is not removed. -/
theorem changed_mono {v : W} (h : v ∈ changed key time m cs k) (cs' : List (Change κ W))
    (hkeep : ∀ ks, .remove ks ∈ cs' → k ∉ ks) :
    ∃ w ∈ changed key time m (cs' ++ cs) k, w = v ∨ time v < time w := by
  induction cs' with
  | nil => exact ⟨v, h, .inl rfl⟩
  | cons c cs' ih =>
      obtain ⟨w, hw, hlater⟩ := ih fun ks hks => hkeep ks (List.mem_cons_of_mem _ hks)
      cases c with
      | write x =>
          by_cases hreplace : k = key x ∧ time w < time x
          · obtain ⟨rfl, hlt⟩ := hreplace
            refine ⟨x, mem_deliver.mpr (.inl ⟨rfl, rfl, fun v' hv' => ?_⟩), .inr ?_⟩
            · rwa [Option.mem_unique hv' hw]
            · rcases hlater with rfl | hlt'
              · exact hlt
              · exact hlt'.trans hlt
          · exact ⟨w, mem_deliver.mpr (.inr ⟨hw, fun hk hlt => hreplace ⟨hk, hlt⟩⟩), hlater⟩
      | remove ks =>
          refine ⟨w, ?_, hlater⟩
          rw [List.cons_append, changed_remove, if_neg (hkeep ks List.mem_cons_self)]
          exact hw

end Change

end VmIo.Lib.Lww
