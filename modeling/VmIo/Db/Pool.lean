import VmIo.Lib.Transition

/-!
The pool of read connections.

A `get` takes the lock on the receiver, waits for an item with the lock in hand,
and returns a guard. The lock is given back with the end of the statement that
received, which is one step here with the receiving. Nothing in that statement
panics, so the lock is never poisoned. Dropping a guard sends its item back and
needs no lock.
-/

namespace VmIo.Db

open VmIo.Lib

structure PoolGuard (α : Type*) where
  item : Option α
  deriving DecidableEq

/-- A call of `get`, up to the drop of the guard it returned. -/
inductive GetPc (α : Type*)
  /-- `checkout_rx.lock()` -/
  | lock
  /-- `recv()`, holding the lock -/
  | recv
  | guard (g : PoolGuard α)
  | dropped
  deriving DecidableEq

structure RingPool (α : Type*) where
  /-- the items in the channel, the next to be received first -/
  channel : List α
  /-- the senders alive: `return_tx` of the pool and of each guard -/
  senders : ℕ
  /-- the call that holds the lock on `checkout_rx` -/
  holder : Option ℕ
  gets : List (GetPc α)
  deriving DecidableEq

inductive PoolAction
  /-- a task calls `get` -/
  | call
  | step (t : ℕ)
  deriving DecidableEq

section Pool

variable {α : Type*}

def RingPool.new (a b c : α) : RingPool α := ⟨[a, b, c], 1, none, []⟩

/-- `PoolGuard::deref`, which panics on `None`. -/
def PoolGuard.deref (g : PoolGuard α) : Option α := g.item

/-- `drop`: the item, if there is one, goes back to the channel. -/
def PoolGuard.drop (g : PoolGuard α) (channel : List α) : List α :=
  match g.item with
  | some item => channel ++ [item]
  | none => channel

/-- The next step of the call `t`. A `recv` on an empty channel waits as long as a
sender is alive. -/
def stepGet (s : RingPool α) (t : ℕ) : GetPc α → Option (RingPool α)
  | .lock =>
      match s.holder with
      | some _ => none
      | none => some { s with holder := some t, gets := s.gets.set t .recv }
  | .recv =>
      match s.channel with
      | item :: channel =>
          -- the statement ends, and with it the hold on the lock
          some ⟨channel, s.senders + 1, none, s.gets.set t (.guard ⟨some item⟩)⟩
      | [] =>
          if s.senders = 0 then
            some ⟨[], s.senders + 1, none, s.gets.set t (.guard ⟨none⟩)⟩
          else none
  | .guard g => some ⟨g.drop s.channel, s.senders - 1, s.holder, s.gets.set t .dropped⟩
  | .dropped => none

def poolStep (s : RingPool α) : PoolAction → Option (RingPool α)
  | .call => some { s with gets := s.gets ++ [.lock] }
  | .step t =>
      match s.gets[t]? with
      | none => none
      | some pc => stepGet s t pc

def GetPc.guard? : GetPc α → Option (PoolGuard α)
  | .guard g => some g
  | _ => none

def RingPool.guards (s : RingPool α) : List (PoolGuard α) := s.gets.filterMap GetPc.guard?

def RingPool.held (s : RingPool α) : List α := s.guards.filterMap PoolGuard.item

def RingPool.Waiting (s : RingPool α) (t : ℕ) : Prop :=
  s.gets[t]? = some .lock ∨ s.gets[t]? = some .recv

def RingPool.CanLock (s : RingPool α) (t : ℕ) : Prop :=
  ∃ s', poolStep s (.step t) = some s' ∧ s'.holder = some t ∧ s'.channel = s.channel

/-- The next step of the call takes the item at the head of the channel, gives the lock
back and returns a guard with the item. -/
def RingPool.CanTake (s : RingPool α) (t : ℕ) : Prop :=
  ∃ item channel s', s.channel = item :: channel ∧ poolStep s (.step t) = some s' ∧
    s'.channel = channel ∧ s'.holder = none ∧ s'.gets[t]? = some (.guard ⟨some item⟩)

/-! ### What a step can do -/

inductive PoolStep (s : RingPool α) : RingPool α → Prop
  | call : PoolStep s { s with gets := s.gets ++ [.lock] }
  | lock {t : ℕ} : s.gets[t]? = some .lock → s.holder = none →
      PoolStep s { s with holder := some t, gets := s.gets.set t .recv }
  | recv {t : ℕ} {item : α} {channel : List α} :
      s.gets[t]? = some .recv → s.channel = item :: channel →
      PoolStep s ⟨channel, s.senders + 1, none, s.gets.set t (.guard ⟨some item⟩)⟩
  /-- no sender is alive -/
  | hangUp {t : ℕ} : s.gets[t]? = some .recv → s.channel = [] → s.senders = 0 →
      PoolStep s ⟨[], s.senders + 1, none, s.gets.set t (.guard ⟨none⟩)⟩
  | drop {t : ℕ} {g : PoolGuard α} : s.gets[t]? = some (.guard g) →
      PoolStep s ⟨g.drop s.channel, s.senders - 1, s.holder, s.gets.set t .dropped⟩

theorem poolStep_cases {s s' : RingPool α} {a : PoolAction} (h : poolStep s a = some s') :
    PoolStep s s' := by
  cases a with
  | call =>
      cases h
      exact .call
  | step t =>
      simp only [poolStep] at h
      split at h
      · contradiction
      · rename_i pc hpc
        unfold stepGet at h
        split at h
        · split at h
          · contradiction
          · rename_i hholder
            cases h
            exact .lock hpc hholder
        · split at h
          · rename_i hchannel
            cases h
            exact .recv hpc hchannel
          · rename_i hchannel
            split at h
            · rename_i hsenders
              cases h
              exact .hangUp hpc hchannel hsenders
            · contradiction
        · cases h
          exact .drop hpc
        · contradiction

/-! ### What every state keeps -/

/-- No sender but those of the pool and of the guards, so as long as the pool lives
`recv` does not fail. -/
structure PoolInv (a b c : α) (s : RingPool α) : Prop where
  conserved : (s.channel ++ s.held).Perm [a, b, c]
  full : ∀ g ∈ s.guards, g.item.isSome = true
  senders : s.senders = s.guards.length + 1
  holder : ∀ t, s.holder = some t ↔ s.gets[t]? = some .recv

theorem filterMap_cons_toList {β γ : Type*} (f : β → Option γ) (x : β) (l : List β) :
    (x :: l).filterMap f = (f x).toList ++ l.filterMap f := by
  rw [List.filterMap_cons]
  cases f x with
  | none => rfl
  | some y => rfl

/-- Where a member of a list is replaced, what `f` made of it makes way for what `f`
makes of the new one. -/
theorem filterMap_set_perm {β γ : Type*} (f : β → Option γ) {l : List β} {t : ℕ} {x : β} (y : β)
    (h : l[t]? = some x) :
    ((f x).toList ++ (l.set t y).filterMap f).Perm ((f y).toList ++ l.filterMap f) := by
  obtain ⟨ht, rfl⟩ := List.getElem?_eq_some_iff.mp h
  have hset := (List.set_perm_cons_eraseIdx ht y).filterMap f
  have hold := (List.getElem_cons_eraseIdx_perm ht).filterMap f
  rw [filterMap_cons_toList] at hset hold
  calc ((f l[t]).toList ++ (l.set t y).filterMap f).Perm
        ((f l[t]).toList ++ ((f y).toList ++ (l.eraseIdx t).filterMap f)) := hset.append_left _
    _ |>.Perm ((f y).toList ++ ((f l[t]).toList ++ (l.eraseIdx t).filterMap f)) :=
        List.perm_append_comm_assoc ..
    _ |>.Perm ((f y).toList ++ l.filterMap f) := hold.append_left _

theorem guards_set_of_none {gets : List (GetPc α)} {t : ℕ} {pc pc' : GetPc α}
    (h : gets[t]? = some pc) (hpc : pc.guard? = none) (hpc' : pc'.guard? = none) :
    ((gets.set t pc').filterMap GetPc.guard?).Perm (gets.filterMap GetPc.guard?) := by
  have hperm := filterMap_set_perm GetPc.guard? pc' h
  rw [hpc, hpc'] at hperm
  exact hperm

theorem guards_set_guard {gets : List (GetPc α)} {t : ℕ} {g : PoolGuard α}
    (h : gets[t]? = some .recv) :
    ((gets.set t (.guard g)).filterMap GetPc.guard?).Perm (g :: gets.filterMap GetPc.guard?) :=
  filterMap_set_perm GetPc.guard? (.guard g) h

theorem guards_set_dropped {gets : List (GetPc α)} {t : ℕ} {g : PoolGuard α}
    (h : gets[t]? = some (.guard g)) :
    (g :: (gets.set t .dropped).filterMap GetPc.guard?).Perm (gets.filterMap GetPc.guard?) :=
  filterMap_set_perm GetPc.guard? .dropped h

theorem mem_guards {s : RingPool α} {g : PoolGuard α} :
    g ∈ s.guards ↔ ∃ t : ℕ, s.gets[t]? = some (.guard g) := by
  simp only [RingPool.guards, List.mem_filterMap]
  constructor
  · rintro ⟨pc, hpc, hg⟩
    obtain ⟨t, ht⟩ := List.mem_iff_getElem?.mp hpc
    cases pc with
    | guard g' =>
        cases hg
        exact ⟨t, ht⟩
    | lock => cases hg
    | recv => cases hg
    | dropped => cases hg
  · rintro ⟨t, ht⟩
    exact ⟨.guard g, List.mem_of_getElem? ht, rfl⟩

theorem poolInv_new (a b c : α) : PoolInv a b c (RingPool.new a b c) where
  conserved := .refl _
  full g hg := absurd hg List.not_mem_nil
  senders := rfl
  holder t := by simp [RingPool.new]

theorem getElem?_append_lock {gets : List (GetPc α)} {t : ℕ} :
    (gets ++ [GetPc.lock])[t]? = some .recv ↔ gets[t]? = some .recv := by
  rcases lt_trichotomy t gets.length with hlt | heq | hgt
  · rw [List.getElem?_append_left hlt]
  · subst heq
    simp
  · rw [List.getElem?_eq_none (by simp; omega), List.getElem?_eq_none (by omega)]

section Step

variable {a b c : α} {s : RingPool α}

theorem PoolInv.call (hs : PoolInv a b c s) :
    PoolInv a b c { s with gets := s.gets ++ [.lock] } := by
  have hguards : RingPool.guards { s with gets := s.gets ++ [.lock] } = s.guards := by
    simp [RingPool.guards, GetPc.guard?]
  refine ⟨?_, ?_, ?_, fun t => (hs.holder t).trans getElem?_append_lock.symm⟩
  · rw [RingPool.held, hguards]
    exact hs.conserved
  · rw [hguards]
    exact hs.full
  · rw [hguards]
    exact hs.senders

theorem PoolInv.lock (hs : PoolInv a b c s) {t : ℕ} (hpc : s.gets[t]? = some .lock)
    (hholder : s.holder = none) :
    PoolInv a b c { s with holder := some t, gets := s.gets.set t .recv } := by
  have hguards : (RingPool.guards { s with holder := some t, gets := s.gets.set t .recv }).Perm
      s.guards := guards_set_of_none hpc rfl rfl
  refine ⟨?_, fun g hg => hs.full g (hguards.mem_iff.mp hg), ?_, fun u => ?_⟩
  · exact ((hguards.filterMap PoolGuard.item).append_left _).trans hs.conserved
  · exact hs.senders.trans (congrArg (· + 1) hguards.length_eq.symm)
  · -- nobody else receives, as nobody held the lock
    have hu := hs.holder u
    have ht := (List.getElem?_eq_some_iff.mp hpc).1
    rw [hholder] at hu
    rw [List.getElem?_set]
    by_cases hut : t = u
    · subst hut
      simp [ht]
    · rw [if_neg hut, ← hu]
      simp [hut]

theorem PoolInv.recv (hs : PoolInv a b c s) {t : ℕ} {item : α} {channel : List α}
    (hpc : s.gets[t]? = some .recv) (hchannel : s.channel = item :: channel) :
    PoolInv a b c ⟨channel, s.senders + 1, none, s.gets.set t (.guard ⟨some item⟩)⟩ := by
  have hguards : (RingPool.guards ⟨channel, s.senders + 1, none,
      s.gets.set t (.guard ⟨some item⟩)⟩).Perm (⟨some item⟩ :: s.guards) := guards_set_guard hpc
  refine ⟨?_, fun g hg => ?_, ?_, fun u => ?_⟩
  · have hconserved := hs.conserved
    rw [hchannel] at hconserved
    have hheld := hguards.filterMap PoolGuard.item
    exact ((hheld.append_left channel).trans List.perm_middle).trans hconserved
  · rcases List.mem_cons.mp (hguards.mem_iff.mp hg) with rfl | hg
    · rfl
    · exact hs.full g hg
  · have hlength := hguards.length_eq
    have hsenders := hs.senders
    simp only [List.length_cons] at hlength ⊢
    omega
  · have hu := hs.holder u
    have ht := (hs.holder t).mpr hpc
    rw [List.getElem?_set]
    by_cases hut : t = u
    · simp [hut]
    · rw [if_neg hut, ← hu, ht]
      simp [hut]

theorem PoolInv.dropped (hs : PoolInv a b c s) {t : ℕ} {g : PoolGuard α}
    (hpc : s.gets[t]? = some (.guard g)) :
    PoolInv a b c ⟨g.drop s.channel, s.senders - 1, s.holder, s.gets.set t .dropped⟩ := by
  have hguards : (g :: RingPool.guards ⟨g.drop s.channel, s.senders - 1, s.holder,
      s.gets.set t .dropped⟩).Perm s.guards := guards_set_dropped hpc
  obtain ⟨item, hitem⟩ := Option.isSome_iff_exists.mp (hs.full g (mem_guards.mpr ⟨t, hpc⟩))
  refine ⟨?_, fun g' hg' => ?_, ?_, fun u => ?_⟩
  · have hheld := hguards.filterMap PoolGuard.item
    rw [List.filterMap_cons_some hitem] at hheld
    have hdrop : g.drop s.channel = s.channel ++ [item] := by rw [PoolGuard.drop, hitem]
    rw [hdrop, List.append_assoc]
    exact (hheld.append_left s.channel).trans hs.conserved
  · exact hs.full g' (hguards.mem_iff.mp (List.mem_cons_of_mem _ hg'))
  · have hlength := hguards.length_eq
    have hsenders := hs.senders
    simp only [List.length_cons] at hlength ⊢
    omega
  · have hu := hs.holder u
    rw [List.getElem?_set]
    by_cases hut : t = u
    · subst hut
      rw [hpc] at hu
      simp_all
    · rw [if_neg hut]
      exact hu

theorem poolInv_step {s' : RingPool α} (hs : PoolInv a b c s) (h : PoolStep s s') :
    PoolInv a b c s' := by
  cases h with
  | call => exact hs.call
  | lock hpc hholder => exact hs.lock hpc hholder
  | recv hpc hchannel => exact hs.recv hpc hchannel
  | hangUp _ _ hsenders =>
      -- the pool itself keeps a sender
      have hsome := hs.senders
      omega
  | drop hpc => exact hs.dropped hpc

end Step

theorem poolInv {a b c : α} {s : RingPool α}
    (h : Reach poolStep (fun _ _ => True) (RingPool.new a b c) s) : PoolInv a b c s :=
  Reach.invariant (poolInv_new a b c)
    (fun _ _ _ hs _ hstep => poolInv_step hs (poolStep_cases hstep)) h

/-! ### What the invariant gives -/

variable {a b c : α} {s : RingPool α}

theorem PoolInv.deref (hs : PoolInv a b c s) {t : ℕ} {g : PoolGuard α}
    (h : s.gets[t]? = some (.guard g)) : ∃ item, g.deref = some item :=
  Option.isSome_iff_exists.mp (hs.full g (mem_guards.mpr ⟨t, h⟩))

/-- Of different items no two guards hold the same, nor is one that is held in the
channel. -/
theorem PoolInv.unshared (hs : PoolInv a b c s) (hitems : [a, b, c].Nodup) {t u : ℕ}
    {g g' : PoolGuard α} {item : α} (ht : s.gets[t]? = some (.guard g))
    (hu : s.gets[u]? = some (.guard g')) (hg : g.item = some item) (hg' : g'.item = some item) :
    t = u ∧ item ∉ s.channel := by
  have hnodup := hs.conserved.nodup_iff.mpr hitems
  rw [List.nodup_append] at hnodup
  obtain ⟨_, hheld, hdisjoint⟩ := hnodup
  have hmem : item ∈ s.held := List.mem_filterMap.mpr ⟨g, mem_guards.mpr ⟨t, ht⟩, hg⟩
  refine ⟨?_, fun hchannel => hdisjoint item hchannel item hmem rfl⟩
  by_contra hne
  obtain ⟨htlen, htget⟩ := List.getElem?_eq_some_iff.mp ht
  obtain ⟨hulen, huget⟩ := List.getElem?_eq_some_iff.mp hu
  rw [RingPool.held, RingPool.guards, List.filterMap_filterMap, List.Nodup,
    List.pairwise_filterMap, List.pairwise_iff_getElem] at hheld
  have hat : ∀ {v : ℕ} {g : PoolGuard α} (hv : v < s.gets.length), s.gets[v] = .guard g →
      g.item = some item → (s.gets[v].guard?.bind PoolGuard.item) = some item := by
    intro v g hv hget hitem
    rw [hget]
    exact hitem
  rcases Nat.lt_or_gt_of_ne hne with hlt | hlt
  · exact hheld t u htlen hulen hlt item (hat htlen htget hg) item (hat hulen huget hg') rfl
  · exact hheld u t hulen htlen hlt item (hat hulen huget hg') item (hat htlen htget hg) rfl

theorem PoolInv.canTake (hs : PoolInv a b c s) {u : ℕ} (hu : s.holder = some u)
    (hchannel : s.channel ≠ []) : s.CanTake u := by
  obtain ⟨item, channel, heq⟩ := List.exists_cons_of_ne_nil hchannel
  have hpc := (hs.holder u).mp hu
  have hlen := (List.getElem?_eq_some_iff.mp hpc).1
  have hstep : poolStep s (.step u) =
      some ⟨channel, s.senders + 1, none, s.gets.set u (.guard ⟨some item⟩)⟩ := by
    simp only [poolStep, hpc, stepGet, heq]
  exact ⟨item, channel, _, heq, hstep, rfl, rfl, List.getElem?_set_self hlen⟩

theorem PoolInv.waiting (hs : PoolInv a b c s) {t : ℕ} (ht : s.Waiting t)
    (hchannel : s.channel ≠ []) :
    (∃ u, s.holder = some u ∧ s.CanTake u) ∨ s.holder = none ∧ s.CanLock t := by
  cases hholder : s.holder with
  | some u => exact .inl ⟨u, rfl, hs.canTake hholder hchannel⟩
  | none =>
      rcases ht with hlock | hrecv
      · have hstep : poolStep s (.step t) =
            some { s with holder := some t, gets := s.gets.set t .recv } := by
          simp only [poolStep, hlock, stepGet, hholder]
        exact .inr ⟨rfl, _, hstep, rfl, rfl⟩
      · rw [(hs.holder t).mpr hrecv] at hholder
        contradiction

/-- Dropping a guard waits for nothing and leaves its item in the channel. -/
theorem PoolInv.drop (hs : PoolInv a b c s) {t : ℕ} {g : PoolGuard α}
    (h : s.gets[t]? = some (.guard g)) :
    ∃ item s', g.deref = some item ∧ poolStep s (.step t) = some s' ∧
      s'.channel = s.channel ++ [item] := by
  obtain ⟨item, hitem⟩ := hs.deref h
  have hstep : poolStep s (.step t) =
      some ⟨g.drop s.channel, s.senders - 1, s.holder, s.gets.set t .dropped⟩ := by
    simp only [poolStep, h, stepGet]
  refine ⟨item, _, hitem, hstep, ?_⟩
  rw [PoolGuard.deref] at hitem
  simp only [PoolGuard.drop, hitem]

/-- The items in the channel and those of the live guards are the three the pool was made
with. Every guard holds one. A call that waits while the channel has an item waits for
nothing but its own turn, and a guard that is dropped puts its item into the channel. -/
theorem pool_conserves
    (h : Reach poolStep (fun _ _ => True) (RingPool.new a b c) s) :
    (s.channel ++ s.held).Perm [a, b, c] ∧
      ([a, b, c].Nodup → ∀ (t u : ℕ) (g g' : PoolGuard α) (item : α),
        s.gets[t]? = some (.guard g) → s.gets[u]? = some (.guard g') →
        g.item = some item → g'.item = some item → t = u ∧ item ∉ s.channel) ∧
      (∀ (t : ℕ) (g : PoolGuard α), s.gets[t]? = some (.guard g) → ∃ item, g.deref = some item) ∧
      (∀ t, s.Waiting t → s.channel ≠ [] →
        (∃ u, s.holder = some u ∧ s.CanTake u) ∨ s.holder = none ∧ s.CanLock t) ∧
      (∀ (t : ℕ) (g : PoolGuard α), s.gets[t]? = some (.guard g) →
        ∃ item s', g.deref = some item ∧ poolStep s (.step t) = some s' ∧
          s'.channel = s.channel ++ [item]) := by
  have hs := poolInv h
  exact ⟨hs.conserved, fun hitems _ _ _ _ _ ht hu hg hg' => hs.unshared hitems ht hu hg hg',
    fun _ _ => hs.deref, fun _ => hs.waiting, fun _ _ => hs.drop⟩

end Pool

/-- Three calls have taken the items, and the fourth waits with the lock in hand when the
second is dropped. -/
theorem pool_conserves_exhausted :
    ∃ s, Reach poolStep (fun _ _ => True) (RingPool.new 10 20 30) s ∧
      s.Waiting 3 ∧ s.CanTake 3 := by
  obtain ⟨s, hreach, hchannel, hholder, hgets⟩ := Reach.exists_of_runOk poolStep
    (fun _ _ => True) (RingPool.new 10 20 30)
    [.call, .call, .call, .call, .step 0, .step 0, .step 1, .step 1, .step 2, .step 2, .step 3,
      .step 1]
    (fun s => s.channel = [20] ∧ s.holder = some 3 ∧ s.gets[3]? = some .recv)
    (by decide +kernel)
  have hwaiting : s.Waiting 3 := .inr hgets
  refine ⟨s, hreach, hwaiting, ?_⟩
  rcases (pool_conserves hreach).2.2.2.1 3 hwaiting (by rw [hchannel]; exact List.cons_ne_nil _ _)
    with ⟨u, hu, htake⟩ | ⟨hnone, _⟩
  · rw [hholder] at hu
    cases hu
    exact htake
  · rw [hholder] at hnone
    contradiction

end VmIo.Db
