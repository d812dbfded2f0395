import VmIo.Back.History

/-!
What the puts of a process cost each other.

A put loses steps to the others in one way only: the counter changes between its
`counter.load` and its `compare_exchange`. The proofs weigh where a put is by the steps it
has left if that does not happen again. A put loses an attempt in one way only as well: its
timestamp is taken, and the counter gives a timestamp to one put only.
-/

namespace VmIo.Back

open VmIo.Lib VmIo.Db

/-- What a put has done so far, and what has been done to it. -/
structure PutCost where
  steps : ℕ
  /-- its own changes of the counter -/
  changes : ℕ
  /-- changes of the counter by other puts between its `load` and its `compare_exchange` -/
  contention : ℕ

abbrev Costs := ℕ → PutCost

def Costs.none : Costs := fun _ => ⟨0, 0, 0⟩

def PutPc.exchanging : PutPc → Bool
  | .compareExchange .. => true
  | _ => false

def counterChanges (s s' : Server) : ℕ := if s'.node.counter = s.node.counter then 0 else 1

def recordCost (s : Server) (a : ServerAction) (s' : Server) (g : Costs) : Costs :=
  match a with
  | .step t _ => fun u =>
      let cost := g u
      if u = t then
        { cost with steps := cost.steps + 1, changes := cost.changes + counterChanges s s' }
      else if s.puts[u]?.any (fun p => p.pc.exchanging) then
        { cost with contention := cost.contention + counterChanges s s' }
      else cost
  | _ => g

/-- The steps a put takes from here, at most, if nothing else changes the counter. -/
def PutPc.stepsLeft (counter : ℤ) : PutPc → ℕ
  | .start => 258
  | .fetchMax _ => 2
  | .upsertAt _ => 1
  | .attempt left _ => 4 * left + 1
  | .load left _ => 4 * left + 4
  -- two more for the exchange that fails and the load after it
  | .compareExchange left _ prev => if counter = prev then 4 * left + 3 else 4 * left + 5
  | .upsert left _ => 4 * left + 2
  | .done _ => 0

def PutPc.changesLeft : PutPc → ℕ
  | .start => 64
  | .fetchMax _ => 1
  | .upsertAt _ => 0
  | .attempt left _ => left
  | .load left _ => left + 1
  | .compareExchange left _ _ => left + 1
  | .upsert left _ => left
  | .done _ => 0

/-! ### What a step costs -/

section Step

variable {n n' : Node} {now : ℤ} {req : CfgPutReq} {pc pc' : PutPc} {c : Choice}

theorem stepPut_reload {left : ℕ} {reading prev : ℤ}
    (h : stepPut n now req (.compareExchange left reading prev) c = some (n', .load left reading)) :
    n.counter ≠ prev := by
  rintro rfl
  cases c with
  | ok => simp [stepPut] at h
  | fail => cases h
  | portion n => cases h
  | listing names => cases h

theorem stepPut_stepsLeft (h : stepPut n now req pc c = some (n', pc')) :
    pc'.stepsLeft n'.counter < pc.stepsLeft n.counter := by
  cases stepPut_cases h with
  | reload =>
      simp only [PutPc.stepsLeft, if_neg (stepPut_reload h)]
      omega
  | load =>
      simp only [PutPc.stepsLeft, if_true]
      omega
  | exchange =>
      simp only [PutPc.stepsLeft, if_true]
      omega
  | _ =>
      simp only [PutPc.stepsLeft]
      omega

/-- A change of the counter costs a put that is to exchange it two steps. -/
theorem PutPc.stepsLeft_le (pc : PutPc) (counter counter' : ℤ) :
    pc.stepsLeft counter' ≤ pc.stepsLeft counter + 2 * (if pc.exchanging then 1 else 0) := by
  cases pc with
  | compareExchange left reading prev =>
      simp only [PutPc.stepsLeft, PutPc.exchanging, if_true]
      split <;> split <;> omega
  | _ => exact Nat.le_add_right _ _

theorem PutStep.changesLeft (h : PutStep n now req pc n' pc') :
    pc'.changesLeft + (if n'.counter = n.counter then 0 else 1) ≤ pc.changesLeft := by
  cases h with
  | fetchMax =>
      simp only [PutPc.changesLeft]
      split <;> omega
  | exchange =>
      simp only [PutPc.changesLeft]
      split <;> omega
  | _ => simp [PutPc.changesLeft]

theorem stepPut_ok (hpc : ∀ res, pc ≠ .done res) : ∃ r, stepPut n now req pc .ok = some r := by
  refine Option.isSome_iff_exists.mp ?_
  cases pc with
  | done res => exact absurd rfl (hpc res)
  | attempt left lastErr => cases left <;> rfl
  | _ =>
      simp only [stepPut, runUpsert]
      repeat' split
      all_goals first | rfl | contradiction

end Step

/-! ### What a run costs -/

structure Charged (s : Server) (g : Costs) : Prop where
  steps : ∀ (t : ℕ) (p : Put), s.puts[t]? = some p →
    (g t).steps + p.pc.stepsLeft s.node.counter ≤ 258 + 2 * (g t).contention
  changes : ∀ (t : ℕ) (p : Put), s.puts[t]? = some p → (g t).changes + p.pc.changesLeft ≤ 64
  contention : ∀ t, (g t).contention ≤ ∑ u ∈ (Finset.range s.puts.length).erase t, (g u).changes
  fresh : ∀ t, s.puts.length ≤ t → g t = ⟨0, 0, 0⟩

theorem charged_start (sql : Sql) (t₀ : ℤ) : Charged (Server.start sql t₀) Costs.none where
  steps t p hp := by simp [Server.start] at hp
  changes t p hp := by simp [Server.start] at hp
  contention _ := Nat.zero_le _
  fresh _ _ := rfl

section Charged

variable {s s' : Server} {g : Costs}

theorem Charged.spawn (hs : Charged s g) (req : CfgPutReq) :
    Charged { s with puts := s.puts ++ [⟨req, .start⟩] } g := by
  refine ⟨fun t p hp => ?_, fun t p hp => ?_, fun t => ?_, fun t ht => ?_⟩
  · rcases getElem?_concat_cases hp with hp | ⟨hge, rfl⟩
    · exact hs.steps t p hp
    · simp [hs.fresh t hge, PutPc.stepsLeft]
  · rcases getElem?_concat_cases hp with hp | ⟨hge, rfl⟩
    · exact hs.changes t p hp
    · simp [hs.fresh t hge, PutPc.changesLeft]
  · refine (hs.contention t).trans (Finset.sum_le_sum_of_subset ?_)
    refine Finset.erase_subset_erase t (Finset.range_subset_range.mpr ?_)
    simp
  · rw [List.length_append, List.length_singleton] at ht
    exact hs.fresh t (by omega)

/-- A step of a put is paid for by itself, and what it costs the others is charged to them. -/
theorem Charged.put (hs : Charged s g) {t : ℕ} {c : Choice} {p : Put} {n : Node} {pc : PutPc}
    (hp : s.puts[t]? = some p) (hput : stepPut s.node s.now p.req p.pc c = some (n, pc)) :
    Charged ⟨n, s.now, s.puts.set t ⟨p.req, pc⟩⟩
      (recordCost s (.step t c) ⟨n, s.now, s.puts.set t ⟨p.req, pc⟩⟩ g) := by
  have ht : t < s.puts.length := (List.getElem?_eq_some_iff.mp hp).1
  have hsteps := stepPut_stepsLeft hput
  have hchanges := (stepPut_cases hput).changesLeft
  have hrecord : ∀ u, (recordCost s (.step t c) ⟨n, s.now, s.puts.set t ⟨p.req, pc⟩⟩ g u) =
      if u = t then ⟨(g u).steps + 1,
        (g u).changes + (if n.counter = s.node.counter then 0 else 1), (g u).contention⟩
      else if s.puts[u]?.any (fun p => p.pc.exchanging) then ⟨(g u).steps, (g u).changes,
        (g u).contention + (if n.counter = s.node.counter then 0 else 1)⟩
      else g u := fun _ => rfl
  generalize recordCost s (.step t c) ⟨n, s.now, s.puts.set t ⟨p.req, pc⟩⟩ g = g' at hrecord
  generalize hδ : (if n.counter = s.node.counter then 0 else 1) = δ at hchanges hrecord
  refine ⟨fun u q hq => ?_, fun u q hq => ?_, fun u => ?_, fun u hu => ?_⟩
  · have hpaid := hs.steps t p hp
    rcases getElem?_set_cases hq with ⟨rfl, rfl⟩ | ⟨hne, hq⟩
    · simp only [hrecord, if_true]
      omega
    · have hpaid := hs.steps u q hq
      simp only [hrecord, if_neg hne, hq, Option.any_some]
      by_cases heq : n.counter = s.node.counter
      · rw [heq]
        split
        · exact hpaid.trans (by simp only; omega)
        · exact hpaid
      · have hle := q.pc.stepsLeft_le s.node.counter n.counter
        rw [if_neg heq] at hδ
        cases hex : q.pc.exchanging with
        | true =>
            simp only [hex, if_true] at hle ⊢
            omega
        | false =>
            simp only [hex, Bool.false_eq_true, if_false] at hle ⊢
            omega
  · rcases getElem?_set_cases hq with ⟨rfl, rfl⟩ | ⟨hne, hq⟩
    · have hpaid := hs.changes u p hp
      simp only [hrecord, if_true]
      omega
    · simp only [hrecord, if_neg hne]
      split <;> exact hs.changes u q hq
  · have hsum : ∑ v ∈ (Finset.range s.puts.length).erase u, (g' v).changes =
        ∑ v ∈ (Finset.range s.puts.length).erase u, (g v).changes +
          if u = t then 0 else δ := by
      have hv : ∀ v, (g' v).changes = (g v).changes + if v = t then δ else 0 := by
        intro v
        rw [hrecord]
        split
        · rfl
        · split <;> rfl
      simp only [hv, Finset.sum_add_distrib, Finset.sum_ite_eq', Finset.mem_erase, Finset.mem_range]
      congr 1
      by_cases hut : u = t
      · simp [hut]
      · simp [hut, Ne.symm hut, ht]
    have hle := hs.contention u
    simp only [List.length_set]
    rw [hsum, hrecord]
    split
    · exact hle
    · split
      · exact Nat.add_le_add_right hle _
      · exact hle.trans (Nat.le_add_right _ _)
  · simp only [List.length_set] at hu
    rw [hrecord, if_neg (by omega), if_neg (by simp [List.getElem?_eq_none hu])]
    exact hs.fresh u hu

theorem charged_step {a : ServerAction} (hs : Charged s g) (h : serverStep s a = some s') :
    Charged s' (recordCost s a s' g) := by
  cases a with
  | spawn req =>
      cases h
      exact hs.spawn req
  | step t c =>
      simp only [serverStep] at h
      split at h
      · contradiction
      · rename_i p hp
        obtain ⟨⟨n, pc⟩, hput, rfl⟩ := Option.map_eq_some_iff.mp h
        exact hs.put hp hput
  | prune nowMicros =>
      cases h
      exact ⟨hs.steps, hs.changes, hs.contention, hs.fresh⟩
  | tick d =>
      cases h
      exact ⟨hs.steps, hs.changes, hs.contention, hs.fresh⟩

end Charged

/-- A put takes at most 258 steps and two more for every time another put has changed the
counter between its `load` and its `compare_exchange`, which each of them does at most 64
times. Until it has returned it can take its next step, whatever the others do, so it returns
if only it keeps being run. -/
theorem put_steps_bounded {sql : Sql} {t₀ : ℤ} {s : Server} {g : Costs}
    (h : Reach (observe serverStep recordCost) (fun _ _ => True)
      (Server.start sql t₀, Costs.none) (s, g)) {t : ℕ} (ht : t < s.puts.length) :
    (g t).steps ≤ 258 + 2 * (g t).contention ∧
      (g t).contention ≤ 64 * (s.puts.length - 1) ∧
      (s.Returned t ∨ ∃ s', serverStep s (.step t .ok) = some s') := by
  have hs : Charged s g := by
    refine Reach.invariant (I := fun q => Charged q.1 q.2) (charged_start sql t₀) ?_ h
    rintro ⟨s, g⟩ a ⟨s', g'⟩ hs _ hstep
    obtain ⟨hserver, hg⟩ := observe_eq_some_iff.mp hstep
    have hg : g' = recordCost s a s' g := hg
    rw [hg]
    exact charged_step hs hserver
  have hp : s.puts[t]? = some s.puts[t] := List.getElem?_eq_getElem ht
  refine ⟨(Nat.le_add_right _ _).trans (hs.steps t _ hp), (hs.contention t).trans ?_, ?_⟩
  · have hchanges : ∀ u ∈ (Finset.range s.puts.length).erase t, (g u).changes ≤ 64 := by
      intro u hu
      have hu := Finset.mem_range.mp (Finset.mem_of_mem_erase hu)
      exact (Nat.le_add_right _ _).trans (hs.changes u _ (List.getElem?_eq_getElem hu))
    refine (Finset.sum_le_card_nsmul _ _ _ hchanges).trans_eq ?_
    rw [Finset.card_erase_of_mem (Finset.mem_range.mpr ht), Finset.card_range, smul_eq_mul,
      Nat.mul_comm]
  · by_cases hpc : ∃ res, (s.puts[t]).pc = .done res
    · obtain ⟨res, hres⟩ := hpc
      exact .inl ⟨_, res, hp, hres⟩
    · have hstep : ∃ r, stepPut s.node s.now (s.puts[t]).req (s.puts[t]).pc .ok = some r :=
        stepPut_ok (not_exists.mp hpc)
      obtain ⟨r, hr⟩ := hstep
      exact .inr ⟨_, (by simp only [serverStep, hp, hr, Option.map_some]; rfl)⟩

theorem put_steps_bounded_contended :
    ∃ s g, Reach (observe serverStep recordCost) (fun _ _ => True)
        (Server.start Sql.empty 1000, Costs.none) (s, g) ∧
      ((g 0).steps = 7 ∧ (g 0).contention = 1) ∧ (g 0).contention ≤ 64 * (s.puts.length - 1) := by
  obtain ⟨⟨s, g⟩, hreach, hcost, hlen⟩ := Reach.exists_of_runOk
    (observe serverStep recordCost) (fun _ _ => True) (Server.start Sql.empty 1000, Costs.none)
    [.spawn ⟨"k", "", none, none⟩, .spawn ⟨"j", "", none, none⟩, .step 0 .ok, .step 0 .ok,
      .step 0 .ok, .step 1 .ok, .step 1 .ok, .step 1 .ok, .step 1 .ok, .step 0 .ok, .step 0 .ok,
      .step 0 .ok, .step 0 .ok]
    (fun q => ((q.2 0).steps = 7 ∧ (q.2 0).contention = 1) ∧ q.1.puts.length = 2)
    (by decide +kernel)
  have hlt : 0 < s.puts.length := by
    simp only at hlen
    omega
  exact ⟨s, g, hreach, hcost, (put_steps_bounded hreach hlt).2.1⟩

/-! ### Timestamps that are taken -/

def ServerAction.Runs (a : ServerAction) : Prop := ∀ t, a ≠ .step t .fail

instance (a : ServerAction) : Decidable a.Runs :=
  match a with
  | .step _ .fail => isFalse fun h => h _ rfl
  | .step _ .ok => isTrue (by simp [ServerAction.Runs])
  | .step _ (.portion _) => isTrue (by simp [ServerAction.Runs])
  | .step _ (.listing _) => isTrue (by simp [ServerAction.Runs])
  | .spawn _ => isTrue (by simp [ServerAction.Runs])
  | .prune _ => isTrue (by simp [ServerAction.Runs])
  | .tick _ => isTrue (by simp [ServerAction.Runs])

/-- The timestamp was given away without the counter: an entry of another key had it from the
start, or an explicit put has written one with it. -/
def TakenApart (sql : Sql) (s : Server) (key : String) (modified : ℤ) : Prop :=
  (∃ e ∈ sql.entries.rows, e.modifiedAtMicros = modified ∧ e.pk ≠ (cfgClass, key)) ∨
    ∃ (t : ℕ) (p : Put), s.puts[t]? = some p ∧ p.req.modifiedAtMicros = some modified ∧
      p.req.key ≠ key ∧ p.pc = .done (.ok (modified, true))

/-- No two puts have a timestamp from the counter in common, and what is stored was there from
the start or is what some put has written. -/
structure Allocated (sql : Sql) (s : Server) : Prop where
  own : ∀ (t : ℕ) (p : Put), s.puts[t]? = some p → p.pc.Own p.req
  reached : ∀ (t : ℕ) (p : Put), s.puts[t]? = some p → ∀ m ∈ p.pc.modified, m ≤ s.node.counter
  apart : ∀ (t u : ℕ) (p q : Put), t ≠ u → s.puts[t]? = some p → s.puts[u]? = some q →
    p.req.modifiedAtMicros = none → q.req.modifiedAtMicros = none →
    ∀ m ∈ p.pc.modified, m ∉ q.pc.modified
  rows : ∀ e ∈ s.node.sql.entries.rows, e ∈ sql.entries.rows ∨
    ∃ (t : ℕ) (p : Put), s.puts[t]? = some p ∧ e = Put.row p.req e.modifiedAtMicros ∧
      p.pc = .done (.ok (e.modifiedAtMicros, true))

theorem allocated_start (sql : Sql) (t₀ : ℤ) : Allocated sql (Server.start sql t₀) where
  own t p hp := by simp [Server.start] at hp
  reached t p hp := by simp [Server.start] at hp
  apart t u p q _ hp := by simp [Server.start] at hp
  rows e he := .inl he

theorem PutStep.modified_new {n n' : Node} {now : ℤ} {req : CfgPutReq} {pc pc' : PutPc}
    (h : PutStep n now req pc n' pc') (hn : n.counter < i64Max) (hpc : pc.Own req)
    (hnone : req.modifiedAtMicros = none) :
    ∀ m ∈ pc'.modified, m ∈ pc.modified ∨ n.counter < m := by
  intro m hm
  cases h with
  | fetchMax => cases hnone.symm.trans hpc
  | exchange =>
      cases hm
      exact .inr (nextMicros_bounds hn).1
  | commitAt hup => exact .inl hm
  | commit hup => exact .inl hm
  | _ => cases hm

theorem allocated_step {sql : Sql} {s s' : Server} {a : ServerAction} (hs : Allocated sql s)
    (hok : s.CounterOk) (h : ServerStep s a s') : Allocated sql s' := by
  have hrows : ∀ e ∈ s.node.sql.entries.rows, e ∈ sql.entries.rows ∨
      ∃ (t : ℕ) (p : Put), s'.puts[t]? = some p ∧ e = Put.row p.req e.modifiedAtMicros ∧
        p.pc = .done (.ok (e.modifiedAtMicros, true)) := by
    intro e he
    rcases hs.rows e he with he | ⟨t, p, hp, heq, hpc⟩
    · exact .inl he
    · exact .inr ⟨t, p, h.returned hp hpc, heq, hpc⟩
  cases h with
  | spawn =>
      refine ⟨fun t p hp => ?_, fun t p hp => ?_, fun t u p q hne hp hq hpn hqn m hm => ?_, hrows⟩
      · rcases getElem?_concat_cases hp with hp | ⟨_, rfl⟩
        · exact hs.own t p hp
        · trivial
      · rcases getElem?_concat_cases hp with hp | ⟨_, rfl⟩
        · exact hs.reached t p hp
        · exact fun m hm => absurd hm (Option.not_mem_none m)
      · rcases getElem?_concat_cases hp with hp | ⟨_, rfl⟩
        · rcases getElem?_concat_cases hq with hq | ⟨_, rfl⟩
          · exact hs.apart t u p q hne hp hq hpn hqn m hm
          · exact Option.not_mem_none m
        · cases hm
  | @put t c p n pc hp hput =>
      have hown := hs.own t p hp
      have hle := hput.counter_le hok
      -- what the put has now is no other put's
      have hnew : ∀ (u : ℕ) (q : Put), t ≠ u → s.puts[u]? = some q → p.req.modifiedAtMicros = none →
          q.req.modifiedAtMicros = none → ∀ m ∈ pc.modified, m ∉ q.pc.modified := by
        intro u q hne hq hpn hqn m hm hmq
        rcases hput.modified_new hok hown hpn m hm with hold | hlt
        · exact hs.apart t u p q hne hp hq hpn hqn m hold hmq
        · exact absurd (hs.reached u q hq m hmq) (not_le.mpr hlt)
      refine ⟨fun u q hq => ?_, fun u q hq => ?_, fun u v q r hne hq hr hqn hrn m hm hmr => ?_,
        fun e he => ?_⟩
      · rcases getElem?_set_cases hq with ⟨_, rfl⟩ | ⟨_, hq⟩
        · exact hput.own hown
        · exact hs.own u q hq
      · rcases getElem?_set_cases hq with ⟨_, rfl⟩ | ⟨_, hq⟩
        · exact hput.modified_le (hs.reached t p hp)
        · exact fun m hm => (hs.reached u q hq m hm).trans hle
      · rcases getElem?_set_cases hq with ⟨rfl, rfl⟩ | ⟨hu, hq'⟩
        · rcases getElem?_set_cases hr with ⟨rfl, rfl⟩ | ⟨_, hr'⟩
          · exact hne rfl
          · exact hnew v r hne hr' hqn hrn m hm hmr
        · rcases getElem?_set_cases hr with ⟨rfl, rfl⟩ | ⟨_, hr'⟩
          · exact hnew u q hne.symm hq' hrn hqn m hmr hm
          · exact hs.apart u v q r hne hq' hr' hqn hrn m hm hmr
      · rcases hput.rows he with he | ⟨modified, rfl, _, rfl⟩
        · exact hrows e he
        · exact .inr ⟨t, _, List.getElem?_set_self (List.getElem?_eq_some_iff.mp hp).1, rfl, rfl⟩
  | prune =>
      exact ⟨hs.own, hs.reached, hs.apart,
        fun e he => hrows e (Sql.mem_deleteEntries_entries.mp he).1⟩
  | tick => exact ⟨hs.own, hs.reached, hs.apart, hrows⟩

theorem TakenApart.step {sql : Sql} {s s' : Server} {a : ServerAction} {key : String}
    {modified : ℤ} (hs : TakenApart sql s key modified) (h : ServerStep s a s') :
    TakenApart sql s' key modified := by
  rcases hs with hrow | ⟨t, p, hp, hreq, hkey, hpc⟩
  · exact .inl hrow
  · exact .inr ⟨t, p, h.returned hp hpc, hreq, hkey, hpc⟩

theorem Allocated.takenApart {sql : Sql} {s : Server} (hs : Allocated sql s) {t left : ℕ} {p : Put}
    {modified : ℤ} (hp : s.puts[t]? = some p) (hnone : p.req.modifiedAtMicros = none)
    (hpc : p.pc = .upsert left modified)
    (htaken : s.node.sql.ModifiedTaken (Put.row p.req modified)) :
    TakenApart sql s p.req.key modified := by
  obtain ⟨e, he, hmod, hpk⟩ := htaken
  have hmod : e.modifiedAtMicros = modified := hmod
  rcases hs.rows e he with he | ⟨u, q, hq, heq, hdone⟩
  · exact .inl ⟨e, he, hmod, hpk⟩
  · rw [hmod] at heq hdone
    have hne : t ≠ u := by
      rintro rfl
      cases hp.symm.trans hq
      cases hpc.symm.trans hdone
    have hkey : q.req.key ≠ p.req.key := by
      intro hkey
      exact hpk (by rw [heq]; exact congrArg (Prod.mk cfgClass) hkey)
    refine .inr ⟨u, q, hq, ?_, hkey, hdone⟩
    cases hreq : q.req.modifiedAtMicros with
    | none =>
        refine absurd ?_ (hs.apart t u p q hne hp hq hnone hreq modified (by rw [hpc]; rfl))
        rw [hdone]
        rfl
    | some m =>
        have hown := hs.own u q hq
        rw [hdone] at hown
        rw [hown m hreq]

def PutPc.reading : PutPc → Option ℤ
  | .load _ reading => some reading
  | .compareExchange _ reading _ => some reading
  | _ => none

def PutPc.Conflicted : PutPc → Prop
  | .attempt left lastErr => left = 64 ∨ lastErr = some (.sql .uniqueModifiedAtMicros)
  | .done (.error e) => e = .sql .uniqueModifiedAtMicros
  | _ => True

/-- The timestamps a put has had from the counter, the latest first. All but the one it is at
were taken. -/
structure Tried (t₀ : ℤ) (sql : Sql) (s : Server) (p : Put) (ts : List ℤ) : Prop where
  length : ts.length + p.pc.changesLeft = 64
  decreasing : ts.Pairwise (· > ·)
  bounds : ∀ m ∈ ts, t₀ ≤ m ∧ m ≤ s.node.counter
  taken : ∀ m ∈ ts, m ∈ p.pc.modified ∨ TakenApart sql s p.req.key m
  reading : ∀ r ∈ p.pc.reading, t₀ ≤ r
  conflicted : p.pc.Conflicted

section Tried

variable {t₀ : ℤ} {sql : Sql} {s s' : Server} {a : ServerAction} {t : ℕ} {p : Put} {ts : List ℤ}

theorem Tried.keep (hp : Tried t₀ sql s p ts) (hle : s.node.counter ≤ s'.node.counter)
    (h : ServerStep s a s') : Tried t₀ sql s' p ts where
  length := hp.length
  decreasing := hp.decreasing
  bounds m hm := ⟨(hp.bounds m hm).1, (hp.bounds m hm).2.trans hle⟩
  taken m hm := (hp.taken m hm).imp_right fun h' => h'.step h
  reading := hp.reading
  conflicted := hp.conflicted

theorem stepPut_retry {n n' : Node} {now : ℤ} {req : CfgPutReq} {c : Choice} {left : ℕ}
    {modified : ℤ} {e : IoError} (hcheck : checkValue req.key req.value = .ok ()) (hc : c ≠ .fail)
    (h : stepPut n now req (.upsert left modified) c = some (n', .attempt left (some e))) :
    n.sql.ModifiedTaken (Put.row req modified) ∧ e = .sql .uniqueModifiedAtMicros := by
  have hrow : CfgRow (Put.row req modified) := cfgRow_ok hcheck _ _
  cases c with
  | ok =>
      cases hup : n.sql.upsert (Put.row req modified) with
      | ok out => simp [stepPut, runUpsert, hrow.upsert, hup] at h
      | error err =>
          simp only [stepPut, runUpsert, hrow.upsert, hup, Option.some.injEq, Prod.mk.injEq,
            PutPc.attempt.injEq, true_and] at h
          rcases Sql.upsert_cases hup with ⟨_, _, heq⟩ | ⟨_, heq⟩ | ⟨htaken, _, heq⟩
          · contradiction
          · contradiction
          · cases heq
            exact ⟨htaken, h.2.symm⟩
  | fail => exact absurd rfl hc
  | portion n => cases h
  | listing names => cases h

theorem Tried.put {req : CfgPutReq} {before pc : PutPc} {c : Choice} {n : Node}
    (htried : Tried t₀ sql s ⟨req, before⟩ ts) (hs : Allocated sql s) (hok : s.CounterOk)
    (hclock : t₀ ≤ s.now) (hp : s.puts[t]? = some ⟨req, before⟩)
    (hnone : req.modifiedAtMicros = none) (hcheck : checkValue req.key req.value = .ok ())
    (hc : c ≠ .fail) (hput : stepPut s.node s.now req before c = some (n, pc))
    (hpc : ∀ r, pc ≠ .done (.ok r)) (h : ServerStep s (.step t c) s') (hnode : s'.node = n) :
    ∃ ts', Tried t₀ sql s' ⟨req, pc⟩ ts' := by
  have hown := hs.own t _ hp
  have hstep := stepPut_cases hput
  have hkeep : Tried t₀ sql s' ⟨req, before⟩ ts :=
    htried.keep (hnode ▸ hstep.counter_le hok) h
  -- where it is in no step of its own, what it has tried has been taken
  have htaken : before.modified = none → ∀ m ∈ ts, TakenApart sql s' req.key m :=
    fun hmod m hm => (hkeep.taken m hm).resolve_left (by rw [hmod]; exact Option.not_mem_none m)
  have hreads : ∀ r ∈ (none : Option ℤ), t₀ ≤ r := fun r hr => absurd hr (Option.not_mem_none r)
  cases hstep with
  | refuse =>
      cases c with
      | ok => simp [stepPut, hcheck, hnone] at hput
      | fail => exact absurd rfl hc
      | portion n => cases hput
      | listing names => cases hput
  | explicit heq => cases hnone.symm.trans heq
  | loop =>
      exact ⟨ts, hkeep.length, hkeep.decreasing, hkeep.bounds, fun m hm => .inr (htaken rfl m hm),
        hreads, .inl rfl⟩
  | fetchMax => cases hnone.symm.trans hown
  | commitAt hup => exact absurd rfl (hpc _)
  | failAt => cases hnone.symm.trans hown
  | @giveUp lastErr e =>
      refine ⟨ts, hkeep.length, hkeep.decreasing, hkeep.bounds,
        fun m hm => .inr (htaken rfl m hm), hreads, ?_⟩
      rcases hkeep.conflicted with hzero | rfl
      · contradiction
      · cases c with
        | ok =>
            simp only [stepPut, Option.getD_some, Option.some.injEq, Prod.mk.injEq,
              PutPc.done.injEq, Except.error.injEq] at hput
            exact hput.2.symm
        | fail => exact absurd rfl hc
        | portion n => cases hput
        | listing names => cases hput
  | clock =>
      refine ⟨ts, hkeep.length, hkeep.decreasing, hkeep.bounds, fun m hm => .inr (htaken rfl m hm),
        fun r hr => ?_, trivial⟩
      cases hr
      exact hclock
  | load =>
      exact ⟨ts, hkeep.length, hkeep.decreasing, hkeep.bounds, fun m hm => .inr (htaken rfl m hm),
        hkeep.reading, trivial⟩
  | @exchange left reading =>
      have hnext : s.node.counter < nextMicros reading s.node.counter ∧
          reading ≤ nextMicros reading s.node.counter := nextMicros_bounds hok
      have hcounter : s'.node.counter = nextMicros reading s.node.counter := by rw [hnode]
      have hreading : t₀ ≤ reading := htried.reading reading rfl
      have hlength : ts.length + (left + 1) = 64 := htried.length
      refine ⟨nextMicros reading s.node.counter :: ts, ?_, List.pairwise_cons.mpr ⟨?_, ?_⟩,
        List.forall_mem_cons.mpr ⟨⟨hreading.trans hnext.2, hcounter.ge⟩, hkeep.bounds⟩,
        List.forall_mem_cons.mpr ⟨.inl rfl, fun m hm => .inr (htaken rfl m hm)⟩, hreads, trivial⟩
      · simp only [List.length_cons, PutPc.changesLeft]
        omega
      · exact fun m hm => (htried.bounds m hm).2.trans_lt hnext.1
      · exact htried.decreasing
  | reload =>
      exact ⟨ts, hkeep.length, hkeep.decreasing, hkeep.bounds, fun m hm => .inr (htaken rfl m hm),
        hkeep.reading, trivial⟩
  | commit hup => exact absurd rfl (hpc _)
  | @retry left modified e =>
      obtain ⟨hmod, rfl⟩ := stepPut_retry hcheck hc hput
      refine ⟨ts, hkeep.length, hkeep.decreasing, hkeep.bounds, fun m hm => .inr ?_, hreads,
        .inr rfl⟩
      rcases hkeep.taken m hm with hm | hm
      · cases hm
        exact (hs.takenApart hp hnone rfl hmod).step h
      · exact hm

end Tried

structure Retrying (t₀ : ℤ) (sql : Sql) (s : Server) : Prop where
  clock : t₀ ≤ s.now
  allocated : Allocated sql s
  tried : ∀ (t : ℕ) (p : Put), s.puts[t]? = some p → p.req.modifiedAtMicros = none →
    checkValue p.req.key p.req.value = .ok () → (∀ r, p.pc ≠ .done (.ok r)) →
    ∃ ts, Tried t₀ sql s p ts

theorem retrying_step {t₀ : ℤ} {sql : Sql} {s s' : Server} {a : ServerAction}
    (hs : Retrying t₀ sql s) (hok : s.CounterOk) (ha : a.Runs) (h : serverStep s a = some s') :
    Retrying t₀ sql s' := by
  have hstep := serverStep_cases h
  have hallocated := allocated_step hs.allocated hok hstep
  cases a with
  | spawn req =>
      cases h
      refine ⟨hs.clock, hallocated, fun t p hp hnone hcheck hpc => ?_⟩
      rcases getElem?_concat_cases hp with hp | ⟨_, rfl⟩
      · obtain ⟨ts, hts⟩ := hs.tried t p hp hnone hcheck hpc
        exact ⟨ts, hts.keep le_rfl hstep⟩
      · exact ⟨[], rfl, .nil, fun _ hm => absurd hm List.not_mem_nil,
          fun _ hm => absurd hm List.not_mem_nil, fun r hr => absurd hr (Option.not_mem_none r),
          trivial⟩
  | step t c =>
      simp only [serverStep] at h
      split at h
      · contradiction
      · rename_i p hp
        obtain ⟨⟨n, pc⟩, hput, rfl⟩ := Option.map_eq_some_iff.mp h
        refine ⟨hs.clock, hallocated, fun u q hq hnone hcheck hpc => ?_⟩
        rcases getElem?_set_cases hq with ⟨rfl, rfl⟩ | ⟨_, hq⟩
        · have hbefore : ∀ r, p.pc ≠ .done (.ok r) := fun r => (stepPut_cases hput).not_done _
          obtain ⟨ts, hts⟩ := hs.tried u p hp hnone hcheck hbefore
          exact hts.put hs.allocated hok hs.clock hp hnone hcheck (fun hc => ha u (hc ▸ rfl)) hput
            hpc hstep rfl
        · obtain ⟨ts, hts⟩ := hs.tried u q hq hnone hcheck hpc
          exact ⟨ts, hts.keep ((stepPut_cases hput).counter_le hok) hstep⟩
  | prune nowMicros =>
      cases h
      refine ⟨hs.clock, hallocated, fun t p hp hnone hcheck hpc => ?_⟩
      obtain ⟨ts, hts⟩ := hs.tried t p hp hnone hcheck hpc
      exact ⟨ts, hts.keep le_rfl hstep⟩
  | tick d =>
      cases h
      refine ⟨hs.clock.trans (by simp), hallocated, fun t p hp hnone hcheck hpc => ?_⟩
      obtain ⟨ts, hts⟩ := hs.tried t p hp hnone hcheck hpc
      exact ⟨ts, hts.keep le_rfl hstep⟩

/-- A put within the limits and without an explicit timestamp fails, if no statement does, only
after 64 timestamps, none of them before the process started, that entries of other keys had
from before or explicit puts on other keys have taken. The error is then that of the last of
these conflicts. -/
theorem put_gives_up {sql : Sql} {t₀ : ℤ} {s : Server}
    (h : Reach serverStep (fun s a => s.CounterOk ∧ a.Runs) (Server.start sql t₀) s) {t : ℕ}
    {p : Put} {e : IoError} (hp : s.puts[t]? = some p) (hnone : p.req.modifiedAtMicros = none)
    (hcheck : checkValue p.req.key p.req.value = .ok ()) (hpc : p.pc = .done (.error e)) :
    e = .sql .uniqueModifiedAtMicros ∧ ∃ ts : List ℤ, ts.length = 64 ∧ ts.Pairwise (· > ·) ∧
      ∀ m ∈ ts, t₀ ≤ m ∧ TakenApart sql s p.req.key m := by
  have hs : Retrying t₀ sql s := by
    refine Reach.invariant ⟨le_rfl, allocated_start sql t₀, fun t p hp => ?_⟩
      (fun s a s' hs hok hstep => retrying_step hs hok.1 hok.2 hstep) h
    simp [Server.start] at hp
  obtain ⟨ts, hts⟩ := hs.tried t p hp hnone hcheck (by simp [hpc])
  obtain ⟨hlength, hdecreasing, hbounds, htaken, _, hconflicted⟩ := hts
  rw [hpc] at hlength htaken hconflicted
  exact ⟨hconflicted, ts, hlength, hdecreasing,
    fun m hm => ⟨(hbounds m hm).1, (htaken m hm).resolve_left (Option.not_mem_none m)⟩⟩

/-- Every time the put has a timestamp, an explicit put on another key writes with it first. -/
theorem put_gives_up_chased :
    ∃ s, Reach serverStep (fun s a => s.CounterOk ∧ a.Runs) (Server.start Sql.empty 0) s ∧
      ∃ ts : List ℤ, ts.length = 64 ∧ ts.Pairwise (· > ·) ∧
        ∀ m ∈ ts, 0 ≤ m ∧ TakenApart Sql.empty s "k" m := by
  obtain ⟨s, hreach, hput⟩ := Reach.exists_of_runOk
    serverStep (fun s a => s.CounterOk ∧ a.Runs) (Server.start Sql.empty 0)
    ([.spawn ⟨"k", "", none, none⟩, .step 0 .ok] ++
      (List.range 64).flatMap (fun i => [.step 0 .ok, .step 0 .ok, .step 0 .ok,
        .spawn ⟨"j", "", none, some (i + 1)⟩, .step (i + 1) .ok, .step (i + 1) .ok,
        .step (i + 1) .ok, .step 0 .ok]) ++ [.step 0 .ok])
    (fun s => s.puts[0]? =
      some ⟨⟨"k", "", none, none⟩, .done (.error (.sql .uniqueModifiedAtMicros))⟩)
    (by decide +kernel)
  exact ⟨s, hreach, (put_gives_up hreach hput rfl (by decide) rfl).2⟩

end VmIo.Back
