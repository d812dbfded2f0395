import VmIo.Back.Concurrent

/-!
Server-assigned puts respect real time.

Every stored timestamp is below the clock the process started at or at most the
counter. A put allocates past the counter and at no less than a reading of the
clock, both taken after it was invoked, so past everything stored by then.
-/

namespace VmIo.Back

open VmIo.Lib VmIo.Db

/-- The server as each put found it when it was invoked. -/
abbrev Invocations := ℕ → Server

def recordInvocation (s : Server) (a : ServerAction) (_ : Server) (g : Invocations) : Invocations :=
  match a with
  | .spawn _ => Function.update g s.puts.length s
  | _ => g

def Server.Returned (s : Server) (t : ℕ) : Prop :=
  ∃ (p : Put) (res : _), s.puts[t]? = some p ∧ p.pc = .done res

def Server.CounterOk (s : Server) : Prop := s.node.counter < i64Max

instance (s : Server) : Decidable s.CounterOk := inferInstanceAs (Decidable (_ < _))

def PutPc.modified : PutPc → Option ℤ
  | .upsertAt modified => some modified
  | .upsert _ modified => some modified
  | .done (.ok (modified, _)) => some modified
  | _ => none

theorem nextMicros_bounds {now prev : ℤ} (h : prev < i64Max) :
    prev < nextMicros now prev ∧ now ≤ nextMicros now prev := by
  rw [nextMicros_eq_max h]
  omega

/-! ### What holds of every state -/

/-- The counter is ahead of every timestamp, but for those from before the
process started at `t₀`. -/
structure Ahead (t₀ : ℤ) (s : Server) : Prop where
  clock : t₀ ≤ s.now
  rows : ∀ e ∈ s.node.sql.entries.rows,
    e.modifiedAtMicros < t₀ ∨ e.modifiedAtMicros ≤ s.node.counter
  puts : ∀ p ∈ s.puts, ∀ modified ∈ p.pc.modified, modified ≤ s.node.counter

theorem PutStep.counter_le {n n' : Node} {now : ℤ} {req : CfgPutReq} {pc pc' : PutPc}
    (hn : n.counter < i64Max) (h : PutStep n now req pc n' pc') : n.counter ≤ n'.counter := by
  cases h with
  | fetchMax => exact le_max_left _ _
  | exchange => exact (nextMicros_bounds hn).1.le
  | _ => exact le_rfl

theorem PutStep.modified_le {n n' : Node} {now : ℤ} {req : CfgPutReq} {pc pc' : PutPc}
    (hpc : ∀ modified ∈ pc.modified, modified ≤ n.counter) (h : PutStep n now req pc n' pc') :
    ∀ modified ∈ pc'.modified, modified ≤ n'.counter := by
  cases h with
  | fetchMax =>
      intro _ hmod
      cases hmod
      exact le_max_right _ _
  | exchange =>
      intro _ hmod
      cases hmod
      exact le_rfl
  | commitAt hup => exact hpc
  | commit hup => exact hpc
  | _ => simp [PutPc.modified]

theorem PutStep.rows {n n' : Node} {now : ℤ} {req : CfgPutReq} {pc pc' : PutPc}
    (h : PutStep n now req pc n' pc') {e : EntryRow} (he : e ∈ n'.sql.entries.rows) :
    e ∈ n.sql.entries.rows ∨ ∃ modified, e = Put.row req modified ∧
      modified ∈ pc.modified ∧ pc' = .done (.ok (modified, true)) := by
  have written : ∀ {modified : ℤ} {sql : Sql} {applied : Bool},
      n.sql.upsert (Put.row req modified) = .ok (sql, applied) → e ∈ sql.entries.rows →
      e ∈ n.sql.entries.rows ∨ e = Put.row req modified ∧ applied = true := by
    intro modified sql applied hup he
    rcases Sql.upsert_cases hup with ⟨_, _, heq⟩ | ⟨_, heq⟩ | ⟨_, _, heq⟩
    · cases heq
      rcases Table.mem_put.mp he with rfl | ⟨he, _⟩
      · exact .inr ⟨rfl, rfl⟩
      · exact .inl he
    · cases heq
      exact .inl he
    · contradiction
  cases h with
  | commitAt hup =>
      rcases written hup he with he | ⟨heq, rfl⟩
      · exact .inl he
      · exact .inr ⟨_, heq, rfl, rfl⟩
  | commit hup =>
      rcases written hup he with he | ⟨heq, rfl⟩
      · exact .inl he
      · exact .inr ⟨_, heq, rfl, rfl⟩
  | _ => exact .inl he

theorem ahead_step {t₀ : ℤ} {s s' : Server} {a : ServerAction} (hs : Ahead t₀ s)
    (hok : s.CounterOk) (h : ServerStep s a s') : Ahead t₀ s' := by
  cases h with
  | spawn =>
      refine ⟨hs.clock, hs.rows, fun p hp => ?_⟩
      rcases List.mem_append.mp hp with hp | hp
      · exact hs.puts p hp
      · rw [List.mem_singleton.mp hp]
        simp [PutPc.modified]
  | @put t c p n pc hp hput =>
      have hle := hput.counter_le hok
      have hmem := List.mem_of_getElem? hp
      have hnew := hput.modified_le (hs.puts p hmem)
      refine ⟨hs.clock, fun e he => ?_, fun q hq modified hmod => ?_⟩
      · rcases hput.rows he with he | ⟨modified, rfl, hmod, _⟩
        · rcases hs.rows e he with hlt | hle'
          · exact .inl hlt
          · exact .inr (hle'.trans hle)
        · exact .inr ((hs.puts p hmem modified hmod).trans hle)
      · rcases List.mem_or_eq_of_mem_set hq with hq | rfl
        · exact (hs.puts q hq modified hmod).trans hle
        · exact hnew modified hmod
  | prune =>
      exact ⟨hs.clock, fun e he => hs.rows e (Sql.mem_deleteEntries_entries.mp he).1, hs.puts⟩
  | tick => exact ⟨by have := hs.clock; simp only; omega, hs.rows, hs.puts⟩

/-! ### What happens after a state -/

/-- The server `s` later than `old`: neither the counter nor the clock went back,
no answer changed, and what is stored was stored then or written by a put that
had not returned then. -/
structure After (old s : Server) : Prop where
  counter : old.node.counter ≤ s.node.counter
  clock : old.now ≤ s.now
  returned : ∀ (t : ℕ) (p : Put) res, old.puts[t]? = some p → p.pc = .done res →
    s.puts[t]? = some p
  rows : ∀ e ∈ s.node.sql.entries.rows, e ∈ old.node.sql.entries.rows ∨
    ∃ (t : ℕ) (p : Put), s.puts[t]? = some p ∧ p.req.key = e.key ∧
      p.pc = .done (.ok (e.modifiedAtMicros, true)) ∧ ¬old.Returned t

theorem After.refl (s : Server) : After s s :=
  ⟨le_rfl, le_rfl, fun _ _ _ h _ => h, fun _ he => .inl he⟩

theorem PutStep.not_done {n n' : Node} {now : ℤ} {req : CfgPutReq} {pc pc' : PutPc}
    (h : PutStep n now req pc n' pc') (res : Except IoError (ℤ × Bool)) : pc ≠ .done res := by
  cases h <;> exact PutPc.noConfusion

theorem ServerStep.returned {s s' : Server} {a : ServerAction} (h : ServerStep s a s') {t : ℕ}
    {p : Put} {res : Except IoError (ℤ × Bool)} (hp : s.puts[t]? = some p)
    (hres : p.pc = .done res) : s'.puts[t]? = some p := by
  cases h with
  | spawn => exact List.getElem?_append_left (List.getElem?_eq_some_iff.mp hp).1 ▸ hp
  | @put u c q n pc hq hput =>
      have hne : u ≠ t := by
        rintro rfl
        cases hp.symm.trans hq
        exact hput.not_done res hres
      rw [List.getElem?_set_ne hne]
      exact hp
  | prune => exact hp
  | tick => exact hp

theorem After.step {old s s' : Server} {a : ServerAction} (hs : After old s) (hok : s.CounterOk)
    (h : ServerStep s a s') : After old s' := by
  have hret : ∀ (t : ℕ) (p : Put) res, old.puts[t]? = some p → p.pc = .done res →
      s'.puts[t]? = some p := fun t p res hp hres => h.returned (hs.returned t p res hp hres) hres
  have hrows : ∀ e ∈ s.node.sql.entries.rows, e ∈ old.node.sql.entries.rows ∨
      ∃ (t : ℕ) (p : Put), s'.puts[t]? = some p ∧ p.req.key = e.key ∧
        p.pc = .done (.ok (e.modifiedAtMicros, true)) ∧ ¬old.Returned t := by
    intro e he
    rcases hs.rows e he with he | ⟨t, p, hp, hkey, hpc, hnew⟩
    · exact .inl he
    · exact .inr ⟨t, p, h.returned hp hpc, hkey, hpc, hnew⟩
  cases h with
  | spawn => exact ⟨hs.counter, hs.clock, hret, hrows⟩
  | @put t c p n pc hp hput =>
      refine ⟨hs.counter.trans (hput.counter_le hok), hs.clock, hret, fun e he => ?_⟩
      rcases hput.rows he with he | ⟨modified, rfl, _, rfl⟩
      · exact hrows e he
      · refine .inr ⟨t, _, List.getElem?_set_self (List.getElem?_eq_some_iff.mp hp).1, rfl, rfl, ?_⟩
        -- an answer given by then would still be the put's
        rintro ⟨q, res, hq, hres⟩
        cases hp.symm.trans (hs.returned t q res hq hres)
        exact hput.not_done res hres
  | prune =>
      exact ⟨hs.counter, hs.clock, hret,
        fun e he => hrows e (Sql.mem_deleteEntries_entries.mp he).1⟩
  | tick =>
      have hclock := hs.clock
      exact ⟨hs.counter, by simp only; omega, hret, hrows⟩

/-! ### What holds of a put since it was invoked -/

/-- Where a put with this request can be, and what it has read or allocated
since it found the server `old`. -/
def PutPc.Since (old : Server) (req : CfgPutReq) : PutPc → Prop
  | .start => True
  | .fetchMax modified => req.modifiedAtMicros = some modified
  | .upsertAt modified => req.modifiedAtMicros = some modified
  | .attempt _ _ => req.modifiedAtMicros = none
  | .load _ reading => req.modifiedAtMicros = none ∧ old.now ≤ reading
  | .compareExchange _ reading _ => req.modifiedAtMicros = none ∧ old.now ≤ reading
  | .upsert _ modified =>
      req.modifiedAtMicros = none ∧ old.node.counter < modified ∧ old.now ≤ modified
  | .done (.error _) => True
  | .done (.ok (modified, _)) =>
      req.modifiedAtMicros = none → old.node.counter < modified ∧ old.now ≤ modified

/-- Some put on the key, not returned by `old`, wrote it with this timestamp or a
later one. -/
def SupersededBy (old s : Server) (key : String) (modified : ℤ) : Prop :=
  ∃ (t : ℕ) (p : Put) (modified' : ℤ), s.puts[t]? = some p ∧ p.req.key = key ∧
    p.pc = .done (.ok (modified', true)) ∧ modified ≤ modified' ∧ ¬old.Returned t

structure PutOk (t₀ : ℤ) (old s : Server) (p : Put) : Prop where
  ahead : Ahead t₀ old
  after : After old s
  since : p.pc.Since old p.req
  superseded : ∀ modified, p.req.modifiedAtMicros = none → p.pc = .done (.ok (modified, false)) →
    SupersededBy old s p.req.key modified

theorem PutStep.since {old : Server} {n n' : Node} {now : ℤ} {req : CfgPutReq} {pc pc' : PutPc}
    (hn : n.counter < i64Max) (hcounter : old.node.counter ≤ n.counter) (hclock : old.now ≤ now)
    (hpc : pc.Since old req) (h : PutStep n now req pc n' pc') : pc'.Since old req := by
  cases h with
  | refuse => trivial
  | explicit heq => exact heq
  | loop heq => exact heq
  | fetchMax => exact hpc
  | commitAt hup =>
      intro hnone
      rw [PutPc.Since] at hpc
      rw [hpc] at hnone
      contradiction
  | failAt => trivial
  | giveUp => trivial
  | clock => exact ⟨hpc, hclock⟩
  | load => exact hpc
  | exchange =>
      obtain ⟨hnone, hreading⟩ := hpc
      obtain ⟨hlt, hle⟩ := nextMicros_bounds hn
      exact ⟨hnone, hcounter.trans_lt hlt, hreading.trans hle⟩
  | reload => exact hpc
  | commit hup => exact fun _ => hpc.2
  | retry => exact hpc.1

/-- A write that is not applied meets a row as new that was not there when the
put was invoked. -/
theorem superseded_of_commit {t₀ : ℤ} {old s : Server} {req : CfgPutReq} {modified : ℤ} {sql : Sql}
    (hahead : Ahead t₀ old) (hafter : After old s)
    (hsince : old.node.counter < modified ∧ old.now ≤ modified)
    (hup : s.node.sql.upsert (Put.row req modified) = .ok (sql, false)) :
    SupersededBy old s req.key modified := by
  rcases Sql.upsert_cases hup with ⟨_, _, heq⟩ | ⟨hold, _⟩ | ⟨_, _, heq⟩
  · cases heq
  · simp only [Sql.Newer, not_forall] at hold
    obtain ⟨e, hf, hle⟩ := hold
    obtain ⟨hmem, hpk⟩ := Table.find?_eq_some_iff.mp hf
    have hle : modified ≤ e.modifiedAtMicros := not_lt.mp hle
    rcases hafter.rows e hmem with hmem | ⟨t, p, hp, hkey, hpc, hnew⟩
    · have hclock := hahead.clock
      rcases hahead.rows e hmem with hlt | hlt
      · omega
      · omega
    · exact ⟨t, p, _, hp, hkey.trans (Prod.mk.inj hpk).2, hpc, hle, hnew⟩
  · cases heq

theorem SupersededBy.step {old s s' : Server} {a : ServerAction} {key : String} {modified : ℤ}
    (hs : SupersededBy old s key modified) (h : ServerStep s a s') :
    SupersededBy old s' key modified := by
  obtain ⟨t, p, modified', hp, hkey, hpc, hle, hnew⟩ := hs
  exact ⟨t, p, modified', h.returned hp hpc, hkey, hpc, hle, hnew⟩

theorem PutOk.keep {t₀ : ℤ} {old s s' : Server} {a : ServerAction} {p : Put}
    (hp : PutOk t₀ old s p) (hok : s.CounterOk) (h : ServerStep s a s') : PutOk t₀ old s' p where
  ahead := hp.ahead
  after := hp.after.step hok h
  since := hp.since
  superseded modified hnone hpc := (hp.superseded modified hnone hpc).step h

theorem PutOk.step {t₀ : ℤ} {old s s' : Server} {a : ServerAction} {p : Put} {n : Node} {pc : PutPc}
    (hp : PutOk t₀ old s p) (hok : s.CounterOk) (h : ServerStep s a s')
    (hput : PutStep s.node s.now p.req p.pc n pc) : PutOk t₀ old s' ⟨p.req, pc⟩ := by
  refine ⟨hp.ahead, hp.after.step hok h,
    hput.since hok hp.after.counter hp.after.clock hp.since, fun modified hnone hpc => ?_⟩
  have hsince := hp.since
  have hpc : pc = .done (.ok (modified, false)) := hpc
  have hnone : p.req.modifiedAtMicros = none := hnone
  subst hpc
  generalize hbefore : p.pc = before at hput hsince
  cases hput with
  | commitAt hup =>
      rw [PutPc.Since, hnone] at hsince
      contradiction
  | commit hup => exact (superseded_of_commit hp.ahead hp.after hsince.2 hup).step h

/-- What holds of the server and of every put since it was invoked. -/
structure Ordered (t₀ : ℤ) (s : Server) (g : Invocations) : Prop where
  ahead : Ahead t₀ s
  puts : ∀ t p, s.puts[t]? = some p → PutOk t₀ (g t) s p

theorem ordered_start {sql : Sql} {t₀ : ℤ} (h : ∀ e ∈ sql.entries.rows, e.modifiedAtMicros < t₀)
    (g : Invocations) : Ordered t₀ (Server.start sql t₀) g where
  ahead := ⟨le_rfl, fun e he => .inl (h e he), fun p hp => absurd hp List.not_mem_nil⟩
  puts t p hp := by simp [Server.start] at hp

theorem ordered_step {t₀ : ℤ} {s s' : Server} {a : ServerAction} {g : Invocations}
    (hs : Ordered t₀ s g) (hok : s.CounterOk) (h : ServerStep s a s') :
    Ordered t₀ s' (recordInvocation s a s' g) := by
  refine ⟨ahead_step hs.ahead hok h, fun t p hp => ?_⟩
  have hkeep : ∀ t p, s.puts[t]? = some p → PutOk t₀ (g t) s' p :=
    fun t p hp => (hs.puts t p hp).keep hok h
  cases h with
  | @spawn req =>
      rw [recordInvocation]
      rcases lt_or_ge t s.puts.length with hlt | hge
      · rw [Function.update_of_ne hlt.ne]
        rw [List.getElem?_append_left hlt] at hp
        exact hkeep t p hp
      · rw [List.getElem?_append_right hge, List.getElem?_singleton] at hp
        split at hp
        · rename_i hzero
          cases hp
          obtain rfl : t = s.puts.length := by omega
          rw [Function.update_self]
          exact ⟨hs.ahead, (After.refl s).step hok .spawn, trivial,
            fun _ _ hpc => PutPc.noConfusion hpc⟩
        · cases hp
  | @put u c q n pc hq hput =>
      by_cases hne : u = t
      · subst hne
        rw [List.getElem?_set_self (List.getElem?_eq_some_iff.mp hq).1] at hp
        cases hp
        exact (hs.puts u q hq).step hok (.put (c := c) hq hput) hput
      · rw [List.getElem?_set_ne hne] at hp
        exact hkeep t p hp
  | prune => exact hkeep t p hp
  | tick => exact hkeep t p hp

theorem ordered {sql : Sql} {t₀ : ℤ} (h₀ : ∀ e ∈ sql.entries.rows, e.modifiedAtMicros < t₀)
    {g₀ g : Invocations} {s : Server}
    (h : Reach (observe serverStep recordInvocation) (fun q _ => q.1.CounterOk)
      (Server.start sql t₀, g₀) (s, g)) : Ordered t₀ s g := by
  refine Reach.invariant (I := fun q => Ordered t₀ q.1 q.2) (ordered_start h₀ g₀) ?_ h
  rintro ⟨s, g⟩ a ⟨s', g'⟩ hs hok hstep
  obtain ⟨hserver, hg⟩ := observe_eq_some_iff.mp hstep
  have hg : g' = recordInvocation s a s' g := hg
  rw [hg]
  exact ordered_step hs hok (serverStep_cases hserver)

/-- A server-assigned put that returns success has written with a timestamp
greater than what its key held when it was invoked, and than any put had
returned by then. If its write was not applied, a put that had not returned by
then has written the key with the same timestamp or a later one. -/
theorem put_respects_real_time {sql : Sql} {t₀ : ℤ}
    (h₀ : ∀ e ∈ sql.entries.rows, e.modifiedAtMicros < t₀) {g₀ g : Invocations} {s : Server}
    (h : Reach (observe serverStep recordInvocation) (fun q _ => q.1.CounterOk)
      (Server.start sql t₀, g₀) (s, g))
    {t : ℕ} {p : Put} {modified : ℤ} {applied : Bool} (hp : s.puts[t]? = some p)
    (hnone : p.req.modifiedAtMicros = none) (hpc : p.pc = .done (.ok (modified, applied))) :
    (∀ e ∈ (g t).node.sql.entries.find? (cfgClass, p.req.key), e.modifiedAtMicros < modified) ∧
      (∀ (u : ℕ) (q : Put) modified' applied', (g t).puts[u]? = some q →
        q.pc = .done (.ok (modified', applied')) → modified' < modified) ∧
      (applied = false → SupersededBy (g t) s p.req.key modified) := by
  have hput := (ordered h₀ h).puts t p hp
  have hsince := hput.since
  rw [hpc] at hsince
  obtain ⟨hcounter, hclock⟩ := hsince hnone
  have hstart := hput.ahead.clock
  refine ⟨fun e he => ?_, fun u q modified' applied' hq hdone => ?_, ?_⟩
  · rcases hput.ahead.rows e (Table.find?_eq_some_iff.mp he).1 with hlt | hle
    · omega
    · omega
  · have hle := hput.ahead.puts q (List.mem_of_getElem? hq) modified' (by rw [hdone]; rfl)
    omega
  · rintro rfl
    exact hput.superseded modified hnone hpc

/-- A put allocates 1000, which another key takes first, and goes round again.
Before it writes with 1001, an explicit put writes its key with 5000. -/
theorem put_respects_real_time_superseded :
    ∃ s g, Reach (observe serverStep recordInvocation) (fun q _ => q.1.CounterOk)
        (Server.start Sql.empty 1000, fun _ => Server.start Sql.empty 1000) (s, g) ∧
      SupersededBy (g 0) s "k" 1001 := by
  obtain ⟨⟨s, g⟩, hreach, hput⟩ := Reach.exists_of_runOk
    (observe serverStep recordInvocation) (fun q _ => q.1.CounterOk)
    (Server.start Sql.empty 1000, fun _ => Server.start Sql.empty 1000)
    [.spawn ⟨"k", "v", none, none⟩, .step 0 .ok, .step 0 .ok, .step 0 .ok, .step 0 .ok,
      .spawn ⟨"j", "", none, some 1000⟩, .step 1 .ok, .step 1 .ok, .step 1 .ok,
      .step 0 .ok, .step 0 .ok, .step 0 .ok, .step 0 .ok,
      .spawn ⟨"k", "w", none, some 5000⟩, .step 2 .ok, .step 2 .ok, .step 2 .ok, .step 0 .ok]
    (fun q => q.1.puts[0]? = some ⟨⟨"k", "v", none, none⟩, .done (.ok (1001, false))⟩)
    (by decide +kernel)
  exact ⟨s, g, hreach, (put_respects_real_time (by decide) hreach hput rfl rfl).2.2 rfl⟩

end VmIo.Back
