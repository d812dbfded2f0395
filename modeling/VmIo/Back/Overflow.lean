import VmIo.Back.Counter
import VmIo.Db.Paging

/-!
When the timestamp counter overflows.

An explicit put raises the counter to any `i64` before anything looks at the
timestamp. From then on each allocation adds at least one. So it is what the requests
have put in, and how often they allocated since, that decides whether `prev + 1` of
the next allocation is still an `i64`.
-/

namespace VmIo.Back

open VmIo.Lib VmIo.Db

/-- `prev + 1` does not overflow where it is computed, and a call returns more than the
counter was. -/
def NoOverflow (g : CounterLog) : Prop :=
  (∀ reading prev, .load reading prev ∈ g → reading ≤ prev → prev + 1 ≤ i64Max) ∧
    ∀ reading prev next, .exchange reading prev next ∈ g → prev < next

/-- What the counter has been raised to, each with the number of allocations since: the
value it starts with, explicit timestamps, and clock readings that were allocated from. -/
def peaks : CounterLog → List ℤ
  | [] => [0]
  | .fetchMax modified :: g => modified :: peaks g
  | .load _ _ :: g => peaks g
  | .exchange reading _ _ :: g => reading :: (peaks g).map (· + 1)

/-- Whenever `next_micros` loads the counter, all this is below `i64::MAX`. -/
def Room : CounterLog → Prop
  | [] => True
  | .load _ _ :: g => (∀ peak ∈ peaks g, peak < i64Max) ∧ Room g
  | .fetchMax _ :: g => Room g
  | .exchange _ _ _ :: g => Room g

def CounterAction.InRange : CounterAction → Prop
  | .clock _ reading => reading ≤ i64Max
  | .fetchMax modified => modified ≤ i64Max
  | .spawn => True
  | .step _ => True

def NextPc.reading : NextPc → Option ℤ
  | .idle => none
  | .load reading => some reading
  | .compareExchange reading _ => some reading

theorem nextMicros_le {now prev : ℤ} (hnow : now ≤ i64Max) (hprev : prev ≤ i64Max) :
    nextMicros now prev ≤ i64Max := by
  unfold nextMicros i64Succ
  split
  · split
    · simp [i64Max]
    · omega
  · exact hnow

@[simp] theorem noOverflow_load {reading prev : ℤ} {g : CounterLog} :
    NoOverflow (.load reading prev :: g) ↔
      (reading ≤ prev → prev + 1 ≤ i64Max) ∧ NoOverflow g := by
  simp only [NoOverflow, List.mem_cons, CounterEvent.load.injEq, reduceCtorEq, false_or]
  constructor
  · rintro ⟨hload, hexchange⟩
    exact ⟨hload _ _ (.inl ⟨rfl, rfl⟩), fun r p hmem => hload r p (.inr hmem), hexchange⟩
  · rintro ⟨hnew, hload, hexchange⟩
    refine ⟨fun r p hmem => ?_, hexchange⟩
    rcases hmem with ⟨rfl, rfl⟩ | hmem
    · exact hnew
    · exact hload r p hmem

@[simp] theorem noOverflow_exchange {reading prev next : ℤ} {g : CounterLog} :
    NoOverflow (.exchange reading prev next :: g) ↔ prev < next ∧ NoOverflow g := by
  simp only [NoOverflow, List.mem_cons, CounterEvent.exchange.injEq, reduceCtorEq, false_or]
  constructor
  · rintro ⟨hload, hexchange⟩
    exact ⟨hexchange _ _ _ (.inl ⟨rfl, rfl, rfl⟩), hload,
      fun r p n hmem => hexchange r p n (.inr hmem)⟩
  · rintro ⟨hnew, hload, hexchange⟩
    refine ⟨hload, fun r p n hmem => ?_⟩
    rcases hmem with ⟨rfl, rfl, rfl⟩ | hmem
    · exact hnew
    · exact hexchange r p n hmem

@[simp] theorem noOverflow_fetchMax {modified : ℤ} {g : CounterLog} :
    NoOverflow (.fetchMax modified :: g) ↔ NoOverflow g := by
  simp [NoOverflow]

/-! ### The counter is the highest peak -/

/-- While there was room, the counter is the highest peak and every loaded value leaves
room for the next. -/
structure Peaked (s : Counter) (g : CounterLog) : Prop where
  iff : NoOverflow g ↔ Room g
  value_le : s.value ≤ i64Max
  readings : ∀ pc ∈ s.threads, ∀ reading ∈ pc.reading, reading ≤ i64Max
  mem : Room g → s.value ∈ peaks g
  le : Room g → ∀ peak ∈ peaks g, peak ≤ s.value
  loaded : Room g → ∀ reading prev, .compareExchange reading prev ∈ s.threads → prev < i64Max

theorem peaked_new : Peaked (Counter.new 0) [] where
  iff := by simp [NoOverflow, Room]
  value_le := by simp [Counter.new, i64Max]
  readings _ hpc := absurd hpc List.not_mem_nil
  mem _ := List.mem_singleton_self _
  le _ peak hpeak := (List.mem_singleton.mp hpeak).le
  loaded _ _ _ hpc := absurd hpc List.not_mem_nil

theorem Peaked.readings_set {s : Counter} {g : CounterLog} (hs : Peaked s g) {t : ℕ} {pc : NextPc}
    (hpc : ∀ reading ∈ pc.reading, reading ≤ i64Max) :
    ∀ pc' ∈ s.threads.set t pc, ∀ reading ∈ pc'.reading, reading ≤ i64Max := by
  intro pc' hmem
  rcases List.mem_or_eq_of_mem_set hmem with hmem | rfl
  · exact hs.readings pc' hmem
  · exact hpc

theorem Peaked.loaded_set {s : Counter} {g : CounterLog} (hs : Peaked s g) {t : ℕ} {pc : NextPc}
    (hpc : ∀ reading prev, pc ≠ .compareExchange reading prev) (hroom : Room g) :
    ∀ reading prev, .compareExchange reading prev ∈ s.threads.set t pc → prev < i64Max := by
  intro reading prev hmem
  rcases List.mem_or_eq_of_mem_set hmem with hmem | heq
  · exact hs.loaded hroom reading prev hmem
  · exact absurd heq.symm (hpc reading prev)

/-- The counter overflows with the next allocation exactly if it is at `i64::MAX`, which
is then the highest peak. -/
theorem Peaked.load {s : Counter} {g : CounterLog} (hs : Peaked s g) {t : ℕ} {reading : ℤ}
    (hpc : s.threads[t]? = some (.load reading)) :
    Peaked { s with threads := s.threads.set t (.compareExchange reading s.value) }
      (.load reading s.value :: g) := by
  have hreading := hs.readings _ (List.mem_of_getElem? hpc) reading rfl
  have hvalue := hs.value_le
  refine ⟨?_, hvalue, hs.readings_set fun r hr => Option.some.inj hr ▸ hreading,
    fun hroom => hs.mem hroom.2, fun hroom => hs.le hroom.2, fun hroom r p hmem => ?_⟩
  · rw [noOverflow_load, Room, hs.iff]
    -- without an overflow so far, the counter is the highest peak
    refine and_congr_left fun hroom => ⟨fun hnext peak hpeak => ?_, fun hbelow hle => ?_⟩
    · have hle := hs.le hroom peak hpeak
      rcases lt_or_ge s.value reading with hlt | hge
      · omega
      · have hsucc := hnext hge
        omega
    · have hlt := hbelow _ (hs.mem hroom)
      omega
  · rcases List.mem_or_eq_of_mem_set hmem with hmem | heq
    · exact hs.loaded hroom.2 r p hmem
    · cases heq
      exact hroom.1 _ (hs.mem hroom.2)

theorem Peaked.exchange {s : Counter} {g : CounterLog} (hs : Peaked s g) {t : ℕ} {reading : ℤ}
    (hpc : s.threads[t]? = some (.compareExchange reading s.value)) :
    Peaked ⟨nextMicros reading s.value, s.threads.set t .idle⟩
      (.exchange reading s.value (nextMicros reading s.value) :: g) := by
  have hmem := List.mem_of_getElem? hpc
  have hreading := hs.readings _ hmem reading rfl
  have hnext : Room g → nextMicros reading s.value = max reading (s.value + 1) :=
    fun hroom => nextMicros_eq_max (hs.loaded hroom _ _ hmem)
  have hidle : ∀ reading ∈ NextPc.idle.reading, reading ≤ i64Max := fun _ hr => nomatch hr
  refine ⟨?_, nextMicros_le hreading hs.value_le, hs.readings_set hidle, fun hroom => ?_,
    fun hroom peak hpeak => ?_, fun hroom => hs.loaded_set (by simp) hroom⟩
  · rw [noOverflow_exchange, Room, hs.iff]
    refine and_iff_right_of_imp fun hroom => ?_
    rw [hnext hroom]
    omega
  · simp only [hnext hroom, peaks, List.mem_cons, List.mem_map]
    rcases max_choice reading (s.value + 1) with heq | heq
    · exact .inl heq
    · exact .inr ⟨s.value, hs.mem hroom, heq.symm⟩
  · simp only [hnext hroom]
    simp only [peaks, List.mem_cons, List.mem_map] at hpeak
    rcases hpeak with rfl | ⟨old, hold, rfl⟩
    · exact le_max_left _ _
    · have hle := hs.le hroom old hold
      omega

theorem Peaked.fetchMax {s : Counter} {g : CounterLog} (hs : Peaked s g) {modified : ℤ}
    (hmodified : modified ≤ i64Max) :
    Peaked { s with value := max s.value modified } (.fetchMax modified :: g) := by
  refine ⟨?_, max_le hs.value_le hmodified, hs.readings, fun hroom => ?_,
    fun hroom peak hpeak => ?_, hs.loaded⟩
  · rw [noOverflow_fetchMax, Room, hs.iff]
  · simp only [peaks, List.mem_cons]
    rcases max_choice s.value modified with heq | heq
    · rw [heq]
      exact .inr (hs.mem hroom)
    · exact .inl heq
  · rcases List.mem_cons.mp hpeak with rfl | hpeak
    · exact le_max_right _ _
    · exact (hs.le hroom peak hpeak).trans (le_max_left _ _)

theorem Peaked.step {s s' : Counter} {a : CounterAction} {g : CounterLog} {new : List CounterEvent}
    (hs : Peaked s g) (ha : a.InRange) (h : CounterStep s a s' new) : Peaked s' (new ++ g) := by
  cases h with
  | spawn =>
      refine ⟨hs.iff, hs.value_le, fun pc hpc => ?_, hs.mem, hs.le, fun hroom r p hpc => ?_⟩
      · rcases List.mem_append.mp hpc with hpc | hpc
        · exact hs.readings pc hpc
        · rw [List.mem_singleton.mp hpc]
          exact fun _ hr => nomatch hr
      · rcases List.mem_append.mp hpc with hpc | hpc
        · exact hs.loaded hroom r p hpc
        · cases List.mem_singleton.mp hpc
  | clock hpc =>
      exact ⟨hs.iff, hs.value_le, hs.readings_set fun r hr => Option.some.inj hr ▸ ha, hs.mem,
        hs.le, fun hroom => hs.loaded_set (by simp) hroom⟩
  | load hpc => exact hs.load hpc
  | exchange hpc => exact hs.exchange hpc
  | @reload t reading prev hpc =>
      have hreading := hs.readings _ (List.mem_of_getElem? hpc) reading rfl
      exact ⟨hs.iff, hs.value_le, hs.readings_set fun r hr => Option.some.inj hr ▸ hreading, hs.mem,
        hs.le, fun hroom => hs.loaded_set (by simp) hroom⟩
  | fetchMax => exact hs.fetchMax ha

theorem peaked {s : Counter} {g : CounterLog}
    (h : Reach (observe counterStep recordCounter) (fun _ a => a.InRange)
      (Counter.new 0, []) (s, g)) : Peaked s g := by
  refine Reach.invariant (I := fun p => Peaked p.1 p.2) peaked_new ?_ h
  intro p a p' hp ha hstep
  obtain ⟨new, hnew, hlog⟩ := counterStep_observed hstep
  rw [hlog]
  exact hp.step ha hnew

/-! ### The puts of a server -/

/-- A server process whose clock may be set. -/
inductive HostAction
  | server (a : ServerAction)
  | setClock (now : ℤ)

def hostStep (s : Server) : HostAction → Option Server
  | .server a => serverStep s a
  | .setClock now => some { s with now := now }

def recordHost (s : Server) (a : HostAction) (s' : Server) (g : CounterLog) : CounterLog :=
  match a with
  | .server a =>
      match a.counter s with
      | some b => recordCounter s.counter b s'.counter g
      | none => g
  | .setClock _ => g

def HostAction.explicit : HostAction → Option ℤ
  | .server (.spawn req) => req.modifiedAtMicros
  | _ => none

/-- What the clock reads and what requests carry are `i64` values. -/
def HostAction.InRange (s : Server) (a : HostAction) : Prop :=
  InI64 s.now ∧ ∀ modified ∈ a.explicit, InI64 modified

instance (s : Server) (a : HostAction) : Decidable (a.InRange s) :=
  inferInstanceAs (Decidable (_ ∧ _))

/-- The timestamp the put was sent with, and the one it is about to raise the counter to,
are `i64` values. -/
def Put.InRange (p : Put) : Prop :=
  (∀ modified ∈ p.req.modifiedAtMicros, modified ≤ i64Max) ∧
    ∀ modified, p.pc = .fetchMax modified → modified ≤ i64Max

theorem PutStep.inRange {n n' : Node} {now : ℤ} {req : CfgPutReq} {pc pc' : PutPc}
    (hp : Put.InRange ⟨req, pc⟩) (h : PutStep n now req pc n' pc') : Put.InRange ⟨req, pc'⟩ := by
  refine ⟨hp.1, ?_⟩
  cases h with
  | explicit heq =>
      rintro _ hpc
      cases hpc
      exact hp.1 _ heq
  | _ => exact fun _ hpc => nomatch hpc

theorem serverStep_inRange {s s' : Server} {a : ServerAction} (hs : ∀ p ∈ s.puts, p.InRange)
    (ha : (HostAction.server a).InRange s) (h : serverStep s a = some s') :
    ∀ p ∈ s'.puts, p.InRange := by
  intro p hp
  cases serverStep_cases h with
  | spawn =>
      rcases List.mem_append.mp hp with hp | hp
      · exact hs p hp
      · rw [List.mem_singleton.mp hp]
        exact ⟨fun modified hmod => (ha.2 modified hmod).2, fun _ hpc => nomatch hpc⟩
  | put hq hput =>
      rcases List.mem_or_eq_of_mem_set hp with hp | rfl
      · exact hs p hp
      · exact hput.inRange (hs _ (List.mem_of_getElem? hq))
  | prune => exact hs p hp
  | tick => exact hs p hp

theorem ServerAction.counter_inRange {s : Server} {a : ServerAction} {b : CounterAction}
    (hs : ∀ p ∈ s.puts, p.InRange) (hnow : InI64 s.now) (h : a.counter s = some b) : b.InRange := by
  cases a with
  | spawn req =>
      cases h
      trivial
  | step t c =>
      simp only [ServerAction.counter] at h
      split at h
      · rename_i modified hpc
        cases h
        obtain ⟨p, hp, hpc⟩ := Option.map_eq_some_iff.mp hpc
        exact (hs p (List.mem_of_getElem? hp)).2 modified hpc
      · cases h
        exact hnow.2
      · cases h
        trivial
      · cases h
        trivial
      · cases h
  | prune nowMicros => cases h
  | tick d => cases h

section Host

variable {sql : Sql} {t₀ : ℤ} {s : Server} {g : CounterLog}

theorem counter_of_host
    (h : Reach (observe hostStep recordHost) (fun p a => a.InRange p.1)
      (Server.start sql t₀, []) (s, g)) :
    Reach (observe counterStep recordCounter) (fun _ a => a.InRange)
      (Counter.new 0, []) (s.counter, g) := by
  have hall : (∀ p ∈ s.puts, p.InRange) ∧
      Reach (observe counterStep recordCounter) (fun _ a => a.InRange)
        (Counter.new 0, []) (s.counter, g) := by
    refine Reach.invariant (I := fun q => (∀ p ∈ q.1.puts, p.InRange) ∧
      Reach (observe counterStep recordCounter) (fun _ a => a.InRange)
        (Counter.new 0, []) (q.1.counter, q.2)) ⟨fun p hp => absurd hp List.not_mem_nil, .refl⟩ ?_ h
    rintro ⟨s, g⟩ a ⟨s', g'⟩ ⟨hputs, hreach⟩ ha hstep
    obtain ⟨hhost, hlog⟩ := observe_eq_some_iff.mp hstep
    cases a with
    | setClock now =>
        cases hhost
        cases hlog
        exact ⟨hputs, hreach⟩
    | server a =>
        refine ⟨serverStep_inRange hputs ha hhost, ?_⟩
        have hcounter := serverStep_counter hhost
        simp only [recordHost] at hlog
        split at hlog
        · rename_i b hb
          rw [hb] at hcounter
          exact .tail b hreach (ServerAction.counter_inRange hputs ha.1 hb)
            (observe_eq_some_iff.mpr ⟨hcounter, hlog⟩)
        · rename_i hb
          rw [hb] at hcounter
          rw [hlog]
          exact hcounter ▸ hreach
  exact hall.2

/-- No allocation overflows, and each returns more than the counter was, exactly if at
every load the start value, every explicit timestamp so far and every clock reading
allocated from so far, each with the number of allocations since, are below `i64::MAX`. -/
theorem next_micros_no_overflow_iff
    (h : Reach (observe hostStep recordHost) (fun p a => a.InRange p.1)
      (Server.start sql t₀, []) (s, g)) : NoOverflow g ↔ Room g :=
  (peaked (counter_of_host h)).iff

end Host

/-- The put with the greatest timestamp but one still leaves room for an allocation. -/
theorem next_micros_no_overflow_iff_last :
    ∃ s g, Reach (observe hostStep recordHost) (fun p a => a.InRange p.1)
        (Server.start Sql.empty 1000, []) (s, g) ∧
      .exchange 1000 (i64Max - 1) i64Max ∈ g ∧ NoOverflow g := by
  obtain ⟨⟨s, g⟩, hreach, hlog⟩ := Reach.exists_of_runOk
    (observe hostStep recordHost) (fun p a => a.InRange p.1) (Server.start Sql.empty 1000, [])
    [.server (.spawn ⟨"k", "v", none, some (i64Max - 1)⟩), .server (.spawn ⟨"k", "w", none, none⟩),
      .server (.step 0 .ok), .server (.step 0 .ok), .server (.step 0 .ok), .server (.step 1 .ok),
      .server (.step 1 .ok), .server (.step 1 .ok), .server (.step 1 .ok)]
    (fun q => q.2 = [.exchange 1000 (i64Max - 1) i64Max, .load 1000 (i64Max - 1),
      .fetchMax (i64Max - 1)])
    (by decide +kernel)
  have hlog : g = [.exchange 1000 (i64Max - 1) i64Max, .load 1000 (i64Max - 1),
      .fetchMax (i64Max - 1)] := hlog
  refine ⟨s, g, hreach, by simp [hlog], (next_micros_no_overflow_iff hreach).mpr ?_⟩
  simp [hlog, Room, peaks, i64Max]

/-- A put with the timestamp `i64::MAX` is accepted, and the next allocation wraps around to
the far past. -/
theorem next_micros_overflows :
    ∃ s g, Reach (observe hostStep recordHost) (fun p a => a.InRange p.1)
        (Server.start Sql.empty 1000, []) (s, g) ∧
      .exchange 1000 i64Max (-i64Max - 1) ∈ g ∧ ¬NoOverflow g := by
  obtain ⟨⟨s, g⟩, hreach, hlog⟩ := Reach.exists_of_runOk
    (observe hostStep recordHost) (fun p a => a.InRange p.1) (Server.start Sql.empty 1000, [])
    [.server (.spawn ⟨"k", "v", none, some i64Max⟩), .server (.spawn ⟨"k", "w", none, none⟩),
      .server (.step 0 .ok), .server (.step 0 .ok), .server (.step 0 .ok), .server (.step 1 .ok),
      .server (.step 1 .ok), .server (.step 1 .ok), .server (.step 1 .ok)]
    (fun q => q.2 = [.exchange 1000 i64Max (-i64Max - 1), .load 1000 i64Max, .fetchMax i64Max])
    (by decide +kernel)
  have hlog : g = [.exchange 1000 i64Max (-i64Max - 1), .load 1000 i64Max, .fetchMax i64Max] := hlog
  refine ⟨s, g, hreach, by simp [hlog], ?_⟩
  simp [hlog, i64Max]

end VmIo.Back
