import VmIo.Back.Order

/-!
The timestamp counter that the puts of a process share.

A call of `next_micros` reads the clock once. Then it loads the counter and tries to
exchange it, until that succeeds. Explicit puts raise the counter in between. Nothing
is assumed of the clock, so every call comes with its own reading.
-/

namespace VmIo.Back

open VmIo.Lib VmIo.Db

inductive NextPc
  | idle
  /-- `counter.load`, after the clock was read -/
  | load (reading : ℤ)
  /-- `counter.compare_exchange` -/
  | compareExchange (reading prev : ℤ)
  deriving DecidableEq

structure Counter where
  value : ℤ
  threads : List NextPc
  deriving DecidableEq

inductive CounterAction
  | spawn
  /-- the thread calls `next_micros` and reads the clock -/
  | clock (t : ℕ) (reading : ℤ)
  | step (t : ℕ)
  /-- the `fetch_max` of an explicit put -/
  | fetchMax (modified : ℤ)
  deriving DecidableEq

def Counter.new (value : ℤ) : Counter := ⟨value, []⟩

def stepNext (value : ℤ) : NextPc → Option (ℤ × NextPc)
  | .idle => none
  | .load reading => some (value, .compareExchange reading value)
  | .compareExchange reading prev =>
      if value = prev then some (nextMicros reading prev, .idle)
      -- the clock is not read again
      else some (value, .load reading)

def counterStep (s : Counter) : CounterAction → Option Counter
  | .spawn => some { s with threads := s.threads ++ [.idle] }
  | .clock t reading =>
      if s.threads[t]? = some .idle then
        some { s with threads := s.threads.set t (.load reading) }
      else none
  | .step t =>
      match s.threads[t]? with
      | none => none
      | some pc => (stepNext s.value pc).map fun r => ⟨r.1, s.threads.set t r.2⟩
  | .fetchMax modified => some { s with value := max s.value modified }

inductive CounterEvent
  | fetchMax (modified : ℤ)
  | load (reading prev : ℤ)
  /-- a `compare_exchange` that succeeds, so that `next` is returned -/
  | exchange (reading prev next : ℤ)
  deriving DecidableEq

def CounterEvent.returned : CounterEvent → Option ℤ
  | .exchange _ _ next => some next
  | _ => none

/-- The timestamp that is returned or passed to `fetch_max` with this access. -/
def CounterEvent.stamp : CounterEvent → Option ℤ
  | .exchange _ _ next => some next
  | .fetchMax modified => some modified
  | .load _ _ => none

def counterEvents (s : Counter) (a : CounterAction) (s' : Counter) : List CounterEvent :=
  match a with
  | .spawn => []
  | .clock _ _ => []
  | .step t =>
      match s.threads[t]? with
      | some (.load reading) => [.load reading s.value]
      | some (.compareExchange reading prev) =>
          if s.value = prev then [.exchange reading prev s'.value] else []
      | _ => []
  | .fetchMax modified => [.fetchMax modified]

abbrev CounterLog := List CounterEvent

def recordCounter (s : Counter) (a : CounterAction) (s' : Counter) (g : CounterLog) : CounterLog :=
  counterEvents s a s' ++ g

/-! ### What a step can do -/

inductive CounterStep (s : Counter) : CounterAction → Counter → List CounterEvent → Prop
  | spawn : CounterStep s .spawn { s with threads := s.threads ++ [.idle] } []
  | clock {t : ℕ} {reading : ℤ} : s.threads[t]? = some .idle →
      CounterStep s (.clock t reading) { s with threads := s.threads.set t (.load reading) } []
  | load {t : ℕ} {reading : ℤ} : s.threads[t]? = some (.load reading) →
      CounterStep s (.step t)
        { s with threads := s.threads.set t (.compareExchange reading s.value) }
        [.load reading s.value]
  | exchange {t : ℕ} {reading : ℤ} : s.threads[t]? = some (.compareExchange reading s.value) →
      CounterStep s (.step t) ⟨nextMicros reading s.value, s.threads.set t .idle⟩
        [.exchange reading s.value (nextMicros reading s.value)]
  | reload {t : ℕ} {reading prev : ℤ} : s.threads[t]? = some (.compareExchange reading prev) →
      CounterStep s (.step t) { s with threads := s.threads.set t (.load reading) } []
  | fetchMax {modified : ℤ} :
      CounterStep s (.fetchMax modified) { s with value := max s.value modified }
        [.fetchMax modified]

theorem counterStep_cases {s s' : Counter} {a : CounterAction} (h : counterStep s a = some s') :
    CounterStep s a s' (counterEvents s a s') := by
  cases a with
  | spawn =>
      cases h
      exact .spawn
  | clock t reading =>
      simp only [counterStep] at h
      split at h
      · rename_i hpc
        cases h
        exact .clock hpc
      · contradiction
  | step t =>
      simp only [counterStep] at h
      split at h
      · contradiction
      · rename_i pc hpc
        cases pc with
        | idle => cases h
        | load reading =>
            cases h
            simp only [counterEvents, hpc]
            exact .load hpc
        | compareExchange reading prev =>
            simp only [stepNext] at h
            simp only [counterEvents, hpc]
            split at h
            · rename_i heq
              subst heq
              cases h
              rw [if_pos rfl]
              exact .exchange hpc
            · rename_i hne
              cases h
              rw [if_neg hne]
              exact .reload hpc
  | fetchMax modified =>
      cases h
      exact .fetchMax

theorem counterStep_observed {p p' : Counter × CounterLog} {a : CounterAction}
    (h : observe counterStep recordCounter p a = some p') :
    ∃ new, CounterStep p.1 a p'.1 new ∧ p'.2 = new ++ p.2 := by
  obtain ⟨hstep, hlog⟩ := observe_eq_some_iff.mp h
  exact ⟨_, counterStep_cases hstep, hlog⟩

/-! ### Timestamps are allocated in increasing order -/

def Counter.Below (s : Counter) : Prop := s.value < i64Max

instance (s : Counter) : Decidable s.Below := inferInstanceAs (Decidable (_ < _))

/-- The value returned with the one access is greater than the timestamp of the other. -/
def CounterEvent.Exceeds (e e' : CounterEvent) : Prop :=
  ∀ next ∈ e.returned, ∀ modified ∈ e'.stamp, modified < next

theorem CounterStep.value_le {s s' : Counter} {a : CounterAction} {new : List CounterEvent}
    (hs : s.Below) (h : CounterStep s a s' new) : s.value ≤ s'.value := by
  cases h with
  | fetchMax => exact le_max_left _ _
  | exchange => exact (nextMicros_bounds hs).1.le
  | _ => exact le_rfl

theorem CounterStep.bounds {s s' : Counter} {a : CounterAction} {new : List CounterEvent}
    (hs : s.Below) (h : CounterStep s a s' new) :
    ∀ e ∈ new, (∀ next ∈ e.returned, s.value < next) ∧
      ∀ modified ∈ e.stamp, modified ≤ s'.value := by
  cases h with
  | spawn => exact fun _ he => absurd he List.not_mem_nil
  | clock => exact fun _ he => absurd he List.not_mem_nil
  | load hpc => simp [CounterEvent.returned, CounterEvent.stamp]
  | exchange hpc => simpa [CounterEvent.returned, CounterEvent.stamp] using (nextMicros_bounds hs).1
  | reload => exact fun _ he => absurd he List.not_mem_nil
  | fetchMax => simp [CounterEvent.returned, CounterEvent.stamp]

theorem CounterStep.length_le {s s' : Counter} {a : CounterAction} {new : List CounterEvent}
    (h : CounterStep s a s' new) : new.length ≤ 1 := by
  cases h <;> simp

structure Increasing (s : Counter) (g : CounterLog) : Prop where
  reached : ∀ e ∈ g, ∀ modified ∈ e.stamp, modified ≤ s.value
  ordered : g.Pairwise CounterEvent.Exceeds

theorem increasing_new (v₀ : ℤ) : Increasing (Counter.new v₀) [] :=
  ⟨fun _ he => absurd he List.not_mem_nil, .nil⟩

theorem Increasing.step {s s' : Counter} {a : CounterAction} {g : CounterLog}
    {new : List CounterEvent} (hg : Increasing s g) (hs : s.Below) (h : CounterStep s a s' new) :
    Increasing s' (new ++ g) := by
  have hbounds := h.bounds hs
  refine ⟨fun e he modified hmod => ?_, List.pairwise_append.mpr ⟨?_, hg.ordered, ?_⟩⟩
  · rcases List.mem_append.mp he with he | he
    · exact (hbounds e he).2 modified hmod
    · exact (hg.reached e he modified hmod).trans (h.value_le hs)
  · match new, h.length_le with
    | [], _ => exact .nil
    | [e], _ => exact List.pairwise_singleton _ e
  · intro e he e' he' next hnext modified hmod
    exact (hg.reached e' he' modified hmod).trans_lt ((hbounds e he).1 next hnext)

section Runs

variable {v₀ : ℤ} {s s' : Counter} {g g' : CounterLog}

theorem increasing
    (h : Reach (observe counterStep recordCounter) (fun p _ => p.1.Below)
      (Counter.new v₀, []) (s, g)) : Increasing s g := by
  refine Reach.invariant (I := fun p => Increasing p.1 p.2) (increasing_new v₀) ?_ h
  rintro p a p' hp hok hstep
  obtain ⟨new, hnew, hlog⟩ := counterStep_observed hstep
  rw [hlog]
  exact hp.step hok hnew

theorem value_le_of_reach
    (h : Reach (observe counterStep recordCounter) (fun p _ => p.1.Below) (s, g) (s', g')) :
    s.value ≤ s'.value := by
  refine Reach.invariant (I := fun p => s.value ≤ p.1.value) le_rfl ?_ h
  rintro p a p' hp hok hstep
  obtain ⟨new, hnew, _⟩ := counterStep_observed hstep
  exact hp.trans (hnew.value_le hok)

/-- While the counter stays below `i64::MAX` it never decreases, the values that
`next_micros` returns increase with every successful exchange, and each of them is
greater than every timestamp that was returned or passed to `fetch_max` before. -/
theorem next_micros_increasing
    (h : Reach (observe counterStep recordCounter) (fun p _ => p.1.Below)
      (Counter.new v₀, []) (s, g))
    (h' : Reach (observe counterStep recordCounter) (fun p _ => p.1.Below) (s, g) (s', g')) :
    s.value ≤ s'.value ∧ (g'.filterMap CounterEvent.returned).Pairwise (· > ·) ∧
      g'.Pairwise CounterEvent.Exceeds := by
  have hordered := (increasing (h.trans h')).ordered
  refine ⟨value_le_of_reach h', List.pairwise_filterMap.mpr ?_, hordered⟩
  refine hordered.imp fun hexceeds next hnext earlier hearlier => ?_
  refine hexceeds next hnext earlier ?_
  rename_i e e'
  cases e' with
  | exchange => exact hearlier
  | fetchMax => cases hearlier
  | load => cases hearlier

end Runs

/-- Two calls with the same reading load the same value. The one that exchanges second
has to load again, and meets an explicit put in between. -/
theorem next_micros_increasing_contended :
    ∃ s s' g', Reach (observe counterStep recordCounter) (fun p _ => p.1.Below) (s, [])
        (s', g') ∧ s.value ≤ s'.value ∧
      g'.filterMap CounterEvent.returned = [5001, 1000] ∧
      (g'.filterMap CounterEvent.returned).Pairwise (· > ·) := by
  obtain ⟨⟨s', g'⟩, hreach, hlog⟩ := Reach.exists_of_runOk
    (observe counterStep recordCounter) (fun p _ => p.1.Below) (Counter.new 0, [])
    [.spawn, .spawn, .clock 0 1000, .clock 1 1000, .step 0, .step 1, .step 0, .step 1,
      .fetchMax 5000, .step 1, .step 1]
    (fun p => p.2.filterMap CounterEvent.returned = [5001, 1000])
    (by decide +kernel)
  have hall := next_micros_increasing .refl hreach
  exact ⟨Counter.new 0, s', g', hreach, hall.1, hlog, hall.2.1⟩

/-! ### The puts of a server use the counter this way -/

def PutPc.next : PutPc → NextPc
  | .load _ reading => .load reading
  | .compareExchange _ reading prev => .compareExchange reading prev
  | _ => .idle

def Server.counter (s : Server) : Counter := ⟨s.node.counter, s.puts.map fun p => p.pc.next⟩

/-- What a step of the server does to the counter, if it does anything. -/
def ServerAction.counter (s : Server) : ServerAction → Option CounterAction
  | .spawn _ => some .spawn
  | .step t _ =>
      match s.puts[t]?.map Put.pc with
      | some (.fetchMax modified) => some (.fetchMax modified)
      | some (.attempt (_ + 1) _) => some (.clock t s.now)
      | some (.load _ _) => some (.step t)
      | some (.compareExchange _ _ _) => some (.step t)
      | _ => none
  | .prune _ => none
  | .tick _ => none

theorem Server.counter_thread {s : Server} {t : ℕ} {p : Put} (h : s.puts[t]? = some p) :
    s.counter.threads[t]? = some p.pc.next := by
  simp [Server.counter, h]

theorem Server.counter_set (s : Server) (t : ℕ) (req : CfgPutReq) (pc : PutPc) (n : Node) :
    Server.counter { s with node := n, puts := s.puts.set t ⟨req, pc⟩ } =
      ⟨n.counter, s.counter.threads.set t pc.next⟩ := by
  simp [Server.counter, List.map_set]

theorem Server.counter_set_same {s : Server} {t : ℕ} {p : Put} {pc : PutPc} {n : Node}
    (hp : s.puts[t]? = some p) (hpc : pc.next = p.pc.next) (hn : n.counter = s.node.counter) :
    Server.counter { s with node := n, puts := s.puts.set t ⟨p.req, pc⟩ } = s.counter := by
  obtain ⟨ht, hget⟩ := List.getElem?_eq_some_iff.mp (Server.counter_thread hp)
  rw [Server.counter_set, hpc, hn, ← hget, List.set_getElem_self]
  rfl

theorem stepPut_counter {s : Server} {t : ℕ} {p : Put} {c : Choice} {n : Node} {pc : PutPc}
    (hp : s.puts[t]? = some p) (h : stepPut s.node s.now p.req p.pc c = some (n, pc)) :
    match (ServerAction.step t c).counter s with
    | some b => counterStep s.counter b =
        some (Server.counter { s with node := n, puts := s.puts.set t ⟨p.req, pc⟩ })
    | none =>
        Server.counter { s with node := n, puts := s.puts.set t ⟨p.req, pc⟩ } = s.counter := by
  have hthread := Server.counter_thread hp
  have hsame : pc.next = p.pc.next → n.counter = s.node.counter →
      Server.counter { s with node := n, puts := s.puts.set t ⟨p.req, pc⟩ } = s.counter :=
    Server.counter_set_same hp
  have hstep := stepPut_cases h
  simp only [ServerAction.counter, hp, Option.map_some]
  generalize p.pc = before at h hstep hthread hsame
  cases hstep with
  | fetchMax =>
      obtain ⟨ht, hget⟩ := List.getElem?_eq_some_iff.mp hthread
      have hidle : s.counter.threads.set t .idle = s.counter.threads := by
        rw [← show s.counter.threads[t] = .idle from hget, List.set_getElem_self]
      rw [Server.counter_set]
      change some _ = some (Counter.mk _ (s.counter.threads.set t .idle))
      rw [hidle]
      rfl
  | clock =>
      have hidle : s.counter.threads[t]? = some .idle := hthread
      change counterStep _ (.clock t s.now) = _
      rw [counterStep, if_pos hidle, Server.counter_set]
      rfl
  | load =>
      change counterStep _ (.step t) = _
      rw [counterStep, hthread, Server.counter_set]
      rfl
  | exchange =>
      change counterStep _ (.step t) = _
      rw [counterStep, hthread, Server.counter_set]
      simp [PutPc.next, stepNext, Server.counter]
  | @reload left reading prev =>
      -- it loads again only because the exchange has failed
      have hne : s.node.counter ≠ prev := by
        rintro rfl
        cases c with
        | ok => simp [stepPut] at h
        | fail => cases h
        | portion n => cases h
        | listing names => cases h
      change counterStep _ (.step t) = _
      rw [counterStep, hthread, Server.counter_set]
      simp [PutPc.next, stepNext, Server.counter, hne]
  | _ => exact hsame rfl rfl

theorem serverStep_counter {s s' : Server} {a : ServerAction} (h : serverStep s a = some s') :
    match a.counter s with
    | some b => counterStep s.counter b = some s'.counter
    | none => s'.counter = s.counter := by
  cases a with
  | spawn req =>
      cases h
      simp [ServerAction.counter, counterStep, Server.counter, PutPc.next]
  | step t c =>
      simp only [serverStep] at h
      split at h
      · contradiction
      · rename_i p hp
        obtain ⟨⟨n, pc⟩, hput, rfl⟩ := Option.map_eq_some_iff.mp h
        exact stepPut_counter hp hput
  | prune nowMicros =>
      cases h
      rfl
  | tick d =>
      cases h
      rfl

end VmIo.Back
