import VmIo.Chan.Server
import VmIo.Lib.Semaphore
import VmIo.Lib.Transition

/-!
The connections of a channel server and the permits they are served with.

Every accepted connection has a task. The task asks for a permit when it first runs and gives
up after `connWait`. Its requests go to `handle_request` if it has got one, and are all answered
503 if it has not. The permits are those of a fair semaphore, which all listeners share.
-/

namespace VmIo.Chan

open VmIo.Lib

def maxConns : ℕ := 2048

/-- in milliseconds -/
def connWait : ℕ := 17

inductive ConnPc
  | accepted
  /-- `timeout(CONN_WAIT, sem.acquire_owned())` -/
  | waiting (deadline : ℕ)
  /-- it has been handed a permit and has not run since -/
  | granted
  /-- `serve_connection` with `handle_request` -/
  | serving
  /-- `serve_connection` with the fixed answer -/
  | unavailable
  | closed
  deriving DecidableEq

structure Conns where
  now : ℕ
  sem : Semaphore ℕ
  conns : List ConnPc
  deriving DecidableEq

inductive ConnAction
  | accept
  /-- the task is polled -/
  | poll (c : ℕ)
  /-- a request arrives on the connection -/
  | request (c : ℕ) (req : Request)
  /-- `serve_connection` returns -/
  | close (c : ℕ)
  | tick (d : ℕ)

def StatusCode.serviceUnavailable : StatusCode := ⟨503, by decide⟩

/-- The answer without a permit, with its `Retry-After` header. -/
def serviceUnavailable : Response × (String × Bytes) :=
  (respText .serviceUnavailable "Service Unavailable", ("retry-after", utf8 "60"))

inductive ConnEvent
  | asked (c now : ℕ)
  | granted (c : ℕ)
  | refused (c now : ℕ)
  | returned (c : ℕ)
  /-- `handle_request` is called -/
  | handed (c : ℕ) (req : Request)
  | answered (c : ℕ) (res : Response × (String × Bytes))

/-- The events so far, the latest first. -/
abbrev ConnLog := List ConnEvent

def Conns.new : Conns := ⟨0, .new maxConns, []⟩

def connStep (s : Conns) : ConnAction → Option (Conns × List ConnEvent)
  | .accept => some ({ s with conns := s.conns ++ [.accepted] }, [])
  | .poll c =>
      match s.conns[c]? with
      | some .accepted =>
          match s.sem.acquire c with
          | (sem, true) =>
              some (⟨s.now, sem, s.conns.set c .serving⟩, [.granted c, .asked c s.now])
          | (sem, false) =>
              some (⟨s.now, sem, s.conns.set c (.waiting (s.now + connWait))⟩, [.asked c s.now])
      | some (.waiting deadline) =>
          if deadline ≤ s.now then
            some (⟨s.now, s.sem.cancel c, s.conns.set c .unavailable⟩, [.refused c s.now])
          else none
      -- the permit is looked at before the deadline
      | some .granted => some ({ s with conns := s.conns.set c .serving }, [])
      | _ => none
  | .request c req =>
      match s.conns[c]? with
      | some .serving => some (s, [.handed c req])
      | some .unavailable => some (s, [.answered c serviceUnavailable])
      | _ => none
  | .close c =>
      match s.conns[c]? with
      | some .serving =>
          match s.sem.release with
          | (sem, none) => some (⟨s.now, sem, s.conns.set c .closed⟩, [.returned c])
          | (sem, some d) =>
              some (⟨s.now, sem, (s.conns.set c .closed).set d .granted⟩, [.granted d, .returned c])
      | some .unavailable => some ({ s with conns := s.conns.set c .closed }, [])
      | _ => none
  | .tick d => some ({ s with now := s.now + d }, [])

/-! ### What a history says -/

def waitingAfter : ConnLog → List ℕ
  | [] => []
  | .asked c _ :: h => waitingAfter h ++ [c]
  | .granted c :: h => (waitingAfter h).erase c
  | .refused c _ :: h => (waitingAfter h).erase c
  | _ :: h => waitingAfter h

def holdersAfter : ConnLog → Finset ℕ
  | [] => ∅
  | .granted c :: h => insert c (holdersAfter h)
  | .returned c :: h => (holdersAfter h).erase c
  | _ :: h => holdersAfter h

/-- What an event says about the history before it. -/
def ConnExplained (h : ConnLog) : ConnEvent → Prop
  | .asked c _ => ∀ t, .asked c t ∉ h
  | .granted c => (waitingAfter h).head? = some c ∧ (holdersAfter h).card < maxConns
  | .refused c now => c ∈ waitingAfter h ∧ (holdersAfter h).card = maxConns ∧
      ∃ t, .asked c t ∈ h ∧ t + connWait ≤ now
  | .returned c => c ∈ holdersAfter h
  | .handed c _ => c ∈ holdersAfter h
  | .answered c res => (∃ t, .refused c t ∈ h) ∧ res = serviceUnavailable

def ConnEvent.conn : ConnEvent → ℕ
  | asked c _ => c
  | granted c => c
  | refused c _ => c
  | returned c => c
  | handed c _ => c
  | answered c _ => c

section Frame

variable {h : ConnLog} {e : ConnEvent} {c : ℕ}

theorem mem_waitingAfter_cons (he : e.conn ≠ c) : c ∈ waitingAfter (e :: h) ↔ c ∈ waitingAfter h := by
  cases e with
  | asked d t => simp [waitingAfter, Ne.symm (show d ≠ c from he)]
  | granted d => exact List.mem_erase_of_ne (Ne.symm he)
  | refused d t => exact List.mem_erase_of_ne (Ne.symm he)
  | returned d => exact Iff.rfl
  | handed d req => exact Iff.rfl
  | answered d res => exact Iff.rfl

theorem mem_holdersAfter_cons (he : e.conn ≠ c) : c ∈ holdersAfter (e :: h) ↔ c ∈ holdersAfter h := by
  cases e with
  | granted d => simp [holdersAfter, Ne.symm (show d ≠ c from he)]
  | returned d => simp [holdersAfter, Ne.symm (show d ≠ c from he)]
  | asked d t => exact Iff.rfl
  | refused d t => exact Iff.rfl
  | handed d req => exact Iff.rfl
  | answered d res => exact Iff.rfl

end Frame

/-! ### What holds of every state -/

/-- What the history says of a connection, by where its task is. -/
structure ConnPc.Traced (h : ConnLog) (c : ℕ) (pc : ConnPc) : Prop where
  holds : c ∈ holdersAfter h ↔ pc = .granted ∨ pc = .serving
  waits : c ∈ waitingAfter h ↔ ∃ deadline, pc = .waiting deadline
  fresh : pc = .accepted → ∀ t, .asked c t ∉ h
  asked : ∀ deadline, pc = .waiting deadline → ∃ t, .asked c t ∈ h ∧ deadline = t + connWait
  refused : pc = .unavailable → ∃ t, .refused c t ∈ h

structure ConnsTraced (s : Conns) (h : ConnLog) : Prop where
  legal : Legal ConnExplained h
  conserves : s.sem.Conserves maxConns (holdersAfter h)
  queue : s.sem.queue = waitingAfter h
  nodup : (waitingAfter h).Nodup
  conns : ∀ (c : ℕ) (pc : ConnPc), s.conns[c]? = some pc → pc.Traced h c
  fresh : ∀ c, s.conns.length ≤ c → ConnPc.accepted.Traced h c

theorem ConnPc.Traced.cons {h : ConnLog} {e : ConnEvent} {c : ℕ} {pc : ConnPc}
    (hpc : pc.Traced h c) (he : e.conn ≠ c) : pc.Traced (e :: h) c where
  holds := (mem_holdersAfter_cons he).trans hpc.holds
  waits := (mem_waitingAfter_cons he).trans hpc.waits
  fresh heq t hmem := by
    rcases List.mem_cons.mp hmem with rfl | hmem
    · exact he rfl
    · exact hpc.fresh heq t hmem
  asked deadline heq := by
    obtain ⟨t, ht, hdeadline⟩ := hpc.asked deadline heq
    exact ⟨t, List.mem_cons_of_mem _ ht, hdeadline⟩
  refused heq := by
    obtain ⟨t, ht⟩ := hpc.refused heq
    exact ⟨t, List.mem_cons_of_mem _ ht⟩

theorem connsTraced_new : ConnsTraced Conns.new [] where
  legal := trivial
  conserves := Semaphore.conserves_new maxConns
  queue := rfl
  nodup := .nil
  conns c pc hc := by simp [Conns.new] at hc
  fresh c _ := ⟨by simp [holdersAfter], by simp [waitingAfter], by simp, by simp, by simp⟩

theorem ConnPc.Traced.quiet {h : ConnLog} {e : ConnEvent} {c : ℕ} {pc : ConnPc}
    (hpc : pc.Traced h c) (hholders : holdersAfter (e :: h) = holdersAfter h)
    (hwaiting : waitingAfter (e :: h) = waitingAfter h) (hasked : ∀ d t, e ≠ .asked d t) :
    pc.Traced (e :: h) c where
  holds := by rw [hholders, hpc.holds]
  waits := by rw [hwaiting, hpc.waits]
  fresh heq t hmem := by
    rcases List.mem_cons.mp hmem with rfl | hmem
    · exact hasked c t rfl
    · exact hpc.fresh heq t hmem
  asked deadline heq := by
    obtain ⟨t, ht, hdeadline⟩ := hpc.asked deadline heq
    exact ⟨t, List.mem_cons_of_mem _ ht, hdeadline⟩
  refused heq := by
    obtain ⟨t, ht⟩ := hpc.refused heq
    exact ⟨t, List.mem_cons_of_mem _ ht⟩

theorem ConnPc.Traced.closed {h : ConnLog} {c : ℕ} (hholds : c ∉ holdersAfter h)
    (hwaits : c ∉ waitingAfter h) : ConnPc.closed.Traced h c :=
  ⟨by simpa using hholds, by simpa using hwaits, by simp, by simp, by simp⟩

section Step

variable {s s' : Conns} {h events : ConnLog} {c : ℕ}

theorem ConnPc.Traced.append {pc : ConnPc} (hpc : pc.Traced h c)
    (hother : ∀ e ∈ events, e.conn ≠ c) : pc.Traced (events ++ h) c := by
  induction events with
  | nil => exact hpc
  | cons e events ih =>
      obtain ⟨he, hevents⟩ := List.forall_mem_cons.mp hother
      exact (ih hevents).cons he

theorem ConnsTraced.set (events : ConnLog) (hs : ConnsTraced s h) {before pc : ConnPc}
    {sem : Semaphore ℕ} {now : ℕ}
    (hc : s.conns[c]? = some before) (hlegal : Legal ConnExplained (events ++ h))
    (hconserves : sem.Conserves maxConns (holdersAfter (events ++ h)))
    (hqueue : sem.queue = waitingAfter (events ++ h)) (hnodup : (waitingAfter (events ++ h)).Nodup)
    (hpc : pc.Traced (events ++ h) c) (hown : ∀ e ∈ events, e.conn = c) :
    ConnsTraced ⟨now, sem, s.conns.set c pc⟩ (events ++ h) where
  legal := hlegal
  conserves := hconserves
  queue := hqueue
  nodup := hnodup
  conns d pc' hd := by
    rcases getElem?_set_cases hd with ⟨rfl, rfl⟩ | ⟨hne, hd⟩
    · exact hpc
    · exact (hs.conns d pc' hd).append fun e he => by rw [hown e he]; exact hne.symm
  fresh d hd := by
    rw [List.length_set] at hd
    have hlt := (List.getElem?_eq_some_iff.mp hc).1
    exact (hs.fresh d hd).append fun e he => by rw [hown e he]; omega

theorem ConnsTraced.poll (hs : ConnsTraced s h) (hstep : connStep s (.poll c) = some (s', events)) :
    ConnsTraced s' (events ++ h) := by
  simp only [connStep] at hstep
  split at hstep
  · rename_i hc
    have htraced := hs.conns c _ hc
    have hfree : c ∉ holdersAfter h := by simp [htraced.holds]
    have hidle : c ∉ waitingAfter h := by simp [htraced.waits]
    have hasked : ConnExplained h (.asked c s.now) := htraced.fresh rfl
    split at hstep
    · rename_i sem hsem
      cases hstep
      obtain ⟨hconserves, hempty, hqueue, hcard⟩ := hs.conserves.of_acquire hfree hsem
      rw [hs.queue] at hempty
      have hwaiting : waitingAfter (.granted c :: .asked c s.now :: h) = [] := by
        simp [waitingAfter, hempty]
      refine hs.set _ hc ⟨⟨?_, hcard⟩, hasked, hs.legal⟩ hconserves (hqueue.trans hwaiting.symm)
        (hwaiting ▸ .nil) ⟨?_, ?_, by simp, by simp, by simp⟩ (by simp [ConnEvent.conn])
      · simp [waitingAfter, hempty]
      · simp [holdersAfter]
      · simp [hwaiting]
    · rename_i sem hsem
      cases hstep
      obtain ⟨hconserves, hqueue⟩ := hs.conserves.of_wait hsem
      have hnodup : (waitingAfter h ++ [c]).Nodup :=
        hs.nodup.append (List.nodup_singleton c) (by simpa using hidle)
      refine hs.set _ hc ⟨hasked, hs.legal⟩ hconserves (by rw [hqueue, hs.queue]; rfl) hnodup
        ⟨?_, ?_, by simp, ?_, by simp⟩ (by simp [ConnEvent.conn])
      · simpa [holdersAfter] using hfree
      · simp [waitingAfter]
      · rintro deadline heq
        cases heq
        exact ⟨s.now, by simp, rfl⟩
  · rename_i deadline hc
    split at hstep
    · rename_i hdeadline
      cases hstep
      have htraced := hs.conns c _ hc
      have hwaits : c ∈ waitingAfter h := htraced.waits.mpr ⟨deadline, rfl⟩
      have hfree : c ∉ holdersAfter h := by simp [htraced.holds]
      obtain ⟨t, ht, rfl⟩ := htraced.asked deadline rfl
      have hfull : (holdersAfter h).card = maxConns :=
        hs.conserves.card_eq (hs.queue ▸ List.ne_nil_of_mem hwaits)
      refine hs.set _ hc ⟨⟨hwaits, hfull, t, ht, hdeadline⟩, hs.legal⟩ (hs.conserves.cancel c)
        (by simp only [Semaphore.cancel, hs.queue]; rfl) (hs.nodup.erase c)
        ⟨?_, ?_, by simp, by simp, ?_⟩ (by simp [ConnEvent.conn])
      · simpa [holdersAfter] using hfree
      · simpa [waitingAfter] using hs.nodup.not_mem_erase
      · exact fun _ => ⟨s.now, by simp⟩
    · contradiction
  · rename_i hc
    cases hstep
    have htraced := hs.conns c _ hc
    refine hs.set [] hc hs.legal hs.conserves hs.queue hs.nodup
      ⟨?_, ?_, by simp, by simp, by simp⟩ (by simp)
    · simpa using htraced.holds
    · simpa using htraced.waits
  · contradiction

theorem ConnsTraced.request {req : Request} (hs : ConnsTraced s h)
    (hstep : connStep s (.request c req) = some (s', events)) : ConnsTraced s' (events ++ h) := by
  simp only [connStep] at hstep
  split at hstep
  · rename_i hc
    cases hstep
    have hholds : c ∈ holdersAfter h := (hs.conns c _ hc).holds.mpr (.inr rfl)
    exact ⟨⟨hholds, hs.legal⟩, hs.conserves, hs.queue, hs.nodup,
      fun d pc hd => (hs.conns d pc hd).quiet rfl rfl (by simp),
      fun d hd => (hs.fresh d hd).quiet rfl rfl (by simp)⟩
  · rename_i hc
    cases hstep
    have hrefused := (hs.conns c _ hc).refused rfl
    exact ⟨⟨⟨hrefused, rfl⟩, hs.legal⟩, hs.conserves, hs.queue, hs.nodup,
      fun d pc hd => (hs.conns d pc hd).quiet rfl rfl (by simp),
      fun d hd => (hs.fresh d hd).quiet rfl rfl (by simp)⟩
  · contradiction

theorem ConnsTraced.close (hs : ConnsTraced s h)
    (hstep : connStep s (.close c) = some (s', events)) : ConnsTraced s' (events ++ h) := by
  simp only [connStep] at hstep
  split at hstep
  · rename_i hc
    have htraced := hs.conns c _ hc
    have hholds : c ∈ holdersAfter h := htraced.holds.mpr (.inr rfl)
    have hidle : c ∉ waitingAfter h := by simp [htraced.waits]
    have hclosed : ConnPc.closed.Traced (.returned c :: h) c :=
      .closed (by simp [holdersAfter]) hidle
    split at hstep
    · rename_i sem hsem
      cases hstep
      obtain ⟨hconserves, hempty, hqueue⟩ := hs.conserves.of_release hholds hsem
      exact hs.set _ hc ⟨hholds, hs.legal⟩ hconserves (by rw [hqueue, ← hempty, hs.queue]; rfl)
        hs.nodup hclosed (by simp [ConnEvent.conn])
    · rename_i sem d hsem
      cases hstep
      -- the permit goes on to who has waited longest
      have hqueue : waitingAfter h = d :: sem.queue :=
        hs.queue.symm.trans (Semaphore.queue_of_release hsem)
      have hwaits : d ∈ waitingAfter h := hqueue ▸ List.mem_cons_self
      have hlt : d < s.conns.length := by
        by_contra hge
        obtain ⟨deadline, hpc⟩ := (hs.fresh d (not_lt.mp hge)).waits.mp hwaits
        cases hpc
      have hd := hs.conns d _ (List.getElem?_eq_getElem hlt)
      obtain ⟨deadline, hpc⟩ := hd.waits.mp hwaits
      have hfree : d ∉ holdersAfter h := by simp [hd.holds, hpc]
      have hne : c ≠ d := fun heq => hidle (heq ▸ hwaits)
      obtain ⟨hconserves, hcard⟩ := hs.conserves.of_hand hholds hfree hsem
      have hwaiting : waitingAfter (.granted d :: .returned c :: h) = sem.queue := by
        simp [waitingAfter, hqueue]
      have hnodup := hs.nodup
      rw [hqueue, List.nodup_cons] at hnodup
      refine ⟨⟨⟨?_, hcard⟩, hholds, hs.legal⟩, hconserves, hwaiting.symm, hwaiting ▸ hnodup.2,
        fun u pc hu => ?_, fun u hu => ?_⟩
      · simp [waitingAfter, hqueue]
      · rcases getElem?_set_cases hu with ⟨rfl, rfl⟩ | ⟨hud, hu⟩
        · refine ⟨by simp [holdersAfter], ?_, by simp, by simp, by simp⟩
          simpa [hwaiting] using hnodup.1
        · rcases getElem?_set_cases hu with ⟨rfl, rfl⟩ | ⟨huc, hu⟩
          · exact hclosed.cons hud.symm
          · have hreturned : pc.Traced (.returned c :: h) u := (hs.conns u pc hu).cons huc.symm
            exact hreturned.cons hud.symm
      · simp only [List.length_set] at hu
        have hlt' := (List.getElem?_eq_some_iff.mp hc).1
        have hreturned : ConnPc.accepted.Traced (.returned c :: h) u :=
          (hs.fresh u hu).cons (by simp only [ConnEvent.conn]; omega)
        exact hreturned.cons (by simp only [ConnEvent.conn]; omega)
  · rename_i hc
    cases hstep
    have htraced := hs.conns c _ hc
    refine hs.set [] hc hs.legal hs.conserves hs.queue hs.nodup
      (.closed ?_ ?_) (by simp)
    · simpa using htraced.holds
    · simpa using htraced.waits
  · contradiction

theorem ConnsTraced.step {a : ConnAction} (hs : ConnsTraced s h)
    (hstep : connStep s a = some (s', events)) : ConnsTraced s' (events ++ h) := by
  cases a with
  | accept =>
      cases hstep
      refine ⟨hs.legal, hs.conserves, hs.queue, hs.nodup, fun d pc hd => ?_, fun d hd => ?_⟩
      · rcases getElem?_concat_cases hd with hd | ⟨hge, rfl⟩
        · exact hs.conns d pc hd
        · exact hs.fresh d hge
      · rw [List.length_append, List.length_singleton] at hd
        exact hs.fresh d (by omega)
  | poll c => exact hs.poll hstep
  | request c req => exact hs.request hstep
  | close c => exact hs.close hstep
  | tick d =>
      cases hstep
      exact ⟨hs.legal, hs.conserves, hs.queue, hs.nodup, hs.conns, hs.fresh⟩

end Step

theorem connsTraced {s : Conns} {h : ConnLog}
    (hreach : Reach (logged connStep) (fun _ _ => True) (Conns.new, []) (s, h)) :
    ConnsTraced s h := by
  refine Reach.invariant (I := fun q => ConnsTraced q.1 q.2) connsTraced_new ?_ hreach
  rintro ⟨s, h⟩ a ⟨s', h'⟩ hs _ hstep
  obtain ⟨events, hevents, hlog⟩ := logged_eq_some_iff.mp hstep
  have hlog : h' = events ++ h := hlog
  rw [hlog]
  exact hs.step hevents

/-- In every run a connection is granted a permit only when fewer than `maxConns` hold one and
it is the one that has waited longest, and is refused only when it has waited `connWait` and
`maxConns` others hold one. `handle_request` is called for a connection only while it holds a
permit, and those without are all answered 503. No permit is lost, and while somebody waits none
is free. -/
theorem connections_explained {s : Conns} {h : ConnLog}
    (hreach : Reach (logged connStep) (fun _ _ => True) (Conns.new, []) (s, h)) :
    Legal ConnExplained h ∧ s.sem.available + (holdersAfter h).card = maxConns ∧
      (waitingAfter h ≠ [] → (holdersAfter h).card = maxConns) ∧
      ∀ c, c ∈ holdersAfter h ↔
        s.conns[c]? = some .granted ∨ s.conns[c]? = some .serving := by
  have hs := connsTraced hreach
  refine ⟨hs.legal, hs.conserves.conserved, fun hne => hs.conserves.card_eq (hs.queue ▸ hne),
    fun c => ?_⟩
  cases hc : s.conns[c]? with
  | none => simp [(hs.fresh c (List.getElem?_eq_none_iff.mp hc)).holds]
  | some pc => simp [(hs.conns c pc hc).holds]

/-- `n` connections that are served, and one more. -/
def servedAnd (n : ℕ) (pc : ConnPc) : List ConnPc := List.replicate n .serving ++ [pc]

theorem servedAnd_getElem? (n : ℕ) (pc : ConnPc) : (servedAnd n pc)[n]? = some pc := by
  simp [servedAnd]

theorem servedAnd_set (n : ℕ) (pc pc' : ConnPc) : (servedAnd n pc).set n pc' = servedAnd n pc' := by
  rw [servedAnd, List.set_append_right _ _ (by simp)]
  simp [servedAnd]

theorem reach_served {n : ℕ} (hn : n ≤ maxConns) :
    ∃ h, Reach (logged connStep) (fun _ _ => True) (Conns.new, [])
      (⟨0, ⟨maxConns - n, []⟩, List.replicate n .serving⟩, h) := by
  induction n with
  | zero => exact ⟨[], .refl⟩
  | succ n ih =>
      obtain ⟨h, hreach⟩ := ih (by omega)
      have hpos : 0 < maxConns - n := by omega
      have haccept : Reach (logged connStep) (fun _ _ => True) (Conns.new, [])
          (⟨0, ⟨maxConns - n, []⟩, servedAnd n .accepted⟩, h) := .tail .accept hreach trivial rfl
      refine ⟨.granted n :: .asked n 0 :: h, .tail (.poll n) haccept trivial ?_⟩
      simp only [logged, connStep, servedAnd_getElem?, Semaphore.acquire, hpos, if_true,
        servedAnd_set, Option.map_some, List.cons_append, List.nil_append, Nat.sub_sub]
      rw [List.replicate_succ', servedAnd]

/-- One connection too many is refused after `connWait`, and its request is answered 503. -/
theorem connections_explained_refused :
    ∃ s h, Reach (logged connStep) (fun _ _ => True) (Conns.new, [])
        (s, .answered maxConns serviceUnavailable :: .refused maxConns connWait :: h) ∧
      (holdersAfter h).card = maxConns := by
  obtain ⟨h, hreach⟩ := reach_served le_rfl
  rw [Nat.sub_self] at hreach
  have haccept : Reach (logged connStep) (fun _ _ => True) (Conns.new, [])
      (⟨0, ⟨0, []⟩, servedAnd maxConns .accepted⟩, h) := .tail .accept hreach trivial rfl
  have hwait : Reach (logged connStep) (fun _ _ => True) (Conns.new, [])
      (⟨0, ⟨0, [maxConns]⟩, servedAnd maxConns (.waiting connWait)⟩, .asked maxConns 0 :: h) := by
    refine .tail (.poll maxConns) haccept trivial ?_
    simp [logged, connStep, servedAnd_getElem?, servedAnd_set, Semaphore.acquire]
  have htick : Reach (logged connStep) (fun _ _ => True) (Conns.new, [])
      (⟨connWait, ⟨0, [maxConns]⟩, servedAnd maxConns (.waiting connWait)⟩,
        .asked maxConns 0 :: h) := by
    refine .tail (.tick connWait) hwait trivial ?_
    simp [logged, connStep]
  have hrefuse : Reach (logged connStep) (fun _ _ => True) (Conns.new, [])
      (⟨connWait, ⟨0, []⟩, servedAnd maxConns .unavailable⟩,
        .refused maxConns connWait :: .asked maxConns 0 :: h) := by
    refine .tail (.poll maxConns) htick trivial ?_
    simp [logged, connStep, servedAnd_getElem?, servedAnd_set, Semaphore.cancel]
  have hanswer : Reach (logged connStep) (fun _ _ => True) (Conns.new, [])
      (⟨connWait, ⟨0, []⟩, servedAnd maxConns .unavailable⟩,
        .answered maxConns serviceUnavailable :: .refused maxConns connWait ::
          .asked maxConns 0 :: h) := by
    refine .tail (.request maxConns ⟨"POST", "/cfg-get", [], [], false⟩) hrefuse trivial ?_
    simp [logged, connStep, servedAnd_getElem?]
  exact ⟨_, _, hanswer, (connections_explained hanswer).1.2.1.2.1⟩

/-! ### Nobody is overtaken -/

def askedAfter (h : ConnLog) : List ℕ :=
  (h.filterMap fun e => match e with
    | .asked c _ => some c
    | _ => none).reverse

section Order

variable {h : ConnLog} {c d : ℕ}

theorem mem_askedAfter : c ∈ askedAfter h ↔ ∃ t, .asked c t ∈ h := by
  simp only [askedAfter, List.mem_reverse, List.mem_filterMap]
  constructor
  · rintro ⟨e, he, heq⟩
    cases e with
    | asked d t =>
        cases heq
        exact ⟨t, he⟩
    | _ => cases heq
  · rintro ⟨t, ht⟩
    exact ⟨_, ht, rfl⟩

theorem askedAfter_asked {t : ℕ} : askedAfter (.asked c t :: h) = askedAfter h ++ [c] := by
  simp [askedAfter]

theorem nodup_askedAfter (hlegal : Legal ConnExplained h) : (askedAfter h).Nodup := by
  induction h with
  | nil => exact .nil
  | cons e h ih =>
      obtain ⟨he, hlegal⟩ := hlegal
      cases e with
      | asked c t =>
          rw [askedAfter_asked]
          refine (ih hlegal).append (List.nodup_singleton c) ?_
          rw [List.disjoint_singleton, mem_askedAfter]
          exact fun ⟨t, ht⟩ => he t ht
      | _ => exact ih hlegal

theorem waitingAfter_sublist (h : ConnLog) : (waitingAfter h).Sublist (askedAfter h) := by
  induction h with
  | nil => exact .refl _
  | cons e h ih =>
      cases e with
      | asked c t =>
          rw [askedAfter_asked]
          exact ih.append (.refl _)
      | granted c => exact List.erase_sublist.trans ih
      | refused c t => exact List.erase_sublist.trans ih
      | _ => exact ih

theorem mem_waitingAfter {t : ℕ} (hasked : .asked c t ∈ h) (hgranted : .granted c ∉ h)
    (hrefused : ∀ u, .refused c u ∉ h) : c ∈ waitingAfter h := by
  induction h with
  | nil => cases hasked
  | cons e h ih =>
      have hgranted' : .granted c ∉ h := fun hmem => hgranted (List.mem_cons_of_mem _ hmem)
      have hrefused' : ∀ u, .refused c u ∉ h :=
        fun u hmem => hrefused u (List.mem_cons_of_mem _ hmem)
      rcases List.mem_cons.mp hasked with rfl | hmem
      · simp [waitingAfter]
      · have hwaits := ih hmem hgranted' hrefused'
        by_cases he : e.conn = c
        · cases e with
          | asked d t => exact List.mem_append_left _ hwaits
          | granted d =>
              obtain rfl : d = c := he
              exact absurd List.mem_cons_self hgranted
          | refused d u =>
              obtain rfl : d = c := he
              exact absurd List.mem_cons_self (hrefused u)
          | _ => exact hwaits
        · exact (mem_waitingAfter_cons he).mpr hwaits

end Order

/-- Permits are given out in the order they were asked for. When a connection is granted one,
every connection that had asked before it has been granted one or refused. -/
theorem served_in_order {s : Conns} {later mid earlier : ConnLog} {c d t u : ℕ}
    (hreach : Reach (logged connStep) (fun _ _ => True) (Conns.new, [])
      (s, later ++ .granted d :: (mid ++ .asked d t :: earlier)))
    (hasked : .asked c u ∈ earlier) :
    .granted c ∈ mid ++ .asked d t :: earlier ∨
      ∃ v, .refused c v ∈ mid ++ .asked d t :: earlier := by
  have hlegal := (connsTraced hreach).legal
  have hgrant : ConnExplained (mid ++ .asked d t :: earlier) (.granted d) := hlegal.event
  have hbefore : Legal ConnExplained (mid ++ .asked d t :: earlier) := (hlegal.of_append).2
  have honce : ∀ v, .asked d v ∉ earlier := hbefore.event
  by_contra hnot
  simp only [not_or, not_exists] at hnot
  have hwaits := mem_waitingAfter (List.mem_append_right mid (List.mem_cons_of_mem _ hasked))
    hnot.1 hnot.2
  obtain ⟨rest, hrest⟩ := List.head?_eq_some_iff.mp hgrant.1
  have hne : c ≠ d := fun heq => honce u (heq ▸ hasked)
  have hmem : c ∈ rest := (List.mem_cons.mp (hrest ▸ hwaits)).resolve_left hne
  -- the queue has `d` before `c`, and `c` has asked before `d`
  have hafter : [d, c].Sublist (askedAfter (mid ++ .asked d t :: earlier)) := by
    have hsub := waitingAfter_sublist (mid ++ .asked d t :: earlier)
    rw [hrest] at hsub
    exact ((List.singleton_sublist.mpr hmem).cons_cons d).trans hsub
  have hsplit : askedAfter (mid ++ .asked d t :: earlier) =
      askedAfter earlier ++ (d :: askedAfter mid) := by
    simp [askedAfter]
  have hnodup := nodup_askedAfter hbefore
  have hearly : c ∈ askedAfter earlier := mem_askedAfter.mpr ⟨u, hasked⟩
  rw [hsplit] at hafter hnodup
  have hdisjoint := List.disjoint_of_nodup_append hnodup
  obtain ⟨l, r, heq, hl, hr⟩ := List.sublist_append_iff.mp hafter
  cases l with
  | nil =>
      obtain rfl : [d, c] = r := heq
      exact hdisjoint hearly (hr.subset (by simp))
  | cons x l =>
      obtain ⟨rfl, _⟩ := List.cons.inj heq
      exact hdisjoint (hl.subset List.mem_cons_self) List.mem_cons_self

/-- The task of the second connection runs first, so it is the first to be served. -/
theorem served_in_order_swapped :
    ∃ s earlier, Reach (logged connStep) (fun _ _ => True) (Conns.new, [])
        (s, .granted 0 :: .asked 0 5 :: earlier) ∧ .asked 1 0 ∈ earlier ∧
      (.granted 1 ∈ ConnEvent.asked 0 5 :: earlier ∨
        ∃ v, .refused 1 v ∈ ConnEvent.asked 0 5 :: earlier) := by
  have hreach : Reach (logged connStep) (fun _ _ => True) (Conns.new, [])
      (⟨5, ⟨2046, []⟩, [.serving, .serving]⟩,
        [] ++ .granted 0 :: ([] ++ .asked 0 5 :: [.granted 1, .asked 1 0])) :=
    .of_runOk (show runOk (logged connStep) (fun _ _ => True) (Conns.new, [])
      [.accept, .accept, .poll 1, .tick 5, .poll 0] = some _ from rfl)
  have hasked : .asked 1 0 ∈ ([.granted 1, .asked 1 0] : ConnLog) := by simp
  exact ⟨_, _, hreach, hasked, served_in_order hreach hasked⟩

end VmIo.Chan
