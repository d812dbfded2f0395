import VmIo.Back.Node

/-!
Puts running beside one another in one server process.

A step of a put is one access to the clock, to the shared counter or to the
database. `Choice` says whether a statement that is run fails.
-/

namespace VmIo.Back

open VmIo.Lib VmIo.Db

inductive PutPc
  | start
  /-- explicit timestamp: `counter.fetch_max` -/
  | fetchMax (modified : ℤ)
  /-- explicit timestamp: the statement -/
  | upsertAt (modified : ℤ)
  /-- the head of the loop, with the attempts left and the last error -/
  | attempt (left : ℕ) (lastErr : Option IoError)
  /-- `next_micros`: `counter.load`, after the clock was read -/
  | load (left : ℕ) (reading : ℤ)
  /-- `next_micros`: `counter.compare_exchange` -/
  | compareExchange (left : ℕ) (reading prev : ℤ)
  /-- the statement of this attempt -/
  | upsert (left : ℕ) (modified : ℤ)
  /-- returned, with the timestamp written with and whether it was applied -/
  | done (res : Except IoError (ℤ × Bool))
  deriving DecidableEq

structure Put where
  req : CfgPutReq
  pc : PutPc
  deriving DecidableEq

def Put.row (req : CfgPutReq) (modified : ℤ) : EntryRow :=
  cfgRow req.key req.value req.expiresAtMicros modified

/-- The statement, if it is not cut short by an error of its own. -/
def runUpsert (sql : Sql) (row : EntryRow) : Choice → Option (Except IoError (Sql × Bool))
  | .ok => some (upsert sql row)
  | .fail => some (.error (.sql .failed))
  | _ => none

def stepPut (n : Node) (now : ℤ) (req : CfgPutReq) : PutPc → Choice → Option (Node × PutPc)
  | .start, .ok =>
      match checkValue req.key req.value with
      | .error e => some (n, .done (.error e))
      | .ok () =>
          match req.modifiedAtMicros with
          | some modified => some (n, .fetchMax modified)
          | none => some (n, .attempt 64 none)
  | .fetchMax modified, .ok =>
      some ({ n with counter := max n.counter modified }, .upsertAt modified)
  | .upsertAt modified, c =>
      match runUpsert n.sql (Put.row req modified) c with
      | none => none
      | some (.ok (sql, applied)) => some (⟨sql, n.counter⟩, .done (.ok (modified, applied)))
      | some (.error e) => some (n, .done (.error e))
  | .attempt 0 lastErr, .ok =>
      some (n, .done (.error (lastErr.getD (.other "failed to allocate a unique timestamp"))))
  | .attempt (left + 1) _, .ok => some (n, .load left now)
  | .load left reading, .ok => some (n, .compareExchange left reading n.counter)
  | .compareExchange left reading prev, .ok =>
      if n.counter = prev then
        some ({ n with counter := nextMicros reading prev }, .upsert left (nextMicros reading prev))
      else some (n, .load left reading)
  | .upsert left modified, c =>
      match runUpsert n.sql (Put.row req modified) c with
      | none => none
      | some (.ok (sql, applied)) => some (⟨sql, n.counter⟩, .done (.ok (modified, applied)))
      | some (.error e) => some (n, .attempt left (some e))
  | _, _ => none

/-- A server process: what its puts share, the clock, and the puts so far. -/
structure Server where
  node : Node
  now : ℤ
  puts : List Put

inductive ServerAction
  | spawn (req : CfgPutReq)
  | step (t : ℕ) (c : Choice)
  | prune (nowMicros : ℤ)
  | tick (d : ℕ)

def serverStep (s : Server) : ServerAction → Option Server
  | .spawn req => some { s with puts := s.puts ++ [⟨req, .start⟩] }
  | .step t c =>
      match s.puts[t]? with
      | none => none
      | some p =>
          (stepPut s.node s.now p.req p.pc c).map fun r =>
            { s with node := r.1, puts := s.puts.set t ⟨p.req, r.2⟩ }
  | .prune nowMicros =>
      some { s with node := ⟨(s.node.sql.pruneExpired nowMicros pruneBatch).1, s.node.counter⟩ }
  | .tick d => some { s with now := s.now + d }

def Server.start (sql : Sql) (now : ℤ) : Server := ⟨⟨sql, 0⟩, now, []⟩

/-! ### What a step can do -/

theorem runUpsert_ok {sql sql' : Sql} {row : EntryRow} {c : Choice} {applied : Bool}
    (h : runUpsert sql row c = some (.ok (sql', applied))) :
    sql.upsert row = .ok (sql', applied) := by
  cases c with
  | ok => exact of_upsert_ok (Option.some.inj h)
  | fail => cases h
  | portion n => cases h
  | listing names => cases h

inductive PutStep (n : Node) (now : ℤ) (req : CfgPutReq) : PutPc → Node → PutPc → Prop
  | refuse {e : IoError} : PutStep n now req .start n (.done (.error e))
  | explicit {modified : ℤ} : req.modifiedAtMicros = some modified →
      PutStep n now req .start n (.fetchMax modified)
  | loop : req.modifiedAtMicros = none → PutStep n now req .start n (.attempt 64 none)
  | fetchMax {modified : ℤ} : PutStep n now req (.fetchMax modified)
      { n with counter := max n.counter modified } (.upsertAt modified)
  | commitAt {modified : ℤ} {sql : Sql} {applied : Bool} :
      n.sql.upsert (Put.row req modified) = .ok (sql, applied) →
      PutStep n now req (.upsertAt modified) ⟨sql, n.counter⟩ (.done (.ok (modified, applied)))
  | failAt {modified : ℤ} {e : IoError} :
      PutStep n now req (.upsertAt modified) n (.done (.error e))
  | giveUp {lastErr : Option IoError} {e : IoError} :
      PutStep n now req (.attempt 0 lastErr) n (.done (.error e))
  | clock {left : ℕ} {lastErr : Option IoError} :
      PutStep n now req (.attempt (left + 1) lastErr) n (.load left now)
  | load {left : ℕ} {reading : ℤ} :
      PutStep n now req (.load left reading) n (.compareExchange left reading n.counter)
  | exchange {left : ℕ} {reading : ℤ} :
      PutStep n now req (.compareExchange left reading n.counter)
        { n with counter := nextMicros reading n.counter }
        (.upsert left (nextMicros reading n.counter))
  | reload {left : ℕ} {reading prev : ℤ} :
      PutStep n now req (.compareExchange left reading prev) n (.load left reading)
  | commit {left : ℕ} {modified : ℤ} {sql : Sql} {applied : Bool} :
      n.sql.upsert (Put.row req modified) = .ok (sql, applied) →
      PutStep n now req (.upsert left modified) ⟨sql, n.counter⟩ (.done (.ok (modified, applied)))
  | retry {left : ℕ} {modified : ℤ} {e : IoError} :
      PutStep n now req (.upsert left modified) n (.attempt left (some e))

theorem stepPut_cases {n n' : Node} {now : ℤ} {req : CfgPutReq} {pc pc' : PutPc} {c : Choice}
    (h : stepPut n now req pc c = some (n', pc')) : PutStep n now req pc n' pc' := by
  unfold stepPut at h
  split at h
  · split at h
    · cases h
      exact .refuse
    · split at h
      · rename_i heq
        cases h
        exact .explicit heq
      · rename_i heq
        cases h
        exact .loop heq
  · cases h
    exact .fetchMax
  · split at h
    · contradiction
    · rename_i hrun
      cases h
      exact .commitAt (runUpsert_ok hrun)
    · cases h
      exact .failAt
  · cases h
    exact .giveUp
  · cases h
    exact .clock
  · cases h
    exact .load
  · split at h
    · rename_i heq
      cases h
      subst heq
      exact .exchange
    · cases h
      exact .reload
  · split at h
    · contradiction
    · rename_i hrun
      cases h
      exact .commit (runUpsert_ok hrun)
    · cases h
      exact .retry
  · contradiction

/-- A put takes a step, or the server does something else, which leaves the puts
alone but for a new one. -/
inductive ServerStep (s : Server) : ServerAction → Server → Prop
  | spawn {req : CfgPutReq} :
      ServerStep s (.spawn req) { s with puts := s.puts ++ [⟨req, .start⟩] }
  | put {t : ℕ} {c : Choice} {p : Put} {n : Node} {pc : PutPc} : s.puts[t]? = some p →
      PutStep s.node s.now p.req p.pc n pc →
      ServerStep s (.step t c) ⟨n, s.now, s.puts.set t ⟨p.req, pc⟩⟩
  | prune {nowMicros : ℤ} : ServerStep s (.prune nowMicros)
      { s with node := ⟨(s.node.sql.pruneExpired nowMicros pruneBatch).1, s.node.counter⟩ }
  | tick {d : ℕ} : ServerStep s (.tick d) { s with now := s.now + d }

theorem serverStep_cases {s s' : Server} {a : ServerAction} (h : serverStep s a = some s') :
    ServerStep s a s' := by
  cases a with
  | spawn req =>
      cases h
      exact .spawn
  | step t c =>
      rw [serverStep] at h
      split at h
      · contradiction
      · rename_i p hp
        obtain ⟨⟨n, pc⟩, hput, rfl⟩ := Option.map_eq_some_iff.mp h
        exact .put hp (stepPut_cases hput)
  | prune nowMicros =>
      cases h
      exact .prune
  | tick d =>
      cases h
      exact .tick

/-! ### A put with nothing beside it -/

section Lone

variable {s₀ : Server} {n : Node} {now : ℤ} {puts : List Put} {req : CfgPutReq}

def answer (res : Except IoError (ℤ × Bool)) : Except IoError Unit := res.map fun _ => ()

def LoneReach (s₀ : Server) (n : Node) (now : ℤ) (puts : List Put) (req : CfgPutReq)
    (pc : PutPc) : Prop :=
  Reach serverStep (fun _ _ => True) s₀ ⟨n, now, puts ++ [⟨req, pc⟩]⟩

theorem LoneReach.step {n' : Node} {pc pc' : PutPc} (h : LoneReach s₀ n now puts req pc)
    (hs : stepPut n now req pc .ok = some (n', pc')) : LoneReach s₀ n' now puts req pc' :=
  Reach.tail (.step puts.length .ok) h trivial (by simp [serverStep, hs])

theorem LoneReach.wait {pc : PutPc} {now' : ℤ} (h : LoneReach s₀ n now puts req pc)
    (hle : now ≤ now') : LoneReach s₀ n now' puts req pc := by
  refine Reach.tail (.tick (now' - now).toNat) h trivial ?_
  have hnow : now + ((now' - now).toNat : ℤ) = now' := by omega
  rw [serverStep, hnow]

theorem LoneReach.upsertFresh {left : ℕ} {clock : ℕ → ℤ} {lastErr : Option IoError}
    (h : LoneReach s₀ n now puts req (.attempt left lastErr)) (hnow : now ≤ clock 0)
    (hclock : ∀ i, clock i ≤ clock (i + 1)) :
    ∃ now' res, LoneReach s₀ (upsertFresh (Put.row req) left clock lastErr n).2 now' puts req
        (.done res) ∧
      answer res = (upsertFresh (Put.row req) left clock lastErr n).1 := by
  induction left generalizing clock lastErr n now with
  | zero => exact ⟨now, _, h.step rfl, rfl⟩
  | succ left ih =>
      have hread : LoneReach s₀ n (clock 0) puts req (.load left (clock 0)) :=
        (h.wait hnow).step rfl
      have hswap : LoneReach s₀ ⟨n.sql, nextMicros (clock 0) n.counter⟩ (clock 0) puts req
          (.upsert left (nextMicros (clock 0) n.counter)) :=
        (hread.step rfl).step (by simp [stepPut])
      rw [Back.upsertFresh]
      cases hup : upsert n.sql (Put.row req (nextMicros (clock 0) n.counter)) with
      | ok out =>
          obtain ⟨sql, applied⟩ := out
          exact ⟨clock 0, .ok (nextMicros (clock 0) n.counter, applied),
            hswap.step (by simp only [stepPut, runUpsert, hup]), rfl⟩
      | error e =>
          have hretry : LoneReach s₀ ⟨n.sql, nextMicros (clock 0) n.counter⟩ (clock 0) puts req
              (.attempt left (some e)) := hswap.step (by simp [stepPut, runUpsert, hup])
          exact ih hretry (hclock 0) fun i => hclock (i + 1)

theorem lone_put {clock : ℕ → ℤ} (hnow : now ≤ clock 0) (hclock : ∀ i, clock i ≤ clock (i + 1)) :
    ∃ now' res, LoneReach ⟨n, now, puts ++ [⟨req, .start⟩]⟩ (upsertValue n req clock).2 now' puts
        req (.done res) ∧
      answer res = (upsertValue n req clock).1 := by
  have hstart : LoneReach ⟨n, now, puts ++ [⟨req, .start⟩]⟩ n now puts req .start := .refl
  unfold upsertValue
  cases hcheck : checkValue req.key req.value with
  | error e => exact ⟨now, .error e, hstart.step (by simp only [stepPut, hcheck]), rfl⟩
  | ok u =>
      cases hmod : req.modifiedAtMicros with
      | none =>
          have hloop : LoneReach ⟨n, now, puts ++ [⟨req, .start⟩]⟩ n now puts req
              (.attempt 64 none) := hstart.step (by simp only [stepPut, hcheck, hmod])
          exact hloop.upsertFresh hnow hclock
      | some modified =>
          have hfetch : LoneReach ⟨n, now, puts ++ [⟨req, .start⟩]⟩ n now puts req
              (.fetchMax modified) := hstart.step (by simp only [stepPut, hcheck, hmod])
          have hmax : LoneReach ⟨n, now, puts ++ [⟨req, .start⟩]⟩
              ⟨n.sql, max n.counter modified⟩ now puts req (.upsertAt modified) := hfetch.step rfl
          cases hup : upsert n.sql (Put.row req modified) with
          | ok out =>
              obtain ⟨sql, applied⟩ := out
              have hup' : upsert n.sql (cfgRow req.key req.value req.expiresAtMicros modified) =
                .ok (sql, applied) := hup
              simp only [hup']
              exact ⟨now, .ok (modified, applied),
                hmax.step (by simp only [stepPut, runUpsert, hup]), rfl⟩
          | error e =>
              have hup' : upsert n.sql (cfgRow req.key req.value req.expiresAtMicros modified) =
                .error e := hup
              simp only [hup']
              exact ⟨now, .error e, hmax.step (by simp only [stepPut, runUpsert, hup]), rfl⟩

end Lone

end VmIo.Back
