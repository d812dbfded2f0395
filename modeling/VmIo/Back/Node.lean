import VmIo.Back.Server
import VmIo.Lib.Transition

/-!
One config server over its life, its requests one at a time.

A put takes the readings of the clock it is going to get. A restart keeps the
database and loses the counter. Announcing addresses is a run of puts, and so
is a config init after the restart that begins its process.
-/

namespace VmIo.Back

open VmIo.Lib VmIo.Db

inductive NodeAction
  | put (req : CfgPutReq) (clock : ℕ → ℤ)
  | prune (nowMicros : ℤ)
  | restart

def nodeStep (n : Node) : NodeAction → Option Node
  | .put req clock => some (upsertValue n req clock).2
  | .prune nowMicros => some { n with sql := (n.sql.pruneExpired nowMicros pruneBatch).1 }
  | .restart => some { n with counter := 0 }

def Node.Reachable (n : Node) : Prop := Reach nodeStep (fun _ _ => True) Node.init n

theorem Node.Reachable.step {n n' : Node} (a : NodeAction) (h : n.Reachable)
    (hs : nodeStep n a = some n') : n'.Reachable :=
  Reach.tail a h trivial hs

theorem Node.Reachable.upsertAll {reqs : List CfgPutReq} {clocks : ℕ → ℕ → ℤ} {n : Node}
    (h : n.Reachable) : (upsertAll reqs clocks n).2.Reachable := by
  induction reqs generalizing clocks n with
  | nil => exact h
  | cons req reqs ih =>
      rw [Back.upsertAll]
      have hput : (upsertValue n req (clocks 0)).2.Reachable := h.step (.put req (clocks 0)) rfl
      split
      · rename_i mid heq
        rw [heq] at hput
        exact ih hput
      · rename_i heq
        rw [heq] at hput
        exact hput

theorem Node.Reachable.announceAddrs {now : ℤ} {addrs : List String} {clocks : ℕ → ℕ → ℤ}
    {n : Node} (h : n.Reachable) : (announceAddrs now addrs clocks n).2.Reachable :=
  h.upsertAll

theorem Node.Reachable.configInit {values : InitValues} {clocks : ℕ → ℕ → ℤ} {n : Node}
    (h : n.Reachable) : (configInit values clocks n.sql).2.Reachable :=
  (h.step .restart rfl).upsertAll

theorem CfgOk.pruneExpired {sql : Sql} (hsql : CfgOk sql) (nowMicros limit : ℤ) :
    CfgOk (sql.pruneExpired nowMicros limit).1 :=
  fun e he => hsql e (Sql.mem_deleteEntries_entries.mp he).1

theorem Node.Reachable.cfgOk {n : Node} (h : n.Reachable) : CfgOk n.sql := by
  refine Reach.invariant (I := fun n => CfgOk n.sql) ?_ ?_ h
  · intro e he
    exact absurd he List.not_mem_nil
  · intro n a n' hn _ hs
    cases a with
    | put req clock =>
        cases hs
        exact hn.upsertValue rfl
    | prune nowMicros =>
        cases hs
        exact hn.pruneExpired nowMicros pruneBatch
    | restart =>
        cases hs
        exact hn

end VmIo.Back
