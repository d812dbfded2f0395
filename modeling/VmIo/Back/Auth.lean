import VmIo.Back.Node
import VmIo.Chan.Server

/-!
The authorization callback and revoked api keys.

The callback asks whether the database holds an entry for the key, and never
what it holds. So a tombstone does not revoke a key. The prune that removes the
expired tombstone does.
-/

namespace VmIo.Back

open VmIo.Lib VmIo.Db VmIo.Chan

/-- `char::is_whitespace`, the Unicode property White_Space. -/
def isWhitespace (c : Char) : Bool :=
  let n := c.toNat
  (9 ≤ n && n ≤ 13) || n = 32 || n = 133 || n = 160 || n = 5760 || (8192 ≤ n && n ≤ 8202) ||
    n = 8232 || n = 8233 || n = 8239 || n = 8287 || n = 12288

def trimList (l : List Char) : List Char :=
  ((l.dropWhile isWhitespace).reverse.dropWhile isWhitespace).reverse

def trim (s : String) : String := String.ofList (trimList s.toList)

def authToken (auth : String) : String :=
  trim (String.ofList ((auth.toList.dropPrefix? "Bearer ".toList).getD auth.toList))

/-- `VmIoDb::get` -/
def dbGet (sql : Sql) (cls key : String) : Choice → Except IoError (Option VmIoDbEntry)
  | .ok => .ok (sql.get cls key)
  | _ => .error (.sql .failed)

/-- The callback of `make_auth_cb`, with the answer of the database. -/
def makeAuthCb (c : Choice) : AuthCb Sql := fun auth sql =>
  let token := authToken auth
  if token = "" then (.ok .unauthorized, sql)
  else
    match dbGet sql cfgClass (cfgApiKeyPrefix ++ token) c with
    | .ok (some _) => (.ok .ok, sql)
    | .ok none => (.ok .unauthorized, sql)
    | .error _ => (.ok .internalServerError, sql)

/-- Every Authorization value with this token is rejected. -/
def Rejects (sql : Sql) (token : String) : Prop :=
  ∀ c auth, authToken auth = token → (makeAuthCb c auth sql).1 ≠ .ok .ok

theorem authToken_bearer {token : String} (htrim : trim token = token) :
    authToken ("Bearer " ++ token) = token := by
  have hpre : ("Bearer " ++ token).toList.dropPrefix? "Bearer ".toList = some token.toList := by
    rw [String.toList_append]
    exact List.dropPrefix?_eq_some_iff.mpr ⟨_, rfl, rfl⟩
  rw [authToken, hpre, Option.getD_some, String.ofList_toList, htrim]

theorem rejects_iff {sql : Sql} {token : String} (hne : token ≠ "") (htrim : trim token = token) :
    Rejects sql token ↔ itemAt sql (cfgApiKeyPrefix ++ token) = none := by
  have hget : sql.get cfgClass (cfgApiKeyPrefix ++ token) = none ↔
      itemAt sql (cfgApiKeyPrefix ++ token) = none := by
    rw [Sql.get, itemAt, Option.map_eq_none_iff, Option.map_eq_none_iff]
  rw [← hget]
  constructor
  · intro hrej
    have hok := hrej .ok _ (authToken_bearer htrim)
    cases hres : sql.get cfgClass (cfgApiKeyPrefix ++ token) with
    | none => rfl
    | some e =>
        refine absurd ?_ hok
        simp only [makeAuthCb, authToken_bearer htrim, if_neg hne, dbGet, hres]
  · rintro hnone c auth rfl
    have hcode : StatusCode.unauthorized ≠ StatusCode.ok ∧
        StatusCode.internalServerError ≠ StatusCode.ok := by decide
    unfold makeAuthCb
    simp only [if_neg hne]
    cases c with
    | ok =>
        simp only [dbGet, hnone]
        exact fun h => hcode.1 (Except.ok.inj h)
    | fail => exact fun h => hcode.2 (Except.ok.inj h)
    | portion k => exact fun h => hcode.2 (Except.ok.inj h)
    | listing names => exact fun h => hcode.2 (Except.ok.inj h)

/-! ### The writes and removals of a run -/

inductive CfgEvent
  /-- a put returned success, having offered this row -/
  | accepted (row : EntryRow)
  /-- a prune removed the entries of these keys -/
  | pruned (keys : List (String × String))
  deriving DecidableEq

/-- The latest event first. A put with a server-assigned timestamp leaves it in
the counter. -/
def recordEvent (n : Node) (a : NodeAction) (n' : Node) (log : List CfgEvent) : List CfgEvent :=
  match a with
  | .put req clock =>
      if (upsertValue n req clock).1 = .ok () then
        .accepted (cfgRow req.key req.value req.expiresAtMicros
          (req.modifiedAtMicros.getD n'.counter)) :: log
      else log
  | .prune nowMicros => .pruned (n.sql.expiredBatch nowMicros pruneBatch) :: log
  | .restart => log

/-- The newest accepted write to the key is a tombstone. -/
def Revoked (log : List CfgEvent) (key : String) : Prop :=
  ∃ row, .accepted row ∈ log ∧ row.key = key ∧ row.metadata = some (utf8 configTombstone) ∧
    ∀ other, .accepted other ∈ log → other.key = key → other.modifiedAtMicros ≤ row.modifiedAtMicros

/-- A prune has removed the key, and no write to it has been accepted since. -/
def PrunedSince (log : List CfgEvent) (key : String) : Prop :=
  ∃ later keys earlier, log = later ++ .pruned keys :: earlier ∧ (cfgClass, key) ∈ keys ∧
    ∀ row, .accepted row ∈ later → row.key ≠ key

def NeverWritten (log : List CfgEvent) (key : String) : Prop :=
  ∀ row, .accepted row ∈ log → row.key ≠ key

theorem not_prunedSince_accepted {log : List CfgEvent} {row : EntryRow} :
    ¬PrunedSince (.accepted row :: log) row.key := by
  rintro ⟨later, keys, earlier, heq, _, hlater⟩
  cases later with
  | nil => cases heq
  | cons event later =>
      cases heq
      exact hlater row List.mem_cons_self rfl

theorem prunedSince_cons_accepted {log : List CfgEvent} {row : EntryRow} {key : String}
    (hne : row.key ≠ key) : PrunedSince (.accepted row :: log) key ↔ PrunedSince log key := by
  constructor
  · rintro ⟨later, keys, earlier, heq, hmem, hlater⟩
    cases later with
    | nil => cases heq
    | cons event later =>
        cases heq
        exact ⟨later, keys, earlier, rfl, hmem, fun r hr => hlater r (List.mem_cons_of_mem _ hr)⟩
  · rintro ⟨later, keys, earlier, rfl, hmem, hlater⟩
    refine ⟨.accepted row :: later, keys, earlier, rfl, hmem, fun r hr => ?_⟩
    rcases List.mem_cons.mp hr with heq | hr
    · cases heq
      exact hne
    · exact hlater r hr

theorem prunedSince_cons_pruned {log : List CfgEvent} {keys : List (String × String)}
    {key : String} : PrunedSince (.pruned keys :: log) key ↔
      (cfgClass, key) ∈ keys ∨ PrunedSince log key := by
  constructor
  · rintro ⟨later, keys', earlier, heq, hmem, hlater⟩
    cases later with
    | nil =>
        cases heq
        exact .inl hmem
    | cons event later =>
        cases heq
        exact .inr ⟨later, keys', earlier, rfl, hmem,
          fun r hr => hlater r (List.mem_cons_of_mem _ hr)⟩
  · rintro (hmem | ⟨later, keys', earlier, rfl, hmem, hlater⟩)
    · exact ⟨[], keys, log, rfl, hmem, by simp⟩
    · exact ⟨.pruned keys :: later, keys', earlier, rfl, hmem, fun r hr => by
        simpa using hlater r (by simpa using hr)⟩

/-- A key has no entry if and only if it was never written or has been pruned
since. -/
def Tracked (n : Node) (log : List CfgEvent) : Prop :=
  ∀ key, itemAt n.sql key = none ↔ NeverWritten log key ∨ PrunedSince log key

theorem itemAt_accepted {n n' : Node} {req : CfgPutReq} {clock : ℕ → ℤ}
    (h : upsertValue n req clock = (.ok (), n')) : itemAt n'.sql req.key ≠ none := by
  obtain ⟨applied, hup⟩ := upsertValue_accepted h
  rw [itemAt_upsert hup rfl]
  split
  · exact Option.some_ne_none _
  · rename_i hold
    intro hnone
    have hfind : n.sql.entries.find? (cfgClass, req.key) = none := Option.map_eq_none_iff.mp hnone
    refine hold ⟨(applied_iff hup).1.mpr fun old hmem => ?_, rfl⟩
    exact absurd (hfind.symm.trans hmem) (Option.some_ne_none old).symm

theorem itemAt_prune (sql : Sql) (nowMicros : ℤ) (key : String) :
    itemAt (sql.pruneExpired nowMicros pruneBatch).1 key =
      if (cfgClass, key) ∈ sql.expiredBatch nowMicros pruneBatch then none else itemAt sql key := by
  have hentries : (sql.pruneExpired nowMicros pruneBatch).1.entries =
      sql.entries.deleteWhere (fun e => e.pk ∈ sql.expiredBatch nowMicros pruneBatch) := rfl
  rw [itemAt, hentries]
  split
  · rename_i hmem
    rw [Table.find?_deleteWhere_of_drop fun e he => by simpa [he] using hmem, Option.map_none]
  · rename_i hkeep
    rw [Table.find?_deleteWhere_of_keep fun e he => by simpa [he] using hkeep, itemAt]

theorem tracked_step {n n' : Node} {a : NodeAction} {log : List CfgEvent} (hn : Tracked n log)
    (h : nodeStep n a = some n') : Tracked n' (recordEvent n a n' log) := by
  intro key
  cases a with
  | put req clock =>
      have hput : upsertValue n req clock = ((upsertValue n req clock).1, n') := by
        cases h
        rfl
      rw [recordEvent]
      split
      · rename_i hok
        rw [hok] at hput
        by_cases hkey : req.key = key
        · subst hkey
          -- the key holds something now, and the write is the latest event
          refine iff_of_false (itemAt_accepted hput) ?_
          rintro (hnever | hpruned)
          · exact hnever _ List.mem_cons_self rfl
          · exact not_prunedSince_accepted hpruned
        · rw [itemAt_upsertValue hput hkey, hn key, prunedSince_cons_accepted hkey]
          refine or_congr_left ⟨fun hnever row hrow => ?_, fun hnever row hrow =>
            hnever row (List.mem_cons_of_mem _ hrow)⟩
          rcases List.mem_cons.mp hrow with heq | hrow
          · cases heq
            exact hkey
          · exact hnever row hrow
      · rename_i hne
        cases hres : (upsertValue n req clock).1 with
        | ok u => exact absurd hres hne
        | error e =>
            rw [hres] at hput
            rw [itemAt, upsertValue_error hput]
            exact hn key
  | prune nowMicros =>
      cases h
      have hnever : NeverWritten (.pruned (n.sql.expiredBatch nowMicros pruneBatch) :: log) key ↔
          NeverWritten log key := by
        simp [NeverWritten]
      simp only [recordEvent]
      rw [itemAt_prune, hnever, prunedSince_cons_pruned]
      split
      · rename_i hmem
        exact iff_of_true rfl (.inr (.inl hmem))
      · rename_i hkeep
        rw [hn key, or_iff_right hkeep]
  | restart =>
      cases h
      exact hn key

theorem tracked {n : Node} {log : List CfgEvent}
    (h : Reach (observe nodeStep recordEvent) (fun _ _ => True) (Node.init, []) (n, log)) :
    Tracked n log := by
  refine Reach.invariant (I := fun p => Tracked p.1 p.2) ?_ ?_ h
  · intro key
    exact iff_of_true rfl (.inl fun row hrow => absurd hrow List.not_mem_nil)
  · rintro ⟨n, log⟩ a ⟨n', log'⟩ hn _ hs
    obtain ⟨hstep, hlog⟩ := observe_eq_some_iff.mp hs
    have hlog : log' = recordEvent n a n' log := hlog
    rw [hlog]
    exact tracked_step hn hstep

/-- In every reachable state in which the newest accepted write to a key is a
tombstone, the callback rejects the token if and only if a prune has removed the
key and no write to it has been accepted since. -/
theorem revoked_rejects_iff {n : Node} {log : List CfgEvent}
    (h : Reach (observe nodeStep recordEvent) (fun _ _ => True) (Node.init, []) (n, log))
    {token : String} (hne : token ≠ "") (htrim : trim token = token)
    (hrevoked : Revoked log (cfgApiKeyPrefix ++ token)) :
    Rejects n.sql token ↔ PrunedSince log (cfgApiKeyPrefix ++ token) := by
  obtain ⟨row, hrow, hkey, _⟩ := hrevoked
  rw [rejects_iff hne htrim, tracked h, or_iff_right fun hnever => hnever row hrow hkey]

/-- A key, its removal, and the prune of the expired tombstone. -/
theorem revoked_rejects_iff_pruned :
    ∃ n log, Reach (observe nodeStep recordEvent) (fun _ _ => True) (Node.init, []) (n, log) ∧
      Revoked log "cfg-api-key~T" ∧ Rejects n.sql "T" := by
  obtain ⟨⟨n, log⟩, hreach, hlog⟩ := Reach.exists_of_runOk
    (observe nodeStep recordEvent) (fun _ _ => True) (Node.init, [])
    [.put ⟨"cfg-api-key~T", "", none, none⟩ (fun _ => 1),
      .put (cfgRm 2 "cfg-api-key~T" (some 30) none) (fun _ => 2), .prune 100]
    (fun p => p.2 = [.pruned [(cfgClass, "cfg-api-key~T")],
      .accepted (cfgRow "cfg-api-key~T" configTombstone (some 30) 2),
      .accepted (cfgRow "cfg-api-key~T" "" none 1)]) (by decide +kernel)
  have hlog : log = _ := hlog
  have hkey : cfgApiKeyPrefix ++ "T" = "cfg-api-key~T" := by decide +kernel
  have hrevoked : Revoked log (cfgApiKeyPrefix ++ "T") := by
    rw [hkey, hlog]
    refine ⟨cfgRow "cfg-api-key~T" configTombstone (some 30) 2, by simp, rfl, rfl, ?_⟩
    simp [cfgRow]
  have hiff := revoked_rejects_iff hreach (by decide) (by decide +kernel) hrevoked
  rw [hkey] at hrevoked hiff
  exact ⟨n, log, hreach, hrevoked, hiff.mpr ⟨[], _, _, hlog, by simp, by simp⟩⟩

/-- The same without the prune: the tombstone authorizes. -/
theorem revoked_authorizes :
    ∃ n log, Reach (observe nodeStep recordEvent) (fun _ _ => True) (Node.init, []) (n, log) ∧
      Revoked log "cfg-api-key~T" ∧ (makeAuthCb .ok "Bearer T" n.sql).1 = .ok .ok := by
  obtain ⟨⟨n, log⟩, hreach, hlog, hok⟩ := Reach.exists_of_runOk
    (observe nodeStep recordEvent) (fun _ _ => True) (Node.init, [])
    [.put ⟨"cfg-api-key~T", "", none, none⟩ (fun _ => 1),
      .put (cfgRm 2 "cfg-api-key~T" none none) (fun _ => 2)]
    (fun p => p.2 = [
      .accepted (cfgRow "cfg-api-key~T" configTombstone (some 2592000000002) 2),
      .accepted (cfgRow "cfg-api-key~T" "" none 1)] ∧
      (makeAuthCb .ok "Bearer T" p.1.sql).1 = .ok .ok) (by decide +kernel)
  have hlog : log = _ := hlog
  refine ⟨n, log, hreach, ?_, hok⟩
  subst hlog
  refine ⟨cfgRow "cfg-api-key~T" configTombstone (some 2592000000002) 2, by simp, rfl, rfl, ?_⟩
  simp [cfgRow]

end VmIo.Back
