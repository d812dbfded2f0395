import VmIo.Back.Handlers
import VmIo.Cli.Client

/-!
The command line client on the config server.

Between a command and the database lie two requests, the wire format, the routing, the
callback and a handler. `direct` says what the command is for: with a known api key it does
its one operation on the database, and without one it does nothing. Whole histories of
commands, prunes and restarts agree with it (`visits_direct`).
-/

namespace VmIo.Cli

open VmIo.Lib hiding Node
open VmIo.Db VmIo.Chan VmIo.Back

/-! ### What a command is for -/

def Known (sql : Sql) (apiKey : String) : Prop :=
  trim apiKey ≠ "" ∧ (itemAt sql (cfgApiKeyPrefix ++ trim apiKey)).isSome

instance (sql : Sql) (apiKey : String) : Decidable (Known sql apiKey) :=
  inferInstanceAs (Decidable (_ ∧ _))

def printed (showTombstones : Bool) (values : List CfgGetItem) : List (Text × Shown) :=
  (values.filter fun item => showTombstones || item.value ≠ configTombstone).map
    fun item => (item.wire.key, shown item.wire)

section Direct

variable (texts : Texts) (clock : ℕ → ℤ)

def directPut (input : Types.CfgPutReq) (n : Node) : Except String Output × Node :=
  if (Types.encode input).length ≤ maxBody then
    match upsertValue n (CfgPutReq.ofWire input) clock with
    | (.ok (), n) => (.ok .nothing, n)
    | (.error e, n) => (.error ("request failed: 500 " ++ texts.io e), n)
  else (.error "request failed: 413 payload exceeds maximum size limit", n)

/-- The command, done to the database itself. -/
def direct (apiKey : String) (now : Int64) (cmd : Cmd) (n : Node) : Except String Output × Node :=
  if Known n.sql apiKey then
    match cmd with
    | .health => (.ok .nothing, n)
    | .cfgGet showTombstones =>
        match readAll n.sql with
        | .ok values => (.ok (.config (printed showTombstones values)), n)
        | .error e => (.error (texts.io e), n)
    | .cfgPut key value expiresAtMicros modifiedAtMicros =>
        directPut texts clock ⟨key, value, expiresAtMicros, modifiedAtMicros⟩ n
    | .cfgRm key expiresAtMicros modifiedAtMicros =>
        directPut texts clock ⟨key, tombstone, some (rmExpires now expiresAtMicros),
          modifiedAtMicros⟩ n
  else
    (.error ("request failed: 401 " ++ (texts.canonicalReason .unauthorized).getD ""), n)

def through (wire : Wire) (apiKey : String) (now : Int64) (cmd : Cmd) (n : Node) :
    Except String Output × Node :=
  match backSrv texts clock with
  | .error e => (.error e, n)
  | .ok inner => clientRun texts.decoder texts.canonicalReason inner wire apiKey now cmd n

end Direct

/-! ### The api key -/

theorem authToken_bearer_any (apiKey : String) : authToken ("Bearer " ++ apiKey) = trim apiKey := by
  have hpre : ("Bearer " ++ apiKey).toList.dropPrefix? "Bearer ".toList = some apiKey.toList := by
    rw [String.toList_append]
    exact List.dropPrefix?_eq_some_iff.mpr ⟨_, rfl, rfl⟩
  rw [authToken, hpre, Option.getD_some, String.ofList_toList]

theorem known_iff {sql : Sql} {apiKey : String} : Known sql apiKey ↔
    trim apiKey ≠ "" ∧ (sql.get cfgClass (cfgApiKeyPrefix ++ trim apiKey)).isSome := by
  rw [Known, Sql.get, itemAt, Option.isSome_map, Option.isSome_map]

theorem backAuthCb_bearer (handlers : String → Option (Handler Node)) (apiKey : String) (n : Node) :
    (SrvInner.mk backAuthCb handlers).authCb (ChanCli.mk ("Bearer " ++ apiKey)).authHeader n =
      (.ok (if Known n.sql apiKey then .ok else .unauthorized), n) := by
  have hcb : (makeAuthCb .ok ("Bearer " ++ apiKey) n.sql).1 =
      .ok (if Known n.sql apiKey then .ok else .unauthorized) := by
    simp only [known_iff, makeAuthCb, authToken_bearer_any]
    by_cases hempty : trim apiKey = ""
    · simp [hempty]
    · cases hres : n.sql.get cfgClass (cfgApiKeyPrefix ++ trim apiKey) with
      | none => simp [hempty, dbGet, hres]
      | some entry => simp [hempty, dbGet, hres]
  exact congrArg (·, n) hcb

/-! ### One command -/

section Command

variable {texts : Texts} {clock : ℕ → ℤ} {wire : Wire} {apiKey : String} {n : Node}
  {handlers : String → Option (Handler Node)}

abbrev Sendable (apiKey : String) : Prop := Carried (ChanCli.mk ("Bearer " ++ apiKey)).authHeader

theorem refused {name : String} {body : Bytes} (hname : Url.Plain name.toList)
    (hkey : Sendable apiKey) (hknown : ¬Known n.sql apiKey) :
    (ChanCli.mk ("Bearer " ++ apiKey)).call texts.canonicalReason ⟨backAuthCb, handlers⟩ wire name
        body n =
      (.error ("request failed: 401 " ++ (texts.canonicalReason .unauthorized).getD ""), n) := by
  have hcb := backAuthCb_bearer handlers apiKey n
  rw [if_neg hknown] at hcb
  have htext : "request failed: " ++ toString StatusCode.unauthorized.code ++ " " =
      "request failed: 401 " := by decide +kernel
  rw [ChanCli.call_refused hname hkey hcb (by decide), requestResult_respText _ (by decide), htext]

theorem answered {name : String} {body : Bytes} {handler : Handler Node}
    (hname : Url.Plain name.toList) (hkey : Sendable apiKey) (hknown : Known n.sql apiKey)
    (hhandler : handlers name = some handler) :
    (ChanCli.mk ("Bearer " ++ apiKey)).call texts.canonicalReason ⟨backAuthCb, handlers⟩ wire name
        body n =
      if body.length ≤ maxBody then handlerResult handler body n
      else (.error "request failed: 413 payload exceeds maximum size limit", n) := by
  have hcb := backAuthCb_bearer handlers apiKey n
  rw [if_pos hknown] at hcb
  exact ChanCli.call_answered hname hkey hcb hhandler

theorem connect_refused (hkey : Sendable apiKey) (hknown : ¬Known n.sql apiKey) :
    (ChanCli.mk ("Bearer " ++ apiKey)).connect texts.canonicalReason ⟨backAuthCb, handlers⟩ wire n =
      (.error ("request failed: 401 " ++ (texts.canonicalReason .unauthorized).getD ""), n) := by
  rw [ChanCli.connect, refused (by decide) hkey hknown]

theorem health_answered (hkey : Sendable apiKey) (hknown : Known n.sql apiKey)
    (hhealth : handlers healthReq = some Chan.health) :
    (ChanCli.mk ("Bearer " ++ apiKey)).call texts.canonicalReason ⟨backAuthCb, handlers⟩ wire
        healthReq [] n = (.ok [], n) := by
  have hlen : ([] : Bytes).length ≤ maxBody := Nat.zero_le _
  rw [answered (by decide) hkey hknown hhealth, if_pos hlen]
  rfl

theorem connect_answered (hkey : Sendable apiKey) (hknown : Known n.sql apiKey)
    (hhealth : handlers healthReq = some Chan.health) :
    (ChanCli.mk ("Bearer " ++ apiKey)).connect texts.canonicalReason ⟨backAuthCb, handlers⟩ wire n =
      (.ok (ChanCli.mk ("Bearer " ++ apiKey)), n) := by
  rw [ChanCli.connect, health_answered hkey hknown hhealth]

/-- Without a known key a command changes nothing and says so. -/
theorem clientRun_refused (hkey : Sendable apiKey) (hknown : ¬Known n.sql apiKey) (now : Int64)
    (cmd : Cmd) :
    clientRun texts.decoder texts.canonicalReason ⟨backAuthCb, handlers⟩ wire apiKey now cmd n =
      (.error ("request failed: 401 " ++ (texts.canonicalReason .unauthorized).getD ""), n) := by
  cases cmd with
  | health =>
      simp only [clientRun, health, connect_refused hkey hknown]
      rfl
  | cfgGet showTombstones => simp only [clientRun, cfgGet, connect_refused hkey hknown]
  | cfgPut key value expiresAtMicros modifiedAtMicros =>
      simp only [clientRun, cfgPut, connect_refused hkey hknown]
      rfl
  | cfgRm key expiresAtMicros modifiedAtMicros =>
      simp only [clientRun, cfgPut, connect_refused hkey hknown]
      rfl

theorem cfgGet_answered (hkey : Sendable apiKey) (hknown : Known n.sql apiKey)
    (hhealth : handlers healthReq = some Chan.health)
    (hget : handlers cfgGetReq = some (cfgGetHandler texts .ok)) :
    cfgGet texts.decoder texts.canonicalReason ⟨backAuthCb, handlers⟩ wire apiKey n =
      (.ok (cfgGetRes texts (readAll n.sql)), n) := by
  have hlen : ([] : Bytes).length ≤ maxBody := Nat.zero_le _
  have hget' : (ChanCli.mk ("Bearer " ++ apiKey)).call texts.canonicalReason
      ⟨backAuthCb, handlers⟩ wire cfgGetReq [] n = _ := answered (by decide) hkey hknown hget
  simp only [cfgGet, connect_answered hkey hknown hhealth, ChanCli.cfgGet, hget', if_pos hlen,
    handlerResult, cfgGetHandler, readAllWith, texts.decoder.get_encode]

theorem cfgPut_answered (hkey : Sendable apiKey) (hknown : Known n.sql apiKey)
    (hhealth : handlers healthReq = some Chan.health)
    (hput : handlers cfgPutReq = some (cfgPutHandler texts clock)) (key value : Text)
    (expiresAtMicros modifiedAtMicros : Option Int64) :
    Prod.map (Except.map fun _ => Output.nothing) id
        (cfgPut texts.canonicalReason ⟨backAuthCb, handlers⟩ wire apiKey key value
          expiresAtMicros modifiedAtMicros n) =
      directPut texts clock ⟨key, value, expiresAtMicros, modifiedAtMicros⟩ n := by
  have hput' : (ChanCli.mk ("Bearer " ++ apiKey)).call texts.canonicalReason
      ⟨backAuthCb, handlers⟩ wire cfgPutReq
      (Types.encode (Types.CfgPutReq.mk key value expiresAtMicros modifiedAtMicros)) n = _ :=
    answered (by decide) hkey hknown hput
  by_cases hlen : (Types.encode (Types.CfgPutReq.mk key value expiresAtMicros
      modifiedAtMicros)).length ≤ maxBody
  · rw [if_pos hlen] at hput'
    simp only [cfgPut, connect_answered hkey hknown hhealth, ChanCli.cfgPut, hput', handlerResult,
      cfgPutHandler, texts.decoder.put_encode, directPut, if_pos hlen]
    cases hres : upsertValue n (CfgPutReq.ofWire ⟨key, value, expiresAtMicros, modifiedAtMicros⟩)
        clock with
    | mk res n' =>
        cases res with
        | ok u => rfl
        | error e => rfl
  · rw [if_neg hlen] at hput'
    simp only [cfgPut, connect_answered hkey hknown hhealth, ChanCli.cfgPut, hput', directPut,
      if_neg hlen]
    rfl

theorem tombstone_iff {item : CfgGetItem} (h : item.InRange) :
    item.wire.value = tombstone ↔ item.value = configTombstone := by
  rw [← Subtype.coe_inj]
  show (text item.value).1 = configTombstone ↔ _
  rw [text_val h.value]

theorem dump_cfgGetRes (hn : Stored n.sql) {values : List CfgGetItem}
    (hread : readAll n.sql = .ok values) (showTombstones : Bool) :
    dump showTombstones (seq (values.map CfgGetItem.wire)).1 = printed showTombstones values := by
  have hlen := readAll_length hn.cfgOk hread
  have hrange := hn.inRange hread
  have hseq : (seq (values.map CfgGetItem.wire)).1 = values.map CfgGetItem.wire :=
    List.take_of_length_le (by
      rw [List.length_map]
      omega)
  have hsorted : values.Pairwise KeyLt := by
    rw [readAll_take hn.cfgOk] at hread
    cases hread
    exact List.pairwise_map.mpr ((sortedRows_pairwise n.sql).sublist (List.take_sublist _ _))
  have hkeys : (values.map CfgGetItem.wire).Pairwise
      (fun a b => byteOrder a.key.1 < byteOrder b.key.1) := by
    refine List.pairwise_map.mpr (hsorted.imp_of_mem fun {a b} ha hb hlt => ?_)
    show byteOrder (text a.key).1 < byteOrder (text b.key).1
    rw [text_val (hrange a ha).key, text_val (hrange b hb).key]
    exact hlt
  have hsame : ∀ item ∈ values, (showTombstones || item.wire.value ≠ tombstone) =
      (showTombstones || item.value ≠ configTombstone) := by
    intro item hitem
    rw [decide_eq_decide.mpr (not_congr (tombstone_iff (hrange item hitem)))]
  rw [hseq, dump_sorted hkeys, List.filter_map, List.map_map, printed]
  congr 1
  exact List.filter_congr hsame

/-- A command through the channel does what it does to the database itself. -/
theorem through_eq (hn : Stored n.sql) (hkey : Sendable apiKey) (now : Int64) (cmd : Cmd) :
    through texts clock wire apiKey now cmd n = direct texts clock apiKey now cmd n := by
  obtain ⟨handlers, hsrv, hhealth, hget, hput⟩ := backSrv_ok texts clock
  simp only [through, hsrv, direct]
  by_cases hknown : Known n.sql apiKey
  · rw [if_pos hknown]
    cases cmd with
    | health =>
        simp only [clientRun, health, connect_answered hkey hknown hhealth,
          health_answered hkey hknown hhealth]
        rfl
    | cfgGet showTombstones =>
        obtain ⟨values, hread⟩ : ∃ values, readAll n.sql = .ok values := ⟨_, readAll_take hn.cfgOk⟩
        simp only [clientRun, cfgGet_answered hkey hknown hhealth hget, hread, cfgGetRes,
          dump_cfgGetRes hn hread]
    | cfgPut key value expiresAtMicros modifiedAtMicros =>
        exact cfgPut_answered hkey hknown hhealth hput _ _ _ _
    | cfgRm key expiresAtMicros modifiedAtMicros =>
        exact cfgPut_answered hkey hknown hhealth hput _ _ _ _
  · rw [if_neg hknown]
    exact clientRun_refused hkey hknown now cmd

end Command

/-! ### Histories of commands -/

/-- What happens to a server, one thing after another. -/
inductive Visit
  /-- a command, with the client's reading of the time and the server's -/
  | command (apiKey : String) (cmd : Cmd) (now : Int64) (clock : ℕ → ℤ) (wire : Wire)
  | prune (nowMicros : ℤ)
  | restart

/-- The header of a command is carried as it is, and the server's clock reads `i64` values. -/
def Visit.Valid : Visit → Prop
  | .command apiKey _ _ clock _ => Sendable apiKey ∧ ∀ i, InI64 (clock i)
  | .prune _ => True
  | .restart => True

/-- The answers of a history and what it leaves, given how a command is done. -/
def visits (exec : String → Cmd → Int64 → (ℕ → ℤ) → Wire → Node → Except String Output × Node) :
    List Visit → Node → List (Except String Output) × Node
  | [], n => ([], n)
  | .command apiKey cmd now clock wire :: vs, n =>
      let (output, n) := exec apiKey cmd now clock wire n
      let (outputs, n) := visits exec vs n
      (output :: outputs, n)
  | .prune nowMicros :: vs, n =>
      visits exec vs { n with sql := (n.sql.pruneExpired nowMicros pruneBatch).1 }
  | .restart :: vs, n => visits exec vs { n with counter := 0 }

theorem sound_direct (texts : Texts) {clock : ℕ → ℤ} {apiKey : String} {n : Node} (hn : n.Sound)
    (hclock : ∀ i, InI64 (clock i)) (now : Int64) (cmd : Cmd) :
    (direct texts clock apiKey now cmd n).2.Sound := by
  have hput : ∀ input, (directPut texts clock input n).2.Sound := by
    intro input
    have hvalue := hn.upsertValue (CfgPutReq.ofWire_inRange input) hclock
    unfold directPut
    split
    · split
      · rename_i heq
        rw [heq] at hvalue
        exact hvalue
      · rename_i heq
        rw [heq] at hvalue
        exact hvalue
    · exact hn
  unfold direct
  split
  · cases cmd with
    | health => exact hn
    | cfgGet showTombstones =>
        simp only
        split
        · exact hn
        · exact hn
    | cfgPut key value expiresAtMicros modifiedAtMicros => exact hput _
    | cfgRm key expiresAtMicros modifiedAtMicros => exact hput _
  · exact hn

/-- Histories of commands give the same answers and leave the same node through the channel
as they do when each command is done to the database itself. -/
theorem visits_direct (texts : Texts) {vs : List Visit} (hvs : ∀ v ∈ vs, v.Valid) {n : Node}
    (hn : n.Sound) :
    visits (fun apiKey cmd now clock wire => through texts clock wire apiKey now cmd) vs n =
      visits (fun apiKey cmd now clock _ => direct texts clock apiKey now cmd) vs n := by
  induction vs generalizing n with
  | nil => rfl
  | cons v vs ih =>
      have hrest : ∀ v ∈ vs, v.Valid := fun v hv => hvs v (List.mem_cons_of_mem _ hv)
      have hv := hvs v List.mem_cons_self
      cases v with
      | command apiKey cmd now clock wire =>
          obtain ⟨hkey, hclock⟩ := hv
          simp only [visits, through_eq hn.stored hkey,
            ih hrest (sound_direct texts hn hclock now cmd)]
      | prune nowMicros => exact ih hrest ⟨hn.stored.pruneExpired nowMicros pruneBatch, hn.counter⟩
      | restart =>
          have hzero : InI64 0 := by decide
          exact ih hrest ⟨hn.stored, hzero⟩

/-- A value is written and removed across a restart. Someone without a key gets nowhere, and
what is printed is the key alone. -/
theorem visits_direct_restart :
    (visits (fun apiKey cmd now clock wire => through someTexts clock wire apiKey now cmd)
      [.command "test" (.cfgPut ⟨"k", by decide⟩ ⟨"v", by decide⟩ none none) 0 (fun _ => 2000) .direct,
        .restart,
        .command "rest" .health 0 (fun _ => 2500) .direct,
        .command "test" (.cfgRm ⟨"k", by decide⟩ none none) 0 (fun _ => 3000) .direct,
        .command "test" (.cfgGet false) 0 (fun _ => 4000) .direct] testNode).1 =
      [.ok .nothing, .error "request failed: 401 Unauthorized", .ok .nothing,
        .ok (.config [(⟨"cfg-api-key~test", by decide⟩, ⟨⟨"", by decide⟩, 1000, none⟩)])] := by
  have hsend : Sendable "test" ∧ Sendable "rest" := by decide +kernel
  rw [visits_direct someTexts ?_ testNode_sound]
  · decide +kernel
  · simp [Visit.Valid, hsend, InI64, i64Max]

end VmIo.Cli
