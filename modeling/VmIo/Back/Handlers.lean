import VmIo.Back.Auth
import VmIo.Chan.Cfg
import VmIo.Db.Paging

/-!
The config server behind its channel: the two handlers and the callback, as the table of
a channel server.

On the wire a string is shorter than 2^64 bytes and a timestamp is an `i64`. So is every
one the server stores (`Stored`), and what a client reads is what is stored.
-/

namespace VmIo.Back

open VmIo.Lib VmIo.Db VmIo.Chan

/-! ### The wire's view of the records -/

/-- A string of the machine. None is longer. -/
def text (s : String) : Text := if h : s.utf8ByteSize < 2 ^ 64 then ⟨s, h⟩ else ⟨"", by decide⟩

/-- A list of the machine. None is longer. -/
def seq {α : Type} (l : List α) : Seq α :=
  ⟨l.take (2 ^ 64 - 1), by
    rw [List.length_take]
    omega⟩

def CfgGetItem.wire (item : CfgGetItem) : Types.CfgGetItem where
  key := text item.key
  value := text item.value
  modifiedAtMicros := Int64.ofInt item.modifiedAtMicros
  expiresAtMicros := item.expiresAtMicros.map Int64.ofInt

def CfgGetItem.ofWire (item : Types.CfgGetItem) : CfgGetItem where
  key := item.key.1
  value := item.value.1
  modifiedAtMicros := item.modifiedAtMicros.toInt
  expiresAtMicros := item.expiresAtMicros.map Int64.toInt

def CfgPutReq.ofWire (req : Types.CfgPutReq) : CfgPutReq where
  key := req.key.1
  value := req.value.1
  expiresAtMicros := req.expiresAtMicros.map Int64.toInt
  modifiedAtMicros := req.modifiedAtMicros.map Int64.toInt

structure CfgGetItem.InRange (item : CfgGetItem) : Prop where
  key : item.key.utf8ByteSize < 2 ^ 64
  value : item.value.utf8ByteSize < 2 ^ 64
  modified : InI64 item.modifiedAtMicros
  expires : ∀ t ∈ item.expiresAtMicros, InI64 t

theorem inI64_toInt (t : Int64) : InI64 t.toInt := by
  have hlow := t.le_toInt
  have hhigh := t.toInt_lt
  unfold InI64 i64Max
  omega

theorem toInt_ofInt {t : ℤ} (h : InI64 t) : (Int64.ofInt t).toInt = t := by
  unfold InI64 i64Max at h
  exact Int64.toInt_ofInt_of_le (by omega) (by omega)

theorem text_val {s : String} (h : s.utf8ByteSize < 2 ^ 64) : (text s).1 = s := by
  rw [text, dif_pos h]

theorem CfgGetItem.ofWire_wire {item : CfgGetItem} (h : item.InRange) : ofWire item.wire = item := by
  have hexpires : (item.expiresAtMicros.map Int64.ofInt).map Int64.toInt = item.expiresAtMicros := by
    cases hexp : item.expiresAtMicros with
    | none => rfl
    | some t => simp [toInt_ofInt (h.expires t hexp)]
  simp only [ofWire, wire, text_val h.key, text_val h.value, toInt_ofInt h.modified, hexpires]

/-! ### The handlers -/

/-- What other crates supply: the texts of the errors of sqlite and of the file system, and the
decoder of the payloads. -/
structure Texts where
  io : IoError → String
  io_other : ∀ msg, io (.other msg) = msg
  io_invalidInput : ∀ msg, io (.invalidInput msg) = msg
  decoder : Types.Decoder
  canonicalReason : StatusCode → Option String

def readAllWith (sql : Sql) : Choice → Except IoError (List CfgGetItem)
  | .ok => readAll sql
  | _ => .error (.sql .failed)

section Handlers

variable (texts : Texts)

def cfgGetRes (res : Except IoError (List CfgGetItem)) : Types.CfgGetRes :=
  match res with
  | .ok values => .ok (seq (values.map CfgGetItem.wire))
  | .error err => .error (text (texts.io err))

def cfgGetHandler (c : Choice) : Handler Node := fun _req n =>
  (.ok (Types.encode (cfgGetRes texts (readAllWith n.sql c))), n)

def cfgPutHandler (clock : ℕ → ℤ) : Handler Node := fun req n =>
  match texts.decoder.put req with
  | .error e => (.error e, n)
  | .ok input =>
      match upsertValue n (CfgPutReq.ofWire input) clock with
      | (.ok (), n) => (.ok [], n)
      | (.error e, n) => (.error (texts.io e), n)

def backHandlers (clock : ℕ → ℤ) : List (String × Handler Node) :=
  [(cfgGetReq, cfgGetHandler texts .ok), (cfgPutReq, cfgPutHandler texts clock)]

def backAuthCb : AuthCb Node := fun auth n => ((makeAuthCb .ok auth n.sql).1, n)

/-- The server of `back_srv`, as it meets one request while no statement fails. -/
def backSrv (clock : ℕ → ℤ) : Except String (SrvInner Node) :=
  (newHandlers (backHandlers texts clock)).map fun handlers => ⟨backAuthCb, handlers⟩

theorem backSrv_ok (clock : ℕ → ℤ) : ∃ handlers, backSrv texts clock = .ok ⟨backAuthCb, handlers⟩ ∧
    handlers healthReq = some health ∧ handlers cfgGetReq = some (cfgGetHandler texts .ok) ∧
    handlers cfgPutReq = some (cfgPutHandler texts clock) := by
  have hne : cfgGetReq ≠ healthReq ∧ cfgPutReq ≠ healthReq ∧ cfgPutReq ≠ cfgGetReq := by decide
  have htable : ∃ handlers, newHandlers (backHandlers texts clock) = .ok handlers := by
    simp [newHandlers, backHandlers, insertHandlers, hne]
  obtain ⟨handlers, htable⟩ := htable
  refine ⟨handlers, by rw [backSrv, htable, Except.map], ?_, ?_, ?_⟩
  · exact (newHandlers_eq_some htable).mpr (by simp)
  · exact (newHandlers_eq_some htable).mpr (by simp [backHandlers])
  · exact (newHandlers_eq_some htable).mpr (by simp [backHandlers])

end Handlers

/-! ### What the server stores is within the range of the wire -/

/-- A row the server has written, with the numbers it can have. -/
structure StoredRow (e : EntryRow) : Prop extends CfgRow e where
  modified : InI64 e.modifiedAtMicros
  expires : ∀ t ∈ e.expiresAtMicros, InI64 t

def Stored (sql : Sql) : Prop := ∀ e ∈ sql.entries.rows, StoredRow e

theorem Stored.cfgOk {sql : Sql} (h : Stored sql) : CfgOk sql := fun e he => (h e he).toCfgRow

theorem StoredRow.inRange {e : EntryRow} (h : StoredRow e) : (EntryRow.item e).InRange := by
  obtain ⟨v, hv, hlen⟩ := h.value
  have hkey := h.key
  unfold cfgKeyMax at hkey
  unfold cfgValueMax at hlen
  refine ⟨?_, ?_, h.modified, h.expires⟩
  · show e.key.utf8ByteSize < 2 ^ 64
    omega
  · have hvalue : (EntryRow.item e).value = v := by
      simp [EntryRow.item, hv, fromUtf8?_utf8]
    rw [hvalue, ← utf8_length]
    omega

theorem Stored.inRange {sql : Sql} (h : Stored sql) {values : List CfgGetItem}
    (hread : readAll sql = .ok values) : ∀ item ∈ values, item.InRange := by
  rw [readAll_take h.cfgOk] at hread
  cases hread
  intro item hitem
  obtain ⟨e, he, rfl⟩ := List.mem_map.mp hitem
  exact (h e (mem_sortedRows.mp (List.mem_of_mem_take he)).1).inRange

theorem readAll_length {sql : Sql} (h : CfgOk sql) {values : List CfgGetItem}
    (hread : readAll sql = .ok values) : values.length < 2 ^ 64 := by
  rw [readAll_take h] at hread
  cases hread
  rw [List.length_map, List.length_take]
  have hmax : i64Max.toNat = 9223372036854775807 := by decide
  omega

theorem ofWire_cfgGetRes {sql : Sql} (h : Stored sql) {values : List CfgGetItem}
    (hread : readAll sql = .ok values) :
    (seq (values.map CfgGetItem.wire)).1.map CfgGetItem.ofWire = values := by
  have hlen := readAll_length h.cfgOk hread
  have hall : values.map (CfgGetItem.ofWire ∘ CfgGetItem.wire) = values := by
    refine (List.map_congr_left fun item hitem => ?_).trans (List.map_id _)
    exact CfgGetItem.ofWire_wire (h.inRange hread item hitem)
  have hseq : (seq (values.map CfgGetItem.wire)).1 = values.map CfgGetItem.wire :=
    List.take_of_length_le (by
      rw [List.length_map]
      omega)
  rw [hseq, List.map_map, hall]

theorem nextMicros_inI64 {now prev : ℤ} (hnow : InI64 now) (hprev : InI64 prev) :
    InI64 (nextMicros now prev) := by
  unfold nextMicros i64Succ
  unfold InI64 i64Max at *
  split_ifs <;> omega

/-- The numbers of a request are those of the wire. -/
structure CfgPutReq.InRange (req : CfgPutReq) : Prop where
  expires : ∀ t ∈ req.expiresAtMicros, InI64 t
  modified : ∀ t ∈ req.modifiedAtMicros, InI64 t

theorem CfgPutReq.ofWire_inRange (input : Types.CfgPutReq) : (CfgPutReq.ofWire input).InRange := by
  constructor
  · intro t ht
    obtain ⟨i, _, rfl⟩ := Option.map_eq_some_iff.mp ht
    exact inI64_toInt i
  · intro t ht
    obtain ⟨i, _, rfl⟩ := Option.map_eq_some_iff.mp ht
    exact inI64_toInt i

structure Node.Sound (n : Node) : Prop where
  stored : Stored n.sql
  counter : InI64 n.counter

theorem upsertFresh_counter {row : ℤ → EntryRow} {k : ℕ} {clock : ℕ → ℤ}
    {lastErr : Option IoError} {n : Node} (hn : InI64 n.counter) (hclock : ∀ i, InI64 (clock i)) :
    InI64 (upsertFresh row k clock lastErr n).2.counter := by
  induction k generalizing clock lastErr n with
  | zero => exact hn
  | succ k ih =>
      rw [upsertFresh]
      have hnext := nextMicros_inI64 (hclock 0) hn
      split
      · exact hnext
      · exact ih hnext fun i => hclock (i + 1)

theorem upsertValue_counter {n : Node} {req : CfgPutReq} {clock : ℕ → ℤ} (hn : InI64 n.counter)
    (hreq : req.InRange) (hclock : ∀ i, InI64 (clock i)) :
    InI64 (upsertValue n req clock).2.counter := by
  unfold upsertValue
  split
  · exact hn
  · split
    · rename_i modified hmod
      have hmodified := hreq.modified modified hmod
      have hmax : InI64 (max n.counter modified) := by
        unfold InI64 at *
        omega
      simp only
      split
      · exact hmax
      · exact hmax
    · exact upsertFresh_counter hn hclock

theorem Stored.upsert {sql sql' : Sql} {row : EntryRow} {applied : Bool} (hsql : Stored sql)
    (hrow : StoredRow row) (h : sql.upsert row = .ok (sql', applied)) : Stored sql' := by
  intro e he
  rcases mem_of_upsert h he with rfl | he
  · exact hrow
  · exact hsql e he

theorem checkValue_of_ok {n n' : Node} {req : CfgPutReq} {clock : ℕ → ℤ}
    (h : Back.upsertValue n req clock = (.ok (), n')) : checkValue req.key req.value = .ok () := by
  unfold Back.upsertValue at h
  split at h
  · cases h
  · rename_i hcheck
    exact hcheck

theorem StoredRow.of_req {req : CfgPutReq} {modified : ℤ}
    (hcheck : checkValue req.key req.value = .ok ()) (hreq : req.InRange)
    (hmodified : InI64 modified) :
    StoredRow (cfgRow req.key req.value req.expiresAtMicros modified) :=
  ⟨cfgRow_ok hcheck _ _, hmodified, hreq.expires⟩

theorem Node.Sound.upsertValue {n : Node} {req : CfgPutReq} {clock : ℕ → ℤ} (hn : n.Sound)
    (hreq : req.InRange) (hclock : ∀ i, InI64 (clock i)) : (upsertValue n req clock).2.Sound := by
  have hcounter := upsertValue_counter hn.counter hreq hclock
  refine ⟨?_, hcounter⟩
  cases hput : Back.upsertValue n req clock with
  | mk res n' =>
      cases res with
      | error e =>
          rw [upsertValue_error hput]
          exact hn.stored
      | ok u =>
          obtain ⟨applied, hup⟩ := upsertValue_accepted hput
          rw [hput] at hcounter
          have hmodified : InI64 (req.modifiedAtMicros.getD n'.counter) := by
            cases hmod : req.modifiedAtMicros with
            | none => exact hcounter
            | some modified => exact hreq.modified modified hmod
          exact hn.stored.upsert (.of_req (checkValue_of_ok hput) hreq hmodified) hup

theorem Stored.pruneExpired {sql : Sql} (hsql : Stored sql) (nowMicros limit : ℤ) :
    Stored (sql.pruneExpired nowMicros limit).1 :=
  fun e he => hsql e (Sql.mem_deleteEntries_entries.mp he).1

/-- The texts of a server whose other crates say little. -/
def someTexts : Texts where
  io
    | .other msg => msg
    | .invalidInput msg => msg
    | _ => "error"
  io_other _ := rfl
  io_invalidInput _ := rfl
  decoder := Types.Bincode.standard.decoder fun _ => "decode error"
  canonicalReason status := if status = .unauthorized then some "Unauthorized" else none

def testNode : Node := (upsertValue Node.init ⟨"cfg-api-key~test", "", none, none⟩ fun _ => 1000).2

theorem testNode_sound : testNode.Sound := by
  have hinit : Node.init.Sound := ⟨fun e he => absurd he List.not_mem_nil, by decide⟩
  exact hinit.upsertValue ⟨by simp, by simp⟩ fun _ => by decide

def testRequest (name : String) (body : Bytes) : Request :=
  ⟨"POST", "/" ++ name, [("authorization", utf8 "Bearer test")], [body], false⟩

def putBody : Types.CfgPutReq := ⟨⟨"k", by decide⟩, ⟨"v", by decide⟩, none, none⟩

def putReq : Request := testRequest "cfg-put" (Types.encode putBody)

def getReq : Request := testRequest "cfg-get" []

end VmIo.Back
