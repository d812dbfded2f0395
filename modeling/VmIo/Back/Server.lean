import VmIo.Db.Store

/-!
The config server: config values as entries of one class of the database.

The shared timestamp counter lives in memory and starts at zero with every
process. The functions here run alone on the database. A put may read the clock
more than once, so it takes the sequence of readings it is going to get.
-/

namespace VmIo.Back

open VmIo.Lib VmIo.Db

def cfgClass : String := "cfg"

def cfgApiKeyPrefix : String := "cfg-api-key~"

def cfgAddrPrefix : String := "cfg-addr~"

/-- 120 seconds. -/
def cfgAddrTtl : ℤ := 120000000

def cfgValueMax : ℕ := 4096

def cfgKeyMax : ℕ := 1024

def configTombstone : String := "\x1f[[::TOMBSTONE::]]\x04"

structure CfgGetItem where
  key : String
  value : String
  modifiedAtMicros : ℤ
  expiresAtMicros : Option ℤ
  deriving DecidableEq, Repr

structure CfgPutReq where
  key : String
  value : String
  expiresAtMicros : Option ℤ
  modifiedAtMicros : Option ℤ
  deriving DecidableEq, Repr

/-- `prev + 1` on an `i64`, which wraps around. -/
def i64Succ (n : ℤ) : ℤ := if n = i64Max then -i64Max - 1 else n + 1

/-- The timestamp after `prev`, given a clock reading. -/
def nextMicros (now prev : ℤ) : ℤ := if now ≤ prev then i64Succ prev else now

/-- What a process works on: the database and its timestamp counter. -/
structure Node where
  sql : Sql
  counter : ℤ

def Node.init : Node := ⟨Sql.empty, 0⟩

def checkValue (key value : String) : Except IoError Unit :=
  if cfgKeyMax < key.utf8ByteSize then
    .error (.invalidInput "config key cannot be > 1024 bytes")
  else if cfgValueMax < (utf8 value).length then
    .error (.invalidInput "config value cannot be > 4096 bytes")
  else .ok ()

def cfgRow (key value : String) (expires : Option ℤ) (modified : ℤ) : EntryRow :=
  ⟨cfgClass, key, modified, expires, some (utf8 value)⟩

/-- The attempts left of a put with a server-assigned timestamp. -/
def upsertFresh (row : ℤ → EntryRow) :
    ℕ → (ℕ → ℤ) → Option IoError → Node → Except IoError Unit × Node
  | 0, _, lastErr, n =>
      (.error (lastErr.getD (.other "failed to allocate a unique timestamp")), n)
  | k + 1, clock, _, n =>
      let modified := nextMicros (clock 0) n.counter
      match upsert n.sql (row modified) with
      | .ok (sql, _) => (.ok (), ⟨sql, modified⟩)
      | .error e => upsertFresh row k (fun i => clock (i + 1)) (some e) ⟨n.sql, modified⟩

def upsertValue (n : Node) (req : CfgPutReq) (clock : ℕ → ℤ) : Except IoError Unit × Node :=
  match checkValue req.key req.value with
  | .error e => (.error e, n)
  | .ok () =>
      match req.modifiedAtMicros with
      | some modified =>
          let counter := max n.counter modified
          match upsert n.sql (cfgRow req.key req.value req.expiresAtMicros modified) with
          | .ok (sql, _) => (.ok (), ⟨sql, counter⟩)
          | .error e => (.error e, ⟨n.sql, counter⟩)
      | none => upsertFresh (cfgRow req.key req.value req.expiresAtMicros) 64 clock none n

def upsertAll : List CfgPutReq → (ℕ → ℕ → ℤ) → Node → Except IoError Unit × Node
  | [], _, n => (.ok (), n)
  | req :: reqs, clocks, n =>
      match upsertValue n req (clocks 0) with
      | (.ok (), n) => upsertAll reqs (fun i => clocks (i + 1)) n
      | (.error e, n) => (.error e, n)

def announceAddrs (now : ℤ) (addrs : List String) (clocks : ℕ → ℕ → ℤ) (n : Node) :
    Except IoError Unit × Node :=
  let expires := min (now + cfgAddrTtl) i64Max
  upsertAll (addrs.map fun addr => ⟨cfgAddrPrefix ++ addr, "", some expires, none⟩) clocks n

/-- The `init` json object, in the key order of a `BTreeMap`. -/
structure InitValues where
  items : List (String × String)
  sorted : items.Pairwise (fun a b => byteOrder a.1 < byteOrder b.1)

def InitValues.reqs (values : InitValues) : List CfgPutReq :=
  values.items.map fun kv => ⟨kv.1, kv.2, none, none⟩

/-- Initialize or overwrite the config database, in a process of its own. -/
def configInit (values : InitValues) (clocks : ℕ → ℕ → ℤ) (sql : Sql) :
    Except IoError Unit × Node :=
  upsertAll values.reqs clocks ⟨sql, 0⟩

def toItem (entry : VmIoDbEntry) : Except IoError CfgGetItem :=
  match entry.metadata with
  | none => .ok ⟨entry.key, "", entry.modifiedAtMicros, entry.expiresAtMicros⟩
  | some metadata =>
      match fromUtf8? metadata with
      | some value => .ok ⟨entry.key, value, entry.modifiedAtMicros, entry.expiresAtMicros⟩
      | none => .error (.other "config value is not valid utf-8")

def readAll (sql : Sql) : Except IoError (List CfgGetItem) :=
  (sql.list cfgClass .all .keyAsc i64Max).mapM toItem

/-- The put a `CfgRm` command sends: the tombstone marker, expiring 30 days from
now unless told otherwise. -/
def cfgRm (now : ℤ) (key : String) (expires modified : Option ℤ) : CfgPutReq :=
  ⟨key, configTombstone, some (expires.getD (now + 1000 * 1000 * 60 * 60 * 24 * 30)), modified⟩

/-! ### The rows the server writes -/

/-- What the server writes: a config entry within the limits, with a text. -/
structure CfgRow (e : EntryRow) : Prop where
  cls : e.cls = cfgClass
  key : e.key.utf8ByteSize ≤ cfgKeyMax
  value : ∃ v, e.metadata = some (utf8 v) ∧ (utf8 v).length ≤ cfgValueMax

def CfgOk (sql : Sql) : Prop := ∀ e ∈ sql.entries.rows, CfgRow e

theorem checkValue_ok_iff {key value : String} :
    checkValue key value = .ok () ↔
      key.utf8ByteSize ≤ cfgKeyMax ∧ (utf8 value).length ≤ cfgValueMax := by
  unfold checkValue
  split
  · simp only [reduceCtorEq, false_iff, not_and]
    omega
  · split
    · simp only [reduceCtorEq, false_iff, not_and]
      omega
    · simp only [true_iff]
      omega

theorem cfgRow_ok {key value : String} (h : checkValue key value = .ok ())
    (expires : Option ℤ) (modified : ℤ) : CfgRow (cfgRow key value expires modified) where
  cls := rfl
  key := (checkValue_ok_iff.mp h).1
  value := ⟨value, rfl, (checkValue_ok_iff.mp h).2⟩

theorem CfgRow.checkEntry {e : EntryRow} (h : CfgRow e) : checkEntry e = .ok () := by
  obtain ⟨v, hv, hlen⟩ := h.value
  have hcls : e.cls.utf8ByteSize ≤ 256 := by
    rw [h.cls]
    decide
  have hkey : e.key.utf8ByteSize ≤ 1024 := h.key
  have hlen : (utf8 v).length ≤ 4096 := hlen
  unfold Db.checkEntry
  rw [if_neg (by omega), if_neg (by omega), if_neg]
  rintro ⟨m, hm, hlt⟩
  rw [hv, Option.mem_some] at hm
  subst hm
  omega

theorem CfgRow.upsert {e : EntryRow} (h : CfgRow e) (sql : Sql) :
    upsert sql e =
      match sql.upsert e with
      | .ok res => .ok res
      | .error err => .error (.sql err) := by
  cases hres : sql.upsert e with
  | ok res => simp only [Db.upsert, h.checkEntry, hres]
  | error err => simp only [Db.upsert, h.checkEntry, hres]

theorem of_upsert_ok {sql sql' : Sql} {row : EntryRow} {applied : Bool}
    (h : upsert sql row = .ok (sql', applied)) : sql.upsert row = .ok (sql', applied) := by
  unfold Db.upsert at h
  split at h
  · contradiction
  · split at h
    · rename_i heq
      rw [heq]
      exact congrArg _ (Except.ok.inj h)
    · contradiction

theorem mem_of_upsert {sql sql' : Sql} {row e : EntryRow} {applied : Bool}
    (h : sql.upsert row = .ok (sql', applied)) (he : e ∈ sql'.entries.rows) :
    e = row ∨ e ∈ sql.entries.rows := by
  rcases Sql.upsert_cases h with ⟨_, _, heq⟩ | ⟨_, heq⟩ | ⟨_, _, heq⟩
  · cases heq
    rcases Table.mem_put.mp he with rfl | ⟨he, _⟩
    · exact .inl rfl
    · exact .inr he
  · cases heq
    exact .inr he
  · contradiction

theorem CfgOk.upsert {sql sql' : Sql} {row : EntryRow} {applied : Bool} (hsql : CfgOk sql)
    (hrow : CfgRow row) (h : sql.upsert row = .ok (sql', applied)) : CfgOk sql' := by
  intro e he
  rcases mem_of_upsert h he with rfl | he
  · exact hrow
  · exact hsql e he

/-! ### What a put does -/

theorem nextMicros_eq_max {now prev : ℤ} (h : prev < i64Max) :
    nextMicros now prev = max now (prev + 1) := by
  unfold nextMicros i64Succ
  rw [if_neg h.ne]
  split <;> omega

/-- The timestamp the attempt `i` of a put allocates, if it comes to that. -/
def stamp (counter : ℤ) (clock : ℕ → ℤ) : ℕ → ℤ
  | 0 => nextMicros (clock 0) counter
  | i + 1 => nextMicros (clock (i + 1)) (stamp counter clock i)

theorem stamp_shift (counter : ℤ) (clock : ℕ → ℤ) (i : ℕ) :
    stamp (stamp counter clock 0) (fun i => clock (i + 1)) i = stamp counter clock (i + 1) := by
  induction i with
  | zero => rfl
  | succ i ih =>
      change nextMicros (clock (i + 2)) (stamp (stamp counter clock 0) _ i) =
        nextMicros (clock (i + 2)) (stamp counter clock (i + 1))
      rw [ih]

/-- A put with a server-assigned timestamp ends with the first attempt that does
not fail, and the attempts before it change nothing but the counter. -/
theorem upsertFresh_cases {row : ℤ → EntryRow} {k : ℕ} {clock : ℕ → ℤ}
    {lastErr : Option IoError} {n n' : Node} {res : Except IoError Unit}
    (h : upsertFresh row k clock lastErr n = (res, n')) :
    (∃ i < k, ∃ applied, res = .ok () ∧
      upsert n.sql (row (stamp n.counter clock i)) = .ok (n'.sql, applied) ∧
      n'.counter = stamp n.counter clock i ∧
      ∀ j < i, ∃ e, upsert n.sql (row (stamp n.counter clock j)) = .error e) ∨
    (∃ e, res = .error e) ∧ n'.sql = n.sql := by
  induction k generalizing clock lastErr n with
  | zero =>
      cases h
      exact .inr ⟨⟨_, rfl⟩, rfl⟩
  | succ k ih =>
      rw [upsertFresh] at h
      cases hup : upsert n.sql (row (nextMicros (clock 0) n.counter)) with
      | ok out =>
          obtain ⟨sql, applied⟩ := out
          simp only [hup] at h
          cases h
          exact .inl ⟨0, Nat.succ_pos k, applied, rfl, hup, rfl, by omega⟩
      | error e =>
          simp only [hup] at h
          rcases ih h with ⟨i, hi, applied, hres, hok, hcounter, hfailed⟩ | hnone
          · rw [show nextMicros (clock 0) n.counter = stamp n.counter clock 0 from rfl] at *
            rw [stamp_shift] at hok hcounter
            refine .inl ⟨i + 1, by omega, applied, hres, hok, hcounter, fun j hj => ?_⟩
            cases j with
            | zero => exact ⟨e, hup⟩
            | succ j =>
                rw [← stamp_shift]
                exact hfailed j (by omega)
          · exact .inr hnone

/-- What a put leaves in the database: nothing new, or what one upsert of its row
leaves. -/
theorem upsertValue_cases {n n' : Node} {req : CfgPutReq} {clock : ℕ → ℤ}
    {res : Except IoError Unit} (h : upsertValue n req clock = (res, n')) :
    n'.sql = n.sql ∨ ∃ modified applied,
      CfgRow (cfgRow req.key req.value req.expiresAtMicros modified) ∧
      n.sql.upsert (cfgRow req.key req.value req.expiresAtMicros modified) =
        .ok (n'.sql, applied) := by
  unfold upsertValue at h
  split at h
  · cases h
    exact .inl rfl
  · rename_i hcheck
    split at h
    · split at h
      · rename_i hup
        cases h
        exact .inr ⟨_, _, cfgRow_ok hcheck _ _, of_upsert_ok hup⟩
      · cases h
        exact .inl rfl
    · rcases upsertFresh_cases h with ⟨i, _, applied, _, hup, _⟩ | ⟨_, hsame⟩
      · exact .inr ⟨_, applied, cfgRow_ok hcheck _ _, of_upsert_ok hup⟩
      · exact .inl hsame

/-- The row the attempt `i` of a put writes, if it comes to that. -/
def attemptRow (n : Node) (req : CfgPutReq) (clock : ℕ → ℤ) (i : ℕ) : EntryRow :=
  cfgRow req.key req.value req.expiresAtMicros (stamp n.counter clock i)

/-- A successful put with a server-assigned timestamp: each attempt before the
last met its timestamp under another key. -/
theorem upsertValue_assigned {n n' : Node} {req : CfgPutReq} {clock : ℕ → ℤ}
    (hnone : req.modifiedAtMicros = none) (h : upsertValue n req clock = (.ok (), n')) :
    ∃ i < 64, ∃ applied, n.sql.upsert (attemptRow n req clock i) = .ok (n'.sql, applied) ∧
      n'.counter = stamp n.counter clock i ∧
      ∀ j < i, n.sql.ModifiedTaken (attemptRow n req clock j) ∧
        n.sql.Newer (attemptRow n req clock j) := by
  unfold upsertValue at h
  split at h
  · cases h
  · rename_i hcheck
    rw [hnone] at h
    simp only at h
    rcases upsertFresh_cases h with ⟨i, hi, applied, _, hup, hcounter, hfailed⟩ | ⟨⟨e, he⟩, _⟩
    · have hsql : ∀ j, upsert n.sql (attemptRow n req clock j) =
          match n.sql.upsert (attemptRow n req clock j) with
          | .ok res => .ok res
          | .error err => .error (.sql err) := fun j => (cfgRow_ok hcheck _ _).upsert n.sql
      refine ⟨i, hi, applied, of_upsert_ok hup, hcounter, fun j hj => ?_⟩
      obtain ⟨e, he⟩ := hfailed j hj
      have hlast := (hsql j).symm.trans he
      rcases Sql.upsert_cases (rfl : n.sql.upsert (attemptRow n req clock j) = _) with
        ⟨_, _, heq⟩ | ⟨_, heq⟩ | ⟨htaken, hnew, _⟩
      · rw [heq] at hlast
        cases hlast
      · rw [heq] at hlast
        cases hlast
      · exact ⟨htaken, hnew⟩
    · cases he

/-- A successful put has offered its row to the database, with the timestamp it
was given or the one it left in the counter. -/
theorem upsertValue_accepted {n n' : Node} {req : CfgPutReq} {clock : ℕ → ℤ}
    (h : upsertValue n req clock = (.ok (), n')) :
    ∃ applied, n.sql.upsert (cfgRow req.key req.value req.expiresAtMicros
      (req.modifiedAtMicros.getD n'.counter)) = .ok (n'.sql, applied) := by
  cases hmod : req.modifiedAtMicros with
  | none =>
      obtain ⟨i, _, applied, hup, hcounter, _⟩ := upsertValue_assigned hmod h
      rw [Option.getD_none, hcounter]
      exact ⟨applied, hup⟩
  | some modified =>
      unfold upsertValue at h
      simp only [hmod] at h
      split at h
      · cases h
      · split at h
        · rename_i hup
          cases h
          exact ⟨_, of_upsert_ok hup⟩
        · cases h

theorem upsertValue_error {n n' : Node} {req : CfgPutReq} {clock : ℕ → ℤ} {e : IoError}
    (h : upsertValue n req clock = (.error e, n')) : n'.sql = n.sql := by
  unfold upsertValue at h
  split at h
  · cases h
    rfl
  · split at h
    · split at h
      · cases h
      · cases h
        rfl
    · rcases upsertFresh_cases h with ⟨_, _, _, hok, _⟩ | ⟨_, hsame⟩
      · cases hok
      · exact hsame

theorem CfgOk.upsertValue {n n' : Node} {req : CfgPutReq} {clock : ℕ → ℤ}
    {res : Except IoError Unit} (hsql : CfgOk n.sql) (h : upsertValue n req clock = (res, n')) :
    CfgOk n'.sql := by
  rcases upsertValue_cases h with hsame | ⟨modified, applied, hrow, hup⟩
  · rw [hsame]
    exact hsql
  · exact hsql.upsert hrow hup

theorem CfgOk.upsertAll {reqs : List CfgPutReq} {clocks : ℕ → ℕ → ℤ} {n n' : Node}
    {res : Except IoError Unit} (hsql : CfgOk n.sql) (h : upsertAll reqs clocks n = (res, n')) :
    CfgOk n'.sql := by
  induction reqs generalizing clocks n with
  | nil =>
      cases h
      exact hsql
  | cons req reqs ih =>
      rw [Back.upsertAll] at h
      split at h
      · rename_i mid hput
        exact ih (hsql.upsertValue hput) h
      · rename_i hput
        cases h
        exact hsql.upsertValue hput

/-! ### Reading everything back -/

def EntryRow.item (e : EntryRow) : CfgGetItem :=
  ⟨e.key, (e.metadata.bind fromUtf8?).getD "", e.modifiedAtMicros, e.expiresAtMicros⟩

theorem toItem_toEntry {sql : Sql} {e : EntryRow} (h : CfgRow e) :
    toItem (sql.toEntry e) = .ok (EntryRow.item e) := by
  obtain ⟨v, hv, _⟩ := h.value
  simp [toItem, Sql.toEntry, EntryRow.item, hv, fromUtf8?_utf8]

theorem mapM_toItem {sql : Sql} {l : List EntryRow} (h : ∀ e ∈ l, CfgRow e) :
    (l.map sql.toEntry).mapM toItem = .ok (l.map EntryRow.item) := by
  induction l with
  | nil => rfl
  | cons e l ih =>
      rw [List.map_cons, List.mapM_cons, toItem_toEntry (h e (by simp)),
        ih fun x hx => h x (by simp [hx])]
      rfl

def sortedRows (sql : Sql) : List EntryRow :=
  (sql.entries.rows.filter (fun e => e.cls = cfgClass && VmIoDbListFilter.all.accepts e)).insertionSort
    VmIoDbListSort.keyAsc.le

theorem mem_sortedRows {sql : Sql} {e : EntryRow} :
    e ∈ sortedRows sql ↔ e ∈ sql.entries.rows ∧ e.cls = cfgClass := by
  simp [sortedRows, List.mem_insertionSort, VmIoDbListFilter.accepts]

theorem readAll_take {sql : Sql} (hsql : CfgOk sql) :
    readAll sql = .ok (((sortedRows sql).take i64Max.toNat).map EntryRow.item) := by
  have hlist : sql.list cfgClass .all .keyAsc i64Max =
      ((sortedRows sql).take i64Max.toNat).map sql.toEntry := by
    rw [Sql.list, Sql.sqlLimit, if_neg (by decide), sortedRows]
  rw [readAll, hlist]
  exact mapM_toItem fun e he => hsql e (mem_sortedRows.mp (List.mem_of_mem_take he)).1

/-- A database with no more rows than a listing returns. -/
def Fits (sql : Sql) : Prop := (sql.entries.rows.length : ℤ) ≤ i64Max

theorem readAll_eq {sql : Sql} (hsql : CfgOk sql) (hfits : Fits sql) :
    readAll sql = .ok ((sortedRows sql).map EntryRow.item) := by
  have hlen : (sortedRows sql).length ≤ sql.entries.rows.length := by
    rw [sortedRows, List.length_insertionSort]
    exact List.length_filter_le _ _
  have hmax : (i64Max.toNat : ℤ) = i64Max := by decide
  rw [readAll_take hsql, List.take_of_length_le]
  unfold Fits at hfits
  omega

theorem sortedRows_pairwise (sql : Sql) :
    (sortedRows sql).Pairwise (fun a b => byteOrder a.key < byteOrder b.key) := by
  have : Std.Total VmIoDbListSort.keyAsc.le := ⟨fun a b => le_total (keyOrder a) (keyOrder b)⟩
  have : IsTrans EntryRow VmIoDbListSort.keyAsc.le :=
    ⟨fun a b c hab hbc => le_trans (a := keyOrder a) hab hbc⟩
  have hle : (sortedRows sql).Pairwise VmIoDbListSort.keyAsc.le := List.pairwise_insertionSort _ _
  have hne : (sortedRows sql).Pairwise (fun a b => a.pk ≠ b.pk) := by
    rw [sortedRows, (List.perm_insertionSort _ _).pairwise_iff fun h => Ne.symm h]
    exact (List.pairwise_map.mp sql.entries.nodup).sublist List.filter_sublist
  have hmem : ∀ e ∈ sortedRows sql, e.cls = cfgClass := fun e he => (mem_sortedRows.mp he).2
  refine (hle.and hne).imp_of_mem ?_
  rintro a b ha hb ⟨hab, hpk⟩
  have hcls : a.cls = b.cls := (hmem a ha).trans (hmem b hb).symm
  have hkey : byteOrder a.key ≤ byteOrder b.key := by
    have hab : keyOrder a ≤ keyOrder b := hab
    rw [keyOrder, keyOrder, hcls, Prod.Lex.toLex_le_toLex] at hab
    rcases hab with hlt | ⟨_, hle⟩
    · exact absurd hlt (lt_irrefl _)
    · exact hle
  refine lt_of_le_of_ne hkey fun heq => hpk ?_
  rw [EntryRow.pk, EntryRow.pk, hcls, byteOrder_injective heq]

/-! ### Entries as `read_all` returns them -/

def CfgGetItem.row (item : CfgGetItem) : EntryRow :=
  cfgRow item.key item.value item.expiresAtMicros item.modifiedAtMicros

@[simp] theorem item_row (item : CfgGetItem) : EntryRow.item item.row = item := by
  simp [EntryRow.item, CfgGetItem.row, cfgRow, fromUtf8?_utf8]

theorem CfgRow.row_item {e : EntryRow} (h : CfgRow e) : (EntryRow.item e).row = e := by
  obtain ⟨v, hv, _⟩ := h.value
  have hcls := h.cls
  cases e
  simp_all [EntryRow.item, CfgGetItem.row, cfgRow, fromUtf8?_utf8]

theorem row_injective : Function.Injective CfgGetItem.row :=
  Function.LeftInverse.injective item_row

theorem CfgRow.checkValue {e : EntryRow} (h : CfgRow e) :
    checkValue (EntryRow.item e).key (EntryRow.item e).value = .ok () := by
  obtain ⟨v, hv, hlen⟩ := h.value
  rw [checkValue_ok_iff]
  exact ⟨h.key, by simpa [EntryRow.item, hv, fromUtf8?_utf8] using hlen⟩

def KeyLt (a b : CfgGetItem) : Prop := byteOrder a.key < byteOrder b.key

instance : Std.Irrefl KeyLt := ⟨fun _ => lt_irrefl _⟩

instance : Std.Antisymm KeyLt := ⟨fun _ _ hab hba => absurd (lt_trans hab hba) (lt_irrefl _)⟩

def items (sql : Sql) : List CfgGetItem := (sortedRows sql).map EntryRow.item

theorem items_pairwise (sql : Sql) : (items sql).Pairwise KeyLt :=
  List.pairwise_map.mpr (sortedRows_pairwise sql)

theorem CfgOk.mem_items {sql : Sql} (hsql : CfgOk sql) {item : CfgGetItem} :
    item ∈ items sql ↔ item.row ∈ sql.entries.rows := by
  simp only [items, List.mem_map, mem_sortedRows]
  constructor
  · rintro ⟨e, ⟨he, _⟩, rfl⟩
    rw [(hsql e he).row_item]
    exact he
  · intro hmem
    exact ⟨item.row, ⟨hmem, rfl⟩, item_row item⟩

def itemAt (sql : Sql) (key : String) : Option CfgGetItem :=
  (sql.entries.find? (cfgClass, key)).map EntryRow.item

theorem CfgOk.mem_itemAt {sql : Sql} (hsql : CfgOk sql) {key : String} {item : CfgGetItem} :
    item ∈ itemAt sql key ↔ item.row ∈ sql.entries.rows ∧ item.key = key := by
  simp only [itemAt, Option.mem_def, Option.map_eq_some_iff, Table.find?_eq_some_iff]
  constructor
  · rintro ⟨e, ⟨he, hpk⟩, rfl⟩
    rw [(hsql e he).row_item]
    exact ⟨he, (Prod.mk.inj hpk).2⟩
  · rintro ⟨hmem, rfl⟩
    exact ⟨item.row, ⟨hmem, rfl⟩, item_row item⟩

theorem itemAt_putEntry {sql : Sql} {row : EntryRow} (h : ¬sql.ModifiedTaken row)
    (hcls : row.cls = cfgClass) (key : String) :
    itemAt (sql.putEntry row h) key =
      if row.key = key then some (EntryRow.item row) else itemAt sql key := by
  have hpk : row.pk = (cfgClass, key) ↔ row.key = key := by
    simp [EntryRow.pk, hcls]
  rw [itemAt, Sql.putEntry_entries, Table.find?_put]
  by_cases hkey : row.key = key
  · rw [if_pos (hpk.mpr hkey), if_pos hkey, Option.map_some]
  · rw [if_neg fun heq => hkey (hpk.mp heq), if_neg hkey, itemAt]

theorem itemAt_upsert {sql sql' : Sql} {row : EntryRow} {applied : Bool}
    (h : sql.upsert row = .ok (sql', applied)) (hcls : row.cls = cfgClass) (key : String) :
    itemAt sql' key =
      if applied ∧ row.key = key then some (EntryRow.item row) else itemAt sql key := by
  rcases Sql.upsert_cases h with ⟨hfree, _, heq⟩ | ⟨_, heq⟩ | ⟨_, _, heq⟩
  · cases heq
    rw [itemAt_putEntry hfree hcls]
    simp
  · cases heq
    simp
  · cases heq

theorem applied_iff {sql sql' : Sql} {row : EntryRow} {applied : Bool}
    (h : sql.upsert row = .ok (sql', applied)) :
    (applied ↔ sql.Newer row) ∧ (applied → ¬sql.ModifiedTaken row) := by
  rcases Sql.upsert_cases h with ⟨hfree, hnew, heq⟩ | ⟨hold, heq⟩ | ⟨_, _, heq⟩
  · cases heq
    exact ⟨iff_of_true rfl hnew, fun _ => hfree⟩
  · cases heq
    exact ⟨iff_of_false Bool.false_ne_true hold, fun h => absurd h Bool.false_ne_true⟩
  · cases heq

theorem itemAt_upsertValue {n n' : Node} {req : CfgPutReq} {clock : ℕ → ℤ}
    {res : Except IoError Unit} (h : upsertValue n req clock = (res, n')) {key : String}
    (hkey : req.key ≠ key) : itemAt n'.sql key = itemAt n.sql key := by
  rcases upsertValue_cases h with hsame | ⟨modified, applied, hrow, hup⟩
  · rw [hsame]
  · rw [itemAt_upsert hup hrow.cls key]
    exact if_neg fun hand => hkey hand.2

end VmIo.Back
