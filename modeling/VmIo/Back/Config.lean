import VmIo.Back.Service
import VmIo.Chan.Bind
import VmIo.Lib.Base64

/-!
The encryption key of the configuration, and test mode.

The master key is given as base64. `parse_encryption_key` takes the encoding of a
key, whitespace around it aside, and nothing else. In test mode
`config_init` and `back_srv` each resolve the key from the configuration, so
`apply_test_defaults` pins the one it has drawn.
-/

namespace VmIo.Back

open VmIo.Lib VmIo.Db VmIo.Chan

/-! ### The encryption key -/

/-- Decode the base64 master key. The text of the decoder's error comes from the
decoder. -/
def parseEncryptionKey (decodeError : String → String) (key : String) : Except IoError Digest :=
  match Base64.decode (trim key).toList with
  | none =>
      .error (.invalidInput ("encryption key is not valid base64: " ++ decodeError (trim key)))
  | some bytes =>
      if h : bytes.length = 32 then .ok ⟨bytes, h⟩
      else .error (.invalidInput "encryption key must decode to exactly 32 bytes")

def encodeEncryptionKey (key : Digest) : String := String.ofList (Base64.encode key.toList)

section Trim

variable {l t : List Char}

theorem dropWhile_isWhitespace (hne : t ≠ []) (ht : ∀ c ∈ t, isWhitespace c = false)
    (pre post : List Char) (hpre : ∀ c ∈ pre, isWhitespace c = true) :
    (pre ++ t ++ post).dropWhile isWhitespace = t ++ post := by
  obtain ⟨c, rest, rfl⟩ := List.exists_cons_of_ne_nil hne
  rw [List.append_assoc, List.dropWhile_append_of_pos hpre, List.cons_append,
    List.dropWhile_cons_of_neg (by simp [ht c List.mem_cons_self])]

theorem trimList_eq_iff (hne : t ≠ []) (ht : ∀ c ∈ t, isWhitespace c = false) :
    trimList l = t ↔ ∃ pre post, (∀ c ∈ pre, isWhitespace c = true) ∧
      (∀ c ∈ post, isWhitespace c = true) ∧ l = pre ++ t ++ post := by
  constructor
  · rintro rfl
    have hall : ∀ l : List Char, ∀ c ∈ l.takeWhile isWhitespace, isWhitespace c = true :=
      fun l c hc => List.mem_takeWhile_imp hc
    refine ⟨l.takeWhile isWhitespace,
      ((l.dropWhile isWhitespace).reverse.takeWhile isWhitespace).reverse, hall l,
      fun c hc => hall _ c (List.mem_reverse.mp hc), ?_⟩
    rw [trimList, List.append_assoc, ← List.reverse_append, List.takeWhile_append_dropWhile,
      List.reverse_reverse, List.takeWhile_append_dropWhile]
  · rintro ⟨pre, post, hpre, hpost, rfl⟩
    have hback := dropWhile_isWhitespace (t := t.reverse) (by simpa using hne)
      (fun c hc => ht c (List.mem_reverse.mp hc)) post.reverse []
      (fun c hc => hpost c (List.mem_reverse.mp hc))
    rw [List.append_nil, List.append_nil] at hback
    rw [trimList, dropWhile_isWhitespace hne ht pre post hpre, List.reverse_append, hback,
      List.reverse_reverse]

end Trim

theorem isWhitespace_of_mem_encode {bs : Bytes} {c : Char} (h : c ∈ Base64.encode bs) :
    isWhitespace c = false := by
  have hsymbol : ∀ n < 64, isWhitespace (Base64.symbol n) = false := by decide
  rcases Base64.mem_encode h with rfl | ⟨n, hn, rfl⟩
  · decide
  · exact hsymbol n hn

theorem encodeEncryptionKey_ne_empty (key : Digest) : Base64.encode key.toList ≠ [] := by
  intro h
  have hlength := congrArg List.length (Base64.encode_eq_nil.mp h)
  rw [key.toList_length] at hlength
  cases hlength

theorem parse_ok_iff {decodeError : String → String} {text : String} {key : Digest} :
    parseEncryptionKey decodeError text = .ok key ↔
      trim text = encodeEncryptionKey key := by
  have htrim : trim text = encodeEncryptionKey key ↔
      Base64.decode (trim text).toList = some key.toList := by
    rw [Base64.decode_eq_some_iff, encodeEncryptionKey, ← String.toList_inj, String.toList_ofList]
  rw [htrim, parseEncryptionKey]
  split
  · rename_i hnone
    rw [hnone]
    exact iff_of_false (by simp) (by simp)
  · rename_i bytes hbytes
    rw [hbytes]
    split
    · rename_i hlength
      constructor
      · rintro ⟨⟩
        rfl
      · intro h
        cases h
        rfl
    · rename_i hlength
      refine iff_of_false (by simp) fun h => hlength ?_
      rw [Option.some.inj h, key.toList_length]

theorem parse_length_iff {decodeError : String → String} {text : String} :
    parseEncryptionKey decodeError text =
        .error (.invalidInput "encryption key must decode to exactly 32 bytes") ↔
      ∃ bytes, bytes.length ≠ 32 ∧ Base64.decode (trim text).toList = some bytes := by
  rw [parseEncryptionKey]
  split
  · rename_i hnone
    refine iff_of_false (fun h => ?_) (by simp [hnone])
    -- the two messages differ in their sixteenth character
    have htexts := congrArg (fun s : String => s.toList.take 16)
      (IoError.invalidInput.inj (Except.error.inj h))
    simp only [String.toList_append] at htexts
    rw [List.take_append_of_le_length (by decide)] at htexts
    exact absurd htexts (by decide)
  · rename_i bytes hbytes
    rw [hbytes]
    split
    · rename_i hlength
      refine iff_of_false (by simp) ?_
      rintro ⟨bytes', hne, heq⟩
      cases heq
      exact hne hlength
    · rename_i hlength
      exact iff_of_true rfl ⟨bytes, hlength, rfl⟩

/-- The texts that a key is parsed from: its encoding, with whitespace before and after. The
encodings of anything else are turned down for their length. -/
theorem parseEncryptionKey_accepts (decodeError : String → String) (text : String) :
    (∀ key, parseEncryptionKey decodeError text = .ok key ↔
      ∃ pre post, (∀ c ∈ pre, isWhitespace c = true) ∧ (∀ c ∈ post, isWhitespace c = true) ∧
        text.toList = pre ++ (encodeEncryptionKey key).toList ++ post) ∧
    (parseEncryptionKey decodeError text =
        .error (.invalidInput "encryption key must decode to exactly 32 bytes") ↔
      ∃ bytes, bytes.length ≠ 32 ∧ trim text = String.ofList (Base64.encode bytes)) := by
  refine ⟨fun key => ?_, ?_⟩
  · rw [parse_ok_iff, encodeEncryptionKey, String.toList_ofList,
      ← trimList_eq_iff (encodeEncryptionKey_ne_empty key)
        fun c hc => isWhitespace_of_mem_encode hc,
      trim, ← String.toList_inj, String.toList_ofList, String.toList_ofList]
  · rw [parse_length_iff]
    simp only [Base64.decode_eq_some_iff, ← String.toList_inj, String.toList_ofList]

/-! ### The configuration -/

/-- `serde_json`, on objects of strings. -/
structure Json where
  fromStr : String → Except String InitValues
  toStr : InitValues → String

structure Config where
  dbRootDir : String
  addr : List SocketAddr
  init : Option String
  encryptionKey : Option String

def defaultBindAddr : SocketAddr := .v4 (Vector.replicate 4 0) 22002

def testBindAddr : SocketAddr := .v4 #v[127, 0, 0, 1] 22002

def testApiKey : String := "test"

/-- `BTreeMap::insert` -/
def insertItem (key value : String) : List (String × String) → List (String × String)
  | [] => [(key, value)]
  | (key', value') :: rest =>
      if byteOrder key < byteOrder key' then (key, value) :: (key', value') :: rest
      else if key = key' then (key, value) :: rest
      else (key', value') :: insertItem key value rest

theorem mem_insertItem {key value : String} {l : List (String × String)} {kv : String × String}
    (h : kv ∈ insertItem key value l) : kv = (key, value) ∨ kv ∈ l := by
  induction l with
  | nil => exact .inl (List.mem_singleton.mp h)
  | cons kv' rest ih =>
      rw [insertItem] at h
      split_ifs at h
      · exact List.mem_cons.mp h
      · exact (List.mem_cons.mp h).imp_right (List.mem_cons_of_mem _)
      · rcases List.mem_cons.mp h with rfl | h
        · exact .inr List.mem_cons_self
        · exact (ih h).imp_right (List.mem_cons_of_mem _)

theorem insertItem_sorted {key value : String} {l : List (String × String)}
    (h : l.Pairwise fun a b => byteOrder a.1 < byteOrder b.1) :
    (insertItem key value l).Pairwise fun a b => byteOrder a.1 < byteOrder b.1 := by
  induction l with
  | nil => exact List.pairwise_singleton _ _
  | cons kv rest ih =>
      obtain ⟨hfirst, hrest⟩ := List.pairwise_cons.mp h
      rw [insertItem]
      split_ifs with hlt heq
      · refine List.pairwise_cons.mpr ⟨List.forall_mem_cons.mpr ⟨hlt, fun other hother => ?_⟩, h⟩
        exact hlt.trans (hfirst other hother)
      · subst heq
        exact List.pairwise_cons.mpr ⟨hfirst, hrest⟩
      · refine List.pairwise_cons.mpr ⟨fun other hother => ?_, ih hrest⟩
        rcases mem_insertItem hother with rfl | hother
        · exact lt_of_le_of_ne (not_lt.mp hlt) fun hsame => heq (byteOrder_injective hsame.symm)
        · exact hfirst other hother

theorem exists_insertItem_iff {key value : String} {l : List (String × String)} {k : String} :
    (∃ kv ∈ insertItem key value l, kv.1 = k) ↔ key = k ∨ ∃ kv ∈ l, kv.1 = k := by
  induction l with
  | nil => simp [insertItem]
  | cons kv rest ih =>
      rw [insertItem]
      split_ifs with hlt heq
      · simp
      · subst heq
        simp
      · simp only [List.exists_mem_cons_iff, ih]
        exact or_left_comm

def InitValues.insert (values : InitValues) (key value : String) : InitValues :=
  ⟨insertItem key value values.items, insertItem_sorted values.sorted⟩

def InitValues.empty : InitValues := ⟨[], .nil⟩

/-- The master key that the configuration names, or the one that has been drawn. -/
def Config.resolveEncryptionKey (decodeError : String → String) (random : Digest)
    (config : Config) : Except IoError Digest :=
  match config.encryptionKey with
  | some key => if key ≠ "" then parseEncryptionKey decodeError key else .ok random
  | none => .ok random

def Config.given (json : Json) (config : Config) : Except IoError InitValues :=
  match config.init with
  | some init => (json.fromStr init).mapError fun e => .invalidInput ("invalid --init json: " ++ e)
  | none => .ok InitValues.empty

def Config.applyTestDefaults (json : Json) (random : Digest) (root : String) (config : Config) :
    Except IoError Config := do
  let init ← config.given json
  let init := init.insert (cfgApiKeyPrefix ++ testApiKey) ""
  return { config with
    dbRootDir := root
    addr := if config.addr = [] then [testBindAddr] else config.addr
    init := some (json.toStr init)
    encryptionKey :=
      if config.encryptionKey.getD "" = "" then some (encodeEncryptionKey random)
      else config.encryptionKey }

/-- The key a database directory is opened with, and the tables in it. -/
structure Opened where
  key : Digest
  sql : Sql

/-- `config_init`, on a directory with these tables. -/
def Config.configInit (json : Json) (decodeError : String → String) (random : Digest)
    (clocks : ℕ → ℕ → ℤ) (sql : Sql) (config : Config) : Except IoError Opened := do
  let values ← (json.fromStr (config.init.getD "\x7b\x7d")).mapError fun e =>
    .invalidInput ("invalid --init json: " ++ e)
  let key ← config.resolveEncryptionKey decodeError random
  match Back.configInit values clocks sql with
  | (.ok (), n) => return ⟨key, n.sql⟩
  | (.error e, _) => .error e

/-- What `back_srv` opens the database with, and what its listeners are to bind. -/
structure BackSrv where
  key : Digest
  bind : List SocketAddr

def Config.backSrv (decodeError : String → String) (random : Digest)
    (ifaces : Except String (List NetworkInterface)) (config : Config) :
    Except IoError BackSrv := do
  let key ← config.resolveEncryptionKey decodeError random
  let bind := if config.addr = [] then [defaultBindAddr] else config.addr
  return ⟨key, ← (resolveBindAddrs bind ifaces).mapError .other⟩

/-- `back_run_test` up to where it serves, in a new directory. Each draw of a random key is
another one. -/
def Config.backRunTest (json : Json) (decodeError : String → String) (random : ℕ → Digest)
    (clocks : ℕ → ℕ → ℤ) (root : String) (ifaces : Except String (List NetworkInterface))
    (config : Config) : Except IoError (Opened × BackSrv) := do
  let config ← config.applyTestDefaults json (random 0) root
  let opened ← config.configInit json decodeError (random 1) clocks Sql.empty
  let srv ← { config with init := none }.backSrv decodeError (random 2) ifaces
  return (opened, srv)

/-! ### What test mode serves -/

theorem bind_eq_ok {ε α β : Type} {x : Except ε α} {f : α → Except ε β} {b : β} :
    (x >>= f) = .ok b ↔ ∃ a, x = .ok a ∧ f a = .ok b := by
  cases x with
  | error e => simp [bind, Except.bind]
  | ok a => simp [bind, Except.bind]

theorem mapError_eq_ok {ε ε' α : Type} {x : Except ε α} {f : ε → ε'} {a : α} :
    x.mapError f = .ok a ↔ x = .ok a := by
  cases x with
  | error e => simp [Except.mapError]
  | ok a => simp [Except.mapError]

theorem trim_encodeEncryptionKey (key : Digest) :
    trim (encodeEncryptionKey key) = encodeEncryptionKey key := by
  have h := (trimList_eq_iff (l := Base64.encode key.toList) (encodeEncryptionKey_ne_empty key)
    fun c hc => isWhitespace_of_mem_encode hc).mpr ⟨[], [], by simp, by simp, by simp⟩
  rw [encodeEncryptionKey, trim, String.toList_ofList, h]

theorem resolveEncryptionKey_pinned {json : Json} (decodeError : String → String)
    {random : Digest} {root : String} {config config' : Config}
    (h : config.applyTestDefaults json random root = .ok config') (other : Digest) :
    config'.resolveEncryptionKey decodeError other =
      config.resolveEncryptionKey decodeError random := by
  obtain ⟨init, _, heq⟩ := bind_eq_ok.mp h
  cases heq
  have hne : encodeEncryptionKey random ≠ "" := by
    intro heq
    refine encodeEncryptionKey_ne_empty random ?_
    rw [← String.toList_ofList (l := Base64.encode _), ← encodeEncryptionKey, heq]
    rfl
  have hparse : parseEncryptionKey decodeError (encodeEncryptionKey random) = .ok random :=
    parse_ok_iff.mpr (trim_encodeEncryptionKey random)
  cases hkey : config.encryptionKey with
  | none => simp [Config.resolveEncryptionKey, hkey, hne, hparse]
  | some key =>
      by_cases hempty : key = ""
      · simp [Config.resolveEncryptionKey, hkey, hempty, hne, hparse]
      · simp [Config.resolveEncryptionKey, hkey, hempty]

theorem itemAt_put {n n' : Node} {req : CfgPutReq} {clock : ℕ → ℤ}
    (h : upsertValue n req clock = (.ok (), n')) (key : String) :
    (itemAt n'.sql key).isSome ↔ req.key = key ∨ (itemAt n.sql key).isSome := by
  obtain ⟨applied, hup⟩ := upsertValue_accepted h
  rw [itemAt_upsert hup rfl key]
  cases applied with
  | true =>
      by_cases hkey : req.key = key
      · simp [cfgRow, hkey]
      · simp [cfgRow, hkey]
  | false =>
      have hold : ¬n.sql.Newer _ := fun hnew => Bool.false_ne_true ((applied_iff hup).1.mpr hnew)
      simp only [Sql.Newer, not_forall] at hold
      obtain ⟨old, hfind, _⟩ := hold
      rw [if_neg (by simp)]
      refine ⟨.inr, fun hor => hor.elim ?_ id⟩
      rintro rfl
      rw [itemAt, show n.sql.entries.find? (cfgClass, req.key) = some old from hfind]
      rfl

theorem itemAt_puts {reqs : List CfgPutReq} {clocks : ℕ → ℕ → ℤ} {n n' : Node}
    (h : upsertAll reqs clocks n = (.ok (), n')) (key : String) :
    (itemAt n'.sql key).isSome ↔ (∃ req ∈ reqs, req.key = key) ∨ (itemAt n.sql key).isSome := by
  induction reqs generalizing clocks n with
  | nil =>
      cases h
      simp
  | cons req reqs ih =>
      rw [upsertAll] at h
      split at h
      · rename_i mid hput
        rw [ih h, itemAt_put hput, List.exists_mem_cons_iff]
        exact or_left_comm.trans or_assoc.symm
      · cases h

theorem authorized_iff {values : InitValues} {clocks : ℕ → ℕ → ℤ} {n : Node}
    (h : configInit values clocks Sql.empty = (.ok (), n)) (auth : String) :
    (makeAuthCb .ok auth n.sql).1 = .ok .ok ↔ authToken auth ≠ "" ∧
      ∃ kv ∈ values.items, kv.1 = cfgApiKeyPrefix ++ authToken auth := by
  have hitem := itemAt_puts h (cfgApiKeyPrefix ++ authToken auth)
  have hnothing : (itemAt Sql.empty (cfgApiKeyPrefix ++ authToken auth)).isSome = false := rfl
  rw [show (⟨Sql.empty, 0⟩ : Node).sql = Sql.empty from rfl, hnothing,
    or_iff_left Bool.false_ne_true, itemAt, Option.isSome_map, InitValues.reqs] at hitem
  simp only [List.mem_map, exists_exists_and_eq_and] at hitem
  have hlets : (makeAuthCb .ok auth n.sql).1 = .ok .ok ↔
      LetsIn n.sql.entries.find? (authToken auth) := by
    by_cases hlets : LetsIn n.sql.entries.find? (authToken auth)
    · exact iff_of_true (makeAuthCb_found hlets) hlets
    · refine iff_of_false ?_ hlets
      rw [makeAuthCb_missing hlets]
      decide
  rw [hlets, LetsIn, hitem]

theorem resolveBindAddrs_concrete {bind out : List SocketAddr}
    {ifaces : Except String (List NetworkInterface)}
    (hbind : ∀ addr ∈ bind, addr.ip.isUnspecified = false)
    (h : resolveBindAddrs bind ifaces = .ok out) : out = bind := by
  rw [resolveBindAddrs, if_pos (by simpa using hbind)] at h
  exact (Except.ok.inj h).symm

/-- Test mode opens the database twice with one key, the given one or else the first drawn,
binds what the given addresses or else `testBindAddr` are resolved to, and lets in the key
`test` and the given ones. -/
theorem test_mode_serves {json : Json} {decodeError : String → String} {random : ℕ → Digest}
    {clocks : ℕ → ℕ → ℤ} {root : String} {ifaces : Except String (List NetworkInterface)}
    {config : Config} {given : InitValues} {opened : Opened} {srv : BackSrv}
    (hgiven : config.given json = .ok given)
    (hjson : json.fromStr (json.toStr (given.insert (cfgApiKeyPrefix ++ testApiKey) "")) =
      .ok (given.insert (cfgApiKeyPrefix ++ testApiKey) ""))
    (hrun : config.backRunTest json decodeError random clocks root ifaces = .ok (opened, srv)) :
    config.resolveEncryptionKey decodeError (random 0) = .ok opened.key ∧
      srv.key = opened.key ∧
      (resolveBindAddrs (if config.addr = [] then [testBindAddr] else config.addr) ifaces =
          .ok srv.bind ∧
        ((∀ addr ∈ config.addr, addr.ip.isUnspecified = false) →
          srv.bind = if config.addr = [] then [testBindAddr] else config.addr)) ∧
      ∀ auth, (makeAuthCb .ok auth opened.sql).1 = .ok .ok ↔ authToken auth = testApiKey ∨
        authToken auth ≠ "" ∧ ∃ kv ∈ given.items, kv.1 = cfgApiKeyPrefix ++ authToken auth := by
  obtain ⟨config', hdefaults, hrun⟩ := bind_eq_ok.mp hrun
  obtain ⟨opened', hinit, hrun⟩ := bind_eq_ok.mp hrun
  obtain ⟨srv', hsrv, hpair⟩ := bind_eq_ok.mp hrun
  cases hpair
  have hpinned := resolveEncryptionKey_pinned decodeError hdefaults
  obtain ⟨init, hinitValues, hconfig⟩ := bind_eq_ok.mp hdefaults
  cases hgiven.symm.trans hinitValues
  cases hconfig
  obtain ⟨values, hvalues, hinit⟩ := bind_eq_ok.mp hinit
  obtain ⟨key, hkey, hinit⟩ := bind_eq_ok.mp hinit
  obtain ⟨srvKey, hsrvKey, hsrv⟩ := bind_eq_ok.mp hsrv
  obtain ⟨bind, hbind, hsrv⟩ := bind_eq_ok.mp hsrv
  cases hsrv
  rw [Option.getD_some, hjson] at hvalues
  cases hvalues
  split at hinit
  · rename_i n hputs
    cases hinit
    have hresolved := (hpinned (random 1)).symm.trans hkey
    have hkeys : srvKey = key :=
      Except.ok.inj (hsrvKey.symm.trans ((hpinned (random 2)).trans hresolved))
    have hbound : resolveBindAddrs (if config.addr = [] then [testBindAddr] else config.addr)
        ifaces = .ok bind := by
      by_cases haddr : config.addr = []
      · simpa [haddr] using mapError_eq_ok.mp hbind
      · simpa [haddr] using mapError_eq_ok.mp hbind
    refine ⟨hresolved, hkeys, ⟨hbound, fun hconcrete => ?_⟩, fun auth => ?_⟩
    · refine resolveBindAddrs_concrete (fun addr haddr => ?_) hbound
      split at haddr
      · rw [List.mem_singleton.mp haddr]
        rfl
      · exact hconcrete addr haddr
    · have htoken : cfgApiKeyPrefix ++ testApiKey = cfgApiKeyPrefix ++ authToken auth ↔
          authToken auth = testApiKey := (String.append_right_inj _).trans eq_comm
      have hne : testApiKey ≠ "" := by decide
      rw [authorized_iff hputs, InitValues.insert, exists_insertItem_iff, htoken, and_or_left]
      exact or_congr_left (and_iff_right_of_imp fun heq => heq ▸ hne)
  · cases hinit

/-- Json texts without escapes, and the two that are read here. -/
def plainJson : Json where
  fromStr s :=
    if s = "\x7b\"k\":\"v\"\x7d" then .ok (InitValues.empty.insert "k" "v")
    else if s = "\x7b\"cfg-api-key~test\":\"\",\"k\":\"v\"\x7d" then
      .ok ((InitValues.empty.insert "k" "v").insert "cfg-api-key~test" "")
    else .error "expected value at line 1 column 1"
  toStr values :=
    "\x7b" ++ ",".intercalate
      (values.items.map fun kv => "\"" ++ kv.1 ++ "\":\"" ++ kv.2 ++ "\"") ++ "\x7d"

def givenConfig : Config where
  dbRootDir := "."
  addr := []
  init := some "\x7b\"k\":\"v\"\x7d"
  encryptionKey := none

theorem test_mode_serves_given : ∃ opened srv,
    givenConfig.backRunTest plainJson id (fun i => List.Vector.replicate 32 (UInt8.ofNat i))
      (fun _ _ => 1000) "/tmp/db" (.ok []) = .ok (opened, srv) ∧
    srv.key = opened.key ∧ srv.bind = [testBindAddr] ∧
    (makeAuthCb .ok "Bearer test" opened.sql).1 = .ok .ok ∧
    (makeAuthCb .ok "Bearer k" opened.sql).1 ≠ .ok .ok := by
  have hok : (givenConfig.backRunTest plainJson id
      (fun i => List.Vector.replicate 32 (UInt8.ofNat i)) (fun _ _ => 1000) "/tmp/db"
      (.ok [])).isOk := by
    decide +kernel
  cases hrun : givenConfig.backRunTest plainJson id
      (fun i => List.Vector.replicate 32 (UInt8.ofNat i)) (fun _ _ => 1000) "/tmp/db" (.ok []) with
  | error e =>
      rw [hrun] at hok
      cases hok
  | ok run =>
      have hgiven : givenConfig.given plainJson = .ok (InitValues.empty.insert "k" "v") := rfl
      have hjson : plainJson.fromStr (plainJson.toStr
          ((InitValues.empty.insert "k" "v").insert (cfgApiKeyPrefix ++ testApiKey) "")) =
          .ok ((InitValues.empty.insert "k" "v").insert (cfgApiKeyPrefix ++ testApiKey) "") := rfl
      obtain ⟨_, hkey, ⟨_, hbind⟩, hauth⟩ := test_mode_serves hgiven hjson hrun
      refine ⟨run.1, run.2, rfl, hkey, hbind (by simp [givenConfig]),
        (hauth _).mpr (.inl (by decide +kernel)), ?_⟩
      rw [Ne, hauth]
      decide +kernel

end VmIo.Back
