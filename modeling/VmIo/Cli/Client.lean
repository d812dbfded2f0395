import VmIo.Back.Server
import VmIo.Chan.Cfg

/-!
The command line client. Each command connects anew, which takes a request of its own.
-/

namespace VmIo.Cli

open VmIo.Lib VmIo.Types VmIo.Chan

inductive Cmd
  | health
  | cfgGet (showTombstones : Bool)
  | cfgPut (key value : Text) (expiresAtMicros modifiedAtMicros : Option Int64)
  | cfgRm (key : Text) (expiresAtMicros modifiedAtMicros : Option Int64)

def tombstone : Text := ⟨Back.configTombstone, by decide +kernel⟩

/-- An entry of the config as it is printed. -/
structure Shown where
  value : Text
  modifiedAtMicros : Int64
  expiresAtMicros : Option Int64
  deriving DecidableEq

inductive Output
  | nothing
  | config (entries : List (Text × Shown))
  deriving DecidableEq

/-- `BTreeMap::insert` -/
def insertKey (key : Text) (value : Shown) : List (Text × Shown) → List (Text × Shown)
  | [] => [(key, value)]
  | (key', value') :: rest =>
      if byteOrder key.1 < byteOrder key'.1 then (key, value) :: (key', value') :: rest
      else if key = key' then (key, value) :: rest
      else (key', value') :: insertKey key value rest

def shown (item : CfgGetItem) : Shown := ⟨item.value, item.modifiedAtMicros, item.expiresAtMicros⟩

/-- The config as `CfgGet` prints it: a map by key, without the removed entries unless they are
asked for. -/
def dump (showTombstones : Bool) (cfg : List CfgGetItem) : List (Text × Shown) :=
  (cfg.filter fun item => showTombstones || item.value ≠ tombstone).foldl
    (fun m item => insertKey item.key (shown item) m) []

section Run

variable {σ : Type*} (decoder : Decoder)
  (canonicalReason : StatusCode → Option String) (inner : SrvInner σ) (wire : Wire)
  (apiKey : String)

def health (s : σ) : Except String Unit × σ :=
  match (ChanCli.mk ("Bearer " ++ apiKey)).connect canonicalReason inner wire s with
  | (.error e, s) => (.error e, s)
  | (.ok cli, s) =>
      match cli.call canonicalReason inner wire healthReq [] s with
      | (.error e, s) => (.error e, s)
      | (.ok _, s) => (.ok (), s)

def cfgGet (s : σ) : Except String CfgGetRes × σ :=
  match (ChanCli.mk ("Bearer " ++ apiKey)).connect canonicalReason inner wire s with
  | (.error e, s) => (.error e, s)
  | (.ok cli, s) => cli.cfgGet decoder canonicalReason inner wire s

def cfgPut (key value : Text) (expiresAtMicros modifiedAtMicros : Option Int64) (s : σ) :
    Except String Unit × σ :=
  match (ChanCli.mk ("Bearer " ++ apiKey)).connect canonicalReason inner wire s with
  | (.error e, s) => (.error e, s)
  | (.ok cli, s) =>
      cli.cfgPut canonicalReason inner wire ⟨key, value, expiresAtMicros, modifiedAtMicros⟩ s

/-- 30 days from now, unless told otherwise. -/
def rmExpires (now : Int64) (expiresAtMicros : Option Int64) : Int64 :=
  expiresAtMicros.getD (now + 1000 * 1000 * 60 * 60 * 24 * 30)

def clientRun (now : Int64) (cmd : Cmd) (s : σ) : Except String Output × σ :=
  match cmd with
  | .health =>
      let (res, s) := health canonicalReason inner wire apiKey s
      (res.map fun _ => .nothing, s)
  | .cfgGet showTombstones =>
      match cfgGet decoder canonicalReason inner wire apiKey s with
      | (.error e, s) => (.error e, s)
      | (.ok (.error e), s) => (.error e.1, s)
      | (.ok (.ok cfg), s) => (.ok (.config (dump showTombstones cfg.1)), s)
  | .cfgPut key value expiresAtMicros modifiedAtMicros =>
      let (res, s) := cfgPut canonicalReason inner wire apiKey key value expiresAtMicros
        modifiedAtMicros s
      (res.map fun _ => .nothing, s)
  | .cfgRm key expiresAtMicros modifiedAtMicros =>
      let (res, s) := cfgPut canonicalReason inner wire apiKey key tombstone
        (some (rmExpires now expiresAtMicros)) modifiedAtMicros s
      (res.map fun _ => .nothing, s)

end Run

/-! ### The map that is printed -/

theorem insertKey_last {key : Text} {value : Shown} {l : List (Text × Shown)}
    (h : ∀ kv ∈ l, byteOrder kv.1.1 < byteOrder key.1) :
    insertKey key value l = l ++ [(key, value)] := by
  induction l with
  | nil => rfl
  | cons kv l ih =>
      have hlt := h kv List.mem_cons_self
      have hne : key ≠ kv.1 := by
        rintro rfl
        exact lt_irrefl _ hlt
      rw [insertKey, if_neg (lt_asymm hlt), if_neg hne,
        ih fun kv hkv => h kv (List.mem_cons_of_mem _ hkv)]
      rfl

theorem foldl_insertKey {m : List (Text × Shown)} {cfg : List CfgGetItem}
    (h : (m.map Prod.fst ++ cfg.map CfgGetItem.key).Pairwise
      (fun a b => byteOrder a.1 < byteOrder b.1)) :
    cfg.foldl (fun m item => insertKey item.key (shown item) m) m =
      m ++ cfg.map fun item => (item.key, shown item) := by
  induction cfg generalizing m with
  | nil => simp
  | cons item cfg ih =>
      have hlast : ∀ kv ∈ m, byteOrder kv.1.1 < byteOrder item.key.1 := fun kv hkv =>
        (List.pairwise_append.mp h).2.2 _ (List.mem_map_of_mem hkv) _ (by simp)
      rw [List.foldl_cons, insertKey_last hlast, ih (by simpa using h), List.map_cons,
        List.append_assoc]
      rfl

/-- A config that is listed by ascending key is printed in its order. -/
theorem dump_sorted {showTombstones : Bool} {cfg : List CfgGetItem}
    (h : cfg.Pairwise (fun a b => byteOrder a.key.1 < byteOrder b.key.1)) :
    dump showTombstones cfg =
      (cfg.filter fun item => showTombstones || item.value ≠ tombstone).map
        fun item => (item.key, shown item) := by
  rw [dump, foldl_insertKey, List.nil_append]
  rw [List.map_nil, List.nil_append, List.pairwise_map]
  exact h.filter _

end VmIo.Cli
