import VmIo.Lib.Fs

/-!
The blob layer: chunk identities, the key schedule derived from them, the
path of a blob file and the encryption of a chunk.

SHA-256, HKDF and AEGIS-256 come from other crates. They are the fields of
`Crypto`, together with the two documented facts about the cipher: decrypting
undoes encrypting and a ciphertext is as long as its plaintext. That two inputs
do not collide is never a field. It is asked of a given set of chunks where it
is used (`CollisionFree`).
-/

namespace VmIo.Db

open VmIo.Lib

/-- `[u8; 32]` -/
abbrev Digest := List.Vector UInt8 32

inductive SqlError
  | uniqueModifiedAtMicros
  | foreignKey
  | failed
  deriving DecidableEq, Repr

/-- `std::io::Error`, by where it comes from. -/
inductive IoError
  | other (msg : String)
  | invalidInput (msg : String)
  | fs (e : FsError)
  | sql (e : SqlError)
  | aead
  deriving DecidableEq, Repr

structure Crypto where
  sha256 : Bytes → Digest
  /-- Extract with a salt and key material, then expand a label to 32 bytes. -/
  hkdf : Bytes → Digest → Bytes → Digest
  /-- AEGIS-256 under key, nonce and associated data. -/
  encryptInPlace : Digest → Digest → Bytes → Bytes → Bytes × Digest
  decryptInPlace : Digest → Digest → Bytes → Bytes → Digest → Option Bytes
  encrypt_length : ∀ key nonce adata data,
    (encryptInPlace key nonce adata data).1.length = data.length
  decrypt_encrypt : ∀ key nonce adata data,
    decryptInPlace key nonce adata (encryptInPlace key nonce adata data).1
      (encryptInPlace key nonce adata data).2 = some data

def shardDepth : ℕ := 3

def shardLen : ℕ := 4

def infoId : Bytes := utf8 "v-m.io blob id v1"
def infoKey : Bytes := utf8 "v-m.io blob key v1"
def infoNonce : Bytes := utf8 "v-m.io blob nonce v1"

/-- Everything about an entry file chunk that its blob is bound to. -/
structure ChunkId where
  cls : String
  key : String
  idx : Int64
  hash : Digest
  isFinal : Bool
  deriving DecidableEq

structure ChunkKeys where
  id : Digest
  key : Digest
  nonce : Digest
  adata : Bytes

namespace ChunkId

/-- Length framed encoding of a chunk identity. -/
def frame (c : ChunkId) : Bytes :=
  leBytes 8 (utf8 c.cls).length ++ utf8 c.cls ++
    leBytes 8 (utf8 c.key).length ++ utf8 c.key ++
    leBytes 8 c.idx.toBitVec.toNat ++ c.hash.toList ++
    [if c.isFinal then 1 else 0]

def derive (C : Crypto) (c : ChunkId) (blobKey : Digest) : ChunkKeys where
  id := C.hkdf c.frame blobKey infoId
  key := C.hkdf c.frame blobKey infoKey
  nonce := C.hkdf c.frame blobKey infoNonce
  adata := c.frame

theorem frame_fixed_injective {i j : Int64} {h k : Digest} {a b : Bool}
    (heq : leBytes 8 i.toBitVec.toNat ++ h.toList ++ [if a then 1 else 0] =
      leBytes 8 j.toBitVec.toNat ++ k.toList ++ [if b then (1 : UInt8) else 0]) :
    i = j ∧ h = k ∧ a = b := by
  have hlen : (leBytes 8 i.toBitVec.toNat ++ h.toList).length =
      (leBytes 8 j.toBitVec.toNat ++ k.toList).length := by simp
  obtain ⟨hidx, hfinal⟩ := List.append_inj heq hlen
  obtain ⟨hidx, hhash⟩ := List.append_inj hidx (by simp)
  refine ⟨?_, ?_, ?_⟩
  · apply Int64.toBitVec_inj.mp
    apply BitVec.eq_of_toNat_eq
    exact leBytes_injective (by have := i.toBitVec.isLt; omega)
      (by have := j.toBitVec.isLt; omega) hidx
  · exact Subtype.ext hhash
  · cases a <;> cases b <;> simp_all

theorem split_field {s t : String} {u v : Bytes} (hs : s.utf8ByteSize < 2 ^ 64)
    (ht : t.utf8ByteSize < 2 ^ 64)
    (h : leBytes 8 (utf8 s).length ++ (utf8 s ++ u) =
      leBytes 8 (utf8 t).length ++ (utf8 t ++ v)) : s = t ∧ u = v := by
  obtain ⟨hlen, hrest⟩ := List.append_inj h (by simp)
  have hlen : (utf8 s).length = (utf8 t).length :=
    leBytes_injective (by simpa using hs) (by simpa using ht) hlen
  obtain ⟨hbytes, hrest⟩ := List.append_inj hrest hlen
  exact ⟨utf8_injective hbytes, hrest⟩

theorem frame_injective {x y : ChunkId} (hxc : x.cls.utf8ByteSize < 2 ^ 64)
    (hxk : x.key.utf8ByteSize < 2 ^ 64) (hyc : y.cls.utf8ByteSize < 2 ^ 64)
    (hyk : y.key.utf8ByteSize < 2 ^ 64) (h : x.frame = y.frame) : x = y := by
  simp only [frame, List.append_assoc] at h
  obtain ⟨hcls, h⟩ := split_field hxc hyc h
  obtain ⟨hkey, h⟩ := split_field hxk hyk h
  simp only [← List.append_assoc] at h
  obtain ⟨hidx, hhash, hfinal⟩ := frame_fixed_injective h
  cases x
  cases y
  simp_all

end ChunkId

def genId (C : Crypto) (chunk : ChunkId) (blobKey : Digest) : Digest :=
  (chunk.derive C blobKey).id

def idPath (root : Path) (id : Digest) : Path :=
  let hex := hexEncode id.toList
  root ++ [String.ofList (hex.take shardLen),
    String.ofList ((hex.take (shardLen * 2)).drop shardLen),
    String.ofList ((hex.take (shardLen * 3)).drop (shardLen * 2)),
    String.ofList hex]

theorem idPath_injective {root : Path} {a b : Digest} (h : idPath root a = idPath root b) :
    a = b := by
  have htail := List.append_cancel_left h
  simp only [List.cons.injEq, String.ofList_inj, and_true] at htail
  exact Subtype.ext (hexEncode_injective htail.2.2.2)

def isShardName (name : String) : Bool :=
  name.utf8ByteSize = shardLen && name.toList.all (fun c => (hexValue? c).isSome)

theorem utf8Size_of_hexValue? {c : Char} (h : (hexValue? c).isSome) : c.utf8Size = 1 := by
  rw [Char.utf8Size_eq_one_iff]
  unfold hexValue? at h
  split_ifs at h with hdigit hlower hupper
  · exact UInt32.le_trans (Char.le_def.mp hdigit.2) (by decide)
  · exact UInt32.le_trans (Char.le_def.mp hlower.2) (by decide)
  · exact UInt32.le_trans (Char.le_def.mp hupper.2) (by decide)
  · contradiction

/-- Four hexadecimal digits, in either case. -/
theorem isShardName_iff {name : String} : isShardName name = true ↔
    name.toList.length = shardLen ∧ ∀ c ∈ name.toList, (hexValue? c).isSome := by
  have hlen : ∀ l : List Char, (∀ c ∈ l, (hexValue? c).isSome) → String.utf8Len l = l.length := by
    intro l hl
    induction l with
    | nil => rfl
    | cons c l ih =>
        rw [String.utf8Len_cons, utf8Size_of_hexValue? (hl c List.mem_cons_self),
          ih fun d hd => hl d (List.mem_cons_of_mem c hd), List.length_cons]
  have hsize : name.utf8ByteSize = String.utf8Len name.toList := by
    rw [← String.utf8ByteSize_ofList, String.ofList_toList]
  rw [isShardName, Bool.and_eq_true, decide_eq_true_iff, List.all_eq_true, hsize]
  constructor
  · rintro ⟨hfour, hhex⟩
    exact ⟨(hlen _ hhex).symm.trans hfour, hhex⟩
  · rintro ⟨hfour, hhex⟩
    exact ⟨(hlen _ hhex).trans hfour, hhex⟩

/-- Parse a blob file name back into the blob id it encodes. -/
def parseName (name : String) : Option Digest :=
  match hexDecode name.toList with
  | some bs => if h : bs.length = 32 then some ⟨bs, h⟩ else none
  | none => none

theorem idPath_shards (root : Path) (id : Digest) :
    ∃ shards name, idPath root id = root ++ shards ++ [name] ∧ shards.length = shardDepth ∧
      (∀ s ∈ shards, isShardName s = true) ∧ parseName name = some id := by
  have hshard : ∀ l : List Char, l.length = shardLen → (∀ c ∈ l, c ∈ hexEncode id.toList) →
      isShardName (String.ofList l) = true := by
    intro l hl hmem
    rw [isShardName_iff, String.toList_ofList]
    exact ⟨hl, fun c hc => hexValue?_of_mem_hexEncode (hmem c hc)⟩
  refine ⟨[_, _, _], _, (List.append_assoc root [_, _, _] [_]).symm, rfl, ?_, ?_⟩
  · intro s hs
    simp only [List.mem_cons, List.not_mem_nil, or_false] at hs
    rcases hs with rfl | rfl | rfl
    · exact hshard _ (by simp [shardLen]) fun c hc => List.mem_of_mem_take hc
    · exact hshard _ (by simp [shardLen]) fun c hc => List.mem_of_mem_take (List.mem_of_mem_drop hc)
    · exact hshard _ (by simp [shardLen]) fun c hc => List.mem_of_mem_take (List.mem_of_mem_drop hc)
  · simp [parseName]

structure EncryptResult where
  id : Digest
  tag : Digest

/-- Encrypt a chunk in place. -/
def encryptChunk (C : Crypto) (chunk : ChunkId) (data : Bytes) (blobKey : Digest) :
    EncryptResult × Bytes :=
  let keys := chunk.derive C blobKey
  let enc := C.encryptInPlace keys.key keys.nonce keys.adata data
  (⟨keys.id, enc.2⟩, enc.1)

/-- Decrypt a chunk in place, verifying it against `tag`. -/
def decryptChunk (C : Crypto) (chunk : ChunkId) (data : Bytes) (blobKey tag : Digest) :
    Except IoError Bytes :=
  let keys := chunk.derive C blobKey
  match C.decryptInPlace keys.key keys.nonce keys.adata data tag with
  | some out => .ok out
  | none => .error .aead

theorem decryptChunk_encryptChunk (C : Crypto) (chunk : ChunkId) (data : Bytes)
    (blobKey : Digest) :
    decryptChunk C chunk (encryptChunk C chunk data blobKey).2 blobKey
      (encryptChunk C chunk data blobKey).1.tag = .ok data := by
  simp [decryptChunk, encryptChunk, C.decrypt_encrypt]

@[simp] theorem encryptChunk_length (C : Crypto) (chunk : ChunkId) (data : Bytes)
    (blobKey : Digest) : (encryptChunk C chunk data blobKey).2.length = data.length :=
  C.encrypt_length _ _ _ _

@[simp] theorem encryptChunk_id (C : Crypto) (chunk : ChunkId) (data : Bytes)
    (blobKey : Digest) : (encryptChunk C chunk data blobKey).1.id = genId C chunk blobKey := rfl

end VmIo.Db
