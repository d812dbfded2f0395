import VmIo.Db.Invariants

/-!
A concrete store for runs that can be evaluated: the key schedule, the hashes
and the ciphertexts that SHA-256, HKDF and AEGIS-256 give for two one-byte
chunks of one slot, under the all-zero blob key. Off these inputs `crypto`
stands in with answers that keep the laws of `Crypto`.
-/

namespace VmIo.Db

open VmIo.Lib

/-- 32 bytes from a number, the most significant first. -/
def Digest.ofNat (n : ℕ) : Digest := ⟨(leBytes 32 n).reverse, by simp⟩

namespace Vectors

def zero : Digest := .ofNat 0

def hashA : Digest :=
  .ofNat 0x559aead08264d5795d3909718cdd05abd49572e84fe55590eef31a88a08fdffd

def hashB : Digest :=
  .ofNat 0xdf7e70e5021544f4834bbee64a9e3789febc4be81470df629cad6ddb03320a5c

def frameA : Bytes := ChunkId.frame ⟨"c", "k", 0, hashA, true⟩
def frameB : Bytes := ChunkId.frame ⟨"c", "k", 0, hashB, true⟩

def keysA : ChunkKeys where
  id := .ofNat 0xafec25cc3aaa036c17684b989f983bcc353af27b94804588825dd4ee538c7eba
  key := .ofNat 0x032a4115add3ae492ed74a0b3871f6f0e535b8b68d9eca2fa8964f16e46b69d7
  nonce := .ofNat 0xf62d63ae44a20c97da4549fbe3983a2c0ca34b2429568f65befacfa16675e277
  adata := frameA

def keysB : ChunkKeys where
  id := .ofNat 0xff39beec1c22ae638acaebf488abf9245b1be533bf3f985b4adfc8835d7c1366
  key := .ofNat 0xbb72644106b34ef0264064504a453f0875e9ad07eeab804c4f7c70c3ecd68c5f
  nonce := .ofNat 0x791e397b73345643079783267b603208115eac8da9323eb678dd2d1603c4d193
  adata := frameB

def tagA : Digest :=
  .ofNat 0x0d39040cc44c34caaac4217a6b208aa1f13c38e3effeea28514b6dad68e57cf9

def tagB : Digest :=
  .ofNat 0x9c595bf99c1d62ad5183dae68a21bd0fe96a967670ad50f02a145250954a464c

def expand (keys : ChunkKeys) (info : Bytes) : Digest :=
  if info = infoId then keys.id
  else if info = infoKey then keys.key
  else if info = infoNonce then keys.nonce
  else zero

/-- Do these key, nonce and associated data belong to the schedule? -/
def Under (keys : ChunkKeys) (key nonce : Digest) (adata : Bytes) : Prop :=
  key = keys.key ∧ nonce = keys.nonce ∧ adata = keys.adata

instance (keys : ChunkKeys) (key nonce : Digest) (adata : Bytes) :
    Decidable (Under keys key nonce adata) :=
  inferInstanceAs (Decidable (_ ∧ _ ∧ _))

def encryptInPlace (key nonce : Digest) (adata data : Bytes) : Bytes × Digest :=
  if Under keysA key nonce adata ∧ data = [0x41] then ([0x36], tagA)
  else if Under keysB key nonce adata ∧ data = [0x42] then ([0x43], tagB)
  else (data, zero)

def decryptInPlace (key nonce : Digest) (adata data : Bytes) (tag : Digest) : Option Bytes :=
  if tag = zero then some data
  else if Under keysA key nonce adata ∧ data = [0x36] ∧ tag = tagA then some [0x41]
  else if Under keysB key nonce adata ∧ data = [0x43] ∧ tag = tagB then some [0x42]
  else none

theorem tagA_ne_zero : tagA ≠ zero := by decide

theorem tagB_ne_zero : tagB ≠ zero := by decide

def crypto : Crypto where
  sha256 data := if data = [0x41] then hashA else if data = [0x42] then hashB else zero
  hkdf salt _ info :=
    if salt = frameA then expand keysA info
    else if salt = frameB then expand keysB info
    else zero
  encryptInPlace := encryptInPlace
  decryptInPlace := decryptInPlace
  encrypt_length key nonce adata data := by
    unfold encryptInPlace
    split
    · rename_i h
      simp [h.2]
    · split
      · rename_i h
        simp [h.2]
      · rfl
  decrypt_encrypt key nonce adata data := by
    unfold encryptInPlace decryptInPlace
    split
    · rename_i h
      simp [tagA_ne_zero, h]
    · split
      · rename_i h
        simp [tagB_ne_zero, h]
      · simp

def db : VmIoDb := ⟨["data"], zero, crypto⟩

def reqA : ChunkReq := ⟨"c", "k", 0, [0x41], true, by decide, by decide⟩

def reqB : ChunkReq := ⟨"c", "k", 0, [0x42], true, by decide, by decide⟩

def entry : EntryRow := ⟨"c", "k", 1, none, none⟩

/-- The two uploads of these runs. -/
def uploads (r : ChunkReq) : Prop := r = reqA ∨ r = reqB

instance (r : ChunkReq) : Decidable (uploads r) := inferInstanceAs (Decidable (_ ∨ _))

/-- Issue the entry, as call `t`, and let it finish. -/
def putEntry (t : ℕ) : List Action := [.spawn (.upsert entry), .step t .ok, .step t .ok]

/-- The steps of an upload that writes its file, up to its transaction. -/
def writeSteps (t : ℕ) : List Action :=
  [.step t .ok, .step t .ok, .step t .ok, .step t .ok, .step t (.portion 1), .step t .ok]

/-- The steps of an upload that finds its file, up to its transaction. -/
def skipSteps (t : ℕ) : List Action := [.step t .ok, .step t .ok]

/-- The walk of a pass, as call `t`, down to the file of the first chunk. -/
def walkSteps (t : ℕ) : List Action :=
  [.step t .ok, .step t (.listing ["afec"]), .step t .ok, .step t .ok,
    .step t (.listing ["25cc"]), .step t .ok, .step t .ok,
    .step t (.listing ["3aaa"]), .step t .ok, .step t .ok,
    .step t (.listing ["afec25cc3aaa036c17684b989f983bcc353af27b94804588825dd4ee538c7eba"]),
    .step t .ok, .step t .ok]

theorem collisionFree : CollisionFree db uploads where
  sha256 := by
    rintro r r' (rfl | rfl) (rfl | rfl) <;> decide +kernel
  hkdf := by
    rintro r r' (rfl | rfl) (rfl | rfl) <;> decide +kernel

end Vectors

end VmIo.Db
