import VmIo.Db.Tampering

/-!
No key and nonce pair encrypts two different plaintexts.

The salt of the key schedule is the framed identity of a chunk, and the framing
is injective. So two uploads share a blob id, or a key and a nonce, only if they
are the same upload.
-/

namespace VmIo.Db

open VmIo.Lib

def infoLabels : List Bytes := [infoId, infoKey, infoNonce]

/-- On the identities of these uploads, and with the labels in use, HKDF does not
collide in salt and label. -/
def HkdfCollisionFree (db : VmIoDb) (P : ChunkReq → Prop) : Prop :=
  ∀ r r', P r → P r' → ∀ info ∈ infoLabels, ∀ info' ∈ infoLabels,
    db.crypto.hkdf (db.chunkId r).frame db.blobKey info =
      db.crypto.hkdf (db.chunkId r').frame db.blobKey info' →
    (db.chunkId r).frame = (db.chunkId r').frame ∧ info = info'

/-- On the data of these uploads SHA-256 does not collide. -/
def ShaCollisionFree (db : VmIoDb) (P : ChunkReq → Prop) : Prop :=
  ∀ r r', P r → P r' → db.crypto.sha256 r.data = db.crypto.sha256 r'.data → r.data = r'.data

theorem CollisionFree.of_hkdf {db : VmIoDb} {P : ChunkReq → Prop} (hsha : ShaCollisionFree db P)
    (hhkdf : HkdfCollisionFree db P) : CollisionFree db P where
  sha256 := hsha
  hkdf r r' hr hr' h :=
    (hhkdf r r' hr hr' infoId (by simp [infoLabels]) infoId (by simp [infoLabels]) h).1

/-- Any of the three derived outputs tells the uploads apart. -/
theorem HkdfCollisionFree.blobId_eq {db : VmIoDb} {P : ChunkReq → Prop}
    (hhkdf : HkdfCollisionFree db P) {r r' : ChunkReq} (hr : P r) (hr' : P r') {info : Bytes}
    (hinfo : info ∈ infoLabels)
    (h : db.crypto.hkdf (db.chunkId r).frame db.blobKey info =
      db.crypto.hkdf (db.chunkId r').frame db.blobKey info) : db.blobId r = db.blobId r' := by
  have hframe := (hhkdf r r' hr hr' info hinfo info hinfo h).1
  show db.crypto.hkdf (db.chunkId r).frame db.blobKey infoId =
    db.crypto.hkdf (db.chunkId r').frame db.blobKey infoId
  rw [hframe]

/-- Chunk identities that frame to the same bytes are the same. So two uploads that
get one blob id, or one key with one nonce, name the same chunk and carry the
same plaintext, and the same ciphertext and tag come to lie at the same path. -/
theorem identity_never_shared {db : VmIoDb} {P : ChunkReq → Prop} (hsha : ShaCollisionFree db P)
    (hhkdf : HkdfCollisionFree db P) :
    (∀ x y : ChunkId, x.cls.utf8ByteSize < 2 ^ 64 → x.key.utf8ByteSize < 2 ^ 64 →
      y.cls.utf8ByteSize < 2 ^ 64 → y.key.utf8ByteSize < 2 ^ 64 → x.frame = y.frame → x = y) ∧
    ∀ r r', P r → P r' →
      db.blobId r = db.blobId r' ∨
        (db.keys r).key = (db.keys r').key ∧ (db.keys r).nonce = (db.keys r').nonce →
      (r.cls = r'.cls ∧ r.key = r'.key ∧ r.idx = r'.idx ∧ r.isFinal = r'.isFinal ∧
        r.data = r'.data) ∧
      db.cipher r = db.cipher r' ∧ db.tag r = db.tag r' ∧
        db.path (db.blobId r) = db.path (db.blobId r') := by
  refine ⟨fun x y hxc hxk hyc hyk => ChunkId.frame_injective hxc hxk hyc hyk, ?_⟩
  intro r r' hr hr' hshared
  have hid : db.blobId r = db.blobId r' := by
    rcases hshared with hid | ⟨hkey, _⟩
    · exact hid
    · exact hhkdf.blobId_eq hr hr' (by simp [infoLabels]) hkey
  have heq : r = r' := (CollisionFree.of_hkdf hsha hhkdf).eq_of_blobId hr hr' hid
  subst heq
  exact ⟨⟨rfl, rfl, rfl, rfl, rfl⟩, rfl, rfl, rfl⟩

/-- Two chunks of one slot that differ in their byte have neither the blob id nor
the key and the nonce in common. -/
theorem identity_never_shared_slot :
    Vectors.db.blobId Vectors.reqA ≠ Vectors.db.blobId Vectors.reqB ∧
      ¬((Vectors.db.keys Vectors.reqA).key = (Vectors.db.keys Vectors.reqB).key ∧
        (Vectors.db.keys Vectors.reqA).nonce = (Vectors.db.keys Vectors.reqB).nonce) := by
  have hhkdf : HkdfCollisionFree Vectors.db Vectors.uploads := by
    rintro r r' (rfl | rfl) (rfl | rfl) <;> decide +kernel
  have hapart := (identity_never_shared Vectors.collisionFree.sha256 hhkdf).2 Vectors.reqA
    Vectors.reqB (.inl rfl) (.inr rfl)
  have hdata : Vectors.reqA.data ≠ Vectors.reqB.data := by decide
  constructor
  · intro hid
    exact hdata (hapart (.inl hid)).1.2.2.2.2
  · intro hkeys
    exact hdata (hapart (.inr hkeys)).1.2.2.2.2

end VmIo.Db
