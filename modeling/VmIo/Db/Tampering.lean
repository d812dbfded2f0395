import VmIo.Db.CrashSafety

/-!
Reading from a blob directory that anyone may have written to.

The rows of the database are authentic, the files are not: every theorem here
is about the rows of a reachable state beside an arbitrary file system. What
ties a file to its row is the tag in the row and the identity the key, the
nonce and the associated data are derived from.
-/

namespace VmIo.Db

open VmIo.Lib

def VmIoDb.keys (db : VmIoDb) (r : ChunkReq) : ChunkKeys := (db.chunkId r).derive db.crypto db.blobKey

def VmIoDb.tag (db : VmIoDb) (r : ChunkReq) : Digest := (db.encrypted r).1.tag

/-- Under the key, nonce and associated data of one of these uploads, and with
the tag in its row, decryption accepts only a ciphertext that encrypting one of
these uploads produced, with this tag, under the same three. -/
def Authentic (db : VmIoDb) (P : ChunkReq → Prop) : Prop :=
  ∀ r, P r → ∀ data out,
    db.crypto.decryptInPlace (db.keys r).key (db.keys r).nonce (db.keys r).adata data (db.tag r) =
      some out →
    ∃ r', P r' ∧ (db.keys r').key = (db.keys r).key ∧ (db.keys r').nonce = (db.keys r).nonce ∧
      (db.keys r').adata = (db.keys r).adata ∧ db.tag r' = db.tag r ∧ db.cipher r' = data

/-- Nothing but an upload's own ciphertext is accepted in its place, since the
associated data names the class, key, index, content and finality. -/
theorem Authentic.cipher_eq {db : VmIoDb} {P : ChunkReq → Prop} (hauth : Authentic db P)
    (hcf : CollisionFree db P) {r : ChunkReq} (hr : P r) {data out : Bytes}
    (h : db.crypto.decryptInPlace (db.keys r).key (db.keys r).nonce (db.keys r).adata data
      (db.tag r) = some out) : data = db.cipher r := by
  obtain ⟨r', hr', _, _, hadata, _, hcipher⟩ := hauth r hr data out h
  have hframe : (db.chunkId r').frame = (db.chunkId r).frame := hadata
  have hid : db.blobId r' = db.blobId r := by
    show db.crypto.hkdf (db.chunkId r').frame db.blobKey infoId =
      db.crypto.hkdf (db.chunkId r).frame db.blobKey infoId
    rw [hframe]
  rw [← hcipher, hcf.eq_of_blobId hr' hr hid]

theorem getChunkFile_tampered {db : VmIoDb} {P : ChunkReq → Prop} (hcf : CollisionFree db P)
    (hauth : Authentic db P) {r : ChunkReq} (hr : P r) (st : Store) (size : ℤ) :
    (∃ e, getChunkFile db st r.cls r.key r.idx r.isFinal
        ⟨db.crypto.sha256 r.data, db.tag r, size, r.isFinal⟩ = .error e) ∨
      getChunkFile db st r.cls r.key r.idx r.isFinal
        ⟨db.crypto.sha256 r.data, db.tag r, size, r.isFinal⟩ = .ok r.data := by
  unfold getChunkFile
  simp only
  split
  · exact .inl ⟨_, rfl⟩
  · rename_i data _
    split
    · exact .inl ⟨_, rfl⟩
    · show (∃ e, decryptChunk db.crypto (db.chunkId r) data db.blobKey (db.tag r) = .error e) ∨
        decryptChunk db.crypto (db.chunkId r) data db.blobKey (db.tag r) = .ok r.data
      cases hdec : db.crypto.decryptInPlace (db.keys r).key (db.keys r).nonce (db.keys r).adata data
          (db.tag r) with
      | none =>
          refine .inl ⟨.aead, ?_⟩
          unfold decryptChunk
          simp only [VmIoDb.keys] at hdec
          simp only [hdec]
      | some out =>
          right
          rw [hauth.cipher_eq hcf hr hdec]
          exact decryptChunk_encryptChunk db.crypto (db.chunkId r) r.data db.blobKey

theorem getChunk_row_tampered {db : VmIoDb} {P : ChunkReq → Prop} (hcf : CollisionFree db P)
    (hauth : Authentic db P) {r : ChunkReq} (hr : P r) {st : Store}
    (h : st.sql.entryFileChunks.find? r.slot = some (db.row r)) (isFinal : Bool) :
    (∃ e, getChunk db st r.cls r.key r.idx isFinal = .error e) ∨
      r.isFinal = isFinal ∧ getChunk db st r.cls r.key r.idx isFinal = .ok (some r.data) := by
  have hrow : getChunkRow st r.cls r.key r.idx isFinal =
      if isFinal ≠ r.isFinal then .error (.other "chunk finality mismatch")
      else .ok (some ⟨db.crypto.sha256 r.data, db.tag r, (db.cipher r).length, r.isFinal⟩) :=
    getChunkRow_row isFinal h
  by_cases hfinal : isFinal = r.isFinal
  · subst hfinal
    simp only [ne_eq, not_true_eq_false, if_false] at hrow
    rcases getChunkFile_tampered hcf hauth hr st (db.cipher r).length with ⟨e, he⟩ | hdata
    · exact .inl ⟨e, by simp only [getChunk, hrow, he, Except.map]⟩
    · exact .inr ⟨rfl, by simp only [getChunk, hrow, hdata, Except.map]⟩
  · exact .inl ⟨.other "chunk finality mismatch", by simp [getChunk, hrow, hfinal]⟩

section

variable {db : VmIoDb} {P : ChunkReq → Prop} {now : Time}

theorem rows_logged {ok : Sys → Action → Prop} (hok : ∀ s a, ok s a → UploadsIn P s a)
    {p : Sys × List ChunkReq}
    (h : Reach (observe (step db) recordCommit) (fun p a => ok p.1 a) (Sys.init db now, []) p) :
    ∀ row ∈ p.1.st.sql.entryFileChunks.rows,
      ∃ r, P r ∧ row = db.row r ∧ lastCommitted p.2 r.slot = some r := by
  have hprov : ∀ q, Reach (observe (step db) recordCommit) (fun p a => ok p.1 a)
      (Sys.init db now, []) q → Provenance db P q.1 :=
    fun q hq => provenance hok (Reach.of_observe hq)
  refine h.invariant_of (I := fun q => ∀ row ∈ q.1.st.sql.entryFileChunks.rows,
    ∃ r, P r ∧ row = db.row r ∧ lastCommitted q.2 r.slot = some r) hprov
    (by simp [Sys.init, Sql.empty]) ?_
  rintro ⟨s, log⟩ a ⟨s', log'⟩ hprov _ hlogged _ hs
  obtain ⟨hs, hlog⟩ := observe_eq_some_iff.mp hs
  have hlog : log' = recordCommit s a s' log := hlog
  subst hlog
  exact logged_step hprov hlogged hs

end

/-- Whatever the blob files hold, a lookup fails, finds nothing where no row is
committed, or returns the data of the last upload of the slot that committed,
and that only when asked for its finality. -/
theorem getChunk_tampered {db : VmIoDb} {P : ChunkReq → Prop} (hcf : CollisionFree db P)
    (hauth : Authentic db P) {now : Time} {s : Sys} {log : List ChunkReq}
    (h : Reach (observe (step db) recordCommit) (fun p a => UploadsIn P p.1 a)
      (Sys.init db now, []) (s, log)) (fs : Fs) (cls key : String) (idx : Int64) (isFinal : Bool) :
    (∃ e, getChunk db { s.st with fs := fs } cls key idx isFinal = .error e) ∨
    (getChunk db { s.st with fs := fs } cls key idx isFinal = .ok none ∧
      s.st.sql.entryFileChunks.find? (cls, key, idx) = none) ∨
    ∃ r, lastCommitted log (cls, key, idx) = some r ∧
      s.st.sql.entryFileChunks.find? (cls, key, idx) = some (db.row r) ∧ r.isFinal = isFinal ∧
      getChunk db { s.st with fs := fs } cls key idx isFinal = .ok (some r.data) := by
  cases hfind : s.st.sql.entryFileChunks.find? (cls, key, idx) with
  | none => exact .inr (.inl ⟨getChunk_none isFinal hfind, rfl⟩)
  | some row =>
      obtain ⟨hmem, hpk⟩ := Table.find?_eq_some_iff.mp hfind
      obtain ⟨r, hr, rfl, hlast⟩ := rows_logged (fun _ _ hok => hok) h row hmem
      have hslot : r.slot = (cls, key, idx) := hpk
      have hget := getChunk_row_tampered hcf hauth hr 
        (show ({ s.st with fs := fs } : Store).sql.entryFileChunks.find? r.slot = some (db.row r)
          from hslot ▸ hfind) isFinal
      simp only [ChunkReq.slot, Prod.mk.injEq] at hslot
      obtain ⟨rfl, rfl, rfl⟩ := hslot
      rcases hget with herr | ⟨hfinal, hdata⟩
      · exact .inl herr
      · exact .inr (.inr ⟨r, hlast, rfl, hfinal, hdata⟩)

namespace Vectors

theorem authentic : Authentic db uploads := by
  rintro r (rfl | rfl) data out h
  · have hkeys : decryptInPlace keysA.key keysA.nonce keysA.adata data tagA = some out := h
    have hdata : data = [0x36] := by
      unfold decryptInPlace at hkeys
      rw [if_neg tagA_ne_zero] at hkeys
      split at hkeys
      · rename_i hA
        exact hA.2.1
      · split at hkeys
        · rename_i hB
          exact absurd hB.2.2 (by decide)
        · contradiction
    exact ⟨reqA, .inl rfl, rfl, rfl, rfl, rfl, hdata.symm ▸ by decide +kernel⟩
  · have hkeys : decryptInPlace keysB.key keysB.nonce keysB.adata data tagB = some out := h
    have hdata : data = [0x43] := by
      unfold decryptInPlace at hkeys
      rw [if_neg tagB_ne_zero] at hkeys
      split at hkeys
      · rename_i hA
        exact absurd hA.2.2 (by decide)
      · split at hkeys
        · rename_i hB
          exact hB.2.1
        · contradiction
    exact ⟨reqB, .inr rfl, rfl, rfl, rfl, rfl, hdata.symm ▸ by decide +kernel⟩

end Vectors

/-- The file of the one chunk is replaced by the ciphertext of the other. -/
theorem getChunk_tampered_swapped :
    ∃ s log, Reach (observe (step Vectors.db) recordCommit)
        (fun p a => UploadsIn Vectors.uploads p.1 a) (Sys.init Vectors.db 0, []) (s, log) ∧
      Vectors.db.row Vectors.reqA ∈ s.st.sql.entryFileChunks.rows ∧
      ((∃ e, getChunk Vectors.db { s.st with
          fs := s.st.fs.link (Vectors.db.path (Vectors.db.blobId Vectors.reqA))
            (.file ⟨0, Vectors.db.cipher Vectors.reqB, 0⟩) } "c" "k" 0 true = .error e) ∨
        getChunk Vectors.db { s.st with
          fs := s.st.fs.link (Vectors.db.path (Vectors.db.blobId Vectors.reqA))
            (.file ⟨0, Vectors.db.cipher Vectors.reqB, 0⟩) } "c" "k" 0 true = .ok (some [0x41])) := by
  obtain ⟨⟨s, log⟩, hreach, hrow, hlast⟩ := Reach.exists_of_runOk
    (observe (step Vectors.db) recordCommit)
    (fun p a => UploadsIn Vectors.uploads p.1 a) ((Sys.init Vectors.db 0, []))
    (Vectors.putEntry 0 ++ .spawn (.upsertChunk Vectors.reqA) :: Vectors.writeSteps 1 ++
      [.step 1 .ok])
    (fun p => Vectors.db.row Vectors.reqA ∈ p.1.st.sql.entryFileChunks.rows ∧
      lastCommitted p.2 ("c", "k", 0) = some Vectors.reqA) (by decide +kernel)
  refine ⟨s, log, hreach, hrow, ?_⟩
  rcases getChunk_tampered Vectors.collisionFree Vectors.authentic hreach
    (s.st.fs.link (Vectors.db.path (Vectors.db.blobId Vectors.reqA))
      (.file ⟨0, Vectors.db.cipher Vectors.reqB, 0⟩)) "c" "k" 0 true with
    herr | ⟨_, hnone⟩ | ⟨r, hr, _, _, hdata⟩
  · exact .inl herr
  · exact absurd rfl (Table.find?_eq_none_iff.mp hnone _ hrow)
  · have hlast : lastCommitted log ("c", "k", 0) = some Vectors.reqA := hlast
    rw [hlast] at hr
    cases hr
    exact .inr hdata

end VmIo.Db
