import VmIo.Db.Steps

/-!
Invariants of the running store that several results share: where rows and
directories come from, which blobs a deletion leaves unreferenced, and the
discipline under which blob files hold what was committed.
-/

namespace VmIo.Db

open VmIo.Lib

/-- No committed chunk row references the blob. -/
def Store.Unreferenced (st : Store) (b : Digest) : Prop :=
  ∀ row ∈ st.sql.entryFileChunks.rows, row.blobId ≠ b

instance (st : Store) (b : Digest) : Decidable (st.Unreferenced b) :=
  inferInstanceAs (Decidable (∀ row ∈ _, _))

def Action.upload : Action → Option ChunkReq
  | .spawn (.upsertChunk r) => some r
  | _ => none

def Task.atStat : Task → Bool
  | .upsertChunk _ .stat => true
  | _ => false

/-- Only uploads of `P` are issued. -/
def UploadsIn (P : ChunkReq → Prop) (_ : Sys) (a : Action) : Prop := ∀ r ∈ a.upload, P r

instance (P : ChunkReq → Prop) [DecidablePred P] (s : Sys) (a : Action) :
    Decidable (UploadsIn P s a) :=
  inferInstanceAs (Decidable (∀ r ∈ a.upload, P r))

/-- The upload whose transaction an action lets commit. -/
def Sys.committing (s : Sys) : Action → Option ChunkReq
  | .step t .ok =>
      match s.tasks[t]? with
      | some (.upsertChunk r (.txn _)) =>
          if s.st.sql.hasEntry (r.cls, r.key) then some r else none
      | _ => none
  | _ => none

/-- SHA-256 does not collide on the data of these uploads, nor the blob id
derivation on their identities. -/
structure CollisionFree (db : VmIoDb) (P : ChunkReq → Prop) : Prop where
  sha256 : ∀ r r', P r → P r' → db.crypto.sha256 r.data = db.crypto.sha256 r'.data →
    r.data = r'.data
  hkdf : ∀ r r', P r → P r' →
    db.crypto.hkdf (db.chunkId r).frame db.blobKey infoId =
      db.crypto.hkdf (db.chunkId r').frame db.blobKey infoId →
    (db.chunkId r).frame = (db.chunkId r').frame

/-- Content addressing: uploads with one blob id are the same upload. -/
theorem CollisionFree.eq_of_blobId {db : VmIoDb} {P : ChunkReq → Prop} (hcf : CollisionFree db P)
    {r r' : ChunkReq} (hr : P r) (hr' : P r') (h : db.blobId r = db.blobId r') : r = r' := by
  have hframe := hcf.hkdf r r' hr hr' h
  have lt64 : ∀ {n : ℕ}, n < 2 ^ 63 → n < 2 ^ 64 := by omega
  have hid : db.chunkId r = db.chunkId r' :=
    ChunkId.frame_injective (lt64 r.cls_lt) (lt64 r.key_lt) (lt64 r'.cls_lt) (lt64 r'.key_lt) hframe
  simp only [VmIoDb.chunkId, ChunkId.mk.injEq] at hid
  obtain ⟨hcls, hkey, hidx, hhash, hfinal⟩ := hid
  have hdata := hcf.sha256 r r' hr hr' hhash
  cases r
  cases r'
  simp_all

theorem UpsertChunkStep.commits {db : VmIoDb} {st st' : Store} {r : ChunkReq} {wrote : Bool}
    {pc' : UpsertChunkPc} (h : UpsertChunkStep db st r (.txn wrote) .ok st' pc')
    (hfk : st.sql.hasEntry (r.cls, r.key)) :
    st'.fs = st.fs ∧ st'.sql.entryFileChunks = st.sql.entryFileChunks.put (db.row r) ∧
      ∃ prev, pc' = upsertChunkCommitted prev := by
  cases h with
  | commit wrote sql prev hsql =>
      obtain ⟨_, rfl, _⟩ := Sql.upsertChunk_ok hsql
      exact ⟨rfl, rfl, prev, rfl⟩
  | abort wrote c e hcause =>
      rcases hcause with hc | ⟨_, hno⟩
      · contradiction
      · rw [show (db.row r).entryKey = (r.cls, r.key) from rfl, hfk] at hno
        contradiction

theorem committing_eq_some_iff {s : Sys} {a : Action} {r : ChunkReq} :
    s.committing a = some r ↔ ∃ t wrote, a = .step t .ok ∧
      s.tasks[t]? = some (.upsertChunk r (.txn wrote)) ∧ s.st.sql.hasEntry (r.cls, r.key) := by
  constructor
  · intro h
    unfold Sys.committing at h
    split at h
    · rename_i t
      split at h
      · rename_i r₀ wrote htask
        split at h
        · rename_i hfk
          cases h
          exact ⟨t, wrote, rfl, htask, hfk⟩
        · contradiction
      · contradiction
    · contradiction
  · rintro ⟨t, wrote, rfl, htask, hfk⟩
    simp [Sys.committing, htask, hfk]

theorem step_committing {db : VmIoDb} {s s' : Sys} {a : Action} {r : ChunkReq}
    (hr : s.committing a = some r) (h : step db s a = some s') :
    ∃ t wrote task', CallStep db s t .ok s' (.upsertChunk r (.txn wrote)) task' ∧
      s'.st.fs = s.st.fs ∧
      s'.st.sql.entryFileChunks = s.st.sql.entryFileChunks.put (db.row r) := by
  obtain ⟨t, wrote, rfl, htask, hfk⟩ := committing_eq_some_iff.mp hr
  rcases step_cases h with ⟨t', c, task, task', heq, hcall⟩ | henv
  · cases heq
    have hhere := hcall.here
    rw [htask] at hhere
    cases hhere
    refine ⟨t, wrote, task', hcall, ?_⟩
    have hstep := hcall.step
    cases hstep with
    | upsertChunk hup => exact ⟨(hup.commits hfk).1, (hup.commits hfk).2.1⟩
  · exact absurd rfl (henv.unmoved t .ok)

theorem Store.Unreferenced.step {db : VmIoDb} {s s' : Sys} {a : Action} {b : Digest}
    (hb : s.st.Unreferenced b) (hok : ∀ r ∈ s.committing a, db.blobId r ≠ b)
    (h : step db s a = some s') : s'.st.Unreferenced b := by
  intro row hrow
  rcases step_cases h with ⟨t, c, task, task', rfl, hcall⟩ | henv
  · rcases hcall.step.mem_chunks hrow with hold | ⟨r, wrote, rfl, rfl, hfk, rfl⟩
    · exact hb row hold
    · exact hok r (committing_eq_some_iff.mpr ⟨t, wrote, rfl, hcall.here, hfk⟩)
  · exact hb row (henv.sql ▸ hrow)

/-! ### Where rows, uploads and directories come from -/

structure Provenance (db : VmIoDb) (P : ChunkReq → Prop) (s : Sys) : Prop where
  uploads : ∀ (t : ℕ) r pc, s.tasks[t]? = some (.upsertChunk r pc) → P r
  rows : ∀ row ∈ s.st.sql.entryFileChunks.rows, ∃ r, P r ∧ row = db.row r
  shallow : ∀ q, s.st.fs.isDir q → q.length ≤ db.rootDir.length + shardDepth

theorem VmIoDb.path_length (db : VmIoDb) (b : Digest) :
    (db.path b).length = db.rootDir.length + shardDepth + 1 := by
  simp [VmIoDb.path, idPath, shardDepth]

theorem provenance_init (db : VmIoDb) (P : ChunkReq → Prop) (now : Time) :
    Provenance db P (Sys.init db now) where
  uploads := by simp [Sys.init]
  rows := by simp [Sys.init, Sql.empty]
  shallow := by
    rintro q ⟨mtime, hq⟩
    simp only [Sys.init, Fs.init, Fs.node?, Table.find?_put, Table.find?_empty] at hq
    split at hq
    · rename_i hroot
      rw [← hroot]
      exact Nat.le_add_right _ _
    · contradiction

theorem TaskStep.upload {db : VmIoDb} {st st' : Store} {task : Task} {c : Choice} {r : ChunkReq}
    {pc' : UpsertChunkPc} (h : TaskStep db st task c st' (.upsertChunk r pc')) :
    ∃ pc, task = .upsertChunk r pc ∧ UpsertChunkStep db st r pc c st' pc' := by
  cases h with
  | upsertChunk h => exact ⟨_, rfl, h⟩

theorem provenance_step {db : VmIoDb} {P : ChunkReq → Prop} {s s' : Sys} {a : Action}
    (hinv : Provenance db P s) (hok : UploadsIn P s a) (h : step db s a = some s') :
    Provenance db P s' := by
  rcases step_cases h with ⟨t, c, task, task', rfl, hcall⟩ | henv
  · refine ⟨?_, ?_, ?_⟩
    · intro u r pc hu
      rcases hcall.task hu with ⟨rfl, rfl⟩ | ⟨_, hold⟩
      · obtain ⟨pc₀, rfl, _⟩ := hcall.step.upload
        exact hinv.uploads u r pc₀ hcall.here
      · exact hinv.uploads u r pc hold
    · intro row hrow
      rcases hcall.step.mem_chunks hrow with hold | ⟨r, wrote, rfl, _, _, rfl⟩
      · exact hinv.rows row hold
      · exact ⟨r, hinv.uploads t r _ hcall.here, rfl⟩
    · intro q hq
      rcases hcall.step.isDir hq with hold | ⟨b, hb⟩
      · exact hinv.shallow q hold
      · have hlen := (List.mem_inits _ _ |>.mp hb).length_le
        rw [List.length_dropLast, db.path_length] at hlen
        simpa using hlen
  · refine ⟨?_, henv.sql ▸ hinv.rows, henv.fs ▸ hinv.shallow⟩
    intro u r pc hu
    rcases henv.tasks u _ hu with hold | ⟨call, rfl, hcall⟩
    · exact hinv.uploads u r pc hold
    · cases call <;> cases hcall
      exact hok _ rfl

theorem provenance {db : VmIoDb} {P : ChunkReq → Prop} {now : Time} {ok : Sys → Action → Prop}
    (hok : ∀ s a, ok s a → UploadsIn P s a) {s : Sys}
    (h : Reach (step db) ok (Sys.init db now) s) : Provenance db P s :=
  h.invariant (provenance_init db P now)
    fun _ _ _ hinv ha hs => provenance_step hinv (hok _ _ ha) hs

theorem Provenance.not_isDir {db : VmIoDb} {P : ChunkReq → Prop} {s : Sys}
    (hinv : Provenance db P s) (b : Digest) : ¬s.st.fs.isDir (db.path b) := by
  intro hdir
  have := hinv.shallow _ hdir
  rw [db.path_length] at this
  omega

theorem Provenance.row_eq {db : VmIoDb} {P : ChunkReq → Prop} {s : Sys}
    (hinv : Provenance db P s) (hcf : CollisionFree db P) :
    ∀ row ∈ s.st.sql.entryFileChunks.rows, ∀ row' ∈ s.st.sql.entryFileChunks.rows,
      row.blobId = row'.blobId → row = row' := by
  intro row hrow row' hrow' h
  obtain ⟨r, hr, rfl⟩ := hinv.rows row hrow
  obtain ⟨r', hr', rfl⟩ := hinv.rows row' hrow'
  rw [hcf.eq_of_blobId hr hr' h]

/-! ### What a transaction leaves unreferenced -/

/-- The blob a chunk had before is not referenced once the chunk has another. -/
theorem Sql.prev_unreferenced {sql sql' : Sql} {row : ChunkRow} {prev : Digest}
    (hinj : ∀ c ∈ sql.entryFileChunks.rows, ∀ c' ∈ sql.entryFileChunks.rows,
      c.blobId = c'.blobId → c = c')
    (h : sql.upsertChunk row = .ok (sql', some prev)) :
    ∀ c ∈ sql'.entryFileChunks.rows, c.blobId ≠ prev := by
  obtain ⟨hfk, rfl, hprev⟩ := Sql.upsertChunk_ok h
  obtain ⟨hold, hne⟩ := Option.filter_eq_some_iff.mp hprev.symm
  obtain ⟨old, hfind, rfl⟩ := Option.map_eq_some_iff.mp hold
  obtain ⟨hmem, hpk⟩ := Table.find?_eq_some_iff.mp hfind
  intro c hc heq
  rcases Table.mem_put.mp hc with rfl | ⟨hc, hcpk⟩
  · simp [heq] at hne
  · rw [hinj c hc old hmem heq] at hcpk
    exact hcpk hpk

theorem Sql.deleted_unreferenced {sql : Sql} {p : String × String → Bool} {b : Digest}
    (hinj : ∀ c ∈ sql.entryFileChunks.rows, ∀ c' ∈ sql.entryFileChunks.rows,
      c.blobId = c'.blobId → c = c')
    (hb : b ∈ sql.blobIdsOf p) :
    ∀ c ∈ (sql.deleteEntries p).entryFileChunks.rows, c.blobId ≠ b := by
  obtain ⟨old, hold, hp, rfl⟩ := Sql.mem_blobIdsOf.mp hb
  intro c hc heq
  obtain ⟨hc, hkeep⟩ := Sql.mem_deleteEntries_chunks.mp hc
  rw [hinj c hc old hold heq, hp] at hkeep
  contradiction

theorem DeleteStep.pending {db : VmIoDb} {st st' : Store} {c : Choice} {ids ids' : List Digest}
    (hinj : ∀ c ∈ st.sql.entryFileChunks.rows, ∀ c' ∈ st.sql.entryFileChunks.rows,
      c.blobId = c'.blobId → c = c')
    (h : DeleteStep db st ids c st' ids') {b : Digest} (hb : b ∈ ids') :
    b ∈ ids ∨ st'.Unreferenced b := by
  cases h with
  | idle => exact .inl hb
  | txn p => exact .inr (Sql.deleted_unreferenced hinj hb)
  | remove b' => exact .inl (List.mem_cons_of_mem _ hb)
  | keep b' => exact .inl (List.mem_cons_of_mem _ hb)

/-- A blob becomes pending removal only when no row references it. -/
theorem TaskStep.pending {db : VmIoDb} {st st' : Store} {task task' : Task} {c : Choice}
    (hinj : ∀ c ∈ st.sql.entryFileChunks.rows, ∀ c' ∈ st.sql.entryFileChunks.rows,
      c.blobId = c'.blobId → c = c')
    (h : TaskStep db st task c st' task') {b : Digest} (hb : b ∈ task'.pending) :
    b ∈ task.pending ∨ st'.Unreferenced b := by
  cases h with
  | upsertChunk h =>
      cases h with
      | commit wrote sql prev h =>
          cases prev with
          | none => simp [Task.pending, upsertChunkCommitted] at hb
          | some prev =>
              simp only [Task.pending, upsertChunkCommitted, List.mem_singleton] at hb
              subst hb
              exact .inr (Sql.prev_unreferenced hinj h)
      | abort wrote c e h =>
          cases wrote <;> simp [Task.pending, upsertChunkFailed] at hb
      | _ => simp [Task.pending] at hb
  | rm h => exact h.pending hinj hb
  | pruneBacklog h => exact h.pending hinj hb
  | _ => simp [Task.pending] at hb

end VmIo.Db
