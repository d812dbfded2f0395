import VmIo.Db.CrashSafety

/-!
Rows and files in step.

Where no call overlaps another and nothing fails, every blob file belongs to a
committed row or is in the hands of the running call, which will commit it or
remove it (`Owned`). Between two calls the files are therefore those of the
committed rows and no others.
-/

namespace VmIo.Db

open VmIo.Lib

/-- No operation fails and the process does not die. A directory that cannot be
made leaves no file behind, so that is not asked for. -/
def NoFailure : Action → Prop
  | .step _ .fail => False
  | .crash => False
  | _ => True

instance (a : Action) : Decidable (NoFailure a) :=
  match a with
  | .step _ .fail => isFalse id
  | .step _ .ok => isTrue trivial
  | .step _ (.portion _) => isTrue trivial
  | .step _ (.listing _) => isTrue trivial
  | .crash => isFalse id
  | .spawn _ => isTrue trivial
  | .tick _ => isTrue trivial

def FailureFree (P : ChunkReq → Prop) (s : Sys) (a : Action) : Prop :=
  Sequential P s a ∧ NoFailure a

instance (P : ChunkReq → Prop) [DecidablePred P] (s : Sys) (a : Action) :
    Decidable (FailureFree P s a) :=
  inferInstanceAs (Decidable (_ ∧ _))

theorem Store.not_unreferenced {st : Store} {b : Digest} :
    ¬st.Unreferenced b ↔ ∃ row ∈ st.sql.entryFileChunks.rows, row.blobId = b := by
  simp [Store.Unreferenced]

/-! ### Checked sizes -/

def UpsertChunkPc.passed : UpsertChunkPc → Prop
  | .start => False
  | .done (.error _) => False
  | _ => True

theorem UpsertChunkStep.passes {db : VmIoDb} {st st' : Store} {r : ChunkReq}
    {pc pc' : UpsertChunkPc} {c : Choice} (h : UpsertChunkStep db st r pc c st' pc')
    (hpc : pc'.passed) : checkChunk r = .ok () ∨ pc.passed := by
  cases h with
  | refuse e h => exact absurd hpc id
  | check h => exact .inl h
  | _ => exact .inr trivial

structure Checked (db : VmIoDb) (s : Sys) : Prop where
  uploads : ∀ (t : ℕ) r pc, s.tasks[t]? = some (.upsertChunk r pc) → pc.passed →
    checkChunk r = .ok ()
  rows : ∀ row ∈ s.st.sql.entryFileChunks.rows, ∃ r, checkChunk r = .ok () ∧ row = db.row r

theorem checked_init (db : VmIoDb) (now : Time) : Checked db (Sys.init db now) where
  uploads := by simp [Sys.init]
  rows := by simp [Sys.init, Sql.empty]

theorem checked_step {db : VmIoDb} {s s' : Sys} {a : Action} (hinv : Checked db s)
    (h : step db s a = some s') : Checked db s' := by
  rcases step_cases h with ⟨t, c, task, task', rfl, hcall⟩ | henv
  · constructor
    · intro u r pc hu hpc
      rcases hcall.task hu with ⟨rfl, rfl⟩ | ⟨_, hold⟩
      · obtain ⟨pc₀, rfl, hstep⟩ := hcall.step.upload
        rcases hstep.passes hpc with hcheck | hpc₀
        · exact hcheck
        · exact hinv.uploads u r pc₀ hcall.here hpc₀
      · exact hinv.uploads u r pc hold hpc
    · intro row hrow
      rcases hcall.step.mem_chunks hrow with hold | ⟨r, wrote, rfl, _, _, rfl⟩
      · exact hinv.rows row hold
      · exact ⟨r, hinv.uploads t r _ hcall.here trivial, rfl⟩
  · refine ⟨fun u r pc hu hpc => ?_, henv.sql ▸ hinv.rows⟩
    rcases henv.tasks u _ hu with hold | ⟨call, _, hcall⟩
    · exact hinv.uploads u r pc hold hpc
    · cases call <;> cases hcall
      exact absurd hpc id

theorem checkChunk_length {r : ChunkReq} (h : checkChunk r = .ok ()) :
    (r.isFinal = false → r.data.length = chunkSize) ∧
      (r.isFinal = true → r.data.length ≤ chunkSize) := by
  unfold checkChunk at h
  split at h
  · contradiction
  · split at h
    · contradiction
    · rename_i hshort hlong
      exact ⟨fun hf => by_contra fun hne => hshort ⟨hf, hne⟩,
        fun hf => by_contra fun hlt => hlong ⟨hf, by omega⟩⟩

/-! ### Who owns a blob file -/

/-- The blobs whose files a running call is going to commit or to remove. -/
def Task.holds (db : VmIoDb) : Task → List Digest
  | .upsertChunk r (.write _ _) => [db.blobId r]
  | .upsertChunk r (.txn true) => [db.blobId r]
  | .upsertChunk r (.removeOwn _) => [db.blobId r]
  | task => task.pending

def Sys.Owned (db : VmIoDb) (s : Sys) (b : Digest) : Prop :=
  ¬s.st.Unreferenced b ∨ ∃ task ∈ s.tasks, b ∈ task.holds db

theorem Task.holds_of_finished {db : VmIoDb} {task : Task} (h : task.finished = true) :
    task.holds db = [] := by
  unfold Task.finished at h
  split at h
  all_goals first | rfl | contradiction

theorem DeleteStep.referenced {db : VmIoDb} {st st' : Store} {c : Choice} {ids ids' : List Digest}
    (h : DeleteStep db st ids c st' ids') {b : Digest} (hb : ¬st.Unreferenced b) :
    ¬st'.Unreferenced b ∨ b ∈ ids' := by
  rw [Store.not_unreferenced] at hb ⊢
  cases h with
  | txn p =>
      obtain ⟨row, hrow, rfl⟩ := hb
      cases hp : p row.entryKey with
      | true => exact .inr (Sql.mem_blobIdsOf.mpr ⟨row, hrow, hp, rfl⟩)
      | false => exact .inl ⟨row, Sql.mem_deleteEntries_chunks.mpr ⟨hrow, hp⟩, rfl⟩
  | remove b' => exact .inl (by rw [removeQuiet_sql]; exact hb)
  | _ => exact .inl hb

/-- A blob loses its row only to the call that returns it for removal. -/
theorem TaskStep.referenced {db : VmIoDb} {st st' : Store} {task task' : Task} {c : Choice}
    (h : TaskStep db st task c st' task') {b : Digest} (hb : ¬st.Unreferenced b) :
    ¬st'.Unreferenced b ∨ b ∈ task'.holds db := by
  cases h with
  | upsert h =>
      obtain ⟨hchunks, _, _⟩ := stepUpsert_frame h
      left
      simpa only [Store.Unreferenced, hchunks] using hb
  | upsertChunk h =>
      rename_i r pc pc'
      cases h with
      | commit wrote sql prev h =>
          obtain ⟨hfk, rfl, hprev⟩ := Sql.upsertChunk_ok h
          rw [Store.not_unreferenced] at hb ⊢
          obtain ⟨row, hrow, rfl⟩ := hb
          by_cases hpk : row.pk = (db.row r).pk
          · -- the row is replaced: its blob is kept or returned
            rw [Table.find?_eq_some_iff.mpr ⟨hrow, hpk⟩] at hprev
            by_cases hsame : row.blobId = (db.row r).blobId
            · exact .inl ⟨db.row r, Table.mem_put.mpr (.inl rfl), hsame.symm⟩
            · right
              have hprev : prev = some row.blobId := by
                rw [hprev, Option.map_some, Option.filter_some, if_pos (by simpa using hsame)]
              subst hprev
              simp [Task.holds, Task.pending, upsertChunkCommitted]
          · exact .inl ⟨row, Table.mem_put.mpr (.inr ⟨hrow, hpk⟩), rfl⟩
      | removeOwn => exact .inl (by simpa only [Store.Unreferenced, removeQuiet_sql] using hb)
      | removePrev => exact .inl (by simpa only [Store.Unreferenced, removeQuiet_sql] using hb)
      | _ => exact .inl hb
  | rm h => exact h.referenced hb
  | pruneBacklog h => exact h.referenced hb
  | cleanupDir h =>
      cases h with
      | remove => exact .inl (by simpa only [Store.Unreferenced, removeQuiet_sql] using hb)
      | removeDir => exact .inl (by simpa only [Store.Unreferenced, removeDirQuiet_sql] using hb)
      | _ => exact .inl hb
  | getChunk => exact .inl hb

theorem DeleteStep.releases {db : VmIoDb} {st st' : Store} {c : Choice} {ids ids' : List Digest}
    (h : DeleteStep db st ids c st' ids') (hc : c ≠ .fail) {b : Digest} (hb : b ∈ ids) :
    b ∈ ids' ∨ st'.fs.file? (db.path b) = none := by
  cases h with
  | idle => contradiction
  | txn => contradiction
  | remove b' =>
      rcases List.mem_cons.mp hb with rfl | hb
      · exact .inr (by rw [file?_removeQuiet, if_pos rfl])
      · exact .inl hb
  | keep => exact absurd rfl hc

/-- A call lets go of a blob by committing a row for it or removing its file. -/
theorem TaskStep.releases {db : VmIoDb} {st st' : Store} {task task' : Task} {c : Choice}
    (h : TaskStep db st task c st' task') (hc : c ≠ .fail) {b : Digest} (hb : b ∈ task.holds db) :
    b ∈ task'.holds db ∨ ¬st'.Unreferenced b ∨ st'.fs.file? (db.path b) = none := by
  cases h with
  | upsertChunk h =>
      rename_i r pc pc'
      cases h with
      | write => exact .inl hb
      | written => exact .inl hb
      | writeFailed => exact absurd rfl hc
      | commit wrote sql prev h =>
          cases wrote with
          | false => simp [Task.holds, Task.pending] at hb
          | true =>
              obtain ⟨hfk, rfl, _⟩ := Sql.upsertChunk_ok h
              have hb : b = db.blobId r := by simpa [Task.holds] using hb
              subst hb
              right; left
              rw [Store.not_unreferenced]
              exact ⟨db.row r, Table.mem_put.mpr (.inl rfl), rfl⟩
      | abort wrote =>
          cases wrote with
          | false => simp [Task.holds, Task.pending] at hb
          | true => exact .inl hb
      | removeOwn e =>
          have hb : b = db.blobId r := by simpa [Task.holds] using hb
          subst hb
          exact .inr (.inr (by rw [file?_removeQuiet, if_pos rfl]))
      | keepOwn => exact absurd rfl hc
      | removePrev prev =>
          have hb : b = prev := by simpa [Task.holds, Task.pending] using hb
          subst hb
          exact .inr (.inr (by rw [file?_removeQuiet, if_pos rfl]))
      | keepPrev => exact absurd rfl hc
      | _ => simp [Task.holds, Task.pending] at hb
  | rm h =>
      rcases h.releases hc hb with hold | hgone
      · exact .inl hold
      · exact .inr (.inr hgone)
  | pruneBacklog h =>
      rcases h.releases hc hb with hold | hgone
      · exact .inl hold
      · exact .inr (.inr hgone)
  | _ => simp [Task.holds, Task.pending] at hb

theorem TaskStep.new_file {db : VmIoDb} {st st' : Store} {task task' : Task} {c : Choice}
    (h : TaskStep db st task c st' task') {p : Path} {f : File} (hf : st'.fs.file? p = some f) :
    (∃ f, st.fs.file? p = some f) ∨
      ∃ r ino, task' = .upsertChunk r (.write ino 0) ∧ p = db.path (db.blobId r) := by
  have kept : ∀ q, (st.removeQuiet q).fs.file? p = some f → ∃ f, st.fs.file? p = some f := by
    intro q hq
    rw [file?_removeQuiet] at hq
    split at hq
    · contradiction
    · exact ⟨f, hq⟩
  have deleted : ∀ {ids ids' : List Digest}, DeleteStep db st ids c st' ids' →
      ∃ f, st.fs.file? p = some f := by
    intro ids ids' h
    cases h with
    | remove b => exact kept _ hf
    | _ => exact ⟨f, hf⟩
  cases h with
  | upsert h =>
      obtain ⟨_, hfs, _⟩ := stepUpsert_frame h
      exact .inl ⟨f, hfs ▸ hf⟩
  | upsertChunk h =>
      rename_i r pc pc'
      cases h with
      | mkdir i fs h => exact .inl ⟨f, by rw [← Fs.file?_createDirs h]; exact hf⟩
      | mkdirFailed i n fs e h => exact .inl ⟨f, by rw [← Fs.file?_createDirs h]; exact hf⟩
      | create i fs ino h =>
          have hf : fs.file? p = some f := hf
          rw [Fs.file?_create h] at hf
          split at hf
          · rename_i hp
            exact .inr ⟨r, ino, rfl, hp.symm⟩
          · exact .inl ⟨f, hf⟩
      | write ino off n hn hoff =>
          rw [Fs.file?_writeAt] at hf
          split at hf
          · rename_i hp
            obtain ⟨g, hg, _⟩ := Option.map_eq_some_iff.mp hf
            exact .inl ⟨g, hp ▸ hg⟩
          · exact .inl ⟨f, hf⟩
      | removeOwn e => exact .inl (kept _ hf)
      | removePrev prev => exact .inl (kept _ hf)
      | _ => exact .inl ⟨f, hf⟩
  | rm h => exact .inl (deleted h)
  | pruneBacklog h => exact .inl (deleted h)
  | cleanupDir h =>
      cases h with
      | remove => exact .inl (kept _ hf)
      | removeDir cutoff dir => exact .inl ⟨f, by rw [← file?_removeDirQuiet]; exact hf⟩
      | _ => exact .inl ⟨f, hf⟩
  | getChunk => exact .inl ⟨f, hf⟩

/-- Every file is a blob file somebody owns. -/
def AllOwned (db : VmIoDb) (s : Sys) : Prop :=
  ∀ p f, s.st.fs.file? p = some f → ∃ b, p = db.path b ∧ s.Owned db b

theorem allOwned_init (db : VmIoDb) (now : Time) : AllOwned db (Sys.init db now) := by
  intro p f hf
  rw [Fs.file?_eq_some_iff] at hf
  simp only [Sys.init, Fs.init, Fs.node?, Table.find?_put, Table.find?_empty] at hf
  split at hf <;> simp at hf

theorem allOwned_step {db : VmIoDb} {s s' : Sys} {a : Action} (hinv : AllOwned db s)
    (hok : NoFailure a) (h : step db s a = some s') : AllOwned db s' := by
  intro p f hf
  rcases step_cases h with ⟨t, c, task, task', rfl, hcall⟩ | henv
  · have hmem := hcall.mem_moved
    rcases hcall.step.new_file hf with ⟨g, hg⟩ | ⟨r, ino, rfl, rfl⟩
    · obtain ⟨b, rfl, howned⟩ := hinv p g hg
      refine ⟨b, rfl, ?_⟩
      have hc : c ≠ .fail := by
        rintro rfl
        exact hok
      -- a blob passes from a row to the call that removes it, or from a call to its row
      rcases howned with href | ⟨holder, hholder, hb⟩
      · rcases hcall.step.referenced href with href | hheld
        · exact .inl href
        · exact .inr ⟨task', hmem, hheld⟩
      · by_cases hmoved : holder = task
        · subst hmoved
          rcases hcall.step.releases hc hb with hheld | href | hgone
          · exact .inr ⟨task', hmem, hheld⟩
          · exact .inl href
          · rw [hf] at hgone
            contradiction
        · exact .inr ⟨holder, hcall.mem_still hholder hmoved, hb⟩
    · exact ⟨db.blobId r, rfl, .inr ⟨_, hmem, by simp [Task.holds]⟩⟩
  · rw [henv.fs] at hf
    obtain ⟨b, rfl, howned⟩ := hinv p f hf
    refine ⟨b, rfl, ?_⟩
    rcases howned with href | ⟨holder, hholder, hb⟩
    · left
      simpa only [Store.Unreferenced, henv.sql] using href
    · right
      have hlive : a ≠ .crash := by
        rintro rfl
        exact hok
      obtain ⟨issued, _, htasks⟩ := henv.kept h hlive
      exact ⟨holder, by rw [htasks]; exact List.mem_append_left _ hholder, hb⟩

/-- In every failure-free sequential run each chunk row belongs to an entry, is
stored under the blob id that a lookup recomputes, shares it with no other row
and is of the size its finality asks for. Between two calls the files on disk
are exactly those of the chunk rows, at their sizes. -/
theorem no_leak {db : VmIoDb} {P : ChunkReq → Prop} (hcf : CollisionFree db P) {now : Time}
    {s : Sys} (h : Reach (step db) (FailureFree P) (Sys.init db now) s) :
    (∀ row ∈ s.st.sql.entryFileChunks.rows,
      (∃ e ∈ s.st.sql.entries.rows, e.pk = row.entryKey) ∧
      row.blobId =
        genId db.crypto ⟨row.cls, row.key, row.idx, row.hash, row.isFinal⟩ db.blobKey ∧
      (row.isFinal = false → row.size = chunkSize) ∧
      (row.isFinal = true → row.size ≤ chunkSize)) ∧
    (∀ row ∈ s.st.sql.entryFileChunks.rows, ∀ row' ∈ s.st.sql.entryFileChunks.rows,
      row.blobId = row'.blobId → row = row') ∧
    ((∀ task ∈ s.tasks, task.finished = true) →
      {p | ∃ f, s.st.fs.file? p = some f} =
        {p | ∃ row ∈ s.st.sql.entryFileChunks.rows, p = db.path row.blobId} ∧
      ∀ row ∈ s.st.sql.entryFileChunks.rows,
        ∃ f, s.st.fs.file? (db.path row.blobId) = some f ∧ (f.data.length : ℤ) = row.size) := by
  obtain ⟨log, hlog⟩ := Reach.exists_observe recordCommit [] (h.mono fun _ _ hok => hok.1)
  obtain ⟨hprov, hfiles, _⟩ := seqReach_invariants hcf hlog
  have hchecked := h.invariant (checked_init db now) fun _ _ _ hinv _ hs => checked_step hinv hs
  have howned := h.invariant (allOwned_init db now)
    fun _ _ _ hinv hok hs => allOwned_step hinv hok.2 hs
  refine ⟨fun row hrow => ?_, hprov.row_eq hcf, fun hidle => ?_⟩
  · obtain ⟨r, hcheck, rfl⟩ := hchecked.rows row hrow
    obtain ⟨hshort, hlong⟩ := checkChunk_length hcheck
    refine ⟨s.st.sql.foreign_key _ hrow, rfl, fun hfinal => ?_, fun hfinal => ?_⟩
    · show ((db.cipher r).length : ℤ) = chunkSize
      rw [db.cipher_length, hshort hfinal]
    · show ((db.cipher r).length : ℤ) ≤ chunkSize
      rw [db.cipher_length]
      exact_mod_cast hlong hfinal
  · have hthere : ∀ row ∈ s.st.sql.entryFileChunks.rows,
        ∃ f, s.st.fs.file? (db.path row.blobId) = some f ∧ (f.data.length : ℤ) = row.size := by
      intro row hrow
      obtain ⟨r, hr, rfl⟩ := hprov.rows row hrow
      obtain ⟨f, hf, hdata⟩ := hfiles.committed r hr fun hfree => hfree _ hrow rfl
      exact ⟨f, hf, by rw [hdata]; rfl⟩
    refine ⟨?_, hthere⟩
    ext p
    constructor
    · rintro ⟨f, hf⟩
      obtain ⟨b, rfl, href | ⟨task, htask, hheld⟩⟩ := howned p f hf
      · obtain ⟨row, hrow, rfl⟩ := Store.not_unreferenced.mp href
        exact ⟨row, hrow, rfl⟩
      · rw [Task.holds_of_finished (hidle task htask)] at hheld
        contradiction
    · rintro ⟨row, hrow, rfl⟩
      obtain ⟨f, hf, _⟩ := hthere row hrow
      exact ⟨f, hf⟩

/-- A chunk is committed, then replaced, and the first file is gone. -/
theorem no_leak_replaced :
    ∃ s, Reach (step Vectors.db) (FailureFree Vectors.uploads) (Sys.init Vectors.db 0) s ∧
      s.st.sql.entryFileChunks.rows = [Vectors.db.row Vectors.reqB] ∧
      {p | ∃ f, s.st.fs.file? p = some f} =
        {p | ∃ row ∈ s.st.sql.entryFileChunks.rows, p = Vectors.db.path row.blobId} := by
  obtain ⟨s, hreach, hrows, hidle⟩ := Reach.exists_of_runOk
    (step Vectors.db) (FailureFree Vectors.uploads) (Sys.init Vectors.db 0)
    (Vectors.putEntry 0 ++ .spawn (.upsertChunk Vectors.reqA) :: Vectors.writeSteps 1 ++
      .step 1 .ok :: .spawn (.upsertChunk Vectors.reqB) :: Vectors.writeSteps 2 ++
      [.step 2 .ok, .step 2 .ok])
    (fun s => s.st.sql.entryFileChunks.rows = [Vectors.db.row Vectors.reqB] ∧
      ∀ task ∈ s.tasks, task.finished = true) (by decide +kernel)
  exact ⟨s, hreach, hrows, ((no_leak Vectors.collisionFree hreach).2.2 hidle).1⟩

end VmIo.Db
