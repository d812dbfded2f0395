import VmIo.Db.Store

/-!
What one step of a call can do.

`UpsertChunkStep`, `DeleteStep` and `CleanupStep` invert the step functions
once. Every invariant is proved by cases on them, and what all calls have in
common (which rows appear, which files change) is drawn from them here.
-/

namespace VmIo.Db

open VmIo.Lib

/-- Every path leads to the file it led to. -/
def Store.SameFiles (st st' : Store) : Prop := ∀ p, st'.fs.file? p = st.fs.file? p

theorem Store.SameFiles.refl (st : Store) : st.SameFiles st := fun _ => rfl

/-! ### `upsert` and `get_chunk` -/

theorem stepUpsert_frame {st st' : Store} {row : EntryRow} {pc pc' : UpsertPc} {c : Choice}
    (h : stepUpsert st row pc c = some (st', pc')) :
    st'.sql.entryFileChunks = st.sql.entryFileChunks ∧ st'.fs = st.fs ∧ st'.now = st.now := by
  unfold stepUpsert at h
  split at h
  · split at h <;> cases h <;> exact ⟨rfl, rfl, rfl⟩
  · split at h
    · rename_i hup
      cases h
      exact ⟨Sql.upsert_chunks hup, rfl, rfl⟩
    · cases h
      exact ⟨rfl, rfl, rfl⟩
  · cases h
    exact ⟨rfl, rfl, rfl⟩
  · contradiction

theorem stepUpsert_entries {st st' : Store} {row : EntryRow} {pc pc' : UpsertPc} {c : Choice}
    (h : stepUpsert st row pc c = some (st', pc')) :
    st'.sql.entries = st.sql.entries ∨
      ¬st.sql.ModifiedTaken row ∧ st'.sql.entries = st.sql.entries.put row := by
  unfold stepUpsert at h
  split at h
  · split at h <;> cases h <;> exact .inl rfl
  · split at h
    · rename_i hup
      cases h
      rcases Sql.upsert_cases hup with ⟨hfree, _, heq⟩ | ⟨_, heq⟩ | ⟨_, _, heq⟩
      · cases heq
        exact .inr ⟨hfree, rfl⟩
      · cases heq
        exact .inl rfl
      · contradiction
    · cases h
      exact .inl rfl
  · cases h
    exact .inl rfl
  · contradiction

theorem stepGetChunk_frame {db : VmIoDb} {st st' : Store} {cls key : String} {idx : Int64}
    {isFinal : Bool} {pc pc' : GetChunkPc} {c : Choice}
    (h : stepGetChunk db st cls key idx isFinal pc c = some (st', pc')) : st' = st := by
  unfold stepGetChunk at h
  split at h
  · split at h <;> cases h <;> rfl
  · cases h
    rfl
  · cases h
    rfl
  · cases h
    rfl
  · contradiction

/-! ### `upsert_chunk` -/

inductive UpsertChunkStep (db : VmIoDb) (st : Store) (r : ChunkReq) :
    UpsertChunkPc → Choice → Store → UpsertChunkPc → Prop
  | refuse (e : IoError) (h : checkChunk r = .error e) :
      UpsertChunkStep db st r .start .ok st (.done (.error e))
  | check (h : checkChunk r = .ok ()) : UpsertChunkStep db st r .start .ok st .stat
  | skip (info : Meta) (h : st.fs.metadata (db.path (db.blobId r)) = .ok info)
      (hlen : info.len = (db.cipher r).length) :
      UpsertChunkStep db st r .stat .ok st (.txn false)
  | miss (c : Choice)
      (h : c = .fail ∨ c = .ok ∧ ∀ info, st.fs.metadata (db.path (db.blobId r)) = .ok info →
        info.len ≠ (db.cipher r).length) :
      UpsertChunkStep db st r .stat c st (.mkdir 0)
  | mkdir (i : ℕ) (fs : Fs)
      (h : st.fs.createDirAll (db.path (db.blobId r)).dropLast st.now = .ok fs) :
      UpsertChunkStep db st r (.mkdir i) .ok { st with fs := fs } (.create i)
  | mkdirFailed (i n : ℕ) (fs : Fs) (e : IoError)
      (h : st.fs.createDirs ((db.path (db.blobId r)).dropLast.inits.take n) st.now = .ok fs) :
      UpsertChunkStep db st r (.mkdir i) (.portion n) { st with fs := fs } (.done (.error e))
  | mkdirRefused (i : ℕ) (c : Choice) (e : IoError) :
      UpsertChunkStep db st r (.mkdir i) c st (.done (.error e))
  | create (i : ℕ) (fs : Fs) (ino : ℕ)
      (h : st.fs.create (db.path (db.blobId r)) st.now = .ok (fs, ino)) :
      UpsertChunkStep db st r (.create i) .ok { st with fs := fs } (.write ino 0)
  | retry (i : ℕ) : UpsertChunkStep db st r (.create i) .ok st (.mkdir (i + 1))
  | createRefused (i : ℕ) (c : Choice) (e : IoError) :
      UpsertChunkStep db st r (.create i) c st (.done (.error e))
  | write (ino off n : ℕ) (hn : 0 < n) (hoff : off + n ≤ (db.cipher r).length) :
      UpsertChunkStep db st r (.write ino off) (.portion n)
        { st with
          fs := st.fs.writeAt (db.path (db.blobId r)) ino off
            (((db.cipher r).drop off).take n) st.now }
        (.write ino (off + n))
  | written (ino : ℕ) :
      UpsertChunkStep db st r (.write ino (db.cipher r).length) .ok st (.txn true)
  | writeFailed (ino off : ℕ) (e : IoError) :
      UpsertChunkStep db st r (.write ino off) .fail st (.done (.error e))
  | commit (wrote : Bool) (sql : Sql) (prev : Option Digest)
      (h : st.sql.upsertChunk (db.row r) = .ok (sql, prev)) :
      UpsertChunkStep db st r (.txn wrote) .ok { st with sql := sql }
        (upsertChunkCommitted prev)
  | abort (wrote : Bool) (c : Choice) (e : SqlError)
      (h : c = .fail ∨ c = .ok ∧ st.sql.hasEntry (db.row r).entryKey = false) :
      UpsertChunkStep db st r (.txn wrote) c st (upsertChunkFailed wrote e)
  | removeOwn (e : IoError) :
      UpsertChunkStep db st r (.removeOwn e) .ok (st.removeQuiet (db.path (db.blobId r)))
        (.done (.error e))
  | keepOwn (e : IoError) : UpsertChunkStep db st r (.removeOwn e) .fail st (.done (.error e))
  | removePrev (prev : Digest) :
      UpsertChunkStep db st r (.removePrev prev) .ok (st.removeQuiet (db.path prev))
        (.done (.ok ()))
  | keepPrev (prev : Digest) : UpsertChunkStep db st r (.removePrev prev) .fail st (.done (.ok ()))

theorem stepUpsertChunk_cases {db : VmIoDb} {st st' : Store} {r : ChunkReq}
    {pc pc' : UpsertChunkPc} {c : Choice}
    (h : stepUpsertChunk db st r pc c = some (st', pc')) :
    UpsertChunkStep db st r pc c st' pc' := by
  cases pc with
  | start =>
      cases c <;> simp only [stepUpsertChunk, reduceCtorEq] at h
      split at h <;> cases h
      · exact .refuse _ ‹_›
      · exact .check ‹_›
  | stat =>
      cases c <;> simp only [stepUpsertChunk, reduceCtorEq] at h
      · split at h
        · rename_i info hinfo
          split at h <;> cases h
          · exact .skip info hinfo ‹_›
          · refine .miss .ok (.inr ⟨rfl, fun info' hinfo' => ?_⟩)
            rw [hinfo] at hinfo'
            cases hinfo'
            assumption
        · rename_i e hnone
          cases h
          refine .miss .ok (.inr ⟨rfl, fun info hinfo => ?_⟩)
          rw [hnone] at hinfo
          contradiction
      · cases h
        exact .miss .fail (.inl rfl)
  | mkdir i =>
      cases c <;> simp only [stepUpsertChunk, reduceCtorEq] at h
      · split at h <;> cases h
        · exact .mkdir _ _ ‹_›
        · exact .mkdirRefused _ _ _
      · split at h <;> cases h
        · exact .mkdirFailed _ _ _ _ ‹_›
        · exact .mkdirRefused _ _ _
  | create i =>
      cases c <;> simp only [stepUpsertChunk, reduceCtorEq] at h
      · split at h
        · cases h
          exact .create _ _ _ ‹_›
        · split at h <;> cases h
          · exact .retry _
          · exact .createRefused _ _ _
        · cases h
          exact .createRefused _ _ _
      · cases h
        exact .createRefused _ _ _
  | write ino off =>
      cases c <;> simp only [stepUpsertChunk, reduceCtorEq] at h
      · split at h
        · rename_i hoff
          cases h
          rw [hoff]
          exact .written _
        · contradiction
      · cases h
        exact .writeFailed _ _ _
      · split at h
        · rename_i hn
          cases h
          exact .write _ _ _ hn.1 hn.2
        · contradiction
  | txn wrote =>
      cases c <;> simp only [stepUpsertChunk, reduceCtorEq] at h
      · split at h <;> cases h
        · exact .commit _ _ _ ‹_›
        · rename_i herr
          refine .abort _ _ _ (.inr ⟨rfl, ?_⟩)
          unfold Sql.upsertChunk at herr
          split at herr
          · contradiction
          · rename_i hfk
            exact eq_false_of_ne_true hfk
      · cases h
        exact .abort _ _ _ (.inl rfl)
  | removeOwn e =>
      cases c <;> simp only [stepUpsertChunk, reduceCtorEq] at h <;> cases h
      · exact .removeOwn _
      · exact .keepOwn _
  | removePrev prev =>
      cases c <;> simp only [stepUpsertChunk, reduceCtorEq] at h <;> cases h
      · exact .removePrev _
      · exact .keepPrev _
  | done res => cases c <;> simp only [stepUpsertChunk, reduceCtorEq] at h

/-! ### `rm` and `prune_backlog` -/

/-- What a step of a deleting call does to the store and to the ids of the
blobs its committed transactions returned and that it has yet to remove. -/
inductive DeleteStep (db : VmIoDb) (st : Store) :
    List Digest → Choice → Store → List Digest → Prop
  | idle (c : Choice) : DeleteStep db st [] c st []
  | txn (p : String × String → Bool) :
      DeleteStep db st [] .ok { st with sql := st.sql.deleteEntries p } (st.sql.blobIdsOf p)
  | remove (b : Digest) (ids : List Digest) :
      DeleteStep db st (b :: ids) .ok (st.removeQuiet (db.path b)) ids
  | keep (b : Digest) (ids : List Digest) : DeleteStep db st (b :: ids) .fail st ids

def RmPc.pending : RmPc → List Digest
  | .removing ids => ids
  | _ => []

def PrunePc.pending : PrunePc → List Digest
  | .removing _ ids => ids
  | _ => []

theorem stepRm_cases {db : VmIoDb} {st st' : Store} {cls key : String} {pc pc' : RmPc}
    {c : Choice} (h : stepRm db st cls key pc c = some (st', pc')) :
    DeleteStep db st pc.pending c st' pc'.pending := by
  unfold stepRm at h
  split at h
  · cases h
    exact .txn _
  · cases h
    exact .idle _
  · cases h
    exact .remove _ _
  · cases h
    exact .keep _ _
  · cases h
    exact .idle _
  · contradiction

theorem stepPrune_cases {db : VmIoDb} {st st' : Store} {pc pc' : PrunePc} {c : Choice}
    (h : stepPrune db st pc c = some (st', pc')) :
    DeleteStep db st pc.pending c st' pc'.pending := by
  unfold stepPrune at h
  split at h
  · cases h
    exact .idle _
  · cases h
    exact .idle _
  · cases h
    exact .txn _
  · cases h
    exact .idle _
  · cases h
    exact .remove _ _
  · cases h
    exact .keep _ _
  · split at h <;> cases h <;> exact .idle _
  · contradiction

/-! ### `cleanup_dir` -/

def CleanupPc.cutoff : CleanupPc → Option Time
  | .start => none
  | .readDir cutoff .. => some cutoff
  | .next cutoff _ => some cutoff
  | .stat cutoff .. => some cutoff
  | .query cutoff .. => some cutoff
  | .remove cutoff .. => some cutoff
  | .removeDir cutoff .. => some cutoff
  | .done _ => none

/-- The blob the pass is about to ask for, with the modification time it read. -/
def CleanupPc.asking : CleanupPc → Option (Digest × Time)
  | .query _ id mtime _ => some (id, mtime)
  | _ => none

/-- The blob the pass is about to remove. -/
def CleanupPc.victim : CleanupPc → Option Digest
  | .remove _ id _ => some id
  | _ => none

inductive CleanupStep (db : VmIoDb) (st : Store) :
    CleanupPc → Choice → Store → CleanupPc → Prop
  | start : CleanupStep db st .start .ok st
      (.readDir (st.now - cleanupGrace) db.rootDir 0 false [])
  | walk (pc pc' : CleanupPc) (c : Choice) (h : pc'.cutoff = pc.cutoff ∨ pc'.cutoff = none)
      (hask : pc'.asking = none) (hvictim : pc'.victim = none) : CleanupStep db st pc c st pc'
  | judge (cutoff : Time) (name : String) (frame : Frame) (stack : List Frame) (id : Digest)
      (info : Meta) (h : st.fs.metadata (db.path id) = .ok info) (hold : info.mtime ≤ cutoff) :
      CleanupStep db st (.stat cutoff name (frame :: stack)) .ok st
        (.query cutoff id info.mtime (frame :: stack))
  | ask (cutoff : Time) (id : Digest) (mtime : Time) (stack : List Frame)
      (h : st.sql.blobIdExists id = false) :
      CleanupStep db st (.query cutoff id mtime stack) .ok st (.remove cutoff id stack)
  | remove (cutoff : Time) (id : Digest) (stack : List Frame) :
      CleanupStep db st (.remove cutoff id stack) .ok (st.removeQuiet (db.path id))
        (.next cutoff stack)
  | removeDir (cutoff : Time) (dir : Path) (stack : List Frame) :
      CleanupStep db st (.removeDir cutoff dir stack) .ok (st.removeDirQuiet dir)
        (.next cutoff stack)

theorem cleanupItem_cases (db : VmIoDb) (cutoff : Time) (name : String) (frame : Frame)
    (stack : List Frame) (info : Meta) :
    (∃ id, db.path id = frame.dir ++ [name] ∧ info.mtime ≤ cutoff ∧
      cleanupItem db cutoff name frame stack info = .query cutoff id info.mtime (frame :: stack)) ∨
    ((cleanupItem db cutoff name frame stack info).cutoff = some cutoff ∧
      (cleanupItem db cutoff name frame stack info).asking = none ∧
      (cleanupItem db cutoff name frame stack info).victim = none) := by
  unfold cleanupItem
  by_cases hdir : info.isDir
  · simp only [hdir, if_true]
    split <;> exact .inr ⟨rfl, rfl, rfl⟩
  simp only [hdir, Bool.false_eq_true, if_false, decide_eq_true_eq]
  by_cases hstale : frame.depth = shardDepth ∧ info.mtime ≤ cutoff
  · simp only [hstale, and_self, if_true]
    cases parseName name with
    | none => exact .inr ⟨rfl, rfl, rfl⟩
    | some id =>
        by_cases hpath : db.path id = frame.dir ++ [name]
        · exact .inl ⟨id, hpath, trivial, by simp [hpath]⟩
        · simp only [ne_eq, hpath, not_false_eq_true, if_true]
          exact .inr ⟨rfl, rfl, rfl⟩
  · rw [if_neg hstale]
    exact .inr ⟨rfl, rfl, rfl⟩

theorem stepCleanup_cases {db : VmIoDb} {st st' : Store} {pc pc' : CleanupPc} {c : Choice}
    (h : stepCleanup db st pc c = some (st', pc')) : CleanupStep db st pc c st' pc' := by
  cases pc with
  | start =>
      cases c <;> simp only [stepCleanup, reduceCtorEq] at h
      cases h
      exact .start
  | readDir cutoff dir depth stale stack =>
      cases c <;> simp only [stepCleanup, reduceCtorEq] at h
      · cases h
        exact .walk _ _ _ (.inr rfl) rfl rfl
      · split at h
        · split at h
          · cases h
            exact .walk _ _ _ (.inl rfl) rfl rfl
          · contradiction
        · cases h
          exact .walk _ _ _ (.inr rfl) rfl rfl
  | next cutoff stack =>
      rcases stack with _ | ⟨⟨dir, depth, stale, todo⟩, stack⟩
      · cases c <;> simp only [stepCleanup, reduceCtorEq] at h
        cases h
        exact .walk _ _ _ (.inr rfl) rfl rfl
      · cases todo <;> cases c <;> simp only [stepCleanup, reduceCtorEq] at h
        · split at h
          · cases h
            exact .walk _ _ _ (.inr rfl) rfl rfl
          · split at h <;> cases h <;> exact .walk _ _ _ (.inl rfl) rfl rfl
        all_goals
          cases h
          first
            | exact .walk _ _ _ (.inl rfl) rfl rfl
            | exact .walk _ _ _ (.inr rfl) rfl rfl
  | stat cutoff name stack =>
      cases stack with
      | nil =>
          cases c <;> simp only [stepCleanup, reduceCtorEq] at h
          cases h
          exact .walk _ _ _ (.inl rfl) rfl rfl
      | cons frame stack =>
          cases c <;> simp only [stepCleanup, reduceCtorEq] at h
          · split at h <;> cases h
            · rename_i info hinfo
              rcases cleanupItem_cases db cutoff name frame stack info with
                ⟨id, hpath, hold, heq⟩ | ⟨hcut, hask, hvictim⟩
              · rw [heq]
                rw [← hpath] at hinfo
                exact .judge _ _ _ _ _ _ hinfo hold
              · exact .walk _ _ _ (.inl hcut) hask hvictim
            · exact .walk _ _ _ (.inl rfl) rfl rfl
          · cases h
            exact .walk _ _ _ (.inl rfl) rfl rfl
  | query cutoff id mtime stack =>
      cases c <;> simp only [stepCleanup, reduceCtorEq] at h
      · split at h <;> cases h
        · exact .walk _ _ _ (.inl rfl) rfl rfl
        · rename_i hfree
          exact .ask _ _ _ _ (eq_false_of_ne_true hfree)
      · cases h
        exact .walk _ _ _ (.inr rfl) rfl rfl
  | remove cutoff id stack =>
      cases c <;> simp only [stepCleanup, reduceCtorEq] at h <;> cases h
      · exact .remove _ _ _
      · exact .walk _ _ _ (.inl rfl) rfl rfl
  | removeDir cutoff dir stack =>
      cases c <;> simp only [stepCleanup, reduceCtorEq] at h <;> cases h
      · exact .removeDir _ _ _
      · exact .walk _ _ _ (.inl rfl) rfl rfl
  | done res => cases c <;> simp only [stepCleanup, reduceCtorEq] at h

/-! ### Any call -/

inductive TaskStep (db : VmIoDb) (st : Store) : Task → Choice → Store → Task → Prop
  | upsert {row : EntryRow} {pc pc' : UpsertPc} {c : Choice} {st' : Store}
      (h : stepUpsert st row pc c = some (st', pc')) :
      TaskStep db st (.upsert row pc) c st' (.upsert row pc')
  | upsertChunk {r : ChunkReq} {pc pc' : UpsertChunkPc} {c : Choice} {st' : Store}
      (h : UpsertChunkStep db st r pc c st' pc') :
      TaskStep db st (.upsertChunk r pc) c st' (.upsertChunk r pc')
  | rm {cls key : String} {pc pc' : RmPc} {c : Choice} {st' : Store}
      (h : DeleteStep db st pc.pending c st' pc'.pending) :
      TaskStep db st (.rm cls key pc) c st' (.rm cls key pc')
  | pruneBacklog {pc pc' : PrunePc} {c : Choice} {st' : Store}
      (h : DeleteStep db st pc.pending c st' pc'.pending) :
      TaskStep db st (.pruneBacklog pc) c st' (.pruneBacklog pc')
  | cleanupDir {pc pc' : CleanupPc} {c : Choice} {st' : Store}
      (h : CleanupStep db st pc c st' pc') :
      TaskStep db st (.cleanupDir pc) c st' (.cleanupDir pc')
  | getChunk {cls key : String} {idx : Int64} {isFinal : Bool} {pc pc' : GetChunkPc}
      {c : Choice} : TaskStep db st (.getChunk cls key idx isFinal pc) c st
        (.getChunk cls key idx isFinal pc')

theorem stepTask_cases {db : VmIoDb} {st st' : Store} {task task' : Task} {c : Choice}
    (h : stepTask db st task c = some (st', task')) : TaskStep db st task c st' task' := by
  cases task <;> simp only [stepTask, Option.map_eq_some_iff] at h <;>
    obtain ⟨⟨st₁, pc'⟩, h, heq⟩ := h <;> cases heq
  case upsert => exact .upsert h
  case upsertChunk => exact .upsertChunk (stepUpsertChunk_cases h)
  case rm => exact .rm (stepRm_cases h)
  case pruneBacklog => exact .pruneBacklog (stepPrune_cases h)
  case cleanupDir => exact .cleanupDir (stepCleanup_cases h)
  case getChunk =>
    rw [show st₁ = st from stepGetChunk_frame h]
    exact .getChunk

theorem unfinished_of_step {db : VmIoDb} {st : Store} {task : Task} {c : Choice}
    {res : Store × Task} (h : stepTask db st task c = some res) : task.finished = false := by
  unfold Task.finished
  split
  all_goals
    first
      | rfl
      | cases c <;> simp only [stepTask, stepUpsert, stepUpsertChunk, stepRm, stepPrune,
          stepCleanup, stepGetChunk, Option.map_none, reduceCtorEq] at h

@[simp] theorem removeQuiet_sql (st : Store) (p : Path) : (st.removeQuiet p).sql = st.sql := by
  unfold Store.removeQuiet
  split <;> rfl

@[simp] theorem removeQuiet_now (st : Store) (p : Path) : (st.removeQuiet p).now = st.now := by
  unfold Store.removeQuiet
  split <;> rfl

@[simp] theorem removeDirQuiet_sql (st : Store) (p : Path) :
    (st.removeDirQuiet p).sql = st.sql := by
  unfold Store.removeDirQuiet
  split <;> rfl

@[simp] theorem removeDirQuiet_now (st : Store) (p : Path) :
    (st.removeDirQuiet p).now = st.now := by
  unfold Store.removeDirQuiet
  split <;> rfl

theorem UpsertChunkStep.sql {db : VmIoDb} {st st' : Store} {r : ChunkReq} {pc pc' : UpsertChunkPc}
    {c : Choice} (h : UpsertChunkStep db st r pc c st' pc') :
    st'.sql = st.sql ∨ ∃ wrote prev, pc = .txn wrote ∧ c = .ok ∧
      pc' = upsertChunkCommitted prev ∧ st'.fs = st.fs ∧
      st.sql.upsertChunk (db.row r) = .ok (st'.sql, prev) := by
  cases h with
  | commit wrote sql prev h => exact .inr ⟨wrote, prev, rfl, rfl, rfl, rfl, h⟩
  | removeOwn => exact .inl (removeQuiet_sql _ _)
  | removePrev => exact .inl (removeQuiet_sql _ _)
  | _ => exact .inl rfl

theorem file?_removeQuiet (st : Store) (p q : Path) :
    (st.removeQuiet p).fs.file? q = if p = q then none else st.fs.file? q := by
  unfold Store.removeQuiet
  split
  · rename_i h
    exact Fs.file?_removeFile h q
  · rename_i e herr
    by_cases hq : p = q
    · rw [if_pos hq, ← hq]
      cases hf : st.fs.file? p with
      | none => rfl
      | some f =>
          obtain ⟨fs, hfs⟩ := Fs.removeFile_isOk st.now hf
          rw [hfs] at herr
          contradiction
    · rw [if_neg hq]

theorem file?_removeDirQuiet (st : Store) (p q : Path) :
    (st.removeDirQuiet p).fs.file? q = st.fs.file? q := by
  unfold Store.removeDirQuiet
  split
  · rename_i h
    exact Fs.file?_removeDir h q
  · rfl

theorem isDir_removeQuiet {st : Store} {p q : Path} (h : (st.removeQuiet p).fs.isDir q) :
    st.fs.isDir q := by
  unfold Store.removeQuiet at h
  split at h
  · exact Fs.isDir_removeFile ‹_› h
  · exact h

theorem isDir_removeDirQuiet {st : Store} {p q : Path} (h : (st.removeDirQuiet p).fs.isDir q) :
    st.fs.isDir q := by
  unfold Store.removeDirQuiet at h
  split at h
  · exact Fs.isDir_removeDir ‹_› h
  · exact h

/-- The ids of the blobs a committed transaction of the call returned and that
the call has yet to remove. -/
def Task.pending : Task → List Digest
  | .upsertChunk _ (.removePrev prev) => [prev]
  | .rm _ _ pc => pc.pending
  | .pruneBacklog pc => pc.pending
  | _ => []

/-- The blob a call removes when its next step is carried out: its own after a
failed transaction, the next one a committed transaction returned, or the one a
cleanup pass found unreferenced. -/
inductive Removes (db : VmIoDb) : Task → Digest → Prop
  | own (r : ChunkReq) (e : IoError) : Removes db (.upsertChunk r (.removeOwn e)) (db.blobId r)
  | pending {task : Task} {b : Digest} {ids : List Digest} (h : task.pending = b :: ids) :
      Removes db task b
  | cleanup {pc : CleanupPc} {b : Digest} (h : pc.victim = some b) :
      Removes db (.cleanupDir pc) b

/-- What a step of a call does to the file of the blob `b`. -/
inductive FileStep (db : VmIoDb) (st : Store) (b : Digest) :
    Task → Choice → Store → Task → Prop
  | same {task task' : Task} {c : Choice} {st' : Store}
      (h : st'.fs.file? (db.path b) = st.fs.file? (db.path b)) :
      FileStep db st b task c st' task'
  | removed {task task' : Task} {st' : Store} (hrem : Removes db task b)
      (h : st'.fs.file? (db.path b) = none) : FileStep db st b task .ok st' task'
  | created {r : ChunkReq} {i ino : ℕ} {st' : Store} (hb : db.blobId r = b)
      (hino : ∀ f, st.fs.file? (db.path b) = some f → f.ino = ino)
      (h : st'.fs.file? (db.path b) = some ⟨ino, [], st.now⟩) :
      FileStep db st b (.upsertChunk r (.create i)) .ok st' (.upsertChunk r (.write ino 0))
  | written {r : ChunkReq} {ino off n : ℕ} {st' : Store} (hb : db.blobId r = b)
      (hoff : off + n ≤ (db.cipher r).length)
      (h : st'.fs.file? (db.path b) = (st.fs.file? (db.path b)).map fun f =>
        if f.ino = ino then
          ⟨ino, overlay f.data off (((db.cipher r).drop off).take n), st.now⟩
        else f) :
      FileStep db st b (.upsertChunk r (.write ino off)) (.portion n) st'
        (.upsertChunk r (.write ino (off + n)))

theorem VmIoDb.path_injective (db : VmIoDb) {a b : Digest} (h : db.path a = db.path b) : a = b :=
  idPath_injective h

theorem FileStep.of_removeQuiet {db : VmIoDb} {st : Store} {b b' : Digest} {task task' : Task}
    (hrem : Removes db task b') :
    FileStep db st b task .ok (st.removeQuiet (db.path b')) task' := by
  by_cases hb : b' = b
  · subst hb
    exact .removed hrem (by rw [file?_removeQuiet, if_pos rfl])
  · refine .same ?_
    rw [file?_removeQuiet, if_neg fun h => hb (db.path_injective h)]

theorem DeleteStep.file? {db : VmIoDb} {st st' : Store} {c : Choice} {ids ids' : List Digest}
    {task task' : Task} (hids : task.pending = ids) (h : DeleteStep db st ids c st' ids')
    (b : Digest) : FileStep db st b task c st' task' := by
  cases h with
  | idle => exact .same rfl
  | txn => exact .same rfl
  | remove b' => exact .of_removeQuiet (.pending hids)
  | keep => exact .same rfl

theorem UpsertChunkStep.file? {db : VmIoDb} {st st' : Store} {r : ChunkReq}
    {pc pc' : UpsertChunkPc} {c : Choice} (h : UpsertChunkStep db st r pc c st' pc')
    (b : Digest) : FileStep db st b (.upsertChunk r pc) c st' (.upsertChunk r pc') := by
  cases h with
  | mkdir i fs h => exact .same (Fs.file?_createDirs h _)
  | mkdirFailed i n fs e h => exact .same (Fs.file?_createDirs h _)
  | create i fs ino h =>
      by_cases hb : db.blobId r = b
      · subst hb
        exact .created rfl (fun f hf => Fs.create_ino h hf)
          (by rw [Fs.file?_create h, if_pos rfl])
      · refine .same ?_
        rw [Fs.file?_create h, if_neg fun h => hb (db.path_injective h)]
  | write ino off n hn hoff =>
      by_cases hb : db.blobId r = b
      · subst hb
        exact .written rfl hoff (by rw [Fs.file?_writeAt, if_pos rfl])
      · refine .same ?_
        rw [Fs.file?_writeAt, if_neg fun h => hb (db.path_injective h)]
  | removeOwn e => exact .of_removeQuiet (.own r e)
  | removePrev prev => exact .of_removeQuiet (.pending rfl)
  | _ => exact .same rfl

/-- The only steps that change a blob's file are a removal of that blob, an
upload of it opening the file, and an upload of it writing a portion. -/
theorem TaskStep.file? {db : VmIoDb} {st st' : Store} {task task' : Task} {c : Choice}
    (h : TaskStep db st task c st' task') (b : Digest) : FileStep db st b task c st' task' := by
  cases h with
  | upsert h =>
      obtain ⟨_, hfs, _⟩ := stepUpsert_frame h
      exact .same (by rw [hfs])
  | upsertChunk h => exact h.file? b
  | rm h => exact h.file? rfl b
  | pruneBacklog h => exact h.file? rfl b
  | cleanupDir h =>
      cases h with
      | remove => exact .of_removeQuiet (.cleanup rfl)
      | removeDir => exact .same (file?_removeDirQuiet _ _ _)
      | _ => exact .same rfl
  | getChunk => exact .same rfl

theorem DeleteStep.mem_chunks {db : VmIoDb} {st st' : Store} {c : Choice}
    {ids ids' : List Digest} (h : DeleteStep db st ids c st' ids') {row : ChunkRow}
    (hrow : row ∈ st'.sql.entryFileChunks.rows) : row ∈ st.sql.entryFileChunks.rows := by
  cases h with
  | txn p => exact (Sql.mem_deleteEntries_chunks.mp hrow).1
  | remove b => exact removeQuiet_sql st _ ▸ hrow
  | _ => exact hrow

theorem DeleteStep.now {db : VmIoDb} {st st' : Store} {c : Choice} {ids ids' : List Digest}
    (h : DeleteStep db st ids c st' ids') : st'.now = st.now := by
  cases h <;> simp

theorem DeleteStep.isDir {db : VmIoDb} {st st' : Store} {c : Choice} {ids ids' : List Digest}
    (h : DeleteStep db st ids c st' ids') {q : Path} (hq : st'.fs.isDir q) : st.fs.isDir q := by
  cases h with
  | remove b => exact isDir_removeQuiet hq
  | _ => exact hq

theorem TaskStep.mem_chunks {db : VmIoDb} {st st' : Store} {task task' : Task} {c : Choice}
    (h : TaskStep db st task c st' task') {row : ChunkRow}
    (hrow : row ∈ st'.sql.entryFileChunks.rows) :
    row ∈ st.sql.entryFileChunks.rows ∨
      ∃ r wrote, task = .upsertChunk r (.txn wrote) ∧ c = .ok ∧
        st.sql.hasEntry (r.cls, r.key) ∧ row = db.row r := by
  cases h with
  | upsert h =>
      obtain ⟨hsql, _, _⟩ := stepUpsert_frame h
      exact .inl (hsql ▸ hrow)
  | upsertChunk h =>
      cases h with
      | commit wrote sql prev h =>
          obtain ⟨hfk, rfl, _⟩ := Sql.upsertChunk_ok h
          rcases Table.mem_put.mp hrow with rfl | ⟨hrow, _⟩
          · exact .inr ⟨_, wrote, rfl, rfl, hfk, rfl⟩
          · exact .inl hrow
      | removeOwn => exact .inl (removeQuiet_sql st _ ▸ hrow)
      | removePrev => exact .inl (removeQuiet_sql st _ ▸ hrow)
      | _ => exact .inl hrow
  | rm h => exact .inl (h.mem_chunks hrow)
  | pruneBacklog h => exact .inl (h.mem_chunks hrow)
  | cleanupDir h =>
      cases h with
      | remove => exact .inl (removeQuiet_sql st _ ▸ hrow)
      | removeDir => exact .inl (removeDirQuiet_sql st _ ▸ hrow)
      | _ => exact .inl hrow
  | getChunk => exact .inl hrow

theorem DeleteStep.mem_entries {db : VmIoDb} {st st' : Store} {c : Choice}
    {ids ids' : List Digest} (h : DeleteStep db st ids c st' ids') {e : EntryRow}
    (he : e ∈ st'.sql.entries.rows) : e ∈ st.sql.entries.rows := by
  cases h with
  | txn p => exact (Sql.mem_deleteEntries_entries.mp he).1
  | remove b => exact removeQuiet_sql st _ ▸ he
  | _ => exact he

theorem TaskStep.mem_entries {db : VmIoDb} {st st' : Store} {task task' : Task} {c : Choice}
    (h : TaskStep db st task c st' task') {e : EntryRow} (he : e ∈ st'.sql.entries.rows) :
    e ∈ st.sql.entries.rows ∨ ∃ pc, task = .upsert e pc := by
  cases h with
  | @upsert row pc pc' c st' h =>
      rcases stepUpsert_entries h with heq | ⟨hfree, heq⟩
      · exact .inl (heq ▸ he)
      · rw [heq] at he
        rcases Table.mem_put.mp he with rfl | ⟨he, _⟩
        · exact .inr ⟨pc, rfl⟩
        · exact .inl he
  | upsertChunk h =>
      rcases h.sql with hsame | ⟨_, _, _, _, _, _, hup⟩
      · exact .inl (hsame ▸ he)
      · obtain ⟨_, hsql, _⟩ := Sql.upsertChunk_ok hup
        rw [hsql] at he
        exact .inl he
  | rm h => exact .inl (h.mem_entries he)
  | pruneBacklog h => exact .inl (h.mem_entries he)
  | cleanupDir h =>
      cases h with
      | remove => exact .inl (removeQuiet_sql st _ ▸ he)
      | removeDir => exact .inl (removeDirQuiet_sql st _ ▸ he)
      | _ => exact .inl he
  | getChunk => exact .inl he

theorem TaskStep.now {db : VmIoDb} {st st' : Store} {task task' : Task} {c : Choice}
    (h : TaskStep db st task c st' task') : st'.now = st.now := by
  cases h with
  | upsert h => exact (stepUpsert_frame h).2.2
  | upsertChunk h => cases h <;> simp
  | rm h => exact h.now
  | pruneBacklog h => exact h.now
  | cleanupDir h => cases h <;> simp
  | getChunk => rfl

theorem TaskStep.isDir {db : VmIoDb} {st st' : Store} {task task' : Task} {c : Choice}
    (h : TaskStep db st task c st' task') {q : Path} (hq : st'.fs.isDir q) :
    st.fs.isDir q ∨ ∃ b, q ∈ (db.path b).dropLast.inits := by
  cases h with
  | upsert h =>
      obtain ⟨_, hfs, _⟩ := stepUpsert_frame h
      exact .inl (hfs ▸ hq)
  | upsertChunk h =>
      cases h with
      | mkdir i fs h =>
          rcases Fs.isDir_createDirs h hq with hold | hnew
          · exact .inl hold
          · exact .inr ⟨_, hnew⟩
      | mkdirFailed i n fs e h =>
          rcases Fs.isDir_createDirs h hq with hold | hnew
          · exact .inl hold
          · exact .inr ⟨_, List.mem_of_mem_take hnew⟩
      | create i fs ino h => exact .inl (Fs.isDir_create h hq)
      | write => exact .inl (Fs.isDir_writeAt hq)
      | removeOwn => exact .inl (isDir_removeQuiet hq)
      | removePrev => exact .inl (isDir_removeQuiet hq)
      | _ => exact .inl hq
  | rm h => exact .inl (h.isDir hq)
  | pruneBacklog h => exact .inl (h.isDir hq)
  | cleanupDir h =>
      cases h with
      | remove => exact .inl (isDir_removeQuiet hq)
      | removeDir => exact .inl (isDir_removeDirQuiet hq)
      | _ => exact .inl hq
  | getChunk => exact .inl hq

/-! ### The system -/

/-- What a step of the system that moves no call leaves alone: the database and
the files. The calls of the new state were there or have just been issued. -/
structure EnvStep (s : Sys) (a : Action) (s' : Sys) : Prop where
  sql : s'.st.sql = s.st.sql
  fs : s'.st.fs = s.st.fs
  now_le : s.st.now ≤ s'.st.now
  tasks : ∀ (t : ℕ) (task : Task), s'.tasks[t]? = some task →
    s.tasks[t]? = some task ∨ ∃ call, a = .spawn call ∧ task = call.start
  unmoved : ∀ t c, a ≠ .step t c

/-- What a step of the system that moves the call `t` does. -/
structure CallStep (db : VmIoDb) (s : Sys) (t : ℕ) (c : Choice) (s' : Sys)
    (task task' : Task) : Prop where
  here : s.tasks[t]? = some task
  moves : task.finished = false
  step : TaskStep db s.st task c s'.st task'
  tasks : s'.tasks = s.tasks.set t task'

theorem step_cases {db : VmIoDb} {s s' : Sys} {a : Action} (h : step db s a = some s') :
    (∃ t c task task', a = .step t c ∧ CallStep db s t c s' task task') ∨ EnvStep s a s' := by
  cases a with
  | spawn call =>
      simp only [step, Option.some.injEq] at h
      subst h
      refine .inr ⟨rfl, rfl, le_rfl, fun t task ht => ?_, by simp⟩
      rw [List.getElem?_append] at ht
      split at ht
      · exact .inl ht
      · rw [List.getElem?_singleton] at ht
        split at ht <;> cases ht
        exact .inr ⟨call, rfl, rfl⟩
  | step t c =>
      simp only [step] at h
      split at h
      · contradiction
      · rename_i task htask
        obtain ⟨⟨st', task'⟩, hstep, rfl⟩ := Option.map_eq_some_iff.mp h
        exact .inl ⟨t, c, task, task', rfl, htask, unfinished_of_step hstep,
          stepTask_cases hstep, rfl⟩
  | tick d =>
      simp only [step, Option.some.injEq] at h
      subst h
      exact .inr ⟨rfl, rfl, by simp, fun t task ht => .inl ht, by simp⟩
  | crash =>
      simp only [step, Option.some.injEq] at h
      subst h
      exact .inr ⟨rfl, rfl, le_rfl, fun t task ht => by simp at ht, by simp⟩

theorem CallStep.task {db : VmIoDb} {s s' : Sys} {t u : ℕ} {c : Choice} {task task' other : Task}
    (h : CallStep db s t c s' task task') (hu : s'.tasks[u]? = some other) :
    u = t ∧ other = task' ∨ u ≠ t ∧ s.tasks[u]? = some other := by
  rw [h.tasks, List.getElem?_set] at hu
  split at hu
  · rename_i hut
    split at hu
    · cases hu
      exact .inl ⟨hut.symm, rfl⟩
    · contradiction
  · rename_i hut
    exact .inr ⟨fun e => hut e.symm, hu⟩

theorem CallStep.still {db : VmIoDb} {s s' : Sys} {t u : ℕ} {c : Choice} {task task' : Task}
    (h : CallStep db s t c s' task task') (hu : u ≠ t) : s'.tasks[u]? = s.tasks[u]? := by
  rw [h.tasks, List.getElem?_set_ne (Ne.symm hu)]

theorem CallStep.moved {db : VmIoDb} {s s' : Sys} {t : ℕ} {c : Choice} {task task' : Task}
    (h : CallStep db s t c s' task task') : s'.tasks[t]? = some task' := by
  rw [h.tasks, List.getElem?_set_self]
  exact (List.getElem?_eq_some_iff.mp h.here).1

/-! The same by membership, where it does not matter which place a call has. -/

theorem CallStep.mem_here {db : VmIoDb} {s s' : Sys} {t : ℕ} {c : Choice} {task task' : Task}
    (h : CallStep db s t c s' task task') : task ∈ s.tasks :=
  List.mem_of_getElem? h.here

theorem CallStep.mem_moved {db : VmIoDb} {s s' : Sys} {t : ℕ} {c : Choice} {task task' : Task}
    (h : CallStep db s t c s' task task') : task' ∈ s'.tasks :=
  List.mem_of_getElem? h.moved

theorem CallStep.mem {db : VmIoDb} {s s' : Sys} {t : ℕ} {c : Choice} {task task' other : Task}
    (h : CallStep db s t c s' task task') (hmem : other ∈ s'.tasks) :
    other = task' ∨ other ∈ s.tasks := by
  obtain ⟨u, hu⟩ := List.mem_iff_getElem?.mp hmem
  rcases h.task hu with ⟨_, heq⟩ | ⟨_, hold⟩
  · exact .inl heq
  · exact .inr (List.mem_of_getElem? hold)

theorem CallStep.mem_still {db : VmIoDb} {s s' : Sys} {t : ℕ} {c : Choice}
    {task task' other : Task} (h : CallStep db s t c s' task task') (hmem : other ∈ s.tasks)
    (hne : other ≠ task) : other ∈ s'.tasks := by
  obtain ⟨u, hu⟩ := List.mem_iff_getElem?.mp hmem
  have hut : u ≠ t := by
    rintro rfl
    rw [h.here] at hu
    exact hne (Option.some_inj.mp hu).symm
  exact List.mem_of_getElem? ((h.still hut).trans hu)

theorem EnvStep.mem {s s' : Sys} {a : Action} {other : Task} (h : EnvStep s a s')
    (hmem : other ∈ s'.tasks) :
    other ∈ s.tasks ∨ ∃ call, a = .spawn call ∧ other = call.start := by
  obtain ⟨u, hu⟩ := List.mem_iff_getElem?.mp hmem
  exact (h.tasks u other hu).imp_left List.mem_of_getElem?

theorem EnvStep.kept {db : VmIoDb} {s s' : Sys} {a : Action} (h : EnvStep s a s')
    (hs : step db s a = some s') (hlive : a ≠ .crash) :
    ∃ issued : List Call, (∀ call ∈ issued, a = .spawn call) ∧
      s'.tasks = s.tasks ++ issued.map Call.start := by
  cases a with
  | spawn call =>
      simp only [step, Option.some.injEq] at hs
      subst hs
      exact ⟨[call], by simp, rfl⟩
  | step t c => exact absurd rfl (h.unmoved t c)
  | tick d =>
      simp only [step, Option.some.injEq] at hs
      subst hs
      exact ⟨[], by simp, by simp⟩
  | crash => exact absurd rfl hlive

theorem EnvStep.still {db : VmIoDb} {s s' : Sys} {a : Action} {u : ℕ} {task : Task}
    (h : EnvStep s a s') (hs : step db s a = some s') (hlive : a ≠ .crash)
    (hu : s.tasks[u]? = some task) : s'.tasks[u]? = some task := by
  obtain ⟨issued, _, htasks⟩ := h.kept hs hlive
  rw [htasks, List.getElem?_append_left (List.getElem?_eq_some_iff.mp hu).1]
  exact hu

theorem step_alone {db : VmIoDb} {st : Store} {task : Task} {a : Action} {s' : Sys}
    (h : step db ⟨st, [task]⟩ a = some s') :
    (∃ c st' task', a = .step 0 c ∧ s' = ⟨st', [task']⟩ ∧
      stepTask db st task c = some (st', task')) ∨
    (∃ d, a = .tick d ∧ s' = ⟨{ st with now := st.now + d }, [task]⟩) ∨
    (∃ call, a = .spawn call) ∨ a = .crash := by
  cases a with
  | spawn call => exact .inr (.inr (.inl ⟨call, rfl⟩))
  | crash => exact .inr (.inr (.inr rfl))
  | tick d =>
      simp only [step, Option.some.injEq] at h
      exact .inr (.inl ⟨d, rfl, h.symm⟩)
  | step t c =>
      cases t with
      | succ t => simp [step] at h
      | zero =>
          obtain ⟨⟨st', task'⟩, hstep, rfl⟩ := Option.map_eq_some_iff.mp h
          exact .inl ⟨c, st', task', rfl, rfl, hstep⟩

end VmIo.Db
