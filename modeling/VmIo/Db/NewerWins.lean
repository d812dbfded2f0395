import VmIo.Db.RoundTrip

/-!
Two versions of one file are put at the same time.

An upsert looks at the timestamps, so the entry is that of the newer version. The
chunks carry no timestamp: whichever upload of an index commits last is kept. So the
newer version is there as a whole provided no chunk of the older one is committed over
one of its own, and nothing takes the file of one of its chunks away (`newer_wins`).
-/

namespace VmIo.Db

open VmIo.Lib

/-- A version of a file as it is put: its entry, and once that is applied its chunks. -/
structure Put where
  row : EntryRow
  file : FileReq
  row_pk : row.pk = file.entryKey

/-- Two versions of one file. -/
structure Race where
  older : Put
  newer : Put
  same_key : older.file.entryKey = newer.file.entryKey
  same_count : older.file.count = newer.file.count
  older_lt : older.row.modifiedAtMicros < newer.row.modifiedAtMicros

def Put.applied (v : Put) (s : Sys) : Bool := s.tasks.any (Task.applied v.row)

/-- Only calls of the two versions are issued, chunks after the entry was applied. -/
def Race.Plays (x : Race) (s : Sys) : Action → Prop
  | .spawn (.upsert row) => row = x.older.row ∨ row = x.newer.row
  | .spawn (.upsertChunk r) =>
      x.older.applied s = true ∧ r ∈ x.older.file.chunks ∨
        x.newer.applied s = true ∧ r ∈ x.newer.file.chunks
  | .spawn _ => False
  | .step .. => True
  | .tick _ => True
  | .crash => False

instance (x : Race) (s : Sys) (a : Action) : Decidable (x.Plays s a) :=
  match a with
  | .spawn (.upsert row) =>
      inferInstanceAs (Decidable (row = x.older.row ∨ row = x.newer.row))
  | .spawn (.upsertChunk r) => inferInstanceAs (Decidable
      (x.older.applied s = true ∧ r ∈ x.older.file.chunks ∨
        x.newer.applied s = true ∧ r ∈ x.newer.file.chunks))
  | .spawn (.rm ..) => isFalse id
  | .spawn .pruneBacklog => isFalse id
  | .spawn .cleanupDir => isFalse id
  | .spawn (.getChunk ..) => isFalse id
  | .step .. => isTrue trivial
  | .tick _ => isTrue trivial
  | .crash => isFalse id

/-! ### Where the newer version can be lost -/

def Task.looksFor : Task → Option ChunkReq
  | .upsertChunk r .stat => some r
  | _ => none

def Task.committed : Task → Option ChunkReq
  | .upsertChunk r (.removePrev _) => some r
  | .upsertChunk r (.done (.ok ())) => some r
  | _ => none

/-- The upload whose file the call has opened or found, and counts on from then on. -/
def Task.tends : Task → Option ChunkReq
  | .upsertChunk r (.write ..) => some r
  | .upsertChunk r (.txn _) => some r
  | task => task.committed

/-- No chunk is committed over a committed chunk of the newer version. -/
def Race.CommitsInOrder (x : Race) (s : Sys) (a : Action) : Prop :=
  ∀ r ∈ s.committing a, ∀ r' ∈ x.newer.file.chunks, r'.slot = r.slot → r' ≠ r →
    ∀ task ∈ s.tasks, r' ∉ task.committed

instance (x : Race) (s : Sys) (a : Action) : Decidable (x.CommitsInOrder s a) :=
  inferInstanceAs (Decidable (∀ r ∈ s.committing a, ∀ r' ∈ _, _ → _ → ∀ task ∈ _, _))

/-- No file of a chunk of the newer version is removed once a call counts on it. -/
def Race.KeepsFiles (db : VmIoDb) (x : Race) (s : Sys) (a : Action) : Prop :=
  ∀ task ∈ s.mover a, ∀ r ∈ x.newer.file.chunks, db.blobId r ∈ task.removes db →
    ∀ other ∈ s.tasks, r ∉ other.tends

instance (db : VmIoDb) (x : Race) (s : Sys) (a : Action) : Decidable (x.KeepsFiles db s a) :=
  inferInstanceAs (Decidable (∀ task ∈ s.mover a, ∀ r ∈ _, _ → ∀ other ∈ _, _))

/-- No upload of the newer version takes a damaged file for its own. -/
def Race.FindsWhole (db : VmIoDb) (x : Race) (s : Sys) (a : Action) : Prop :=
  ∀ task ∈ s.mover a, ∀ r ∈ task.looksFor, r ∈ x.newer.file.chunks →
    ∀ f ∈ s.st.fs.file? (db.path (db.blobId r)), f.data.length = (db.cipher r).length →
      f.data = db.cipher r

instance (db : VmIoDb) (x : Race) (s : Sys) (a : Action) : Decidable (x.FindsWhole db s a) :=
  inferInstanceAs (Decidable (∀ task ∈ s.mover a, ∀ r ∈ task.looksFor, _ → ∀ f ∈ _, _ → _))

/-- A step of the two puts at which nothing of the newer version is lost. -/
def Race.Orderly (db : VmIoDb) (x : Race) (s : Sys) (a : Action) : Prop :=
  x.Plays s a ∧ x.CommitsInOrder s a ∧ x.KeepsFiles db s a ∧ x.FindsWhole db s a

instance (db : VmIoDb) (x : Race) (s : Sys) (a : Action) : Decidable (x.Orderly db s a) :=
  inferInstanceAs (Decidable (_ ∧ _ ∧ _ ∧ _))

def Task.failed : Task → Bool
  | .upsert _ (.done (.error _)) => true
  | .upsertChunk _ (.removeOwn _) => true
  | .upsertChunk _ (.done (.error _)) => true
  | _ => false

def Task.returnedOk : Task → Bool
  | .upsert _ (.done (.ok _)) => true
  | .upsertChunk _ (.done (.ok ())) => true
  | _ => false

def Sys.Flawless (s : Sys) : Prop := ∀ task ∈ s.tasks, task.failed = false

/-- The upsert of the version has returned `Ok`, and if it was applied so have the
uploads of all its chunks. -/
def Put.Finished (v : Put) (s : Sys) : Prop :=
  (∃ b, Task.upsert v.row (.done (.ok b)) ∈ s.tasks) ∧
    (v.applied s = true → ∀ r ∈ v.file.chunks, Task.upsertChunk r (.done (.ok ())) ∈ s.tasks)

/-! ### The calls of a run -/

section

variable {db : VmIoDb} {s s' : Sys} {t : ℕ} {c : Choice} {task task' : Task}

theorem CallStep.mem_iff (h : CallStep db s t c s' task task') {other : Task} (hne : other ≠ task)
    (hne' : other ≠ task') : other ∈ s'.tasks ↔ other ∈ s.tasks :=
  ⟨fun hmem => (h.mem hmem).resolve_left hne', fun hmem => h.mem_still hmem hne⟩

theorem Task.eq_of_tends {r : ChunkReq} (h : r ∈ task.tends) : ∃ pc, task = .upsertChunk r pc := by
  unfold Task.tends Task.committed at h
  split at h
  · cases h
    exact ⟨_, rfl⟩
  · cases h
    exact ⟨_, rfl⟩
  · split at h <;> cases h <;> exact ⟨_, rfl⟩

theorem TaskStep.failed {st st' : Store} (h : TaskStep db st task c st' task')
    (hfailed : task.failed = true) : task'.failed = true := by
  cases h with
  | upsert h =>
      rename_i row pc pc'
      cases pc <;> simp [Task.failed] at hfailed
      simp [stepUpsert] at h
  | upsertChunk h => cases h <;> first | rfl | simp [Task.failed] at hfailed
  | _ => simp [Task.failed] at hfailed

theorem Race.Plays.live {x : Race} {a : Action} (hok : x.Plays s a) : a ≠ .crash := by
  rintro rfl
  exact hok

/-- A call that has failed stays so: what has run without an error up to a step has
done so before it. -/
theorem flawless_of_step {x : Race} {a : Action} (hok : x.Plays s a) (hs : step db s a = some s')
    (h : s'.Flawless) : s.Flawless := by
  intro other hmem
  by_contra hfailed
  rw [Bool.not_eq_false] at hfailed
  rcases step_cases hs with ⟨t, c, task, task', rfl, hcall⟩ | henv
  · by_cases hmoved : other = task
    · subst hmoved
      have := hcall.step.failed hfailed
      rw [h _ hcall.mem_moved] at this
      contradiction
    · rw [h _ (hcall.mem_still hmem hmoved)] at hfailed
      contradiction
  · obtain ⟨issued, _, htasks⟩ := henv.kept hs hok.live
    rw [h other (by rw [htasks]; exact List.mem_append_left _ hmem)] at hfailed
    contradiction

end

/-! ### The files of the newer version -/

/-- The file `f` of an upload is whole, or a call is still at work on it that has
written everything up to where it is. -/
structure Tended (db : VmIoDb) (s : Sys) (r : ChunkReq) (f : File) : Prop where
  file : s.st.fs.file? (db.path (db.blobId r)) = some f
  length_le : f.data.length ≤ (db.cipher r).length
  writers : ∀ ino off, Task.upsertChunk r (.write ino off) ∈ s.tasks → ino = f.ino
  whole : f.data = db.cipher r ∨ ∃ off, Task.upsertChunk r (.write f.ino off) ∈ s.tasks ∧
    off ≤ f.data.length ∧ f.data.take off = (db.cipher r).take off

/-- Some call counts on the file of the upload. -/
def Sys.Tends (s : Sys) (r : ChunkReq) : Prop := ∃ task ∈ s.tasks, r ∈ task.tends

section

variable {db : VmIoDb} {P : ChunkReq → Prop} {x : Race} {s s' : Sys} {t : ℕ} {c : Choice}
  {task task' : Task} {r : ChunkReq} {f : File}

theorem Tended.same (h : Tended db s r f)
    (hfile : s'.st.fs.file? (db.path (db.blobId r)) = s.st.fs.file? (db.path (db.blobId r)))
    (hwriters : ∀ ino off, Task.upsertChunk r (.write ino off) ∈ s'.tasks ↔
      Task.upsertChunk r (.write ino off) ∈ s.tasks) : Tended db s' r f where
  file := hfile.trans h.file
  length_le := h.length_le
  writers ino off hmem := h.writers ino off ((hwriters ino off).mp hmem)
  whole := h.whole.imp_right fun ⟨off, hmem, hrest⟩ => ⟨off, (hwriters _ off).mpr hmem, hrest⟩

theorem tended_create {i ino : ℕ} {now : Time}
    (hcall : CallStep db s t c s' (.upsertChunk r (.create i)) (.upsertChunk r (.write ino 0)))
    (hinv : s.Tends r → ∃ f, Tended db s r f)
    (hino : ∀ f, s.st.fs.file? (db.path (db.blobId r)) = some f → f.ino = ino)
    (hfile : s'.st.fs.file? (db.path (db.blobId r)) = some ⟨ino, [], now⟩) :
    Tended db s' r ⟨ino, [], now⟩ where
  file := hfile
  length_le := Nat.zero_le _
  writers ino' off hmem := by
    rcases hcall.mem hmem with heq | hold
    · cases heq
      rfl
    · obtain ⟨f, hf⟩ := hinv ⟨_, hold, rfl⟩
      exact (hf.writers ino' off hold).trans (hino f hf.file)
  whole := .inr ⟨0, hcall.mem_moved, le_rfl, rfl⟩

theorem Tended.write {ino off n : ℕ} {now : Time}
    (hcall : CallStep db s t c s' (.upsertChunk r (.write ino off))
      (.upsertChunk r (.write ino (off + n))))
    (hn : off + n ≤ (db.cipher r).length) (h : Tended db s r f)
    (hfile : s'.st.fs.file? (db.path (db.blobId r)) =
      some ⟨ino, overlay f.data off (((db.cipher r).drop off).take n), now⟩) :
    Tended db s' r ⟨ino, overlay f.data off (((db.cipher r).drop off).take n), now⟩ where
  file := hfile
  length_le := by
    have hle := h.length_le
    simp only [overlay_length, List.length_take, List.length_drop]
    omega
  writers ino' off' hmem := by
    have hown := h.writers ino off hcall.mem_here
    rcases hcall.mem hmem with heq | hold
    · cases heq
      rfl
    · exact (h.writers ino' off' hold).trans hown.symm
  whole := by
    have hown := h.writers ino off hcall.mem_here
    subst hown
    -- the writer that is ahead is this one, or one this one catches up with, or neither
    rcases h.whole with hwhole | ⟨off', hmem, hreach, hagrees⟩
    · have hover := overlay_take (c := db.cipher r) le_rfl (by omega : off ≤ _) hn
      rw [List.take_length, Nat.max_eq_left hn, List.take_length] at hover
      exact .inl (by rw [hwhole, hover])
    · by_cases hsame : off' = off
      · subst hsame
        refine .inr ⟨off' + n, hcall.mem_moved, ?_, overlay_take_add hreach hagrees hn⟩
        simp only [overlay_length, List.length_take, List.length_drop]
        omega
      · by_cases hmoved : off' = off + n
        · refine .inr ⟨off', hmoved ▸ hcall.mem_moved, ?_, overlay_take_of_agrees hreach hagrees hn⟩
          simp only [overlay_length]
          omega
        · have hstays := (hcall.mem_iff (by simpa using hsame) (by simpa using hmoved)).mpr hmem
          refine .inr ⟨off', hstays, ?_, overlay_take_of_agrees hreach hagrees hn⟩
          simp only [overlay_length]
          omega

theorem Tended.written {ino : ℕ} {pc' : UpsertChunkPc}
    (hcall : CallStep db s t c s' (.upsertChunk r (.write ino (db.cipher r).length))
      (.upsertChunk r pc')) (hpc' : ∀ ino off, pc' ≠ .write ino off) (h : Tended db s r f)
    (hfile : s'.st.fs.file? (db.path (db.blobId r)) = s.st.fs.file? (db.path (db.blobId r))) :
    Tended db s' r f where
  file := hfile.trans h.file
  length_le := h.length_le
  writers ino' off hmem := by
    rcases hcall.mem hmem with heq | hold
    · cases heq
      exact absurd rfl (hpc' ino' off)
    · exact h.writers ino' off hold
  whole := by
    rcases h.whole with hwhole | ⟨off, hmem, hreach, hagrees⟩
    · exact .inl hwhole
    · by_cases hall : off = (db.cipher r).length
      · subst hall
        rw [List.take_length, List.take_of_length_le h.length_le] at hagrees
        exact .inl hagrees
      · refine .inr ⟨off, (hcall.mem_iff ?_ ?_).mpr hmem, hreach, hagrees⟩
        · simpa using fun _ => hall
        · intro heq
          cases heq
          exact hpc' _ _ rfl

theorem tended_idle (hinv : s.Tends r → ∃ f, Tended db s r f)
    (hcall : CallStep db s t c s' task task')
    (hfile : s'.st.fs.file? (db.path (db.blobId r)) = s.st.fs.file? (db.path (db.blobId r)))
    (hwrites : ∀ ino off, Task.upsertChunk r (.write ino off) ≠ task)
    (hwrites' : ∀ ino off, Task.upsertChunk r (.write ino off) ≠ task')
    (htends : r ∈ task'.tends → r ∈ task.tends) (h : s'.Tends r) : ∃ f, Tended db s' r f := by
  have hheld : s.Tends r := by
    obtain ⟨other, hmem, hother⟩ := h
    rcases hcall.mem hmem with rfl | hold
    · exact ⟨task, hcall.mem_here, htends hother⟩
    · exact ⟨other, hold, hother⟩
  obtain ⟨f, hf⟩ := hinv hheld
  exact ⟨f, hf.same hfile fun ino off => hcall.mem_iff (hwrites ino off) (hwrites' ino off)⟩

theorem tended_own {pc pc' : UpsertChunkPc} (hr : r ∈ x.newer.file.chunks)
    (hinv : s.Tends r → ∃ f, Tended db s r f)
    (hdir : ¬s.st.fs.isDir (db.path (db.blobId r)))
    (hkeeps : x.KeepsFiles db s (.step t c)) (hfinds : x.FindsWhole db s (.step t c))
    (hcall : CallStep db s t c s' (.upsertChunk r pc) (.upsertChunk r pc'))
    (hgood : (Task.upsertChunk r pc').failed = false)
    (hstep : UpsertChunkStep db s.st r pc c s'.st pc') (h : s'.Tends r) :
    ∃ f, Tended db s' r f := by
  obtain ⟨st', tasks'⟩ := s'
  dsimp only at hstep
  cases hstep with
  | refuse e => simp [Task.failed] at hgood
  | check =>
      exact tended_idle hinv hcall rfl (by simp) (by simp) (by simp [Task.tends, Task.committed]) h
  | skip info hinfo hlen =>
      by_cases hheld : s.Tends r
      · obtain ⟨f, hf⟩ := hinv hheld
        exact ⟨f, hf.same rfl fun ino off => hcall.mem_iff (by simp) (by simp)⟩
      · -- nobody tends the file, so only the guard says that the right length means whole
        obtain ⟨f, hf, hsize⟩ := Fs.file?_of_metadata hdir hinfo
        rw [hsize] at hlen
        have hdata := hfinds _ hcall.here r rfl hr f hf hlen
        refine ⟨f, hf, by rw [hdata], fun ino off hmem => ?_, .inl hdata⟩
        exact absurd ⟨_, (hcall.mem_iff (by simp) (by simp)).mp hmem, rfl⟩ hheld
  | miss c hc =>
      exact tended_idle hinv hcall rfl (by simp) (by simp) (by simp [Task.tends, Task.committed]) h
  | mkdir i fs hmk =>
      exact tended_idle hinv hcall (Fs.file?_createDirs hmk _) (by simp) (by simp)
        (by simp [Task.tends, Task.committed]) h
  | mkdirFailed => simp [Task.failed] at hgood
  | mkdirRefused => simp [Task.failed] at hgood
  | create i fs ino hcreate =>
      have hfile : fs.file? (db.path (db.blobId r)) = some ⟨ino, [], s.st.now⟩ := by
        rw [Fs.file?_create hcreate, if_pos rfl]
      exact ⟨_, tended_create hcall hinv (fun f hf => Fs.create_ino hcreate hf) hfile⟩
  | retry i =>
      exact tended_idle hinv hcall rfl (by simp) (by simp) (by simp [Task.tends, Task.committed]) h
  | createRefused => simp [Task.failed] at hgood
  | write ino off n hn hoff =>
      obtain ⟨f, hf⟩ := hinv ⟨_, hcall.mem_here, rfl⟩
      have hino := hf.writers ino off hcall.mem_here
      have hfile : (s.st.fs.writeAt (db.path (db.blobId r)) ino off
          (((db.cipher r).drop off).take n) s.st.now).file? (db.path (db.blobId r)) =
          some ⟨ino, overlay f.data off (((db.cipher r).drop off).take n), s.st.now⟩ := by
        rw [Fs.file?_writeAt, if_pos rfl, hf.file, Option.map_some, if_pos hino.symm]
      exact ⟨_, hf.write hcall hoff hfile⟩
  | written ino =>
      obtain ⟨f, hf⟩ := hinv ⟨_, hcall.mem_here, rfl⟩
      exact ⟨f, hf.written hcall (by simp) rfl⟩
  | writeFailed => simp [Task.failed] at hgood
  | commit wrote sql prev hsql =>
      cases prev with
      | none =>
          exact tended_idle hinv hcall rfl (by simp) (by simp [upsertChunkCommitted])
            (by simp [Task.tends]) h
      | some prev =>
          exact tended_idle hinv hcall rfl (by simp) (by simp [upsertChunkCommitted])
            (by simp [Task.tends]) h
  | abort wrote c e hc => cases wrote <;> simp [Task.failed, upsertChunkFailed] at hgood
  | removeOwn => simp [Task.failed] at hgood
  | keepOwn => simp [Task.failed] at hgood
  | removePrev prev =>
      -- the guard keeps the files of the newer version from this removal
      have hne : db.path prev ≠ db.path (db.blobId r) := by
        intro heq
        have hrem : db.blobId r ∈ (Task.upsertChunk r (.removePrev prev)).removes db :=
          congrArg some (db.path_injective heq)
        exact hkeeps _ hcall.here r hr hrem _ hcall.mem_here rfl
      refine tended_idle hinv hcall ?_ (by simp) (by simp) (fun _ => rfl) h
      show (s.st.removeQuiet _).fs.file? _ = _
      rw [file?_removeQuiet, if_neg hne]
  | keepPrev prev => exact tended_idle hinv hcall rfl (by simp) (by simp) (fun _ => rfl) h

theorem tended_other (hcf : CollisionFree db P) (hprov : Provenance db P s) (hP : P r)
    (hr : r ∈ x.newer.file.chunks) (hinv : s.Tends r → ∃ f, Tended db s r f)
    (hkeeps : x.KeepsFiles db s (.step t c)) (hcall : CallStep db s t c s' task task')
    (hother : ∀ pc, task ≠ .upsertChunk r pc) (hother' : ∀ pc, task' ≠ .upsertChunk r pc)
    (h : s'.Tends r) : ∃ f, Tended db s' r f := by
  have htends : r ∉ task'.tends := fun hmem => by
    obtain ⟨pc, hpc⟩ := Task.eq_of_tends hmem
    exact hother' pc hpc
  have hheld : s.Tends r := by
    obtain ⟨other, hmem, hheld⟩ := h
    rcases hcall.mem hmem with rfl | hold
    · exact absurd hheld htends
    · exact ⟨other, hold, hheld⟩
  have hsame : s'.st.fs.file? (db.path (db.blobId r)) = s.st.fs.file? (db.path (db.blobId r)) := by
    have hhere := hcall.here
    cases hcall.step.file? (db.blobId r) with
    | same hfile => exact hfile
    | removed hrem _ =>
        obtain ⟨other, hmem, hheld⟩ := hheld
        exact absurd hheld (hkeeps _ hhere r hr hrem.removes other hmem)
    | created hb hino hfile =>
        rename_i r₀ i ino
        exact absurd (by rw [hcf.eq_of_blobId (hprov.uploads t r₀ _ hhere) hP hb]) (hother _)
    | written hb hoff hfile =>
        rename_i r₀ ino off n
        exact absurd (by rw [hcf.eq_of_blobId (hprov.uploads t r₀ _ hhere) hP hb]) (hother _)
  exact tended_idle hinv hcall hsame (fun _ _ => (hother _).symm) (fun _ _ => (hother' _).symm)
    (fun hmem => absurd hmem htends) h

end

/-! ### The entry of the newer version -/

/-- The entry is older than the newer version or it is that version, and then an upsert
of it has returned `Ok(true)`. -/
structure EntryHeld (x : Race) (s : Sys) : Prop where
  entry : s.st.sql.Newer x.newer.row ∨
    s.st.sql.entries.find? x.newer.row.pk = some x.newer.row
  put : ∀ b, Task.upsert x.newer.row (.done (.ok b)) ∈ s.tasks →
    s.st.sql.entries.find? x.newer.row.pk = some x.newer.row
  applied : s.st.sql.entries.find? x.newer.row.pk = some x.newer.row →
    x.newer.applied s = true

theorem Put.applied_iff {v : Put} {s : Sys} :
    v.applied s = true ↔ Task.upsert v.row (.done (.ok true)) ∈ s.tasks := by
  unfold Put.applied
  rw [List.any_eq_true]
  constructor
  · rintro ⟨task, hmem, happlied⟩
    exact Task.eq_of_applied task happlied ▸ hmem
  · intro hmem
    exact ⟨_, hmem, by simp [Task.applied]⟩

section

variable {db : VmIoDb} {x : Race} {s s' : Sys} {t : ℕ} {c : Choice} {task task' : Task}

theorem CallStep.mem_finished (h : CallStep db s t c s' task task') {other : Task}
    (hmem : other ∈ s.tasks) (hfin : other.finished = true) : other ∈ s'.tasks := by
  have hne : other ≠ task := by
    rintro rfl
    rw [h.moves] at hfin
    contradiction
  exact h.mem_still hmem hne

theorem EntryHeld.same (hinv : EntryHeld x s) (hentries : s'.st.sql.entries = s.st.sql.entries)
    (hreturned : ∀ b, Task.upsert x.newer.row (.done (.ok b)) ∈ s'.tasks ↔
      Task.upsert x.newer.row (.done (.ok b)) ∈ s.tasks) : EntryHeld x s' where
  entry := by
    unfold Sql.Newer
    rw [hentries]
    exact hinv.entry
  put b hmem := by
    rw [hentries]
    exact hinv.put b ((hreturned b).mp hmem)
  applied hfind := by
    rw [hentries] at hfind
    rw [Put.applied_iff, hreturned, ← Put.applied_iff]
    exact hinv.applied hfind

theorem Race.older_pk (x : Race) : x.older.row.pk = x.newer.row.pk := by
  rw [x.older.row_pk, x.newer.row_pk, x.same_key]

theorem EntryHeld.upsert {row : EntryRow} {pc pc' : UpsertPc} (hinv : EntryHeld x s)
    (hrow : row = x.older.row ∨ row = x.newer.row)
    (hcall : CallStep db s t c s' (.upsert row pc) (.upsert row pc'))
    (hstep : stepUpsert s.st row pc c = some (s'.st, pc')) : EntryHeld x s' := by
  have hrunning : ∀ b, Task.upsert x.newer.row (.done (.ok b)) ≠ .upsert row pc := by
    intro b heq
    have hmoves := hcall.moves
    rw [← heq] at hmoves
    simp [Task.finished] at hmoves
  rcases stepUpsert_cases hstep with ⟨hsql, hno⟩ | ⟨b, rfl, hup⟩
  · refine hinv.same (by rw [hsql]) fun b => hcall.mem_iff (hrunning b) ?_
    intro heq
    cases heq
    exact hno b rfl
  · rcases Sql.upsert_cases hup with ⟨hfree, hnew, heq⟩ | ⟨hnew, heq⟩ | ⟨_, _, heq⟩
    · rw [Except.ok.injEq, Prod.mk.injEq] at heq
      obtain ⟨hsql, rfl⟩ := heq
      have hfind : s'.st.sql.entries.find? row.pk = some row := by
        rw [hsql]
        exact Table.find?_put_self rfl
      rcases hrow with rfl | rfl
      · -- the newer version is not there yet
        have hlt := x.older_lt
        have hnot : s.st.sql.entries.find? x.newer.row.pk ≠ some x.newer.row := by
          intro hthere
          rw [← x.older_pk] at hthere
          have := hnew _ hthere
          omega
        rw [x.older_pk] at hfind
        refine ⟨.inl ?_, fun b hmem => ?_, fun hthere => ?_⟩
        · intro old hold
          rw [hfind] at hold
          cases hold
          exact hlt
        · rcases hcall.mem hmem with heq | hold
          · rw [Task.upsert.injEq] at heq
            rw [heq.1] at hlt
            omega
          · exact absurd (hinv.put b hold) hnot
        · rw [hfind, Option.some_inj] at hthere
          rw [hthere] at hlt
          omega
      · exact ⟨.inr hfind, fun _ _ => hfind, fun _ => Put.applied_iff.mpr hcall.mem_moved⟩
    · rw [Except.ok.injEq, Prod.mk.injEq] at heq
      obtain ⟨hsql, rfl⟩ := heq
      -- not applied: the entry is as new as the row already
      refine ⟨hsql ▸ hinv.entry, fun b hmem => ?_, fun hthere => ?_⟩
      · rw [hsql]
        rcases hcall.mem hmem with heq | hold
        · cases heq
          exact hinv.entry.resolve_left hnew
        · exact hinv.put b hold
      · rw [hsql] at hthere
        exact Put.applied_iff.mpr
          (hcall.mem_finished (Put.applied_iff.mp (hinv.applied hthere)) rfl)
    · contradiction

end

/-! ### The chunk rows of the newer version -/

/-- The rows of the newer version's chunks are there once a call has committed them. -/
def RowsHeld (db : VmIoDb) (x : Race) (s : Sys) : Prop :=
  ∀ r ∈ x.newer.file.chunks, ∀ task ∈ s.tasks, r ∈ task.committed →
    s.st.sql.entryFileChunks.find? r.slot = some (db.row r)

theorem UpsertChunkStep.committed {db : VmIoDb} {st st' : Store} {r : ChunkReq}
    {pc pc' : UpsertChunkPc} {c : Choice} (h : UpsertChunkStep db st r pc c st' pc') :
    (∃ wrote prev, pc = .txn wrote ∧ c = .ok ∧
      st.sql.upsertChunk (db.row r) = .ok (st'.sql, prev)) ∨
    st'.sql = st.sql ∧ ((Task.upsertChunk r pc').committed = none ∨
      (Task.upsertChunk r pc').committed = (Task.upsertChunk r pc).committed) := by
  cases h with
  | commit wrote sql prev h => exact .inl ⟨wrote, prev, rfl, rfl, h⟩
  | abort wrote => cases wrote <;> exact .inr ⟨rfl, .inl rfl⟩
  | removeOwn => exact .inr ⟨removeQuiet_sql _ _, .inl rfl⟩
  | removePrev => exact .inr ⟨removeQuiet_sql _ _, .inr rfl⟩
  | keepPrev => exact .inr ⟨rfl, .inr rfl⟩
  | _ => exact .inr ⟨rfl, .inl rfl⟩

section

variable {db : VmIoDb} {P : ChunkReq → Prop} {x : Race} {s s' : Sys} {t : ℕ} {c : Choice}
  {task task' : Task} {r : ChunkReq}

theorem Task.eq_of_committed (h : r ∈ task.committed) : ∃ pc, task = .upsertChunk r pc := by
  unfold Task.committed at h
  split at h <;> cases h <;> exact ⟨_, rfl⟩

theorem RowsHeld.same (hinv : RowsHeld db x s)
    (hchunks : s'.st.sql.entryFileChunks = s.st.sql.entryFileChunks)
    (hcommitted : ∀ task ∈ s'.tasks, ∀ r ∈ task.committed, ∃ other ∈ s.tasks, r ∈ other.committed) :
    RowsHeld db x s' := by
  intro r hr task hmem hcommit
  obtain ⟨other, hother, hcommit⟩ := hcommitted task hmem r hcommit
  rw [hchunks]
  exact hinv r hr other hother hcommit

theorem RowsHeld.upload {pc pc' : UpsertChunkPc} (hinv : RowsHeld db x s)
    (horder : x.CommitsInOrder s (.step t c))
    (hcall : CallStep db s t c s' (.upsertChunk r pc) (.upsertChunk r pc'))
    (hstep : UpsertChunkStep db s.st r pc c s'.st pc') : RowsHeld db x s' := by
  rcases hstep.committed with ⟨wrote, prev, rfl, rfl, hcommit⟩ | ⟨hsql, hcommitted⟩
  · obtain ⟨hfk, hsql, _⟩ := Sql.upsertChunk_ok hcommit
    have hcommitting : s.committing (.step t .ok) = some r :=
      committing_eq_some_iff.mpr ⟨t, wrote, rfl, hcall.here, hfk⟩
    intro r' hr' task hmem hcommit'
    rw [hsql]
    show (s.st.sql.entryFileChunks.put (db.row r)).find? r'.slot = _
    -- another chunk at the slot would have to commit out of order
    by_cases hsame : r' = r
    · subst hsame
      exact Table.find?_put_self rfl
    · have hold : task ∈ s.tasks := by
        rcases hcall.mem hmem with rfl | hold
        · obtain ⟨_, heq⟩ := Task.eq_of_committed hcommit'
          cases heq
          exact absurd rfl hsame
        · exact hold
      have hslot : (db.row r).pk ≠ r'.slot := fun heq =>
        horder r hcommitting r' hr' heq.symm hsame task hold hcommit'
      rw [Table.find?_put_ne hslot]
      exact hinv r' hr' task hold hcommit'
  · refine hinv.same (by rw [hsql]) fun task hmem r' hr' => ?_
    rcases hcall.mem hmem with rfl | hold
    · rcases hcommitted with hnone | hkept
      · rw [hnone] at hr'
        contradiction
      · exact ⟨_, hcall.mem_here, hkept ▸ hr'⟩
    · exact ⟨task, hold, hr'⟩

end

/-! ### Whole runs -/

def Race.Owns (x : Race) : Task → Prop
  | .upsert row _ => row = x.older.row ∨ row = x.newer.row
  | .upsertChunk _ _ => True
  | _ => False

structure RaceInv (db : VmIoDb) (P : ChunkReq → Prop) (x : Race) (s : Sys) : Prop where
  prov : Provenance db P s
  calls : ∀ task ∈ s.tasks, x.Owns task
  entry : EntryHeld x s
  rows : RowsHeld db x s
  files : s.Flawless → ∀ r ∈ x.newer.file.chunks, s.Tends r → ∃ f, Tended db s r f

section

variable {db : VmIoDb} {P : ChunkReq → Prop} {x : Race} {s s' : Sys} {a : Action}

theorem TaskStep.of_upsert {st st' : Store} {row : EntryRow} {pc : UpsertPc} {c : Choice}
    {task' : Task} (h : TaskStep db st (.upsert row pc) c st' task') :
    ∃ pc', task' = .upsert row pc' ∧ stepUpsert st row pc c = some (st', pc') := by
  cases h with
  | upsert h => exact ⟨_, rfl, h⟩

theorem TaskStep.of_upload {st st' : Store} {r : ChunkReq} {pc : UpsertChunkPc} {c : Choice}
    {task' : Task} (h : TaskStep db st (.upsertChunk r pc) c st' task') :
    ∃ pc', task' = .upsertChunk r pc' ∧ UpsertChunkStep db st r pc c st' pc' := by
  cases h with
  | upsertChunk h => exact ⟨_, rfl, h⟩

theorem start_not_held (call : Call) (r : ChunkReq) :
    r ∉ call.start.committed ∧ r ∉ call.start.tends := by
  cases call <;> simp [Call.start, Task.committed, Task.tends]

theorem RaceInv.quiet (hinv : RaceInv db P x s) (hprov : Provenance db P s') (hok : x.Plays s a)
    (hs : step db s a = some s') (henv : EnvStep s a s') : RaceInv db P x s' := by
  obtain ⟨issued, _, htasks⟩ := henv.kept hs hok.live
  have hstay : ∀ {task : Task}, task ∈ s.tasks → task ∈ s'.tasks := fun hold => by
    rw [htasks]
    exact List.mem_append_left _ hold
  refine ⟨hprov, fun task htask => ?_, ?_, ?_, fun hgood r hr hheld => ?_⟩
  · rcases henv.mem htask with hold | ⟨call, rfl, rfl⟩
    · exact hinv.calls task hold
    · cases call <;> first | exact hok | exact hok.elim | trivial
  · refine hinv.entry.same (by rw [henv.sql]) fun b => ⟨fun htask => ?_, hstay⟩
    rcases henv.mem htask with hold | ⟨call, _, heq⟩
    · exact hold
    · cases call <;> cases heq
  · refine hinv.rows.same (by rw [henv.sql]) fun task htask r hr => ?_
    rcases henv.mem htask with hold | ⟨call, _, rfl⟩
    · exact ⟨task, hold, hr⟩
    · exact absurd hr (start_not_held call r).1
  · have hold : s.Tends r := by
      obtain ⟨task, htask, hr⟩ := hheld
      rcases henv.mem htask with hold | ⟨call, _, rfl⟩
      · exact ⟨task, hold, hr⟩
      · exact absurd hr (start_not_held call r).2
    obtain ⟨f, hf⟩ := hinv.files (flawless_of_step hok hs hgood) r hr hold
    refine ⟨f, hf.same (by rw [henv.fs]) fun ino off => ⟨fun htask => ?_, hstay⟩⟩
    rcases henv.mem htask with hold | ⟨call, _, heq⟩
    · exact hold
    · cases call <;> cases heq

theorem RaceInv.move (hcf : CollisionFree db P) (hP : ∀ r ∈ x.newer.file.chunks, P r)
    (hinv : RaceInv db P x s) (hprov : Provenance db P s') {t : ℕ} {c : Choice}
    {task task' : Task} (hok : x.Orderly db s (.step t c)) (hs : step db s (.step t c) = some s')
    (hcall : CallStep db s t c s' task task') : RaceInv db P x s' := by
  obtain ⟨hplays, horder, hkeeps, hfinds⟩ := hok
  have howns := hinv.calls task hcall.mem_here
  have hfiles : ∀ r ∈ x.newer.file.chunks, (∀ pc, task ≠ .upsertChunk r pc) →
      (∀ pc, task' ≠ .upsertChunk r pc) → s'.Flawless → s'.Tends r → ∃ f, Tended db s' r f :=
    fun r hr hother hother' hgood hheld =>
      tended_other hcf hinv.prov (hP r hr) hr
        (hinv.files (flawless_of_step hplays hs hgood) r hr) hkeeps hcall hother hother' hheld
  cases task with
  | upsert row pc =>
      obtain ⟨pc', rfl, hup⟩ := hcall.step.of_upsert
      refine ⟨hprov, fun other hmem => ?_, hinv.entry.upsert howns hcall hup, ?_,
        fun hgood r hr => hfiles r hr (by simp) (by simp) hgood⟩
      · rcases hcall.mem hmem with rfl | hold
        · exact howns
        · exact hinv.calls other hold
      · refine hinv.rows.same (stepUpsert_frame hup).1 fun other hmem r hr => ?_
        rcases hcall.mem hmem with rfl | hold
        · simp [Task.committed] at hr
        · exact ⟨other, hold, hr⟩
  | upsertChunk r pc =>
      obtain ⟨pc', rfl, hup⟩ := hcall.step.of_upload
      refine ⟨hprov, fun other hmem => ?_, hinv.entry.same ?_ fun b => ?_,
        hinv.rows.upload horder hcall hup, fun hgood r' hr' hheld => ?_⟩
      · rcases hcall.mem hmem with rfl | hold
        · trivial
        · exact hinv.calls other hold
      · rcases hup.sql with hsql | ⟨_, _, _, _, _, _, hcommit⟩
        · rw [hsql]
        · obtain ⟨_, hsql, _⟩ := Sql.upsertChunk_ok hcommit
          rw [hsql]
          rfl
      · exact hcall.mem_iff (by simp) (by simp)
      · by_cases hsame : r' = r
        · subst hsame
          exact tended_own hr' (hinv.files (flawless_of_step hplays hs hgood) r' hr')
            (hinv.prov.not_isDir _) hkeeps hfinds hcall (hgood _ hcall.mem_moved) hup hheld
        · have hne : ∀ pc pc', Task.upsertChunk r pc ≠ .upsertChunk r' pc' := by
            intro pc pc' heq
            cases heq
            exact hsame rfl
          exact hfiles r' hr' (hne pc) (hne pc') hgood hheld
  | _ => exact howns.elim

theorem raceInv_step (hcf : CollisionFree db P) (holder : ∀ r ∈ x.older.file.chunks, P r)
    (hnewer : ∀ r ∈ x.newer.file.chunks, P r) (hinv : RaceInv db P x s)
    (hok : x.Orderly db s a) (hs : step db s a = some s') : RaceInv db P x s' := by
  have hprov : Provenance db P s' := by
    refine provenance_step hinv.prov (fun r hr => ?_) hs
    have hplays := hok.1
    cases a with
    | spawn call =>
        cases call with
        | upsertChunk req =>
            cases hr
            exact hplays.elim (fun h => holder r h.2) fun h => hnewer r h.2
        | _ => cases hr
    | _ => cases hr
  rcases step_cases hs with ⟨t, c, task, task', rfl, hcall⟩ | henv
  · exact hinv.move hcf hnewer hprov hok hs hcall
  · exact hinv.quiet hprov hok.1 hs henv

theorem raceInv_start {now : Time} {s₀ : Sys}
    (h₀ : Reach (step db) (UploadsIn P) (Sys.init db now) s₀)
    (hold : s₀.st.sql.Newer x.newer.row) : RaceInv db P x ⟨s₀.st, []⟩ where
  prov := by
    have hprov := provenance (fun _ _ hok => hok) h₀
    exact ⟨by simp, hprov.rows, hprov.shallow⟩
  calls := by simp
  entry := {
    entry := .inl hold
    put := by simp
    applied := by
      intro hthere
      have := hold _ hthere
      omega }
  rows := by simp [RowsHeld]
  files := by simp [Sys.Tends]

end

theorem Task.failed_of_returnedOk {task : Task} (h : task.returnedOk = true) :
    task.failed = false := by
  unfold Task.returnedOk at h
  split at h
  · rfl
  · rfl
  · contradiction

/-- Two versions of a file are put at the same time, over whatever a run has left. When
every call has returned `Ok` and the newer version is finished, the entry is its entry and
the chunks are its chunks, provided its timestamp is newer than what was there, no chunk
was committed over one of its own, none of its files was removed once a call counted on
it, and no upload took a damaged file for its own. -/
theorem newer_wins {db : VmIoDb} {P : ChunkReq → Prop} (hcf : CollisionFree db P) {now : Time}
    {s₀ s : Sys} (h₀ : Reach (step db) (UploadsIn P) (Sys.init db now) s₀) {x : Race}
    (holder : ∀ r ∈ x.older.file.chunks, P r) (hnewer : ∀ r ∈ x.newer.file.chunks, P r)
    (hold : s₀.st.sql.Newer x.newer.row) (h : Reach (step db) (x.Orderly db) ⟨s₀.st, []⟩ s)
    (hok : ∀ task ∈ s.tasks, task.returnedOk = true) (hfin : x.newer.Finished s) :
    s.st.sql.get x.newer.file.cls x.newer.file.key = some (s.st.sql.toEntry x.newer.row) ∧
      ∀ r ∈ x.newer.file.chunks,
        getChunk db s.st r.cls r.key r.idx r.isFinal = .ok (some r.data) := by
  have hinv : RaceInv db P x s := h.invariant (raceInv_start h₀ hold)
    fun _ _ _ hinv hok hs => raceInv_step hcf holder hnewer hinv hok hs
  obtain ⟨⟨b, hput⟩, hchunks⟩ := hfin
  have hfind := hinv.entry.put b hput
  refine ⟨?_, fun r hr => ?_⟩
  · rw [x.newer.row_pk] at hfind
    unfold Sql.get
    rw [show (x.newer.file.cls, x.newer.file.key) = x.newer.file.entryKey from rfl, hfind,
      Option.map_some]
  · have hdone := hchunks (hinv.entry.applied hfind) r hr
    have hrow := hinv.rows r hr _ hdone rfl
    obtain ⟨f, hf⟩ := hinv.files (fun task hmem => Task.failed_of_returnedOk (hok task hmem)) r hr
      ⟨_, hdone, rfl⟩
    have hcomplete : Complete db s.st r := by
      refine ⟨f, hf.file, hf.whole.resolve_right ?_⟩
      rintro ⟨off, hmem, _⟩
      have hreturned := hok _ hmem
      simp [Task.returnedOk] at hreturned
    rw [getChunk_row r.isFinal hrow hcomplete, if_pos rfl]

/-! ### Two runs -/

def Put.isFinished (v : Put) (s : Sys) : Bool :=
  v.applied s && v.file.chunks.all fun r => s.tasks.any (Task.uploaded r)

theorem Put.finished_of_isFinished {v : Put} {s : Sys} (h : v.isFinished s = true) :
    v.Finished s := by
  rw [Put.isFinished, Bool.and_eq_true, List.all_eq_true] at h
  refine ⟨⟨true, Put.applied_iff.mp h.1⟩, fun _ r hr => ?_⟩
  obtain ⟨task, hmem, huploaded⟩ := List.any_eq_true.mp (h.2 r hr)
  exact Task.eq_of_uploaded task huploaded ▸ hmem

namespace Vectors

/-- Two versions of a file of one byte. -/
def race : Race where
  older := ⟨entry, fileA, rfl⟩
  newer := ⟨laterEntry, fileB, rfl⟩
  same_key := rfl
  same_count := rfl
  older_lt := by decide

/-- Both entries are put, and the uploads of both chunks are run up to their transactions. -/
def raceSteps : List Action :=
  [.spawn (.upsert entry), .spawn (.upsert laterEntry), .step 0 .ok, .step 1 .ok, .step 0 .ok,
    .step 1 .ok, .spawn (.upsertChunk reqA), .spawn (.upsertChunk reqB)] ++
    writeSteps 3 ++ writeSteps 2

end Vectors

/-- The chunks are committed in the order of the versions. -/
theorem newer_wins_in_order :
    ∃ s, Reach (step Vectors.db) (Vectors.race.Orderly Vectors.db) (Sys.init Vectors.db 0) s ∧
      Vectors.race.older.Finished s ∧
      s.st.sql.get "c" "k" = some (s.st.sql.toEntry Vectors.laterEntry) ∧
      ∀ r ∈ Vectors.fileB.chunks,
        getChunk Vectors.db s.st r.cls r.key r.idx r.isFinal = .ok (some r.data) := by
  obtain ⟨s, hreach, hok, holder, hnewer⟩ := Reach.exists_of_runOk (step Vectors.db)
    (Vectors.race.Orderly Vectors.db) (Sys.init Vectors.db 0)
    (Vectors.raceSteps ++ [.step 2 .ok, .step 3 .ok, .step 3 .ok])
    (fun s => (∀ task ∈ s.tasks, task.returnedOk = true) ∧
      Vectors.race.older.isFinished s = true ∧ Vectors.race.newer.isFinished s = true)
    (by decide +kernel)
  have hA : ∀ r ∈ Vectors.race.older.file.chunks, Vectors.uploads r := by decide
  have hB : ∀ r ∈ Vectors.race.newer.file.chunks, Vectors.uploads r := by decide
  have hnew : (Sys.init Vectors.db 0).st.sql.Newer Vectors.race.newer.row := by
    intro old hold
    cases hold
  have hwins := newer_wins Vectors.collisionFree .refl hA hB hnew hreach hok
    (Put.finished_of_isFinished hnewer)
  exact ⟨s, hreach, Put.finished_of_isFinished holder, hwins⟩

/-- The chunk of the older version is committed last: every call returns `Ok`, and the
entry of the newer version has the content of the older. -/
theorem newer_wins_fails :
    ∃ s, Reach (step Vectors.db) Vectors.race.Plays (Sys.init Vectors.db 0) s ∧
      (∀ task ∈ s.tasks, task.returnedOk = true) ∧ Vectors.race.older.Finished s ∧
      Vectors.race.newer.Finished s ∧
      s.st.sql.get "c" "k" = some (s.st.sql.toEntry Vectors.laterEntry) ∧
      getChunk Vectors.db s.st "c" "k" 0 true = .ok (some [0x41]) ∧
      Vectors.fileA.parts = [[0x41]] ∧ Vectors.fileB.parts = [[0x42]] := by
  obtain ⟨s, hreach, hok, holder, hnewer, hget, hdata⟩ := Reach.exists_of_runOk (step Vectors.db)
    Vectors.race.Plays (Sys.init Vectors.db 0)
    (Vectors.raceSteps ++ [.step 3 .ok, .step 2 .ok, .step 2 .ok])
    (fun s => (∀ task ∈ s.tasks, task.returnedOk = true) ∧
      Vectors.race.older.isFinished s = true ∧ Vectors.race.newer.isFinished s = true ∧
      s.st.sql.get "c" "k" = some (s.st.sql.toEntry Vectors.laterEntry) ∧
      getChunk Vectors.db s.st "c" "k" 0 true = .ok (some [0x41])) (by decide +kernel)
  exact ⟨s, hreach, hok, Put.finished_of_isFinished holder, Put.finished_of_isFinished hnewer,
    hget, hdata, rfl, rfl⟩

end VmIo.Db
