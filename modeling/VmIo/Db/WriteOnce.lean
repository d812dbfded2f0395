import VmIo.Db.Removal

/-!
What the blob files hold.

An upload opens its file after having looked at it, and the look and the
opening are two steps. As long as no upload empties and no call removes a file
that a committed row or another upload counts on, the file of every committed
row holds the whole ciphertext (`filesOk_step`). Uploads of one chunk whose
checks take turns are careful in this way (`Turns.careful`).
-/

namespace VmIo.Db

open VmIo.Lib

/-- The upload's blob file holds the whole ciphertext. -/
def Complete (db : VmIoDb) (st : Store) (r : ChunkReq) : Prop :=
  ∃ f, st.fs.file? (db.path (db.blobId r)) = some f ∧ f.data = db.cipher r

/-- The blob of an upload that has opened its file and not yet left its transaction. -/
def Task.opened (db : VmIoDb) : Task → Option Digest
  | .upsertChunk r (.write _ _) => some (db.blobId r)
  | .upsertChunk r (.txn _) => some (db.blobId r)
  | _ => none

/-- The blob of an upload that counts on bytes being in its file. -/
def Task.counts (db : VmIoDb) : Task → Option Digest
  | .upsertChunk r (.write _ off) => if off = 0 then none else some (db.blobId r)
  | .upsertChunk r (.txn _) => some (db.blobId r)
  | _ => none

/-- The blob whose file the next step of a call empties. Emptying the file of an
empty chunk loses nothing. -/
def Task.truncates (db : VmIoDb) : Task → Option Digest
  | .upsertChunk r (.create _) => if r.data = [] then none else some (db.blobId r)
  | _ => none

/-- The blob whose file the next step of a call removes. -/
def Task.removes (db : VmIoDb) : Task → Option Digest
  | .upsertChunk r (.removeOwn _) => some (db.blobId r)
  | .cleanupDir pc => pc.victim
  | task => task.pending.head?

def Sys.mover (s : Sys) : Action → Option Task
  | .step t .ok => s.tasks[t]?
  | _ => none

/-- The blob, if there is one, is neither referenced by a committed row nor in
use by an upload. -/
def Sys.Spares (s : Sys) (use : Task → Option Digest) (blob : Option Digest) : Prop :=
  ∀ b ∈ blob, s.st.Unreferenced b ∧ ∀ other ∈ s.tasks, b ∉ use other

/-- No step empties a file that a committed row references or that another
upload counts on, and none removes a file that a committed row references or
another upload has open. -/
def Careful (db : VmIoDb) (s : Sys) (a : Action) : Prop :=
  ∀ task ∈ s.mover a,
    s.Spares (Task.counts db) (task.truncates db) ∧ s.Spares (Task.opened db) (task.removes db)

theorem Removes.removes {db : VmIoDb} {task : Task} {b : Digest} (h : Removes db task b) :
    task.removes db = some b := by
  cases h with
  | own r e => rfl
  | pending h =>
      unfold Task.removes
      split
      · simp [Task.pending] at h
      · simp [Task.pending] at h
      · simp [h]
  | cleanup h => exact h

structure FilesOk (db : VmIoDb) (P : ChunkReq → Prop) (s : Sys) : Prop where
  /-- a blob file is never anything but a beginning of its ciphertext -/
  piece : ∀ r, P r → ∀ f, s.st.fs.file? (db.path (db.blobId r)) = some f → f.data <+: db.cipher r
  committed : ∀ r, P r → ¬s.st.Unreferenced (db.blobId r) → Complete db s.st r
  ready : ∀ (t : ℕ) r wrote, s.tasks[t]? = some (.upsertChunk r (.txn wrote)) →
    Complete db s.st r
  /-- what a writer has written is there -/
  writing : ∀ (t : ℕ) r ino off, s.tasks[t]? = some (.upsertChunk r (.write ino off)) →
    ∃ f, s.st.fs.file? (db.path (db.blobId r)) = some f ∧ off ≤ f.data.length ∧
      (r.data ≠ [] → f.ino = ino)

theorem filesOk_init (db : VmIoDb) (P : ChunkReq → Prop) (now : Time) :
    FilesOk db P (Sys.init db now) where
  piece := by
    intro r _ f hf
    rw [Fs.file?_eq_some_iff] at hf
    simp only [Sys.init, Fs.init, Fs.node?, Table.find?_put, Table.find?_empty] at hf
    split at hf <;> simp at hf
  committed := by
    intro r _ href
    exact absurd (by simp [Store.Unreferenced, Sys.init, Sql.empty]) href
  ready := by simp [Sys.init]
  writing := by simp [Sys.init]

@[simp] theorem VmIoDb.cipher_length (db : VmIoDb) (r : ChunkReq) :
    (db.cipher r).length = r.data.length :=
  encryptChunk_length _ _ _ _

theorem FilesOk.complete_of_length {db : VmIoDb} {P : ChunkReq → Prop} {s : Sys}
    (hfiles : FilesOk db P s) {r : ChunkReq} (hr : P r) {f : File}
    (hf : s.st.fs.file? (db.path (db.blobId r)) = some f)
    (hlen : (db.cipher r).length ≤ f.data.length) : Complete db s.st r :=
  ⟨f, hf, (hfiles.piece r hr f hf).eq_of_length_le hlen⟩

/-- A step that does not remove a blob's file leaves it a beginning of the
ciphertext, and no shorter unless the step empties it. -/
theorem FilesOk.grows {db : VmIoDb} {P : ChunkReq → Prop} (hcf : CollisionFree db P) {s s' : Sys}
    (hprov : Provenance db P s) (hfiles : FilesOk db P s) {t : ℕ} {c : Choice} {task task' : Task}
    (hcall : CallStep db s t c s' task task') {r : ChunkReq} (hr : P r) {f : File}
    (hf : s.st.fs.file? (db.path (db.blobId r)) = some f)
    (hrem : c = .ok → ¬Removes db task (db.blobId r)) :
    ∃ f', s'.st.fs.file? (db.path (db.blobId r)) = some f' ∧ f'.data <+: db.cipher r ∧
      (r.data ≠ [] → f'.ino = f.ino) ∧
      ((c = .ok → db.blobId r ∉ task.truncates db) → f.data.length ≤ f'.data.length) := by
  have hpiece := hfiles.piece r hr f hf
  have hhere := hcall.here
  cases hcall.step.file? (db.blobId r) with
  | same h => exact ⟨f, h.trans hf, hpiece, fun _ => rfl, fun _ => le_rfl⟩
  | removed hrm h => exact absurd hrm (hrem rfl)
  | created hb hino h =>
      rename_i r₀ i ino
      have hsame : r₀ = r := hcf.eq_of_blobId (hprov.uploads t r₀ _ hhere) hr hb
      subst hsame
      refine ⟨_, h, List.nil_prefix, fun _ => (hino f hf).symm, fun htrunc => ?_⟩
      have hempty : r₀.data = [] := by
        by_contra hne
        exact htrunc rfl (by simp [Task.truncates, hne])
      have hzero := hpiece.length_le
      rw [db.cipher_length, hempty] at hzero
      simpa using hzero
  | written hb hoff h =>
      rename_i r₀ ino off n
      have hsame : r₀ = r := hcf.eq_of_blobId (hprov.uploads t r₀ _ hhere) hr hb
      subst hsame
      obtain ⟨g, hg, hreach, _⟩ := hfiles.writing t r₀ ino off hhere
      rw [hf] at hg h
      cases hg
      have hover := overlay_prefix hpiece hreach hoff
      by_cases hi : f.ino = ino
      · rw [Option.map_some, if_pos hi] at h
        refine ⟨_, h, hover.1, fun _ => hi.symm, fun _ => ?_⟩
        simp only [hover.2]
        exact le_max_left _ _
      · rw [Option.map_some, if_neg hi] at h
        exact ⟨f, h, hpiece, fun _ => rfl, fun _ => le_rfl⟩

theorem FilesOk.complete_step {db : VmIoDb} {P : ChunkReq → Prop} (hcf : CollisionFree db P)
    {s s' : Sys} (hprov : Provenance db P s) (hfiles : FilesOk db P s) {t : ℕ} {c : Choice}
    {task task' : Task} (hcall : CallStep db s t c s' task task') {r : ChunkReq} (hr : P r)
    (hc : Complete db s.st r) (hrem : c = .ok → ¬Removes db task (db.blobId r))
    (htrunc : c = .ok → db.blobId r ∉ task.truncates db) : Complete db s'.st r := by
  obtain ⟨f, hf, hdata⟩ := hc
  obtain ⟨f', hf', hpiece, _, hlen⟩ := hfiles.grows hcf hprov hcall hr hf hrem
  exact ⟨f', hf', hpiece.eq_of_length_le (hdata ▸ hlen htrunc)⟩

theorem UpsertChunkStep.to_txn {db : VmIoDb} {st st' : Store} {r : ChunkReq}
    {pc pc' : UpsertChunkPc} {c : Choice} {wrote : Bool}
    (h : UpsertChunkStep db st r pc c st' pc') (hpc : pc' = .txn wrote) :
    st' = st ∧ ((pc = .stat ∧ wrote = false ∧
        ∃ info, st.fs.metadata (db.path (db.blobId r)) = .ok info ∧
          info.len = (db.cipher r).length) ∨
      ∃ ino, pc = .write ino (db.cipher r).length ∧ wrote = true) := by
  cases h with
  | skip info h hlen =>
      cases hpc
      exact ⟨rfl, .inl ⟨rfl, rfl, info, h, hlen⟩⟩
  | written ino =>
      cases hpc
      exact ⟨rfl, .inr ⟨ino, rfl, rfl⟩⟩
  | abort wrote' => cases wrote' <;> simp [upsertChunkFailed] at hpc
  | commit wrote' sql prev => cases prev <;> simp [upsertChunkCommitted] at hpc
  | _ => contradiction

theorem UpsertChunkStep.to_write {db : VmIoDb} {st st' : Store} {r : ChunkReq}
    {pc pc' : UpsertChunkPc} {c : Choice} {ino off : ℕ}
    (h : UpsertChunkStep db st r pc c st' pc') (hpc : pc' = .write ino off) :
    (∃ i, pc = .create i ∧ c = .ok ∧ off = 0 ∧
      st'.fs.file? (db.path (db.blobId r)) = some ⟨ino, [], st.now⟩) ∨
    ∃ off₀ n, pc = .write ino off₀ ∧ off = off₀ + n ∧ 0 < n ∧ off ≤ (db.cipher r).length ∧
      st'.fs = st.fs.writeAt (db.path (db.blobId r)) ino off₀
        (((db.cipher r).drop off₀).take n) st.now := by
  cases h with
  | create i fs ino' h =>
      cases hpc
      exact .inl ⟨i, rfl, rfl, rfl, by rw [Fs.file?_create h, if_pos rfl]⟩
  | write ino' off₀ n hn hoff =>
      cases hpc
      exact .inr ⟨off₀, n, rfl, rfl, hn, hoff, rfl⟩
  | abort wrote' => cases wrote' <;> simp [upsertChunkFailed] at hpc
  | commit wrote' sql prev => cases prev <;> simp [upsertChunkCommitted] at hpc
  | _ => contradiction

/-! ### One step keeps the files in order -/

section

variable {db : VmIoDb} {P : ChunkReq → Prop} {s s' : Sys} {t : ℕ} {c : Choice} {task task' : Task}

theorem Careful.of_removes (hok : Careful db s (.step t c)) (hcall : CallStep db s t c s' task task')
    {b : Digest} (hc : c = .ok) (hrem : Removes db task b) :
    s.st.Unreferenced b ∧ ∀ other ∈ s.tasks, b ∉ other.opened db := by
  subst hc
  exact (hok task hcall.here).2 b hrem.removes

theorem Careful.of_truncates (hok : Careful db s (.step t c))
    (hcall : CallStep db s t c s' task task') {b : Digest} (hc : c = .ok)
    (htrunc : b ∈ task.truncates db) :
    s.st.Unreferenced b ∧ ∀ other ∈ s.tasks, b ∉ other.counts db := by
  subst hc
  exact (hok task hcall.here).1 b htrunc

theorem FilesOk.piece_step (hcf : CollisionFree db P) (hprov : Provenance db P s)
    (hfiles : FilesOk db P s) (hcall : CallStep db s t c s' task task') {r : ChunkReq} (hr : P r)
    {f : File} (hf : s'.st.fs.file? (db.path (db.blobId r)) = some f) : f.data <+: db.cipher r := by
  have hhere := hcall.here
  cases hcall.step.file? (db.blobId r) with
  | same h => exact hfiles.piece r hr f (h ▸ hf)
  | removed _ h =>
      rw [h] at hf
      contradiction
  | created _ _ h =>
      rw [h] at hf
      cases hf
      exact List.nil_prefix
  | written hb hoff h =>
      rename_i r₀ ino off n
      have hsame : r₀ = r := hcf.eq_of_blobId (hprov.uploads t r₀ _ hhere) hr hb
      subst hsame
      obtain ⟨g, hg, _, _⟩ := hfiles.writing t r₀ ino off hhere
      obtain ⟨f', hf', hpiece, _, _⟩ := hfiles.grows hcf hprov hcall hr hg
        (fun hc => by contradiction)
      rw [hf] at hf'
      cases hf'
      exact hpiece

theorem FilesOk.committed_step (hcf : CollisionFree db P) (hprov : Provenance db P s)
    (hfiles : FilesOk db P s) (hok : Careful db s (.step t c)) (hs : step db s (.step t c) = some s')
    (hcall : CallStep db s t c s' task task') {r : ChunkReq} (hr : P r)
    (href : ¬s'.st.Unreferenced (db.blobId r)) : Complete db s'.st r := by
  by_cases hold : s.st.Unreferenced (db.blobId r)
  · -- the row is new: its upload commits in this very step
    by_cases hcommit : ∀ r₀ ∈ s.committing (.step t c), db.blobId r₀ ≠ db.blobId r
    · exact absurd (hold.step hcommit hs) href
    · simp only [ne_eq, not_forall, not_not, exists_prop] at hcommit
      obtain ⟨r₀, hr₀, hb⟩ := hcommit
      obtain ⟨t₀, wrote, _, hcall₀, hfs, _⟩ := step_committing hr₀ hs
      have hsame : r₀ = r := hcf.eq_of_blobId (hprov.uploads t₀ r₀ _ hcall₀.here) hr hb
      subst hsame
      obtain ⟨f, hf, hdata⟩ := hfiles.ready t₀ r₀ wrote hcall₀.here
      exact ⟨f, by rw [hfs]; exact hf, hdata⟩
  · refine hfiles.complete_step hcf hprov hcall hr (hfiles.committed r hr hold) ?_ ?_
    · exact fun hc hrem => hold (hok.of_removes hcall hc hrem).1
    · exact fun hc htrunc => hold (hok.of_truncates hcall hc htrunc).1

theorem FilesOk.ready_step (hcf : CollisionFree db P) (hprov : Provenance db P s)
    (hfiles : FilesOk db P s) (hok : Careful db s (.step t c))
    (hcall : CallStep db s t c s' task task') {u : ℕ} {r : ChunkReq} {wrote : Bool}
    (hu : s'.tasks[u]? = some (.upsertChunk r (.txn wrote))) : Complete db s'.st r := by
  rcases hcall.task hu with ⟨rfl, rfl⟩ | ⟨_, hold⟩
  · obtain ⟨pc, rfl, hstep⟩ := hcall.step.upload
    have hr := hprov.uploads u r pc hcall.here
    obtain ⟨hst, hfrom⟩ := hstep.to_txn rfl
    rw [hst]
    rcases hfrom with ⟨_, _, info, hinfo, hlen⟩ | ⟨ino, rfl, _⟩
    · obtain ⟨f, hf, hflen⟩ := Fs.file?_of_metadata (hprov.not_isDir _) hinfo
      exact hfiles.complete_of_length hr hf (by rw [← hlen, hflen])
    · obtain ⟨f, hf, hreach, _⟩ := hfiles.writing u r ino _ hcall.here
      exact hfiles.complete_of_length hr hf hreach
  · have hmem := List.mem_of_getElem? hold
    refine hfiles.complete_step hcf hprov hcall (hprov.uploads u r _ hold)
      (hfiles.ready u r wrote hold) ?_ ?_
    · exact fun hc hrem => (hok.of_removes hcall hc hrem).2 _ hmem rfl
    · exact fun hc htrunc => (hok.of_truncates hcall hc htrunc).2 _ hmem rfl

theorem FilesOk.writing_step (hcf : CollisionFree db P) (hprov : Provenance db P s)
    (hfiles : FilesOk db P s) (hok : Careful db s (.step t c))
    (hcall : CallStep db s t c s' task task') {u : ℕ} {r : ChunkReq} {ino off : ℕ}
    (hu : s'.tasks[u]? = some (.upsertChunk r (.write ino off))) :
    ∃ f, s'.st.fs.file? (db.path (db.blobId r)) = some f ∧ off ≤ f.data.length ∧
      (r.data ≠ [] → f.ino = ino) := by
  rcases hcall.task hu with ⟨rfl, rfl⟩ | ⟨_, hold⟩
  · obtain ⟨pc, rfl, hstep⟩ := hcall.step.upload
    rcases hstep.to_write rfl with ⟨i, _, _, rfl, hfile⟩ | ⟨off₀, n, rfl, rfl, hn, hoff, hfs⟩
    · exact ⟨_, hfile, Nat.zero_le _, fun _ => rfl⟩
    · obtain ⟨f, hf, hreach, hino⟩ := hfiles.writing u r ino off₀ hcall.here
      have hne : r.data ≠ [] := by
        rintro hnil
        rw [db.cipher_length, hnil, List.length_nil] at hoff
        omega
      have hpiece := hfiles.piece r (hprov.uploads u r _ hcall.here) f hf
      have hover := overlay_prefix hpiece hreach hoff
      refine ⟨_, by rw [hfs, Fs.file?_writeAt, if_pos rfl, hf, Option.map_some, if_pos (hino hne)],
        ?_, fun _ => rfl⟩
      simp only [hover.2]
      exact le_max_right _ _
  · have hmem := List.mem_of_getElem? hold
    obtain ⟨f, hf, hreach, hino⟩ := hfiles.writing u r ino off hold
    obtain ⟨f', hf', _, hino', hlen⟩ := hfiles.grows hcf hprov hcall (hprov.uploads u r _ hold) hf
      (fun hc hrem => (hok.of_removes hcall hc hrem).2 _ hmem rfl)
    refine ⟨f', hf', ?_, fun hne => (hino' hne).trans (hino hne)⟩
    rcases Nat.eq_zero_or_pos off with rfl | hpos
    · exact Nat.zero_le _
    · refine hreach.trans (hlen fun hc htrunc => ?_)
      have hcount := (hok.of_truncates hcall hc htrunc).2 _ hmem
      exact hcount (by simp [Task.counts, Nat.pos_iff_ne_zero.mp hpos])

end

theorem filesOk_step {db : VmIoDb} {P : ChunkReq → Prop} (hcf : CollisionFree db P)
    {s s' : Sys} {a : Action} (hprov : Provenance db P s) (hfiles : FilesOk db P s)
    (hok : Careful db s a) (h : step db s a = some s') : FilesOk db P s' := by
  rcases step_cases h with ⟨t, c, task, task', rfl, hcall⟩ | henv
  · exact {
      piece := fun r hr f hf => hfiles.piece_step hcf hprov hcall hr hf
      committed := fun r hr href => hfiles.committed_step hcf hprov hok h hcall hr href
      ready := fun u r wrote hu => hfiles.ready_step hcf hprov hok hcall hu
      writing := fun u r ino off hu => hfiles.writing_step hcf hprov hok hcall hu }
  · refine ⟨henv.fs ▸ hfiles.piece, ?_, ?_, ?_⟩
    · intro r hr href
      simp only [Store.Unreferenced, henv.sql] at href
      simp only [Complete, henv.fs]
      exact hfiles.committed r hr href
    · intro u r wrote hu
      simp only [Complete, henv.fs]
      rcases henv.tasks u _ hu with hold | ⟨call, _, hcall⟩
      · exact hfiles.ready u r wrote hold
      · cases call <;> cases hcall
    · intro u r ino off hu
      rw [henv.fs]
      rcases henv.tasks u _ hu with hold | ⟨call, _, hcall⟩
      · exact hfiles.writing u r ino off hold
      · cases call <;> cases hcall

/-! ### Concurrent uploads of one chunk -/

/-- Only entry upserts and uploads of the chunk `r` are issued. -/
def OnlyUploads (r : ChunkReq) (_ : Sys) : Action → Prop
  | .spawn (.upsertChunk r') => r' = r
  | .spawn (.upsert _) => True
  | .spawn _ => False
  | _ => True

instance (r : ChunkReq) (s : Sys) (a : Action) : Decidable (OnlyUploads r s a) :=
  match a with
  | .spawn (.upsertChunk r') => inferInstanceAs (Decidable (r' = r))
  | .spawn (.upsert _) => isTrue trivial
  | .spawn (.rm ..) => isFalse id
  | .spawn .pruneBacklog => isFalse id
  | .spawn .cleanupDir => isFalse id
  | .spawn (.getChunk ..) => isFalse id
  | .step .. => isTrue trivial
  | .tick _ => isTrue trivial
  | .crash => isTrue trivial

theorem collisionFree_single (db : VmIoDb) (r : ChunkReq) : CollisionFree db (· = r) where
  sha256 := by
    rintro r₁ r₂ rfl rfl _
    rfl
  hkdf := by
    rintro r₁ r₂ rfl rfl _
    rfl

/-! ### Uploads that take turns -/

/-- The blob of an upload between its metadata check and its return. -/
def Task.busy (db : VmIoDb) : Task → Option Digest
  | .upsertChunk _ .start => none
  | .upsertChunk _ .stat => none
  | .upsertChunk _ (.done _) => none
  | .upsertChunk r _ => some (db.blobId r)
  | _ => none

/-- The blob of an upload that is to write its file and has not opened it, or
that is to remove it after a failed transaction. -/
def Task.spoils (db : VmIoDb) : Task → Option Digest
  | .upsertChunk r (.mkdir _) => some (db.blobId r)
  | .upsertChunk r (.create _) => some (db.blobId r)
  | .upsertChunk r (.removeOwn _) => some (db.blobId r)
  | _ => none

def Sys.Only (s : Sys) (t : ℕ) (use : Task → Option Digest) (b : Digest) : Prop :=
  ∀ other ∈ s.tasks.eraseIdx t, b ∉ use other

instance (s : Sys) (t : ℕ) (use : Task → Option Digest) (b : Digest) :
    Decidable (s.Only t use b) :=
  inferInstanceAs (Decidable (∀ other ∈ _, _))

def Store.finds (db : VmIoDb) (st : Store) (r : ChunkReq) : Bool :=
  match st.fs.metadata (db.path (db.blobId r)) with
  | .ok info => info.len = (db.cipher r).length
  | .error _ => false

def Task.checking : Task → Option ChunkReq
  | .upsertChunk r .stat => some r
  | _ => none

/-- The upload that has written its file and is in its transaction. -/
def Task.inTxn : Task → Option ChunkReq
  | .upsertChunk r (.txn true) => some r
  | _ => none

/-- The metadata check of an upload comes at its turn. It finds the file only
while no other upload is to open or to remove it. The upload decides to write
only while no other is between its check and its return, and the check does not
fail while a row references the blob. -/
def ChecksInTurn (db : VmIoDb) (s : Sys) (t : ℕ) (c : Choice) (r : ChunkReq) : Prop :=
  if c = .ok ∧ s.st.finds db r then s.Only t (Task.spoils db) (db.blobId r)
  else (c = .fail → s.st.Unreferenced (db.blobId r)) ∧ s.Only t (Task.busy db) (db.blobId r)

/-- The transaction of an upload that wrote fails only while no row references
the blob and no other upload of it is between its check and its return. -/
def FailsInTurn (db : VmIoDb) (s : Sys) (t : ℕ) (c : Choice) (r : ChunkReq) : Prop :=
  c = .ok ∧ s.st.sql.hasEntry (r.cls, r.key) ∨
    s.st.Unreferenced (db.blobId r) ∧ s.Only t (Task.busy db) (db.blobId r)

instance (db : VmIoDb) (s : Sys) (t : ℕ) (c : Choice) (r : ChunkReq) :
    Decidable (ChecksInTurn db s t c r) :=
  inferInstanceAs (Decidable (ite ..))

instance (db : VmIoDb) (s : Sys) (t : ℕ) (c : Choice) (r : ChunkReq) :
    Decidable (FailsInTurn db s t c r) :=
  inferInstanceAs (Decidable (_ ∨ _))

/-- Uploads of one blob take turns. -/
def InTurn (db : VmIoDb) (s : Sys) : Action → Prop
  | .step t c => ∀ task ∈ s.tasks[t]?,
      (∀ r ∈ task.checking, ChecksInTurn db s t c r) ∧
        ∀ r ∈ task.inTxn, FailsInTurn db s t c r
  | _ => True

instance (db : VmIoDb) (s : Sys) (a : Action) : Decidable (InTurn db s a) :=
  match a with
  | .step t _ => inferInstanceAs (Decidable (∀ task ∈ s.tasks[t]?, _))
  | .spawn _ => isTrue trivial
  | .tick _ => isTrue trivial
  | .crash => isTrue trivial

/-- The call is an upsert or an upload, and removes no file but its own. -/
def Task.plain : Task → Bool
  | .upsert .. => true
  | .upsertChunk _ (.removePrev _) => false
  | .upsertChunk .. => true
  | _ => false

/-- An upload that is to open or to remove its file has it to itself, and no row
references the blob. -/
structure Turns (db : VmIoDb) (s : Sys) : Prop where
  plain : ∀ task ∈ s.tasks, task.plain
  alone : ∀ (t : ℕ) task, s.tasks[t]? = some task → ∀ b ∈ task.spoils db,
    s.st.Unreferenced b ∧ s.Only t (Task.busy db) b

theorem turns_init (db : VmIoDb) (now : Time) : Turns db (Sys.init db now) where
  plain := by simp [Sys.init]
  alone := by simp [Sys.init]

theorem Sys.Only.apply {s : Sys} {t u : ℕ} {use : Task → Option Digest} {b : Digest}
    (h : s.Only t use b) (hut : u ≠ t) {other : Task} (hu : s.tasks[u]? = some other) :
    b ∉ use other :=
  h other (List.mem_eraseIdx_iff_getElem?.mpr ⟨u, hut, hu⟩)

theorem Sys.Only.intro {s : Sys} {t : ℕ} {use : Task → Option Digest} {b : Digest}
    (h : ∀ u ≠ t, ∀ other, s.tasks[u]? = some other → b ∉ use other) : s.Only t use b := by
  intro other hmem
  obtain ⟨u, hut, hu⟩ := List.mem_eraseIdx_iff_getElem?.mp hmem
  exact h u hut other hu

theorem Task.spoils_busy {db : VmIoDb} {task : Task} {b : Digest} (h : b ∈ task.spoils db) :
    b ∈ task.busy db := by
  unfold Task.spoils at h
  split at h <;> first | exact h | contradiction

theorem Task.busy_upload {db : VmIoDb} {task : Task} {b : Digest} (h : b ∈ task.busy db) :
    ∃ r pc, task = .upsertChunk r pc := by
  unfold Task.busy at h
  split at h <;> first | exact ⟨_, _, rfl⟩ | contradiction

theorem Task.counts_busy {db : VmIoDb} {task : Task} {b : Digest} (h : b ∈ task.counts db) :
    b ∈ task.busy db := by
  unfold Task.counts at h
  split at h
  · split at h
    · contradiction
    · exact h
  · exact h
  · contradiction

theorem Task.opened_busy {db : VmIoDb} {task : Task} {b : Digest} (h : b ∈ task.opened db) :
    b ∈ task.busy db := by
  unfold Task.opened at h
  split at h <;> first | exact h | contradiction

theorem Task.truncates_spoils {db : VmIoDb} {task : Task} {b : Digest}
    (h : b ∈ task.truncates db) : b ∈ task.spoils db ∧ task.counts db = none := by
  unfold Task.truncates at h
  split at h
  · split at h
    · contradiction
    · exact ⟨h, rfl⟩
  · contradiction

theorem Task.removes_spoils {db : VmIoDb} {task : Task} (hplain : task.plain) {b : Digest}
    (h : b ∈ task.removes db) : b ∈ task.spoils db ∧ task.opened db = none := by
  unfold Task.removes at h
  split at h
  · exact ⟨h, rfl⟩
  · contradiction
  · unfold Task.pending at h
    split at h <;> contradiction

/-- What an upload has to itself no call uses, if the upload does not either. -/
theorem Turns.unused {db : VmIoDb} {s : Sys} (h : Turns db s) {t : ℕ} {task : Task}
    {use : Task → Option Digest} {b : Digest} (ht : s.tasks[t]? = some task)
    (hb : b ∈ task.spoils db) (hown : use task = none)
    (huse : ∀ {other : Task}, b ∈ use other → b ∈ other.busy db) :
    s.st.Unreferenced b ∧ ∀ other ∈ s.tasks, b ∉ use other := by
  obtain ⟨hunref, honly⟩ := h.alone t task ht b hb
  refine ⟨hunref, fun other hother hbad => ?_⟩
  obtain ⟨u, hu⟩ := List.mem_iff_getElem?.mp hother
  by_cases hut : u = t
  · subst hut
    rw [ht] at hu
    cases hu
    rw [hown] at hbad
    contradiction
  · exact honly.apply hut hu (huse hbad)

/-- Uploads that take turns are careful. -/
theorem Turns.careful {db : VmIoDb} {s : Sys} (h : Turns db s) (a : Action) : Careful db s a := by
  intro task hmover
  obtain ⟨t, rfl, ht⟩ : ∃ t, a = .step t .ok ∧ s.tasks[t]? = some task := by
    unfold Sys.mover at hmover
    split at hmover
    · exact ⟨_, rfl, hmover⟩
    · contradiction
  refine ⟨fun b hb => ?_, fun b hb => ?_⟩
  · obtain ⟨hspoils, hnone⟩ := Task.truncates_spoils hb
    exact h.unused ht hspoils hnone Task.counts_busy
  · obtain ⟨hspoils, hnone⟩ := Task.removes_spoils (h.plain task (List.mem_of_getElem? ht)) hb
    exact h.unused ht hspoils hnone Task.opened_busy

/-! One step of an upload, by what it may come to hold. -/

section

variable {db : VmIoDb} {st st' : Store} {r : ChunkReq} {pc pc' : UpsertChunkPc} {c : Choice}
  {b : Digest}

theorem UpsertChunkStep.busy (h : UpsertChunkStep db st r pc c st' pc')
    (hb : b ∈ Task.busy db (.upsertChunk r pc')) :
    b ∈ Task.busy db (.upsertChunk r pc) ∨ pc = .stat ∧ b = db.blobId r := by
  cases h with
  | skip info h hlen => exact .inr ⟨rfl, (Option.some_inj.mp hb).symm⟩
  | miss c h => exact .inr ⟨rfl, (Option.some_inj.mp hb).symm⟩
  | commit wrote sql prev h =>
      cases prev with
      | none => contradiction
      | some prev => exact .inl hb
  | abort wrote c e h =>
      cases wrote with
      | false => contradiction
      | true => exact .inl hb
  | _ => first | exact .inl hb | contradiction

theorem UpsertChunkStep.spoils (h : UpsertChunkStep db st r pc c st' pc')
    (hb : b ∈ Task.spoils db (.upsertChunk r pc')) :
    st'.sql = st.sql ∧ (b ∈ Task.spoils db (.upsertChunk r pc) ∨
      b = db.blobId r ∧ (pc = .stat ∧ (c = .fail ∨ st.finds db r = false) ∨
        pc = .txn true ∧ ¬(c = .ok ∧ st.sql.hasEntry (r.cls, r.key)))) := by
  cases h with
  | miss c h =>
      refine ⟨rfl, .inr ⟨(Option.some_inj.mp hb).symm, .inl ⟨rfl, h.imp_right ?_⟩⟩⟩
      rintro ⟨_, hshort⟩
      unfold Store.finds
      split
      · exact decide_eq_false (hshort _ ‹_›)
      · rfl
  | mkdir i fs h => exact ⟨rfl, .inl hb⟩
  | retry i => exact ⟨rfl, .inl hb⟩
  | commit wrote sql prev h => cases prev <;> contradiction
  | abort wrote c e h =>
      cases wrote with
      | false => contradiction
      | true =>
          refine ⟨rfl, .inr ⟨(Option.some_inj.mp hb).symm, .inr ⟨rfl, ?_⟩⟩⟩
          rintro ⟨rfl, hfk⟩
          rcases h with hc | ⟨_, hno⟩
          · contradiction
          · rw [show (db.row r).entryKey = (r.cls, r.key) from rfl, hfk] at hno
            contradiction
  | _ => contradiction

/-- An upload that commits the row all committed rows are has no previous blob to
remove. -/
theorem UpsertChunkStep.plain (hrows : ∀ row ∈ st.sql.entryFileChunks.rows, row = db.row r)
    (h : UpsertChunkStep db st r pc c st' pc') (hplain : Task.plain (.upsertChunk r pc)) :
    Task.plain (.upsertChunk r pc') := by
  cases h with
  | commit wrote sql prev hsql =>
      obtain ⟨_, _, hprev⟩ := Sql.upsertChunk_ok hsql
      have hnone : prev = none := by
        rw [hprev, Option.filter_eq_none_iff]
        intro b hb
        obtain ⟨old, hfind, rfl⟩ := Option.map_eq_some_iff.mp hb
        rw [hrows old (Table.find?_eq_some_iff.mp hfind).1]
        simp
      subst hnone
      rfl
  | abort wrote c e h => cases wrote <;> rfl
  | removePrev prev => contradiction
  | keepPrev prev => contradiction
  | _ => rfl

end

section

variable {db : VmIoDb} {r : ChunkReq} {s s' : Sys} {t : ℕ} {c : Choice} {task task' : Task}

theorem Turns.plain_step (hprov : Provenance db (· = r) s) (h : Turns db s)
    (hcall : CallStep db s t c s' task task') : task'.plain := by
  have hplain := h.plain task hcall.mem_here
  have hhere := hcall.here
  have hstep := hcall.step
  generalize s'.st = st' at hstep
  cases hstep with
  | upsert h => rfl
  | upsertChunk h =>
      rename_i r₀ pc pc'
      refine h.plain (fun row hrow => ?_) hplain
      obtain ⟨r₁, rfl, rfl⟩ := hprov.rows row hrow
      rw [hprov.uploads t r₀ _ hhere]
  | _ => contradiction

/-- An upload that decides to write, or whose transaction fails, has its file to itself:
a check that does not fail finds the file of a committed row. -/
theorem Turns.alone_moved (hprov : Provenance db (· = r) s) (hfiles : FilesOk db (· = r) s)
    (h : Turns db s) (hturn : InTurn db s (.step t c)) (hcall : CallStep db s t c s' task task')
    {b : Digest} (hb : b ∈ task'.spoils db) :
    s'.st.Unreferenced b ∧ s'.Only t (Task.busy db) b := by
  have hsame : s'.tasks.eraseIdx t = s.tasks.eraseIdx t := by
    rw [hcall.tasks, List.eraseIdx_set_eq]
  have hhere := hcall.here
  obtain ⟨r₀, pc', rfl⟩ := Task.busy_upload (Task.spoils_busy hb)
  obtain ⟨pc, rfl, hstep⟩ := hcall.step.upload
  obtain ⟨hsql, hfrom⟩ := hstep.spoils hb
  have key : s.st.Unreferenced b ∧ s.Only t (Task.busy db) b := by
    rcases hfrom with hold | ⟨rfl, ⟨rfl, rfl | hmiss⟩ | ⟨rfl, hfail⟩⟩
    · exact h.alone t _ hhere b hold
    · have hcheck := (hturn _ hhere).1 r₀ rfl
      rw [ChecksInTurn, if_neg (by simp)] at hcheck
      exact ⟨hcheck.1 rfl, hcheck.2⟩
    · have hcheck := (hturn _ hhere).1 r₀ rfl
      rw [ChecksInTurn, if_neg (by simp [hmiss])] at hcheck
      refine ⟨?_, hcheck.2⟩
      by_contra href
      obtain ⟨f, hf, hdata⟩ := hfiles.committed r₀ (hprov.uploads t r₀ _ hhere) href
      simp [Store.finds, Fs.metadata_len hf, hdata] at hmiss
    · exact ((hturn _ hhere).2 r₀ rfl).resolve_left hfail
  exact ⟨by rw [Store.Unreferenced, hsql]; exact key.1, by rw [Sys.Only, hsame]; exact key.2⟩

theorem Turns.alone_still (h : Turns db s) (hturn : InTurn db s (.step t c))
    (hs : step db s (.step t c) = some s') (hcall : CallStep db s t c s' task task') {u : ℕ}
    (hut : u ≠ t) {other : Task} (hu : s.tasks[u]? = some other) {b : Digest}
    (hb : b ∈ other.spoils db) : s'.st.Unreferenced b ∧ s'.Only u (Task.busy db) b := by
  obtain ⟨hunref, honly⟩ := h.alone u other hu b hb
  have hfree : b ∉ task.busy db := honly.apply (Ne.symm hut) hcall.here
  refine ⟨hunref.step ?_ hs, .intro fun v hvu third hv hthird => ?_⟩
  · rintro r₀ hr₀ rfl
    obtain ⟨t₀, wrote, heq, htask, _⟩ := committing_eq_some_iff.mp hr₀
    cases heq
    have hhere := hcall.here
    rw [htask] at hhere
    cases hhere
    exact hfree rfl
  · rcases hcall.task hv with ⟨rfl, rfl⟩ | ⟨_, hold⟩
    · obtain ⟨r₀, pc', rfl⟩ := Task.busy_upload hthird
      obtain ⟨pc, rfl, hstep⟩ := hcall.step.upload
      rcases hstep.busy hthird with hold | ⟨rfl, rfl⟩
      · exact hfree hold
      · have hcheck := (hturn _ hcall.here).1 r₀ rfl
        unfold ChecksInTurn at hcheck
        split at hcheck
        · exact hcheck.apply hut hu hb
        · exact hcheck.2.apply hut hu (Task.spoils_busy hb)
    · exact honly.apply hvu hold hthird

theorem turns_step {a : Action} (hprov : Provenance db (· = r) s) (hfiles : FilesOk db (· = r) s)
    (h : Turns db s) (hok : OnlyUploads r s a) (hturn : InTurn db s a)
    (hs : step db s a = some s') : Turns db s' := by
  rcases step_cases hs with ⟨t, c, task, task', rfl, hcall⟩ | henv
  · refine ⟨fun other hmem => ?_, fun u other hu b hb => ?_⟩
    · rcases hcall.mem hmem with rfl | hold
      · exact h.plain_step hprov hcall
      · exact h.plain other hold
    · rcases hcall.task hu with ⟨rfl, rfl⟩ | ⟨hut, hold⟩
      · exact h.alone_moved hprov hfiles hturn hcall hb
      · exact h.alone_still hturn hs hcall hut hold hb
  · refine ⟨fun other hmem => ?_, fun u other hu b hb => ?_⟩
    · rcases henv.mem hmem with hold | ⟨call, rfl, rfl⟩
      · exact h.plain other hold
      · cases call <;> first | rfl | exact absurd hok id
    · rcases henv.tasks u other hu with hold | ⟨call, _, rfl⟩
      · obtain ⟨hunref, honly⟩ := h.alone u other hold b hb
        refine ⟨fun row hrow => hunref row (henv.sql ▸ hrow),
          .intro fun v hvu third hv hthird => ?_⟩
        rcases henv.tasks v third hv with hold' | ⟨call, _, rfl⟩
        · exact honly.apply hvu hold' hthird
        · cases call <;> contradiction
      · cases call <;> contradiction

end

/-- Uploads of one chunk that take turns never empty or remove a file that a
row or another upload needs. -/
theorem filesOk_turns {db : VmIoDb} {r : ChunkReq} {now : Time} {s : Sys}
    (h : Reach (step db) (fun s a => OnlyUploads r s a ∧ InTurn db s a) (Sys.init db now) s) :
    FilesOk db (· = r) s ∧ Turns db s := by
  have hin : ∀ s a, OnlyUploads r s a ∧ InTurn db s a → UploadsIn (· = r) s a := by
    rintro s a ⟨hok, _⟩ r' hr'
    unfold Action.upload at hr'
    split at hr'
    · cases hr'
      exact hok
    · contradiction
  refine Reach.invariant_of (I := fun s => FilesOk db (· = r) s ∧ Turns db s)
    (fun _ hr => provenance hin hr) ⟨filesOk_init db (· = r) now, turns_init db now⟩ ?_ h
  rintro s a s' hprov _ ⟨hfiles, hturns⟩ ⟨hok, hturn⟩ hs
  exact ⟨filesOk_step (collisionFree_single db r) hprov hfiles (hturns.careful a) hs,
    turns_step hprov hfiles hturns hok hturn hs⟩

/-- Concurrent uploads of one chunk that take turns keep the file of the
committed row complete. -/
theorem write_once {db : VmIoDb} {r : ChunkReq} {now : Time} {s : Sys}
    (h : Reach (step db) (fun s a => OnlyUploads r s a ∧ InTurn db s a) (Sys.init db now) s) :
    ¬s.st.Unreferenced (db.blobId r) → Complete db s.st r :=
  (filesOk_turns h).1.committed r rfl

/-- An upload that writes its file, and a second that finds it before the first has
committed. -/
theorem write_once_twice :
    ∃ s, Reach (step Vectors.db)
        (fun s a => OnlyUploads Vectors.reqA s a ∧ InTurn Vectors.db s a)
        (Sys.init Vectors.db 0) s ∧
      Vectors.db.row Vectors.reqA ∈ s.st.sql.entryFileChunks.rows ∧
      Complete Vectors.db s.st Vectors.reqA := by
  obtain ⟨s, hreach, hrow⟩ := Reach.exists_of_runOk
    (step Vectors.db)
    (fun s a => OnlyUploads Vectors.reqA s a ∧ InTurn Vectors.db s a)
    (Sys.init Vectors.db 0)
    (Vectors.putEntry 0 ++ .spawn (.upsertChunk Vectors.reqA) :: Vectors.writeSteps 1 ++
      .spawn (.upsertChunk Vectors.reqA) :: Vectors.skipSteps 2 ++ [.step 1 .ok, .step 2 .ok])
    (fun s => Vectors.db.row Vectors.reqA ∈ s.st.sql.entryFileChunks.rows)
    (by decide +kernel)
  exact ⟨s, hreach, hrow, write_once hreach fun href => href _ hrow rfl⟩

/-- A second upload looks at the file while the first is writing it, and empties
it once the first has committed. -/
theorem write_once_fails :
    ∃ s, Reach (step Vectors.db) (OnlyUploads Vectors.reqA) (Sys.init Vectors.db 0) s ∧
      Vectors.db.row Vectors.reqA ∈ s.st.sql.entryFileChunks.rows ∧
      ¬Complete Vectors.db s.st Vectors.reqA := by
  obtain ⟨s, hreach, hrow, hfile⟩ := Reach.exists_of_runOk
    (step Vectors.db) (OnlyUploads Vectors.reqA) (Sys.init Vectors.db 0)
    (Vectors.putEntry 0 ++
      [.spawn (.upsertChunk Vectors.reqA), .step 1 .ok, .step 1 .ok, .step 1 .ok, .step 1 .ok,
        .spawn (.upsertChunk Vectors.reqA), .step 2 .ok, .step 2 .ok, .step 2 .ok,
        .step 1 (.portion 1), .step 1 .ok, .step 1 .ok, .step 2 .ok])
    (fun s => Vectors.db.row Vectors.reqA ∈ s.st.sql.entryFileChunks.rows ∧
      ∀ f ∈ s.st.fs.file? (Vectors.db.path (Vectors.db.blobId Vectors.reqA)), f.data.length = 0)
    (by decide +kernel)
  refine ⟨s, hreach, hrow, ?_⟩
  rintro ⟨f, hf, hdata⟩
  have hlen : f.data.length = 1 := by
    rw [hdata, VmIoDb.cipher_length]
    rfl
  have hzero := hfile f hf
  omega

end VmIo.Db
