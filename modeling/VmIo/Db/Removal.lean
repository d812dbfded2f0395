import VmIo.Db.Vectors

/-!
Removals that follow a transaction.

A call removes blobs after its transaction has ended: the blob its chunk had
before, those of a deleted entry, or its own after a failed commit. Nothing
keeps another upload from committing one of them in between. The removals are
safe in exactly the runs where none does.
-/

namespace VmIo.Db

open VmIo.Lib

theorem DeleteStep.removes {db : VmIoDb} {st st' : Store} {b : Digest} {ids rest ids' : List Digest}
    (hids : ids = b :: rest) (h : DeleteStep db st ids .ok st' ids') :
    st' = st.removeQuiet (db.path b) := by
  subst hids
  cases h with
  | remove b ids => rfl

theorem TaskStep.removes_pending {db : VmIoDb} {st st' : Store} {task task' : Task} {b : Digest}
    {ids : List Digest} (hb : task.pending = b :: ids)
    (h : TaskStep db st task .ok st' task') : st' = st.removeQuiet (db.path b) := by
  cases h with
  | upsertChunk h =>
      cases h <;> simp only [Task.pending, List.cons.injEq, reduceCtorEq] at hb
      rw [hb.1]
  | rm h => exact h.removes hb
  | pruneBacklog h => exact h.removes hb
  | _ => simp [Task.pending] at hb

/-- Removing an unreferenced blob leaves the file of every committed row alone. -/
theorem removeQuiet_spares {db : VmIoDb} {st : Store} {b : Digest} (hb : st.Unreferenced b) :
    (st.removeQuiet (db.path b)).fs.file? (db.path b) = none ∧
      ∀ row ∈ (st.removeQuiet (db.path b)).sql.entryFileChunks.rows,
        (st.removeQuiet (db.path b)).fs.file? (db.path row.blobId) =
          st.fs.file? (db.path row.blobId) := by
  refine ⟨by rw [file?_removeQuiet, if_pos rfl], fun row hrow => ?_⟩
  rw [removeQuiet_sql] at hrow
  rw [file?_removeQuiet, if_neg]
  intro hpath
  exact hb row hrow (db.path_injective hpath).symm

theorem Call.start_pending (call : Call) : call.start.pending = [] := by
  cases call <;> rfl

/-! ### Blobs a transaction returned -/

/-- Every blob that awaits removal after a transaction is unreferenced. -/
def PendingSafe (s : Sys) : Prop := ∀ task ∈ s.tasks, ∀ b ∈ task.pending, s.st.Unreferenced b

/-- No upload commits a blob that another call's transaction has returned and
that this call has yet to remove. -/
def NoRevival (db : VmIoDb) (s : Sys) (a : Action) : Prop :=
  ∀ r ∈ s.committing a, ∀ task ∈ s.tasks, db.blobId r ∉ task.pending

instance (db : VmIoDb) (s : Sys) (a : Action) : Decidable (NoRevival db s a) :=
  inferInstanceAs (Decidable (∀ r ∈ s.committing a, ∀ task ∈ s.tasks, _))

theorem pendingSafe_step {db : VmIoDb} {P : ChunkReq → Prop} (hcf : CollisionFree db P)
    {s s' : Sys} {a : Action} (hprov : Provenance db P s) (hsafe : PendingSafe s)
    (hok : NoRevival db s a) (h : step db s a = some s') : PendingSafe s' := by
  have keep : ∀ task ∈ s.tasks, ∀ b ∈ task.pending, s'.st.Unreferenced b :=
    fun task htask b hb => (hsafe task htask b hb).step
      (fun r hr heq => hok r hr task htask (heq ▸ hb)) h
  intro task₁ htask₁ b hb
  rcases step_cases h with ⟨t, c, task, task', rfl, hcall⟩ | henv
  · rcases hcall.mem htask₁ with rfl | hold
    · have hinj := hprov.row_eq hcf
      rcases hcall.step.pending hinj hb with hold | hfree
      · exact keep task hcall.mem_here b hold
      · exact hfree
    · exact keep task₁ hold b hb
  · rcases henv.mem htask₁ with hold | ⟨call, _, rfl⟩
    · exact keep task₁ hold b hb
    · rw [call.start_pending] at hb
      contradiction

/-- A step that lets an upload commit a blob awaiting removal leaves the removal
aimed at a committed row. -/
theorem noRevival_of_pendingSafe {db : VmIoDb} {s s' : Sys} {a : Action}
    (h : step db s a = some s') (hsafe : PendingSafe s') : NoRevival db s a := by
  intro r hr task htask hb
  obtain ⟨t, wrote, task', hcall, _, hput⟩ := step_committing hr h
  have hrow : db.row r ∈ s'.st.sql.entryFileChunks.rows := by rw [hput]; simp
  have hne : task ≠ .upsertChunk r (.txn wrote) := by
    rintro rfl
    simp [Task.pending] at hb
  exact hsafe task (hcall.mem_still htask hne) _ hb (db.row r) hrow rfl

theorem pendingSafe {db : VmIoDb} {P : ChunkReq → Prop} (hcf : CollisionFree db P) {now : Time}
    {s : Sys} (h : Reach (step db) (fun s a => UploadsIn P s a ∧ NoRevival db s a)
      (Sys.init db now) s) : PendingSafe s :=
  h.invariant_of (fun _ hr => provenance (fun _ _ ha => ha.1) hr) (by simp [PendingSafe, Sys.init])
    fun _ _ _ hprov _ hsafe hok hs => pendingSafe_step hcf hprov hsafe hok.2 hs

/-- In every run in which no upload commits a blob awaiting removal, a removal
that follows a transaction hits no committed row, and the files of the committed
rows stay. The next step keeps it so exactly when it meets the condition. -/
theorem pending_removal_safe {db : VmIoDb} {P : ChunkReq → Prop} (hcf : CollisionFree db P)
    {now : Time} {s : Sys} (h : Reach (step db) (fun s a => UploadsIn P s a ∧ NoRevival db s a)
      (Sys.init db now) s) :
    (∀ (t : ℕ) task b ids s', s.tasks[t]? = some task → task.pending = b :: ids →
      step db s (.step t .ok) = some s' →
      s.st.Unreferenced b ∧ s'.st.fs.file? (db.path b) = none ∧
        ∀ row ∈ s'.st.sql.entryFileChunks.rows,
          s'.st.fs.file? (db.path row.blobId) = s.st.fs.file? (db.path row.blobId)) ∧
    (∀ a s', UploadsIn P s a → step db s a = some s' → (NoRevival db s a ↔ PendingSafe s')) := by
  have hsafe := pendingSafe hcf h
  have hprov : Provenance db P s := provenance (fun _ _ ha => ha.1) h
  refine ⟨?_, fun a s' _ hs => ⟨fun hok => pendingSafe_step hcf hprov hsafe hok hs,
    noRevival_of_pendingSafe hs⟩⟩
  intro t task b ids s' htask hids hs
  have hfree : s.st.Unreferenced b := hsafe task (List.mem_of_getElem? htask) b (by simp [hids])
  refine ⟨hfree, ?_⟩
  rcases step_cases hs with ⟨t', c, task₀, task', heq, hcall⟩ | henv
  · cases heq
    have hhere := hcall.here
    rw [htask] at hhere
    cases hhere
    rw [hcall.step.removes_pending hids]
    exact removeQuiet_spares hfree
  · exact absurd rfl (henv.unmoved t .ok)

/-- A chunk is replaced and its blob awaits removal. -/
theorem pending_removal_safe_replace :
    ∃ s s', Reach (step Vectors.db)
        (fun s a => UploadsIn Vectors.uploads s a ∧ NoRevival Vectors.db s a)
        (Sys.init Vectors.db 0) s ∧
      step Vectors.db s (.step 2 .ok) = some s' ∧
      s.st.Unreferenced (Vectors.db.blobId Vectors.reqA) ∧
      s'.st.fs.file? (Vectors.db.path (Vectors.db.blobId Vectors.reqA)) = none := by
  obtain ⟨s, hreach, hpending, hstep⟩ := Reach.exists_of_runOk
    (step Vectors.db)
    (fun s a => UploadsIn Vectors.uploads s a ∧ NoRevival Vectors.db s a)
    (Sys.init Vectors.db 0)
    (Vectors.putEntry 0 ++ .spawn (.upsertChunk Vectors.reqA) :: Vectors.writeSteps 1 ++
      .step 1 .ok :: .spawn (.upsertChunk Vectors.reqB) :: Vectors.writeSteps 2 ++ [.step 2 .ok])
    (fun s => (s.tasks[2]?).map Task.pending = some [Vectors.db.blobId Vectors.reqA] ∧
      (step Vectors.db s (.step 2 .ok)).isSome) (by decide +kernel)
  obtain ⟨task, htask, hids⟩ := Option.map_eq_some_iff.mp hpending
  obtain ⟨s', hs'⟩ := Option.isSome_iff_exists.mp hstep
  obtain ⟨hfree, hgone, _⟩ :=
    (pending_removal_safe Vectors.collisionFree hreach).1 2 task _ _ s' htask hids hs'
  exact ⟨s, s', hreach, hs', hfree, hgone⟩

/-- An upload puts back, without writing it, the blob that the upload before it
has replaced and is about to remove: the chunk loses its file. -/
theorem pending_removal_unsafe :
    ∃ s s', Reach (step Vectors.db) (UploadsIn Vectors.uploads) (Sys.init Vectors.db 0) s ∧
      (s.tasks[2]?).map Task.pending = some [Vectors.db.blobId Vectors.reqA] ∧
      step Vectors.db s (.step 2 .ok) = some s' ∧
      ¬s.st.Unreferenced (Vectors.db.blobId Vectors.reqA) ∧
      Vectors.db.row Vectors.reqA ∈ s'.st.sql.entryFileChunks.rows ∧
      s'.st.fs.file? (Vectors.db.path (Vectors.db.blobId Vectors.reqA)) = none := by
  obtain ⟨s, hreach, hpending, href, hstep⟩ := Reach.exists_of_runOk
    (step Vectors.db) (UploadsIn Vectors.uploads) (Sys.init Vectors.db 0)
    (Vectors.putEntry 0 ++ .spawn (.upsertChunk Vectors.reqA) :: Vectors.writeSteps 1 ++
      .step 1 .ok :: .spawn (.upsertChunk Vectors.reqB) :: Vectors.writeSteps 2 ++
      .step 2 .ok :: .spawn (.upsertChunk Vectors.reqA) :: Vectors.skipSteps 3 ++ [.step 3 .ok])
    (fun s => (s.tasks[2]?).map Task.pending = some [Vectors.db.blobId Vectors.reqA] ∧
      ¬s.st.Unreferenced (Vectors.db.blobId Vectors.reqA) ∧
      (step Vectors.db s (.step 2 .ok)).any (fun s' =>
        Vectors.db.row Vectors.reqA ∈ s'.st.sql.entryFileChunks.rows ∧
        s'.st.fs.file? (Vectors.db.path (Vectors.db.blobId Vectors.reqA)) = none))
    (by decide +kernel)
  obtain ⟨s', hs', hlost⟩ := (Option.any_eq_true _ _).mp hstep
  obtain ⟨hrow, hfile⟩ := of_decide_eq_true hlost
  exact ⟨s, s', hreach, hpending, hs', href, hrow, hfile⟩

/-! ### An upload's own blob after a failed transaction -/

/-- The blob an upload is about to remove because its transaction failed. -/
def Task.ownRemoval (db : VmIoDb) : Task → Option Digest
  | .upsertChunk r (.removeOwn _) => some (db.blobId r)
  | _ => none

/-- The upload that wrote its file and whose transaction an action lets fail. -/
def Sys.aborting (s : Sys) : Action → Option ChunkReq
  | .step t .fail =>
      match s.tasks[t]? with
      | some (.upsertChunk r (.txn true)) => some r
      | _ => none
  | _ => none

/-- Every blob an upload is about to remove after a failure is unreferenced. -/
def OwnSafe (db : VmIoDb) (s : Sys) : Prop :=
  ∀ task ∈ s.tasks, ∀ b ∈ task.ownRemoval db, s.st.Unreferenced b

/-- A transaction of an upload that wrote its file fails only while no row
references the blob, and no upload commits a blob that another upload is about
to remove after a failure. -/
def SoleOwner (db : VmIoDb) (s : Sys) (a : Action) : Prop :=
  (∀ r ∈ s.aborting a, s.st.Unreferenced (db.blobId r)) ∧
    ∀ r ∈ s.committing a, ∀ task ∈ s.tasks, db.blobId r ∉ task.ownRemoval db

instance (db : VmIoDb) (s : Sys) (a : Action) : Decidable (SoleOwner db s a) :=
  inferInstanceAs (Decidable ((∀ r ∈ s.aborting a, s.st.Unreferenced (db.blobId r)) ∧
    ∀ r ∈ s.committing a, ∀ task ∈ s.tasks, _))

theorem aborting_eq_some_iff {s : Sys} {a : Action} {r : ChunkReq} :
    s.aborting a = some r ↔
      ∃ t, a = .step t .fail ∧ s.tasks[t]? = some (.upsertChunk r (.txn true)) := by
  constructor
  · intro h
    unfold Sys.aborting at h
    split at h
    · rename_i t
      split at h
      · rename_i htask
        cases h
        exact ⟨t, rfl, htask⟩
      · contradiction
    · contradiction
  · rintro ⟨t, rfl, htask⟩
    simp [Sys.aborting, htask]

theorem Provenance.unreferenced_of_no_entry {db : VmIoDb} {P : ChunkReq → Prop} {s : Sys}
    (hprov : Provenance db P s) (hcf : CollisionFree db P) {r : ChunkReq} (hr : P r)
    (h : s.st.sql.hasEntry (r.cls, r.key) = false) : s.st.Unreferenced (db.blobId r) := by
  intro row hrow heq
  obtain ⟨r', hr', rfl⟩ := hprov.rows row hrow
  obtain ⟨e, he, hpk⟩ := s.st.sql.foreign_key _ hrow
  have hsame := hcf.eq_of_blobId hr' hr heq
  subst hsame
  have hsome := Table.find?_isSome_iff.mpr ⟨e, he, hpk⟩
  rw [show (db.row r').entryKey = (r'.cls, r'.key) from rfl] at hsome
  rw [Sql.hasEntry, hsome] at h
  contradiction

theorem UpsertChunkStep.to_removeOwn {db : VmIoDb} {st st' : Store} {r : ChunkReq}
    {pc pc' : UpsertChunkPc} {c : Choice} {e : IoError}
    (h : UpsertChunkStep db st r pc c st' pc') (hpc : pc' = .removeOwn e) :
    st' = st ∧ pc = .txn true ∧
      (c = .fail ∨ c = .ok ∧ st.sql.hasEntry (r.cls, r.key) = false) := by
  cases h with
  | abort wrote c e' hcause =>
      cases wrote with
      | false => simp [upsertChunkFailed] at hpc
      | true => exact ⟨rfl, rfl, hcause⟩
  | commit wrote sql prev =>
      cases prev <;> simp [upsertChunkCommitted] at hpc
  | _ => contradiction

theorem UpsertChunkStep.fails {db : VmIoDb} {st st' : Store} {r : ChunkReq}
    {pc' : UpsertChunkPc} (h : UpsertChunkStep db st r (.txn true) .fail st' pc') :
    st' = st ∧ ∃ e, pc' = .removeOwn e := by
  cases h with
  | abort wrote c e h => exact ⟨rfl, .sql e, rfl⟩

theorem UpsertChunkStep.removes_own {db : VmIoDb} {st st' : Store} {r : ChunkReq}
    {pc' : UpsertChunkPc} {e : IoError}
    (h : UpsertChunkStep db st r (.removeOwn e) .ok st' pc') :
    st' = st.removeQuiet (db.path (db.blobId r)) := by
  cases h with
  | removeOwn e => rfl

theorem Task.mem_ownRemoval {db : VmIoDb} {task : Task} {b : Digest}
    (h : b ∈ task.ownRemoval db) :
    ∃ r e, task = .upsertChunk r (.removeOwn e) ∧ b = db.blobId r := by
  unfold Task.ownRemoval at h
  split at h
  · rename_i r e
    exact ⟨r, e, rfl, (Option.mem_some.mp h).symm⟩
  · contradiction

theorem Call.start_ownRemoval (db : VmIoDb) (call : Call) : call.start.ownRemoval db = none := by
  cases call <;> rfl

theorem ownSafe_step {db : VmIoDb} {P : ChunkReq → Prop} (hcf : CollisionFree db P)
    {s s' : Sys} {a : Action} (hprov : Provenance db P s) (hsafe : OwnSafe db s)
    (hok : SoleOwner db s a) (h : step db s a = some s') : OwnSafe db s' := by
  have keep : ∀ task ∈ s.tasks, ∀ b ∈ task.ownRemoval db, s'.st.Unreferenced b :=
    fun task htask b hb => (hsafe task htask b hb).step
      (fun r hr heq => hok.2 r hr task htask (heq ▸ hb)) h
  intro task₁ htask₁ b hb
  rcases step_cases h with ⟨t, c, task, task', rfl, hcall⟩ | henv
  · rcases hcall.mem htask₁ with rfl | hold
    · obtain ⟨r, e, rfl, rfl⟩ := Task.mem_ownRemoval hb
      obtain ⟨pc, rfl, hstep⟩ := hcall.step.upload
      obtain ⟨hst, rfl, hcause⟩ := hstep.to_removeOwn rfl
      rw [hst]
      rcases hcause with rfl | ⟨_, hno⟩
      · exact hok.1 r (aborting_eq_some_iff.mpr ⟨t, rfl, hcall.here⟩)
      · exact hprov.unreferenced_of_no_entry hcf (hprov.uploads t r _ hcall.here) hno
    · exact keep task₁ hold b hb
  · rcases henv.mem htask₁ with hold | ⟨call, _, rfl⟩
    · exact keep task₁ hold b hb
    · rw [call.start_ownRemoval] at hb
      contradiction

/-- A step that breaks the condition leaves an upload about to remove the blob of
a committed row. -/
theorem soleOwner_of_ownSafe {db : VmIoDb} {s s' : Sys} {a : Action}
    (h : step db s a = some s') (hsafe : OwnSafe db s') : SoleOwner db s a := by
  constructor
  · intro r hr
    obtain ⟨t, rfl, htask⟩ := aborting_eq_some_iff.mp hr
    rcases step_cases h with ⟨t', c, task, task', heq, hcall⟩ | henv
    · cases heq
      have hhere := hcall.here
      rw [htask] at hhere
      cases hhere
      have hmoved := hcall.mem_moved
      have hstep := hcall.step
      cases hstep with
      | upsertChunk hup =>
          obtain ⟨hst, e, rfl⟩ := hup.fails
          rw [← hst]
          exact hsafe _ hmoved _ rfl
    · exact absurd rfl (henv.unmoved t .fail)
  · intro r hr task htask hb
    obtain ⟨t, wrote, task', hcall, _, hput⟩ := step_committing hr h
    have hrow : db.row r ∈ s'.st.sql.entryFileChunks.rows := by rw [hput]; simp
    have hne : task ≠ .upsertChunk r (.txn wrote) := by
      rintro rfl
      simp [Task.ownRemoval] at hb
    exact hsafe task (hcall.mem_still htask hne) _ hb (db.row r) hrow rfl

theorem ownSafe {db : VmIoDb} {P : ChunkReq → Prop} (hcf : CollisionFree db P) {now : Time}
    {s : Sys} (h : Reach (step db) (fun s a => UploadsIn P s a ∧ SoleOwner db s a)
      (Sys.init db now) s) : OwnSafe db s :=
  h.invariant_of (fun _ hr => provenance (fun _ _ ha => ha.1) hr) (by simp [OwnSafe, Sys.init])
    fun _ _ _ hprov _ hsafe hok hs => ownSafe_step hcf hprov hsafe hok.2 hs

/-- In every run that meets the condition, an upload whose transaction failed
removes no blob that a committed row references. The next step keeps it so
exactly when it meets the condition. -/
theorem own_removal_safe {db : VmIoDb} {P : ChunkReq → Prop} (hcf : CollisionFree db P)
    {now : Time} {s : Sys} (h : Reach (step db) (fun s a => UploadsIn P s a ∧ SoleOwner db s a)
      (Sys.init db now) s) :
    (∀ (t : ℕ) r e s', s.tasks[t]? = some (.upsertChunk r (.removeOwn e)) →
      step db s (.step t .ok) = some s' →
      s.st.Unreferenced (db.blobId r) ∧ s'.st.fs.file? (db.path (db.blobId r)) = none ∧
        ∀ row ∈ s'.st.sql.entryFileChunks.rows,
          s'.st.fs.file? (db.path row.blobId) = s.st.fs.file? (db.path row.blobId)) ∧
    (∀ a s', UploadsIn P s a → step db s a = some s' → (SoleOwner db s a ↔ OwnSafe db s')) := by
  have hsafe := ownSafe hcf h
  have hprov : Provenance db P s := provenance (fun _ _ ha => ha.1) h
  refine ⟨?_, fun a s' _ hs => ⟨fun hok => ownSafe_step hcf hprov hsafe hok hs,
    soleOwner_of_ownSafe hs⟩⟩
  intro t r e s' htask hs
  have hfree : s.st.Unreferenced (db.blobId r) :=
    hsafe _ (List.mem_of_getElem? htask) _ rfl
  refine ⟨hfree, ?_⟩
  rcases step_cases hs with ⟨t', c, task₀, task', heq, hcall⟩ | henv
  · cases heq
    have hhere := hcall.here
    rw [htask] at hhere
    cases hhere
    have hstep := hcall.step
    cases hstep with
    | upsertChunk hup =>
        rw [hup.removes_own]
        exact removeQuiet_spares hfree
  · exact absurd rfl (henv.unmoved t .ok)

/-- The upload of a chunk without an entry fails and removes its file. -/
theorem own_removal_safe_no_entry :
    ∃ s s', Reach (step Vectors.db)
        (fun s a => UploadsIn Vectors.uploads s a ∧ SoleOwner Vectors.db s a)
        (Sys.init Vectors.db 0) s ∧
      step Vectors.db s (.step 0 .ok) = some s' ∧
      s.st.Unreferenced (Vectors.db.blobId Vectors.reqA) ∧
      s'.st.fs.file? (Vectors.db.path (Vectors.db.blobId Vectors.reqA)) = none := by
  obtain ⟨s, hreach, hown, hstep⟩ := Reach.exists_of_runOk
    (step Vectors.db)
    (fun s a => UploadsIn Vectors.uploads s a ∧ SoleOwner Vectors.db s a)
    (Sys.init Vectors.db 0)
    (.spawn (.upsertChunk Vectors.reqA) :: Vectors.writeSteps 0 ++ [.step 0 .ok])
    (fun s => (s.tasks[0]?).map (Task.ownRemoval Vectors.db) =
        some (some (Vectors.db.blobId Vectors.reqA)) ∧
      (step Vectors.db s (.step 0 .ok)).isSome) (by decide +kernel)
  obtain ⟨task, htask, hb⟩ := Option.map_eq_some_iff.mp hown
  obtain ⟨r, e, rfl, hr⟩ := Task.mem_ownRemoval hb
  obtain ⟨s', hs'⟩ := Option.isSome_iff_exists.mp hstep
  obtain ⟨hfree, hgone, _⟩ :=
    (own_removal_safe Vectors.collisionFree hreach).1 0 r e s' htask hs'
  rw [← hr] at hfree hgone
  exact ⟨s, s', hreach, hs', hfree, hgone⟩

/-- Two uploads of one chunk: the first fails because the entry is missing, the
entry is made, the second finds the file and commits, the first removes it. -/
theorem own_removal_unsafe :
    ∃ s s', Reach (step Vectors.db) (UploadsIn Vectors.uploads) (Sys.init Vectors.db 0) s ∧
      (s.tasks[0]?).map (Task.ownRemoval Vectors.db) =
        some (some (Vectors.db.blobId Vectors.reqA)) ∧
      step Vectors.db s (.step 0 .ok) = some s' ∧
      ¬s.st.Unreferenced (Vectors.db.blobId Vectors.reqA) ∧
      Vectors.db.row Vectors.reqA ∈ s'.st.sql.entryFileChunks.rows ∧
      s'.st.fs.file? (Vectors.db.path (Vectors.db.blobId Vectors.reqA)) = none := by
  obtain ⟨s, hreach, hown, href, hstep⟩ := Reach.exists_of_runOk
    (step Vectors.db) (UploadsIn Vectors.uploads) (Sys.init Vectors.db 0)
    (.spawn (.upsertChunk Vectors.reqA) :: Vectors.writeSteps 0 ++
      .step 0 .ok :: Vectors.putEntry 1 ++
      .spawn (.upsertChunk Vectors.reqA) :: Vectors.skipSteps 2 ++ [.step 2 .ok])
    (fun s => (s.tasks[0]?).map (Task.ownRemoval Vectors.db) =
        some (some (Vectors.db.blobId Vectors.reqA)) ∧
      ¬s.st.Unreferenced (Vectors.db.blobId Vectors.reqA) ∧
      (step Vectors.db s (.step 0 .ok)).any (fun s' =>
        Vectors.db.row Vectors.reqA ∈ s'.st.sql.entryFileChunks.rows ∧
        s'.st.fs.file? (Vectors.db.path (Vectors.db.blobId Vectors.reqA)) = none))
    (by decide +kernel)
  obtain ⟨s', hs', hlost⟩ := (Option.any_eq_true _ _).mp hstep
  obtain ⟨hrow, hfile⟩ := of_decide_eq_true hlost
  exact ⟨s, s', hreach, hown, hs', href, hrow, hfile⟩

end VmIo.Db
