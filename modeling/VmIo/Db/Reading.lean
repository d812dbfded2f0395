import VmIo.Db.CrashSafety

/-!
A lookup while its chunk is being replaced.

The lookup reads the row and then the file. Between the two a replacement may
commit and remove the file, and then the lookup fails although a chunk was
committed all the time (`getChunk_during_fails`). A lookup that finds the file
of the row it has read returns a version that was committed while it ran
(`getChunk_during`).
-/

namespace VmIo.Db

open VmIo.Lib

def Task.writes : Task → Bool
  | .getChunk .. => false
  | task => !task.finished

theorem Task.writes_of_dooms {db : VmIoDb} {task : Task} {b : Digest} (h : b ∈ task.dooms db) :
    task.writes = true := by
  unfold Task.writes
  split
  · simp [Task.dooms, Task.pending] at h
  · rw [Bool.not_eq_true']
    by_contra hfin
    rw [Task.dooms_of_finished (by simpa using hfin)] at h
    contradiction

theorem Task.writes_of_opened {db : VmIoDb} {task : Task} {b : Digest} (h : b ∈ task.opened db) :
    task.writes = true := by
  have hmoving := Task.unfinished_of_opened h
  unfold Task.writes
  split
  · simp [Task.opened] at h
  · simp [hmoving]

theorem Task.finished_of_writes {task : Task} (h : task.writes = true) : task.finished = false := by
  unfold Task.writes at h
  split at h
  · contradiction
  · simpa using h

/-- The uploads of `P` that are issued are of one slot and one finality, each
once the one before has returned. Lookups are issued at any time. Nothing fails. -/
def Replacing (P : ChunkReq → Prop) (slot : String × String × Int64) (isFinal : Bool) (s : Sys) :
    Action → Prop
  | .spawn (.upsertChunk r) =>
      P r ∧ r.slot = slot ∧ r.isFinal = isFinal ∧ ∀ task ∈ s.tasks, task.writes = false
  | .spawn (.getChunk ..) => True
  | .spawn _ => False
  | .step _ .fail => False
  | .crash => False
  | _ => True

instance (P : ChunkReq → Prop) [DecidablePred P] (slot : String × String × Int64) (isFinal : Bool)
    (s : Sys) (a : Action) : Decidable (Replacing P slot isFinal s a) :=
  match a with
  | .spawn (.upsertChunk r) =>
      inferInstanceAs (Decidable (P r ∧ r.slot = slot ∧ r.isFinal = isFinal ∧ _))
  | .spawn (.getChunk ..) => isTrue trivial
  | .spawn (.upsert _) => isFalse id
  | .spawn (.rm ..) => isFalse id
  | .spawn .pruneBacklog => isFalse id
  | .spawn .cleanupDir => isFalse id
  | .step _ .fail => isFalse id
  | .step _ .ok => isTrue trivial
  | .step _ (.portion _) => isTrue trivial
  | .step _ (.listing _) => isTrue trivial
  | .tick _ => isTrue trivial
  | .crash => isFalse id

theorem Replacing.uploadsIn {P : ChunkReq → Prop} {slot : String × String × Int64} {isFinal : Bool}
    {s : Sys} {a : Action} (h : Replacing P slot isFinal s a) : UploadsIn P s a := by
  intro r hr
  unfold Action.upload at hr
  split at hr
  · cases hr
    exact h.1
  · contradiction

/-- The slot holds a committed version of this finality. -/
def Store.Holds (db : VmIoDb) (P : ChunkReq → Prop) (slot : String × String × Int64)
    (isFinal : Bool) (st : Store) (r : ChunkReq) : Prop :=
  P r ∧ r.slot = slot ∧ r.isFinal = isFinal ∧
    st.sql.entryFileChunks.find? slot = some (db.row r)

/-- What a run of replacements keeps. -/
structure ReplaceInv (db : VmIoDb) (P : ChunkReq → Prop) (slot : String × String × Int64)
    (isFinal : Bool) (s : Sys) : Prop where
  prov : Provenance db P s
  files : FilesOk db P s
  /-- there is one writer at a time -/
  one : ∀ (t u : ℕ) task other, s.tasks[t]? = some task → s.tasks[u]? = some other →
    task.writes = true → other.writes = true → t = u
  doomed : ∀ task ∈ s.tasks, ∀ b ∈ task.dooms db, s.st.Unreferenced b
  /-- every running writer replaces the chunk -/
  replaces : ∀ task ∈ s.tasks, task.writes = true →
    ∃ r pc, task = .upsertChunk r pc ∧ r.slot = slot ∧ r.isFinal = isFinal
  held : ∃ r, s.st.Holds db P slot isFinal r

section

variable {db : VmIoDb} {P : ChunkReq → Prop} {slot : String × String × Int64} {isFinal : Bool}
  {s s' : Sys}

theorem ReplaceInv.careful (hinv : ReplaceInv db P slot isFinal s) (a : Action) : Careful db s a :=
  careful_of_alone hinv.doomed (fun t u task other _ ht hu hb hopen =>
    hinv.one t u task other ht hu (Task.writes_of_dooms hb) (Task.writes_of_opened hopen)) a

theorem TaskStep.store_of_not_writes {st st' : Store} {task task' : Task} {c : Choice}
    (h : TaskStep db st task c st' task') (hmoves : task.finished = false)
    (hwrites : task.writes = false) : st' = st := by
  cases h with
  | getChunk => rfl
  | _ => simp [Task.writes, hmoves] at hwrites

theorem TaskStep.writes {st st' : Store} {task task' : Task} {c : Choice}
    (h : TaskStep db st task c st' task') (hmoves : task.finished = false)
    (hwrites : task'.writes = true) : task.writes = true := by
  cases h with
  | getChunk => exact hwrites
  | _ => simp [Task.writes, hmoves]

theorem ReplaceInv.one_step (hinv : ReplaceInv db P slot isFinal s) {t : ℕ} {c : Choice}
    {task task' : Task} (hcall : CallStep db s t c s' task task') (u v : ℕ) (x y : Task)
    (hu : s'.tasks[u]? = some x) (hv : s'.tasks[v]? = some y) (hx : x.writes = true)
    (hy : y.writes = true) : u = v := by
  have before : ∀ {w : ℕ} {z : Task}, s'.tasks[w]? = some z → z.writes = true →
      ∃ z₀, s.tasks[w]? = some z₀ ∧ z₀.writes = true := by
    intro w z hw hz
    rcases hcall.task hw with ⟨rfl, rfl⟩ | ⟨_, hold⟩
    · exact ⟨task, hcall.here, hcall.step.writes hcall.moves hz⟩
    · exact ⟨z, hold, hz⟩
  obtain ⟨x₀, hx₀, hxw⟩ := before hu hx
  obtain ⟨y₀, hy₀, hyw⟩ := before hv hy
  exact hinv.one u v x₀ y₀ hx₀ hy₀ hxw hyw

theorem ReplaceInv.doomed_step (hcf : CollisionFree db P) (hinv : ReplaceInv db P slot isFinal s)
    {t : ℕ} {c : Choice} {task task' : Task} (hc : c ≠ .fail)
    (hcall : CallStep db s t c s' task task') :
    ∀ other ∈ s'.tasks, ∀ b ∈ other.dooms db, s'.st.Unreferenced b := by
  intro other hother b hb
  obtain ⟨u, hu⟩ := List.mem_iff_getElem?.mp hother
  rcases hcall.task hu with ⟨rfl, rfl⟩ | ⟨hne, hold⟩
  · refine hcall.doomed hcf hinv.prov hinv.files ?_ (hinv.doomed task hcall.mem_here) hb
    cases c <;> first | exact absurd rfl hc | exact trivial
  · -- the writer is the call that did not move, so the store stood still
    have hreads : task.writes = false := by
      by_contra hw
      have hw : task.writes = true := by simpa using hw
      exact hne (hinv.one u t other task hold hcall.here (Task.writes_of_dooms hb) hw)
    rw [hcall.step.store_of_not_writes hcall.moves hreads]
    exact hinv.doomed other (List.mem_of_getElem? hold) b hb

/-- The slot keeps a version: only an upload of it commits. -/
theorem ReplaceInv.held_step (hinv : ReplaceInv db P slot isFinal s) {t : ℕ} {c : Choice}
    {task task' : Task} (hcall : CallStep db s t c s' task task') :
    ∃ r, s'.st.Holds db P slot isFinal r := by
  obtain ⟨r, hr, hslot, hfinal, hrow⟩ := hinv.held
  cases hw : task.writes with
  | false =>
      rw [hcall.step.store_of_not_writes hcall.moves hw]
      exact ⟨r, hr, hslot, hfinal, hrow⟩
  | true =>
      obtain ⟨r', pc, rfl, hslot', hfinal'⟩ := hinv.replaces task hcall.mem_here hw
      have hstep := hcall.step
      cases htask' : task' with
      | upsertChunk r'' pc' =>
          obtain ⟨pc₀, heq, hup⟩ := (htask' ▸ hstep).upload
          cases heq
          rcases hup.sql with hsame | ⟨wrote, prev, _, _, _, _, hcommit⟩
          · exact ⟨r, hr, hslot, hfinal, by rw [hsame]; exact hrow⟩
          · obtain ⟨_, hput, _⟩ := Sql.upsertChunk_ok hcommit
            refine ⟨r', hinv.prov.uploads t r' _ hcall.here, hslot', hfinal', ?_⟩
            rw [hput]
            exact Table.find?_put_self hslot'
      | _ =>
          rw [htask'] at hstep
          cases hstep

theorem ReplaceInv.spawn (hinv : ReplaceInv db P slot isFinal s) {call : Call}
    (hok : Replacing P slot isFinal s (.spawn call))
    (hprov : Provenance db P { s with tasks := s.tasks ++ [call.start] })
    (hfiles : FilesOk db P { s with tasks := s.tasks ++ [call.start] }) :
    ReplaceInv db P slot isFinal { s with tasks := s.tasks ++ [call.start] } := by
  have fresh : call.start.writes = true →
      (∃ r, call.start = .upsertChunk r .start ∧ r.slot = slot ∧ r.isFinal = isFinal) ∧
        ∀ task ∈ s.tasks, task.writes = false := by
    intro hw
    cases call with
    | upsertChunk r => exact ⟨⟨r, rfl, hok.2.1, hok.2.2.1⟩, hok.2.2.2⟩
    | getChunk => simp [Call.start, Task.writes] at hw
    | _ => exact hok.elim
  refine ⟨hprov, hfiles, ?_, ?_, ?_, hinv.held⟩
  · -- if the new call writes, nothing before it does
    intro u v x y hu hv hx hy
    rw [List.getElem?_append] at hu hv
    split at hu <;> split at hv
    · exact hinv.one u v x y hu hv hx hy
    · rw [List.getElem?_singleton] at hv
      split at hv <;> cases hv
      rw [(fresh hy).2 x (List.mem_of_getElem? hu)] at hx
      contradiction
    · rw [List.getElem?_singleton] at hu
      split at hu <;> cases hu
      rw [(fresh hx).2 y (List.mem_of_getElem? hv)] at hy
      contradiction
    · rw [List.getElem?_singleton] at hu hv
      split at hu <;> split at hv <;> first | omega | contradiction
  · intro task htask b hb
    rcases List.mem_append.mp htask with htask | htask
    · exact hinv.doomed task htask b hb
    · rw [List.mem_singleton.mp htask] at hb
      cases call <;> simp [Call.start, Task.dooms, Task.pending, RmPc.pending, PrunePc.pending,
        CleanupPc.victim] at hb
  · intro task htask hw
    rcases List.mem_append.mp htask with htask | htask
    · exact hinv.replaces task htask hw
    · obtain rfl := List.mem_singleton.mp htask
      obtain ⟨⟨r, hstart, hslot, hfinal⟩, _⟩ := fresh hw
      exact ⟨r, .start, hstart, hslot, hfinal⟩

theorem replaceInv_step (hcf : CollisionFree db P) (hinv : ReplaceInv db P slot isFinal s)
    {a : Action} (hok : Replacing P slot isFinal s a) (h : step db s a = some s') :
    ReplaceInv db P slot isFinal s' := by
  have hprov := provenance_step hinv.prov hok.uploadsIn h
  have hfiles := filesOk_step hcf hinv.prov hinv.files (hinv.careful a) h
  rcases step_cases h with ⟨t, c, task, task', rfl, hcall⟩ | henv
  · have hc : c ≠ .fail := by
      rintro rfl
      exact hok
    refine ⟨hprov, hfiles, hinv.one_step hcall, hinv.doomed_step hcf hc hcall, ?_,
      hinv.held_step hcall⟩
    intro other hother hw
    rcases hcall.mem hother with rfl | hold
    · obtain ⟨r, pc, rfl, hslot, hfinal⟩ :=
        hinv.replaces task hcall.mem_here (hcall.step.writes hcall.moves hw)
      have hstep := hcall.step
      cases hstep with
      | upsertChunk _ => exact ⟨r, _, rfl, hslot, hfinal⟩
    · exact hinv.replaces other hold hw
  · cases a with
    | spawn call =>
        simp only [step, Option.some.injEq] at h
        subst h
        exact hinv.spawn hok hprov hfiles
    | step t c => exact absurd rfl (henv.unmoved t c)
    | tick d =>
        simp only [step, Option.some.injEq] at h
        subst h
        exact ⟨hprov, hfiles, hinv.one, hinv.doomed, hinv.replaces, hinv.held⟩
    | crash => exact hok.elim

end

/-! ### The lookup -/

def VmIoDb.chunk (db : VmIoDb) (r : ChunkReq) : Chunk :=
  ⟨db.crypto.sha256 r.data, (db.encrypted r).1.tag, (db.cipher r).length, r.isFinal⟩

/-- The file of the row a lookup has read is there at its full length. -/
def Task.fileThere (db : VmIoDb) (st : Store) : Task → Prop
  | .getChunk cls key idx isFinal (.read chunk) =>
      ∃ f ∈ st.fs.file? (db.path (genId db.crypto ⟨cls, key, idx, chunk.hash, isFinal⟩ db.blobKey)),
        (f.data.length : ℤ) = chunk.size
  | _ => True

instance (db : VmIoDb) (st : Store) (task : Task) : Decidable (task.fileThere db st) := by
  unfold Task.fileThere
  split <;> infer_instance

/-- The call `t` reads the file only where it is there. -/
def FileStays (db : VmIoDb) (t : ℕ) (s : Sys) : Action → Prop
  | .step u _ => u = t → ∀ task ∈ s.tasks[t]?, task.fileThere db s.st
  | _ => True

instance (db : VmIoDb) (t : ℕ) (s : Sys) (a : Action) : Decidable (FileStays db t s a) :=
  match a with
  | .step u _ =>
      inferInstanceAs (Decidable (u = t → ∀ task ∈ s.tasks[t]?, task.fileThere db s.st))
  | .spawn _ => isTrue trivial
  | .tick _ => isTrue trivial
  | .crash => isTrue trivial

section

variable {db : VmIoDb} {P : ChunkReq → Prop} {st : Store} {r : ChunkReq}

theorem getChunkRow_held {slot : String × String × Int64} {isFinal : Bool}
    (h : st.Holds db P slot isFinal r) :
    getChunkRow st r.cls r.key r.idx r.isFinal = .ok (some (db.chunk r)) := by
  obtain ⟨_, rfl, _, hrow⟩ := h
  exact (getChunkRow_row r.isFinal hrow).trans (if_neg (not_not.mpr rfl))

theorem getChunkFile_complete (h : Complete db st r) :
    getChunkFile db st r.cls r.key r.idx r.isFinal (db.chunk r) = .ok r.data :=
  getChunkFile_row h

theorem getChunkFile_incomplete
    (hpiece : ∀ f, st.fs.file? (db.path (db.blobId r)) = some f → f.data <+: db.cipher r)
    (h : ¬Complete db st r) :
    ∃ e, getChunkFile db st r.cls r.key r.idx r.isFinal (db.chunk r) = .error e := by
  unfold getChunkFile
  simp only
  split
  · exact ⟨_, rfl⟩
  · rename_i data hread
    have hread : st.fs.read (db.path (db.blobId r)) = .ok data := hread
    split
    · exact ⟨_, rfl⟩
    · rename_i hlen
      obtain ⟨f, hf, rfl⟩ := Fs.file?_of_read hread
      have hlen : (f.data.length : ℤ) = (db.cipher r).length := not_not.mp hlen
      exact absurd ⟨f, hf, (hpiece f hf).eq_of_length (Nat.cast_inj.mp hlen)⟩ h

theorem fileThere_iff_complete
    (hpiece : ∀ f, st.fs.file? (db.path (db.blobId r)) = some f → f.data <+: db.cipher r) :
    (Task.getChunk r.cls r.key r.idx r.isFinal (.read (db.chunk r))).fileThere db st ↔
      Complete db st r := by
  constructor
  · rintro ⟨f, hf, hlen⟩
    have hlen : (f.data.length : ℤ) = (db.cipher r).length := hlen
    exact ⟨f, hf, (hpiece f hf).eq_of_length (Nat.cast_inj.mp hlen)⟩
  · rintro ⟨f, hf, hdata⟩
    exact ⟨f, hf, by rw [hdata]; rfl⟩

end

section

variable {db : VmIoDb} {P : ChunkReq → Prop} {cls key : String} {idx : Int64} {isFinal : Bool}
  {now : Time}

/-- Replacements that start where sequential runs have left a version of the
chunk and where every call has returned. -/
theorem replaceInv_of_sequential (hcf : CollisionFree db P) {s₀ : Sys}
    (h₀ : Reach (step db) (Sequential P) (Sys.init db now) s₀)
    (hidle : ∀ task ∈ s₀.tasks, task.finished = true) {row : ChunkRow}
    (hrow : s₀.st.sql.entryFileChunks.find? (cls, key, idx) = some row)
    (hfinal : row.isFinal = isFinal) : ReplaceInv db P (cls, key, idx) isFinal s₀ := by
  obtain ⟨log, hlog⟩ := Reach.exists_observe recordCommit [] h₀
  obtain ⟨hprov, hfiles, hseq⟩ := seqReach_invariants hcf hlog
  have still : ∀ task ∈ s₀.tasks, task.writes = true → False := by
    intro task htask hw
    have hmoving := Task.finished_of_writes hw
    rw [hidle task htask] at hmoving
    contradiction
  obtain ⟨hmem, hpk⟩ := Table.find?_eq_some_iff.mp hrow
  obtain ⟨r, hr, rfl⟩ := hprov.rows row hmem
  exact {
    prov := hprov
    files := hfiles
    one := fun t u task other ht _ hw _ => (still task (List.mem_of_getElem? ht) hw).elim
    doomed := hseq.doomed
    replaces := fun task htask hw => (still task htask hw).elim
    held := ⟨r, hr, hpk, hfinal, hrow⟩ }

/-- Between `s₁` and `s` the version `r` was the committed one. -/
def WasHeld (db : VmIoDb) (P : ChunkReq → Prop) (slot : String × String × Int64) (isFinal : Bool)
    (s₁ s : Sys) (r : ChunkReq) : Prop :=
  ∃ s', Reach (step db) (Replacing P slot isFinal) s₁ s' ∧
    Reach (step db) (Replacing P slot isFinal) s' s ∧ s'.st.Holds db P slot isFinal r

theorem WasHeld.step {slot : String × String × Int64} {s₁ s s' : Sys} {r : ChunkReq} {a : Action}
    (h : WasHeld db P slot isFinal s₁ s r) (hok : Replacing P slot isFinal s a)
    (hs : step db s a = some s') : WasHeld db P slot isFinal s₁ s' r := by
  obtain ⟨mid, hto, hfrom, hheld⟩ := h
  exact ⟨mid, hto, .tail a hfrom hok hs, hheld⟩

/-- What a lookup that has started at `s₁` knows at each of its program points. -/
def ReadPc (db : VmIoDb) (P : ChunkReq → Prop) (slot : String × String × Int64) (isFinal : Bool)
    (s₁ s : Sys) : GetChunkPc → Prop
  | .row => True
  | .read chunk => ∃ r, WasHeld db P slot isFinal s₁ s r ∧ chunk = db.chunk r
  | .done res => ∃ r, WasHeld db P slot isFinal s₁ s r ∧ res = .ok (some r.data)

theorem ReadPc.still {slot : String × String × Int64} {s₁ s s' : Sys} {a : Action} {pc : GetChunkPc}
    (h : ReadPc db P slot isFinal s₁ s pc) (hok : Replacing P slot isFinal s a)
    (hs : step db s a = some s') : ReadPc db P slot isFinal s₁ s' pc := by
  cases pc with
  | row => trivial
  | read chunk =>
      obtain ⟨r, hheld, hchunk⟩ := h
      exact ⟨r, hheld.step hok hs, hchunk⟩
  | done res =>
      obtain ⟨r, hheld, hres⟩ := h
      exact ⟨r, hheld.step hok hs, hres⟩

/-- The file read returns the version whose row was read if its file is there
and fails if it is not. -/
theorem read_step (hinv : ReplaceInv db P (cls, key, idx) isFinal s) {s₁ s' : Sys} {t : ℕ}
    {chunk : Chunk} (hhere : s.tasks[t]? = some (.getChunk cls key idx isFinal (.read chunk)))
    (hread : ReadPc db P (cls, key, idx) isFinal s₁ s (.read chunk))
    (hs : step db s (.step t .ok) = some s') :
    ∃ r res, WasHeld db P (cls, key, idx) isFinal s₁ s r ∧
      s'.tasks[t]? = some (.getChunk cls key idx isFinal (.done res)) ∧
      ((Task.getChunk cls key idx isFinal (.read chunk)).fileThere db s.st →
        res = .ok (some r.data)) ∧
      (¬(Task.getChunk cls key idx isFinal (.read chunk)).fileThere db s.st →
        ∃ e, res = .error e) := by
  obtain ⟨r, hheld, rfl⟩ := hread
  have hheld' := hheld
  obtain ⟨mid, _, _, hr, hslot, hfinal, _⟩ := hheld'
  simp only [ChunkReq.slot, Prod.mk.injEq] at hslot
  obtain ⟨rfl, rfl, rfl⟩ := hslot
  subst hfinal
  have hpiece := hinv.files.piece r hr
  rw [fileThere_iff_complete hpiece]
  have hlt := (List.getElem?_eq_some_iff.mp hhere).1
  simp only [step, hhere, stepTask, stepGetChunk, Option.map_some, Prod.map, id,
    Option.some.injEq] at hs
  subst hs
  refine ⟨r, _, hheld, List.getElem?_set_self hlt, fun hc => ?_, fun hc => ?_⟩
  · rw [getChunkFile_complete hc]
    rfl
  · obtain ⟨e, he⟩ := getChunkFile_incomplete hpiece hc
    exact ⟨e, by rw [he]; rfl⟩

theorem task_done_still {s s' : Sys} {a : Action} {t : ℕ} {task : Task}
    (hhere : s.tasks[t]? = some task) (hfin : task.finished = true) (hlive : a ≠ .crash)
    (hs : step db s a = some s') : s'.tasks[t]? = some task := by
  rcases step_cases hs with ⟨u, c, moved, moved', rfl, hcall⟩ | henv
  · have hut : t ≠ u := by
      rintro rfl
      have hmoves := hcall.moves
      have hthere := hcall.here
      rw [hhere] at hthere
      cases hthere
      rw [hfin] at hmoves
      contradiction
    exact (hcall.still hut).trans hhere
  · exact henv.still hs hlive hhere

theorem readPc_step (hinv : ReplaceInv db P (cls, key, idx) isFinal s) {s₁ s' : Sys} {t : ℕ}
    {pc : GetChunkPc} {a : Action} (hok : Replacing P (cls, key, idx) isFinal s a)
    (hto : Reach (step db) (Replacing P (cls, key, idx) isFinal) s₁ s)
    (hhere : s.tasks[t]? = some (.getChunk cls key idx isFinal pc))
    (hpc : ReadPc db P (cls, key, idx) isFinal s₁ s pc) (hs : step db s a = some s') :
    ∃ pc', s'.tasks[t]? = some (.getChunk cls key idx isFinal pc') ∧
      (ReadPc db P (cls, key, idx) isFinal s₁ s' pc' ∨
        (∃ res, pc' = .done res) ∧ ¬FileStays db t s a) := by
  rcases step_cases hs with ⟨u, c, task, task', rfl, hcall⟩ | henv
  · by_cases hut : u = t
    · subst hut
      have hmoves := hcall.moves
      have hc : c = .ok := by
        cases c with
        | ok => rfl
        | fail => exact hok.elim
        | portion n => cases pc <;> simp [step, hhere, stepTask, stepGetChunk] at hs
        | listing names => cases pc <;> simp [step, hhere, stepTask, stepGetChunk] at hs
      subst hc
      cases pc with
      | row =>
          -- some version is committed at every moment, and the row is that of this one
          obtain ⟨r, hheld⟩ := hinv.held
          have hheld' := hheld
          obtain ⟨_, hslot, hfinal, _⟩ := hheld'
          simp only [ChunkReq.slot, Prod.mk.injEq] at hslot
          obtain ⟨rfl, rfl, rfl⟩ := hslot
          subst hfinal
          refine ⟨.read (db.chunk r), ?_, .inl ⟨r, ?_, rfl⟩⟩
          · simp only [step, hhere, stepTask, stepGetChunk, getChunkRow_held hheld, Option.map_some,
              Prod.map, id, Option.some.injEq] at hs
            subst hs
            exact List.getElem?_set_self (List.getElem?_eq_some_iff.mp hhere).1
          · exact ⟨s, hto, .tail _ .refl hok hs, hheld⟩
      | read chunk =>
          obtain ⟨r, res, hheld, hres, hthere, _⟩ := read_step hinv hhere hpc hs
          refine ⟨.done res, hres, ?_⟩
          -- only a file that has been removed since the row was read spoils the answer
          by_cases hfile : (Task.getChunk cls key idx isFinal (.read chunk)).fileThere db s.st
          · exact .inl ⟨r, hheld.step hok hs, hthere hfile⟩
          · exact .inr ⟨⟨res, rfl⟩, fun hstays => hfile (hstays rfl _ hhere)⟩
      | done res =>
          have hmoved := hcall.here
          rw [hhere] at hmoved
          cases hmoved
          simp [Task.finished] at hmoves
    · exact ⟨pc, (hcall.still (Ne.symm hut)).trans hhere, .inl (hpc.still hok hs)⟩
  · refine ⟨pc, henv.still hs ?_ hhere, .inl (hpc.still hok hs)⟩
    rintro rfl
    exact hok

theorem readPc_of_reach {s₁ s : Sys} {t : ℕ}
    (hinv : ∀ s, Reach (step db) (Replacing P (cls, key, idx) isFinal) s₁ s →
      ReplaceInv db P (cls, key, idx) isFinal s)
    (hstart : s₁.tasks[t]? = some (.getChunk cls key idx isFinal .row))
    (h : Reach (step db) (Replacing P (cls, key, idx) isFinal) s₁ s) :
    ∃ pc, s.tasks[t]? = some (.getChunk cls key idx isFinal pc) ∧
      (ReadPc db P (cls, key, idx) isFinal s₁ s pc ∨ ∃ res, pc = .done res) := by
  refine h.invariant_of (I := fun s => ∃ pc,
    s.tasks[t]? = some (.getChunk cls key idx isFinal pc) ∧
      (ReadPc db P (cls, key, idx) isFinal s₁ s pc ∨ ∃ res, pc = .done res))
    (fun s h => h) ⟨.row, hstart, .inl trivial⟩ ?_
  rintro s a s' hto _ ⟨pc, hhere, hpc | ⟨res, rfl⟩⟩ hok hs
  · obtain ⟨pc', hhere', hpc' | ⟨hdone, _⟩⟩ := readPc_step (hinv s hto) hok hto hhere hpc hs
    · exact ⟨pc', hhere', .inl hpc'⟩
    · exact ⟨pc', hhere', .inr hdone⟩
  · exact ⟨.done res, task_done_still hhere rfl (fun h => (h ▸ hok : Replacing P _ _ s .crash)) hs,
      .inr ⟨res, rfl⟩⟩

theorem readPc_of_stays {s₁ s : Sys} {t : ℕ}
    (hinv : ∀ s, Reach (step db) (Replacing P (cls, key, idx) isFinal) s₁ s →
      ReplaceInv db P (cls, key, idx) isFinal s)
    (hstart : s₁.tasks[t]? = some (.getChunk cls key idx isFinal .row))
    (h : Reach (step db) (fun s a => Replacing P (cls, key, idx) isFinal s a ∧ FileStays db t s a)
      s₁ s) :
    ∃ pc, s.tasks[t]? = some (.getChunk cls key idx isFinal pc) ∧
      ReadPc db P (cls, key, idx) isFinal s₁ s pc := by
  refine h.invariant_of (I := fun s => ∃ pc,
    s.tasks[t]? = some (.getChunk cls key idx isFinal pc) ∧
      ReadPc db P (cls, key, idx) isFinal s₁ s pc)
    (fun s h => h.mono fun _ _ hok => hok.1) ⟨.row, hstart, trivial⟩ ?_
  rintro s a s' hto _ ⟨pc, hhere, hpc⟩ ⟨hok, hstays⟩ hs
  obtain ⟨pc', hhere', hpc' | ⟨_, hgone⟩⟩ := readPc_step (hinv s hto) hok hto hhere hpc hs
  · exact ⟨pc', hhere', hpc'⟩
  · exact absurd hstays hgone

end

/-- A lookup of a committed chunk, beside which the chunk is replaced any number
of times, returns a version that was committed between its start and its end,
provided the file of the row it has read is still there when it reads it. At
the step that reads the file this condition is exact. -/
theorem getChunk_during {db : VmIoDb} {P : ChunkReq → Prop} (hcf : CollisionFree db P) {now : Time}
    {cls key : String} {idx : Int64} {isFinal : Bool} {s₀ s₁ : Sys} {t : ℕ} {row : ChunkRow}
    (h₀ : Reach (step db) (Sequential P) (Sys.init db now) s₀)
    (hidle : ∀ task ∈ s₀.tasks, task.finished = true)
    (hrow : s₀.st.sql.entryFileChunks.find? (cls, key, idx) = some row)
    (hfinal : row.isFinal = isFinal)
    (h₁ : Reach (step db) (Replacing P (cls, key, idx) isFinal) s₀ s₁)
    (hstart : s₁.tasks[t]? = some (.getChunk cls key idx isFinal .row)) :
    (∀ s₂ res,
      Reach (step db) (fun s a => Replacing P (cls, key, idx) isFinal s a ∧ FileStays db t s a)
        s₁ s₂ →
      s₂.tasks[t]? = some (.getChunk cls key idx isFinal (.done res)) →
      ∃ r, WasHeld db P (cls, key, idx) isFinal s₁ s₂ r ∧ res = .ok (some r.data)) ∧
    ∀ s chunk s', Reach (step db) (Replacing P (cls, key, idx) isFinal) s₁ s →
      s.tasks[t]? = some (.getChunk cls key idx isFinal (.read chunk)) →
      step db s (.step t .ok) = some s' →
      ((∃ r, WasHeld db P (cls, key, idx) isFinal s₁ s' r ∧
        s'.tasks[t]? = some (.getChunk cls key idx isFinal (.done (.ok (some r.data))))) ↔
        (Task.getChunk cls key idx isFinal (.read chunk)).fileThere db s.st) := by
  have hinv₁ := h₁.invariant (replaceInv_of_sequential hcf h₀ hidle hrow hfinal)
    fun _ _ _ hinv hok hs => replaceInv_step hcf hinv hok hs
  have hinv : ∀ s, Reach (step db) (Replacing P (cls, key, idx) isFinal) s₁ s →
      ReplaceInv db P (cls, key, idx) isFinal s := fun s h =>
    h.invariant hinv₁ fun _ _ _ hinv hok hs => replaceInv_step hcf hinv hok hs
  constructor
  · intro s₂ res h₂ hdone
    obtain ⟨pc, hhere, hpc⟩ := readPc_of_stays hinv hstart h₂
    rw [hdone] at hhere
    cases hhere
    exact hpc
  · intro s chunk s' h hhere hs
    obtain ⟨pc, hhere', hpc⟩ := readPc_of_reach hinv hstart h
    rw [hhere] at hhere'
    cases hhere'
    rcases hpc with hpc | ⟨res, hres⟩
    · obtain ⟨r, res, hheld, hres, hthere, hgone⟩ := read_step (hinv s h) hhere hpc hs
      have hok : Replacing P (cls, key, idx) isFinal s (.step t .ok) := trivial
      constructor
      · rintro ⟨r', _, hdone⟩
        by_contra hno
        obtain ⟨e, he⟩ := hgone hno
        rw [hres, he] at hdone
        cases hdone
      · intro hfile
        exact ⟨r, hheld.step hok hs, by rw [hres, hthere hfile]⟩
    · cases hres

def Sys.lookupAnswer (s : Sys) (t : ℕ) (cls key : String) (idx : Int64) (isFinal : Bool) :
    Option (Except IoError (Option Bytes)) :=
  match s.tasks[t]? with
  | some (.getChunk cls' key' idx' isFinal' (.done res)) =>
      if cls' = cls ∧ key' = key ∧ idx' = idx ∧ isFinal' = isFinal then some res else none
  | _ => none

theorem Sys.task_of_lookupAnswer {s : Sys} {t : ℕ} {cls key : String} {idx : Int64} {isFinal : Bool}
    {res : Except IoError (Option Bytes)} (h : s.lookupAnswer t cls key idx isFinal = some res) :
    s.tasks[t]? = some (.getChunk cls key idx isFinal (.done res)) := by
  unfold Sys.lookupAnswer at h
  split at h
  · rename_i htask
    split at h
    · rename_i heq
      obtain ⟨rfl, rfl, rfl, rfl⟩ := heq
      cases h
      exact htask
    · contradiction
  · contradiction

def Sys.uploadAnswer (s : Sys) (t : ℕ) : Option (Except IoError Unit) :=
  match s.tasks[t]? with
  | some (.upsertChunk _ (.done res)) => some res
  | _ => none

namespace Vectors

/-- The entry and its first chunk are put, one call after the other. -/
def committedA : List Action :=
  putEntry 0 ++ .spawn (.upsertChunk reqA) :: writeSteps 1 ++ [.step 1 .ok]

/-- The lookup reads the row, the chunk is replaced up to its commit, and then the
file that was committed before is removed and read, in this order or the other. -/
def replacedB (last : List Action) : List Action :=
  .step 2 .ok :: .spawn (.upsertChunk reqB) :: writeSteps 3 ++ .step 3 .ok :: last

end Vectors

/-- A replacement is committed between the two reads of a lookup. -/
theorem getChunk_during_committed :
    ∃ (s₀ s₁ s₂ : Sys) (res : Except IoError (Option Bytes)),
      Reach (step Vectors.db) (Sequential Vectors.uploads) (Sys.init Vectors.db 0) s₀ ∧
      Reach (step Vectors.db) (Replacing Vectors.uploads ("c", "k", 0) true) s₀ s₁ ∧
      Reach (step Vectors.db) (fun s a => Replacing Vectors.uploads ("c", "k", 0) true s a ∧
        FileStays Vectors.db 2 s a) s₁ s₂ ∧
      s₂.lookupAnswer 2 "c" "k" 0 true = some res ∧
      ∃ r, WasHeld Vectors.db Vectors.uploads ("c", "k", 0) true s₁ s₂ r ∧
        res = .ok (some r.data) := by
  obtain ⟨s₀, h₀, hrow, hlen, hidle, hrun⟩ := Reach.exists_of_runOk
    (step Vectors.db) (Sequential Vectors.uploads) (Sys.init Vectors.db 0) Vectors.committedA
    (fun s₀ => s₀.st.sql.entryFileChunks.find? ("c", "k", 0) =
        some (Vectors.db.row Vectors.reqA) ∧ s₀.tasks.length = 2 ∧
      (∀ task ∈ s₀.tasks, task.finished = true) ∧
      (runOk (step Vectors.db) (fun s a => Replacing Vectors.uploads ("c", "k", 0) true s a ∧
          FileStays Vectors.db 2 s a)
        ⟨s₀.st, s₀.tasks ++ [.getChunk "c" "k" 0 true .row]⟩
        (Vectors.replacedB [.step 2 .ok, .step 3 .ok])).any
        (fun s₂ => decide (s₂.lookupAnswer 2 "c" "k" 0 true ≠ none)) = true)
    (by decide +kernel)
  obtain ⟨s₂, h₂, hans⟩ := Reach.exists_of_runOk _ _ _ _
    (fun s₂ : Sys => s₂.lookupAnswer 2 "c" "k" 0 true ≠ none) hrun
  have h₁ : Reach (step Vectors.db) (Replacing Vectors.uploads ("c", "k", 0) true) s₀
      ⟨s₀.st, s₀.tasks ++ [.getChunk "c" "k" 0 true .row]⟩ :=
    .tail (.spawn (.getChunk "c" "k" 0 true)) .refl trivial rfl
  have hstart : (s₀.tasks ++ [Task.getChunk "c" "k" 0 true .row])[2]? =
      some (.getChunk "c" "k" 0 true .row) := by
    rw [← hlen, List.getElem?_concat_length]
  have hduring := (getChunk_during Vectors.collisionFree h₀ hidle hrow rfl h₁ hstart).1
  obtain ⟨res, hres⟩ := Option.ne_none_iff_exists'.mp hans
  exact ⟨s₀, _, s₂, res, h₀, h₁, h₂, hres, hduring s₂ res h₂ (Sys.task_of_lookupAnswer hres)⟩

/-- The file is removed between the two reads of a lookup, which fails although a
version of the chunk was committed all the time. -/
theorem getChunk_during_fails :
    ∃ (s₀ s₁ s₂ : Sys),
      Reach (step Vectors.db) (Sequential Vectors.uploads) (Sys.init Vectors.db 0) s₀ ∧
      (∀ task ∈ s₀.tasks, task.finished = true) ∧
      s₀.st.sql.entryFileChunks.find? ("c", "k", 0) = some (Vectors.db.row Vectors.reqA) ∧
      Reach (step Vectors.db) (Replacing Vectors.uploads ("c", "k", 0) true) s₀ s₁ ∧
      s₁.tasks[2]? = some (.getChunk "c" "k" 0 true .row) ∧
      Reach (step Vectors.db) (Replacing Vectors.uploads ("c", "k", 0) true) s₁ s₂ ∧
      s₂.uploadAnswer 3 = some (.ok ()) ∧
      s₂.lookupAnswer 2 "c" "k" 0 true = some (.error (.fs .notFound)) := by
  obtain ⟨s₀, h₀, hrow, hlen, hidle, hrun⟩ := Reach.exists_of_runOk
    (step Vectors.db) (Sequential Vectors.uploads) (Sys.init Vectors.db 0) Vectors.committedA
    (fun s₀ => s₀.st.sql.entryFileChunks.find? ("c", "k", 0) =
        some (Vectors.db.row Vectors.reqA) ∧ s₀.tasks.length = 2 ∧
      (∀ task ∈ s₀.tasks, task.finished = true) ∧
      (runOk (step Vectors.db) (Replacing Vectors.uploads ("c", "k", 0) true)
        ⟨s₀.st, s₀.tasks ++ [.getChunk "c" "k" 0 true .row]⟩
        (Vectors.replacedB [.step 3 .ok, .step 2 .ok])).any
        (fun s₂ => decide (s₂.uploadAnswer 3 = some (.ok ()) ∧
          s₂.lookupAnswer 2 "c" "k" 0 true = some (.error (.fs .notFound)))) = true)
    (by decide +kernel)
  obtain ⟨s₂, h₂, hup, hans⟩ := Reach.exists_of_runOk _ _ _ _
    (fun s₂ : Sys => s₂.uploadAnswer 3 = some (.ok ()) ∧
      s₂.lookupAnswer 2 "c" "k" 0 true = some (.error (.fs .notFound))) hrun
  refine ⟨s₀, _, s₂, h₀, hidle, hrow, .tail (.spawn (.getChunk "c" "k" 0 true)) .refl trivial rfl,
    ?_, h₂, hup, hans⟩
  show (s₀.tasks ++ [Task.getChunk "c" "k" 0 true .row])[2]? = _
  rw [← hlen, List.getElem?_concat_length]

end VmIo.Db
