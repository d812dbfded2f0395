import VmIo.Db.WriteOnce

/-!
One call after another, with crashes.

Where calls do not overlap, the condition of the write-once discipline holds by
itself, whatever the crashes before have left on disk. A lookup then answers
from the log of committed uploads.
-/

namespace VmIo.Db

open VmIo.Lib

/-! ### Sequential runs -/

def Action.issues : Action → Bool
  | .spawn _ => true
  | _ => false

/-- The metadata check of an upload gets an answer. It is no write, no removal
and no transaction, the operations that may fail here. -/
def StatAnswers (s : Sys) : Action → Prop
  | .step t .fail => ∀ task ∈ s.tasks[t]?, task.atStat = false
  | _ => True

instance (s : Sys) (a : Action) : Decidable (StatAnswers s a) := by
  unfold StatAnswers
  split
  · infer_instance
  · infer_instance

/-- A call is issued once every call before it has returned or died. -/
def Sequential (P : ChunkReq → Prop) (s : Sys) (a : Action) : Prop :=
  UploadsIn P s a ∧ (a.issues = true → ∀ task ∈ s.tasks, task.finished = true) ∧ StatAnswers s a

instance (P : ChunkReq → Prop) [DecidablePred P] (s : Sys) (a : Action) :
    Decidable (Sequential P s a) :=
  inferInstanceAs (Decidable (_ ∧ _ ∧ _))

/-- The log of the uploads that committed, the newest first. -/
def recordCommit (s : Sys) (a : Action) (_ : Sys) (log : List ChunkReq) : List ChunkReq :=
  match s.committing a with
  | some r => r :: log
  | none => log

def lastCommitted (log : List ChunkReq) (slot : String × String × Int64) : Option ChunkReq :=
  log.find? (fun r => r.slot = slot)

/-- The blobs whose files a running call may still empty or remove. -/
def Task.dooms (db : VmIoDb) : Task → List Digest
  | .upsertChunk r (.mkdir _) => [db.blobId r]
  | .upsertChunk r (.create _) => [db.blobId r]
  | .upsertChunk r (.write _ _) => [db.blobId r]
  | .upsertChunk r (.txn true) => [db.blobId r]
  | .upsertChunk r (.removeOwn _) => [db.blobId r]
  | .cleanupDir pc => pc.victim.toList
  | task => task.pending

theorem Task.dooms_of_finished {db : VmIoDb} {task : Task} (h : task.finished = true) :
    task.dooms db = [] := by
  unfold Task.finished at h
  split at h
  all_goals first | rfl | contradiction

theorem Task.dooms_of_truncates {db : VmIoDb} {task : Task} {b : Digest}
    (h : b ∈ task.truncates db) : b ∈ task.dooms db := by
  unfold Task.truncates at h
  split at h
  · split at h
    · contradiction
    · cases h
      simp [Task.dooms]
  · contradiction

theorem Task.dooms_of_removes {db : VmIoDb} {task : Task} {b : Digest}
    (h : b ∈ task.removes db) : b ∈ task.dooms db := by
  unfold Task.removes at h
  split at h
  · cases h
    simp [Task.dooms]
  · simp only [Task.dooms, Option.mem_toList]
    exact h
  · have hmem : b ∈ task.pending := List.mem_of_mem_head? h
    unfold Task.dooms
    split <;> first | exact hmem | simp [Task.pending] at hmem

theorem Task.unfinished_of_opened {db : VmIoDb} {task : Task} {b : Digest}
    (h : b ∈ task.opened db) : task.finished = false := by
  unfold Task.opened at h
  split at h
  · rfl
  · rfl
  · contradiction

theorem Task.opened_of_counts {db : VmIoDb} {task : Task} {b : Digest}
    (h : b ∈ task.counts db) : b ∈ task.opened db := by
  unfold Task.counts at h
  split at h
  · split at h
    · contradiction
    · exact h
  · exact h
  · contradiction

structure SeqInv (db : VmIoDb) (P : ChunkReq → Prop) (s : Sys) (log : List ChunkReq) : Prop where
  one : ∀ (t u : ℕ) task task', s.tasks[t]? = some task → s.tasks[u]? = some task' →
    task.finished = false → task'.finished = false → t = u
  logged : ∀ row ∈ s.st.sql.entryFileChunks.rows,
    ∃ r, P r ∧ row = db.row r ∧ lastCommitted log r.slot = some r
  doomed : ∀ task ∈ s.tasks, ∀ b ∈ task.dooms db, s.st.Unreferenced b

theorem seqInv_init (db : VmIoDb) (P : ChunkReq → Prop) (now : Time) :
    SeqInv db P (Sys.init db now) [] where
  one := by simp [Sys.init]
  logged := by simp [Sys.init, Sql.empty]
  doomed := by simp [Sys.init]

/-- A step is careful if the blobs its call dooms are referenced by no row and in
use by no other call. -/
theorem careful_of_alone {db : VmIoDb} {s : Sys}
    (hdoomed : ∀ task ∈ s.tasks, ∀ b ∈ task.dooms db, s.st.Unreferenced b)
    (halone : ∀ (t u : ℕ) task other b, s.tasks[t]? = some task → s.tasks[u]? = some other →
      b ∈ task.dooms db → b ∈ other.opened db → t = u) (a : Action) : Careful db s a := by
  intro task htask
  unfold Sys.mover at htask
  split at htask
  · rename_i t
    have hown : ∀ b ∈ task.dooms db, ∀ other ∈ s.tasks, b ∈ other.opened db →
        b ∈ task.opened db := by
      intro b hb other hother hopen
      obtain ⟨u, hu⟩ := List.mem_iff_getElem?.mp hother
      have htu := halone t u task other b htask hu hb hopen
      subst htu
      rw [Option.mem_def.mp htask] at hu
      cases hu
      exact hopen
    have hmem := List.mem_of_getElem? htask
    constructor
    · intro b hb
      have hdoom := Task.dooms_of_truncates hb
      refine ⟨hdoomed task hmem b hdoom, fun other hother hcount => ?_⟩
      have hopen := hown b hdoom other hother (Task.opened_of_counts hcount)
      unfold Task.truncates at hb
      split at hb
      · simp [Task.opened] at hopen
      · contradiction
    · intro b hb
      have hdoom := Task.dooms_of_removes hb
      refine ⟨hdoomed task hmem b hdoom, fun other hother hopen => ?_⟩
      have hopen := hown b hdoom other hother hopen
      unfold Task.opened at hopen
      split at hopen
      · simp [Task.removes, Task.pending] at hb
      · simp [Task.removes, Task.pending] at hb
      · contradiction
  · contradiction

theorem SeqInv.careful {db : VmIoDb} {P : ChunkReq → Prop} {s : Sys} {log : List ChunkReq}
    (hinv : SeqInv db P s log) (a : Action) : Careful db s a := by
  refine careful_of_alone hinv.doomed (fun t u task other b ht hu hb hopen => ?_) a
  have hmoving : task.finished = false := by
    by_contra hfin
    rw [Task.dooms_of_finished (by simpa using hfin)] at hb
    contradiction
  exact hinv.one t u task other ht hu hmoving (Task.unfinished_of_opened hopen)

/-! ### One step of a sequential run -/

section

variable {db : VmIoDb} {P : ChunkReq → Prop} {s s' : Sys} {log : List ChunkReq}

theorem UpsertChunkStep.dooms {st st' : Store} {r : ChunkReq} {pc pc' : UpsertChunkPc} {c : Choice}
    (h : UpsertChunkStep db st r pc c st' pc')
    (hinj : ∀ c ∈ st.sql.entryFileChunks.rows, ∀ c' ∈ st.sql.entryFileChunks.rows,
      c.blobId = c'.blobId → c = c')
    (hcommitted : ¬st.Unreferenced (db.blobId r) → Complete db st r)
    (hstat : c = .fail → pc ≠ .stat)
    (hdoomed : ∀ b ∈ (Task.upsertChunk r pc).dooms db, st.Unreferenced b) {b : Digest}
    (hb : b ∈ (Task.upsertChunk r pc').dooms db) : st'.Unreferenced b := by
  cases h with
  | miss c h =>
      simp only [Task.dooms, List.mem_singleton] at hb
      subst hb
      rcases h with rfl | ⟨_, hmiss⟩
      · exact absurd rfl (hstat rfl)
      · -- the file of a committed row is complete, so the check would have found it
        by_contra href
        obtain ⟨f, hf, hdata⟩ := hcommitted href
        exact hmiss _ (Fs.metadata_len hf) (by rw [hdata])
  | mkdir | create | retry | write | written =>
      simp only [Task.dooms, List.mem_singleton] at hb
      subst hb
      exact hdoomed _ (by simp [Task.dooms])
  | commit wrote sql prev h =>
      cases prev with
      | none => simp [Task.dooms, Task.pending, upsertChunkCommitted] at hb
      | some prev =>
          simp only [Task.dooms, Task.pending, upsertChunkCommitted, List.mem_singleton] at hb
          subst hb
          exact Sql.prev_unreferenced hinj h
  | abort wrote c e h =>
      cases wrote with
      | false => simp [Task.dooms, Task.pending, upsertChunkFailed] at hb
      | true =>
          simp only [Task.dooms, upsertChunkFailed, if_true, List.mem_singleton] at hb
          subst hb
          exact hdoomed _ (by simp [Task.dooms])
  | _ => simp [Task.dooms, Task.pending] at hb

theorem CallStep.doomed (hcf : CollisionFree db P) (hprov : Provenance db P s)
    (hfiles : FilesOk db P s) {t : ℕ} {c : Choice} {task task' : Task}
    (hok : StatAnswers s (.step t c)) (hcall : CallStep db s t c s' task task')
    (hdoomed : ∀ b ∈ task.dooms db, s.st.Unreferenced b) {b : Digest}
    (hb : b ∈ task'.dooms db) : s'.st.Unreferenced b := by
  have hinj := hprov.row_eq hcf
  have hhere := hcall.here
  have hstep := hcall.step
  obtain ⟨st', tasks'⟩ := s'
  cases hstep with
  | upsert h => simp [Task.dooms, Task.pending] at hb
  | upsertChunk h =>
      rename_i r pc pc'
      have hr := hprov.uploads t r pc hhere
      refine h.dooms hinj (hfiles.committed r hr) ?_ hdoomed hb
      rintro rfl rfl
      exact absurd (hok _ hhere) (by simp [Task.atStat])
  | rm h =>
      rcases h.pending hinj hb with hold | hfree
      · exact fun row hrow => hdoomed b hold row (h.mem_chunks hrow)
      · exact hfree
  | pruneBacklog h =>
      rcases h.pending hinj hb with hold | hfree
      · exact fun row hrow => hdoomed b hold row (h.mem_chunks hrow)
      · exact hfree
  | cleanupDir h =>
      simp only [Task.dooms, Option.mem_toList] at hb
      cases h with
      | walk _ _ _ _ _ hvictim =>
          rw [hvictim] at hb
          contradiction
      | ask cutoff id mtime stack h =>
          cases hb
          exact Sql.blobIdExists_eq_false.mp h
      | _ => contradiction
  | getChunk => simp [Task.dooms, Task.pending] at hb

theorem SeqInv.one_step (hinv : SeqInv db P s log) {a : Action} (hok : Sequential P s a)
    (h : step db s a = some s') (t u : ℕ) (task task' : Task) (ht : s'.tasks[t]? = some task)
    (hu : s'.tasks[u]? = some task') (htask : task.finished = false)
    (htask' : task'.finished = false) : t = u := by
  rcases step_cases h with ⟨m, c, moved, moved', rfl, hcall⟩ | henv
  · have here : ∀ {v : ℕ} {x : Task}, s'.tasks[v]? = some x → x.finished = false →
        ∃ y, s.tasks[v]? = some y ∧ y.finished = false := by
      intro v x hv hx
      rcases hcall.task hv with ⟨rfl, _⟩ | ⟨_, hold⟩
      · exact ⟨moved, hcall.here, hcall.moves⟩
      · exact ⟨x, hold, hx⟩
    obtain ⟨y, hy, hyfin⟩ := here ht htask
    obtain ⟨z, hz, hzfin⟩ := here hu htask'
    exact hinv.one t u y z hy hz hyfin hzfin
  · cases a with
    | spawn call =>
        simp only [step, Option.some.injEq] at h
        subst h
        have fresh : ∀ {v : ℕ} {x : Task}, (s.tasks ++ [call.start])[v]? = some x →
            x.finished = false → v = s.tasks.length := by
          intro v x hv hx
          rw [List.getElem?_append] at hv
          split at hv
          · rw [hok.2.1 rfl x (List.mem_of_getElem? hv)] at hx
            contradiction
          · rw [List.getElem?_singleton] at hv
            split at hv
            · omega
            · contradiction
        rw [fresh ht htask, fresh hu htask']
    | step m c => exact absurd rfl (henv.unmoved m c)
    | tick d =>
        simp only [step, Option.some.injEq] at h
        subst h
        exact hinv.one t u task task' ht hu htask htask'
    | crash =>
        simp only [step, Option.some.injEq] at h
        subst h
        simp at ht

theorem lastCommitted_cons_of_ne {r : ChunkReq} {slot : String × String × Int64}
    (h : r.slot ≠ slot) : lastCommitted (r :: log) slot = lastCommitted log slot := by
  simp [lastCommitted, h]

/-- Every committed row is that of the last upload of its slot. -/
theorem logged_step (hprov : Provenance db P s)
    (hlogged : ∀ row ∈ s.st.sql.entryFileChunks.rows,
      ∃ r, P r ∧ row = db.row r ∧ lastCommitted log r.slot = some r)
    {a : Action} (h : step db s a = some s') :
    ∀ row ∈ s'.st.sql.entryFileChunks.rows,
      ∃ r, P r ∧ row = db.row r ∧ lastCommitted (recordCommit s a s' log) r.slot = some r := by
  intro row hrow
  cases hcommit : s.committing a with
  | none =>
      simp only [recordCommit, hcommit]
      refine hlogged row ?_
      rcases step_cases h with ⟨t, c, task, task', rfl, hcall⟩ | henv
      · rcases hcall.step.mem_chunks hrow with hold | ⟨r, wrote, rfl, rfl, hfk, _⟩
        · exact hold
        · have := committing_eq_some_iff.mpr ⟨t, wrote, rfl, hcall.here, hfk⟩
          rw [hcommit] at this
          contradiction
      · exact henv.sql ▸ hrow
  | some r =>
      simp only [recordCommit, hcommit]
      obtain ⟨t, wrote, task', hcall, _, hput⟩ := step_committing hcommit h
      rw [hput, Table.mem_put] at hrow
      rcases hrow with rfl | ⟨hrow, hpk⟩
      · exact ⟨r, hprov.uploads t r _ hcall.here, rfl, by simp [lastCommitted]⟩
      · obtain ⟨r₀, hr₀, rfl, hlast⟩ := hlogged row hrow
        exact ⟨r₀, hr₀, rfl, (lastCommitted_cons_of_ne (Ne.symm hpk)).trans hlast⟩

theorem seqInv_step (hcf : CollisionFree db P) (hprov : Provenance db P s)
    (hfiles : FilesOk db P s) (hinv : SeqInv db P s log) {a : Action} (hok : Sequential P s a)
    (h : step db s a = some s') : SeqInv db P s' (recordCommit s a s' log) where
  one := hinv.one_step hok h
  logged := logged_step hprov hinv.logged h
  doomed := by
    intro task₁ htask₁ b hb
    obtain ⟨u, hu⟩ := List.mem_iff_getElem?.mp htask₁
    rcases step_cases h with ⟨t, c, task, task', rfl, hcall⟩ | henv
    · rcases hcall.task hu with ⟨rfl, rfl⟩ | ⟨hne, hold⟩
      · exact hcall.doomed hcf hprov hfiles hok.2.2 (hinv.doomed task hcall.mem_here) hb
      · -- a call that did not move has returned
        have hfin : task₁.finished = true := by
          by_contra hrun
          exact hne (hinv.one u t task₁ task hold hcall.here (by simpa using hrun) hcall.moves)
        rw [Task.dooms_of_finished hfin] at hb
        contradiction
    · rcases henv.mem htask₁ with hold | ⟨call, _, rfl⟩
      · have hfree := hinv.doomed task₁ hold b hb
        simpa only [Store.Unreferenced, henv.sql] using hfree
      · cases call <;> simp [Call.start, Task.dooms, Task.pending, RmPc.pending, PrunePc.pending,
          CleanupPc.victim] at hb

end

/-! ### Whole runs -/

section

variable {db : VmIoDb} {P : ChunkReq → Prop} {now : Time}

/-- The sequential runs from an empty store, with the log of commits beside. -/
abbrev SeqReach (db : VmIoDb) (P : ChunkReq → Prop) (now : Time) :
    Sys × List ChunkReq → Prop :=
  Reach (observe (step db) recordCommit) (fun p a => Sequential P p.1 a) (Sys.init db now, [])

theorem seqReach_invariants (hcf : CollisionFree db P) {s : Sys} {log : List ChunkReq}
    (h : SeqReach db P now (s, log)) :
    Provenance db P s ∧ FilesOk db P s ∧ SeqInv db P s log := by
  refine Reach.invariant
    (I := fun p => Provenance db P p.1 ∧ FilesOk db P p.1 ∧ SeqInv db P p.1 p.2)
    ⟨provenance_init db P now, filesOk_init db P now, seqInv_init db P now⟩ ?_ h
  rintro ⟨s, log⟩ a ⟨s', log'⟩ ⟨hprov, hfiles, hinv⟩ hok hs
  obtain ⟨hs, hlog⟩ := observe_eq_some_iff.mp hs
  have hlog : log' = recordCommit s a s' log := hlog
  subst hlog
  exact ⟨provenance_step hprov hok.1 hs,
    filesOk_step hcf hprov hfiles (hinv.careful a) hs,
    seqInv_step hcf hprov hfiles hinv hok hs⟩

theorem getChunk_none {st : Store} {cls key : String} {idx : Int64} (isFinal : Bool)
    (h : st.sql.entryFileChunks.find? (cls, key, idx) = none) :
    getChunk db st cls key idx isFinal = .ok none := by
  simp [getChunk, getChunkRow, Sql.getChunk, h]

theorem getChunkRow_row {st : Store} {r : ChunkReq} (isFinal : Bool)
    (h : st.sql.entryFileChunks.find? r.slot = some (db.row r)) :
    getChunkRow st r.cls r.key r.idx isFinal =
      if isFinal ≠ r.isFinal then .error (.other "chunk finality mismatch")
      else .ok (some ⟨db.crypto.sha256 r.data, (db.encrypted r).1.tag, (db.cipher r).length,
        r.isFinal⟩) := by
  simp only [ChunkReq.slot] at h
  simp [getChunkRow, Sql.getChunk, h, VmIoDb.row]

theorem getChunkFile_row {st : Store} {r : ChunkReq} (hc : Complete db st r) :
    getChunkFile db st r.cls r.key r.idx r.isFinal
      ⟨db.crypto.sha256 r.data, (db.encrypted r).1.tag, (db.cipher r).length, r.isFinal⟩ =
        .ok r.data := by
  obtain ⟨f, hf, hdata⟩ := hc
  have hread : st.fs.read (db.path (genId db.crypto (db.chunkId r) db.blobKey)) =
      .ok (db.cipher r) := by
    rw [show genId db.crypto (db.chunkId r) db.blobKey = db.blobId r from rfl,
      Fs.read_file hf, hdata]
  have hdec := decryptChunk_encryptChunk db.crypto (db.chunkId r) r.data db.blobKey
  unfold getChunkFile
  simp only [VmIoDb.chunkId] at hread hdec
  simp only [hread, ne_eq, not_true_eq_false, if_false]
  exact hdec

theorem getChunk_row {st : Store} {r : ChunkReq} (isFinal : Bool)
    (h : st.sql.entryFileChunks.find? r.slot = some (db.row r)) (hc : Complete db st r) :
    getChunk db st r.cls r.key r.idx isFinal =
      if isFinal = r.isFinal then .ok (some r.data)
      else .error (.other "chunk finality mismatch") := by
  have hrow := getChunkRow_row isFinal h
  by_cases hfinal : isFinal = r.isFinal
  · subst hfinal
    rw [if_neg (not_not.mpr rfl)] at hrow
    rw [if_pos rfl]
    simp only [getChunk, hrow, getChunkFile_row hc, Except.map]
  · rw [if_pos hfinal] at hrow
    rw [if_neg hfinal]
    simp only [getChunk, hrow]

theorem SeqInv.lookup {s : Sys} {log : List ChunkReq} (hfiles : FilesOk db P s)
    (hinv : SeqInv db P s log) {cls key : String} {idx : Int64} {row : ChunkRow}
    (h : s.st.sql.entryFileChunks.find? (cls, key, idx) = some row) :
    ∃ r, P r ∧ row = db.row r ∧ lastCommitted log (cls, key, idx) = some r ∧
      ∀ isFinal, getChunk db s.st cls key idx isFinal =
        if isFinal = row.isFinal then .ok (some r.data)
        else .error (.other "chunk finality mismatch") := by
  obtain ⟨hmem, hpk⟩ := Table.find?_eq_some_iff.mp h
  obtain ⟨r, hr, rfl, hlast⟩ := hinv.logged row hmem
  have hslot : r.slot = (cls, key, idx) := hpk
  have hcomplete := hfiles.committed r hr fun hfree => hfree _ hmem rfl
  refine ⟨r, hr, rfl, hslot ▸ hlast, fun isFinal => ?_⟩
  rw [← hslot] at h
  have hget := getChunk_row isFinal h hcomplete
  simp only [ChunkReq.slot, Prod.mk.injEq] at hslot
  obtain ⟨rfl, rfl, rfl⟩ := hslot
  exact hget

/-! ### An upload that fails -/

def Sys.issue (s : Sys) (r : ChunkReq) : Sys := ⟨s.st, s.tasks ++ [.upsertChunk r .start]⟩

/-- Where an upload may be whose transaction has not committed. -/
def UpsertChunkPc.committed : UpsertChunkPc → Prop
  | .removePrev _ => True
  | .done (.ok ()) => True
  | _ => False

theorem UpsertChunkStep.chunks {st st' : Store} {r : ChunkReq} {pc pc' : UpsertChunkPc}
    {c : Choice} (h : UpsertChunkStep db st r pc c st' pc') (hpc : ¬pc'.committed) :
    ¬pc.committed ∧ st'.sql.entryFileChunks = st.sql.entryFileChunks := by
  cases h with
  | commit wrote sql prev => cases prev <;> exact absurd trivial hpc
  | removePrev prev => exact absurd trivial hpc
  | keepPrev prev => exact absurd trivial hpc
  | removeOwn e => exact ⟨id, by rw [removeQuiet_sql]⟩
  | _ => exact ⟨id, rfl⟩

theorem CallStep.last {s s' : Sys} {idle : List Task} {t : ℕ} {c : Choice}
    {task task' last : Task} (hidle : ∀ task ∈ idle, task.finished = true)
    (htasks : s.tasks = idle ++ [last]) (h : CallStep db s t c s' task task') :
    task = last ∧ s'.tasks = idle ++ [task'] := by
  have hhere := h.here
  rw [htasks, List.getElem?_append] at hhere
  split at hhere
  · have hfin := hidle task (List.mem_of_getElem? hhere)
    rw [h.moves] at hfin
    contradiction
  · rename_i hge
    rw [List.getElem?_singleton] at hhere
    split at hhere
    · rename_i hzero
      have ht : t = idle.length := by omega
      refine ⟨(Option.some.inj hhere).symm, ?_⟩
      rw [h.tasks, htasks, ht, List.set_append_right _ _ le_rfl]
      simp
    · contradiction

theorem lone_upload {s s' : Sys} {r : ChunkReq} (hidle : ∀ task ∈ s.tasks, task.finished = true)
    (h : Reach (step db) (fun s a => Sequential P s a ∧ a.issues = false) (s.issue r) s') :
    s'.tasks = [] ∨ ∃ pc, s'.tasks = s.tasks ++ [.upsertChunk r pc] ∧
      (pc.committed ∨ s'.st.sql.entryFileChunks = s.st.sql.entryFileChunks) := by
  refine Reach.invariant (I := fun s' => s'.tasks = [] ∨
    ∃ pc, s'.tasks = s.tasks ++ [.upsertChunk r pc] ∧
      (pc.committed ∨ s'.st.sql.entryFileChunks = s.st.sql.entryFileChunks))
    (.inr ⟨.start, rfl, .inr rfl⟩) ?_ h
  intro s₁ a s₂ hinv hok hs
  cases a with
  | spawn call => exact absurd hok.2 (by simp [Action.issues])
  | crash =>
      simp only [step, Option.some.injEq] at hs
      subst hs
      exact .inl rfl
  | tick d =>
      simp only [step, Option.some.injEq] at hs
      subst hs
      exact hinv
  | step t c =>
      rcases hinv with hnil | ⟨pc, htasks, hchunks⟩
      · simp [step, hnil] at hs
      · rcases step_cases hs with ⟨t', c', task, task', heq, hcall⟩ | henv
        · obtain ⟨rfl, hnew⟩ := hcall.last hidle htasks
          have hstep := hcall.step
          obtain ⟨st₂, tasks₂⟩ := s₂
          cases hstep with
          | upsertChunk hup =>
              rename_i pc'
              refine .inr ⟨pc', hnew, ?_⟩
              -- until the transaction commits, no step touches the chunk rows
              by_cases hpc : pc'.committed
              · exact .inl hpc
              · obtain ⟨hnot, hsame⟩ := hup.chunks hpc
                rcases hchunks with hdone | hchunks
                · exact absurd hdone hnot
                · exact .inr (hsame.trans hchunks)
        · exact absurd rfl (henv.unmoved t c)

theorem getChunk_congr (hcf : CollisionFree db P) {s s' : Sys} {log log' : List ChunkReq}
    (h : SeqReach db P now (s, log)) (h' : SeqReach db P now (s', log'))
    (hchunks : s'.st.sql.entryFileChunks = s.st.sql.entryFileChunks) (cls key : String)
    (idx : Int64) (isFinal : Bool) :
    getChunk db s'.st cls key idx isFinal = getChunk db s.st cls key idx isFinal := by
  obtain ⟨_, hfiles, hinv⟩ := seqReach_invariants hcf h
  obtain ⟨_, hfiles', hinv'⟩ := seqReach_invariants hcf h'
  cases hfind : s.st.sql.entryFileChunks.find? (cls, key, idx) with
  | none => rw [getChunk_none isFinal hfind, getChunk_none isFinal (hchunks ▸ hfind)]
  | some row =>
      obtain ⟨r, hr, rfl, _, hget⟩ := hinv.lookup hfiles hfind
      obtain ⟨r', hr', hrow, _, hget'⟩ := hinv'.lookup hfiles' (hchunks ▸ hfind)
      have hsame : r = r' := hcf.eq_of_blobId hr hr' (congrArg ChunkRow.blobId hrow)
      rw [hget, hget', hsame]

end

/-- In every sequential run, whatever fails and wherever the process dies, a
lookup finds nothing exactly where no chunk row is committed, complains about
finality exactly where the committed chunk has the other one, and otherwise
returns the data of the last upload of that slot that committed. An upload that
returns an error changes no lookup. -/
theorem getChunk_refines {db : VmIoDb} {P : ChunkReq → Prop} (hcf : CollisionFree db P)
    {now : Time} {s : Sys} {log : List ChunkReq}
    (h : Reach (observe (step db) recordCommit) (fun p a => Sequential P p.1 a)
      (Sys.init db now, []) (s, log)) :
    (∀ cls key idx isFinal,
      (getChunk db s.st cls key idx isFinal = .ok none ↔
        s.st.sql.entryFileChunks.find? (cls, key, idx) = none) ∧
      (getChunk db s.st cls key idx isFinal = .error (.other "chunk finality mismatch") ↔
        ∃ row, s.st.sql.entryFileChunks.find? (cls, key, idx) = some row ∧
          row.isFinal ≠ isFinal) ∧
      ∀ row, s.st.sql.entryFileChunks.find? (cls, key, idx) = some row → row.isFinal = isFinal →
        ∃ r, lastCommitted log (cls, key, idx) = some r ∧
          getChunk db s.st cls key idx isFinal = .ok (some r.data)) ∧
    ∀ r e s', P r → (∀ task ∈ s.tasks, task.finished = true) →
      Reach (step db) (fun s a => Sequential P s a ∧ a.issues = false) (s.issue r) s' →
      s'.tasks[s.tasks.length]? = some (.upsertChunk r (.done (.error e))) →
      ∀ cls key idx isFinal,
        getChunk db s'.st cls key idx isFinal = getChunk db s.st cls key idx isFinal := by
  obtain ⟨_, hfiles, hinv⟩ := seqReach_invariants hcf h
  constructor
  · intro cls key idx isFinal
    cases hfind : s.st.sql.entryFileChunks.find? (cls, key, idx) with
    | none => simp [getChunk_none isFinal hfind]
    | some row =>
        obtain ⟨r, _, _, hlast, hget⟩ := hinv.lookup hfiles hfind
        rw [hget isFinal]
        by_cases hfinal : isFinal = row.isFinal
        · simp [hfinal, hlast]
        · simp [hfinal, Ne.symm hfinal]
  · intro r e s' hr hidle hrun herr
    have hissued : Reach (step db) (Sequential P) (Sys.init db now) (s.issue r) := by
      refine .tail (.spawn (.upsertChunk r)) (Reach.of_observe h) ⟨?_, fun _ => hidle, trivial⟩ rfl
      rintro r' hr'
      cases hr'
      exact hr
    obtain ⟨log', h'⟩ := Reach.exists_observe recordCommit []
      (hissued.trans (hrun.mono fun _ _ hok => hok.1))
    refine getChunk_congr hcf h h' ?_
    rcases lone_upload hidle hrun with hnil | ⟨pc, htasks, hchunks⟩
    · simp [hnil] at herr
    · rw [htasks, List.getElem?_append_right le_rfl, Nat.sub_self] at herr
      cases herr
      exact hchunks.resolve_left id

/-- A chunk is committed, and the process dies while it is being replaced. -/
theorem getChunk_refines_crash :
    ∃ s log, Reach (observe (step Vectors.db) recordCommit)
        (fun p a => Sequential Vectors.uploads p.1 a) (Sys.init Vectors.db 0, []) (s, log) ∧
      getChunk Vectors.db s.st "c" "k" 0 true = .ok (some [0x41]) := by
  obtain ⟨⟨s, log⟩, hreach, hrow, hlast⟩ := Reach.exists_of_runOk
    (observe (step Vectors.db) recordCommit)
    (fun p a => Sequential Vectors.uploads p.1 a) ((Sys.init Vectors.db 0, []))
    (Vectors.putEntry 0 ++ .spawn (.upsertChunk Vectors.reqA) :: Vectors.writeSteps 1 ++
      .step 1 .ok :: .spawn (.upsertChunk Vectors.reqB) :: Vectors.writeSteps 2 ++ [.crash])
    (fun p => p.1.st.sql.entryFileChunks.find? ("c", "k", 0) =
        some (Vectors.db.row Vectors.reqA) ∧
      lastCommitted p.2 ("c", "k", 0) = some Vectors.reqA) (by decide +kernel)
  obtain ⟨r, hr, hget⟩ := ((getChunk_refines Vectors.collisionFree hreach).1 "c" "k" 0 true).2.2
    _ hrow rfl
  have hlast : lastCommitted log ("c", "k", 0) = some Vectors.reqA := hlast
  rw [hlast] at hr
  cases hr
  exact ⟨s, log, hreach, hget⟩

end VmIo.Db
