import VmIo.Db.WriteOnce

/-!
Cleanup passes beside uploads in flight.

A pass reads a file's modification time, asks whether a row references the
blob, and removes the file, in three steps. The grace period protects an upload
that wrote its file before the first of them. An upload that found its file, or
that comes in between, is protected by nothing, and `AskSafe` and `OpenSafe`
name the steps that must not happen.
-/

namespace VmIo.Db

open VmIo.Lib

/-! ### Uploads in flight -/

abbrev CheckTimes := ℕ → Time

def recordCheck (s : Sys) (a : Action) (_ : Sys) (g : CheckTimes) : CheckTimes :=
  match a with
  | .step t _ => if (s.tasks[t]?).any Task.atStat then Function.update g t s.st.now else g
  | _ => g

def Task.checked : Task → Bool
  | .upsertChunk _ (.mkdir _) => true
  | .upsertChunk _ (.create _) => true
  | .upsertChunk _ (.write _ _) => true
  | .upsertChunk _ (.txn _) => true
  | _ => false

/-- The blob of an upload past its file step that has not returned. -/
def Task.relies (db : VmIoDb) : Task → Option Digest
  | .upsertChunk r (.write _ _) => some (db.blobId r)
  | .upsertChunk r (.txn _) => some (db.blobId r)
  | .upsertChunk r (.removePrev _) => some (db.blobId r)
  | _ => none

def Task.wrote (db : VmIoDb) : Task → Option Digest
  | .upsertChunk r (.write _ _) => some (db.blobId r)
  | .upsertChunk r (.txn true) => some (db.blobId r)
  | _ => none

def Task.asking : Task → Option (Digest × Time)
  | .cleanupDir pc => pc.asking
  | _ => none

def Task.victim : Task → Option Digest
  | .cleanupDir pc => pc.victim
  | _ => none

/-- The blob whose file an upload is about to take as it is or to open. -/
def Task.opens (db : VmIoDb) (st : Store) : Task → Option Digest
  | .upsertChunk r .stat =>
      match st.fs.metadata (db.path (db.blobId r)) with
      | .ok info => if info.len = (db.cipher r).length then some (db.blobId r) else none
      | .error _ => none
  | .upsertChunk r (.create _) =>
      match st.fs.create (db.path (db.blobId r)) st.now with
      | .ok _ => some (db.blobId r)
      | .error _ => none
  | _ => none

/-! ### The conditions -/

/-- Every upload commits within the grace period of its check. -/
def InTime (p : Sys × CheckTimes) : Prop :=
  ∀ t < p.1.tasks.length, ∀ task ∈ p.1.tasks[t]?, task.checked = true →
    p.1.st.now - p.2 t < cleanupGrace

instance (p : Sys × CheckTimes) : Decidable (InTime p) :=
  inferInstanceAs (Decidable (∀ t < _, _))

/-- When a pass learns that no row references a blob, no upload of it is past
its file step, except one that wrote the file before the pass looked at it. -/
def AskSafe (db : VmIoDb) (s : Sys) (a : Action) : Prop :=
  ∀ task ∈ s.mover a, ∀ ask ∈ task.asking, s.st.Unreferenced ask.1 →
    ∀ other ∈ s.tasks, ask.1 ∈ other.relies db → ask.1 ∈ other.wrote db ∧
      (s.st.fs.file? (db.path ask.1)).map File.mtime = some ask.2

instance (db : VmIoDb) (s : Sys) (a : Action) : Decidable (AskSafe db s a) :=
  inferInstanceAs (Decidable (∀ task ∈ s.mover a, ∀ ask ∈ task.asking, _))

/-- Between that answer and the removal no upload of the blob takes its file
step. -/
def OpenSafe (db : VmIoDb) (s : Sys) (a : Action) : Prop :=
  ∀ task ∈ s.mover a, (task.opens db s.st).isSome = true →
    ∀ other ∈ s.tasks, other.victim ≠ task.opens db s.st

instance (db : VmIoDb) (s : Sys) (a : Action) : Decidable (OpenSafe db s a) :=
  inferInstanceAs (Decidable (∀ task ∈ s.mover a, _))

/-- No call but a pass removes the file of an upload past its file step. -/
def SparesUploads (db : VmIoDb) (s : Sys) (a : Action) : Prop :=
  ∀ task ∈ s.mover a, task.victim = none → (task.removes db).isSome = true →
    ∀ other ∈ s.tasks, other.relies db ≠ task.removes db

instance (db : VmIoDb) (s : Sys) (a : Action) : Decidable (SparesUploads db s a) :=
  inferInstanceAs (Decidable (∀ task ∈ s.mover a, _))

/-- The conditions under which a pass may run beside uploads. -/
def PassSafe (db : VmIoDb) (p : Sys × CheckTimes) (a : Action) : Prop :=
  InTime p ∧ AskSafe db p.1 a ∧ OpenSafe db p.1 a

instance (db : VmIoDb) (p : Sys × CheckTimes) (a : Action) : Decidable (PassSafe db p a) :=
  inferInstanceAs (Decidable (_ ∧ _ ∧ _))

structure PassInv (db : VmIoDb) (s : Sys) (g : CheckTimes) : Prop where
  clock : ∀ (t : ℕ) task, s.tasks[t]? = some task → task.checked = true → g t ≤ s.st.now
  /-- a file is no older than the check of an upload that wrote it -/
  fresh : ∀ (t : ℕ) task b f, s.tasks[t]? = some task → b ∈ task.wrote db →
    s.st.fs.file? (db.path b) = some f → g t ≤ f.mtime
  cutoff : ∀ pc, .cleanupDir pc ∈ s.tasks → ∀ k ∈ pc.cutoff, k ≤ s.st.now - cleanupGrace
  asking : ∀ pc, .cleanupDir pc ∈ s.tasks → ∀ ask ∈ pc.asking, ∃ k ∈ pc.cutoff, ask.2 ≤ k
  victim : ∀ task ∈ s.tasks, ∀ b ∈ task.victim,
    s.st.Unreferenced b ∧ ∀ other ∈ s.tasks, b ∉ other.relies db

/-! ### What a step does to an upload in flight -/

theorem UpsertChunkStep.checked {db : VmIoDb} {st st' : Store} {r : ChunkReq}
    {pc pc' : UpsertChunkPc} {c : Choice} (h : UpsertChunkStep db st r pc c st' pc')
    (hpc : (Task.upsertChunk r pc').checked = true) :
    pc = .stat ∨ (Task.upsertChunk r pc).checked = true := by
  cases h with
  | skip => exact .inl rfl
  | miss => exact .inl rfl
  | abort wrote => cases wrote <;> simp [Task.checked, upsertChunkFailed] at hpc
  | commit wrote sql prev => cases prev <;> simp [Task.checked, upsertChunkCommitted] at hpc
  | mkdir | retry | create | write | written => exact .inr rfl
  | _ => simp [Task.checked] at hpc

theorem UpsertChunkStep.wrote {db : VmIoDb} {st st' : Store} {r : ChunkReq}
    {pc pc' : UpsertChunkPc} {c : Choice} {b : Digest} (h : UpsertChunkStep db st r pc c st' pc')
    (hb : b ∈ (Task.upsertChunk r pc').wrote db) :
    b ∈ (Task.upsertChunk r pc).wrote db ∨
      ∃ ino, st'.fs.file? (db.path b) = some ⟨ino, [], st.now⟩ := by
  cases h with
  | create i fs ino h =>
      cases hb
      exact .inr ⟨ino, by rw [Fs.file?_create h, if_pos rfl]⟩
  | write | written => exact .inl hb
  | abort wrote => cases wrote <;> simp [Task.wrote, upsertChunkFailed] at hb
  | commit wrote sql prev => cases prev <;> simp [Task.wrote, upsertChunkCommitted] at hb
  | _ => simp [Task.wrote] at hb

theorem UpsertChunkStep.relies {db : VmIoDb} {st st' : Store} {r : ChunkReq}
    {pc pc' : UpsertChunkPc} {c : Choice} {b : Digest} (h : UpsertChunkStep db st r pc c st' pc')
    (hb : b ∈ (Task.upsertChunk r pc').relies db) :
    b ∈ (Task.upsertChunk r pc).relies db ∨
      c = .ok ∧ b ∈ (Task.upsertChunk r pc).opens db st := by
  cases h with
  | skip info h hlen =>
      cases hb
      exact .inr ⟨rfl, by simp [Task.opens, h, hlen]⟩
  | create i fs ino h =>
      cases hb
      exact .inr ⟨rfl, by simp [Task.opens, h]⟩
  | write | written => exact .inl hb
  | abort wrote => cases wrote <;> simp [Task.relies, upsertChunkFailed] at hb
  | commit wrote sql prev h =>
      cases prev with
      | none => simp [Task.relies, upsertChunkCommitted] at hb
      | some prev => exact .inl hb
  | _ => simp [Task.relies] at hb

theorem Task.checked_of_wrote {db : VmIoDb} {task : Task} {b : Digest} (h : b ∈ task.wrote db) :
    task.checked = true := by
  unfold Task.wrote at h
  split at h
  · rfl
  · rfl
  · contradiction

theorem Task.not_atStat_of_checked {task : Task} (h : task.checked = true) :
    task.atStat = false := by
  unfold Task.checked at h
  split at h
  all_goals first | rfl | contradiction

theorem TaskStep.mtime {db : VmIoDb} {st st' : Store} {task task' : Task} {c : Choice}
    (h : TaskStep db st task c st' task') {b : Digest} {f : File}
    (hf : st'.fs.file? (db.path b) = some f) :
    (∃ f₀, st.fs.file? (db.path b) = some f₀ ∧ f₀.mtime = f.mtime) ∨ f.mtime = st.now := by
  cases h.file? b with
  | same hfile => exact .inl ⟨f, hfile ▸ hf, rfl⟩
  | removed _ hfile =>
      rw [hfile] at hf
      contradiction
  | created _ _ hfile =>
      rw [hfile] at hf
      cases hf
      exact .inr rfl
  | written _ _ hfile =>
      rw [hfile, Option.map_eq_some_iff] at hf
      obtain ⟨f₀, hf₀, heq⟩ := hf
      split at heq
      · subst heq
        exact .inr rfl
      · subst heq
        exact .inl ⟨f₀, hf₀, rfl⟩

theorem CleanupStep.cutoff {db : VmIoDb} {st st' : Store} {pc pc' : CleanupPc} {c : Choice}
    (h : CleanupStep db st pc c st' pc') {k : Time} (hk : k ∈ pc'.cutoff) :
    k ∈ pc.cutoff ∨ k = st.now - cleanupGrace := by
  cases h with
  | start =>
      cases hk
      exact .inr rfl
  | walk _ _ _ h =>
      rcases h with h | h
      · exact .inl (h ▸ hk)
      · rw [h] at hk
        contradiction
  | judge | ask | remove | removeDir => exact .inl hk

theorem CleanupStep.asking {db : VmIoDb} {st st' : Store} {pc pc' : CleanupPc} {c : Choice}
    (h : CleanupStep db st pc c st' pc') {ask : Digest × Time} (hask : ask ∈ pc'.asking) :
    ∃ k ∈ pc'.cutoff, ask.2 ≤ k := by
  cases h with
  | judge cutoff name frame stack id info h hold =>
      cases hask
      exact ⟨cutoff, rfl, hold⟩
  | walk _ _ _ _ hnone =>
      rw [hnone] at hask
      contradiction
  | _ => contradiction

theorem CleanupStep.victim {db : VmIoDb} {st st' : Store} {pc pc' : CleanupPc} {c : Choice}
    (h : CleanupStep db st pc c st' pc') {b : Digest} (hb : b ∈ pc'.victim) :
    st' = st ∧ c = .ok ∧ st.Unreferenced b ∧ ∃ mtime, (b, mtime) ∈ pc.asking := by
  cases h with
  | ask cutoff id mtime stack h =>
      cases hb
      exact ⟨rfl, rfl, Sql.blobIdExists_eq_false.mp h, mtime, rfl⟩
  | walk _ _ _ _ _ hnone =>
      rw [hnone] at hb
      contradiction
  | _ => contradiction

/-! ### One step -/

section

variable {db : VmIoDb} {s s' : Sys} {g : CheckTimes} {t : ℕ} {c : Choice} {task task' : Task}

theorem recordCheck_of_ne {u : ℕ} (hu : u ≠ t) : recordCheck s (.step t c) s' g u = g u := by
  simp only [recordCheck]
  split
  · exact Function.update_of_ne hu _ _
  · rfl

theorem recordCheck_of_not_atStat (hcall : CallStep db s t c s' task task')
    (h : task.atStat = false) : recordCheck s (.step t c) s' g t = g t := by
  simp [recordCheck, hcall.here, h]

theorem recordCheck_of_atStat (hcall : CallStep db s t c s' task task')
    (h : task.atStat = true) : recordCheck s (.step t c) s' g t = s.st.now := by
  simp [recordCheck, hcall.here, h]

theorem PassInv.clock_step (hinv : PassInv db s g) (hcall : CallStep db s t c s' task task')
    {u : ℕ} {moved : Task} (hu : s'.tasks[u]? = some moved) (hchecked : moved.checked = true) :
    recordCheck s (.step t c) s' g u ≤ s'.st.now := by
  rw [hcall.step.now]
  rcases hcall.task hu with ⟨rfl, rfl⟩ | ⟨hne, hold⟩
  · have hhere := hcall.here
    cases moved with
    | upsertChunk r pc' =>
        obtain ⟨pc, rfl, hstep⟩ := hcall.step.upload
        rcases hstep.checked hchecked with rfl | hbefore
        · rw [recordCheck_of_atStat hcall rfl]
        · rw [recordCheck_of_not_atStat hcall (Task.not_atStat_of_checked hbefore)]
          exact hinv.clock u _ hhere hbefore
    | _ => contradiction
  · rw [recordCheck_of_ne hne]
    exact hinv.clock u moved hold hchecked

theorem PassInv.fresh_step (hinv : PassInv db s g) (hcall : CallStep db s t c s' task task')
    {u : ℕ} {moved : Task} {b : Digest} {f : File} (hu : s'.tasks[u]? = some moved)
    (hb : b ∈ moved.wrote db) (hf : s'.st.fs.file? (db.path b) = some f) :
    recordCheck s (.step t c) s' g u ≤ f.mtime := by
  have hclock := hinv.clock_step hcall hu (Task.checked_of_wrote hb)
  rw [hcall.step.now] at hclock
  rcases hcall.step.mtime hf with ⟨f₀, hf₀, hsame⟩ | hnew
  · rw [← hsame]
    rcases hcall.task hu with ⟨rfl, rfl⟩ | ⟨hne, hold⟩
    · cases moved with
      | upsertChunk r pc' =>
          obtain ⟨pc, rfl, hstep⟩ := hcall.step.upload
          rcases hstep.wrote hb with hbefore | ⟨ino, hopen⟩
          · rw [recordCheck_of_not_atStat hcall
              (Task.not_atStat_of_checked (Task.checked_of_wrote hbefore))]
            exact hinv.fresh u _ b f₀ hcall.here hbefore hf₀
          · rw [hf] at hopen
            cases hopen
            rw [hsame]
            exact hclock
      | _ => contradiction
    · rw [recordCheck_of_ne hne]
      exact hinv.fresh u moved b f₀ hold hb hf₀
  · rw [hnew]
    exact hclock

/-- When a pass has asked for a blob, no upload is past its file step: one that
wrote the file before the pass looked at it would have outlasted the grace period. -/
theorem PassInv.ask_relies (hinv : PassInv db s g) (htime : InTime (s, g)) {a : Action}
    (hask : AskSafe db s a) {pc : CleanupPc} (hmover : s.mover a = some (.cleanupDir pc))
    {b : Digest} {mtime : Time} (hasking : (b, mtime) ∈ pc.asking) (hfree : s.st.Unreferenced b) :
    ∀ other ∈ s.tasks, b ∉ other.relies db := by
  intro other hother hrelies
  obtain ⟨hwrote, hsame⟩ := hask _ hmover (b, mtime) hasking hfree other hother hrelies
  obtain ⟨f, hf, hmtime⟩ := Option.map_eq_some_iff.mp hsame
  obtain ⟨u, hu⟩ := List.mem_iff_getElem?.mp hother
  have hfresh := hinv.fresh u other b f hu hwrote hf
  have hmem : Task.cleanupDir pc ∈ s.tasks := by
    unfold Sys.mover at hmover
    split at hmover
    · exact List.mem_of_getElem? hmover
    · contradiction
  obtain ⟨k, hk, hold⟩ := hinv.asking pc hmem _ hasking
  have hcut := hinv.cutoff pc hmem k hk
  have hin := htime u (List.getElem?_eq_some_iff.mp hu).1 other hu (Task.checked_of_wrote hwrote)
  simp only at hmtime hold hin
  linarith

theorem PassInv.victim_step (hinv : PassInv db s g) (hok : PassSafe db (s, g) (.step t c))
    (h : step db s (.step t c) = some s') (hcall : CallStep db s t c s' task task')
    {pass : Task} (hpass : pass ∈ s'.tasks) {b : Digest} (hb : b ∈ pass.victim) :
    s'.st.Unreferenced b ∧ ∀ other ∈ s'.tasks, b ∉ other.relies db := by
  obtain ⟨htime, hask, hopen⟩ := hok
  -- the pass asked in this step or was about to remove the blob before it
  have hbefore : s.st.Unreferenced b ∧ (∀ other ∈ s.tasks, b ∉ other.relies db) ∧
      (c = .ok → b ∉ task.opens db s.st) := by
    rcases hcall.mem hpass with rfl | hmem
    · cases pass with
      | cleanupDir pc' =>
          have hhere := hcall.here
          have hstep := hcall.step
          obtain ⟨st', tasks'⟩ := s'
          cases hstep with
          | cleanupDir hclean =>
              obtain ⟨_, rfl, hfree, mtime, hasking⟩ := hclean.victim hb
              exact ⟨hfree, hinv.ask_relies htime hask hhere hasking hfree,
                fun _ => by simp [Task.opens]⟩
      | _ => contradiction
    · obtain ⟨hfree, hrelies⟩ := hinv.victim pass hmem b hb
      refine ⟨hfree, hrelies, ?_⟩
      rintro rfl hopening
      refine hopen task hcall.here (Option.isSome_iff_exists.mpr ⟨b, hopening⟩) pass hmem ?_
      rw [Option.mem_def.mp hb, Option.mem_def.mp hopening]
  obtain ⟨hfree, hrelies, hopens⟩ := hbefore
  constructor
  · refine hfree.step (fun r hr heq => ?_) h
    obtain ⟨v, wrote, hact, hv, _⟩ := committing_eq_some_iff.mp hr
    exact hrelies _ (List.mem_of_getElem? hv) (by simp [Task.relies, heq])
  · intro other hother hnow
    rcases hcall.mem hother with rfl | hold
    · cases other with
      | upsertChunk r pc' =>
          obtain ⟨pc, rfl, hstep⟩ := hcall.step.upload
          rcases hstep.relies hnow with hwas | ⟨hc, hopening⟩
          · exact hrelies _ hcall.mem_here hwas
          · exact hopens hc hopening
      | _ => contradiction
    · exact hrelies other hold hnow

theorem PassInv.env {db : VmIoDb} {s s' : Sys} {g : CheckTimes} {a : Action}
    (hinv : PassInv db s g) (henv : EnvStep s a s') : PassInv db s' g := by
  refine ⟨?_, ?_, ?_, ?_, ?_⟩
  · intro u task hu hc
    rcases henv.tasks u task hu with hold | ⟨call, _, rfl⟩
    · exact (hinv.clock u task hold hc).trans henv.now_le
    · cases call <;> contradiction
  · intro u task b f hu hb hf
    rcases henv.tasks u task hu with hold | ⟨call, _, rfl⟩
    · exact hinv.fresh u task b f hold hb (henv.fs ▸ hf)
    · cases call <;> contradiction
  · intro pc hpc k hk
    rcases henv.mem hpc with hold | ⟨call, _, hcall⟩
    · have hcut := hinv.cutoff pc hold k hk
      have hnow := henv.now_le
      linarith
    · cases call <;> cases hcall
      contradiction
  · intro pc hpc ask hask
    rcases henv.mem hpc with hold | ⟨call, _, hcall⟩
    · exact hinv.asking pc hold ask hask
    · cases call <;> cases hcall
      contradiction
  · intro pass hpass b hb
    rcases henv.mem hpass with hold | ⟨call, _, rfl⟩
    · obtain ⟨hfree, hrelies⟩ := hinv.victim pass hold b hb
      refine ⟨by simpa only [Store.Unreferenced, henv.sql] using hfree, ?_⟩
      intro other hother hnow
      rcases henv.mem hother with hold' | ⟨call, _, rfl⟩
      · exact hrelies other hold' hnow
      · cases call <;> contradiction
    · cases call <;> contradiction

end

theorem passInv_step {db : VmIoDb} {s s' : Sys} {g : CheckTimes} {a : Action}
    (hinv : PassInv db s g) (hok : PassSafe db (s, g) a) (h : step db s a = some s') :
    PassInv db s' (recordCheck s a s' g) := by
  rcases step_cases h with ⟨t, c, task, task', rfl, hcall⟩ | henv
  · refine ⟨fun u moved hu hc => hinv.clock_step hcall hu hc,
      fun u moved b f hu hb hf => hinv.fresh_step hcall hu hb hf, ?_, ?_,
      fun pass hpass b hb => hinv.victim_step hok h hcall hpass hb⟩
    · intro pc hpc k hk
      rw [hcall.step.now]
      rcases hcall.mem hpc with rfl | hold
      · have hhere := hcall.mem_here
        have hstep := hcall.step
        obtain ⟨st', tasks'⟩ := s'
        cases hstep with
        | cleanupDir hclean =>
            rcases hclean.cutoff hk with hbefore | rfl
            · exact hinv.cutoff _ hhere k hbefore
            · exact le_rfl
      · exact hinv.cutoff pc hold k hk
    · intro pc hpc ask hask
      rcases hcall.mem hpc with rfl | hold
      · have hstep := hcall.step
        obtain ⟨st', tasks'⟩ := s'
        cases hstep with
        | cleanupDir hclean => exact hclean.asking hask
      · exact hinv.asking pc hold ask hask
  · have hrec : recordCheck s a s' g = g := by
      cases a with
      | step t c => exact absurd rfl (henv.unmoved t c)
      | _ => rfl
    rw [hrec]
    exact hinv.env henv

/-! ### Files that uploads rely on -/

/-- The upload that a call was, once it has returned success. -/
def Task.succeeded : Task → Option ChunkReq
  | .upsertChunk r (.done (.ok ())) => some r
  | _ => none

def FilesPresent (db : VmIoDb) (s : Sys) : Prop :=
  ∀ task ∈ s.tasks, ∀ b ∈ task.relies db, ∃ f, s.st.fs.file? (db.path b) = some f

theorem UpsertChunkStep.relies_present {db : VmIoDb} {st st' : Store} {r : ChunkReq}
    {pc pc' : UpsertChunkPc} {c : Choice} {b : Digest} (h : UpsertChunkStep db st r pc c st' pc')
    (hdir : ¬st.fs.isDir (db.path b)) (hb : b ∈ (Task.upsertChunk r pc').relies db) :
    b ∈ (Task.upsertChunk r pc).relies db ∨ ∃ f, st'.fs.file? (db.path b) = some f := by
  cases h with
  | skip info h hlen =>
      cases hb
      obtain ⟨f, hf, _⟩ := Fs.file?_of_metadata hdir h
      exact .inr ⟨f, hf⟩
  | create i fs ino h =>
      cases hb
      exact .inr ⟨_, by rw [Fs.file?_create h, if_pos rfl]⟩
  | write | written => exact .inl hb
  | abort wrote => cases wrote <;> simp [Task.relies, upsertChunkFailed] at hb
  | commit wrote sql prev h =>
      cases prev with
      | none => simp [Task.relies, upsertChunkCommitted] at hb
      | some prev => exact .inl hb
  | _ => simp [Task.relies] at hb

theorem UpsertChunkStep.returns {db : VmIoDb} {st st' : Store} {r : ChunkReq}
    {pc pc' : UpsertChunkPc} {c : Choice} (h : UpsertChunkStep db st r pc c st' pc')
    (hpc : pc' = .done (.ok ())) : db.blobId r ∈ (Task.upsertChunk r pc).relies db := by
  cases h with
  | commit | removePrev | keepPrev => rfl
  | abort wrote => cases wrote <;> simp [upsertChunkFailed] at hpc
  | _ => simp at hpc

theorem FilesPresent.keep {db : VmIoDb} {s s' : Sys} {g : CheckTimes} {t : ℕ} {c : Choice}
    {task task' : Task} (hfiles : FilesPresent db s) (hinv : PassInv db s g)
    (hspare : SparesUploads db s (.step t c)) (hcall : CallStep db s t c s' task task')
    {other : Task} (hother : other ∈ s.tasks) {b : Digest} (hb : b ∈ other.relies db) :
    ∃ f, s'.st.fs.file? (db.path b) = some f := by
  obtain ⟨f, hf⟩ := hfiles other hother b hb
  have hhere := hcall.here
  cases hcall.step.file? b with
  | same hfile => exact ⟨f, hfile.trans hf⟩
  | removed hrem _ =>
      cases hvictim : task.victim with
      | none =>
          refine absurd ?_ (hspare task hhere hvictim
            (Option.isSome_iff_exists.mpr ⟨b, hrem.removes⟩) other hother)
          rw [Option.mem_def.mp hb, hrem.removes]
      | some id =>
          cases task with
          | cleanupDir pc =>
              have hid : pc.victim = some b := hrem.removes
              exact absurd hb ((hinv.victim _ (List.mem_of_getElem? hhere) b hid).2 other hother)
          | _ => contradiction
  | created _ _ hfile => exact ⟨_, hfile⟩
  | written _ _ hfile =>
      rw [hf, Option.map_some] at hfile
      exact ⟨_, hfile⟩

theorem filesPresent_step {db : VmIoDb} {s s' : Sys} {g : CheckTimes} {a : Action}
    (hprov : Provenance db (fun _ => True) s) (hfiles : FilesPresent db s)
    (hinv : PassInv db s g) (hspare : SparesUploads db s a) (h : step db s a = some s') :
    FilesPresent db s' := by
  intro other hother b hb
  rcases step_cases h with ⟨t, c, task, task', rfl, hcall⟩ | henv
  · rcases hcall.mem hother with rfl | hold
    · cases other with
      | upsertChunk r pc' =>
          obtain ⟨pc, rfl, hstep⟩ := hcall.step.upload
          rcases hstep.relies_present (hprov.not_isDir b) hb with hwas | hthere
          · exact hfiles.keep hinv hspare hcall hcall.mem_here hwas
          · exact hthere
      | _ => contradiction
    · exact hfiles.keep hinv hspare hcall hold hb
  · rw [henv.fs]
    rcases henv.mem hother with hold | ⟨call, _, rfl⟩
    · exact hfiles other hold b hb
    · cases call <;> contradiction

/-! ### Whole runs -/

theorem passInv_init (db : VmIoDb) (now : Time) (g : CheckTimes) :
    PassInv db (Sys.init db now) g := by
  refine ⟨?_, ?_, ?_, ?_, ?_⟩ <;> simp [Sys.init]

theorem passInv {db : VmIoDb} {now : Time} {g₀ : CheckTimes} {p : Sys × CheckTimes}
    (h : Reach (observe (step db) recordCheck) (PassSafe db) (Sys.init db now, g₀) p) :
    PassInv db p.1 p.2 := by
  refine Reach.invariant (I := fun p => PassInv db p.1 p.2) (passInv_init db now g₀) ?_ h
  rintro ⟨s, g⟩ a ⟨s', g'⟩ hinv hok hs
  obtain ⟨hs, hg⟩ := observe_eq_some_iff.mp hs
  have hg : g' = recordCheck s a s' g := hg
  subst hg
  exact passInv_step hinv hok hs

theorem filesPresent {db : VmIoDb} {now : Time} {g₀ : CheckTimes} {p : Sys × CheckTimes}
    (h : Reach (observe (step db) recordCheck)
      (fun p a => PassSafe db p a ∧ SparesUploads db p.1 a) (Sys.init db now, g₀) p) :
    FilesPresent db p.1 := by
  refine Reach.invariant_of (J := fun p => Provenance db (fun _ => True) p.1 ∧ PassInv db p.1 p.2)
    (I := fun p => FilesPresent db p.1) ?_ (by simp [FilesPresent, Sys.init]) ?_ h
  · intro q hq
    refine ⟨?_, passInv (hq.mono fun _ _ hok => hok.1)⟩
    have hfree : Reach (step db) (fun _ _ => True) (Sys.init db now) q.1 :=
      Reach.of_observe (hq.mono fun _ _ _ => trivial)
    exact provenance (fun _ _ _ _ _ => trivial) hfree
  · rintro p a p' ⟨hprov, hinv⟩ _ hfiles hok hs
    exact filesPresent_step hprov hfiles hinv hok.2 (observe_eq_some_iff.mp hs).1

/-- Where every upload commits within the grace period and the conditions hold, a
pass removes no blob that a committed row references or that an upload past its
file step is about to commit. Where no other call removes such a blob either, an
upload that returns success has its file. -/
theorem cleanup_safe (db : VmIoDb) (now : Time) :
    (∀ s g, Reach (observe (step db) recordCheck) (PassSafe db) (Sys.init db now, fun _ => now)
        (s, g) →
      ∀ pass ∈ s.tasks, ∀ b ∈ pass.victim, s.st.Unreferenced b ∧
        ∀ r wrote, .upsertChunk r (.txn wrote) ∈ s.tasks → db.blobId r ≠ b) ∧
    ∀ s g, Reach (observe (step db) recordCheck)
        (fun p a => PassSafe db p a ∧ SparesUploads db p.1 a) (Sys.init db now, fun _ => now)
        (s, g) →
      ∀ (t : ℕ) c s' task r, SparesUploads db s (.step t c) → step db s (.step t c) = some s' →
        s'.tasks[t]? = some task → r ∈ task.succeeded →
        ∃ f, s'.st.fs.file? (db.path (db.blobId r)) = some f := by
  constructor
  · intro s g h pass hpass b hb
    obtain ⟨hfree, hrelies⟩ := (passInv h).victim pass hpass b hb
    exact ⟨hfree, fun r wrote hr heq => hrelies _ hr (by simp [Task.relies, heq])⟩
  · intro s g h t c s' task r hspare hs htask hok
    have hinv : PassInv db s g := passInv (h.mono fun _ _ hok => hok.1)
    have hfiles : FilesPresent db s := filesPresent h
    rcases step_cases hs with ⟨t', c', before, after, heq, hcall⟩ | henv
    · cases heq
      rw [hcall.moved] at htask
      cases htask
      unfold Task.succeeded at hok
      split at hok
      · cases hok
        obtain ⟨pc, rfl, hstep⟩ := hcall.step.upload
        exact hfiles.keep hinv hspare hcall hcall.mem_here (hstep.returns rfl)
      · contradiction
    · exact absurd rfl (henv.unmoved t c)

/-- A pass is about to remove what a crash left behind while another chunk is
uploaded. -/
theorem cleanup_safe_orphan :
    ∃ s g s', Reach (observe (step Vectors.db) recordCheck)
        (fun p a => PassSafe Vectors.db p a ∧ SparesUploads Vectors.db p.1 a)
        (Sys.init Vectors.db 0, fun _ => 0) (s, g) ∧
      s.st.Unreferenced (Vectors.db.blobId Vectors.reqA) ∧
      step Vectors.db s (.step 1 .ok) = some s' ∧
      ∃ f, s'.st.fs.file? (Vectors.db.path (Vectors.db.blobId Vectors.reqB)) = some f := by
  obtain ⟨⟨s, g⟩, hreach, hvictim, hspare, hstep⟩ := Reach.exists_of_runOk
    (observe (step Vectors.db) recordCheck)
    (fun p a => PassSafe Vectors.db p a ∧ SparesUploads Vectors.db p.1 a)
    ((Sys.init Vectors.db 0, fun _ => 0))
    (Vectors.putEntry 0 ++ .spawn (.upsertChunk Vectors.reqA) :: Vectors.writeSteps 1 ++
      .crash :: .tick 400000000 :: .spawn .cleanupDir :: Vectors.walkSteps 0 ++
      .spawn (.upsertChunk Vectors.reqB) :: Vectors.writeSteps 1 ++ [.step 0 .ok])
    (fun p => (p.1.tasks[0]?).map Task.victim = some (some (Vectors.db.blobId Vectors.reqA)) ∧
      SparesUploads Vectors.db p.1 (.step 1 .ok) ∧
      (step Vectors.db p.1 (.step 1 .ok)).any (fun s' =>
        (s'.tasks[1]?).map Task.succeeded = some (some Vectors.reqB))) (by decide +kernel)
  obtain ⟨pass, hpass, hb⟩ := Option.map_eq_some_iff.mp hvictim
  obtain ⟨s', hs', hdone⟩ := (Option.any_eq_true _ _).mp hstep
  obtain ⟨task, htask, hr⟩ := Option.map_eq_some_iff.mp (of_decide_eq_true hdone)
  have hsafe := cleanup_safe Vectors.db 0
  obtain ⟨hfree, _⟩ := hsafe.1 s g (hreach.mono fun _ _ hok => hok.1) pass
    (List.mem_of_getElem? hpass) _ hb
  exact ⟨s, g, s', hreach, hfree, hs', hsafe.2 s g hreach 1 .ok s' task _ hspare hs' htask hr⟩

/-- A pass asks for an old orphan between an upload's finding it and its commit,
and removes it after the commit. The upload takes no time at all. -/
theorem cleanup_unsafe :
    ∃ s g s', Reach (observe (step Vectors.db) recordCheck) (fun p _ => InTime p)
        (Sys.init Vectors.db 0, fun _ => 0) (s, g) ∧
      (s.tasks[0]?).map Task.victim = some (some (Vectors.db.blobId Vectors.reqA)) ∧
      ¬s.st.Unreferenced (Vectors.db.blobId Vectors.reqA) ∧
      (s.tasks[1]?).map Task.succeeded = some (some Vectors.reqA) ∧
      step Vectors.db s (.step 0 .ok) = some s' ∧
      Vectors.db.row Vectors.reqA ∈ s'.st.sql.entryFileChunks.rows ∧
      s'.st.fs.file? (Vectors.db.path (Vectors.db.blobId Vectors.reqA)) = none := by
  obtain ⟨⟨s, g⟩, hreach, hvictim, href, hdone, hstep⟩ := Reach.exists_of_runOk
    (observe (step Vectors.db) recordCheck) (fun p _ => InTime p)
    ((Sys.init Vectors.db 0, fun _ => 0))
    (Vectors.putEntry 0 ++ .spawn (.upsertChunk Vectors.reqA) :: Vectors.writeSteps 1 ++
      .crash :: .tick 400000000 :: .spawn .cleanupDir :: Vectors.walkSteps 0 ++
      .spawn (.upsertChunk Vectors.reqA) :: Vectors.skipSteps 1 ++ [.step 0 .ok, .step 1 .ok])
    (fun p => (p.1.tasks[0]?).map Task.victim = some (some (Vectors.db.blobId Vectors.reqA)) ∧
      ¬p.1.st.Unreferenced (Vectors.db.blobId Vectors.reqA) ∧
      (p.1.tasks[1]?).map Task.succeeded = some (some Vectors.reqA) ∧
      (step Vectors.db p.1 (.step 0 .ok)).any (fun s' =>
        Vectors.db.row Vectors.reqA ∈ s'.st.sql.entryFileChunks.rows ∧
        s'.st.fs.file? (Vectors.db.path (Vectors.db.blobId Vectors.reqA)) = none))
    (by decide +kernel)
  obtain ⟨s', hs', hlost⟩ := (Option.any_eq_true _ _).mp hstep
  obtain ⟨hrow, hfile⟩ := of_decide_eq_true hlost
  exact ⟨s, g, s', hreach, hvictim, href, hdone, hs', hrow, hfile⟩

end VmIo.Db
