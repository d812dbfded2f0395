import VmIo.Db.Vectors

/-!
A blob write beside a cleanup pass that removes shard directories.

`blob::write` makes the shard directory and opens the file in two steps, and a
pass may remove the directory in between. A pass removes a directory only while
it holds it for stale (`CleanupPc.walked`), and holds it no longer once it has
removed it. The directory the second attempt makes is new, so no pass can come
to hold it for stale (`Spent`).
-/

namespace VmIo.Db

open VmIo.Lib

/-! ### What a step does to the directories -/

theorem dirsKept_removeQuiet (st : Store) (p : Path) :
    st.fs.DirsKept (st.removeQuiet p).fs st.now := by
  unfold Store.removeQuiet
  split
  · exact Fs.dirsKept_removeFile ‹_›
  · exact .refl _ _

theorem removeDirQuiet_cases (st : Store) (p : Path) :
    st.removeDirQuiet p = st ∨ st.fs.Removed (st.removeDirQuiet p).fs p := by
  unfold Store.removeDirQuiet
  split
  · exact .inr (Fs.removed_of_removeDir ‹_›)
  · exact .inl rfl

theorem stamped_removeDirQuiet {st : Store} {p q : Path} {mtime : Time}
    (hq : (st.removeDirQuiet p).fs.node? q = some (.dir mtime)) :
    st.fs.node? q = some (.dir mtime) ∨ mtime = st.now := by
  unfold Store.removeDirQuiet at hq
  split at hq
  · exact Fs.stamped_removeDir ‹_› hq
  · exact .inl hq

theorem DeleteStep.dirsKept {db : VmIoDb} {st st' : Store} {c : Choice} {ids ids' : List Digest}
    (h : DeleteStep db st ids c st' ids') : st.fs.DirsKept st'.fs st.now := by
  cases h with
  | remove b => exact dirsKept_removeQuiet st _
  | _ => exact .refl _ _

theorem UpsertChunkStep.dirsKept {db : VmIoDb} {st st' : Store} {r : ChunkReq}
    {pc pc' : UpsertChunkPc} {c : Choice} (h : UpsertChunkStep db st r pc c st' pc') :
    st.fs.DirsKept st'.fs st.now := by
  cases h with
  | mkdir i fs h => exact Fs.dirsKept_createDirs h
  | mkdirFailed i n fs e h => exact Fs.dirsKept_createDirs h
  | create i fs ino h => exact Fs.dirsKept_create h
  | write => exact Fs.dirsKept_writeAt ..
  | removeOwn => exact dirsKept_removeQuiet st _
  | removePrev => exact dirsKept_removeQuiet st _
  | _ => exact .refl _ _

/-- Only a pass that clears a directory takes directories away. -/
theorem TaskStep.dirs {db : VmIoDb} {st st' : Store} {task task' : Task} {c : Choice}
    (h : TaskStep db st task c st' task') :
    st.fs.DirsKept st'.fs st.now ∨ ∃ cutoff dir stack,
      task = .cleanupDir (.removeDir cutoff dir stack) ∧
      task' = .cleanupDir (.next cutoff stack) ∧ st' = st.removeDirQuiet dir := by
  cases h with
  | upsert h =>
      obtain ⟨_, hfs, _⟩ := stepUpsert_frame h
      rw [hfs]
      exact .inl (.refl _ _)
  | upsertChunk h => exact .inl h.dirsKept
  | rm h => exact .inl h.dirsKept
  | pruneBacklog h => exact .inl h.dirsKept
  | cleanupDir h =>
      cases h with
      | remove => exact .inl (dirsKept_removeQuiet st _)
      | removeDir cutoff dir stack => exact .inr ⟨cutoff, dir, stack, rfl, rfl, rfl⟩
      | _ => exact .inl (.refl _ _)
  | getChunk => exact .inl (.refl _ _)

theorem TaskStep.stamped {db : VmIoDb} {st st' : Store} {task task' : Task} {c : Choice}
    (h : TaskStep db st task c st' task') {q : Path} {mtime : Time}
    (hq : st'.fs.node? q = some (.dir mtime)) :
    st.fs.node? q = some (.dir mtime) ∨ mtime = st.now := by
  rcases h.dirs with hkept | ⟨_, _, _, _, _, rfl⟩
  · exact hkept.stamped q mtime hq
  · exact stamped_removeDirQuiet hq

/-! ### The directories a pass is in -/

/-- The directories a pass is in, the innermost first, and whether it holds them
for stale. -/
def CleanupPc.walked : CleanupPc → List (Path × Bool)
  | .start => []
  | .readDir _ dir _ stale stack => (dir, stale) :: stack.map fun f => (f.dir, f.stale)
  | .next _ stack => stack.map fun f => (f.dir, f.stale)
  | .stat _ _ stack => stack.map fun f => (f.dir, f.stale)
  | .query _ _ _ stack => stack.map fun f => (f.dir, f.stale)
  | .remove _ _ stack => stack.map fun f => (f.dir, f.stale)
  | .removeDir _ dir stack => (dir, true) :: stack.map fun f => (f.dir, f.stale)
  | .done _ => []

/-- Each directory lies deeper than the one it was entered from. -/
def Nested (dirs : List (Path × Bool)) : Prop :=
  dirs.Pairwise fun a b => b.1.length < a.1.length

/-- What a step of a pass does to the directories it is in: it leaves some, or it
enters one, and holds it for stale only if it has seen an old modification time. -/
inductive WalkStep (fs : Fs) (pc pc' : CleanupPc) : Prop
  | leave (h : pc'.walked <:+ pc.walked)
  | enter (dir : Path) (stale : Bool) (h : pc'.walked = (dir, stale) :: pc.walked)
      (hdeep : ∀ outer ∈ pc.walked.head?, outer.1.length < dir.length)
      (hstale : stale = true → ∃ cutoff ∈ pc.cutoff, ∃ mtime, mtime ≤ cutoff ∧
        fs.node? dir = some (.dir mtime))

theorem cleanupItem_walk {db : VmIoDb} {st : Store} {cutoff : Time} {name : String}
    {frame : Frame} {stack : List Frame} {info : Meta}
    (hinfo : st.fs.metadata (frame.dir ++ [name]) = .ok info) :
    WalkStep st.fs (.stat cutoff name (frame :: stack))
      (cleanupItem db cutoff name frame stack info) := by
  unfold cleanupItem
  by_cases hdir : info.isDir
  · simp only [hdir, if_true]
    split
    · exact .leave List.suffix_rfl
    · refine .enter (frame.dir ++ [name]) _ rfl ?_ fun hstale => ?_
      · intro outer houter
        cases houter
        simp
      · refine ⟨cutoff, rfl, info.mtime, of_decide_eq_true hstale, ?_⟩
        unfold Fs.metadata at hinfo
        split at hinfo
        · rename_i n hn
          cases n with
          | file f =>
              cases hinfo
              cases hdir
          | dir mtime =>
              cases hinfo
              exact hn
        · contradiction
  · simp only [hdir, Bool.false_eq_true, if_false]
    split
    · split
      · exact .leave List.suffix_rfl
      · split
        · exact .leave List.suffix_rfl
        · exact .leave List.suffix_rfl
    · exact .leave List.suffix_rfl

theorem stepCleanup_walk {db : VmIoDb} {st st' : Store} {pc pc' : CleanupPc} {c : Choice}
    (h : stepCleanup db st pc c = some (st', pc')) : WalkStep st.fs pc pc' := by
  unfold stepCleanup at h
  split at h
  · cases h
    exact .enter db.rootDir false rfl (by simp [CleanupPc.walked]) (by simp)
  · split at h
    · split at h
      · cases h
        exact .leave List.suffix_rfl
      · contradiction
    · cases h
      exact .leave List.nil_suffix
  · cases h
    exact .leave List.nil_suffix
  · split at h
    · cases h
      exact .leave List.nil_suffix
    · split at h
      · rename_i hstale
        cases h
        exact .leave (by simp [CleanupPc.walked, hstale])
      · cases h
        exact .leave (List.suffix_cons _ _)
  · cases h
    exact .leave List.suffix_rfl
  · cases h
    exact .leave List.nil_suffix
  · split at h
    · rename_i info hinfo
      cases h
      exact cleanupItem_walk hinfo
    · cases h
      exact .leave List.suffix_rfl
  · cases h
    exact .leave List.suffix_rfl
  · split at h
    · cases h
      exact .leave List.suffix_rfl
    · cases h
      exact .leave List.suffix_rfl
  · cases h
    exact .leave List.nil_suffix
  · cases h
    exact .leave List.suffix_rfl
  · cases h
    exact .leave List.suffix_rfl
  · cases h
    exact .leave (List.suffix_cons _ _)
  · cases h
    exact .leave (List.suffix_cons _ _)
  · contradiction

theorem WalkStep.nested {fs : Fs} {pc pc' : CleanupPc} (h : WalkStep fs pc pc')
    (hpc : Nested pc.walked) : Nested pc'.walked := by
  cases h with
  | leave h => exact hpc.sublist h.sublist
  | enter dir stale h hdeep hstale =>
      rw [Nested, h, List.pairwise_cons]
      refine ⟨fun outer houter => ?_, hpc⟩
      cases hwalked : pc.walked with
      | nil =>
          rw [hwalked] at houter
          exact absurd houter List.not_mem_nil
      | cons first rest =>
          rw [hwalked] at houter hdeep hpc
          have hfirst := hdeep first rfl
          rcases List.mem_cons.mp houter with rfl | houter
          · exact hfirst
          · exact ((List.pairwise_cons.mp hpc).1 outer houter).trans hfirst

theorem step_walk {db : VmIoDb} {s s' : Sys} {a : Action} (h : step db s a = some s')
    {pc' : CleanupPc} (hpass : .cleanupDir pc' ∈ s'.tasks) :
    .cleanupDir pc' ∈ s.tasks ∨ pc'.walked = [] ∨
      ∃ pc, .cleanupDir pc ∈ s.tasks ∧ WalkStep s.st.fs pc pc' := by
  cases a with
  | spawn call =>
      simp only [step, Option.some.injEq] at h
      subst h
      rcases List.mem_append.mp hpass with hpass | hpass
      · exact .inl hpass
      · have hstart := List.mem_singleton.mp hpass
        cases call with
        | cleanupDir =>
            cases hstart
            exact .inr (.inl rfl)
        | _ => cases hstart
  | step t c =>
      simp only [step] at h
      split at h
      · contradiction
      · rename_i task htask
        obtain ⟨⟨st', task'⟩, hstep, rfl⟩ := Option.map_eq_some_iff.mp h
        rcases List.mem_or_eq_of_mem_set hpass with hpass | rfl
        · exact .inl hpass
        · cases task <;> simp only [stepTask, Option.map_eq_some_iff] at hstep <;>
            obtain ⟨⟨st₁, pc₁⟩, hstep, heq⟩ := hstep <;> cases heq
          exact .inr (.inr ⟨_, List.mem_of_getElem? htask, stepCleanup_walk hstep⟩)
  | tick d =>
      simp only [step, Option.some.injEq] at h
      subst h
      exact .inl hpass
  | crash =>
      simp only [step, Option.some.injEq] at h
      subst h
      exact absurd hpass List.not_mem_nil

/-- Every pass that is running walks down. -/
theorem nested_of_reach {db : VmIoDb} {ok : Sys → Action → Prop} {s₀ s : Sys}
    (h₀ : ∀ pc, .cleanupDir pc ∈ s₀.tasks → Nested pc.walked) (hreach : Reach (step db) ok s₀ s) :
    ∀ pc, .cleanupDir pc ∈ s.tasks → Nested pc.walked := by
  refine hreach.invariant (I := fun s => ∀ pc, .cleanupDir pc ∈ s.tasks → Nested pc.walked) h₀ ?_
  intro s a s' hs _ h pc' hpass
  rcases step_walk h hpass with hold | hnew | ⟨pc, hpc, hwalk⟩
  · exact hs pc' hold
  · rw [hnew]
    exact List.Pairwise.nil
  · exact hwalk.nested (hs pc hpc)

/-! ### A directory no pass can remove any more -/

def Task.passing : Task → Bool
  | .cleanupDir (.done _) => false
  | .cleanupDir _ => true
  | _ => false

def Task.cutoff : Task → Option Time
  | .cleanupDir pc => pc.cutoff
  | _ => none

/-- One pass at a time, with a cutoff before `t₀`. -/
structure OnePass (t₀ : Time) (s : Sys) : Prop where
  alone : s.tasks.Pairwise fun a b => ¬(a.passing = true ∧ b.passing = true)
  early : ∀ task ∈ s.tasks, ∀ cutoff ∈ task.cutoff, cutoff < t₀

/-- The directory is not older than `t₀`, if it is there, and no pass holds it for
stale. -/
structure Spent (t₀ : Time) (d : Path) (s : Sys) : Prop where
  fresh : ∀ mtime, s.st.fs.node? d = some (.dir mtime) → t₀ ≤ mtime
  unclaimed : ∀ pc, .cleanupDir pc ∈ s.tasks → (d, true) ∉ pc.walked

theorem OnePass.apart {t₀ : Time} {s : Sys} (h : OnePass t₀ s) {t u : ℕ} {a b : Task} (hne : u ≠ t)
    (ha : s.tasks[t]? = some a) (hb : s.tasks[u]? = some b) (hpass : a.passing = true) :
    b.passing = false := by
  have halone := List.pairwise_iff_getElem.mp h.alone
  obtain ⟨ht, rfl⟩ := List.getElem?_eq_some_iff.mp ha
  obtain ⟨hu, rfl⟩ := List.getElem?_eq_some_iff.mp hb
  by_contra hboth
  rw [Bool.not_eq_false] at hboth
  rcases Nat.lt_or_gt_of_ne hne with hlt | hlt
  · exact halone u t hu ht hlt ⟨hboth, hpass⟩
  · exact halone t u ht hu hlt ⟨hpass, hboth⟩

section Dir

variable {db : VmIoDb} {t₀ : Time} {d : Path} {s s' : Sys} {a : Action}

/-- Once it is spent it stays so: a directory made anew is not old, so no pass
comes to hold it for stale. -/
theorem Spent.step (hspent : Spent t₀ d s) (hpass : OnePass t₀ s) (hnow : t₀ ≤ s.st.now)
    (h : step db s a = some s') : Spent t₀ d s' where
  fresh mtime hdir := by
    rcases step_cases h with ⟨t, c, task, task', rfl, hcall⟩ | henv
    · rcases hcall.step.stamped hdir with hdir | rfl
      · exact hspent.fresh mtime hdir
      · exact hnow
    · rw [henv.fs] at hdir
      exact hspent.fresh mtime hdir
  unclaimed pc' hpass' hclaim := by
    rcases step_walk h hpass' with hold | hnew | ⟨pc, hpc, hwalk⟩
    · exact hspent.unclaimed pc' hold hclaim
    · rw [hnew] at hclaim
      exact absurd hclaim List.not_mem_nil
    · cases hwalk with
      | leave hsuffix => exact hspent.unclaimed pc hpc (hsuffix.subset hclaim)
      | enter dir stale hwalked hdeep hstale =>
          rw [hwalked, List.mem_cons] at hclaim
          rcases hclaim with heq | hclaim
          · cases heq
            obtain ⟨cutoff, hcutoff, mtime, hold, hdir⟩ := hstale rfl
            have hearly := hpass.early _ hpc cutoff hcutoff
            have hfresh := hspent.fresh mtime hdir
            exact absurd (hfresh.trans hold) (not_le.mpr hearly)
          · exact hspent.unclaimed pc hpc hclaim

theorem Spent.isDir (hspent : Spent t₀ d s) (hdir : s.st.fs.isDir d)
    (h : Db.step db s a = some s') : s'.st.fs.isDir d := by
  rcases step_cases h with ⟨t, c, task, task', rfl, hcall⟩ | henv
  · rcases hcall.step.dirs with hkept | ⟨cutoff, dir, stack, rfl, rfl, hst⟩
    · exact hkept.isDir d hdir
    · have hne : d ≠ dir := by
        rintro rfl
        exact hspent.unclaimed _ hcall.mem_here List.mem_cons_self
      rcases removeDirQuiet_cases s.st dir with hsame | hremoved
      · rw [hst, hsame]
        exact hdir
      · rw [hst]
        exact hremoved.isDir d hne hdir
  · rw [henv.fs]
    exact hdir

/-- A directory stays, or the one pass has removed it and holds it no more. -/
theorem isDir_or_spent (hnested : ∀ pc, .cleanupDir pc ∈ s.tasks → Nested pc.walked)
    (hpass : OnePass t₀ s) (hdir : s.st.fs.isDir d) (h : step db s a = some s') :
    s'.st.fs.isDir d ∨ Spent t₀ d s' := by
  rcases step_cases h with ⟨t, c, task, task', rfl, hcall⟩ | henv
  · rcases hcall.step.dirs with hkept | ⟨cutoff, dir, stack, rfl, rfl, hst⟩
    · exact .inl (hkept.isDir d hdir)
    · rcases removeDirQuiet_cases s.st dir with hsame | hremoved
      · rw [hst, hsame]
        exact .inl hdir
      · by_cases hne : d = dir
        · subst hne
          right
          constructor
          · intro mtime hthere
            rw [hst, hremoved.gone] at hthere
            contradiction
          · intro pc hpc hclaim
            obtain ⟨u, hu⟩ := List.mem_iff_getElem?.mp hpc
            rcases hcall.task hu with ⟨_, heq⟩ | ⟨hut, hother⟩
            · -- the pass itself: the directories left are further up
              cases heq
              have hdeep := (List.pairwise_cons.mp (hnested _ hcall.mem_here)).1 _ hclaim
              exact absurd hdeep (lt_irrefl _)
            · -- any other pass has returned
              have hdone := hpass.apart hut hcall.here hother rfl
              cases pc with
              | done res => exact absurd hclaim List.not_mem_nil
              | _ => cases hdone
        · rw [hst]
          exact .inl (hremoved.isDir d hne hdir)
  · rw [henv.fs]
    exact .inl hdir

end Dir

/-! ### The attempts -/

/-- The error of a write that found the directory gone after each attempt. -/
def shardRemoved : IoError := .other "blob shard removed during write"

/-- The error an upload has ended with or is going to end with. -/
def UpsertChunkPc.failing : UpsertChunkPc → Option IoError
  | .removeOwn e => some e
  | .done (.error e) => some e
  | _ => none

/-- The upload is past opening its file. -/
def UpsertChunkPc.opened : UpsertChunkPc → Bool
  | .start => false
  | .stat => false
  | .mkdir _ => false
  | .create _ => false
  | _ => true

def VmIoDb.shard (db : VmIoDb) (r : ChunkReq) : Path := (db.path (db.blobId r)).dropLast

/-- The steps of `blob::write` up to the open file, by what they find. -/
inductive WriteStep (db : VmIoDb) (st : Store) (r : ChunkReq) :
    UpsertChunkPc → Store → UpsertChunkPc → Prop
  | made (i : ℕ) (st' : Store) (h : st'.fs.isDir (db.shard r)) :
      WriteStep db st r (.mkdir i) st' (.create i)
  | again (h : ¬st.fs.isDir (db.shard r)) : WriteStep db st r (.create 0) st (.mkdir 1)
  | gone (i : ℕ) (h : ¬st.fs.isDir (db.shard r)) :
      WriteStep db st r (.create (i + 1)) st (.done (.error shardRemoved))
  | past (pc : UpsertChunkPc) (st' : Store) (pc' : UpsertChunkPc) (hopened : pc'.opened = true)
      (herr : shardRemoved ∈ pc'.failing → shardRemoved ∈ pc.failing) :
      WriteStep db st r pc st' pc'
  | early (st' : Store) (pc pc' : UpsertChunkPc) (h : pc = .start ∨ pc = .stat) :
      WriteStep db st r pc st' pc'

theorem committed_opened (prev : Option Digest) : (upsertChunkCommitted prev).opened = true ∧
    shardRemoved ∉ (upsertChunkCommitted prev).failing := by
  cases prev with
  | none => exact ⟨rfl, by simp [upsertChunkCommitted, UpsertChunkPc.failing]⟩
  | some b => exact ⟨rfl, by simp [upsertChunkCommitted, UpsertChunkPc.failing]⟩

theorem failed_opened (wrote : Bool) (e : SqlError) : (upsertChunkFailed wrote e).opened = true ∧
    shardRemoved ∉ (upsertChunkFailed wrote e).failing := by
  cases wrote with
  | false => exact ⟨rfl, by simp [upsertChunkFailed, UpsertChunkPc.failing, shardRemoved]⟩
  | true => exact ⟨rfl, by simp [upsertChunkFailed, UpsertChunkPc.failing, shardRemoved]⟩

theorem stepUpsertChunk_write {db : VmIoDb} {st st' : Store} {r : ChunkReq}
    {pc pc' : UpsertChunkPc} {c : Choice} (h : stepUpsertChunk db st r pc c = some (st', pc')) :
    WriteStep db st r pc st' pc' := by
  unfold stepUpsertChunk at h
  split at h
  · exact .early _ _ _ (.inl rfl)
  · exact .early _ _ _ (.inr rfl)
  · exact .early _ _ _ (.inr rfl)
  · split at h
    · rename_i hmk
      cases h
      exact .made _ _ (Fs.isDir_createDirAll hmk)
    · cases h
      exact .past _ _ _ rfl (by simp [UpsertChunkPc.failing, shardRemoved])
  · split at h
    · cases h
      exact .past _ _ _ rfl (by simp [UpsertChunkPc.failing, shardRemoved])
    · cases h
      exact .past _ _ _ rfl (by simp [UpsertChunkPc.failing, shardRemoved])
  · rename_i i
    split at h
    · cases h
      exact .past _ _ _ rfl (by simp [UpsertChunkPc.failing])
    · rename_i hmissing
      split at h
      · rename_i hi
        cases h
        obtain rfl : i = 0 := by omega
        exact .again (Fs.not_isDir_of_notFound hmissing)
      · rename_i hi
        cases h
        obtain ⟨k, rfl⟩ : ∃ k, i = k + 1 := ⟨i - 1, by omega⟩
        exact .gone k (Fs.not_isDir_of_notFound hmissing)
    · cases h
      exact .past _ _ _ rfl (by simp [UpsertChunkPc.failing, shardRemoved])
  · cases h
    exact .past _ _ _ rfl (by simp [UpsertChunkPc.failing, shardRemoved])
  · split at h
    · cases h
      exact .past _ _ _ rfl (by simp [UpsertChunkPc.failing])
    · contradiction
  · split at h
    · cases h
      exact .past _ _ _ rfl (by simp [UpsertChunkPc.failing])
    · contradiction
  · cases h
    exact .past _ _ _ rfl (by simp [UpsertChunkPc.failing, shardRemoved])
  · split at h
    · cases h
      exact .past _ _ _ (committed_opened _).1 fun herr => absurd herr (committed_opened _).2
    · cases h
      exact .past _ _ _ (failed_opened _ _).1 fun herr => absurd herr (failed_opened _ _).2
  · cases h
    exact .past _ _ _ (failed_opened _ _).1 fun herr => absurd herr (failed_opened _ _).2
  · cases h
    exact .past _ _ _ rfl (by simp [UpsertChunkPc.failing])
  · cases h
    exact .past _ _ _ rfl (by simp [UpsertChunkPc.failing])
  · cases h
    exact .past _ _ _ rfl (by simp [UpsertChunkPc.failing])
  · cases h
    exact .past _ _ _ rfl (by simp [UpsertChunkPc.failing])
  · contradiction

/-- What the write knows of its directory at each of its steps. -/
def Attempting (db : VmIoDb) (r : ChunkReq) (t₀ : Time) (s : Sys) : UpsertChunkPc → Prop
  | .mkdir 0 => True
  | .create 0 => s.st.fs.isDir (db.shard r) ∨ Spent t₀ (db.shard r) s
  | .mkdir 1 => Spent t₀ (db.shard r) s
  | .create 1 => s.st.fs.isDir (db.shard r) ∧ Spent t₀ (db.shard r) s
  | pc => pc.opened = true ∧ shardRemoved ∉ pc.failing

structure WriteInv (db : VmIoDb) (r : ChunkReq) (t : ℕ) (t₀ : Time) (s : Sys) : Prop where
  clock : t₀ ≤ s.st.now
  nested : ∀ pc, .cleanupDir pc ∈ s.tasks → Nested pc.walked
  writing : ∃ pc, s.tasks[t]? = some (.upsertChunk r pc) ∧ Attempting db r t₀ s pc

/-- The process lives on, no second pass runs beside the first, and the cutoff lies
before `t₀`. -/
def BesideOnePass (t₀ : Time) (s : Sys) : Action → Prop
  | .crash => False
  | _ => OnePass t₀ s

instance (t₀ : Time) (s : Sys) : Decidable (OnePass t₀ s) :=
  decidable_of_iff (s.tasks.Pairwise (fun a b => ¬(a.passing = true ∧ b.passing = true)) ∧
    ∀ task ∈ s.tasks, ∀ cutoff ∈ task.cutoff, cutoff < t₀)
    ⟨fun h => ⟨h.1, h.2⟩, fun h => ⟨h.alone, h.early⟩⟩

instance (t₀ : Time) (s : Sys) (a : Action) : Decidable (BesideOnePass t₀ s a) :=
  match a with
  | .crash => .isFalse id
  | .spawn _ => inferInstanceAs (Decidable (OnePass t₀ s))
  | .step _ _ => inferInstanceAs (Decidable (OnePass t₀ s))
  | .tick _ => inferInstanceAs (Decidable (OnePass t₀ s))

theorem BesideOnePass.live {t₀ : Time} {s : Sys} {a : Action} (h : BesideOnePass t₀ s a) :
    a ≠ .crash ∧ OnePass t₀ s := by
  cases a with
  | crash => exact h.elim
  | spawn call => exact ⟨by simp, h⟩
  | step t c => exact ⟨by simp, h⟩
  | tick d => exact ⟨by simp, h⟩

theorem Attempting.past {db : VmIoDb} {r : ChunkReq} {t₀ : Time} {s : Sys} {pc : UpsertChunkPc}
    (hopened : pc.opened = true) (herr : shardRemoved ∉ pc.failing) : Attempting db r t₀ s pc := by
  unfold Attempting
  split
  · trivial
  · cases hopened
  · cases hopened
  · cases hopened
  · exact ⟨hopened, herr⟩

theorem Attempting.step {db : VmIoDb} {r : ChunkReq} {t : ℕ} {t₀ : Time} {s s' : Sys} {a : Action}
    {pc : UpsertChunkPc} (hinv : WriteInv db r t t₀ s) (hpass : OnePass t₀ s)
    (h : Db.step db s a = some s') (hpc : Attempting db r t₀ s pc) : Attempting db r t₀ s' pc := by
  unfold Attempting at hpc
  split at hpc
  · trivial
  · rcases hpc with hdir | hspent
    · exact isDir_or_spent hinv.nested hpass hdir h
    · exact .inr (hspent.step hpass hinv.clock h)
  · exact hpc.step hpass hinv.clock h
  · exact ⟨hpc.2.isDir hpc.1 h, hpc.2.step hpass hinv.clock h⟩
  · exact .past hpc.1 hpc.2

theorem Attempting.own {db : VmIoDb} {r : ChunkReq} {t : ℕ} {t₀ : Time} {s s' : Sys} {a : Action}
    {pc pc' : UpsertChunkPc} (hinv : WriteInv db r t t₀ s) (hpass : OnePass t₀ s)
    (h : Db.step db s a = some s') (hpc : Attempting db r t₀ s pc)
    (hwrite : WriteStep db s.st r pc s'.st pc') : Attempting db r t₀ s' pc' := by
  generalize hst : s'.st = st' at hwrite
  cases hwrite with
  | made i _ hdir =>
      rw [← hst] at hdir
      match i, hpc with
      | 0, _ => exact .inl hdir
      | 1, hspent =>
          have hspent : Spent t₀ (db.shard r) s := hspent
          exact ⟨hdir, hspent.step hpass hinv.clock h⟩
      | i + 2, hpc => exact absurd hpc.1 Bool.false_ne_true
  | again hmissing =>
      rcases hpc with hdir | hspent
      · exact absurd hdir hmissing
      · exact hspent.step hpass hinv.clock h
  | gone i hmissing =>
      match i, hpc with
      | 0, hpc => exact absurd hpc.1 hmissing
      | i + 1, hpc => exact absurd hpc.1 Bool.false_ne_true
  | past _ _ _ hopened herr =>
      refine .past hopened fun hmem => ?_
      have hfailing := herr hmem
      unfold Attempting at hpc
      split at hpc
      · cases hfailing
      · cases hfailing
      · cases hfailing
      · cases hfailing
      · exact hpc.2 hfailing
  | early _ _ _ hearly =>
      rcases hearly with rfl | rfl
      · exact absurd hpc.1 Bool.false_ne_true
      · exact absurd hpc.1 Bool.false_ne_true

theorem writeInv_step {db : VmIoDb} {r : ChunkReq} {t : ℕ} {t₀ : Time} {s s' : Sys} {a : Action}
    (hinv : WriteInv db r t t₀ s) (hok : BesideOnePass t₀ s a) (h : step db s a = some s') :
    WriteInv db r t t₀ s' := by
  obtain ⟨hlive, hpass⟩ := hok.live
  obtain ⟨pc, htask, hpc⟩ := hinv.writing
  have hreach : Reach (step db) (fun _ _ => True) s s' := .tail a .refl trivial h
  have hnested := nested_of_reach hinv.nested hreach
  rcases step_cases h with ⟨u, c, task, task', rfl, hcall⟩ | henv
  · have hclock : t₀ ≤ s'.st.now := by
      rw [hcall.step.now]
      exact hinv.clock
    refine ⟨hclock, hnested, ?_⟩
    -- the write moves on, or its directory is what the step left or made of it
    by_cases hut : t = u
    · subst hut
      have hmove := h
      simp only [step, htask, stepTask, Option.map_map, Option.map_eq_some_iff] at hmove
      obtain ⟨⟨st', pc'⟩, hstep, rfl⟩ := hmove
      refine ⟨pc', ?_, hpc.own hinv hpass h (stepUpsertChunk_write hstep)⟩
      exact List.getElem?_set_self (List.getElem?_eq_some_iff.mp htask).1
    · exact ⟨pc, (hcall.still hut).trans htask, hpc.step hinv hpass h⟩
  · exact ⟨hinv.clock.trans henv.now_le, hnested, pc, henv.still h hlive htask,
      hpc.step hinv hpass h⟩

/-- The steps of a write from where it opens its file: the portions in their order,
and the end of the data. -/
def writeActions (t : ℕ) (ns : List ℕ) : List Action :=
  .step t .ok :: (ns.map fun n => .step t (.portion n)) ++ [.step t .ok]

/-- In whatever portions the rest of the data is written, the file holds all of it in
the end. -/
theorem runOk_portions {db : VmIoDb} {r : ChunkReq} {t ino off : ℕ} {ns : List ℕ} {s : Sys}
    (htask : s.tasks[t]? = some (.upsertChunk r (.write ino off)))
    (hfile : s.st.fs.file? (db.path (db.blobId r)) = some ⟨ino, (db.cipher r).take off, s.st.now⟩)
    (hpos : ∀ n ∈ ns, 0 < n) (hsum : off + ns.sum = (db.cipher r).length) :
    ∃ s', runOk (step db) (fun _ _ => True) s
        ((ns.map fun n => .step t (.portion n)) ++ [.step t .ok]) = some s' ∧
      s'.tasks[t]? = some (.upsertChunk r (.txn true)) ∧
      s'.st.fs.file? (db.path (db.blobId r)) = some ⟨ino, db.cipher r, s.st.now⟩ := by
  have hlt : t < s.tasks.length := (List.getElem?_eq_some_iff.mp htask).1
  induction ns generalizing s off with
  | nil =>
      have hoff : off = (db.cipher r).length := by simpa using hsum
      subst hoff
      refine ⟨⟨s.st, s.tasks.set t (.upsertChunk r (.txn true))⟩, ?_,
        List.getElem?_set_self hlt, ?_⟩
      · simp [runOk, step, htask, stepTask, stepUpsertChunk]
      · rw [hfile, List.take_length]
  | cons n ns ih =>
      rw [List.sum_cons] at hsum
      obtain ⟨hn, hns⟩ := List.forall_mem_cons.mp hpos
      let block := ((db.cipher r).drop off).take n
      let fs := s.st.fs.writeAt (db.path (db.blobId r)) ino off block s.st.now
      let mid : Sys :=
        ⟨{ s.st with fs := fs }, s.tasks.set t (.upsertChunk r (.write ino (off + n)))⟩
      have hroom : 0 < n ∧ off + n ≤ (db.cipher r).length := by omega
      have hstep : step db s (.step t (.portion n)) = some mid := by
        simp only [step, htask, stepTask, stepUpsertChunk, if_pos hroom]
        rfl
      have hwritten : mid.st.fs.file? (db.path (db.blobId r)) =
          some ⟨ino, (db.cipher r).take (off + n), s.st.now⟩ := by
        show fs.file? _ = _
        rw [Fs.file?_writeAt, if_pos rfl, hfile, Option.map_some, if_pos rfl,
          overlay_take (by omega) le_rfl (by omega), Nat.max_eq_right (Nat.le_add_right _ _)]
      obtain ⟨s', hrun, hdone⟩ := ih (s := mid) (List.getElem?_set_self hlt) hwritten hns
        (by omega) (by simpa [mid] using hlt)
      exact ⟨s', by simpa [runOk, hstep] using hrun, hdone⟩

/-- A write beside one pass whose cutoff lies before the write began, and beside any
other calls, does not end with the shard directory gone: its second attempt finds
the directory in place, opens the file, and in whatever portions it goes on writes
all of its data. -/
theorem write_two_attempts {db : VmIoDb} {st : Store} {s₀ s : Sys} {r : ChunkReq} {t : ℕ}
    (hbefore : Reach (step db) (fun _ _ => True) ⟨st, []⟩ s₀)
    (hbegins : s₀.tasks[t]? = some (.upsertChunk r (.mkdir 0)))
    (hreach : Reach (step db) (BesideOnePass s₀.st.now) s₀ s) :
    s.tasks[t]? ≠ some (.upsertChunk r
        (.done (.error (.other "blob shard removed during write")))) ∧
      (s.tasks[t]? = some (.upsertChunk r (.create 1)) →
        s.st.fs.isDir (db.path (db.blobId r)).dropLast ∧
        (¬s.st.fs.isDir (db.path (db.blobId r)) → ∃ s' ino, step db s (.step t .ok) = some s' ∧
          s'.tasks[t]? = some (.upsertChunk r (.write ino 0)) ∧
          s'.st.fs.file? (db.path (db.blobId r)) = some ⟨ino, [], s.st.now⟩) ∧
        (¬s.st.fs.isDir (db.path (db.blobId r)) → ∀ ns : List ℕ, (∀ n ∈ ns, 0 < n) →
          ns.sum = (db.cipher r).length → ∃ s' ino,
            runOk (step db) (fun _ _ => True) s (writeActions t ns) = some s' ∧
            s'.tasks[t]? = some (.upsertChunk r (.txn true)) ∧
            s'.st.fs.file? (db.path (db.blobId r)) = some ⟨ino, db.cipher r, s.st.now⟩)) := by
  have hinit : WriteInv db r t s₀.st.now s₀ :=
    ⟨le_rfl, nested_of_reach (fun _ hpc => absurd hpc List.not_mem_nil) hbefore,
      _, hbegins, trivial⟩
  have hinv := hreach.invariant hinit fun _ _ _ hinv hok h => writeInv_step hinv hok h
  obtain ⟨pc, htask, hpc⟩ := hinv.writing
  constructor
  · intro hdone
    rw [htask] at hdone
    cases hdone
    exact hpc.2 rfl
  · intro hcreate
    have hpc : Attempting db r s₀.st.now s (.create 1) := by
      rw [htask] at hcreate
      cases hcreate
      exact hpc
    have hopens : ¬s.st.fs.isDir (db.path (db.blobId r)) → ∃ fs ino,
        let s' : Sys := ⟨{ s.st with fs := fs }, s.tasks.set t (.upsertChunk r (.write ino 0))⟩
        step db s (.step t .ok) = some s' ∧
          s'.tasks[t]? = some (.upsertChunk r (.write ino 0)) ∧
          s'.st.fs.file? (db.path (db.blobId r)) = some ⟨ino, [], s.st.now⟩ := by
      intro hfile
      obtain ⟨fs, ino, hopen⟩ := Fs.create_isOk s.st.now hpc.1 hfile
      refine ⟨fs, ino, ?_, List.getElem?_set_self (List.getElem?_eq_some_iff.mp hcreate).1, ?_⟩
      · simp only [step, hcreate, stepTask, stepUpsertChunk, hopen, Option.map_some]
        rfl
      · rw [Fs.file?_create hopen, if_pos rfl]
    refine ⟨hpc.1, fun hfile => ?_, fun hfile ns hpos hsum => ?_⟩
    · obtain ⟨fs, ino, hopened⟩ := hopens hfile
      exact ⟨_, ino, hopened⟩
    · obtain ⟨fs, ino, hopened, htask', hempty⟩ := hopens hfile
      obtain ⟨s', hrun, hdone⟩ := runOk_portions htask' (by simpa using hempty) hpos
        (by simpa using hsum)
      exact ⟨s', ino, by simpa [writeActions, runOk, hopened] using hrun, hdone⟩

/-- The upload is about to make its directory, or to open its file. -/
def Task.writing (r : ChunkReq) : Task → Option (Bool × ℕ)
  | .upsertChunk r' (.mkdir i) => if r' = r then some (true, i) else none
  | .upsertChunk r' (.create i) => if r' = r then some (false, i) else none
  | _ => none

theorem Task.of_writing {r : ChunkReq} {task : Task} {making : Bool} {i : ℕ}
    (h : task.writing r = some (making, i)) :
    task = .upsertChunk r (if making then .mkdir i else .create i) := by
  unfold Task.writing at h
  split at h
  · split at h <;> cases h
    rename_i hr
    rw [hr]
    rfl
  · split at h <;> cases h
    rename_i hr
    rw [hr]
    rfl
  · cases h

/-- Shard directories nobody has touched for a long time, with nothing in them. -/
def Vectors.staleShards : Store :=
  ⟨Sql.empty, (((Fs.init ["data"] 0).link ["data", "afec"] (.dir 5)).link
    ["data", "afec", "25cc"] (.dir 5)).link ["data", "afec", "25cc", "3aaa"] (.dir 5), 400000000⟩

/-- The pass removes the directory after the first attempt has found it there. -/
theorem write_two_attempts_removed :
    ∃ s₀ s : Sys, Reach (step Vectors.db) (BesideOnePass s₀.st.now) s₀ s ∧
      s.tasks[1]? = some (.upsertChunk Vectors.reqA (.create 1)) ∧
      s.st.fs.isDir ["data", "afec", "25cc", "3aaa"] ∧
      ∃ s' ino, runOk (step Vectors.db) (fun _ _ => True) s (writeActions 1 [1]) = some s' ∧
        s'.tasks[1]? = some (.upsertChunk Vectors.reqA (.txn true)) ∧
        s'.st.fs.file? (Vectors.db.path (Vectors.db.blobId Vectors.reqA)) =
          some ⟨ino, Vectors.db.cipher Vectors.reqA, s.st.now⟩ := by
  obtain ⟨s₀, hbefore, hbegins, hrun⟩ := Reach.exists_of_runOk (step Vectors.db)
    (fun _ _ => True) ⟨Vectors.staleShards, []⟩
    [.spawn .cleanupDir, .step 0 .ok, .step 0 (.listing ["afec"]), .step 0 .ok, .step 0 .ok,
      .step 0 (.listing ["25cc"]), .step 0 .ok, .step 0 .ok, .step 0 (.listing ["3aaa"]),
      .step 0 .ok, .step 0 .ok, .step 0 (.listing []), .step 0 .ok,
      .spawn (.upsertChunk Vectors.reqA), .step 1 .ok, .step 1 .ok]
    (fun s₀ => (s₀.tasks[1]?).bind (Task.writing Vectors.reqA) = some (true, 0) ∧
      (runOk (step Vectors.db) (BesideOnePass s₀.st.now) s₀
        [.step 1 .ok, .step 0 .ok, .step 1 .ok, .step 1 .ok]).any fun s =>
          (s.tasks[1]?).bind (Task.writing Vectors.reqA) = some (false, 1) ∧
          s.st.fs.node? (Vectors.db.path (Vectors.db.blobId Vectors.reqA)) = none)
    (by decide +kernel)
  obtain ⟨task₀, htask₀, hwrite₀⟩ := Option.bind_eq_some_iff.mp hbegins
  rw [Task.of_writing hwrite₀] at htask₀
  obtain ⟨s, hs, hlast⟩ := (Option.any_eq_true _ _).mp hrun
  obtain ⟨hcreate, hnone⟩ := of_decide_eq_true hlast
  obtain ⟨task, htask, hwrite⟩ := Option.bind_eq_some_iff.mp hcreate
  rw [Task.of_writing hwrite] at htask
  have hreach : Reach (step Vectors.db) (BesideOnePass s₀.st.now) s₀ s := .of_runOk hs
  obtain ⟨hdir, _, hwrites⟩ := (write_two_attempts hbefore htask₀ hreach).2 htask
  have hfile : ¬s.st.fs.isDir (Vectors.db.path (Vectors.db.blobId Vectors.reqA)) := by
    rintro ⟨mtime, hdir⟩
    rw [hnone] at hdir
    cases hdir
  have hlength : [1].sum = (Vectors.db.cipher Vectors.reqA).length := by
    rw [show (Vectors.db.cipher Vectors.reqA).length = Vectors.reqA.data.length from
      encryptChunk_length _ _ _ _]
    rfl
  have hpath : (Vectors.db.path (Vectors.db.blobId Vectors.reqA)).dropLast =
      ["data", "afec", "25cc", "3aaa"] := by decide +kernel
  exact ⟨s₀, s, hreach, htask, hpath ▸ hdir, hwrites hfile [1] (by simp) hlength⟩

end VmIo.Db
