import VmIo.Lib.Tree
import VmIo.Db.Cleanup
import VmIo.Db.CleanupPass
import VmIo.Db.NoLeak
import VmIo.Db.Shards

/-!
What a cleanup pass makes of what crashes and failures have left behind.

Every run, whatever overlaps, fails or dies in it, keeps the disk in shape: a tree of shard
directories with blob files in it, none of them newer than the clock (`Shaped`). A pass that
starts a grace period after a crash therefore can run to its end, and removes exactly what
no row references (`cleanup_reclaims`). Where calls do not overlap, the files are then those
of the committed rows, and every lookup answers as before (`cleanup_recovers`).
-/

namespace VmIo.Db

open VmIo.Lib

/-! ### The shape of the disk -/

section Tree

variable {db : VmIoDb} {st st' : Store} {c : Choice} {p q : Path} {name : String}

theorem node?_removeQuiet (h : (st.removeQuiet p).fs.node? q ≠ none) : st.fs.node? q ≠ none := by
  rcases Fs.node?_ne_none_iff.mp h with hdir | ⟨f, hf⟩
  · exact Fs.node?_ne_none_iff.mpr (.inl (isDir_removeQuiet hdir))
  · rw [file?_removeQuiet] at hf
    split at hf
    · contradiction
    · exact Fs.node?_ne_none_iff.mpr (.inr ⟨f, hf⟩)

theorem UpsertChunkStep.parent {r : ChunkReq} {pc pc' : UpsertChunkPc}
    (h : UpsertChunkStep db st r pc c st' pc') (hsome : st'.fs.node? (p ++ [name]) ≠ none) :
    st.fs.node? (p ++ [name]) ≠ none ∨ st'.fs.isDir p := by
  cases h with
  | mkdir i fs h =>
      rw [Fs.createDirAll, ← List.take_length (l := (db.path (db.blobId r)).dropLast.inits)] at h
      exact Fs.parent_of_createDirs h hsome
  | mkdirFailed i n fs e h => exact Fs.parent_of_createDirs h hsome
  | create i fs ino h => exact Fs.parent_of_create h hsome
  | write => exact .inl (Fs.node?_writeAt.mp hsome)
  | removeOwn => exact .inl (node?_removeQuiet hsome)
  | removePrev => exact .inl (node?_removeQuiet hsome)
  | _ => exact .inl hsome

theorem DeleteStep.node? {ids ids' : List Digest} (h : DeleteStep db st ids c st' ids')
    (hsome : st'.fs.node? p ≠ none) : st.fs.node? p ≠ none := by
  cases h with
  | remove b => exact node?_removeQuiet hsome
  | _ => exact hsome

theorem TaskStep.isTree {task task' : Task} (h : TaskStep db st task c st' task')
    (htree : st.fs.IsTree db.rootDir) : st'.fs.IsTree db.rootDir := by
  rcases h.dirs with hkept | ⟨cutoff, dir, stack, rfl, rfl, rfl⟩
  · refine htree.of_parents hkept.isDir fun p name hsome => ?_
    cases h with
    | upsert h =>
        obtain ⟨_, hfs, _⟩ := stepUpsert_frame h
        exact .inl (hfs ▸ hsome)
    | upsertChunk h => exact h.parent hsome
    | rm h => exact .inl (h.node? hsome)
    | pruneBacklog h => exact .inl (h.node? hsome)
    | cleanupDir h =>
        cases h with
        | remove => exact .inl (node?_removeQuiet hsome)
        | removeDir cutoff dir stack =>
            left
            unfold Store.removeDirQuiet at hsome
            split at hsome
            · rename_i hremove
              have hremoved := Fs.removed_of_removeDir hremove
              intro hnone
              by_cases hp : p ++ [name] = dir
              · exact hsome (hp ▸ hremoved.gone)
              · exact hsome ((hremoved.absent _ hp).mpr hnone)
            · exact hsome
        | _ => exact .inl hsome
    | getChunk => exact .inl hsome
  · unfold Store.removeDirQuiet
    split
    · exact htree.of_removeDir ‹_›
    · exact htree

end Tree

/-- The directory a pass is about to remove. -/
def CleanupPc.clearing : CleanupPc → Option Path
  | .removeDir _ dir _ => some dir
  | _ => none

/-- A pass stays at or below the root, and removes directories below it only. -/
structure CleanupPc.Below (root : Path) (pc : CleanupPc) : Prop where
  walked : ∀ d ∈ pc.walked, root.length ≤ d.1.length
  clearing : ∀ d ∈ pc.clearing, root.length < d.length

section Below

variable {db : VmIoDb} {st st' : Store} {pc pc' : CleanupPc} {c : Choice} {root : Path}

theorem CleanupPc.Below.leave (h : pc.Below root) (hwalked : pc'.walked <:+ pc.walked)
    (hclearing : pc'.clearing = none) : pc'.Below root where
  walked d hd := h.walked d (hwalked.subset hd)
  clearing d hd := by
    rw [hclearing] at hd
    contradiction

theorem cleanupItem_below {cutoff : Time} {name : String} {frame : Frame} {stack : List Frame}
    {info : Meta} (h : (CleanupPc.stat cutoff name (frame :: stack)).Below root) :
    (cleanupItem db cutoff name frame stack info).Below root := by
  unfold cleanupItem
  by_cases hdir : info.isDir
  · simp only [hdir, if_true]
    split
    · exact h.leave List.suffix_rfl rfl
    · refine ⟨fun d hd => ?_, fun d hd => by cases hd⟩
      rcases List.mem_cons.mp hd with rfl | hd
      · have hframe : root.length ≤ frame.dir.length :=
          h.walked (frame.dir, frame.stale) List.mem_cons_self
        rw [List.length_append]
        omega
      · exact h.walked d hd
  · simp only [hdir, Bool.false_eq_true, if_false]
    split
    · split
      · exact h.leave List.suffix_rfl rfl
      · split
        · exact h.leave List.suffix_rfl rfl
        · exact h.leave List.suffix_rfl rfl
    · exact h.leave List.suffix_rfl rfl

theorem stepCleanup_below (h : stepCleanup db st pc c = some (st', pc'))
    (hnested : Nested pc.walked) (hpc : pc.Below db.rootDir) : pc'.Below db.rootDir := by
  cases pc with
  | start =>
      cases c <;> simp only [stepCleanup, reduceCtorEq] at h
      cases h
      exact ⟨fun d hd => by simp [List.mem_singleton.mp hd], fun d hd => by cases hd⟩
  | readDir cutoff dir depth stale stack =>
      cases c <;> simp only [stepCleanup, reduceCtorEq] at h
      · cases h
        exact hpc.leave List.nil_suffix rfl
      · split at h
        · split at h
          · cases h
            exact hpc.leave List.suffix_rfl rfl
          · contradiction
        · cases h
          exact hpc.leave List.nil_suffix rfl
  | next cutoff stack =>
      rcases stack with _ | ⟨⟨dir, depth, stale, todo⟩, stack⟩
      · cases c <;> simp only [stepCleanup, reduceCtorEq] at h
        cases h
        exact hpc.leave List.nil_suffix rfl
      · cases todo <;> cases c <;> simp only [stepCleanup, reduceCtorEq] at h
        · split at h
          · cases h
            exact hpc.leave List.nil_suffix rfl
          · rename_i hstack
            split at h
            · cases h
              refine ⟨fun d hd => ?_, fun d hd => ?_⟩
              · rcases List.mem_cons.mp hd with rfl | hd
                · exact hpc.walked (dir, stale) List.mem_cons_self
                · exact hpc.walked d (List.mem_cons_of_mem _ hd)
              · -- the directory it was entered from is at or below the root
                cases hd
                cases stack with
                | nil => exact absurd rfl hstack
                | cons outer stack =>
                    have hdeep :=
                      (List.pairwise_cons.mp hnested).1 (outer.dir, outer.stale) (by simp)
                    have houter := hpc.walked (outer.dir, outer.stale) (by simp [CleanupPc.walked])
                    simp only at hdeep houter
                    omega
            · cases h
              exact hpc.leave (List.suffix_cons _ _) rfl
        all_goals
          cases h
          first
            | exact hpc.leave List.suffix_rfl rfl
            | exact hpc.leave List.nil_suffix rfl
  | stat cutoff name stack =>
      cases stack with
      | nil =>
          cases c <;> simp only [stepCleanup, reduceCtorEq] at h
          cases h
          exact hpc.leave List.suffix_rfl rfl
      | cons frame stack =>
          cases c <;> simp only [stepCleanup, reduceCtorEq] at h
          · split at h <;> cases h
            · exact cleanupItem_below hpc
            · exact hpc.leave List.suffix_rfl rfl
          · cases h
            exact hpc.leave List.suffix_rfl rfl
  | query cutoff id mtime stack =>
      cases c <;> simp only [stepCleanup, reduceCtorEq] at h
      · split at h <;> cases h
        · exact hpc.leave List.suffix_rfl rfl
        · exact hpc.leave List.suffix_rfl rfl
      · cases h
        exact hpc.leave List.nil_suffix rfl
  | remove cutoff id stack =>
      cases c <;> simp only [stepCleanup, reduceCtorEq] at h <;> cases h
      · exact hpc.leave List.suffix_rfl rfl
      · exact hpc.leave List.suffix_rfl rfl
  | removeDir cutoff dir stack =>
      cases c <;> simp only [stepCleanup, reduceCtorEq] at h <;> cases h
      · exact hpc.leave (List.suffix_cons _ _) rfl
      · exact hpc.leave (List.suffix_cons _ _) rfl
  | done res => cases c <;> simp only [stepCleanup, reduceCtorEq] at h

theorem step_pass {s s' : Sys} {a : Action} (h : step db s a = some s')
    (hpass : .cleanupDir pc' ∈ s'.tasks) :
    .cleanupDir pc' ∈ s.tasks ∨ pc' = .start ∨
      ∃ pc c st', .cleanupDir pc ∈ s.tasks ∧ stepCleanup db s.st pc c = some (st', pc') := by
  cases a with
  | spawn call =>
      simp only [step, Option.some.injEq] at h
      subst h
      rcases List.mem_append.mp hpass with hpass | hpass
      · exact .inl hpass
      · have hstart := List.mem_singleton.mp hpass
        cases call with
        | cleanupDir =>
            cases hstart
            exact .inr (.inl rfl)
        | _ => cases hstart
  | step t c =>
      simp only [step] at h
      split at h
      · contradiction
      · rename_i task htask
        obtain ⟨⟨st', task'⟩, hstep, rfl⟩ := Option.map_eq_some_iff.mp h
        rcases List.mem_or_eq_of_mem_set hpass with hpass | rfl
        · exact .inl hpass
        · cases task <;> simp only [stepTask, Option.map_eq_some_iff] at hstep <;>
            obtain ⟨⟨st₁, pc₁⟩, hstep, heq⟩ := hstep <;> cases heq
          exact .inr (.inr ⟨_, c, st₁, List.mem_of_getElem? htask, hstep⟩)
  | tick d =>
      simp only [step, Option.some.injEq] at h
      subst h
      exact .inl hpass
  | crash =>
      simp only [step, Option.some.injEq] at h
      subst h
      exact absurd hpass List.not_mem_nil

end Below

/-- The disk holds a tree of shard directories and blob files, none newer than the clock. -/
structure Shaped (db : VmIoDb) (s : Sys) : Prop where
  tree : s.st.fs.IsTree db.rootDir
  root : s.st.fs.isDir db.rootDir
  files : ∀ p f, s.st.fs.file? p = some f → ∃ b, p = db.path b
  dirs : ∀ p, s.st.fs.isDir p → ∃ b, p <+: (db.path b).dropLast
  fileTimes : ∀ b f, s.st.fs.file? (db.path b) = some f → f.mtime ≤ s.st.now
  dirTimes : ∀ p mtime, s.st.fs.node? p = some (.dir mtime) → mtime ≤ s.st.now
  passes : ∀ pc, .cleanupDir pc ∈ s.tasks → Nested pc.walked ∧ pc.Below db.rootDir

section Shaped

variable {db : VmIoDb} {s s' : Sys} {a : Action}

theorem rootDir_above (db : VmIoDb) (b : Digest) : db.rootDir <+: (db.path b).dropLast := by
  obtain ⟨d, name, hpath, hin, _⟩ := path_shards db b
  rw [hpath, List.dropLast_concat]
  exact hin.isPrefix

theorem shaped_init (db : VmIoDb) (now : Time) : Shaped db (Sys.init db now) := by
  have hnode : ∀ p n, (Sys.init db now).st.fs.node? p = some n → p = db.rootDir ∧ n = .dir now := by
    intro p n hn
    simp only [Sys.init, Fs.init, Fs.node?, Table.find?_put, Table.find?_empty] at hn
    split at hn
    · cases hn
      exact ⟨Eq.symm ‹_›, rfl⟩
    · contradiction
  refine ⟨Fs.isTree_init _ _, ⟨now, by simp [Sys.init, Fs.init, Fs.node?, Table.find?_put]⟩,
    fun p f hf => ?_, fun p hp => ?_, fun b f hf => ?_, fun p mtime hm => ?_, by simp [Sys.init]⟩
  · cases (hnode p _ (Fs.file?_eq_some_iff.mp hf)).2
  · obtain ⟨mtime, hm⟩ := hp
    rw [(hnode p _ hm).1]
    exact ⟨.ofNat 0, rootDir_above db _⟩
  · cases (hnode _ _ (Fs.file?_eq_some_iff.mp hf)).2
  · cases (hnode p _ hm).2
    exact le_rfl

theorem Shaped.passes_step (hinv : Shaped db s) (h : step db s a = some s') (pc : CleanupPc)
    (hpass : .cleanupDir pc ∈ s'.tasks) : Nested pc.walked ∧ pc.Below db.rootDir := by
  rcases step_pass h hpass with hold | rfl | ⟨pc₀, c, st', hpc₀, hstep⟩
  · exact hinv.passes pc hold
  · exact ⟨List.Pairwise.nil, ⟨fun d hd => absurd hd List.not_mem_nil, fun d hd => by cases hd⟩⟩
  · obtain ⟨hnested, hbelow⟩ := hinv.passes pc₀ hpc₀
    exact ⟨(stepCleanup_walk hstep).nested hnested, stepCleanup_below hstep hnested hbelow⟩

theorem Shaped.root_step (hinv : Shaped db s) {t : ℕ} {c : Choice} {task task' : Task}
    (hcall : CallStep db s t c s' task task') : s'.st.fs.isDir db.rootDir := by
  rcases hcall.step.dirs with hkept | ⟨cutoff, dir, stack, rfl, rfl, hst⟩
  · exact hkept.isDir _ hinv.root
  · rw [hst]
    rcases removeDirQuiet_cases s.st dir with hsame | hremoved
    · rw [hsame]
      exact hinv.root
    · have hdeep := (hinv.passes _ hcall.mem_here).2.clearing dir rfl
      refine hremoved.isDir _ ?_ hinv.root
      rintro rfl
      exact lt_irrefl _ hdeep

theorem shaped_step (hinv : Shaped db s) (h : step db s a = some s') : Shaped db s' := by
  rcases step_cases h with ⟨t, c, task, task', rfl, hcall⟩ | henv
  · have hnow := hcall.step.now
    refine ⟨hcall.step.isTree hinv.tree, hinv.root_step hcall, fun p f hf => ?_, fun p hp => ?_,
      fun b f hf => ?_, fun p mtime hm => ?_, hinv.passes_step h⟩
    · rcases hcall.step.new_file hf with ⟨g, hg⟩ | ⟨r, ino, _, rfl⟩
      · exact hinv.files p g hg
      · exact ⟨_, rfl⟩
    · rcases hcall.step.isDir hp with hold | ⟨b, hb⟩
      · exact hinv.dirs p hold
      · exact ⟨b, List.mem_inits _ _ |>.mp hb⟩
    · rw [hnow]
      rcases hcall.step.mtime hf with ⟨f₀, hf₀, hsame⟩ | hnew
      · exact hsame ▸ hinv.fileTimes b f₀ hf₀
      · exact hnew.le
    · rw [hnow]
      rcases hcall.step.stamped hm with hold | hnew
      · exact hinv.dirTimes p mtime hold
      · exact hnew.le
  · have hpasses := hinv.passes_step h
    refine ⟨?_, ?_, ?_, ?_, ?_, ?_, hpasses⟩ <;> rw [henv.fs]
    · exact hinv.tree
    · exact hinv.root
    · exact hinv.files
    · exact hinv.dirs
    · exact fun b f hf => (hinv.fileTimes b f hf).trans henv.now_le
    · exact fun p mtime hm => (hinv.dirTimes p mtime hm).trans henv.now_le

theorem shaped {ok : Sys → Action → Prop} {now : Time}
    (h : Reach (step db) ok (Sys.init db now) s) : Shaped db s :=
  h.invariant (shaped_init db now) fun _ _ _ hinv _ hs => shaped_step hinv hs

end Shaped

/-! ### A pass can run to its end -/

section Passes

variable {db : VmIoDb} {cutoff : Time} {stack : List Frame}

/-- A pass that is alone gets from one place to another, and nothing fails. -/
def Passes (db : VmIoDb) (st : Store) (pc : CleanupPc) (st' : Store) (pc' : CleanupPc) : Prop :=
  Reach (step db) Unhindered ⟨st, [.cleanupDir pc]⟩ ⟨st', [.cleanupDir pc']⟩

theorem Passes.step {st st' : Store} {pc pc' : CleanupPc} {c : Choice}
    (h : stepCleanup db st pc c = some (st', pc')) (hc : c ≠ .fail) : Passes db st pc st' pc' :=
  .tail (.step 0 c) .refl hc (by simp [VmIo.Db.step, stepTask, h])

theorem Passes.trans {st₁ st₂ st₃ : Store} {pc₁ pc₂ pc₃ : CleanupPc}
    (h₁ : Passes db st₁ pc₁ st₂ pc₂) (h₂ : Passes db st₂ pc₂ st₃ pc₃) : Passes db st₁ pc₁ st₃ pc₃ :=
  Reach.trans h₁ h₂

/-- What is done with an item is over at once, or a directory is entered, or a blob is asked
for. -/
theorem cleanupItem_eq (db : VmIoDb) (cutoff : Time) (name : String) (frame : Frame)
    (stack : List Frame) (info : Meta) :
    cleanupItem db cutoff name frame stack info = .next cutoff (frame :: stack) ∨
    (∃ stale, info.isDir = true ∧ frame.depth < shardDepth ∧
      cleanupItem db cutoff name frame stack info =
        .readDir cutoff (frame.dir ++ [name]) (frame.depth + 1) stale (frame :: stack)) ∨
    ∃ id mtime, cleanupItem db cutoff name frame stack info =
      .query cutoff id mtime (frame :: stack) := by
  unfold cleanupItem
  by_cases hdir : info.isDir
  · simp only [hdir, if_true]
    split
    · exact .inl rfl
    · rename_i hdeep
      exact .inr (.inl ⟨_, trivial, by omega, rfl⟩)
  · simp only [hdir, Bool.false_eq_true, if_false]
    split
    · split
      · exact .inl rfl
      · split
        · exact .inl rfl
        · exact .inr (.inr ⟨_, _, rfl⟩)
    · exact .inl rfl

/-- The pass works off the names it has listed, given that it can visit the directories
below. -/
theorem passes_todo {dir : Path} {depth : ℕ} {stale : Bool} {stack : List Frame}
    (hbelow : depth < shardDepth → ∀ st dir' stale' frame, st.fs.isDir dir' →
      ∃ st', Passes db st (.readDir cutoff dir' (depth + 1) stale' (frame :: stack)) st'
        (.next cutoff (frame :: stack))) (todo : List String) (st : Store) :
    ∃ st', Passes db st (.next cutoff (⟨dir, depth, stale, todo⟩ :: stack)) st'
      (.next cutoff (⟨dir, depth, stale, []⟩ :: stack)) := by
  induction todo generalizing st with
  | nil => exact ⟨st, .refl⟩
  | cons name todo ih =>
      -- it is enough to come back to the directory
      suffices hitem : ∃ st', Passes db st
          (.stat cutoff name (⟨dir, depth, stale, todo⟩ :: stack)) st'
          (.next cutoff (⟨dir, depth, stale, todo⟩ :: stack)) by
        obtain ⟨st₁, hitem⟩ := hitem
        obtain ⟨st₂, hrest⟩ := ih st₁
        have htake : Passes db st (.next cutoff (⟨dir, depth, stale, name :: todo⟩ :: stack)) st
            (.stat cutoff name (⟨dir, depth, stale, todo⟩ :: stack)) :=
          .step (c := .ok) rfl (by simp)
        exact ⟨st₂, htake.trans (hitem.trans hrest)⟩
      cases hinfo : st.fs.metadata (dir ++ [name]) with
      | error e => exact ⟨st, .step (c := .ok) (by simp [stepCleanup, hinfo]) (by simp)⟩
      | ok info =>
          have hstat : Passes db st (.stat cutoff name (⟨dir, depth, stale, todo⟩ :: stack)) st
              (cleanupItem db cutoff name ⟨dir, depth, stale, todo⟩ stack info) :=
            .step (c := .ok) (by simp [stepCleanup, hinfo]) (by simp)
          rcases cleanupItem_eq db cutoff name ⟨dir, depth, stale, todo⟩ stack info with
            heq | ⟨stale', hdir, hdeep, heq⟩ | ⟨id, mtime, heq⟩ <;> rw [heq] at hstat
          · exact ⟨st, hstat⟩
          · have hthere : st.fs.isDir (dir ++ [name]) := by
              unfold Fs.metadata at hinfo
              split at hinfo
              · rename_i n hn
                cases hinfo
                cases n with
                | file f => cases hdir
                | dir mtime => exact ⟨mtime, hn⟩
              · contradiction
            obtain ⟨st', hvisit⟩ := hbelow hdeep st _ stale' ⟨dir, depth, stale, todo⟩ hthere
            exact ⟨st', hstat.trans hvisit⟩
          · by_cases hrow : st.sql.blobIdExists id
            · exact ⟨st, hstat.trans (.step (c := .ok) (by simp [stepCleanup, hrow]) (by simp))⟩
            · have hask : Passes db st
                  (.query cutoff id mtime (⟨dir, depth, stale, todo⟩ :: stack)) st
                  (.remove cutoff id (⟨dir, depth, stale, todo⟩ :: stack)) :=
                .step (c := .ok) (by simp [stepCleanup, hrow]) (by simp)
              exact ⟨_, hstat.trans (hask.trans (.step (c := .ok) rfl (by simp)))⟩

theorem passes_list {st : Store} {dir : Path} {depth : ℕ} {stale : Bool} (hdir : st.fs.isDir dir) :
    Passes db st (.readDir cutoff dir depth stale stack) st
      (.next cutoff (⟨dir, depth, stale, st.fs.children dir⟩ :: stack)) := by
  obtain ⟨mtime, hdir⟩ := hdir
  refine .step (c := .listing (st.fs.children dir)) ?_ (by simp)
  simp [stepCleanup, hdir, Fs.children_nodup]

/-- Directories of this depth can be visited: the pass comes back from them. -/
def Visits (db : VmIoDb) (cutoff : Time) (depth : ℕ) : Prop :=
  ∀ (stack : List Frame) (st : Store) (dir : Path) (stale : Bool) (frame : Frame),
    st.fs.isDir dir → ∃ st', Passes db st (.readDir cutoff dir depth stale (frame :: stack)) st'
      (.next cutoff (frame :: stack))

theorem visits_of {depth : ℕ} (hbelow : depth < shardDepth → Visits db cutoff (depth + 1)) :
    Visits db cutoff depth := by
  intro stack st dir stale frame hdir
  obtain ⟨st₁, htodo⟩ : ∃ st₁, Passes db st
      (.next cutoff (⟨dir, depth, stale, st.fs.children dir⟩ :: frame :: stack)) st₁
      (.next cutoff (⟨dir, depth, stale, []⟩ :: frame :: stack)) :=
    passes_todo (fun hdeep => hbelow hdeep (frame :: stack)) _ st
  have hthrough := (passes_list hdir).trans htodo
  cases stale with
  | false => exact ⟨st₁, hthrough.trans (.step (c := .ok) rfl (by simp))⟩
  | true =>
      have hclear : Passes db st₁ (.next cutoff (⟨dir, depth, true, []⟩ :: frame :: stack)) st₁
          (.removeDir cutoff dir (frame :: stack)) := .step (c := .ok) rfl (by simp)
      exact ⟨_, hthrough.trans (hclear.trans (.step (c := .ok) rfl (by simp)))⟩

theorem visits {depth : ℕ} (hdepth : depth ≤ shardDepth) : Visits db cutoff depth := by
  induction hdepth using Nat.decreasingInduction with
  | self => exact visits_of fun hlt => absurd hlt (lt_irrefl _)
  | of_succ depth _ ih => exact visits_of fun _ => ih

/-- A pass that starts at a root that is there can return `Ok`. -/
theorem passes_done {st : Store} (hroot : st.fs.isDir db.rootDir) :
    ∃ st', Passes db st .start st' (.done (.ok ())) := by
  have hstart : Passes db st .start st (.readDir (st.now - cleanupGrace) db.rootDir 0 false []) :=
    .step (c := .ok) rfl (by simp)
  obtain ⟨st₁, htodo⟩ : ∃ st₁, Passes db st
      (.next (st.now - cleanupGrace) [⟨db.rootDir, 0, false, st.fs.children db.rootDir⟩]) st₁
      (.next (st.now - cleanupGrace) [⟨db.rootDir, 0, false, []⟩]) :=
    passes_todo (fun hdeep => visits hdeep []) _ st
  have hend : Passes db st₁ (.next (st.now - cleanupGrace) [⟨db.rootDir, 0, false, []⟩]) st₁
      (.done (.ok ())) := .step (c := .ok) rfl (by simp)
  exact ⟨st₁, (hstart.trans (passes_list hroot)).trans (htodo.trans hend)⟩

end Passes

/-! ### What a pass leaves -/

/-- The process has died, and `d` later a pass starts. -/
def Sys.restarted (s : Sys) (d : ℕ) : Sys :=
  ⟨{ s.st with now := s.st.now + d }, [.cleanupDir .start]⟩

section Pass

variable {db : VmIoDb} {s s' : Sys} {d : ℕ}

theorem restarted_passStart (h : Reach (step db) Unhindered (s.restarted d) s')
    (hd : cleanupGrace ≤ d) (hdone : s'.tasks = [.cleanupDir (.done (.ok ()))]) :
    ∃ cutoff now, s.st.now ≤ cutoff ∧
      Reach (step db) Unhindered (passStart db s.st.sql cutoff s.st.fs now) s' := by
  have hinv := h.invariant (I := fun s' =>
    (∃ now, s.st.now + d ≤ now ∧ s' = ⟨⟨s.st.sql, s.st.fs, now⟩, [.cleanupDir .start]⟩) ∨
    ∃ cutoff now, s.st.now ≤ cutoff ∧
      Reach (step db) Unhindered (passStart db s.st.sql cutoff s.st.fs now) s')
    (.inl ⟨_, le_rfl, rfl⟩) ?_
  · rcases hinv with ⟨now, _, rfl⟩ | hpass
    · cases hdone
    · exact hpass
  · rintro s₁ a s₂ hinv hok hs
    rcases hinv with ⟨now, hnow, rfl⟩ | ⟨cutoff, now, hcut, hpass⟩
    · rcases step_alone hs with ⟨c, st', task', rfl, rfl, hstep⟩ | ⟨e, rfl, rfl⟩ | ⟨call, rfl⟩ | rfl
      · right
        obtain ⟨⟨st₁, pc'⟩, hstart, heq⟩ := Option.map_eq_some_iff.mp hstep
        cases heq
        cases c <;> simp only [stepCleanup, reduceCtorEq] at hstart
        cases hstart
        exact ⟨now - cleanupGrace, now, by linarith, .refl⟩
      · left
        exact ⟨now + e, by linarith, rfl⟩
      · exact hok.elim
      · exact hok.elim
    · exact .inr ⟨cutoff, now, hcut, .tail a hpass hok hs⟩

/-- The blob of some row is at the path. -/
def Sql.Blob (db : VmIoDb) (sql : Sql) (p : Path) : Prop :=
  ∃ row ∈ sql.entryFileChunks.rows, p = db.path row.blobId

theorem passed_stays {cutoff now : Time} (htree : s.st.fs.IsTree db.rootDir)
    (hpass : Reach (step db) Unhindered (passStart db s.st.sql cutoff s.st.fs now) s')
    (hdone : s'.tasks = [.cleanupDir (.done (.ok ()))]) {p : Path}
    (hthere : s'.st.fs.node? p ≠ none) :
    (s.st.fs.isDir p ∧ s'.st.fs.isDir p) ∨
      ∃ f, s.st.fs.file? p = some f ∧ s'.st.fs.file? p = some f ∧
        ¬Garbage db s.st.sql cutoff p f := by
  obtain ⟨_, hfiles, hdirs, habsent, _, _⟩ := cleanupDir_exact htree hpass hdone
  rcases Fs.node?_ne_none_iff.mp fun hnone => hthere (habsent p hnone) with ⟨mtime, hm⟩ | ⟨f, hf⟩
  · obtain ⟨hgone, hleft⟩ := hdirs p mtime hm
    exact .inl ⟨⟨mtime, hm⟩, hleft fun hcleared => hthere (hgone.mpr hcleared)⟩
  · obtain ⟨hgone, hleft⟩ := hfiles p f hf
    have hkept : ¬Garbage db s.st.sql cutoff p f := fun hgarbage => hthere (hgone.mpr hgarbage)
    exact .inr ⟨f, hf, hleft hkept, hkept⟩

theorem passed_file_iff {cutoff now : Time} (hs : Shaped db s) (hcut : s.st.now ≤ cutoff)
    (hpass : Reach (step db) Unhindered (passStart db s.st.sql cutoff s.st.fs now) s')
    (hdone : s'.tasks = [.cleanupDir (.done (.ok ()))]) (p : Path) (f : File) :
    s'.st.fs.file? p = some f ↔ s.st.fs.file? p = some f ∧ s.st.sql.Blob db p := by
  obtain ⟨_, _, _, _, hrows, _⟩ := cleanupDir_exact hs.tree hpass hdone
  constructor
  · intro hf
    have hthere : s'.st.fs.node? p ≠ none := Fs.node?_ne_none_iff.mpr (.inr ⟨f, hf⟩)
    rcases passed_stays hs.tree hpass hdone hthere with ⟨_, mtime, hm⟩ | ⟨g, hg, hsame, hleft⟩
    · rw [Fs.file?_eq_some_iff, hm] at hf
      cases hf
    · rw [hf] at hsame
      cases hsame
      refine ⟨hg, ?_⟩
      obtain ⟨b, rfl⟩ := hs.files p f hg
      by_contra hno
      refine hleft ⟨⟨b, rfl, fun row hrow hb => hno ⟨row, hrow, by rw [hb]⟩⟩, ?_⟩
      exact (hs.fileTimes b f hg).trans hcut
  · rintro ⟨hf, row, hrow, rfl⟩
    rw [hrows row hrow]
    exact hf

theorem passed_isDir_iff {cutoff now : Time} (hs : Shaped db s) (hcut : s.st.now ≤ cutoff)
    (hpass : Reach (step db) Unhindered (passStart db s.st.sql cutoff s.st.fs now) s')
    (hdone : s'.tasks = [.cleanupDir (.done (.ok ()))]) (p : Path) :
    s'.st.fs.isDir p ↔ s.st.fs.isDir p ∧
      (p <+: db.rootDir ∨ ∃ q f, p <+: q ∧ s'.st.fs.file? q = some f) := by
  obtain ⟨_, _, hdirs, _⟩ := cleanupDir_exact hs.tree hpass hdone
  have hbefore : ∀ p, s'.st.fs.isDir p → s.st.fs.isDir p := by
    rintro p ⟨mtime, hm⟩
    rcases passed_stays hs.tree hpass hdone (p := p) (by simp [hm]) with ⟨hdir, _⟩ | ⟨g, _, hg, _⟩
    · exact hdir
    · rw [Fs.file?_eq_some_iff, hm] at hg
      cases hg
  constructor
  · intro hp
    refine ⟨hbefore p hp, ?_⟩
    -- from the deepest directories up
    induction hk : db.rootDir.length + shardDepth - p.length using Nat.strong_induction_on
      generalizing p with
    | _ k ih =>
        obtain ⟨mtime, hm⟩ := hbefore p hp
        obtain ⟨b, hb⟩ := hs.dirs p ⟨mtime, hm⟩
        rcases List.prefix_or_prefix_of_prefix hb (rootDir_above db b) with habove | hbelow
        · exact .inl habove
        by_cases hroot : p = db.rootDir
        · exact .inl (hroot ▸ List.prefix_rfl)
        right
        obtain ⟨d, name, hpath, hin, _⟩ := path_shards db b
        rw [hpath, List.dropLast_concat] at hb
        obtain ⟨depth, hdepth, hinp⟩ := hin.of_prefix hbelow hb
        have hleft : ¬Cleared db cutoff s.st.fs s'.st.fs p mtime := by
          intro hcleared
          have hgone := (hdirs p mtime hm).1.mpr hcleared
          obtain ⟨mtime', hm'⟩ := hp
          rw [hgone] at hm'
          contradiction
        have hdeep : ∃ q, p <+: q ∧ q ≠ p ∧ s'.st.fs.node? q ≠ none := by
          by_contra hno
          refine hleft ⟨hinp.shardDir hroot, (hs.dirTimes p mtime hm).trans hcut, ?_⟩
          intro q hpq hne _
          by_contra hsome
          exact hno ⟨q, hpq, hne, hsome⟩
        obtain ⟨q, hpq, hne, hsome⟩ := hdeep
        rcases Fs.node?_ne_none_iff.mp hsome with hdir | ⟨f, hf⟩
        · have hlt : p.length < q.length :=
            lt_of_le_of_ne hpq.length_le fun heq => hne (hpq.eq_of_length heq).symm
          obtain ⟨b', hb'⟩ := hs.dirs q (hbefore q hdir)
          have hbound := hb'.length_le
          rw [List.length_dropLast, db.path_length] at hbound
          have hqroot : ¬q <+: db.rootDir := by
            intro hq
            have := hq.length_le
            have := hbelow.length_le
            omega
          obtain ⟨x, f, hqx, hf⟩ := (ih _ (by omega) q hdir rfl).resolve_left hqroot
          exact ⟨x, f, hpq.trans hqx, hf⟩
        · exact ⟨q, f, hpq, hf⟩
  · rintro ⟨⟨mtime, hm⟩, hstay⟩
    refine (hdirs p mtime hm).2 ?_
    rintro ⟨⟨depth, hdepth, hin⟩, _, hempty⟩
    rcases hstay with habove | ⟨q, f, hpq, hf⟩
    · obtain ⟨shards, rfl, hlen, _⟩ := hin
      have hle := habove.length_le
      rw [List.length_append] at hle
      omega
    · have hwas := ((passed_file_iff hs hcut hpass hdone q f).mp hf).1
      have hne : q ≠ p := by
        rintro rfl
        rw [Fs.file?_eq_some_iff, hm] at hwas
        cases hwas
      have hgone := hempty q hpq hne (Fs.node?_ne_none_iff.mpr (.inr ⟨f, hwas⟩))
      rw [Fs.file?_eq_some_iff, hgone] at hf
      contradiction

/-- Whatever has crashed, failed or overlapped before: a grace period after a crash a pass can
run to its end, and it leaves the blob files of the rows, the directories above them and
nothing else. -/
theorem cleanup_reclaims {ok : Sys → Action → Prop} {now : Time}
    (h : Reach (step db) ok (Sys.init db now) s) (hd : cleanupGrace ≤ d) :
    (∃ s', Reach (step db) Unhindered (s.restarted d) s' ∧
      s'.tasks = [.cleanupDir (.done (.ok ()))]) ∧
    ∀ s', Reach (step db) Unhindered (s.restarted d) s' →
      s'.tasks = [.cleanupDir (.done (.ok ()))] →
      s'.st.sql = s.st.sql ∧
      (∀ p f, s'.st.fs.file? p = some f ↔ s.st.fs.file? p = some f ∧ s.st.sql.Blob db p) ∧
      ∀ p, s'.st.fs.isDir p ↔ s.st.fs.isDir p ∧
        (p <+: db.rootDir ∨ ∃ q f, p <+: q ∧ s'.st.fs.file? q = some f) := by
  have hs := shaped h
  constructor
  · have hroot : (s.restarted d).st.fs.isDir db.rootDir := hs.root
    obtain ⟨st', hpasses⟩ := passes_done hroot
    exact ⟨_, hpasses, rfl⟩
  · intro s' hreach hdone
    obtain ⟨cutoff, now', hcut, hpass⟩ := restarted_passStart hreach hd hdone
    exact ⟨(cleanupDir_exact hs.tree hpass hdone).1, passed_file_iff hs hcut hpass hdone,
      passed_isDir_iff hs hcut hpass hdone⟩

/-- The file of an upload that died before it committed. -/
theorem cleanup_reclaims_orphan : ∃ s, Reach (step Vectors.db) (fun _ _ => True)
      (Sys.init Vectors.db 0) s ∧ (s.st.fs.file? (Vectors.db.path Vectors.keysB.id)).isSome ∧
    ∃ s', Reach (step Vectors.db) Unhindered (s.restarted 300000000) s' ∧
      s'.st.fs.file? (Vectors.db.path Vectors.keysB.id) = none := by
  obtain ⟨s, hreach, hthere, hfree⟩ := Reach.exists_of_runOk (step Vectors.db) (fun _ _ => True)
    (Sys.init Vectors.db 0)
    (Vectors.putEntry 0 ++ .spawn (.upsertChunk Vectors.reqA) :: Vectors.writeSteps 1 ++
      .step 1 .ok :: .spawn (.upsertChunk Vectors.reqB) :: Vectors.writeSteps 2 ++ [.crash])
    (fun s => (s.st.fs.file? (Vectors.db.path Vectors.keysB.id)).isSome ∧
      ∀ row ∈ s.st.sql.entryFileChunks.rows, row.blobId ≠ Vectors.keysB.id) (by decide +kernel)
  obtain ⟨⟨s', hpass, hdone⟩, hleft⟩ := cleanup_reclaims hreach (d := 300000000) (by decide)
  refine ⟨s, hreach, hthere, s', hpass, ?_⟩
  rw [Option.eq_none_iff_forall_ne_some]
  intro f hf
  obtain ⟨row, hrow, hpath⟩ := (((hleft s' hpass hdone).2.1 _ f).mp hf).2
  exact hfree row hrow (Vectors.db.path_injective hpath).symm

theorem sequential_of_quiet {P : ChunkReq → Prop} {a : Action} (hissues : a.issues = false)
    (hstat : StatAnswers s a) : Sequential P s a := by
  refine ⟨?_, fun hyes => ?_, hstat⟩
  · cases a with
    | spawn call => cases hissues
    | _ => exact fun r hr => by cases hr
  · rw [hissues] at hyes
    contradiction

theorem unhindered_sequential {P : ChunkReq → Prop} {a : Action} (h : Unhindered s a) :
    Sequential P s a := by
  cases a with
  | spawn call => exact h.elim
  | step t c =>
      refine sequential_of_quiet rfl ?_
      cases c with
      | fail => exact absurd rfl h
      | _ => trivial
  | tick e => exact sequential_of_quiet rfl trivial
  | crash => exact h.elim

/-- A crash, and a pass that starts when time has passed, are part of a sequential run. -/
theorem restarted_seqReach {P : ChunkReq → Prop} {now : Time} {log : List ChunkReq}
    (h : SeqReach db P now (s, log)) (hreach : Reach (step db) Unhindered (s.restarted d) s') :
    ∃ log', SeqReach db P now (s', log') := by
  have hdied : Reach (step db) (Sequential P) (Sys.init db now) { s with tasks := [] } :=
    .tail .crash (Reach.of_observe h) (sequential_of_quiet rfl trivial) rfl
  have hwaited : Reach (step db) (Sequential P) (Sys.init db now)
      ⟨{ s.st with now := s.st.now + d }, []⟩ :=
    .tail (.tick d) hdied (sequential_of_quiet rfl trivial) rfl
  have hseq : Reach (step db) (Sequential P) (Sys.init db now) (s.restarted d) := by
    refine .tail (.spawn .cleanupDir) hwaited ⟨?_, fun _ task htask => ?_, trivial⟩ rfl
    · exact fun r hr => by cases hr
    · exact absurd htask List.not_mem_nil
  have hrun := hseq.trans (hreach.mono fun _ _ => unhindered_sequential)
  exact Reach.exists_observe recordCommit [] hrun

/-- Where one call runs after another, the pass brings the disk back to the files of the
committed rows, each of its row's size, whatever has failed or died before, and every lookup
answers as before. -/
theorem cleanup_recovers {P : ChunkReq → Prop} (hcf : CollisionFree db P) {now : Time}
    {log : List ChunkReq} (h : SeqReach db P now (s, log)) (hd : cleanupGrace ≤ d)
    (hreach : Reach (step db) Unhindered (s.restarted d) s')
    (hdone : s'.tasks = [.cleanupDir (.done (.ok ()))]) :
    s'.st.sql = s.st.sql ∧
    {p | ∃ f, s'.st.fs.file? p = some f} = {p | s'.st.sql.Blob db p} ∧
    (∀ row ∈ s'.st.sql.entryFileChunks.rows,
      ∃ f, s'.st.fs.file? (db.path row.blobId) = some f ∧ (f.data.length : ℤ) = row.size) ∧
    ∀ cls key idx isFinal,
      getChunk db s'.st cls key idx isFinal = getChunk db s.st cls key idx isFinal := by
  obtain ⟨hsql, hfiles, _⟩ := (cleanup_reclaims (Reach.of_observe h) hd).2 s' hreach hdone
  obtain ⟨log', h'⟩ := restarted_seqReach h hreach
  obtain ⟨hprov, hfilesOk, _⟩ := seqReach_invariants hcf h'
  have hthere : ∀ row ∈ s'.st.sql.entryFileChunks.rows,
      ∃ f, s'.st.fs.file? (db.path row.blobId) = some f ∧ (f.data.length : ℤ) = row.size := by
    intro row hrow
    obtain ⟨r, hr, rfl⟩ := hprov.rows row hrow
    obtain ⟨f, hf, hdata⟩ := hfilesOk.committed r hr fun hfree => hfree _ hrow rfl
    exact ⟨f, hf, by rw [hdata]; rfl⟩
  refine ⟨hsql, ?_, hthere, getChunk_congr hcf h h' (by rw [hsql])⟩
  ext p
  constructor
  · rintro ⟨f, hf⟩
    exact hsql ▸ ((hfiles p f).mp hf).2
  · rintro ⟨row, hrow, rfl⟩
    obtain ⟨f, hf, _⟩ := hthere row hrow
    exact ⟨f, hf⟩

/-- A chunk is committed, the process dies while it is being replaced, and a pass cleans up. -/
theorem cleanup_recovers_crash : ∃ s' : Sys,
    s'.st.sql.entryFileChunks.rows = [Vectors.db.row Vectors.reqA] ∧
    {p | ∃ f, s'.st.fs.file? p = some f} = {p | s'.st.sql.Blob Vectors.db p} := by
  obtain ⟨⟨s, log⟩, hreach, hrows⟩ := Reach.exists_of_runOk
    (observe (step Vectors.db) recordCommit)
    (fun p a => Sequential Vectors.uploads p.1 a) ((Sys.init Vectors.db 0, []))
    (Vectors.putEntry 0 ++ .spawn (.upsertChunk Vectors.reqA) :: Vectors.writeSteps 1 ++
      .step 1 .ok :: .spawn (.upsertChunk Vectors.reqB) :: Vectors.writeSteps 2 ++ [.crash])
    (fun p => p.1.st.sql.entryFileChunks.rows = [Vectors.db.row Vectors.reqA]) (by decide +kernel)
  have hroot : (s.restarted 300000000).st.fs.isDir Vectors.db.rootDir :=
    (shaped (Reach.of_observe hreach)).root
  obtain ⟨st', hpass⟩ := passes_done hroot
  obtain ⟨hsql, hfiles, _⟩ :=
    cleanup_recovers Vectors.collisionFree hreach (by decide) hpass rfl
  exact ⟨_, by rw [hsql]; exact hrows, hfiles⟩

end Pass

end VmIo.Db
