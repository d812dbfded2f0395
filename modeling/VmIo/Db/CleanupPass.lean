import VmIo.Db.Vectors

/-!
A cleanup pass with nothing else running, over any directory tree.

The pass keeps a stack of the directories it is in. A path is pending while its
walk has yet to come to it, open while the pass is in it, and settled once the
walk has passed it. A pending path is as it was before the pass, and a settled
one has been removed if and only if it is garbage (`Settled`). At the end
everything is settled (`cleanupDir_exact`).
-/

namespace VmIo.Db

open VmIo.Lib

/-! ### What a pass removes -/

/-- `depth` shard directories below the root. -/
def InShards (root : Path) (depth : ℕ) (p : Path) : Prop :=
  ∃ shards, p = root ++ shards ∧ shards.length = depth ∧ depth ≤ shardDepth ∧
    ∀ s ∈ shards, isShardName s = true

def ShardDir (root p : Path) : Prop := ∃ depth, 1 ≤ depth ∧ InShards root depth p

/-- An old file where the blob of an id would be that no row references. -/
def Garbage (db : VmIoDb) (sql : Sql) (cutoff : Time) (p : Path) (f : File) : Prop :=
  (∃ id, p = db.path id ∧ ∀ row ∈ sql.entryFileChunks.rows, row.blobId ≠ id) ∧ f.mtime ≤ cutoff

/-- An old shard directory. Everything that was in it before the pass is gone. -/
def Cleared (db : VmIoDb) (cutoff : Time) (before after : Fs) (p : Path) (mtime : Time) : Prop :=
  ShardDir db.rootDir p ∧ mtime ≤ cutoff ∧
    ∀ q, p <+: q → q ≠ p → before.node? q ≠ none → after.node? q = none

/-- What the pass makes of a path. -/
structure Settled (db : VmIoDb) (sql : Sql) (cutoff : Time) (before after : Fs) (p : Path) :
    Prop where
  absent : before.node? p = none → after.node? p = none
  file : ∀ f, before.node? p = some (.file f) →
    (Garbage db sql cutoff p f ∧ after.node? p = none) ∨
    (¬Garbage db sql cutoff p f ∧ after.node? p = before.node? p)
  dir : ∀ mtime, before.node? p = some (.dir mtime) →
    (Cleared db cutoff before after p mtime ∧ after.node? p = none) ∨
    (¬Cleared db cutoff before after p mtime ∧ after.isDir p ∧
      (¬ShardDir db.rootDir p → after.node? p = before.node? p))

section

variable {db : VmIoDb} {sql : Sql} {cutoff : Time} {before after after' : Fs}

theorem InShards.of_prefix {root p q : Path} {depth : ℕ} (h : InShards root depth p)
    (hroot : root <+: q) (hq : q <+: p) : ∃ d ≤ depth, InShards root d q := by
  obtain ⟨shards, rfl, hlen, hdepth, hall⟩ := h
  obtain ⟨some, rfl⟩ := hroot
  have hsome : some <+: shards := (List.prefix_append_right_inj root).mp hq
  have hle := hsome.length_le
  exact ⟨some.length, by omega, some, rfl, rfl, by omega, fun s hs => hall s (hsome.subset hs)⟩

theorem InShards.isPrefix {root p : Path} {depth : ℕ} (h : InShards root depth p) : root <+: p := by
  obtain ⟨shards, rfl, _⟩ := h
  exact List.prefix_append root shards

theorem InShards.shardDir {root p : Path} {depth : ℕ} (h : InShards root depth p) (hne : p ≠ root) :
    ShardDir root p := by
  refine ⟨depth, Nat.one_le_iff_ne_zero.mpr ?_, h⟩
  rintro rfl
  obtain ⟨shards, rfl, hlen, _⟩ := h
  rw [List.length_eq_zero_iff.mp hlen, List.append_nil] at hne
  exact hne rfl

theorem InShards.depth_eq {root p : Path} {d d' : ℕ} (h : InShards root d p)
    (h' : InShards root d' p) : d = d' := by
  obtain ⟨shards, rfl, rfl, _⟩ := h
  obtain ⟨shards', heq, rfl, _⟩ := h'
  rw [List.append_cancel_left heq]

theorem inShards_append {root p : Path} {depth d : ℕ} {name : String} (h : InShards root depth p) :
    InShards root d (p ++ [name]) ↔ d = depth + 1 ∧ d ≤ shardDepth ∧ isShardName name = true := by
  obtain ⟨shards, rfl, rfl, _, hall⟩ := h
  constructor
  · rintro ⟨shards', heq, rfl, hle, hall'⟩
    rw [List.append_assoc, List.append_cancel_left_eq] at heq
    subst heq
    exact ⟨by simp, hle, hall' name (by simp)⟩
  · rintro ⟨rfl, hle, hname⟩
    refine ⟨shards ++ [name], by simp, by simp, hle, ?_⟩
    intro s hs
    rcases List.mem_append.mp hs with hs | hs
    · exact hall s hs
    · rw [List.mem_singleton.mp hs]
      exact hname

theorem path_shards (db : VmIoDb) (id : Digest) :
    ∃ d name, db.path id = d ++ [name] ∧ InShards db.rootDir shardDepth d ∧
      parseName name = some id := by
  obtain ⟨shards, name, hpath, hlen, hall, hparse⟩ := idPath_shards db.rootDir id
  exact ⟨db.rootDir ++ shards, name, hpath, ⟨shards, rfl, hlen, le_rfl, hall⟩, hparse⟩

theorem path_eq_append {d : Path} {name : String} {id : Digest} (h : db.path id = d ++ [name]) :
    InShards db.rootDir shardDepth d ∧ parseName name = some id := by
  obtain ⟨d', name', hpath, hin, hparse⟩ := path_shards db id
  obtain ⟨rfl, hname⟩ := List.append_inj' (hpath.symm.trans h) rfl
  cases hname
  exact ⟨hin, hparse⟩

theorem Settled.kept {p : Path} (h : after.node? p = before.node? p)
    (hfile : ∀ f, before.node? p = some (.file f) → ¬Garbage db sql cutoff p f)
    (hdir : ∀ mtime, before.node? p = some (.dir mtime) →
      ¬Cleared db cutoff before after p mtime) :
    Settled db sql cutoff before after p where
  absent hp := h.trans hp
  file f hf := .inr ⟨hfile f hf, h⟩
  dir mtime hm := .inr ⟨hdir mtime hm, ⟨mtime, h.trans hm⟩, fun _ => h⟩

theorem Settled.of_none {p : Path} (h : before.node? p = none) (h' : after.node? p = none) :
    Settled db sql cutoff before after p :=
  .kept (h'.trans h.symm) (by simp [h]) (by simp [h])

theorem Settled.removed {p x : Path} (h : Settled db sql cutoff before after p)
    (hrem : after.Removed after' x) (hx : p ≠ x) (hd : p ≠ x.dropLast)
    (hbelow : ShardDir db.rootDir p → ¬p <+: x) : Settled db sql cutoff before after' p := by
  have hsame := hrem.same p hx hd
  have hcleared : ∀ mtime, Cleared db cutoff before after' p mtime ↔
      Cleared db cutoff before after p mtime := by
    intro mtime
    refine and_congr_right fun hshard => and_congr_right fun _ => forall_congr' fun q =>
      forall_congr' fun hpq => forall_congr' fun _ => forall_congr' fun _ => ?_
    apply hrem.absent
    rintro rfl
    exact hbelow hshard hpq
  refine ⟨fun hp => hsame.trans (h.absent hp), fun f hf => ?_, fun mtime hm => ?_⟩
  · rw [hsame]
    exact h.file f hf
  · rw [hcleared, hsame]
    rcases h.dir mtime hm with hgone | ⟨hleft, hdir, hkept⟩
    · exact .inl hgone
    · exact .inr ⟨hleft, hrem.isDir p hx hdir, hkept⟩

theorem Settled.file_iff {p : Path} {f : File} (h : Settled db sql cutoff before after p)
    (hf : before.file? p = some f) :
    (after.node? p = none ↔ Garbage db sql cutoff p f) ∧
      (¬Garbage db sql cutoff p f → after.file? p = some f) := by
  rw [Fs.file?_eq_some_iff] at hf ⊢
  rcases h.file f hf with ⟨hgarbage, hgone⟩ | ⟨hleft, hsame⟩
  · exact ⟨iff_of_true hgone hgarbage, fun hno => absurd hgarbage hno⟩
  · rw [hsame, hf]
    exact ⟨iff_of_false (Option.some_ne_none _) hleft, fun _ => rfl⟩

theorem Settled.dir_iff {p : Path} {mtime : Time} (h : Settled db sql cutoff before after p)
    (hm : before.node? p = some (.dir mtime)) :
    (after.node? p = none ↔ Cleared db cutoff before after p mtime) ∧
      (¬Cleared db cutoff before after p mtime → after.isDir p) := by
  rcases h.dir mtime hm with ⟨hcleared, hgone⟩ | ⟨hleft, hdir, _⟩
  · exact ⟨iff_of_true hgone hcleared, fun hno => absurd hcleared hno⟩
  · refine ⟨iff_of_false ?_ hleft, fun _ => hdir⟩
    obtain ⟨mtime', hdir⟩ := hdir
    rw [hdir]
    exact Option.some_ne_none _

theorem Settled.referenced {row : ChunkRow}
    (h : Settled db sql cutoff before after (db.path row.blobId))
    (hrow : row ∈ sql.entryFileChunks.rows) :
    after.file? (db.path row.blobId) = before.file? (db.path row.blobId) := by
  cases hnode : before.node? (db.path row.blobId) with
  | none => simp [Fs.file?, hnode, h.absent hnode]
  | some n =>
      cases n with
      | file f =>
          rcases h.file f hnode with ⟨⟨⟨id, hid, hno⟩, _⟩, _⟩ | ⟨_, hsame⟩
          · exact absurd (idPath_injective hid) (hno row hrow)
          · simp [Fs.file?, hsame]
      | dir mtime =>
          rcases h.dir mtime hnode with ⟨_, hgone⟩ | ⟨_, ⟨mtime', hdir⟩, _⟩
          · simp [Fs.file?, hnode, hgone]
          · simp [Fs.file?, hnode, hdir]

theorem Settled.outside {p : Path} (h : Settled db sql cutoff before after p)
    (hshard : ¬ShardDir db.rootDir p) (hblob : ∀ id, p ≠ db.path id) :
    after.node? p = before.node? p := by
  cases hnode : before.node? p with
  | none => exact h.absent hnode
  | some n =>
      cases n with
      | file f =>
          rcases h.file f hnode with ⟨⟨⟨id, hid, _⟩, _⟩, _⟩ | ⟨_, hsame⟩
          · exact absurd hid (hblob id)
          · exact hsame.trans hnode
      | dir mtime =>
          rcases h.dir mtime hnode with ⟨⟨hin, _⟩, _⟩ | ⟨_, _, hsame⟩
          · exact absurd hin hshard
          · exact (hsame hshard).trans hnode

theorem not_cleared_root (mtime : Time) : ¬Cleared db cutoff before after db.rootDir mtime := by
  rintro ⟨⟨depth, hdeep, shards, heq, hlen, _⟩, _⟩
  have hnil : shards = [] := List.self_eq_append_right.mp heq
  rw [hnil, List.length_nil] at hlen
  omega

end

/-! ### The stack of a pass -/

/-- The activations on the way from the root to a path. Each has taken its next
name out of what it has yet to do. -/
inductive Encloses (root : Path) : List Frame → Path → Prop
  | root : Encloses root [] root
  | inside {frames : List Frame} {frame : Frame} {name : String}
      (h : Encloses root frames frame.dir) (hname : name ∉ frame.todo) :
      Encloses root (frame :: frames) (frame.dir ++ [name])

/-- The walk has yet to come to the path. -/
def Pending (frames : List Frame) (p : Path) : Prop :=
  ∃ frame ∈ frames, ∃ name ∈ frame.todo, frame.dir ++ [name] <+: p

section

variable {root x : Path} {frames : List Frame}

theorem Encloses.isPrefix (h : Encloses root frames x) : root <+: x := by
  induction h with
  | root => exact List.prefix_rfl
  | inside h _ ih => exact ih.trans (List.prefix_append _ _)

theorem Encloses.length_lt (h : Encloses root frames x) {frame : Frame} (hf : frame ∈ frames) :
    frame.dir.length < x.length := by
  induction h with
  | root => contradiction
  | inside h _ ih =>
      rw [List.length_append, List.length_singleton]
      rcases List.mem_cons.mp hf with rfl | hf
      · omega
      · have := ih hf
        omega

theorem Encloses.not_pending (h : Encloses root frames x) : ¬Pending frames x := by
  induction h with
  | root =>
      rintro ⟨_, hf, _⟩
      contradiction
  | @inside frames frame name h hname ih =>
      rintro ⟨g, hg, n, hn, hpre⟩
      rcases List.mem_cons.mp hg with rfl | hg
      · have hsame := (List.prefix_append_right_inj g.dir).mp hpre
        obtain rfl : n = name := by simpa using hsame
        exact hname hn
      · have hlen := h.length_lt hg
        refine ih ⟨g, hg, n, hn, ?_⟩
        refine List.prefix_of_prefix_length_le hpre (List.prefix_append _ _) ?_
        rw [List.length_append, List.length_singleton]
        omega

theorem Encloses.not_pending_below (h : Encloses root frames x) {q : Path} (hq : x <+: q) :
    ¬Pending frames q := by
  rintro ⟨g, hg, n, hn, hpre⟩
  have hlen := h.length_lt hg
  refine h.not_pending ⟨g, hg, n, hn, List.prefix_of_prefix_length_le hpre hq ?_⟩
  rw [List.length_append, List.length_singleton]
  omega

theorem Encloses.open_above (h : Encloses root frames x) {p : Path} (hroot : root <+: p)
    (hp : p <+: x) : p = x ∨ ∃ frame ∈ frames, frame.dir = p := by
  induction h with
  | root => exact .inl (hp.eq_of_length_le hroot.length_le)
  | @inside frames frame name h hname ih =>
      rcases List.prefix_concat_iff.mp hp with heq | hp
      · exact .inl heq
      · right
        rcases ih hp with rfl | ⟨g, hg, hdir⟩
        · exact ⟨frame, List.mem_cons_self, rfl⟩
        · exact ⟨g, List.mem_cons_of_mem _ hg, hdir⟩

end

/-- An activation: where it is, and what its caller saw of the directory. -/
structure FrameOk (db : VmIoDb) (cutoff : Time) (before after : Fs) (frame : Frame) : Prop where
  place : InShards db.rootDir frame.depth frame.dir
  was : before.isDir frame.dir
  dir : after.isDir frame.dir
  stale : frame.dir ≠ db.rootDir → ∃ mtime, before.node? frame.dir = some (.dir mtime) ∧
    (frame.stale = true ↔ mtime ≤ cutoff)
  todo : frame.todo.Nodup

/-- The pass is in the directory `frame.dir` and no item of it is under way. -/
structure Walk (db : VmIoDb) (sql : Sql) (cutoff : Time) (before after : Fs) (frame : Frame)
    (frames : List Frame) : Prop where
  encloses : Encloses db.rootDir frames frame.dir
  ok : ∀ g ∈ frame :: frames, FrameOk db cutoff before after g
  pending : ∀ p, Pending (frame :: frames) p → after.node? p = before.node? p
  settled : ∀ p, ¬Pending (frame :: frames) p → (∀ g ∈ frame :: frames, g.dir ≠ p) →
    Settled db sql cutoff before after p

/-- The pass has taken up the path `item`, which is as before with all below it. -/
structure AtItem (db : VmIoDb) (sql : Sql) (cutoff : Time) (before after : Fs) (item : Path)
    (frames : List Frame) : Prop where
  encloses : Encloses db.rootDir frames item
  ok : ∀ g ∈ frames, FrameOk db cutoff before after g
  untouched : ∀ p, item <+: p → after.node? p = before.node? p
  pending : ∀ p, Pending frames p → after.node? p = before.node? p
  settled : ∀ p, ¬item <+: p → ¬Pending frames p → (∀ g ∈ frames, g.dir ≠ p) →
    Settled db sql cutoff before after p

section

variable {db : VmIoDb} {sql : Sql} {cutoff : Time} {before after after' : Fs} {frame : Frame}
  {frames : List Frame} {item : Path}

theorem atItem_root (db : VmIoDb) (sql : Sql) (cutoff : Time) (before : Fs) :
    AtItem db sql cutoff before before db.rootDir [] where
  encloses := .root
  ok := by simp
  untouched _ _ := rfl
  pending _ _ := rfl
  settled p hp _ _ := by
    refine .kept rfl (fun f hf hgarbage => hp ?_) (fun mtime hm hcleared => hp ?_)
    · obtain ⟨⟨id, rfl, _⟩, _⟩ := hgarbage
      exact List.prefix_append _ _
    · obtain ⟨⟨depth, _, hin⟩, _⟩ := hcleared
      exact hin.isPrefix

theorem AtItem.enter (htree : before.IsTree db.rootDir)
    (h : AtItem db sql cutoff before after item frames) {depth : ℕ} {stale : Bool}
    {names : List String} (hframe : FrameOk db cutoff before after ⟨item, depth, stale, names⟩)
    (hlist : ∀ name ∈ after.children item, name ∈ names) :
    Walk db sql cutoff before after ⟨item, depth, stale, names⟩ frames where
  encloses := h.encloses
  ok := by
    intro g hg
    rcases List.mem_cons.mp hg with rfl | hg
    · exact hframe
    · exact h.ok g hg
  pending := by
    rintro p ⟨g, hg, name, hname, hpre⟩
    rcases List.mem_cons.mp hg with rfl | hg
    · exact h.untouched p ((List.prefix_append _ _).trans hpre)
    · exact h.pending p ⟨g, hg, name, hname, hpre⟩
  settled := by
    intro p hpend hopen
    by_cases hp : item <+: p
    · obtain ⟨rest, rfl⟩ := hp
      cases rest with
      | nil => exact absurd (List.append_nil item).symm (hopen _ List.mem_cons_self)
      | cons name rest =>
          have hname : name ∉ names := by
            intro hin
            refine hpend ⟨_, List.mem_cons_self, name, hin, ?_⟩
            show item ++ [name] <+: item ++ name :: rest
            exact ⟨rest, by simp⟩
          have hnone : before.node? (item ++ [name]) = none := by
            by_contra hsome
            rw [← h.untouched _ (List.prefix_append _ _)] at hsome
            exact hname (hlist name (Fs.mem_children.mpr hsome))
          have hbelow : before.node? (item ++ name :: rest) = none := by
            rw [List.append_cons]
            by_cases hrest : rest = []
            · rw [hrest, List.append_nil, hnone]
            · refine htree.below_none (h.encloses.isPrefix.trans (List.prefix_append _ _)) ?_
                (List.prefix_append _ _) (by simpa using hrest)
              rintro ⟨mtime, hdir⟩
              rw [hnone] at hdir
              contradiction
          exact .of_none hbelow ((h.untouched _ (List.prefix_append _ _)).trans hbelow)
    · refine h.settled p hp (fun ⟨g, hg, hpre⟩ => hpend ⟨g, List.mem_cons_of_mem _ hg, hpre⟩) ?_
      exact fun g hg => hopen g (List.mem_cons_of_mem _ hg)

theorem Walk.take {dir : Path} {depth : ℕ} {stale : Bool} {name : String} {todo : List String}
    (h : Walk db sql cutoff before after ⟨dir, depth, stale, name :: todo⟩ frames) :
    AtItem db sql cutoff before after (dir ++ [name]) (⟨dir, depth, stale, todo⟩ :: frames) := by
  have hframe := h.ok _ List.mem_cons_self
  have hnodup := List.nodup_cons.mp hframe.todo
  have hpend : ∀ p, Pending (⟨dir, depth, stale, name :: todo⟩ :: frames) p ↔
      dir ++ [name] <+: p ∨ Pending (⟨dir, depth, stale, todo⟩ :: frames) p := by
    intro p
    simp [Pending, or_assoc]
  refine ⟨.inside h.encloses hnodup.1, ?_, ?_, ?_, ?_⟩
  · intro g hg
    rcases List.mem_cons.mp hg with rfl | hg
    · exact { hframe with todo := hnodup.2 }
    · exact h.ok g (List.mem_cons_of_mem _ hg)
  · exact fun p hp => h.pending p ((hpend p).mpr (.inl hp))
  · exact fun p hp => h.pending p ((hpend p).mpr (.inr hp))
  · intro p hp hp' hopen
    refine h.settled p (fun hor => ((hpend p).mp hor).elim hp hp') fun g hg => ?_
    rcases List.mem_cons.mp hg with rfl | hg
    · exact hopen ⟨dir, depth, stale, todo⟩ List.mem_cons_self
    · exact hopen g (List.mem_cons_of_mem _ hg)

theorem Encloses.parent {root : Path} (h : Encloses root (frame :: frames) item) :
    Encloses root frames frame.dir ∧ item.dropLast = frame.dir := by
  cases h with
  | inside h _ => exact ⟨h, List.dropLast_concat⟩

theorem Encloses.dir_not_pending {root : Path} (h : Encloses root frames frame.dir) :
    ¬Pending (frame :: frames) frame.dir := by
  rintro ⟨g, hg, name, hname, hpre⟩
  rcases List.mem_cons.mp hg with rfl | hg
  · have hlen := hpre.length_le
    rw [List.length_append, List.length_singleton] at hlen
    omega
  · exact h.not_pending ⟨g, hg, name, hname, hpre⟩

theorem AtItem.settle (h : AtItem db sql cutoff before after item (frame :: frames))
    (hitem : ∀ p, item <+: p → Settled db sql cutoff before after p) :
    Walk db sql cutoff before after frame frames where
  encloses := h.encloses.parent.1
  ok := h.ok
  pending := h.pending
  settled := by
    intro p hpend hopen
    by_cases hp : item <+: p
    · exact hitem p hp
    · exact h.settled p hp hpend hopen

theorem walk_of_removed (henc : Encloses db.rootDir (frame :: frames) item)
    (hok : ∀ g ∈ frame :: frames, FrameOk db cutoff before after g)
    (hpend : ∀ p, Pending (frame :: frames) p → after.node? p = before.node? p)
    (hset : ∀ p, p ≠ item → ¬Pending (frame :: frames) p →
      (∀ g ∈ frame :: frames, g.dir ≠ p) → Settled db sql cutoff before after p)
    (hrem : after.Removed after' item) (hitem : Settled db sql cutoff before after' item) :
    Walk db sql cutoff before after' frame frames := by
  obtain ⟨hdir, hparent⟩ := henc.parent
  refine ⟨hdir, fun g hg => ?_, fun p hp => ?_, fun p hp hopen => ?_⟩
  · have hne : g.dir ≠ item := by
      intro heq
      have hlt := henc.length_lt hg
      rw [heq] at hlt
      omega
    exact { hok g hg with dir := hrem.isDir g.dir hne (hok g hg).dir }
  · have hne : p ≠ item := by
      rintro rfl
      exact henc.not_pending hp
    have hne' : p ≠ item.dropLast := by
      rintro rfl
      rw [hparent] at hp
      exact hdir.dir_not_pending hp
    rw [hrem.same p hne hne', hpend p hp]
  · by_cases hpx : p = item
    · exact hpx ▸ hitem
    · refine (hset p hpx hp hopen).removed hrem hpx ?_ ?_
      · rw [hparent]
        exact (hopen frame List.mem_cons_self).symm
      · rintro ⟨depth, _, hin⟩ hbelow
        rcases henc.open_above hin.isPrefix hbelow with heq | ⟨g, hg, heq⟩
        · exact hpx heq
        · exact hopen g hg heq

theorem AtItem.removeFile (htree : before.IsTree db.rootDir)
    (h : AtItem db sql cutoff before after item (frame :: frames)) {f : File}
    (hf : before.node? item = some (.file f)) (hgarbage : Garbage db sql cutoff item f)
    (hrem : after.Removed after' item) : Walk db sql cutoff before after' frame frames := by
  refine walk_of_removed h.encloses h.ok h.pending (fun p hne hp hopen => ?_) hrem ?_
  · by_cases hbelow : item <+: p
    · have hnone : before.node? p = none := by
        refine htree.below_none h.encloses.isPrefix ?_ hbelow hne
        rintro ⟨mtime, hdir⟩
        rw [hf] at hdir
        cases hdir
      exact .of_none hnone ((h.untouched p hbelow).trans hnone)
    · exact h.settled p hbelow hp hopen
  · refine ⟨fun _ => hrem.gone, fun g hg => ?_, fun mtime hm => ?_⟩
    · rw [hf] at hg
      cases hg
      exact .inl ⟨hgarbage, hrem.gone⟩
    · rw [hf] at hm
      cases hm

theorem Walk.leave {g : Frame} (h : Walk db sql cutoff before after frame (g :: frames))
    (htodo : frame.todo = []) (hleft : Settled db sql cutoff before after frame.dir) :
    Walk db sql cutoff before after g frames := by
  have hpend : ∀ p, Pending (frame :: g :: frames) p ↔ Pending (g :: frames) p := by
    intro p
    simp [Pending, htodo]
  refine ⟨h.encloses.parent.1, fun f hf => h.ok f (List.mem_cons_of_mem _ hf),
    fun p hp => h.pending p ((hpend p).mpr hp), fun p hp hopen => ?_⟩
  by_cases hpd : p = frame.dir
  · exact hpd ▸ hleft
  · refine h.settled p (fun hp' => hp ((hpend p).mp hp')) fun f hf => ?_
    rcases List.mem_cons.mp hf with rfl | hf
    · exact Ne.symm hpd
    · exact hopen f hf

theorem Walk.settled_below (h : Walk db sql cutoff before after frame frames)
    (htodo : frame.todo = []) {p : Path} (hp : frame.dir <+: p) (hne : p ≠ frame.dir) :
    Settled db sql cutoff before after p := by
  refine h.settled p ?_ fun g hg => ?_
  · rintro ⟨g, hg, name, hname, hpre⟩
    rcases List.mem_cons.mp hg with rfl | hg
    · rw [htodo] at hname
      contradiction
    · exact h.encloses.not_pending_below hp ⟨g, hg, name, hname, hpre⟩
  · rintro rfl
    rcases List.mem_cons.mp hg with rfl | hg
    · exact hne rfl
    · have hlt := h.encloses.length_lt hg
      have hle := hp.length_le
      omega

/-- What is left in a directory that the walk is done with shows in its listing. -/
theorem Walk.below_none (htree : before.IsTree db.rootDir)
    (h : Walk db sql cutoff before after frame frames) (htodo : frame.todo = [])
    (hempty : after.children frame.dir = []) {q : Path} (hq : frame.dir <+: q)
    (hne : q ≠ frame.dir) : after.node? q = none := by
  obtain ⟨rest, rfl⟩ := hq
  cases rest with
  | nil => exact absurd (List.append_nil _) hne
  | cons name rest =>
      have hchild : after.node? (frame.dir ++ [name]) = none := by
        by_contra hsome
        have hin := Fs.mem_children.mpr hsome
        rw [hempty] at hin
        contradiction
      have hset := h.settled_below htodo (List.prefix_append _ (name :: rest)) hne
      by_cases hrest : rest = []
      · rw [hrest]
        exact hchild
      · by_cases hnone : before.node? (frame.dir ++ name :: rest) = none
        · exact hset.absent hnone
        · -- it was in a directory that is gone, so that directory was cleared
          have hpre : frame.dir ++ [name] <+: frame.dir ++ name :: rest := ⟨rest, by simp⟩
          have hlonger : frame.dir ++ name :: rest ≠ frame.dir ++ [name] := by simpa using hrest
          have hroot := h.encloses.isPrefix.trans (List.prefix_append frame.dir [name])
          have hdir : before.isDir (frame.dir ++ [name]) := by
            by_contra hdir
            exact hnone (htree.below_none hroot hdir hpre hlonger)
          obtain ⟨mtime, hdir⟩ := hdir
          have hset' := h.settled_below htodo (List.prefix_append frame.dir [name]) (by simp)
          rcases hset'.dir mtime hdir with ⟨hcleared, _⟩ | ⟨_, ⟨mtime', hleft⟩, _⟩
          · exact hcleared.2.2 _ hpre hlonger hnone
          · rw [hchild] at hleft
            contradiction

theorem Walk.dir_ne_root {g : Frame} (h : Walk db sql cutoff before after frame (g :: frames)) :
    frame.dir ≠ db.rootDir := by
  intro heq
  have hlt := h.encloses.length_lt List.mem_cons_self
  have hle := h.encloses.parent.1.isPrefix.length_le
  rw [heq] at hlt
  omega

theorem Walk.removeDir (htree : before.IsTree db.rootDir) {g : Frame}
    (h : Walk db sql cutoff before after frame (g :: frames)) (htodo : frame.todo = [])
    (hstale : frame.stale = true) (hempty : after.children frame.dir = [])
    (hrem : after.Removed after' frame.dir) : Walk db sql cutoff before after' g frames := by
  have hpend : ∀ p, Pending (frame :: g :: frames) p ↔ Pending (g :: frames) p := by
    intro p
    simp [Pending, htodo]
  have hframe := h.ok frame List.mem_cons_self
  refine walk_of_removed h.encloses (fun f hf => h.ok f (List.mem_cons_of_mem _ hf))
    (fun p hp => h.pending p ((hpend p).mpr hp)) (fun p hne hp hopen => ?_) hrem ?_
  · refine h.settled p (fun hp' => hp ((hpend p).mp hp')) fun f hf => ?_
    rcases List.mem_cons.mp hf with rfl | hf
    · exact Ne.symm hne
    · exact hopen f hf
  · have hdeep := h.dir_ne_root
    obtain ⟨mtime, hm, hold⟩ := hframe.stale hdeep
    refine ⟨fun _ => hrem.gone, fun f hf => ?_, fun mtime' hm' => .inl ⟨⟨?_, ?_, ?_⟩, hrem.gone⟩⟩
    · rw [hm] at hf
      cases hf
    · exact hframe.place.shardDir hdeep
    · rw [hm] at hm'
      cases hm'
      exact hold.mp hstale
    · intro q hq hne _
      rw [hrem.absent q hne]
      exact h.below_none htree htodo hempty hq hne

/-! ### What the pass leaves -/

theorem outside_layout {d p : Path} {depth : ℕ} {name : String} (h : InShards db.rootDir depth d)
    (hout : shardDepth ≤ depth ∨ isShardName name = false) (hp : d ++ [name] <+: p) :
    ¬ShardDir db.rootDir p ∧ ∀ id, p = db.path id → p = d ++ [name] := by
  have hroot : db.rootDir <+: d ++ [name] := h.isPrefix.trans (List.prefix_append _ _)
  have hno : ∀ {k q}, InShards db.rootDir k q → ¬d ++ [name] <+: q := by
    intro k q hin hpre
    obtain ⟨j, _, hj⟩ := hin.of_prefix hroot hpre
    obtain ⟨rfl, hle, hname⟩ := (inShards_append h).mp hj
    rcases hout with hdeep | hname'
    · omega
    · rw [hname] at hname'
      contradiction
  refine ⟨fun ⟨k, _, hin⟩ => hno hin hp, ?_⟩
  rintro id rfl
  obtain ⟨d', name', hpath, hin, _⟩ := path_shards db id
  rw [hpath] at hp ⊢
  rcases List.prefix_concat_iff.mp hp with heq | hpre
  · exact heq.symm
  · exact absurd hpre (hno hin)

theorem AtItem.leave_outside {name : String}
    (h : AtItem db sql cutoff before after (frame.dir ++ [name]) (frame :: frames))
    (hdir : before.isDir (frame.dir ++ [name]))
    (hout : shardDepth ≤ frame.depth ∨ isShardName name = false) {p : Path}
    (hp : frame.dir ++ [name] <+: p) : Settled db sql cutoff before after p := by
  have hplace := (h.ok frame List.mem_cons_self).place
  obtain ⟨hshard, hpath⟩ := outside_layout hplace hout hp
  refine .kept (h.untouched p hp) (fun f hf hgarbage => ?_) fun _ _ hcleared => hshard hcleared.1
  obtain ⟨⟨id, hid, _⟩, _⟩ := hgarbage
  obtain ⟨mtime, hdir⟩ := hdir
  rw [hpath id hid, hdir] at hf
  cases hf

theorem AtItem.leave_file (htree : before.IsTree db.rootDir)
    (h : AtItem db sql cutoff before after item frames) (hdir : ¬before.isDir item)
    (hno : ∀ f, before.node? item = some (.file f) → ¬Garbage db sql cutoff item f) {p : Path}
    (hp : item <+: p) : Settled db sql cutoff before after p := by
  by_cases hpi : p = item
  · subst hpi
    exact .kept (h.untouched p hp) hno fun mtime hm => absurd ⟨mtime, hm⟩ hdir
  · have hnone := htree.below_none h.encloses.isPrefix hdir hp hpi
    exact .of_none hnone ((h.untouched p hp).trans hnone)

end

/-! ### The steps of a pass -/

/-- What is known of a pass at each of its steps. -/
def PassState (db : VmIoDb) (sql : Sql) (cutoff : Time) (before : Fs) (st : Store) :
    CleanupPc → Prop
  | .start => False
  | .readDir k dir depth stale stack => k = cutoff ∧
      AtItem db sql cutoff before st.fs dir stack ∧ InShards db.rootDir depth dir ∧
      (dir ≠ db.rootDir → ∃ mtime, before.node? dir = some (.dir mtime) ∧
        (stale = true ↔ mtime ≤ cutoff))
  | .next k stack => k = cutoff ∧ ∃ frame frames, stack = frame :: frames ∧
      Walk db sql cutoff before st.fs frame frames
  | .stat k name stack => k = cutoff ∧ ∃ frame frames, stack = frame :: frames ∧
      AtItem db sql cutoff before st.fs (frame.dir ++ [name]) (frame :: frames)
  | .query k id _ stack => k = cutoff ∧ ∃ frame frames, stack = frame :: frames ∧
      AtItem db sql cutoff before st.fs (db.path id) (frame :: frames) ∧
      ∃ f, before.node? (db.path id) = some (.file f) ∧ f.mtime ≤ cutoff
  | .remove k id stack => k = cutoff ∧ ∃ frame frames, stack = frame :: frames ∧
      AtItem db sql cutoff before st.fs (db.path id) (frame :: frames) ∧
      ∃ f, before.node? (db.path id) = some (.file f) ∧ Garbage db sql cutoff (db.path id) f
  | .removeDir k dir stack => k = cutoff ∧ ∃ frame g frames, stack = g :: frames ∧
      frame.dir = dir ∧ frame.todo = [] ∧ frame.stale = true ∧
      Walk db sql cutoff before st.fs frame (g :: frames)
  | .done (.ok ()) => before.isDir db.rootDir ∧ st.fs.isDir db.rootDir ∧
      ∀ p, p ≠ db.rootDir → Settled db sql cutoff before st.fs p
  | .done (.error _) => True

section

variable {db : VmIoDb} {sql : Sql} {cutoff : Time} {before : Fs} {st st' : Store} {frame : Frame}
  {frames : List Frame}

theorem metadata_eq_ok {fs : Fs} {p : Path} {info : Meta} (h : fs.metadata p = .ok info) :
    ∃ n, fs.node? p = some n ∧ info = n.meta := by
  unfold Fs.metadata at h
  split at h
  · rename_i n hn
    cases h
    exact ⟨n, hn, rfl⟩
  · contradiction

theorem metadata_eq_error {fs : Fs} {p : Path} {e : FsError} (h : fs.metadata p = .error e) :
    fs.node? p = none := by
  unfold Fs.metadata at h
  split at h
  · contradiction
  · rename_i hnone
    exact hnone

theorem passState_item (htree : before.IsTree db.rootDir) {name : String} {info : Meta}
    (h : AtItem db sql cutoff before st.fs (frame.dir ++ [name]) (frame :: frames))
    (hinfo : st.fs.metadata (frame.dir ++ [name]) = .ok info) :
    PassState db sql cutoff before st (cleanupItem db cutoff name frame frames info) := by
  obtain ⟨n, hn, hmeta⟩ := metadata_eq_ok hinfo
  rw [h.untouched _ List.prefix_rfl] at hn
  have hplace := (h.ok frame List.mem_cons_self).place
  unfold cleanupItem
  cases n with
  | dir mtime =>
      have hisDir : info.isDir = true := by rw [hmeta]; rfl
      have hmtime : info.mtime = mtime := by rw [hmeta]; rfl
      rw [if_pos hisDir]
      by_cases hout : shardDepth ≤ frame.depth ∨ isShardName name = false
      · rw [if_pos hout]
        exact ⟨rfl, frame, frames, rfl, h.settle fun p => h.leave_outside ⟨mtime, hn⟩ hout⟩
      · rw [if_neg hout]
        rw [not_or, Bool.not_eq_false] at hout
        refine ⟨rfl, h, (inShards_append hplace).mpr ⟨rfl, by omega, hout.2⟩, fun _ => ?_⟩
        exact ⟨mtime, hn, hmtime ▸ decide_eq_true_iff⟩
  | file f =>
      have hisDir : ¬info.isDir = true := by rw [hmeta]; exact Bool.false_ne_true
      have hmtime : info.mtime = f.mtime := by rw [hmeta]; rfl
      have hdir : ¬before.isDir (frame.dir ++ [name]) := by
        rintro ⟨mtime, hm⟩
        rw [hn] at hm
        cases hm
      -- a file the pass keeps is settled at once
      have hleave : ¬Garbage db sql cutoff (frame.dir ++ [name]) f →
          PassState db sql cutoff before st (.next cutoff (frame :: frames)) := by
        intro hno
        refine ⟨rfl, frame, frames, rfl, h.settle fun p => h.leave_file htree hdir ?_⟩
        intro g hg
        rw [hn] at hg
        cases hg
        exact hno
      rw [if_neg hisDir]
      by_cases hold : frame.depth = shardDepth ∧ decide (info.mtime ≤ cutoff) = true
      · rw [if_pos hold]
        -- only a name that reads as a blob id, at the path of that id, is asked for
        cases hparse : parseName name with
        | none =>
            refine hleave fun ⟨⟨id, hid, _⟩, _⟩ => ?_
            rw [(path_eq_append hid.symm).2] at hparse
            contradiction
        | some id =>
            by_cases hpath : db.path id = frame.dir ++ [name]
            · have hmine : db.path id = frame.dir ++ [name] := hpath
              simp only [hpath, ne_eq, not_true_eq_false, if_false]
              exact ⟨rfl, frame, frames, rfl, hmine ▸ h, f, hmine ▸ hn,
                hmtime ▸ of_decide_eq_true hold.2⟩
            · simp only [hpath, ne_eq, not_false_eq_true, if_true]
              refine hleave fun ⟨⟨id', hid, _⟩, _⟩ => hpath ?_
              rw [(path_eq_append hid.symm).2] at hparse
              cases hparse
              exact hid.symm
      · rw [if_neg hold]
        refine hleave fun ⟨⟨id, hid, _⟩, hyoung⟩ => hold ⟨?_, decide_eq_true (hmtime ▸ hyoung)⟩
        exact hplace.depth_eq (path_eq_append hid.symm).1

theorem removed_removeQuiet {p : Path} {f : File} (h : st.fs.node? p = some (.file f)) :
    st.fs.Removed (st.removeQuiet p).fs p := by
  obtain ⟨fs, hremove, hrem⟩ := Fs.removed_removeFile st.now h
  rw [Store.removeQuiet, hremove]
  exact hrem

theorem removed_removeDirQuiet {p : Path} (h : st.fs.isDir p) :
    (st.fs.children p = [] ∧ st.fs.Removed (st.removeDirQuiet p).fs p) ∨
    (st.fs.children p ≠ [] ∧ st.removeDirQuiet p = st) := by
  rcases Fs.removed_removeDir st.now h with ⟨hempty, fs, hremove, hrem⟩ | ⟨hfull, e, hremove⟩
  · left
    rw [Store.removeDirQuiet, hremove]
    exact ⟨hempty, hrem⟩
  · right
    rw [Store.removeDirQuiet, hremove]
    exact ⟨hfull, rfl⟩

theorem Walk.leave_dir {g : Frame} {after : Fs}
    (h : Walk db sql cutoff before after frame (g :: frames)) (htodo : frame.todo = [])
    (hno : ∀ mtime, before.node? frame.dir = some (.dir mtime) →
      ¬Cleared db cutoff before after frame.dir mtime) :
    Walk db sql cutoff before after g frames := by
  have hframe := h.ok frame List.mem_cons_self
  have hdeep : frame.dir ≠ db.rootDir := h.dir_ne_root
  obtain ⟨mtime, hm, _⟩ := hframe.stale hdeep
  refine h.leave htodo
    ⟨fun hnone => ?_, fun f hf => ?_, fun mtime' hm' => .inr ⟨hno mtime' hm', ?_⟩⟩
  · rw [hm] at hnone
    contradiction
  · rw [hm] at hf
    cases hf
  · exact ⟨hframe.dir, fun hout => absurd (hframe.place.shardDir hdeep) hout⟩

theorem Walk.leave_young {g : Frame} {after : Fs}
    (h : Walk db sql cutoff before after frame (g :: frames)) (htodo : frame.todo = [])
    (hyoung : ¬frame.stale = true) : Walk db sql cutoff before after g frames := by
  refine h.leave_dir htodo fun mtime hm hcleared => ?_
  obtain ⟨mtime', hm', hold⟩ := (h.ok frame List.mem_cons_self).stale h.dir_ne_root
  rw [hm] at hm'
  cases hm'
  exact hyoung (hold.mpr hcleared.2.1)

theorem Walk.leave_full {g : Frame} {after : Fs}
    (h : Walk db sql cutoff before after frame (g :: frames)) (htodo : frame.todo = [])
    (hfull : after.children frame.dir ≠ []) : Walk db sql cutoff before after g frames := by
  refine h.leave_dir htodo fun mtime _ hcleared => ?_
  obtain ⟨name, hname⟩ := List.exists_mem_of_ne_nil _ hfull
  have hsome := Fs.mem_children.mp hname
  have hpre := List.prefix_append frame.dir [name]
  have hne : frame.dir ++ [name] ≠ frame.dir := by simp
  by_cases hbefore : before.node? (frame.dir ++ [name]) = none
  · exact hsome ((h.settled_below htodo hpre hne).absent hbefore)
  · exact hsome (hcleared.2.2 _ hpre hne hbefore)

theorem Walk.finish {after : Fs} (h : Walk db sql cutoff before after frame [])
    (htodo : frame.todo = []) : before.isDir db.rootDir ∧ after.isDir db.rootDir ∧
      ∀ p, p ≠ db.rootDir → Settled db sql cutoff before after p := by
  have hroot : frame.dir = db.rootDir := by
    obtain ⟨dir, depth, stale, todo⟩ := frame
    have henc : Encloses db.rootDir [] dir := h.encloses
    generalize hnil : ([] : List Frame) = frames at henc
    cases henc with
    | root => rfl
    | inside => contradiction
  have hframe := h.ok frame List.mem_cons_self
  refine ⟨hroot ▸ hframe.was, hroot ▸ hframe.dir, fun p hp => h.settled p ?_ ?_⟩
  · rintro ⟨g, hg, name, hname, _⟩
    rw [List.mem_singleton.mp hg, htodo] at hname
    contradiction
  · intro g hg
    rw [List.mem_singleton.mp hg, hroot]
    exact Ne.symm hp

theorem AtItem.leave_absent (htree : before.IsTree db.rootDir) {name : String} {after : Fs}
    (h : AtItem db sql cutoff before after (frame.dir ++ [name]) (frame :: frames))
    (hgone : after.node? (frame.dir ++ [name]) = none) :
    Walk db sql cutoff before after frame frames := by
  have hnone : before.node? (frame.dir ++ [name]) = none := by
    rw [← h.untouched _ List.prefix_rfl]
    exact hgone
  refine h.settle fun p => h.leave_file htree ?_ ?_
  · rintro ⟨mtime, hm⟩
    rw [hnone] at hm
    contradiction
  · intro f hf
    rw [hnone] at hf
    contradiction

theorem AtItem.leave_referenced (htree : before.IsTree db.rootDir) {id : Digest} {after : Fs}
    {f : File} (h : AtItem db sql cutoff before after (db.path id) (frame :: frames))
    (hf : before.node? (db.path id) = some (.file f)) (hexists : sql.blobIdExists id = true) :
    Walk db sql cutoff before after frame frames := by
  refine h.settle fun p => h.leave_file htree ?_ ?_
  · rintro ⟨mtime, hm⟩
    rw [hf] at hm
    cases hm
  · rintro g _ ⟨⟨id', hid, hno⟩, _⟩
    obtain rfl := idPath_injective hid
    rw [Sql.blobIdExists_eq_false.mpr hno] at hexists
    contradiction

theorem passState_step (htree : before.IsTree db.rootDir) {pc pc' : CleanupPc} {c : Choice}
    (hsql : st.sql = sql) (hinv : PassState db sql cutoff before st pc) (hc : c ≠ .fail)
    (h : stepCleanup db st pc c = some (st', pc')) :
    st'.sql = sql ∧ PassState db sql cutoff before st' pc' := by
  cases pc with
  | start => exact hinv.elim
  | done res => cases c <;> simp [stepCleanup] at h
  | readDir k dir depth stale stack =>
      obtain ⟨rfl, hitem, hplace, hstale⟩ := hinv
      cases c <;> simp only [stepCleanup, reduceCtorEq] at h
      case fail => exact absurd rfl hc
      case listing names =>
        split at h
        case h_1 mtime hdir =>
          split at h
          case isTrue hlist =>
            cases h
            -- nothing below the directory has been touched yet
            have hwas : before.isDir dir := ⟨mtime, (hitem.untouched dir List.prefix_rfl) ▸ hdir⟩
            refine ⟨hsql, rfl, _, _, rfl, hitem.enter htree ?_ hlist.2⟩
            exact ⟨hplace, hwas, ⟨mtime, hdir⟩, hstale, hlist.1⟩
          case isFalse => contradiction
        case h_2 =>
          cases h
          exact ⟨hsql, trivial⟩
  | next k stack =>
      obtain ⟨rfl, ⟨dir, depth, stale, todo⟩, frames, rfl, hwalk⟩ := hinv
      cases todo with
      | cons name todo =>
          cases c <;> simp only [stepCleanup, reduceCtorEq] at h
          case fail => exact absurd rfl hc
          case ok =>
            cases h
            exact ⟨hsql, rfl, _, _, rfl, hwalk.take⟩
      | nil =>
          cases c <;> simp only [stepCleanup, reduceCtorEq] at h
          case fail => exact absurd rfl hc
          case ok =>
            cases frames with
            | nil =>
                cases h
                exact ⟨hsql, hwalk.finish rfl⟩
            | cons g frames =>
                simp only [List.isEmpty_cons, Bool.false_eq_true, if_false] at h
                split at h
                case isTrue hstale =>
                  cases h
                  exact ⟨hsql, rfl, _, g, frames, rfl, rfl, rfl, hstale, hwalk⟩
                case isFalse hyoung =>
                  cases h
                  exact ⟨hsql, rfl, g, frames, rfl, hwalk.leave_young rfl hyoung⟩
  | stat k name stack =>
      obtain ⟨rfl, frame, frames, rfl, hitem⟩ := hinv
      cases c <;> simp only [stepCleanup, reduceCtorEq] at h
      case fail => exact absurd rfl hc
      case ok =>
        split at h
        case h_1 info hinfo =>
          cases h
          exact ⟨hsql, passState_item htree hitem hinfo⟩
        case h_2 e hinfo =>
          cases h
          exact ⟨hsql, rfl, frame, frames, rfl, hitem.leave_absent htree (metadata_eq_error hinfo)⟩
  | query k id mtime stack =>
      obtain ⟨rfl, frame, frames, rfl, hitem, f, hf, hold⟩ := hinv
      cases c <;> simp only [stepCleanup, reduceCtorEq] at h
      case fail => exact absurd rfl hc
      case ok =>
        rw [hsql] at h
        split at h
        case isTrue hexists =>
          cases h
          exact ⟨hsql, rfl, frame, frames, rfl, hitem.leave_referenced htree hf hexists⟩
        case isFalse hno =>
          cases h
          rw [Bool.not_eq_true] at hno
          exact ⟨hsql, rfl, frame, frames, rfl, hitem, f, hf,
            ⟨id, rfl, Sql.blobIdExists_eq_false.mp hno⟩, hold⟩
  | remove k id stack =>
      obtain ⟨rfl, frame, frames, rfl, hitem, f, hf, hgarbage⟩ := hinv
      cases c <;> simp only [stepCleanup, reduceCtorEq] at h
      case fail => exact absurd rfl hc
      case ok =>
        cases h
        have hhere : st.fs.node? (db.path id) = some (.file f) :=
          (hitem.untouched _ List.prefix_rfl).trans hf
        exact ⟨by simpa using hsql, rfl, frame, frames, rfl,
          hitem.removeFile htree hf hgarbage (removed_removeQuiet hhere)⟩
  | removeDir k dir stack =>
      obtain ⟨rfl, frame, g, frames, rfl, rfl, htodo, hstale, hwalk⟩ := hinv
      cases c <;> simp only [stepCleanup, reduceCtorEq] at h
      case fail => exact absurd rfl hc
      case ok =>
        cases h
        refine ⟨by simpa using hsql, rfl, g, frames, rfl, ?_⟩
        -- `remove_dir` fails on a directory that is not empty
        rcases removed_removeDirQuiet (hwalk.ok frame List.mem_cons_self).dir with
          ⟨hempty, hrem⟩ | ⟨hfull, hsame⟩
        · exact hwalk.removeDir htree htodo hstale hempty hrem
        · rw [hsame]
          exact hwalk.leave_full htodo hfull

end

/-! ### Runs of a pass -/

/-- Time passes, or a call makes a step in which nothing fails that can succeed. -/
def Unhindered (_ : Sys) : Action → Prop
  | .step _ c => c ≠ .fail
  | .tick _ => True
  | .spawn _ => False
  | .crash => False

instance (s : Sys) (a : Action) : Decidable (Unhindered s a) :=
  match a with
  | .step _ c => inferInstanceAs (Decidable (c ≠ .fail))
  | .tick _ => isTrue trivial
  | .spawn _ => isFalse id
  | .crash => isFalse id

/-- The state in which a pass with this cutoff enters the root. -/
def passStart (db : VmIoDb) (sql : Sql) (cutoff : Time) (before : Fs) (now : Time) : Sys :=
  ⟨⟨sql, before, now⟩, [.cleanupDir (.readDir cutoff db.rootDir 0 false [])]⟩

theorem passReach_inv {db : VmIoDb} {sql : Sql} {cutoff now : Time} {before : Fs} {s : Sys}
    (htree : before.IsTree db.rootDir)
    (h : Reach (step db) Unhindered (passStart db sql cutoff before now) s) :
    ∃ st pc, s = ⟨st, [.cleanupDir pc]⟩ ∧ st.sql = sql ∧ PassState db sql cutoff before st pc := by
  refine h.invariant (I := fun s => ∃ st pc, s = ⟨st, [.cleanupDir pc]⟩ ∧ st.sql = sql ∧
    PassState db sql cutoff before st pc) ?_ ?_
  · refine ⟨_, _, rfl, rfl, rfl, atItem_root db sql cutoff before, ?_, fun hne => absurd rfl hne⟩
    exact ⟨[], (List.append_nil _).symm, rfl, by decide, by simp⟩
  · rintro _ a s' ⟨st, pc, rfl, hsql, hinv⟩ hok hs
    rcases step_alone hs with ⟨c, st', task', rfl, rfl, hstep⟩ | ⟨d, rfl, rfl⟩ | ⟨call, rfl⟩ | rfl
    · obtain ⟨⟨st₁, pc'⟩, hpass, heq⟩ := Option.map_eq_some_iff.mp hstep
      cases heq
      exact ⟨st₁, pc', rfl, passState_step htree hsql hinv hok hpass⟩
    · refine ⟨_, pc, rfl, hsql, ?_⟩
      cases pc <;> exact hinv
    · exact hok.elim
    · exact hok.elim

/-- A pass over any tree, with any rows and any cutoff, that comes to its end has
removed the old files where a blob of no row would be, and the old shard
directories in which nothing is left. Files of rows, and whatever is not in the
layout, are as before. -/
theorem cleanupDir_exact {db : VmIoDb} {sql : Sql} {cutoff now : Time} {before : Fs} {s : Sys}
    (htree : before.IsTree db.rootDir)
    (h : Reach (step db) Unhindered (passStart db sql cutoff before now) s)
    (hdone : s.tasks = [.cleanupDir (.done (.ok ()))]) :
    s.st.sql = sql ∧
    (∀ p f, before.file? p = some f →
      (s.st.fs.node? p = none ↔ Garbage db sql cutoff p f) ∧
      (¬Garbage db sql cutoff p f → s.st.fs.file? p = some f)) ∧
    (∀ p mtime, before.node? p = some (.dir mtime) →
      (s.st.fs.node? p = none ↔ Cleared db cutoff before s.st.fs p mtime) ∧
      (¬Cleared db cutoff before s.st.fs p mtime → s.st.fs.isDir p)) ∧
    (∀ p, before.node? p = none → s.st.fs.node? p = none) ∧
    (∀ row ∈ sql.entryFileChunks.rows,
      s.st.fs.file? (db.path row.blobId) = before.file? (db.path row.blobId)) ∧
    ∀ p, p ≠ db.rootDir → ¬ShardDir db.rootDir p → (∀ id, p ≠ db.path id) →
      s.st.fs.node? p = before.node? p := by
  obtain ⟨st, pc, rfl, hsql, hinv⟩ := passReach_inv htree h
  obtain rfl : pc = .done (.ok ()) := by simpa using hdone
  obtain ⟨⟨rootTime, hwas⟩, ⟨rootTime', hroot⟩, hsettled⟩ := hinv
  -- the root is the one path that the walk does not settle: it is there and stays
  have hne : ∀ {p : Path}, (∀ mtime, before.node? p ≠ some (.dir mtime)) → p ≠ db.rootDir := by
    rintro p hp rfl
    exact hp rootTime hwas
  refine ⟨hsql, fun p f hf => (hsettled p (hne fun mtime hm => ?_)).file_iff hf,
    fun p mtime hm => ?_, fun p hp => (hsettled p (hne fun mtime hm => ?_)).absent hp,
    fun row hrow => ?_, fun p hne hshard hblob => (hsettled p hne).outside hshard hblob⟩
  · rw [Fs.file?_eq_some_iff, hm] at hf
    cases hf
  · by_cases hpr : p = db.rootDir
    · subst hpr
      exact ⟨iff_of_false (by rw [hroot]; exact Option.some_ne_none _) (not_cleared_root mtime),
        fun _ => ⟨rootTime', hroot⟩⟩
    · exact (hsettled p hpr).dir_iff hm
  · rw [hp] at hm
    contradiction
  · exact (hsettled (db.path row.blobId) (by simp [VmIoDb.path, idPath])).referenced hrow

def Sys.passed (s : Sys) : Bool :=
  match s.tasks with
  | [.cleanupDir (.done (.ok ()))] => true
  | _ => false

theorem Sys.tasks_of_passed {s : Sys} (h : s.passed = true) :
    s.tasks = [.cleanupDir (.done (.ok ()))] := by
  unfold Sys.passed at h
  split at h
  · assumption
  · contradiction

namespace Vectors

/-- A root with a file of the database and an orphan below its shard directories. -/
def orphanTree : Fs :=
  ((((Fs.init ["data"] 0).link ["data", "db.sqlite"] (.file ⟨0, [1], 5⟩)).link
    ["data", "afec"] (.dir 5)).link ["data", "afec", "25cc"] (.dir 5)).link
      ["data", "afec", "25cc", "3aaa"] (.dir 5) |>.link (db.path keysA.id) (.file ⟨1, [0x36], 5⟩)

theorem orphanTree_isTree : orphanTree.IsTree ["data"] := by
  refine ((((Fs.isTree_init _ _).link _ ?_ ⟨0, ?_⟩).link _ ?_ ⟨0, ?_⟩).link _ ?_ ⟨5, ?_⟩).link _ ?_
    ⟨5, ?_⟩ |>.link _ ?_ ⟨5, ?_⟩
  all_goals decide +kernel

end Vectors

/-- A pass removes the orphan and the shard directories above it, and leaves the
file of the database. -/
theorem cleanupDir_exact_orphan :
    ∃ s : Sys,
      Reach (step Vectors.db) Unhindered
        (passStart Vectors.db Sql.empty 10 Vectors.orphanTree 100) s ∧
      s.st.fs.node? (Vectors.db.path Vectors.keysA.id) = none ∧
      Cleared Vectors.db 10 Vectors.orphanTree s.st.fs ["data", "afec"] 5 ∧
      s.st.fs.file? ["data", "db.sqlite"] = some ⟨0, [1], 5⟩ := by
  obtain ⟨s, hreach, hdone, hgone⟩ := Reach.exists_of_runOk (step Vectors.db) Unhindered
    (passStart Vectors.db Sql.empty 10 Vectors.orphanTree 100)
    ([.step 0 (.listing ["afec", "db.sqlite"]), .step 0 .ok, .step 0 .ok,
      .step 0 (.listing ["25cc"]), .step 0 .ok, .step 0 .ok,
      .step 0 (.listing ["3aaa"]), .step 0 .ok, .step 0 .ok,
      .step 0 (.listing ["afec25cc3aaa036c17684b989f983bcc353af27b94804588825dd4ee538c7eba"])] ++
      List.replicate 13 (.step 0 .ok))
    (fun s => s.passed = true ∧ s.st.fs.node? ["data", "afec"] = none) (by decide +kernel)
  obtain ⟨_, hfiles, hdirs, _⟩ := cleanupDir_exact Vectors.orphanTree_isTree hreach
    (Sys.tasks_of_passed hdone)
  refine ⟨s, hreach, (hfiles _ ⟨1, [0x36], 5⟩ (by decide +kernel)).1.mpr
    ⟨⟨Vectors.keysA.id, rfl, by decide⟩, by decide⟩, ?_, ?_⟩
  · exact (hdirs ["data", "afec"] 5 (by decide +kernel)).1.mp hgone
  · refine (hfiles ["data", "db.sqlite"] _ (by decide +kernel)).2 ?_
    rintro ⟨⟨id, hid, _⟩, _⟩
    have hlen := congrArg List.length hid
    simp [VmIoDb.path, idPath, Vectors.db] at hlen

end VmIo.Db
