import VmIo.Lib.Bytes
import VmIo.Lib.Table

/-!
A file system of directories and regular files, with modification times.

A file carries an inode number. An open handle is a path with the inode number
the open saw, so a write through a handle whose file has since been unlinked
changes nothing that a path leads to.
-/

namespace VmIo.Lib

abbrev Path := List String

/-- Clock readings, in microseconds since the epoch. -/
abbrev Time := ℤ

structure File where
  ino : ℕ
  data : Bytes
  mtime : Time
  deriving DecidableEq, Repr

inductive Node
  | file (f : File)
  | dir (mtime : Time)
  deriving DecidableEq, Repr

inductive FsError
  | notFound
  | isADirectory
  | notADirectory
  | directoryNotEmpty
  | other
  deriving DecidableEq, Repr

structure Fs where
  nodes : Table (Path × Node) Prod.fst
  nextIno : ℕ

structure Meta where
  isDir : Bool
  len : ℕ
  mtime : Time

/-- The length a directory reports for itself. -/
def dirLen : ℕ := 4096

def Node.meta : Node → Meta
  | .file f => ⟨false, f.data.length, f.mtime⟩
  | .dir mtime => ⟨true, dirLen, mtime⟩

namespace Fs

def init (root : Path) (now : Time) : Fs := ⟨Table.empty.put (root, .dir now), 0⟩

def node? (fs : Fs) (p : Path) : Option Node := (fs.nodes.find? p).map Prod.snd

def file? (fs : Fs) (p : Path) : Option File :=
  match fs.node? p with
  | some (.file f) => some f
  | _ => none

def metadata (fs : Fs) (p : Path) : Except FsError Meta :=
  match fs.node? p with
  | some n => .ok n.meta
  | none => .error .notFound

def children (fs : Fs) (p : Path) : List String :=
  fs.nodes.rows.filterMap fun r =>
    if r.1 ≠ [] ∧ r.1.dropLast = p then r.1.getLast? else none

def link (fs : Fs) (p : Path) (n : Node) : Fs := { fs with nodes := fs.nodes.put (p, n) }

def unlink (fs : Fs) (p : Path) : Fs := { fs with nodes := fs.nodes.erase p }

/-- A change to its entries bumps a directory's modification time. -/
def touch (fs : Fs) (p : Path) (now : Time) : Fs :=
  match fs.node? p with
  | some (.dir _) => fs.link p (.dir now)
  | _ => fs

def ensureDir (now : Time) (fs : Fs) (p : Path) : Except FsError Fs :=
  match fs.node? p with
  | some (.dir _) => .ok fs
  | some (.file _) => .error .notADirectory
  | none => .ok ((fs.touch p.dropLast now).link p (.dir now))

/-- Create the missing ones of some directories, one after another. -/
def createDirs (fs : Fs) (ps : List Path) (now : Time) : Except FsError Fs :=
  ps.foldlM (ensureDir now) fs

def createDirAll (fs : Fs) (p : Path) (now : Time) : Except FsError Fs :=
  fs.createDirs p.inits now

/-- Open for writing, creating the file or cutting it to length zero. -/
def create (fs : Fs) (p : Path) (now : Time) : Except FsError (Fs × ℕ) :=
  match fs.node? p.dropLast with
  | none => .error .notFound
  | some (.file _) => .error .notADirectory
  | some (.dir _) =>
      match fs.node? p with
      | some (.dir _) => .error .isADirectory
      | some (.file f) => .ok (fs.link p (.file ⟨f.ino, [], now⟩), f.ino)
      | none =>
          .ok ({ (fs.touch p.dropLast now).link p (.file ⟨fs.nextIno, [], now⟩) with
                nextIno := fs.nextIno + 1 }, fs.nextIno)

/-- Write a block at an offset through a handle. -/
def writeAt (fs : Fs) (p : Path) (ino off : ℕ) (block : Bytes) (now : Time) : Fs :=
  match fs.file? p with
  | some f =>
      if f.ino = ino then fs.link p (.file ⟨ino, overlay f.data off block, now⟩) else fs
  | none => fs

def read (fs : Fs) (p : Path) : Except FsError Bytes :=
  match fs.node? p with
  | some (.file f) => .ok f.data
  | some (.dir _) => .error .isADirectory
  | none => .error .notFound

def removeFile (fs : Fs) (p : Path) (now : Time) : Except FsError Fs :=
  match fs.node? p with
  | some (.file _) => .ok ((fs.unlink p).touch p.dropLast now)
  | some (.dir _) => .error .isADirectory
  | none => .error .notFound

def removeDir (fs : Fs) (p : Path) (now : Time) : Except FsError Fs :=
  match fs.node? p with
  | some (.dir _) =>
      if fs.children p = [] then .ok ((fs.unlink p).touch p.dropLast now)
      else .error .directoryNotEmpty
  | some (.file _) => .error .notADirectory
  | none => .error .notFound

/-! ### What the operations do to the files

Directory operations and modification times of directories never change what
a path to a regular file leads to. -/

theorem file?_eq_some_iff {fs : Fs} {p : Path} {f : File} :
    fs.file? p = some f ↔ fs.node? p = some (.file f) := by
  unfold file?
  split <;> simp_all

@[simp] theorem node?_link (fs : Fs) (p q : Path) (n : Node) :
    (fs.link p n).node? q = if p = q then some n else fs.node? q := by
  simp only [node?, link, Table.find?_put]
  split <;> simp

@[simp] theorem node?_unlink (fs : Fs) (p q : Path) :
    (fs.unlink p).node? q = if p = q then none else fs.node? q := by
  simp only [node?, unlink, Table.find?_erase]
  split <;> simp

theorem file?_link_dir {fs : Fs} {p : Path} {now : Time} (h : fs.file? p = none) (q : Path) :
    (fs.link p (.dir now)).file? q = fs.file? q := by
  by_cases hq : p = q
  · subst hq
    rw [h]
    simp [file?]
  · simp [file?, hq]

theorem file?_link_file (fs : Fs) (p : Path) (f : File) (q : Path) :
    (fs.link p (.file f)).file? q = if p = q then some f else fs.file? q := by
  by_cases hq : p = q <;> simp [file?, hq]

theorem file?_unlink (fs : Fs) (p q : Path) :
    (fs.unlink p).file? q = if p = q then none else fs.file? q := by
  by_cases hq : p = q <;> simp [file?, hq]

@[simp] theorem file?_touch (fs : Fs) (p : Path) (now : Time) (q : Path) :
    (fs.touch p now).file? q = fs.file? q := by
  unfold touch
  split
  · rename_i h
    apply file?_link_dir
    simp [file?, h]
  · rfl

theorem file?_ensureDir {now : Time} {fs fs' : Fs} {p : Path}
    (h : ensureDir now fs p = .ok fs') (q : Path) : fs'.file? q = fs.file? q := by
  unfold ensureDir at h
  split at h
  · cases h
    rfl
  · contradiction
  · rename_i hp
    cases h
    have hfile : (fs.touch p.dropLast now).file? p = none := by
      rw [file?_touch]
      simp [file?, hp]
    rw [file?_link_dir hfile q, file?_touch]

theorem file?_createDirs {fs fs' : Fs} {ps : List Path} {now : Time}
    (h : fs.createDirs ps now = .ok fs') (q : Path) : fs'.file? q = fs.file? q := by
  unfold createDirs at h
  induction ps generalizing fs with
  | nil =>
      cases h
      rfl
  | cons d ps ih =>
      rw [List.foldlM_cons] at h
      cases hd : ensureDir now fs d with
      | error e => simp [hd, bind, Except.bind] at h
      | ok mid =>
          simp only [hd, bind, Except.bind] at h
          rw [ih h, file?_ensureDir hd]

theorem file?_create {fs fs' : Fs} {p : Path} {now : Time} {ino : ℕ}
    (h : fs.create p now = .ok (fs', ino)) (q : Path) :
    fs'.file? q = if p = q then some ⟨ino, [], now⟩ else fs.file? q := by
  unfold create at h
  split at h
  · contradiction
  · contradiction
  split at h
  · contradiction
  · cases h
    exact file?_link_file fs p _ q
  · cases h
    change ((fs.touch p.dropLast now).link p _).file? q = _
    rw [file?_link_file, file?_touch]

/-- Opening an existing file keeps its inode. -/
theorem create_ino {fs fs' : Fs} {p : Path} {now : Time} {ino : ℕ} {f : File}
    (h : fs.create p now = .ok (fs', ino)) (hf : fs.file? p = some f) : f.ino = ino := by
  rw [file?_eq_some_iff] at hf
  unfold create at h
  split at h
  · contradiction
  · contradiction
  · simp only [hf] at h
    cases h
    rfl

theorem file?_writeAt (fs : Fs) (p : Path) (ino off : ℕ) (block : Bytes) (now : Time)
    (q : Path) :
    (fs.writeAt p ino off block now).file? q =
      if p = q then
        (fs.file? p).map fun f =>
          if f.ino = ino then ⟨ino, overlay f.data off block, now⟩ else f
      else fs.file? q := by
  unfold writeAt
  cases hf : fs.file? p with
  | none =>
      by_cases hq : p = q
      · simp [← hq, hf]
      · simp [hq]
  | some f =>
      by_cases hi : f.ino = ino
      · simp only [hi, if_true, file?_link_file, Option.map_some]
      · simp only [hi, if_false, Option.map_some]
        by_cases hq : p = q
        · simp [← hq, hf]
        · simp [hq]

theorem file?_removeFile {fs fs' : Fs} {p : Path} {now : Time}
    (h : fs.removeFile p now = .ok fs') (q : Path) :
    fs'.file? q = if p = q then none else fs.file? q := by
  unfold removeFile at h
  split at h
  · cases h
    rw [file?_touch, file?_unlink]
  · contradiction
  · contradiction

theorem removeFile_isOk {fs : Fs} {p : Path} {f : File} (now : Time)
    (h : fs.file? p = some f) : ∃ fs', fs.removeFile p now = .ok fs' := by
  rw [file?_eq_some_iff] at h
  exact ⟨(fs.unlink p).touch p.dropLast now, by simp [removeFile, h]⟩

theorem file?_removeDir {fs fs' : Fs} {p : Path} {now : Time}
    (h : fs.removeDir p now = .ok fs') (q : Path) : fs'.file? q = fs.file? q := by
  unfold removeDir at h
  split at h
  · rename_i hp
    split at h
    · cases h
      rw [file?_touch, file?_unlink]
      split
      · rename_i hq
        rw [← hq]
        simp [file?, hp]
      · rfl
    · contradiction
  · contradiction
  · contradiction

/-! ### What the operations do to the directories -/

def isDir (fs : Fs) (p : Path) : Prop := ∃ mtime, fs.node? p = some (.dir mtime)

theorem isDir_link_file {fs : Fs} {p q : Path} {f : File}
    (h : (fs.link p (.file f)).isDir q) : fs.isDir q := by
  obtain ⟨mtime, h⟩ := h
  by_cases hq : p = q
  · simp [hq] at h
  · exact ⟨mtime, by simpa [hq] using h⟩

theorem isDir_link_dir {fs : Fs} {p q : Path} {now : Time}
    (h : (fs.link p (.dir now)).isDir q) : fs.isDir q ∨ q = p := by
  obtain ⟨mtime, h⟩ := h
  by_cases hq : p = q
  · exact .inr hq.symm
  · exact .inl ⟨mtime, by simpa [hq] using h⟩

theorem isDir_unlink {fs : Fs} {p q : Path} (h : (fs.unlink p).isDir q) : fs.isDir q := by
  obtain ⟨mtime, h⟩ := h
  by_cases hq : p = q
  · simp [hq] at h
  · exact ⟨mtime, by simpa [hq] using h⟩

theorem isDir_touch {fs : Fs} {p q : Path} {now : Time} (h : (fs.touch p now).isDir q) :
    fs.isDir q := by
  unfold touch at h
  split at h
  · rename_i mtime hp
    rcases isDir_link_dir h with h | rfl
    · exact h
    · exact ⟨mtime, hp⟩
  · exact h

theorem isDir_createDirs {fs fs' : Fs} {ps : List Path} {now : Time} {q : Path}
    (h : fs.createDirs ps now = .ok fs') (hq : fs'.isDir q) : fs.isDir q ∨ q ∈ ps := by
  unfold createDirs at h
  induction ps generalizing fs with
  | nil =>
      cases h
      exact .inl hq
  | cons p ps ih =>
      rw [List.foldlM_cons] at h
      cases hp : ensureDir now fs p with
      | error e => simp [hp, bind, Except.bind] at h
      | ok mid =>
          simp only [hp, bind, Except.bind] at h
          rcases ih h with hmid | hin
          · unfold ensureDir at hp
            split at hp
            · cases hp
              exact .inl hmid
            · contradiction
            · cases hp
              rcases isDir_link_dir hmid with htouch | rfl
              · exact .inl (isDir_touch htouch)
              · exact .inr (by simp)
          · exact .inr (List.mem_cons_of_mem _ hin)

theorem isDir_create {fs fs' : Fs} {p q : Path} {now : Time} {ino : ℕ}
    (h : fs.create p now = .ok (fs', ino)) (hq : fs'.isDir q) : fs.isDir q := by
  unfold create at h
  split at h
  · contradiction
  · contradiction
  split at h
  · contradiction
  · cases h
    exact isDir_link_file hq
  · cases h
    have hlink : ((fs.touch p.dropLast now).link p (.file ⟨fs.nextIno, [], now⟩)).isDir q := hq
    exact isDir_touch (isDir_link_file hlink)

theorem isDir_writeAt {fs : Fs} {p q : Path} {ino off : ℕ} {block : Bytes} {now : Time}
    (h : (fs.writeAt p ino off block now).isDir q) : fs.isDir q := by
  unfold writeAt at h
  split at h
  · split at h
    · exact isDir_link_file h
    · exact h
  · exact h

theorem isDir_removeFile {fs fs' : Fs} {p q : Path} {now : Time}
    (h : fs.removeFile p now = .ok fs') (hq : fs'.isDir q) : fs.isDir q := by
  unfold removeFile at h
  split at h
  · cases h
    exact isDir_unlink (isDir_touch hq)
  · contradiction
  · contradiction

theorem isDir_removeDir {fs fs' : Fs} {p q : Path} {now : Time}
    (h : fs.removeDir p now = .ok fs') (hq : fs'.isDir q) : fs.isDir q := by
  unfold removeDir at h
  split at h
  · split at h
    · cases h
      exact isDir_unlink (isDir_touch hq)
    · contradiction
  · contradiction
  · contradiction

/-- Where there is no directory, `stat` succeeds on a file only. -/
theorem file?_of_metadata {fs : Fs} {p : Path} {info : Meta} (hdir : ¬fs.isDir p)
    (h : fs.metadata p = .ok info) : ∃ f, fs.file? p = some f ∧ info.len = f.data.length := by
  unfold metadata at h
  split at h
  · rename_i n hn
    cases n with
    | file f =>
        cases h
        exact ⟨f, file?_eq_some_iff.mpr hn, rfl⟩
    | dir mtime => exact absurd ⟨mtime, hn⟩ hdir
  · contradiction

theorem metadata_len {fs : Fs} {p : Path} {f : File} (h : fs.file? p = some f) :
    fs.metadata p = .ok ⟨false, f.data.length, f.mtime⟩ := by
  rw [file?_eq_some_iff] at h
  simp [metadata, h, Node.meta]

theorem read_file {fs : Fs} {p : Path} {f : File} (h : fs.file? p = some f) :
    fs.read p = .ok f.data := by
  rw [file?_eq_some_iff] at h
  simp [read, h]

theorem file?_of_read {fs : Fs} {p : Path} {data : Bytes} (h : fs.read p = .ok data) :
    ∃ f, fs.file? p = some f ∧ f.data = data := by
  unfold read at h
  split at h
  · rename_i f hf
    cases h
    exact ⟨f, file?_eq_some_iff.mpr hf, rfl⟩
  · contradiction
  · contradiction

/-! ### Trees -/

theorem mem_children {fs : Fs} {p : Path} {name : String} :
    name ∈ fs.children p ↔ fs.node? (p ++ [name]) ≠ none := by
  have hnode : fs.node? (p ++ [name]) ≠ none ↔ ∃ r ∈ fs.nodes.rows, r.1 = p ++ [name] := by
    rw [node?, ne_eq, Option.map_eq_none_iff, Table.find?_eq_none_iff]
    push Not
    rfl
  rw [hnode, children, List.mem_filterMap]
  constructor
  · rintro ⟨r, hr, h⟩
    split at h
    · rename_i hlast
      refine ⟨r, hr, ?_⟩
      rw [← hlast.2]
      exact (List.dropLast_append_getLast? name h).symm
    · contradiction
  · rintro ⟨r, hr, hrow⟩
    refine ⟨r, hr, ?_⟩
    rw [hrow]
    simp

/-- Whatever lies below the root lies in a directory. -/
def IsTree (fs : Fs) (root : Path) : Prop :=
  ∀ p name, root <+: p → fs.node? (p ++ [name]) ≠ none → fs.isDir p

theorem IsTree.below_none {fs : Fs} {root p q : Path} (h : fs.IsTree root) (hroot : root <+: p)
    (hp : ¬fs.isDir p) (hq : p <+: q) (hne : q ≠ p) : fs.node? q = none := by
  obtain ⟨rest, rfl⟩ := hq
  by_contra hsome
  refine hp ?_
  have hup : ∀ rest, rest ≠ [] → fs.node? (p ++ rest) ≠ none → fs.isDir p := by
    intro rest
    induction rest using List.reverseRecOn with
    | nil => exact fun hnil => absurd rfl hnil
    | append_singleton rest name ih =>
        intro _ hsome
        rw [← List.append_assoc] at hsome
        have hdir := h _ name (hroot.trans (List.prefix_append p rest)) hsome
        by_cases hrest : rest = []
        · subst hrest
          rwa [List.append_nil] at hdir
        · obtain ⟨mtime, hdir⟩ := hdir
          exact ih hrest (by rw [hdir]; exact Option.some_ne_none _)
  refine hup rest (fun hnil => hne ?_) hsome
  rw [hnil, List.append_nil]

theorem isTree_init (root : Path) (now : Time) : (init root now).IsTree root := by
  intro p name hroot hsome
  refine absurd ?_ hsome
  have hne : root ≠ p ++ [name] := by
    intro heq
    have hlen := hroot.length_le
    rw [heq, List.length_append, List.length_singleton] at hlen
    omega
  rw [node?, init, Table.find?_put, if_neg hne]
  rfl

theorem IsTree.link {fs : Fs} {root p : Path} (h : fs.IsTree root) (n : Node)
    (hnew : fs.node? p = none) (hdir : fs.isDir p.dropLast) : (fs.link p n).IsTree root := by
  have hkeep : ∀ q, fs.isDir q → (fs.link p n).isDir q := by
    rintro q ⟨mtime, hq⟩
    have hne : p ≠ q := by
      rintro rfl
      rw [hnew] at hq
      contradiction
    exact ⟨mtime, by rw [node?_link, if_neg hne, hq]⟩
  intro q name hroot hsome
  rw [node?_link] at hsome
  split at hsome
  · rename_i heq
    rw [heq, List.dropLast_concat] at hdir
    exact hkeep q hdir
  · exact hkeep q (h q name hroot hsome)

/-- The node of `x` is gone; nothing else has changed but the modification time of
the directory it was in. -/
structure Removed (fs fs' : Fs) (x : Path) : Prop where
  gone : fs'.node? x = none
  same : ∀ q, q ≠ x → q ≠ x.dropLast → fs'.node? q = fs.node? q
  isDir : ∀ q, q ≠ x → fs.isDir q → fs'.isDir q
  absent : ∀ q, q ≠ x → (fs'.node? q = none ↔ fs.node? q = none)

theorem node?_touch_of_ne {fs : Fs} {p q : Path} {now : Time} (h : q ≠ p) :
    (fs.touch p now).node? q = fs.node? q := by
  unfold touch
  split
  · rw [node?_link, if_neg (Ne.symm h)]
  · rfl

theorem node?_touch_eq_none {fs : Fs} {p q : Path} {now : Time} :
    (fs.touch p now).node? q = none ↔ fs.node? q = none := by
  unfold touch
  split
  · rename_i hp
    rw [node?_link]
    split
    · rename_i hq
      subst hq
      simp [hp]
    · rfl
  · rfl

theorem isDir_touch_of_isDir {fs : Fs} {p q : Path} {now : Time} (h : fs.isDir q) :
    (fs.touch p now).isDir q := by
  by_cases hq : q = p
  · subst hq
    obtain ⟨mtime, h⟩ := h
    exact ⟨now, by simp [touch, h]⟩
  · obtain ⟨mtime, h⟩ := h
    exact ⟨mtime, by rw [node?_touch_of_ne hq, h]⟩

theorem removed_unlink (fs : Fs) (x : Path) (now : Time) :
    fs.Removed ((fs.unlink x).touch x.dropLast now) x where
  gone := by
    rw [node?_touch_eq_none, node?_unlink, if_pos rfl]
  same := by
    intro q hx hd
    rw [node?_touch_of_ne hd, node?_unlink, if_neg (Ne.symm hx)]
  isDir := by
    rintro q hx ⟨mtime, hq⟩
    refine isDir_touch_of_isDir ⟨mtime, ?_⟩
    rw [node?_unlink, if_neg (Ne.symm hx), hq]
  absent := by
    intro q hx
    rw [node?_touch_eq_none, node?_unlink, if_neg (Ne.symm hx)]

theorem removed_removeFile {fs : Fs} {p : Path} {f : File} (now : Time)
    (h : fs.node? p = some (.file f)) :
    ∃ fs', fs.removeFile p now = .ok fs' ∧ fs.Removed fs' p := by
  refine ⟨_, ?_, removed_unlink fs p now⟩
  simp only [removeFile, h]

/-- A directory is removed unless something is in it. -/
theorem removed_removeDir {fs : Fs} {p : Path} (now : Time) (h : fs.isDir p) :
    (fs.children p = [] ∧ ∃ fs', fs.removeDir p now = .ok fs' ∧ fs.Removed fs' p) ∨
    (fs.children p ≠ [] ∧ ∃ e, fs.removeDir p now = .error e) := by
  obtain ⟨mtime, h⟩ := h
  by_cases hempty : fs.children p = []
  · refine .inl ⟨hempty, _, ?_, removed_unlink fs p now⟩
    simp only [removeDir, h, hempty, if_true]
  · refine .inr ⟨hempty, .directoryNotEmpty, ?_⟩
    simp only [removeDir, h, hempty, if_false]

/-! ### Directories that stay -/

/-- From `fs` to `fs'` no directory is lost, and a directory that is new or whose
entries have changed carries the time `now`. -/
structure DirsKept (fs fs' : Fs) (now : Time) : Prop where
  isDir : ∀ q, fs.isDir q → fs'.isDir q
  stamped : ∀ q mtime, fs'.node? q = some (.dir mtime) →
    fs.node? q = some (.dir mtime) ∨ mtime = now

theorem DirsKept.refl (fs : Fs) (now : Time) : fs.DirsKept fs now :=
  ⟨fun _ h => h, fun _ _ h => .inl h⟩

theorem DirsKept.trans {fs₁ fs₂ fs₃ : Fs} {now : Time} (h₁ : fs₁.DirsKept fs₂ now)
    (h₂ : fs₂.DirsKept fs₃ now) : fs₁.DirsKept fs₃ now where
  isDir q hq := h₂.isDir q (h₁.isDir q hq)
  stamped q mtime hq := by
    rcases h₂.stamped q mtime hq with hq | hnow
    · exact h₁.stamped q mtime hq
    · exact .inr hnow

theorem dirsKept_link_dir (fs : Fs) (p : Path) (now : Time) :
    fs.DirsKept (fs.link p (.dir now)) now where
  isDir := by
    rintro q ⟨mtime, hq⟩
    by_cases hpq : p = q
    · exact ⟨now, by simp [hpq]⟩
    · exact ⟨mtime, by simpa [hpq] using hq⟩
  stamped q mtime hq := by
    by_cases hpq : p = q
    · right
      simpa [hpq, eq_comm] using hq
    · left
      simpa [hpq] using hq

theorem dirsKept_link_file {fs : Fs} {p : Path} (f : File) (now : Time) (h : ¬fs.isDir p) :
    fs.DirsKept (fs.link p (.file f)) now where
  isDir := by
    rintro q ⟨mtime, hq⟩
    have hpq : p ≠ q := by
      rintro rfl
      exact h ⟨mtime, hq⟩
    exact ⟨mtime, by simpa [hpq] using hq⟩
  stamped q mtime hq := by
    by_cases hpq : p = q
    · simp [hpq] at hq
    · left
      simpa [hpq] using hq

theorem dirsKept_unlink_file {fs : Fs} {p : Path} (now : Time) (h : ¬fs.isDir p) :
    fs.DirsKept (fs.unlink p) now where
  isDir := by
    rintro q ⟨mtime, hq⟩
    have hpq : p ≠ q := by
      rintro rfl
      exact h ⟨mtime, hq⟩
    exact ⟨mtime, by simpa [hpq] using hq⟩
  stamped q mtime hq := by
    by_cases hpq : p = q
    · simp [hpq] at hq
    · left
      simpa [hpq] using hq

theorem dirsKept_touch (fs : Fs) (p : Path) (now : Time) : fs.DirsKept (fs.touch p now) now := by
  unfold touch
  split
  · exact dirsKept_link_dir fs p now
  · exact .refl fs now

theorem dirsKept_ensureDir {now : Time} {fs fs' : Fs} {p : Path}
    (h : ensureDir now fs p = .ok fs') : fs.DirsKept fs' now := by
  unfold ensureDir at h
  split at h
  · cases h
    exact .refl fs now
  · contradiction
  · cases h
    exact (dirsKept_touch fs p.dropLast now).trans (dirsKept_link_dir _ p now)

theorem dirsKept_createDirs {fs fs' : Fs} {ps : List Path} {now : Time}
    (h : fs.createDirs ps now = .ok fs') : fs.DirsKept fs' now := by
  unfold createDirs at h
  induction ps generalizing fs with
  | nil =>
      cases h
      exact .refl _ now
  | cons d ps ih =>
      rw [List.foldlM_cons] at h
      cases hd : ensureDir now fs d with
      | error e => simp [hd, bind, Except.bind] at h
      | ok mid =>
          simp only [hd, bind, Except.bind] at h
          exact (dirsKept_ensureDir hd).trans (ih h)

theorem isDir_of_createDirs {fs fs' : Fs} {ps : List Path} {p : Path} {now : Time}
    (h : fs.createDirs ps now = .ok fs') (hp : p ∈ ps) : fs'.isDir p := by
  unfold createDirs at h
  induction ps generalizing fs with
  | nil => exact absurd hp List.not_mem_nil
  | cons d ps ih =>
      rw [List.foldlM_cons] at h
      cases hd : ensureDir now fs d with
      | error e => simp [hd, bind, Except.bind] at h
      | ok mid =>
          simp only [hd, bind, Except.bind] at h
          rcases List.mem_cons.mp hp with rfl | hp
          · have hmid : mid.isDir p := by
              unfold ensureDir at hd
              split at hd
              · rename_i mtime hdir
                cases hd
                exact ⟨mtime, hdir⟩
              · contradiction
              · cases hd
                exact ⟨now, by simp⟩
            exact (dirsKept_createDirs h).isDir p hmid
          · exact ih h hp

theorem isDir_createDirAll {fs fs' : Fs} {p : Path} {now : Time}
    (h : fs.createDirAll p now = .ok fs') : fs'.isDir p :=
  isDir_of_createDirs h (List.mem_inits _ _ |>.mpr (List.prefix_refl p))

theorem dirsKept_create {fs fs' : Fs} {p : Path} {now : Time} {ino : ℕ}
    (h : fs.create p now = .ok (fs', ino)) : fs.DirsKept fs' now := by
  unfold create at h
  split at h
  · contradiction
  · contradiction
  split at h
  · contradiction
  · rename_i f hp
    cases h
    refine dirsKept_link_file _ now ?_
    rintro ⟨mtime, hdir⟩
    rw [hp] at hdir
    cases hdir
  · rename_i hp
    cases h
    have hlink : (fs.touch p.dropLast now).DirsKept
        ((fs.touch p.dropLast now).link p (.file ⟨fs.nextIno, [], now⟩)) now := by
      refine dirsKept_link_file _ now fun hdir => ?_
      obtain ⟨mtime, hdir⟩ := isDir_touch hdir
      rw [hp] at hdir
      cases hdir
    exact (dirsKept_touch fs p.dropLast now).trans ⟨hlink.isDir, hlink.stamped⟩

theorem dirsKept_writeAt (fs : Fs) (p : Path) (ino off : ℕ) (block : Bytes) (now : Time) :
    fs.DirsKept (fs.writeAt p ino off block now) now := by
  unfold writeAt
  split
  · rename_i f hf
    split
    · refine dirsKept_link_file _ now ?_
      rintro ⟨mtime, hdir⟩
      rw [file?_eq_some_iff.mp hf] at hdir
      cases hdir
    · exact .refl fs now
  · exact .refl fs now

theorem dirsKept_removeFile {fs fs' : Fs} {p : Path} {now : Time}
    (h : fs.removeFile p now = .ok fs') : fs.DirsKept fs' now := by
  unfold removeFile at h
  split at h
  · rename_i f hp
    cases h
    refine (dirsKept_unlink_file now ?_).trans (dirsKept_touch _ p.dropLast now)
    rintro ⟨mtime, hdir⟩
    rw [hp] at hdir
    cases hdir
  · contradiction
  · contradiction

theorem stamped_removeDir {fs fs' : Fs} {p q : Path} {now mtime : Time}
    (h : fs.removeDir p now = .ok fs') (hq : fs'.node? q = some (.dir mtime)) :
    fs.node? q = some (.dir mtime) ∨ mtime = now := by
  unfold removeDir at h
  split at h
  · split at h
    · cases h
      rcases (dirsKept_touch (fs.unlink p) p.dropLast now).stamped q mtime hq with hq | hnow
      · left
        rw [node?_unlink] at hq
        split at hq
        · contradiction
        · exact hq
      · exact .inr hnow
    · contradiction
  · contradiction
  · contradiction

theorem removed_of_removeDir {fs fs' : Fs} {p : Path} {now : Time}
    (h : fs.removeDir p now = .ok fs') : fs.Removed fs' p := by
  unfold removeDir at h
  split at h
  · split at h
    · cases h
      exact removed_unlink fs p now
    · contradiction
  · contradiction
  · contradiction

theorem not_isDir_of_notFound {fs : Fs} {p : Path} {now : Time}
    (h : fs.create p now = .error .notFound) : ¬fs.isDir p.dropLast := by
  rintro ⟨mtime, hdir⟩
  unfold create at h
  simp only [hdir] at h
  split at h <;> cases h

theorem create_isOk {fs : Fs} {p : Path} (now : Time) (hdir : fs.isDir p.dropLast)
    (hfile : ¬fs.isDir p) : ∃ fs' ino, fs.create p now = .ok (fs', ino) := by
  obtain ⟨mtime, hdir⟩ := hdir
  unfold create
  simp only [hdir]
  split
  · rename_i mtime' hp
    exact absurd ⟨mtime', hp⟩ hfile
  · exact ⟨_, _, rfl⟩
  · exact ⟨_, _, rfl⟩

end Fs

end VmIo.Lib
