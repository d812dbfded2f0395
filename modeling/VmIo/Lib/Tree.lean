import VmIo.Lib.Fs

/-!
What the operations of the file system make of a tree.

Something new lies in a directory that was there or is made with it, and what is
taken away had nothing below it, so each operation leaves a tree a tree.
-/

namespace VmIo.Lib.Fs

variable {fs fs' : Fs} {root p q : Path} {name : String} {now : Time}

theorem node?_ne_none_iff : fs.node? p ≠ none ↔ fs.isDir p ∨ ∃ f, fs.file? p = some f := by
  simp only [isDir, file?_eq_some_iff]
  cases fs.node? p with
  | none => simp
  | some n => cases n <;> simp

/-- What is new lies in a directory, and no directory is lost. -/
theorem IsTree.of_parents (h : fs.IsTree root) (hkept : ∀ q, fs.isDir q → fs'.isDir q)
    (hnew : ∀ p name, fs'.node? (p ++ [name]) ≠ none →
      fs.node? (p ++ [name]) ≠ none ∨ fs'.isDir p) : fs'.IsTree root := by
  intro p name hroot hsome
  rcases hnew p name hsome with hold | hdir
  · exact hkept p (h p name hroot hold)
  · exact hdir

theorem mem_take_inits {n : ℕ} : q ∈ p.inits.take n ↔ q <+: p ∧ q.length < n := by
  cases n with
  | zero => simp
  | succ n =>
      rw [← List.take_inits, List.mem_inits, List.prefix_take_iff]
      exact and_congr_right fun _ => Nat.lt_succ_iff.symm

/-- The directories of a path are made from the outside in. -/
theorem parent_of_createDirs {n : ℕ} (h : fs.createDirs (p.inits.take n) now = .ok fs')
    (hsome : fs'.node? (q ++ [name]) ≠ none) :
    fs.node? (q ++ [name]) ≠ none ∨ fs'.isDir q := by
  rcases node?_ne_none_iff.mp hsome with hdir | ⟨f, hf⟩
  · rcases isDir_createDirs h hdir with hold | hnew
    · exact .inl (node?_ne_none_iff.mpr (.inl hold))
    · right
      obtain ⟨hpre, hlen⟩ := mem_take_inits.mp hnew
      have hq : q <+: p := (List.prefix_append q [name]).trans hpre
      refine isDir_of_createDirs h (mem_take_inits.mpr ⟨hq, ?_⟩)
      rw [List.length_append, List.length_singleton] at hlen
      omega
  · rw [file?_createDirs h] at hf
    exact .inl (node?_ne_none_iff.mpr (.inr ⟨f, hf⟩))

theorem parent_of_create {ino : ℕ} (h : fs.create p now = .ok (fs', ino))
    (hsome : fs'.node? (q ++ [name]) ≠ none) :
    fs.node? (q ++ [name]) ≠ none ∨ fs'.isDir q := by
  rcases node?_ne_none_iff.mp hsome with hdir | ⟨f, hf⟩
  · exact .inl (node?_ne_none_iff.mpr (.inl (isDir_create h hdir)))
  · rw [file?_create h] at hf
    split at hf
    · rename_i hp
      right
      refine (dirsKept_create h).isDir q ?_
      by_contra hno
      rw [show q = p.dropLast by rw [hp, List.dropLast_concat]] at hno
      unfold create at h
      split at h
      · contradiction
      · contradiction
      · exact hno ⟨_, ‹_›⟩
    · exact .inl (node?_ne_none_iff.mpr (.inr ⟨f, hf⟩))

theorem node?_writeAt {ino off : ℕ} {block : Bytes} :
    (fs.writeAt p ino off block now).node? q ≠ none ↔ fs.node? q ≠ none := by
  unfold writeAt
  split
  · rename_i f hf
    split
    · rw [node?_link]
      split
      · rename_i hq
        subst hq
        simp [file?_eq_some_iff.mp hf]
      · rfl
    · rfl
  · rfl

theorem IsTree.of_removeDir (h : fs.IsTree root) (hremove : fs.removeDir p now = .ok fs') :
    fs'.IsTree root := by
  have hremoved := removed_of_removeDir hremove
  intro q name hroot hsome
  have hne : q ++ [name] ≠ p := by
    rintro rfl
    exact hsome hremoved.gone
  have hold : fs.node? (q ++ [name]) ≠ none :=
    fun hnone => hsome ((hremoved.absent _ hne).mpr hnone)
  refine hremoved.isDir q ?_ (h q name hroot hold)
  rintro rfl
  have hempty : fs.children q = [] := by
    unfold removeDir at hremove
    split at hremove
    · split at hremove
      · assumption
      · contradiction
    · contradiction
    · contradiction
  exact List.not_mem_nil (hempty ▸ mem_children.mpr hold)

theorem children_nodup (fs : Fs) (p : Path) : (fs.children p).Nodup := by
  have hkeys : (fs.nodes.rows.map Prod.fst).Nodup := fs.nodes.nodup
  let last (q : Path) : Option String := if q ≠ [] ∧ q.dropLast = p then q.getLast? else none
  have hchildren : fs.children p = (fs.nodes.rows.map Prod.fst).filterMap last := by
    rw [List.filterMap_map]
    rfl
  rw [hchildren]
  refine hkeys.filterMap ?_
  intro q q' name hq hq'
  have hpath : ∀ {x}, name ∈ last x → x = p ++ [name] := by
    intro x hx
    obtain ⟨⟨_, hdir⟩, hlast⟩ := Option.ite_none_right_eq_some.mp hx
    rw [← hdir]
    exact (List.dropLast_append_getLast? name hlast).symm
  rw [hpath hq, hpath hq']

end VmIo.Lib.Fs
