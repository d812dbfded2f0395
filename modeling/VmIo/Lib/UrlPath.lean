import VmIo.Lib.Bytes

/-!
The path of a URL with a special scheme, by the rules of the URL standard.

What follows the first slash is read character by character into a list of
segments. A character outside the plain ones ends a segment, ends the path, is
dropped or is percent-encoded, and a segment of dots moves in the list. A plain text
is read as one segment, unchanged (`Plain.parsePath`), and every segment that is read
is plain or empty (`clean_parsePath`).
-/

namespace VmIo.Lib.Url

/-- C0 controls and the space, which are dropped at the end of a URL. -/
def isC0OrSpace (c : Char) : Bool := c.toNat ≤ 0x20

/-- ASCII tab and newlines, which are dropped everywhere in a URL. -/
def isTabOrNewline (c : Char) : Bool := c = '\t' ∨ c = '\n' ∨ c = '\r'

/-- The path percent-encode set of the parser in use. It leaves the caret alone, which later
versions of the standard encode. -/
def inPathSet (c : Char) : Bool :=
  c.toNat ≤ 0x20 ∨ 0x7E < c.toNat ∨ c ∈ ['"', '#', '<', '>', '?', '\x60', '{', '}']

def hexUpper (n : ℕ) : Char := Char.ofNat (if n < 10 then 0x30 + n else 0x37 + n)

def percentEncode (b : UInt8) : List Char :=
  ['%', hexUpper (b.toNat / 16), hexUpper (b.toNat % 16)]

/-- UTF-8 percent-encode a character using the path percent-encode set. -/
def encodeChar (c : Char) : List Char :=
  if inPathSet c then (utf8 (String.singleton c)).flatMap percentEncode else [c]

def isSingleDot (segment : List Char) : Bool :=
  segment.map Char.toLower ∈ [".".toList, "%2e".toList]

def isDoubleDot (segment : List Char) : Bool :=
  segment.map Char.toLower ∈ ["..".toList, ".%2e".toList, "%2e.".toList, "%2e%2e".toList]

/-- The end of a segment, at a slash or at the end of the path. -/
def endSegment (path : List (List Char)) (buffer : List Char) (slash : Bool) : List (List Char) :=
  if isDoubleDot buffer then
    if slash then path.dropLast else path.dropLast ++ [[]]
  else if isSingleDot buffer then
    if slash then path else path ++ [[]]
  else path ++ [buffer]

/-- The path state of the parser, with the segments so far and the buffer. -/
def pathState : List Char → List (List Char) → List Char → List (List Char)
  | [], path, buffer => endSegment path buffer false
  | c :: cs, path, buffer =>
      -- the query or the fragment begins
      if c = '?' ∨ c = '#' then endSegment path buffer false
      else if c = '/' ∨ c = '\\' then pathState cs (endSegment path buffer true) []
      else pathState cs path (buffer ++ encodeChar c)

/-- The segments of the path, from what follows its first slash in the URL. -/
def parsePath (cs : List Char) : List (List Char) :=
  pathState ((cs.rdropWhile isC0OrSpace).filter fun c => !isTabOrNewline c) [] []

def serializePath (path : List (List Char)) : List Char := path.flatMap fun seg => '/' :: seg

/-! ### Plain segments -/

/-- A character that stands for itself in a segment. -/
def Kept (c : Char) : Prop := inPathSet c = false ∧ c ≠ '/' ∧ c ≠ '\\'

instance (c : Char) : Decidable (Kept c) := inferInstanceAs (Decidable (_ ∧ _))

/-- A segment that the parser leaves as it is. -/
structure Plain (seg : List Char) : Prop where
  nonempty : seg ≠ []
  kept : ∀ c ∈ seg, Kept c
  noDot : isSingleDot seg = false
  noDots : isDoubleDot seg = false

theorem plain_iff {seg : List Char} :
    Plain seg ↔ seg ≠ [] ∧ (seg.all fun c => Kept c) = true ∧ isSingleDot seg = false ∧
      isDoubleDot seg = false := by
  simp only [List.all_eq_true, decide_eq_true_eq]
  exact ⟨fun h => ⟨h.nonempty, h.kept, h.noDot, h.noDots⟩,
    fun ⟨hne, hkept, hdot, hdots⟩ => ⟨hne, hkept, hdot, hdots⟩⟩

instance (seg : List Char) : Decidable (Plain seg) := decidable_of_iff _ plain_iff.symm

theorem kept_hexUpper {n : ℕ} (h : n < 16) : Kept (hexUpper n) := by
  have hall : ∀ n < 16, Kept (hexUpper n) := by decide
  exact hall n h

theorem kept_percentEncode (b : UInt8) : ∀ c ∈ percentEncode b, Kept c := by
  intro c hc
  simp only [percentEncode, List.mem_cons, List.not_mem_nil, or_false] at hc
  have hb := b.toNat_lt
  rcases hc with rfl | rfl | rfl
  · decide
  · exact kept_hexUpper (by omega)
  · exact kept_hexUpper (by omega)

theorem kept_encodeChar {c : Char} (hslash : c ≠ '/') (hback : c ≠ '\\') :
    ∀ c' ∈ encodeChar c, Kept c' := by
  intro c' hc'
  rw [encodeChar] at hc'
  split at hc'
  · obtain ⟨b, _, hb⟩ := List.mem_flatMap.mp hc'
    exact kept_percentEncode b c' hb
  · rename_i hset
    rw [List.mem_singleton.mp hc']
    exact ⟨by simpa using hset, hslash, hback⟩

def Clean (path : List (List Char)) : Prop := ∀ seg ∈ path, seg = [] ∨ Plain seg

theorem clean_endSegment {path : List (List Char)} {buffer : List Char} (slash : Bool)
    (hpath : Clean path) (hbuffer : ∀ c ∈ buffer, Kept c) :
    Clean (endSegment path buffer slash) := by
  have hempty : ∀ {path : List (List Char)}, Clean path → Clean (path ++ [[]]) := by
    intro path hpath seg hseg
    rcases List.mem_append.mp hseg with hseg | hseg
    · exact hpath seg hseg
    · exact .inl (List.mem_singleton.mp hseg)
  have hdrop : Clean path.dropLast := fun seg hseg => hpath seg (List.mem_of_mem_dropLast hseg)
  unfold endSegment
  split
  · split
    · exact hdrop
    · exact hempty hdrop
  · split
    · split
      · exact hpath
      · exact hempty hpath
    · rename_i hdots hdot
      intro seg hseg
      rcases List.mem_append.mp hseg with hseg | hseg
      · exact hpath seg hseg
      · rw [List.mem_singleton.mp hseg]
        by_cases hne : buffer = []
        · exact .inl hne
        · exact .inr ⟨hne, hbuffer, by simpa using hdot, by simpa using hdots⟩

theorem clean_pathState {cs : List Char} {path : List (List Char)} {buffer : List Char}
    (hpath : Clean path) (hbuffer : ∀ c ∈ buffer, Kept c) : Clean (pathState cs path buffer) := by
  induction cs generalizing path buffer with
  | nil => exact clean_endSegment false hpath hbuffer
  | cons c cs ih =>
      rw [pathState]
      split
      · exact clean_endSegment false hpath hbuffer
      · split
        · exact ih (clean_endSegment true hpath hbuffer) fun _ hc => absurd hc List.not_mem_nil
        · rename_i hsep
          simp only [not_or] at hsep
          refine ih hpath fun c' hc' => ?_
          rcases List.mem_append.mp hc' with hc' | hc'
          · exact hbuffer c' hc'
          · exact kept_encodeChar hsep.1 hsep.2 c' hc'

theorem clean_parsePath (cs : List Char) : Clean (parsePath cs) :=
  clean_pathState (fun _ h => absurd h List.not_mem_nil) fun _ h => absurd h List.not_mem_nil

/-! ### Plain text is one segment -/

theorem Kept.encodeChar {c : Char} (h : Kept c) : Url.encodeChar c = [c] := by
  rw [Url.encodeChar, h.1]
  rfl

theorem Kept.not_end {c : Char} (h : Kept c) : ¬(c = '?' ∨ c = '#') := by
  rintro (rfl | rfl)
  · exact absurd h (by decide)
  · exact absurd h (by decide)

theorem pathState_kept {cs : List Char} {path : List (List Char)} {buffer : List Char}
    (h : ∀ c ∈ cs, Kept c) : pathState cs path buffer = endSegment path (buffer ++ cs) false := by
  induction cs generalizing buffer with
  | nil => rw [pathState, List.append_nil]
  | cons c cs ih =>
      have hc := h c List.mem_cons_self
      have hsep : ¬(c = '/' ∨ c = '\\') := not_or.mpr hc.2
      rw [pathState, if_neg hc.not_end, if_neg hsep, hc.encodeChar,
        ih fun c' hc' => h c' (List.mem_cons_of_mem _ hc'), List.append_assoc]
      rfl

theorem Kept.not_dropped {c : Char} (h : Kept c) :
    isC0OrSpace c = false ∧ isTabOrNewline c = false := by
  have hset := h.1
  simp only [inPathSet, decide_eq_false_iff_not, not_or] at hset
  have hlow : ¬c.toNat ≤ 0x20 := hset.1
  refine ⟨by simpa [isC0OrSpace] using hlow, ?_⟩
  simp only [isTabOrNewline, decide_eq_false_iff_not]
  rintro (rfl | rfl | rfl) <;> exact hlow (by decide)

theorem Plain.parsePath {cs : List Char} (h : Plain cs) : Url.parsePath cs = [cs] := by
  have hdrop : cs.rdropWhile isC0OrSpace = cs := by
    rw [List.rdropWhile_eq_self_iff]
    intro hne
    simp [(h.kept _ (List.getLast_mem hne)).not_dropped.1]
  have hfilter : (cs.filter fun c => !isTabOrNewline c) = cs := by
    rw [List.filter_eq_self]
    intro c hc
    simp [(h.kept c hc).not_dropped.2]
  rw [Url.parsePath, hdrop, hfilter, pathState_kept h.kept, endSegment, List.nil_append, h.noDots,
    h.noDot]
  rfl

end VmIo.Lib.Url
