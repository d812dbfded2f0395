import VmIo.Lib.Bytes

/-!
A binary format without tags: values are written one after the other, and each
type alone says how many bytes of the input are its own.

Integers are of variable length, strings, lists and variants are preceded by an
integer, options by one byte, and a record is its fields. A reader is known by what
it makes of what was written, and by what it needs (`ValueReader`). An element of a
sequence may also be missing where the input ends (`ElementReader`), and a field of
a record may then have a default. So a record can be read that was written without
its last field, if nothing follows it, but of a list of such records only the last
one may be short (`readList_length`).
-/

namespace VmIo.Lib

inductive DecodeError
  | unexpectedEnd
  | invalidInteger
  | unexpectedVariant
  | utf8
  | invalidLength (index : ℕ)
  | other (text : String)
  deriving DecidableEq, Repr

/-- A reader takes a value from the front of the input. -/
abbrev Reader (α : Type) := StateT Bytes (Except DecodeError) α

class Serialize (α : Type) where
  serialize : α → Bytes

export Serialize (serialize)

/-- The reader takes the bytes `used` for `a`, whatever follows. -/
def Takes {α : Type} (f : Reader α) (a : α) (used : Bytes) : Prop :=
  ∀ more, f (used ++ more) = .ok (a, more)

section

variable {α β : Type} {f : Reader α} {a : α} {b : β} {used used' : Bytes}

theorem Takes.bind_apply {g : α → Reader β} (h : Takes f a used) (more : Bytes) :
    (f >>= g) (used ++ more) = g a more := by
  show (f (used ++ more) >>= fun p => g p.1 p.2) = _
  rw [h]
  rfl

theorem Takes.bind {g : α → Reader β} (h : Takes f a used) (h' : Takes (g a) b used') :
    Takes (f >>= g) b (used ++ used') := by
  intro more
  rw [List.append_assoc, h.bind_apply]
  exact h' more

theorem map_apply {bs rest : Bytes} (h : f bs = .ok (a, rest)) (g : α → β) :
    (g <$> f) bs = .ok (g a, rest) := by
  show (f bs >>= fun p => .ok (g p.1, p.2)) = _
  rw [h]
  rfl

theorem Takes.map (h : Takes f a used) (g : α → β) : Takes (g <$> f) (g a) used :=
  fun more => map_apply (h more) g

theorem Takes.bind_pure {g : α → β} (h : Takes f a used) :
    Takes (f >>= fun a => pure (g a)) (g a) used := h.map g

theorem bind_reads {g : α → Reader β} {bs rest : Bytes} (h : (f >>= g) bs = .ok (b, rest)) :
    ∃ a bs', f bs = .ok (a, bs') ∧ g a bs' = .ok (b, rest) := by
  change (f bs >>= fun p => g p.1 p.2) = _ at h
  cases hf : f bs with
  | error e =>
      rw [hf] at h
      contradiction
  | ok p =>
      rw [hf] at h
      exact ⟨p.1, p.2, rfl, h⟩

theorem map_reads {g : α → β} {bs rest : Bytes} (h : (g <$> f) bs = .ok (b, rest)) :
    ∃ a, f bs = .ok (a, rest) ∧ g a = b := by
  obtain ⟨a, bs', hf, hret⟩ := bind_reads (g := fun a => pure (g a)) h
  cases hret
  exact ⟨a, hf, rfl⟩

end

/-! ### Readers -/

/-- A reader of the values of a type, as they are written. -/
structure ValueReader (α : Type) [Serialize α] where
  read : Reader α
  takes (a : α) : Takes read a (serialize a)
  nil : read [] = .error .unexpectedEnd
  /-- What is read would take no more than what there is. -/
  length_le {bs rest : Bytes} {a : α} (h : read bs = .ok (a, rest)) :
    (serialize a).length + rest.length ≤ bs.length

/-- A reader of the elements of a sequence. There is none where the input ends. -/
structure ElementReader (α : Type) [Serialize α] where
  next : Reader (Option α)
  takes (a : α) : Takes next (some a) (serialize a)
  nil : next [] = .ok (none, [])
  length_le {bs rest : Bytes} {a : α} (h : next bs = .ok (some a, rest)) :
    (serialize a).length + rest.length ≤ bs.length

section

variable {α : Type} [Serialize α]

def ValueReader.element (r : ValueReader α) : ElementReader α where
  next bs :=
    match r.read bs with
    | .ok (a, rest) => .ok (some a, rest)
    | .error .unexpectedEnd => .ok (none, [])
    | .error e => .error e
  takes a more := by
    beta_reduce
    rw [r.takes a more]
  nil := by rw [r.nil]
  length_le := by
    intro bs rest a h
    split at h
    · rename_i hread
      cases h
      exact r.length_le hread
    · cases h
    · cases h

theorem ValueReader.element_none {r : ValueReader α} {bs rest : Bytes}
    (h : r.element.next bs = .ok (none, rest)) : rest = [] := by
  simp only [ValueReader.element] at h
  split at h
  · cases h
  · cases h
    rfl
  · cases h

namespace ElementReader

variable (r : ElementReader α) {bs rest : Bytes} {a : α}

/-- A field that has no default. -/
def required (index : ℕ) : Reader α := do
  match ← r.next with
  | some a => return a
  | none => throw (.invalidLength index)

/-- A field that has one. -/
def orDefault (default : α) : Reader α := do
  let a ← r.next
  return a.getD default

theorem required_takes (index : ℕ) (a : α) : Takes (r.required index) a (serialize a) := by
  intro more
  show (r.next (serialize a ++ more) >>= _) = _
  rw [r.takes]
  rfl

theorem orDefault_takes (default a : α) : Takes (r.orDefault default) a (serialize a) :=
  (r.takes a).bind_pure

theorem required_nil (index : ℕ) : r.required index [] = .error (.invalidLength index) := by
  show (r.next [] >>= _) = _
  rw [r.nil]
  rfl

theorem orDefault_nil {β : Type} (default : α) (g : α → β) :
    (r.orDefault default >>= fun a => pure (g a) : Reader β) [] = .ok (g default, []) := by
  show (r.next [] >>= _) >>= _ = _
  rw [r.nil]
  rfl

variable {r}

theorem required_length_le {index : ℕ} (h : r.required index bs = .ok (a, rest)) :
    (serialize a).length + rest.length ≤ bs.length := by
  obtain ⟨value, bs', hnext, hret⟩ := bind_reads h
  cases value with
  | none => cases hret
  | some a' =>
      cases hret
      exact r.length_le hnext

theorem orDefault_reads {default : α} (h : r.orDefault default bs = .ok (a, rest)) :
    (serialize a).length + rest.length ≤ bs.length ∨
      r.next bs = .ok (none, rest) ∧ a = default := by
  obtain ⟨value, hnext, rfl⟩ := map_reads (g := fun value => Option.getD value default) h
  cases value with
  | none => exact .inr ⟨hnext, rfl⟩
  | some a' => exact .inl (r.length_le hnext)

end ElementReader

end

/-! ### Integers -/

def takeBytes (n : ℕ) : Reader {l : Bytes // l.length = n} := fun bs =>
  if h : n ≤ bs.length then .ok (⟨bs.take n, by simp [h]⟩, bs.drop n) else .error .unexpectedEnd

theorem takeBytes_takes {n : ℕ} {l : Bytes} (h : l.length = n) : Takes (takeBytes n) ⟨l, h⟩ l := by
  subst h
  intro rest
  have hle : l.length ≤ (l ++ rest).length := by simp
  rw [takeBytes, dif_pos hle]
  simp

theorem takeBytes_eq_ok {n : ℕ} {bs rest : Bytes} {l : {l : Bytes // l.length = n}}
    (h : takeBytes n bs = .ok (l, rest)) : bs = l.1 ++ rest := by
  unfold takeBytes at h
  split at h
  · simp only [Except.ok.injEq, Prod.mk.injEq] at h
    rw [← h.1, ← h.2, List.take_append_drop]
  · contradiction

def readByte : Reader UInt8
  | [] => .error .unexpectedEnd
  | b :: bs => .ok (b, bs)

theorem readByte_takes (b : UInt8) : Takes readByte b [b] := fun _ => rfl

theorem readByte_eq_ok {bs rest : Bytes} {b : UInt8} (h : readByte bs = .ok (b, rest)) :
    bs = b :: rest := by
  cases bs with
  | nil => contradiction
  | cons c bs =>
      cases h
      rfl

/-- One byte below 251, else a marker and two, four or eight bytes. -/
def varint (n : ℕ) : Bytes :=
  if n < 251 then [UInt8.ofNat n]
  else if n < 2 ^ 16 then 251 :: leBytes 2 n
  else if n < 2 ^ 32 then 252 :: leBytes 4 n
  else 253 :: leBytes 8 n

def readLe (n : ℕ) : Reader ℕ := (fun l => leNat l.1) <$> takeBytes n

/-- What follows the first byte of an integer of at most `width` bytes. -/
def readMarked (width : ℕ) (b : UInt8) : Reader ℕ :=
  if b < 251 then return b.toNat
  else if b = 251 then readLe 2
  else if b = 252 then readLe 4
  else if b = 253 ∧ width = 8 then readLe 8
  else throw .invalidInteger

/-- An integer of at most `width` bytes, which is four or eight. -/
def readVarint (width : ℕ) : Reader ℕ := do
  let b ← readByte
  readMarked width b

theorem readLe_takes {n v : ℕ} (hv : v < 256 ^ n) : Takes (readLe n) v (leBytes n v) := by
  have h := (takeBytes_takes (leBytes_length n v)).map fun l => leNat l.1
  rwa [leNat_leBytes hv] at h

theorem readLe_eq_ok {n v : ℕ} {bs rest : Bytes} (h : readLe n bs = .ok (v, rest)) :
    n + rest.length = bs.length ∧ v < 256 ^ n := by
  obtain ⟨⟨l, hl⟩, htake, rfl⟩ := map_reads h
  have hlt := leNat_lt l
  rw [hl] at hlt
  rw [takeBytes_eq_ok htake, List.length_append, hl]
  exact ⟨rfl, hlt⟩

theorem readVarint_takes {width n : ℕ} (hwidth : width = 4 ∨ width = 8) (hn : n < 256 ^ width) :
    Takes (readVarint width) n (varint n) := by
  have hmarked : ∀ b k, readMarked width b = readLe k → n < 256 ^ k →
      Takes (readVarint width) n (b :: leBytes k n) := by
    intro b k hb hk
    refine (readByte_takes b).bind ?_
    rw [hb]
    exact readLe_takes hk
  unfold varint
  split
  case isTrue h =>
    have hbyte : (UInt8.ofNat n).toNat = n := by
      rw [UInt8.toNat_ofNat']
      omega
    have hlt : UInt8.ofNat n < 251 := by
      rw [UInt8.lt_iff_toNat_lt, hbyte]
      exact h
    have hrest : Takes (readMarked width (UInt8.ofNat n)) n [] := by
      rw [readMarked, if_pos hlt, hbyte]
      exact fun _ => rfl
    exact (readByte_takes (UInt8.ofNat n)).bind hrest
  case isFalse h₁ =>
    split
    case isTrue h => exact hmarked 251 2 rfl (by omega)
    case isFalse h₂ =>
      split
      case isTrue h => exact hmarked 252 4 rfl (by omega)
      case isFalse h₃ =>
        -- only the wide reader is given a number that needs eight bytes
        obtain rfl : width = 8 := by
          rcases hwidth with rfl | h
          · omega
          · exact h
        exact hmarked 253 8 rfl hn

theorem varint_length_le {v n : ℕ} (hn : n = 2 ∨ n = 4 ∨ n = 8) (hv : v < 256 ^ n) :
    (varint v).length ≤ n + 1 := by
  unfold varint
  rcases hn with rfl | rfl | rfl <;> split_ifs <;> simp at * <;> omega

theorem readMarked_cases {width : ℕ} {b : UInt8} (hwidth : width = 4 ∨ width = 8) :
    (b.toNat < 251 ∧ readMarked width b = pure b.toNat) ∨
    (∃ n, (n = 2 ∨ n = 4 ∨ n = 8) ∧ n ≤ width ∧ readMarked width b = readLe n) ∨
    readMarked width b = throw .invalidInteger := by
  unfold readMarked
  by_cases hsmall : b < 251
  · rw [if_pos hsmall]
    exact .inl ⟨UInt8.lt_iff_toNat_lt.mp hsmall, rfl⟩
  · right
    rw [if_neg hsmall]
    split_ifs with h₂ h₄ h₈
    · exact .inl ⟨2, by omega, by omega, rfl⟩
    · exact .inl ⟨4, by omega, by omega, rfl⟩
    · exact .inl ⟨8, by omega, h₈.2.ge, rfl⟩
    · exact .inr rfl

theorem readVarint_eq_ok {width v : ℕ} {bs rest : Bytes} (hwidth : width = 4 ∨ width = 8)
    (h : readVarint width bs = .ok (v, rest)) :
    (varint v).length + rest.length ≤ bs.length ∧ v < 256 ^ width := by
  obtain ⟨b, bs', hbyte, hmark⟩ := bind_reads h
  obtain rfl := readByte_eq_ok hbyte
  rcases @readMarked_cases width b hwidth with ⟨hlt, hb⟩ | ⟨n, hn, hle, hb⟩ | hb
  · rw [hb] at hmark
    cases hmark
    have hwide : 256 ^ 4 ≤ 256 ^ width := Nat.pow_le_pow_right (by omega) (by omega)
    refine ⟨?_, by omega⟩
    rw [varint, if_pos hlt, List.length_singleton, List.length_cons]
    omega
  · rw [hb] at hmark
    obtain ⟨hlen, hv⟩ := readLe_eq_ok hmark
    have hwide : 256 ^ n ≤ 256 ^ width := Nat.pow_le_pow_right (by omega) hle
    have hshort := varint_length_le hn hv
    rw [List.length_cons]
    exact ⟨by omega, by omega⟩
  · rw [hb] at hmark
    contradiction

instance : Serialize UInt32 := ⟨fun n => varint n.toNat⟩

instance : Serialize UInt64 := ⟨fun n => varint n.toNat⟩

def ValueReader.u32 : ValueReader UInt32 where
  read := UInt32.ofNat <$> readVarint 4
  takes n := by
    have h := (readVarint_takes (.inl rfl) n.toNat_lt).map UInt32.ofNat
    rwa [UInt32.ofNat_toNat] at h
  nil := rfl
  length_le := by
    intro bs rest n h
    obtain ⟨v, hread, rfl⟩ := map_reads h
    obtain ⟨hlen, hv⟩ := readVarint_eq_ok (.inl rfl) hread
    show (varint (UInt32.ofNat v).toNat).length + _ ≤ _
    rwa [UInt32.toNat_ofNat_of_lt' hv]

def ValueReader.u64 : ValueReader UInt64 where
  read := UInt64.ofNat <$> readVarint 8
  takes n := by
    have h := (readVarint_takes (.inr rfl) n.toNat_lt).map UInt64.ofNat
    rwa [UInt64.ofNat_toNat] at h
  nil := rfl
  length_le := by
    intro bs rest n h
    obtain ⟨v, hread, rfl⟩ := map_reads h
    obtain ⟨hlen, hv⟩ := readVarint_eq_ok (.inr rfl) hread
    show (varint (UInt64.ofNat v).toNat).length + _ ≤ _
    rwa [UInt64.toNat_ofNat_of_lt' hv]

/-- Numbers of either sign as natural numbers, those near zero first. -/
def zigzag (v : ℤ) : ℕ := if v < 0 then (-2 * v - 1).toNat else (2 * v).toNat

def unzigzag (n : ℕ) : ℤ := if n % 2 = 0 then n / 2 else -(n / 2) - 1

theorem unzigzag_zigzag (v : ℤ) : unzigzag (zigzag v) = v := by
  unfold unzigzag zigzag
  split_ifs <;> omega

theorem zigzag_unzigzag (n : ℕ) : zigzag (unzigzag n) = n := by
  unfold unzigzag zigzag
  split_ifs <;> omega

instance : Serialize Int64 := ⟨fun v => varint (zigzag v.toInt)⟩

def ValueReader.i64 : ValueReader Int64 where
  read := (fun n => Int64.ofInt (unzigzag n)) <$> readVarint 8
  takes v := by
    have hlt : zigzag v.toInt < 256 ^ 8 := by
      have hlow := v.le_toInt
      have hhigh := v.toInt_lt
      unfold zigzag
      split_ifs <;> omega
    have h := (readVarint_takes (.inr rfl) hlt).map fun n => Int64.ofInt (unzigzag n)
    rwa [unzigzag_zigzag, Int64.ofInt_toInt] at h
  nil := rfl
  length_le := by
    intro bs rest v h
    obtain ⟨n, hread, rfl⟩ := map_reads h
    obtain ⟨hlen, hn⟩ := readVarint_eq_ok (.inr rfl) hread
    have hint : (Int64.ofInt (unzigzag n)).toInt = unzigzag n := by
      apply Int64.toInt_ofInt_of_le <;> unfold unzigzag <;> split_ifs <;> omega
    show (varint (zigzag (Int64.ofInt (unzigzag n)).toInt)).length + _ ≤ _
    rwa [hint, zigzag_unzigzag]

/-! ### Options and variants -/

section

variable {α ε : Type} [Serialize α] [Serialize ε]

instance : Serialize (Option α) where
  serialize
    | none => [0]
    | some a => 1 :: serialize a

def readOption (r : ValueReader α) (tag : UInt8) : Reader (Option α) :=
  if tag = 0 then return none
  else if tag = 1 then some <$> r.read
  else throw .unexpectedVariant

def ValueReader.option (r : ValueReader α) : ValueReader (Option α) where
  read := do
    let tag ← readByte
    readOption r tag
  takes a := by
    cases a with
    | none => exact fun _ => rfl
    | some a => exact (readByte_takes 1).bind ((r.takes a).map some)
  nil := rfl
  length_le := by
    intro bs rest a h
    obtain ⟨tag, bs', hbyte, hbody⟩ := bind_reads h
    obtain rfl := readByte_eq_ok hbyte
    by_cases h₀ : tag = 0
    · subst h₀
      cases hbody
      exact (Nat.add_comm _ _).le
    · by_cases h₁ : tag = 1
      · subst h₁
        obtain ⟨v, hread, rfl⟩ := map_reads hbody
        have hlen := r.length_le hread
        show (serialize v).length + 1 + rest.length ≤ bs'.length + 1
        omega
      · rw [readOption, if_neg h₀, if_neg h₁] at hbody
        contradiction

instance : Serialize (Except ε α) where
  serialize
    | .ok a => serialize (0 : UInt32) ++ serialize a
    | .error e => serialize (1 : UInt32) ++ serialize e

variable (variant : ValueReader UInt32) {ok : Reader α} {err : Reader ε}

/-- A result, given how either of its variants is read. -/
def readResult (ok : Reader α) (err : Reader ε) : Reader (Except ε α) := do
  match ← variant.read with
  | 0 => .ok <$> ok
  | 1 => .error <$> err
  | _ => throw .unexpectedVariant

omit [Serialize α] [Serialize ε] in
theorem readResult_ok (bs : Bytes) :
    readResult variant ok err (serialize (0 : UInt32) ++ bs) = (Except.ok <$> ok) bs :=
  (variant.takes 0).bind_apply bs

theorem readResult_takes (hok : ∀ a, Takes ok a (serialize a))
    (herr : ∀ e, Takes err e (serialize e)) (res : Except ε α) :
    Takes (readResult variant ok err) res (serialize res) := by
  cases res with
  | ok a => exact (variant.takes 0).bind ((hok a).map Except.ok)
  | error e => exact (variant.takes 1).bind ((herr e).map Except.error)

variable {variant}

omit [Serialize α] [Serialize ε] in
theorem readResult_eq_ok {bs rest : Bytes} {a : α}
    (h : readResult variant ok err bs = .ok (.ok a, rest)) :
    ∃ bs', (serialize (0 : UInt32)).length + bs'.length ≤ bs.length ∧ ok bs' = .ok (a, rest) := by
  obtain ⟨n, bs', hread, hbody⟩ := bind_reads h
  have hlen := variant.length_le hread
  split at hbody
  · obtain ⟨a', hok, heq⟩ := map_reads hbody
    cases heq
    exact ⟨bs', hlen, hok⟩
  · obtain ⟨_, _, heq⟩ := map_reads hbody
    cases heq
  · cases hbody

end

/-! ### Strings and lists -/

/-- A string of a length that a `usize` holds. -/
abbrev Text := {s : String // s.utf8ByteSize < 2 ^ 64}

instance : Serialize Text :=
  ⟨fun s => serialize (UInt64.ofNat s.1.utf8ByteSize) ++ utf8 s.1⟩

def readText {n : UInt64} (l : {l : Bytes // l.length = n.toNat}) : Reader Text :=
  if h : (fromUtf8? l.1).isSome then
    return ⟨(fromUtf8? l.1).get h, by
      rw [← utf8_length, utf8_of_fromUtf8? (Option.some_get h).symm, l.2]
      exact n.toNat_lt⟩
  else throw .utf8

theorem readText_utf8 (s : Text) {n : UInt64} (h : (utf8 s.1).length = n.toNat) :
    readText ⟨utf8 s.1, h⟩ = pure s := by
  have hs := fromUtf8?_utf8 s.1
  have hsome : (fromUtf8? (utf8 s.1)).isSome := by
    rw [hs]
    rfl
  rw [readText, dif_pos hsome]
  congr 1
  apply Subtype.ext
  exact Option.get_of_eq_some hsome hs

theorem readText_eq_ok {n : UInt64} {l : {l : Bytes // l.length = n.toNat}} {bs rest : Bytes}
    {s : Text} (h : readText l bs = .ok (s, rest)) : l.1 = utf8 s.1 ∧ bs = rest := by
  unfold readText at h
  split at h
  case isTrue hsome =>
    cases h
    exact ⟨(utf8_of_fromUtf8? (Option.some_get hsome).symm).symm, rfl⟩
  case isFalse => contradiction

def ValueReader.text : ValueReader Text where
  read := do
    let n ← ValueReader.u64.read
    let l ← takeBytes n.toNat
    readText l
  takes s := by
    have hlen : (utf8 s.1).length = (UInt64.ofNat s.1.utf8ByteSize).toNat := by
      rw [utf8_length, UInt64.toNat_ofNat_of_lt' s.2]
    refine (ValueReader.u64.takes (UInt64.ofNat s.1.utf8ByteSize)).bind ?_
    rw [← List.append_nil (utf8 s.1)]
    refine (takeBytes_takes hlen).bind ?_
    rw [readText_utf8]
    exact fun _ => rfl
  nil := rfl
  length_le := by
    intro bs rest s h
    obtain ⟨n, bs', hn, hbody⟩ := bind_reads h
    obtain ⟨⟨l, hl⟩, bs'', htake, htext⟩ := bind_reads hbody
    obtain ⟨rfl, rfl⟩ := readText_eq_ok htext
    obtain rfl := takeBytes_eq_ok htake
    have hlen : (serialize n).length + (utf8 s.1 ++ bs'').length ≤ bs.length :=
      ValueReader.u64.length_le hn
    have hsize : UInt64.ofNat s.1.utf8ByteSize = n := by
      rw [← utf8_length, hl, UInt64.ofNat_toNat]
    show (serialize (UInt64.ofNat s.1.utf8ByteSize) ++ utf8 s.1).length + _ ≤ _
    rw [hsize, List.length_append]
    rw [List.length_append] at hlen
    omega

section

variable {α β : Type}

/-- A list of a length that a `usize` holds. -/
abbrev Seq (α : Type) := {l : List α // l.length < 2 ^ 64}

def Seq.map (f : α → β) (l : Seq α) : Seq β := ⟨l.1.map f, by simpa using l.2⟩

abbrev Seq.ofSized {n : UInt64} (l : {l : List α // l.length = n.toNat}) : Seq α :=
  ⟨l.1, by rw [l.2]; exact n.toNat_lt⟩

abbrev consSized {n : ℕ} (a : α) (l : {l : List α // l.length = n}) :
    {l : List α // l.length = n + 1} :=
  ⟨a :: l.1, congrArg (· + 1) l.2⟩

variable [Serialize α] [Serialize β]

instance : Serialize (Seq α) :=
  ⟨fun l => serialize (UInt64.ofNat l.1.length) ++ l.1.flatMap serialize⟩

def readList (f : Reader α) : (n : ℕ) → Reader {l : List α // l.length = n}
  | 0 => return ⟨[], rfl⟩
  | n + 1 => do
      let a ← f
      consSized a <$> readList f n

/-- A list after its length, given how an element is read. -/
def readSeq (length : ValueReader UInt64) (f : Reader α) : Reader (Seq α) := do
  let n ← length.read
  Seq.ofSized <$> readList f n.toNat

variable {f : Reader α} {length : ValueReader UInt64}

theorem readList_takes (h : ∀ a, Takes f a (serialize a)) {n : ℕ}
    (l : {l : List α // l.length = n}) : Takes (readList f n) l (l.1.flatMap serialize) := by
  obtain ⟨l, hl⟩ := l
  subst hl
  induction l with
  | nil => exact fun _ => rfl
  | cons a l ih =>
      show Takes _ _ (serialize a ++ l.flatMap serialize)
      exact (h a).bind (ih.map (consSized a))

theorem readSeq_takes (h : ∀ a, Takes f a (serialize a)) (l : Seq α) :
    Takes (readSeq length f) l (serialize l) := by
  have hlen : l.1.length = (UInt64.ofNat l.1.length).toNat := by
    rw [UInt64.toNat_ofNat_of_lt' l.2]
  refine (length.takes (UInt64.ofNat l.1.length)).bind ?_
  exact (readList_takes h ⟨l.1, hlen⟩).map Seq.ofSized

omit [Serialize α] in
theorem readSeq_single {bs : Bytes} {a : α} (h : f bs = .ok (a, [])) :
    readSeq length f (serialize (1 : UInt64) ++ bs) = .ok (⟨[a], by simp⟩, []) := by
  have hlist : readList f (1 : UInt64).toNat bs = .ok (⟨[a], rfl⟩, []) := by
    show (f bs >>= _) = _
    rw [h]
    rfl
  exact ((length.takes 1).bind_apply bs).trans (map_apply hlist Seq.ofSized)

/-- The reader needs some input, and only where it comes to the end of it may a value have been
read that takes `k` bytes more than there are. -/
structure ShortAtEnd (f : Reader α) (k : ℕ) : Prop where
  nil (a : α) (rest : Bytes) : f [] ≠ .ok (a, rest)
  length_le {bs rest : Bytes} {a : α} (h : f bs = .ok (a, rest)) :
    (serialize a).length + rest.length ≤ bs.length ∨
      rest = [] ∧ (serialize a).length ≤ bs.length + k

theorem readList_length {k n : ℕ} (hf : ShortAtEnd f k) {l : {l : List α // l.length = n}}
    {bs rest : Bytes} (h : readList f n bs = .ok (l, rest)) :
    (l.1.flatMap serialize).length + rest.length ≤ bs.length + k := by
  induction n generalizing bs with
  | zero =>
      cases h
      simp
  | succ n ih =>
      obtain ⟨a, bs', ha, hbody⟩ := bind_reads h
      obtain ⟨l', hl', rfl⟩ := map_reads hbody
      show (serialize a ++ l'.1.flatMap serialize).length + _ ≤ _
      rw [List.length_append]
      rcases hf.length_le ha with hlen | ⟨rfl, hlen⟩
      · have hrest := ih hl'
        omega
      · -- no element follows where the input has ended
        cases n with
        | zero =>
            cases hl'
            simpa using hlen
        | succ n =>
            obtain ⟨a', bs'', ha', _⟩ := bind_reads hl'
            exact absurd ha' (hf.nil a' bs'')

theorem readSeq_length {k : ℕ} (hf : ShortAtEnd f k) {l : Seq α} {bs rest : Bytes}
    (h : readSeq length f bs = .ok (l, rest)) :
    (serialize l).length + rest.length ≤ bs.length + k := by
  obtain ⟨n, bs', hn, hbody⟩ := bind_reads h
  obtain ⟨⟨m, hm⟩, hlist, rfl⟩ := map_reads hbody
  have hlen := length.length_le hn
  have hrest : (m.flatMap serialize).length + rest.length ≤ bs'.length + k :=
    readList_length hf hlist
  have hsize : UInt64.ofNat m.length = n := by
    rw [hm, UInt64.ofNat_toNat]
  show (serialize (UInt64.ofNat m.length) ++ m.flatMap serialize).length + _ ≤ _
  rw [hsize, List.length_append]
  omega

/-- A list of values that have grown takes more than the list of what they were. -/
theorem serialize_map_length {grow : α → β} {k : ℕ}
    (hgrow : ∀ a, (serialize (grow a)).length = (serialize a).length + k) (l : Seq α) :
    (serialize (l.map grow)).length = (serialize l).length + k * l.1.length := by
  have hbody : ∀ m : List α, ((m.map grow).flatMap serialize).length =
      (m.flatMap serialize).length + k * m.length := by
    intro m
    induction m with
    | nil => rfl
    | cons a m ih =>
        simp only [List.map_cons, List.flatMap_cons, List.length_append, List.length_cons, hgrow,
          ih, Nat.mul_add, Nat.mul_one]
        omega
  show (serialize (UInt64.ofNat (l.1.map grow).length) ++ (l.1.map grow).flatMap serialize).length =
    (serialize (UInt64.ofNat l.1.length) ++ l.1.flatMap serialize).length + _
  rw [List.length_map, List.length_append, List.length_append, hbody]
  omega

end

end VmIo.Lib
