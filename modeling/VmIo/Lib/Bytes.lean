import Mathlib

/-!
Byte strings: UTF-8 text, fixed-width little-endian numbers, hexadecimal text,
and writing a block over a byte string at an offset.
-/

namespace VmIo.Lib

abbrev Bytes := List UInt8

/-- The bytes of a string, as UTF-8. -/
def utf8 (s : String) : Bytes := s.toByteArray.data.toList

theorem utf8_injective {s t : String} (h : utf8 s = utf8 t) : s = t := by
  rw [← String.toByteArray_inj]
  apply ByteArray.ext
  exact Array.toList_inj.mp h

@[simp] theorem utf8_length (s : String) : (utf8 s).length = s.utf8ByteSize := rfl

def fromUtf8? (bs : Bytes) : Option String := String.fromUTF8? ⟨bs.toArray⟩

theorem utf8_of_fromUtf8? {bs : Bytes} {s : String} (h : fromUtf8? bs = some s) : utf8 s = bs := by
  rw [fromUtf8?, String.fromUTF8?] at h
  split at h
  case isTrue hvalid =>
    rw [← Option.some.inj h]
    rfl
  case isFalse => contradiction

theorem fromUtf8?_utf8 (s : String) : fromUtf8? (utf8 s) = some s := by
  have hbytes : (⟨(utf8 s).toArray⟩ : ByteArray) = s.toByteArray := by
    apply ByteArray.ext
    simp [utf8]
  have hvalid : s.toByteArray.IsValidUTF8 := s.isValidUTF8
  rw [fromUtf8?, hbytes, String.fromUTF8?, dif_pos hvalid]
  exact congrArg some (String.toByteArray_inj.mp rfl)

/-- Sort key of a string: strings compare byte by byte. -/
def byteOrder (s : String) : List ℕ := (utf8 s).map UInt8.toNat

theorem byteOrder_injective {s t : String} (h : byteOrder s = byteOrder t) : s = t := by
  apply utf8_injective
  exact List.map_injective_iff.mpr (fun _ _ => UInt8.toNat_inj.mp) h

/-! ### Text from any bytes -/

/-- The number of bytes that follow the first byte of a character of several, and the
range of the first of them. -/
def utf8Lead (b : UInt8) : Option (ℕ × UInt8 × UInt8) :=
  if 0xC2 ≤ b ∧ b ≤ 0xDF then some (1, 0x80, 0xBF)
  else if b = 0xE0 then some (2, 0xA0, 0xBF)
  else if b = 0xED then some (2, 0x80, 0x9F)
  else if 0xE1 ≤ b ∧ b ≤ 0xEF then some (2, 0x80, 0xBF)
  else if b = 0xF0 then some (3, 0x90, 0xBF)
  else if 0xF1 ≤ b ∧ b ≤ 0xF3 then some (3, 0x80, 0xBF)
  else if b = 0xF4 then some (3, 0x80, 0x8F)
  else none

/-- The characters of the bytes, of which there are at most so many. U+FFFD stands for
each longest piece that begins a character without ending it, and for each byte that
begins none. -/
def lossyChars : ℕ → Bytes → List Char
  | 0, _ => []
  | _ + 1, [] => []
  | fuel + 1, b :: bs =>
      if b < 0x80 then Char.ofNat b.toNat :: lossyChars fuel bs
      else
        match utf8Lead b, bs with
        | some (n, lo, hi), c :: cs =>
            if lo ≤ c ∧ c ≤ hi then
              let tail := (cs.take (n - 1)).takeWhile fun d => 0x80 ≤ d && d ≤ 0xBF
              let code := (c :: tail).foldl (fun v d => 64 * v + d.toNat % 64)
                (b.toNat % 2 ^ (6 - n))
              (if tail.length + 1 = n then Char.ofNat code else '\uFFFD') ::
                lossyChars fuel (cs.drop tail.length)
            else '\uFFFD' :: lossyChars fuel bs
        | _, _ => '\uFFFD' :: lossyChars fuel bs

/-- `String::from_utf8_lossy` -/
def fromUtf8Lossy (bs : Bytes) : String :=
  (fromUtf8? bs).getD (String.ofList (lossyChars bs.length bs))

@[simp] theorem fromUtf8Lossy_utf8 (s : String) : fromUtf8Lossy (utf8 s) = s := by
  rw [fromUtf8Lossy, fromUtf8?_utf8, Option.getD_some]

/-- A character cut short, a byte that begins none, and two that end none. -/
example : lossyChars 8 [0x41, 0xE2, 0x82, 0xFF, 0xC3, 0xA9, 0x80, 0x80] =
    ['A', '\uFFFD', '\uFFFD', '\u00e9', '\uFFFD', '\uFFFD'] := by
  decide

/-! ### Little-endian numbers -/

/-- The `n` low bytes of `v`, lowest first. -/
def leBytes : ℕ → ℕ → Bytes
  | 0, _ => []
  | n + 1, v => UInt8.ofNat v :: leBytes n (v / 256)

@[simp] theorem leBytes_length (n v : ℕ) : (leBytes n v).length = n := by
  induction n generalizing v with
  | zero => rfl
  | succ n ih => simp [leBytes, ih]

theorem leBytes_injective {n v w : ℕ} (hv : v < 256 ^ n) (hw : w < 256 ^ n)
    (h : leBytes n v = leBytes n w) : v = w := by
  induction n generalizing v w with
  | zero =>
      rw [Nat.pow_zero] at hv hw
      omega
  | succ n ih =>
      simp only [leBytes, List.cons.injEq] at h
      obtain ⟨hlow, hhigh⟩ := h
      have hdiv : v / 256 = w / 256 := by
        apply ih _ _ hhigh
        · exact Nat.div_lt_of_lt_mul (by rw [Nat.pow_succ] at hv; omega)
        · exact Nat.div_lt_of_lt_mul (by rw [Nat.pow_succ] at hw; omega)
      have hmod : v % 256 = w % 256 := by
        have := congrArg UInt8.toNat hlow
        simpa using this
      omega

def leNat : Bytes → ℕ
  | [] => 0
  | b :: bs => b.toNat + 256 * leNat bs

theorem leNat_lt (bs : Bytes) : leNat bs < 256 ^ bs.length := by
  induction bs with
  | nil => simp [leNat]
  | cons b bs ih =>
      have hb : b.toNat < 256 := b.toNat_lt
      rw [leNat, List.length_cons, Nat.pow_succ]
      omega

theorem leNat_leBytes {n v : ℕ} (hv : v < 256 ^ n) : leNat (leBytes n v) = v := by
  induction n generalizing v with
  | zero =>
      rw [Nat.pow_zero] at hv
      show 0 = v
      omega
  | succ n ih =>
      have hdiv : v / 256 < 256 ^ n := by
        apply Nat.div_lt_of_lt_mul
        rw [Nat.pow_succ] at hv
        omega
      show (UInt8.ofNat v).toNat + 256 * leNat (leBytes n (v / 256)) = v
      rw [ih hdiv, UInt8.toNat_ofNat']
      omega

/-! ### Hexadecimal text -/

def hexChars : List Char :=
  ['0', '1', '2', '3', '4', '5', '6', '7', '8', '9', 'a', 'b', 'c', 'd', 'e', 'f']

/-- The lower-case digit of a value below 16. -/
def hexDigit (n : ℕ) : Char := hexChars.getD n '0'

/-- The value of a hexadecimal digit in either case. -/
def hexValue? (c : Char) : Option ℕ :=
  if '0' ≤ c ∧ c ≤ '9' then some (c.toNat - 48)
  else if 'a' ≤ c ∧ c ≤ 'f' then some (c.toNat - 87)
  else if 'A' ≤ c ∧ c ≤ 'F' then some (c.toNat - 55)
  else none

theorem hexValue?_hexDigit {n : ℕ} (h : n < 16) : hexValue? (hexDigit n) = some n := by
  interval_cases n <;> decide

def hexEncode : Bytes → List Char
  | [] => []
  | b :: bs => hexDigit (b.toNat / 16) :: hexDigit (b.toNat % 16) :: hexEncode bs

def hexDecode : List Char → Option Bytes
  | [] => some []
  | [_] => none
  | c :: d :: rest => do
      let hi ← hexValue? c
      let lo ← hexValue? d
      let bs ← hexDecode rest
      return UInt8.ofNat (16 * hi + lo) :: bs

@[simp] theorem hexEncode_length (bs : Bytes) : (hexEncode bs).length = 2 * bs.length := by
  induction bs with
  | nil => rfl
  | cons b bs ih =>
      simp only [hexEncode, List.length_cons, ih]
      omega

@[simp] theorem hexDecode_hexEncode (bs : Bytes) : hexDecode (hexEncode bs) = some bs := by
  induction bs with
  | nil => rfl
  | cons b bs ih =>
      have hb : b.toNat < 256 := b.toNat_lt
      have hsum : 16 * (b.toNat / 16) + b.toNat % 16 = b.toNat := by omega
      simp only [hexEncode, hexDecode, ih,
        hexValue?_hexDigit (show b.toNat / 16 < 16 by omega),
        hexValue?_hexDigit (show b.toNat % 16 < 16 by omega), Option.bind_eq_bind,
        Option.bind_some, hsum, UInt8.ofNat_toNat]
      rfl

theorem hexValue?_of_mem_hexEncode {bs : Bytes} {c : Char} (h : c ∈ hexEncode bs) :
    (hexValue? c).isSome := by
  induction bs with
  | nil => contradiction
  | cons b bs ih =>
      have hb : b.toNat < 256 := b.toNat_lt
      simp only [hexEncode, List.mem_cons] at h
      rcases h with rfl | rfl | h
      · rw [hexValue?_hexDigit (by omega)]
        rfl
      · rw [hexValue?_hexDigit (by omega)]
        rfl
      · exact ih h

theorem hexEncode_injective {bs cs : Bytes} (h : hexEncode bs = hexEncode cs) : bs = cs := by
  have := congrArg hexDecode h
  simpa using this

/-! ### Writing at an offset -/

/-- Byte string `d` after a write of `block` at `off`. A gap before the
offset reads as zeros. -/
def overlay (d : Bytes) (off : ℕ) (block : Bytes) : Bytes :=
  d.takeD off 0 ++ block ++ d.drop (off + block.length)

/-- Writing bytes of `c` where they belong into a prefix of `c` that reaches
there gives a prefix of `c`, never a shorter one. -/
theorem overlay_take {c : Bytes} {k off n : ℕ} (hk : k ≤ c.length) (hoff : off ≤ k)
    (hn : off + n ≤ c.length) :
    overlay (c.take k) off ((c.drop off).take n) = c.take (max k (off + n)) := by
  have hblock : ((c.drop off).take n).length = n := by
    rw [List.length_take, List.length_drop]
    omega
  have hhead : (c.take k).takeD off 0 = c.take off := by
    rw [List.takeD_eq_take 0 (by rw [List.length_take]; omega), List.take_take,
      Nat.min_eq_left hoff]
  rw [overlay, hhead, hblock, ← List.take_add]
  rcases le_total k (off + n) with hle | hle
  · rw [List.drop_eq_nil_of_le (by rw [List.length_take]; omega), List.append_nil,
      Nat.max_eq_right hle]
  · rw [Nat.max_eq_left hle]
    have : c.take (off + n) = (c.take k).take (off + n) := by
      rw [List.take_take, Nat.min_eq_left hle]
    rw [this, List.take_append_drop]

theorem overlay_prefix {c d : Bytes} {off n : ℕ} (hd : d <+: c) (hoff : off ≤ d.length)
    (hn : off + n ≤ c.length) :
    overlay d off ((c.drop off).take n) <+: c ∧
      (overlay d off ((c.drop off).take n)).length = max d.length (off + n) := by
  have hlen := hd.length_le
  rw [List.prefix_iff_eq_take.mp hd, overlay_take hlen hoff hn]
  refine ⟨List.take_prefix _ _, ?_⟩
  simp only [List.length_take]
  omega

theorem overlay_length (d : Bytes) (off : ℕ) (block : Bytes) :
    (overlay d off block).length = max d.length (off + block.length) := by
  simp only [overlay, List.length_append, List.takeD_length, List.length_drop]
  omega

theorem getElem?_takeD {d : Bytes} {off i : ℕ} (hoff : i < off) (hi : i < d.length) :
    (d.takeD off 0)[i]? = d[i]? := by
  induction d generalizing off i with
  | nil => simp at hi
  | cons x d ih =>
      cases off with
      | zero => omega
      | succ off =>
          cases i with
          | zero => simp
          | succ i =>
              rw [List.takeD_succ, List.getElem?_cons_succ]
              exact ih (by omega) (by simpa using hi)

/-- Bytes of `w` written where they belong leave `d` in agreement with `w` as far as
it was, wherever the write begins. -/
theorem overlay_take_of_agrees {w d : Bytes} {k off n : ℕ} (hk : k ≤ d.length)
    (hagrees : d.take k = w.take k) (hn : off + n ≤ w.length) :
    (overlay d off ((w.drop off).take n)).take k = w.take k := by
  have hblock : ((w.drop off).take n).length = n := by
    rw [List.length_take, List.length_drop]
    omega
  apply List.ext_getElem?
  intro i
  rw [List.getElem?_take, List.getElem?_take]
  split
  · rename_i hi
    have hold : d[i]? = w[i]? := by
      have h : (d.take k)[i]? = (w.take k)[i]? := by rw [hagrees]
      rwa [List.getElem?_take, List.getElem?_take, if_pos hi, if_pos hi] at h
    have hhead : (d.takeD off 0).length = off := List.takeD_length _ _ _
    simp only [overlay, hblock, List.append_assoc]
    by_cases hbefore : i < off
    · rw [List.getElem?_append_left (by omega), getElem?_takeD hbefore (by omega), hold]
    · rw [List.getElem?_append_right (by omega), hhead]
      by_cases hin : i < off + n
      · rw [List.getElem?_append_left (by omega), List.getElem?_take, if_pos (by omega),
          List.getElem?_drop, Nat.add_sub_cancel' (by omega)]
      · rw [List.getElem?_append_right (by omega), hblock, List.getElem?_drop, ← hold]
        congr 1
        omega
  · rfl

/-- A write that begins where the agreement of `d` with `w` ends carries it on. -/
theorem overlay_take_add {w d : Bytes} {off n : ℕ} (hoff : off ≤ d.length)
    (hagrees : d.take off = w.take off) (hn : off + n ≤ w.length) :
    (overlay d off ((w.drop off).take n)).take (off + n) = w.take (off + n) := by
  have hblock : ((w.drop off).take n).length = n := by
    rw [List.length_take, List.length_drop]
    omega
  have hlen : (w.take off ++ (w.drop off).take n).length = off + n := by
    rw [List.length_append, hblock, List.length_take]
    omega
  rw [overlay, List.takeD_eq_take 0 hoff, hagrees, List.take_left' hlen, ← List.take_add]

end VmIo.Lib
