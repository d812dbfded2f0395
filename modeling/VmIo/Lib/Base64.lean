import VmIo.Lib.Bytes

/-!
Base64 with the standard alphabet and canonical padding.

Three bytes are four symbols of six bits. A last group of one or two bytes is
padded, and the bits of its last symbol that stand for no byte are zero. So
`decode` accepts the encodings and nothing else.
-/

namespace VmIo.Lib.Base64

/-- The symbol of a number below 64. -/
def symbol (n : ℕ) : Char :=
  Char.ofNat
    (if n < 26 then n + 65
    else if n < 52 then n + 71
    else if n < 62 then n - 4
    else if n = 62 then 43
    else 47)

def value? (c : Char) : Option ℕ :=
  if 65 ≤ c.toNat ∧ c.toNat ≤ 90 then some (c.toNat - 65)
  else if 97 ≤ c.toNat ∧ c.toNat ≤ 122 then some (c.toNat - 71)
  else if 48 ≤ c.toNat ∧ c.toNat ≤ 57 then some (c.toNat + 4)
  else if c.toNat = 43 then some 62
  else if c.toNat = 47 then some 63
  else none

/-- The symbol of six of the 24 bits of a group, from the given place on. -/
def sextet (n place : ℕ) : Char := symbol (n / place % 64)

def octet (n place : ℕ) : UInt8 := UInt8.ofNat (n / place % 256)

def encode : Bytes → List Char
  | [] => []
  | [a] =>
      let n := a.toNat * 65536
      [sextet n 262144, sextet n 4096, '=', '=']
  | [a, b] =>
      let n := a.toNat * 65536 + b.toNat * 256
      [sextet n 262144, sextet n 4096, sextet n 64, '=']
  | a :: b :: c :: rest =>
      let n := a.toNat * 65536 + b.toNat * 256 + c.toNat
      sextet n 262144 :: sextet n 4096 :: sextet n 64 :: sextet n 1 :: encode rest

def decode : List Char → Option Bytes
  | [] => some []
  | [p, q, '=', '='] => do
      let x ← value? p
      let y ← value? q
      guard (y % 16 = 0)
      let n := x * 262144 + y * 4096
      return [octet n 65536]
  | [p, q, r, '='] => do
      let x ← value? p
      let y ← value? q
      let z ← value? r
      guard (z % 4 = 0)
      let n := x * 262144 + y * 4096 + z * 64
      return [octet n 65536, octet n 256]
  | p :: q :: r :: s :: rest => do
      let x ← value? p
      let y ← value? q
      let z ← value? r
      let w ← value? s
      let n := x * 262144 + y * 4096 + z * 64 + w
      let bs ← decode rest
      return octet n 65536 :: octet n 256 :: octet n 1 :: bs
  | _ => none

theorem value?_symbol {n : ℕ} (h : n < 64) : value? (symbol n) = some n := by
  have hall : ∀ n < 64, value? (symbol n) = some n := by decide
  exact hall n h

theorem value?_pad : value? '=' = none := by decide

theorem value?_lt {c : Char} {n : ℕ} (h : value? c = some n) : n < 64 := by
  unfold value? at h
  split_ifs at h <;> cases h <;> omega

theorem symbol_of_value? {c : Char} {n : ℕ} (h : value? c = some n) : symbol n = c := by
  have hc : symbol n = Char.ofNat c.toNat := by
    unfold value? at h
    unfold symbol
    congr 1
    split_ifs at h <;> cases h <;> split_ifs <;> omega
  rw [hc, Char.ofNat_toNat]

theorem ne_pad_of_value? {c : Char} {n : ℕ} (h : value? c = some n) : c ≠ '=' := by
  rintro rfl
  rw [value?_pad] at h
  cases h

/-! ### Groups -/

theorem value?_sextet (n place : ℕ) : value? (sextet n place) = some (n / place % 64) :=
  value?_symbol (Nat.mod_lt _ (by decide))

theorem sextet_eq {n place x : ℕ} {c : Char} (hc : value? c = some x)
    (h : n / place % 64 = x) : sextet n place = c := by
  rw [sextet, h, symbol_of_value? hc]

theorem octet_toNat (n place : ℕ) : (octet n place).toNat = n / place % 256 := by
  rw [octet, UInt8.toNat_ofNat']
  exact Nat.mod_mod _ _

theorem octet_eq {n place : ℕ} {b : UInt8} (h : n / place % 256 = b.toNat) : octet n place = b :=
  UInt8.toNat_inj.mp ((octet_toNat n place).trans h)

/-! ### Round trips -/

theorem decode_two {p q : Char} {x y : ℕ} (hp : value? p = some x) (hq : value? q = some y)
    (hzero : y % 16 = 0) :
    decode [p, q, '=', '='] = some [octet (x * 262144 + y * 4096) 65536] := by
  simp [decode, hp, hq, guard, hzero]

theorem decode_three {p q r : Char} {x y z : ℕ} (hp : value? p = some x) (hq : value? q = some y)
    (hr : value? r = some z) (hzero : z % 4 = 0) :
    decode [p, q, r, '='] = some [octet (x * 262144 + y * 4096 + z * 64) 65536,
      octet (x * 262144 + y * 4096 + z * 64) 256] := by
  rw [decode.eq_3 _ _ _ (ne_pad_of_value? hr)]
  simp [hp, hq, hr, guard, hzero]

theorem decode_four {p q r s : Char} {rest : List Char} {bs : Bytes} {x y z w : ℕ}
    (hp : value? p = some x) (hq : value? q = some y) (hr : value? r = some z)
    (hs : value? s = some w) (hrest : decode rest = some bs) :
    decode (p :: q :: r :: s :: rest) = some (octet (x * 262144 + y * 4096 + z * 64 + w) 65536 ::
      octet (x * 262144 + y * 4096 + z * 64 + w) 256 ::
      octet (x * 262144 + y * 4096 + z * 64 + w) 1 :: bs) := by
  rw [decode.eq_4 _ _ _ _ _ (fun _ heq _ => ne_pad_of_value? hs heq)
    (fun heq _ => ne_pad_of_value? hs heq)]
  simp [hp, hq, hr, hs, hrest]

theorem decode_encode (bs : Bytes) : decode (encode bs) = some bs := by
  induction bs using encode.induct with
  | case1 => rfl
  | case2 a =>
      have ha := a.toNat_lt
      rw [encode, decode_two (value?_sextet _ _) (value?_sextet _ _) (by omega),
        octet_eq (b := a)]
      omega
  | case3 a b =>
      have ha := a.toNat_lt
      have hb := b.toNat_lt
      rw [encode, decode_three (value?_sextet _ _) (value?_sextet _ _) (value?_sextet _ _)
        (by omega), octet_eq (b := a), octet_eq (b := b)] <;> omega
  | case4 a b c rest ih =>
      have ha := a.toNat_lt
      have hb := b.toNat_lt
      have hc := c.toNat_lt
      rw [encode, decode_four (value?_sextet _ _) (value?_sextet _ _) (value?_sextet _ _)
        (value?_sextet _ _) ih, octet_eq (b := a), octet_eq (b := b), octet_eq (b := c)] <;> omega

theorem encode_of_decode {cs : List Char} {bs : Bytes} (h : decode cs = some bs) :
    encode bs = cs := by
  induction cs using decode.induct generalizing bs with
  | case1 =>
      cases h
      rfl
  | case2 p q =>
      simp only [decode, Option.bind_eq_bind, Option.bind_eq_some_iff] at h
      obtain ⟨x, hx, y, hy, _, hguard, hbs⟩ := h
      have hzero : y % 16 = 0 := by simpa [guard] using hguard
      have hxlt := value?_lt hx
      have hylt := value?_lt hy
      cases hbs
      simp only [encode, octet_toNat]
      rw [sextet_eq hx, sextet_eq hy] <;> omega
  | case3 p q r hr =>
      rw [decode.eq_3 _ _ _ hr] at h
      simp only [Option.bind_eq_bind, Option.bind_eq_some_iff] at h
      obtain ⟨x, hx, y, hy, z, hz, _, hguard, hbs⟩ := h
      have hzero : z % 4 = 0 := by simpa [guard] using hguard
      have hxlt := value?_lt hx
      have hylt := value?_lt hy
      have hzlt := value?_lt hz
      cases hbs
      simp only [encode, octet_toNat]
      rw [sextet_eq hx, sextet_eq hy, sextet_eq hz] <;> omega
  | case4 p q r s rest h1 h2 ih =>
      rw [decode.eq_4 _ _ _ _ _ h1 h2] at h
      simp only [Option.bind_eq_bind, Option.bind_eq_some_iff] at h
      obtain ⟨x, hx, y, hy, z, hz, w, hw, bs, hrest, hbs⟩ := h
      have hxlt := value?_lt hx
      have hylt := value?_lt hy
      have hzlt := value?_lt hz
      have hwlt := value?_lt hw
      cases hbs
      simp only [encode, octet_toNat, ih hrest]
      rw [sextet_eq hx, sextet_eq hy, sextet_eq hz, sextet_eq hw] <;> omega
  | case5 cs h1 h2 h3 h4 =>
      rw [decode.eq_5 _ h1 h2 h3 h4] at h
      cases h

theorem decode_eq_some_iff {cs : List Char} {bs : Bytes} :
    decode cs = some bs ↔ cs = encode bs := by
  constructor
  · exact fun h => (encode_of_decode h).symm
  · rintro rfl
    exact decode_encode bs

theorem encode_eq_nil {bs : Bytes} : encode bs = [] ↔ bs = [] := by
  constructor
  · intro h
    have hbs := decode_encode bs
    rw [h] at hbs
    exact (Option.some.inj hbs).symm
  · rintro rfl
    rfl

theorem sextet_mem (n place : ℕ) : ∃ m < 64, sextet n place = symbol m :=
  ⟨_, Nat.mod_lt _ (by decide), rfl⟩

theorem mem_encode {bs : Bytes} {c : Char} (h : c ∈ encode bs) :
    c = '=' ∨ ∃ n < 64, c = symbol n := by
  induction bs using encode.induct with
  | case1 => cases h
  | case2 a =>
      simp only [encode, List.mem_cons, List.not_mem_nil, or_false] at h
      rcases h with rfl | rfl | rfl | rfl
      · exact .inr (sextet_mem _ _)
      · exact .inr (sextet_mem _ _)
      · exact .inl rfl
      · exact .inl rfl
  | case3 a b =>
      simp only [encode, List.mem_cons, List.not_mem_nil, or_false] at h
      rcases h with rfl | rfl | rfl | rfl
      · exact .inr (sextet_mem _ _)
      · exact .inr (sextet_mem _ _)
      · exact .inr (sextet_mem _ _)
      · exact .inl rfl
  | case4 a b c rest ih =>
      simp only [encode, List.mem_cons] at h
      rcases h with rfl | rfl | rfl | rfl | h
      · exact .inr (sextet_mem _ _)
      · exact .inr (sextet_mem _ _)
      · exact .inr (sextet_mem _ _)
      · exact .inr (sextet_mem _ _)
      · exact ih h

example : encode [0x4d, 0x61, 0x6e, 0x4d] = "TWFuTQ==".toList := by decide +kernel

end VmIo.Lib.Base64
