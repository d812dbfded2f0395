import VmIo.Lib.Serde

/-!
The payloads of the config endpoints on the wire.

The strings, lists and numbers are those of the machine, and every record is
written field by field. A record is read as a sequence of its fields, where a field
with a default may be missing at the end of the input. `Earlier` is the layout of a
record before its last field was appended. So an earlier request is read with the
default, but of an earlier response only the last item is at the end of the input
(`decode_earlier`).
-/

namespace VmIo.Types

open VmIo.Lib

/-- The readers of the crate `bincode_next` for the types that occur in the payloads. -/
structure Bincode where
  variant : ValueReader UInt32
  length : ValueReader UInt64
  string : ValueReader Text
  stringField : ElementReader Text
  intField : ElementReader Int64
  optionField : ElementReader (Option Int64)
  /-- The byte of an option is taken also where what it announces is cut off. -/
  option_taken {bs rest : Bytes} (h : optionField.next bs = .ok (none, rest)) (hbs : bs ≠ []) :
    rest.length < bs.length

/-- What can be read from the format. -/
class Deserialize (D : Type) where
  deserialize : Bincode → Reader D

export Deserialize (deserialize)

def encode {E : Type} [Serialize E] (e : E) : Bytes := serialize e

/-- Decode from bytes. What follows the value is not looked at. -/
def decode (D : Type) [Deserialize D] (bincode : Bincode) (slice : Bytes) : Except DecodeError D :=
  (deserialize bincode slice).map Prod.fst

structure CfgGetItem where
  key : Text
  value : Text
  modifiedAtMicros : Int64
  expiresAtMicros : Option Int64
  deriving DecidableEq

abbrev CfgGetRes := Except Text (Seq CfgGetItem)

structure CfgPutReq where
  key : Text
  value : Text
  expiresAtMicros : Option Int64
  modifiedAtMicros : Option Int64
  deriving DecidableEq

structure CfgGetItem.Earlier where
  key : Text
  value : Text
  modifiedAtMicros : Int64

structure CfgPutReq.Earlier where
  key : Text
  value : Text
  expiresAtMicros : Option Int64

instance : Serialize CfgGetItem.Earlier :=
  ⟨fun i => serialize i.key ++ (serialize i.value ++ serialize i.modifiedAtMicros)⟩

instance : Serialize CfgPutReq.Earlier :=
  ⟨fun r => serialize r.key ++ (serialize r.value ++ serialize r.expiresAtMicros)⟩

instance : Serialize CfgGetItem where
  serialize i := serialize i.key ++ (serialize i.value ++
    (serialize i.modifiedAtMicros ++ serialize i.expiresAtMicros))

instance : Serialize CfgPutReq where
  serialize r := serialize r.key ++ (serialize r.value ++
    (serialize r.expiresAtMicros ++ serialize r.modifiedAtMicros))

instance : Deserialize CfgGetItem where
  deserialize bincode := do
    let key ← bincode.stringField.required 0
    let value ← bincode.stringField.required 1
    let modifiedAtMicros ← bincode.intField.required 2
    let expiresAtMicros ← bincode.optionField.orDefault none
    return ⟨key, value, modifiedAtMicros, expiresAtMicros⟩

instance : Deserialize CfgPutReq where
  deserialize bincode := do
    let key ← bincode.stringField.required 0
    let value ← bincode.stringField.required 1
    let expiresAtMicros ← bincode.optionField.orDefault none
    let modifiedAtMicros ← bincode.optionField.orDefault none
    return ⟨key, value, expiresAtMicros, modifiedAtMicros⟩

instance : Deserialize CfgGetRes where
  deserialize bincode :=
    readResult bincode.variant (readSeq bincode.length (deserialize bincode)) bincode.string.read

/-- The item with the appended field at its default. -/
def CfgGetItem.Earlier.item (i : CfgGetItem.Earlier) : CfgGetItem :=
  ⟨i.key, i.value, i.modifiedAtMicros, none⟩

/-- The request with the appended field at its default. -/
def CfgPutReq.Earlier.req (r : CfgPutReq.Earlier) : CfgPutReq :=
  ⟨r.key, r.value, r.expiresAtMicros, none⟩

section

variable (bincode : Bincode)

theorem decode_takes {D : Type} [Deserialize D] {d : D} {used : Bytes}
    (h : Takes (deserialize bincode) d used) : decode D bincode used = .ok d := by
  have hread := h []
  rw [List.append_nil] at hread
  rw [decode, hread]
  rfl

theorem decode_eq_ok {D : Type} [Deserialize D] {slice : Bytes} {d : D}
    (h : decode D bincode slice = .ok d) : ∃ rest, deserialize bincode slice = .ok (d, rest) := by
  rw [decode] at h
  cases hread : (deserialize bincode slice : Except DecodeError (D × Bytes)) with
  | error e =>
      rw [hread] at h
      cases h
  | ok p =>
      rw [hread] at h
      cases h
      exact ⟨p.2, rfl⟩

theorem item_takes (i : CfgGetItem) : Takes (deserialize bincode) i (serialize i) := by
  refine (bincode.stringField.required_takes 0 i.key).bind ?_
  refine (bincode.stringField.required_takes 1 i.value).bind ?_
  refine (bincode.intField.required_takes 2 i.modifiedAtMicros).bind ?_
  exact (bincode.optionField.orDefault_takes none i.expiresAtMicros).bind_pure

theorem req_takes (r : CfgPutReq) : Takes (deserialize bincode) r (serialize r) := by
  refine (bincode.stringField.required_takes 0 r.key).bind ?_
  refine (bincode.stringField.required_takes 1 r.value).bind ?_
  refine (bincode.optionField.orDefault_takes none r.expiresAtMicros).bind ?_
  exact (bincode.optionField.orDefault_takes none r.modifiedAtMicros).bind_pure

theorem decode_encode_req (r : CfgPutReq) : decode CfgPutReq bincode (encode r) = .ok r :=
  decode_takes bincode (req_takes bincode r)

theorem decode_encode_res (res : CfgGetRes) : decode CfgGetRes bincode (encode res) = .ok res :=
  decode_takes bincode
    (readResult_takes bincode.variant (readSeq_takes (item_takes bincode)) bincode.string.takes res)

/-! ### Earlier layouts -/

theorem serialize_item_length (i : CfgGetItem.Earlier) :
    (serialize i.item).length = (serialize i).length + 1 := by
  show (serialize i.key ++ (serialize i.value ++ (serialize i.modifiedAtMicros ++ [0]))).length =
    (serialize i.key ++ (serialize i.value ++ serialize i.modifiedAtMicros)).length + 1
  simp only [List.length_append, List.length_singleton]
  omega

theorem item_earlier (i : CfgGetItem.Earlier) :
    deserialize bincode (serialize i) = .ok (i.item, []) := by
  refine ((bincode.stringField.required_takes 0 i.key).bind_apply _).trans ?_
  refine ((bincode.stringField.required_takes 1 i.value).bind_apply _).trans ?_
  rw [← List.append_nil (serialize i.modifiedAtMicros)]
  refine ((bincode.intField.required_takes 2 i.modifiedAtMicros).bind_apply _).trans ?_
  exact bincode.optionField.orDefault_nil none _

theorem req_earlier (r : CfgPutReq.Earlier) :
    deserialize bincode (serialize r) = .ok (r.req, []) := by
  refine ((bincode.stringField.required_takes 0 r.key).bind_apply _).trans ?_
  refine ((bincode.stringField.required_takes 1 r.value).bind_apply _).trans ?_
  rw [← List.append_nil (serialize r.expiresAtMicros)]
  refine ((bincode.optionField.orDefault_takes none r.expiresAtMicros).bind_apply _).trans ?_
  exact bincode.optionField.orDefault_nil none _

/-- Only the option of an item can be missing, and it takes a byte unless the input has ended. -/
theorem item_shortAtEnd : @ShortAtEnd CfgGetItem _ (deserialize bincode) 1 where
  nil := by
    intro i rest h
    obtain ⟨key, bs, hkey, _⟩ := bind_reads h
    rw [bincode.stringField.required_nil] at hkey
    cases hkey
  length_le := by
    intro bs rest i h
    obtain ⟨key, bs₁, hkey, h⟩ := bind_reads h
    obtain ⟨value, bs₂, hvalue, h⟩ := bind_reads h
    obtain ⟨modified, bs₃, hmodified, h⟩ := bind_reads h
    obtain ⟨expires, hexpires, rfl⟩ := map_reads (g := fun e => CfgGetItem.mk key value modified e) h
    have hkey := ElementReader.required_length_le hkey
    have hvalue := ElementReader.required_length_le hvalue
    have hmodified := ElementReader.required_length_le hmodified
    have hsize : (serialize (CfgGetItem.mk key value modified expires)).length =
        (serialize key).length + (serialize value).length + (serialize modified).length +
          (serialize expires).length := by
      show (serialize key ++ (serialize value ++ (serialize modified ++ serialize expires))).length =
        _
      simp only [List.length_append]
      omega
    rw [hsize]
    rcases ElementReader.orDefault_reads hexpires with hlen | ⟨hnone, rfl⟩
    · omega
    · have hone : (serialize (none : Option Int64)).length = 1 := rfl
      rw [hone]
      by_cases hend : bs₃ = []
      · subst hend
        rw [bincode.optionField.nil] at hnone
        cases hnone
        right
        exact ⟨rfl, by omega⟩
      · have htaken := bincode.option_taken hnone hend
        omega

theorem res_earlier (i : CfgGetItem.Earlier) (h : [i].length < 2 ^ 64) :
    deserialize bincode (encode (.ok ⟨[i], h⟩ : Except Text (Seq CfgGetItem.Earlier))) =
      .ok ((.ok ⟨[i.item], by simp⟩ : CfgGetRes), []) := by
  show readResult bincode.variant (readSeq bincode.length (deserialize bincode)) _
    (serialize (0 : UInt32) ++ (serialize (1 : UInt64) ++ (serialize i ++ []))) = _
  rw [readResult_ok, List.append_nil]
  exact map_apply (readSeq_single (item_earlier bincode i)) _

end

/-- A request of the earlier layout is decoded with the appended field at its default. A response
of the earlier layout is decoded as the same items with the default if and only if there is at
most one. -/
theorem decode_earlier (bincode : Bincode) (r : CfgPutReq.Earlier)
    (items : Seq CfgGetItem.Earlier) :
    decode CfgPutReq bincode (encode r) = .ok r.req ∧
    (decode CfgGetRes bincode (encode (.ok items : Except Text (Seq CfgGetItem.Earlier))) =
      .ok (.ok (items.map CfgGetItem.Earlier.item)) ↔ items.1.length ≤ 1) := by
  refine ⟨by rw [decode, encode, req_earlier, Except.map], fun h => ?_, fun h => ?_⟩
  · obtain ⟨rest, hread⟩ := decode_eq_ok bincode h
    obtain ⟨bs, hbs, hseq⟩ := readResult_eq_ok hread
    have hle := readSeq_length (item_shortAtEnd bincode) hseq
    have hgrown := serialize_map_length serialize_item_length items
    have hwhole : (encode (.ok items : Except Text (Seq CfgGetItem.Earlier))).length =
        (serialize (0 : UInt32)).length + (serialize items).length := List.length_append
    omega
  · obtain ⟨l, hl⟩ := items
    match l with
    | [] => exact decode_encode_res bincode (.ok ⟨[], hl⟩)
    | [i] =>
        rw [decode, res_earlier]
        rfl
    | i :: i' :: l => simp at h

/-! ### A decoder -/

/-- The format as it is documented, where an input that ends within a field is used up. -/
def Bincode.standard : Bincode where
  variant := .u32
  length := .u64
  string := .text
  stringField := ValueReader.text.element
  intField := ValueReader.i64.element
  optionField := ValueReader.i64.option.element
  option_taken := by
    intro bs rest h hbs
    rw [ValueReader.element_none h]
    exact List.length_pos_iff.mpr hbs

/-- The first of two items is not at the end of the input: its option is read from the length of
the next key. -/
theorem decode_earlier_fails :
    encode (.ok ⟨[⟨⟨"", by decide⟩, ⟨"", by decide⟩, 0⟩, ⟨⟨"", by decide⟩, ⟨"", by decide⟩, 0⟩],
      by decide⟩ : Except Text (Seq CfgGetItem.Earlier)) = [0, 2, 0, 0, 0, 0, 0, 0] ∧
    decode CfgGetRes .standard [0, 2, 0, 0, 0, 0, 0, 0] = .error (.invalidLength 2) := by
  decide +kernel

/-- What decodes the two payloads, with the texts of its errors. It returns for every input. -/
structure Decoder where
  put : Bytes → Except String CfgPutReq
  get : Bytes → Except String CfgGetRes
  put_encode (req : CfgPutReq) : put (encode req) = .ok req
  get_encode (res : CfgGetRes) : get (encode res) = .ok res

def Bincode.decoder (bincode : Bincode) (text : DecodeError → String) : Decoder where
  put slice := (decode CfgPutReq bincode slice).mapError text
  get slice := (decode CfgGetRes bincode slice).mapError text
  put_encode req := by rw [decode_encode_req, Except.mapError]
  get_encode res := by rw [decode_encode_res, Except.mapError]

end VmIo.Types
