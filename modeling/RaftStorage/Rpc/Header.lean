import RaftStorage.Library.Records

/-! `RpcHeader`, as the generated code serializes and parses it. Fields with their default value are
not written, so a header that is cut between two fields is a header again. -/

namespace RaftStorage
open Library

structure RpcHeader where
  serviceName : Bytes := []
  methodName : Bytes := []
  argsSize : ℕ := 0
  deriving DecidableEq, Repr

namespace RpcHeader

/-- `UnknownFieldParse` of the protobuf library: what is left behind a field with the given tag. -/
abbrev UnknownFieldParse := ℕ → Bytes → Option Bytes

variable {unknown : UnknownFieldParse} {h h' : RpcHeader}

def serviceField (h : RpcHeader) : Bytes :=
  if h.serviceName = [] then [] else 10 :: writeString h.serviceName

def methodField (h : RpcHeader) : Bytes :=
  if h.methodName = [] then [] else 18 :: writeString h.methodName

def argsSizeField (h : RpcHeader) : Bytes :=
  if h.argsSize = 0 then [] else 24 :: writeVarint 5 h.argsSize

/-- `_InternalSerialize` -/
def serialize (h : RpcHeader) : Bytes := h.serviceField ++ (h.methodField ++ h.argsSizeField)

theorem length_le_serialize (h : RpcHeader) :
    h.serviceName.length ≤ h.serialize.length ∧ h.methodName.length ≤ h.serialize.length := by
  have hservice : h.serviceName.length ≤ h.serviceField.length := by
    unfold serviceField
    split_ifs with hs
    · simp [hs]
    · rw [writeString, List.length_cons, List.length_append]
      omega
  have hmethod : h.methodName.length ≤ h.methodField.length := by
    unfold methodField
    split_ifs with hm
    · simp [hm]
    · rw [writeString, List.length_cons, List.length_append]
      omega
  simp only [serialize, List.length_append]
  omega

/-- The `switch` of `_InternalParse`. -/
def parseTagged (unknown : UnknownFieldParse) (h : RpcHeader) (tag : ℕ) : Reader RpcHeader :=
  if tag / 8 = 1 ∧ tag % 256 = 10 then readString.map fun s => { h with serviceName := s }
  else if tag / 8 = 2 ∧ tag % 256 = 18 then readString.map fun s => { h with methodName := s }
  else if tag / 8 = 3 ∧ tag % 256 = 24 then
    (readVarint 10).map fun v => { h with argsSize := v % 2 ^ 32 }
  -- the parser stops here, before its limit, and `ParseFromString` returns false
  else if tag % 8 = 4 ∨ tag = 0 then fun _ => none
  else fun bytes => (unknown tag bytes).map fun rest => (h, rest)

/-- One round of the loop of `_InternalParse`. -/
def parseField (unknown : UnknownFieldParse) (h : RpcHeader) : Reader RpcHeader :=
  (readVarint 5).andThen fun tag => parseTagged unknown h (tag % 2 ^ 32)

def parseFields (unknown : UnknownFieldParse) : ℕ → RpcHeader → Bytes → Option RpcHeader
  | _, h, [] => some h
  | 0, _, _ :: _ => none
  | k + 1, h, b :: bytes =>
    (parseField unknown h (b :: bytes)).bind fun (h, rest) => parseFields unknown k h rest

def parseFromString (unknown : UnknownFieldParse) (bytes : Bytes) : Option RpcHeader :=
  parseFields unknown bytes.length {} bytes

/-! ## Headers as they are written -/

theorem reads_tag {tag : ℕ} (htag : tag < 128) {f : Bytes}
    (hf : Reads (parseTagged unknown h tag) f h') :
    Reads (parseField unknown h) (UInt8.ofNat tag :: f) h' := by
  have hread : Reads (readVarint 5) (writeVarint 1 tag) tag :=
    reads_varint (by decide) (by omega) (by decide)
  rw [writeVarint, if_pos htag] at hread
  refine hread.andThen ?_
  rw [Nat.mod_eq_of_lt (by omega)]
  exact hf

theorem reads_service (h : RpcHeader) {s : Bytes} (hs : s.length < 128 ^ 5) :
    Reads (parseField unknown h) (10 :: writeString s) { h with serviceName := s } := by
  have hmap := (reads_string hs).map fun s => { h with serviceName := s }
  exact reads_tag (h := h) (by decide : 10 < 128) hmap

theorem reads_method (h : RpcHeader) {s : Bytes} (hs : s.length < 128 ^ 5) :
    Reads (parseField unknown h) (18 :: writeString s) { h with methodName := s } := by
  have hmap := (reads_string hs).map fun s => { h with methodName := s }
  exact reads_tag (h := h) (by decide : 18 < 128) hmap

theorem reads_argsSize (h : RpcHeader) {v : ℕ} (hv : v < 2 ^ 32) :
    Reads (parseField unknown h) (24 :: writeVarint 5 v) { h with argsSize := v } := by
  have hread : Reads (readVarint 10) (writeVarint 5 v) v :=
    reads_varint (by decide) (by omega) (by decide)
  have hmap := hread.map fun v => { h with argsSize := v % 2 ^ 32 }
  rw [Nat.mod_eq_of_lt hv] at hmap
  exact reads_tag (h := h) (by decide : 24 < 128) hmap

/-- Both names are there and everything fits in 32 bits. -/
structure Valid (h : RpcHeader) : Prop where
  service_ne : h.serviceName ≠ []
  method_ne : h.methodName ≠ []
  service_lt : h.serviceName.length < 2 ^ 32
  method_lt : h.methodName.length < 2 ^ 32
  args_lt : h.argsSize < 2 ^ 32

theorem Valid.reads_serviceField (hv : h.Valid) (h₀ : RpcHeader) :
    Reads (parseField unknown h₀) h.serviceField { h₀ with serviceName := h.serviceName } := by
  rw [serviceField, if_neg hv.service_ne]
  exact reads_service h₀ (hv.service_lt.trans (by decide))

theorem Valid.reads_methodField (hv : h.Valid) (h₀ : RpcHeader) :
    Reads (parseField unknown h₀) h.methodField { h₀ with methodName := h.methodName } := by
  rw [methodField, if_neg hv.method_ne]
  exact reads_method h₀ (hv.method_lt.trans (by decide))

theorem Valid.reads_argsSizeField (hv : h.Valid) (hne : h.argsSize ≠ 0) (h₀ : RpcHeader) :
    Reads (parseField unknown h₀) h.argsSizeField { h₀ with argsSize := h.argsSize } := by
  rw [argsSizeField, if_neg hne]
  exact reads_argsSize h₀ hv.args_lt

theorem parseFields_eq (k : ℕ) (h : RpcHeader) (bytes : Bytes) :
    parseFields unknown k h bytes = readAll (parseField unknown) k h bytes := by
  induction k generalizing h bytes with
  | zero => cases bytes <;> rfl
  | succ k ih =>
    cases bytes with
    | nil => rfl
    | cons b bytes =>
      rw [parseFields, readAll]
      simp only [ih]

/-- The fields, with the header as it is known behind each. -/
def records (h : RpcHeader) : List (Bytes × RpcHeader) :=
  [(h.serviceField, { serviceName := h.serviceName }),
    (h.methodField, { serviceName := h.serviceName, methodName := h.methodName }),
    (h.argsSizeField, h)]

theorem bytesOf_records (h : RpcHeader) : bytesOf h.records = h.serialize := by
  simp only [records, bytesOf, serialize, List.append_nil]

theorem Valid.trail (hv : h.Valid) (unknown : UnknownFieldParse) :
    Trail (parseField unknown) {} h.records := by
  refine .cons (hv.reads_serviceField {}) (by simp [serviceField, hv.service_ne]) ?_
  refine .cons (hv.reads_methodField _) (by simp [methodField, hv.method_ne]) ?_
  by_cases hne : h.argsSize = 0
  · have hfield : h.argsSizeField = [] := by rw [argsSizeField, if_pos hne]
    have hsame : ({ serviceName := h.serviceName, methodName := h.methodName } : RpcHeader) = h := by
      rw [← hne]
    rw [hfield, hsame]
    exact .skip (.nil h)
  · exact .cons (hv.reads_argsSizeField hne _) (by simp [argsSizeField, hne]) (.nil h)

theorem Valid.parse_serialize (hv : h.Valid) : parseFromString unknown h.serialize = some h := by
  rw [parseFromString, parseFields_eq, ← bytesOf_records]
  exact (hv.trail unknown).readAll

theorem Valid.parse_take_iff (hv : h.Valid) {j : ℕ} (hj : j ≤ h.serialize.length) :
    parseFromString unknown (h.serialize.take j) = some h' ↔
      StopsAt {} h.records j h' := by
  have hlen : (h.serialize.take j).length = j := by
    rw [List.length_take]
    omega
  rw [← bytesOf_records] at hj hlen ⊢
  rw [parseFromString, parseFields_eq, hlen]
  exact (hv.trail unknown).readAll_take hj le_rfl

/-- Where the header can be cut and still names a method. -/
def namesLength (h : RpcHeader) : ℕ := h.serviceField.length + h.methodField.length

theorem namesLength_lt : h.namesLength < h.serialize.length ↔ h.argsSize ≠ 0 := by
  have hlen : h.serialize.length = h.namesLength + h.argsSizeField.length := by
    simp only [serialize, namesLength, List.length_append]
    omega
  by_cases hzero : h.argsSize = 0
  · simp [hlen, argsSizeField, hzero]
  · simp [hlen, argsSizeField, hzero]

theorem Valid.parse_take (hv : h.Valid) {j : ℕ} (hj : j < h.serialize.length) {h' : RpcHeader}
    (hparse : parseFromString unknown (h.serialize.take j) = some h') :
    h'.serviceName = [] ∨ h'.methodName = [] ∨ j = h.namesLength ∧
      h' = { serviceName := h.serviceName, methodName := h.methodName } := by
  obtain ⟨i, hlen, rfl⟩ := (hv.parse_take_iff hj.le).mp hparse
  match i with
  | 0 => exact Or.inl rfl
  | 1 => exact Or.inr (Or.inl rfl)
  | 2 =>
    refine Or.inr (Or.inr ⟨?_, rfl⟩)
    rw [hlen, namesLength]
    simp [records, bytesOf]
  | i + 3 =>
    have hall : h.records.take (i + 3) = h.records := List.take_of_length_le (by simp [records])
    rw [hall, bytesOf_records] at hlen
    exact absurd hlen hj.ne

theorem Valid.parse_namesLength (hv : h.Valid) :
    parseFromString unknown (h.serialize.take h.namesLength) =
      some { serviceName := h.serviceName, methodName := h.methodName } := by
  have hle : h.namesLength ≤ h.serialize.length := by
    simp only [serialize, namesLength, List.length_append]
    omega
  exact (hv.parse_take_iff hle).mpr ⟨2, by simp [records, bytesOf, namesLength], rfl⟩

end RpcHeader
end RaftStorage
