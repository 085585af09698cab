import Arnm.Text.Hex

set_option autoImplicit false

/-! # Values of a document and their conversion

`read_field` of `json_reader.c` and what it calls. A target is a place in the byte memory; the
characters of the document's strings lie in the same memory. How an integer becomes a double is the
compiler's, and a parameter here. -/

namespace Arnm.Json

/-- A member of an object; no key is longer than its document. -/
structure Member (α : Type) where
  key : List UInt8
  short : key.length < 2 ^ 32
  value : α

/-- What a `yyjson_val` holds: its type and subtype and what goes with them. -/
inductive Content (α : Type) where
  | null
  | bool (b : Bool)
  | uint (n : UInt64)
  | sint (n : Int64)
  | real (bits : UInt64)
  | str (data : Nat) (length : UInt32)
  | arr (elements : List α)
  | obj (members : List (Member α))

/-- `yyjson_val`, at its address in the document. -/
inductive Value where
  | mk (addr : Nat) (content : Content Value)

def Value.addr : Value → Nat
  | .mk addr _ => addr

def Value.content : Value → Content Value
  | .mk _ content => content

/-- `unsafe_yyjson_is_null` -/
def Value.isNull (value : Value) : Bool :=
  match value.content with
  | .null => true
  | _ => false

/-- `arnm_json_field_type`, in the order the range tests rely on; `unknown` is a number behind the
last enumerator. -/
inductive FieldType where
  | none
  | uint64
  | int64
  | uint32
  | int32
  | string
  | hexFixed
  | uuid
  | double
  | bool
  | value
  | unknown
  deriving DecidableEq, Repr

/-- The enumerator as a number. -/
def FieldType.rank : FieldType → Nat
  | .none => 0
  | .uint64 => 1
  | .int64 => 2
  | .uint32 => 3
  | .int32 => 4
  | .string => 5
  | .hexFixed => 6
  | .uuid => 7
  | .double => 8
  | .bool => 9
  | .value => 10
  | .unknown => 11

/-! ## Integers -/

/-- What the integer branch knows of a number, in both signednesses. -/
structure Integer where
  integerValue : Nat
  sIntegerValue : Int
  negative : Bool
  signedOverflow : Bool

/-- The number of a value that is one; `none` for the other types. -/
def integerOf : Content Value → Option Integer
  | .uint n =>
    if n.toNat ≤ 2 ^ 63 - 1 then some ⟨n.toNat, n.toNat, false, false⟩
    else some ⟨n.toNat, 0, false, true⟩
  | .sint n =>
    if 0 ≤ n.toInt then some ⟨n.toInt.toNat, n.toInt, false, false⟩
      else some ⟨0, n.toInt, true, false⟩
  | _ => none

/-- A signed number in so many bits. -/
def unsignedOf (bits : Nat) (n : Int) : Nat := (n % 2 ^ bits).toNat

def storeInteger (m : Bytes) (target : Nat) (type : FieldType) (i : Integer) : Result × Bytes :=
  match type with
  | .uint64 =>
    if i.negative then (.errorArithmeticOverflow, m)
    else (.success, m.put target (Bytes.digits 8 i.integerValue))
  | .uint32 =>
    if i.negative then (.errorArithmeticOverflow, m)
    else if 2 ^ 32 - 1 < i.integerValue then (.errorArithmeticOverflow, m)
    else (.success, m.put target (Bytes.digits 4 i.integerValue))
  | .int64 =>
    if i.signedOverflow then (.errorArithmeticOverflow, m)
    else (.success, m.put target (Bytes.digits 8 (unsignedOf 64 i.sIntegerValue)))
  | .int32 =>
    if i.signedOverflow then (.errorArithmeticOverflow, m)
    else if i.sIntegerValue < -2 ^ 31 ∨
      2 ^ 31 - 1 < i.sIntegerValue then (.errorArithmeticOverflow, m)
    else (.success, m.put target (Bytes.digits 4 (unsignedOf 32 i.sIntegerValue)))
  | _ => (.errorInvalidState, m)

/-! ## Strings -/

/-- `out->data` of the block at a target. -/
def blockData (m : Bytes) (target : Nat) : Nat := m.word target

/-- `out->size` of the block at a target. -/
def blockSize (m : Bytes) (target : Nat) : Nat := Bytes.number (m.read (target + 8) 4)

/-- `ARNM_UUID_BINARY_SIZE` -/
def uuidBinarySize : Nat := 16

/-- `ARNM_UUID_STRING_LENGTH` -/
def uuidStringLength : Nat := 36

/-- `'-'` -/
def dash : UInt8 := 0x2D

/-- The digits between the dashes of a uuid. -/
def uuidDigits (m : Bytes) (text : Nat) : List UInt8 :=
  m.read text 8 ++ m.read (text + 9) 4 ++ m.read (text + 14) 4 ++ m.read (text + 19) 4 ++
    m.read (text + 24) 12

/-- `arnm_uuid_from_string`; the digits are gathered in a buffer of the call's own before they are
decoded. -/
def uuidFromString (m : Bytes) (uuid text : Nat) : Result × Bytes :=
  if ¬ (0 ∉ m.read text uuidStringLength ∧ m (text + uuidStringLength) = 0) then
    (.errorInvalidParam, m)
  else if m (text + 8) ≠ dash ∨ m (text + 13) ≠ dash ∨ m (text + 18) ≠ dash ∨
    m (text + 23) ≠ dash then
    (.errorDecodeFailed, m.fill uuid uuidBinarySize 0)
  else if Hex.AllDigits (uuidDigits m text) then
    (.success, m.put uuid (Hex.decodeText (uuidDigits m text)))
  else (.errorDecodeFailed, m.fill uuid uuidBinarySize 0)

/-- The branch of `read_field` for the types that read a string. -/
def readString (m : Bytes) (target : Nat) (type : FieldType) (text size : Nat) : Result × Bytes :=
  match type with
  | .string => (.success, (m.putWord target text).put (target + 8) (Bytes.digits 4 size))
  | .hexFixed =>
    if blockSize m target * 2 ≠ size then (.errorDecodeFailed, m)
    else if blockData m target = 0 then (.errorDecodeFailed, m)
    else
      let r := Hex.binaryFromHex m (blockData m target) text size
      (if r.1 = .success then .success else .errorDecodeFailed, r.2)
  | .uuid =>
    if uuidStringLength ≠ size ∨ blockSize m target ≠ uuidBinarySize then (.errorDecodeFailed, m)
    else if blockData m target = 0 then (.errorDecodeFailed, m)
    else
      let r := uuidFromString m (blockData m target) text
      (if r.1 = .success then .success else .errorDecodeFailed, r.2)
  | _ => (.errorInvalidParam, m)

section

variable (double : Int → UInt64)

/-- `unsafe_yyjson_get_num` of a value that is a number, as the bits of the double. -/
def numberBits : Content Value → Option UInt64
  | .uint n => some (double n.toNat)
  | .sint n => some (double n.toInt)
  | .real bits => some bits
  | _ => none

/-- `read_field` -/
def readField (m : Bytes) (target : Nat) (type : FieldType) (value : Value) : Result × Bytes :=
  if target = 0 then (.errorNullPointer, m)
  else if type = .none then (.errorInvalidParam, m)
  else if type.rank ≤ FieldType.int32.rank then
    match integerOf value.content with
    | none => (.errorInvalidEnumType, m)
    | some i => storeInteger m target type i
  else if type.rank ≤ FieldType.uuid.rank then
    match value.content with
    | .str text length => readString m target type text length.toNat
    | _ => (.errorInvalidEnumType, m)
  else
    match type with
    | .value => (.success, m.putWord target value.addr)
    | .bool =>
      match value.content with
      | .bool b => (.success, m.put target [if b then 1 else 0])
      | _ => (.errorInvalidEnumType, m)
    | .double =>
      match numberBits double value.content with
      | some bits => (.success, m.put target (Bytes.digits 8 bits.toNat))
      | none => (.errorInvalidEnumType, m)
    | _ => (.errorInvalidParam, m)

end

/-! ## What a conversion does -/

/-- The integer a value is, however it is stored. -/
def Content.integer : Content Value → Option Int
  | .uint n => some n.toNat
  | .sint n => some n.toInt
  | _ => none

/-- The integers a type can hold. -/
def FieldType.Holds : FieldType → Int → Prop
  | .uint64, n => 0 ≤ n ∧ n < 2 ^ 64
  | .int64, n => -2 ^ 63 ≤ n ∧ n < 2 ^ 63
  | .uint32, n => 0 ≤ n ∧ n < 2 ^ 32
  | .int32, n => -2 ^ 31 ≤ n ∧ n < 2 ^ 31
  | _, _ => False

instance (type : FieldType) (n : Int) : Decidable (type.Holds n) := by
  cases type <;> unfold FieldType.Holds <;> infer_instance

/-- The four integer types. -/
def FieldType.IsInteger (type : FieldType) : Prop :=
  type = .uint64 ∨ type = .int64 ∨ type = .uint32 ∨ type = .int32

/-- The types that decode a text into a buffer. -/
def FieldType.Decodes (type : FieldType) : Prop := type = .hexFixed ∨ type = .uuid

instance (type : FieldType) : Decidable type.Decodes := inferInstanceAs (Decidable (_ ∨ _))

/-- The bytes of an integer type. -/
def FieldType.width : FieldType → Nat
  | .uint64 => 8
  | .int64 => 8
  | _ => 4

theorem length_uuidDigits (m : Bytes) (text : Nat) :
    (uuidDigits m text).length = 2 * uuidBinarySize := by
  simp only [uuidDigits, List.length_append, Bytes.length_read]
  rfl

theorem uuidFromString_frame {m : Bytes} {uuid text x : Nat}
    (hx : ¬ (Region.mk uuid uuidBinarySize).Has x) : (uuidFromString m uuid text).2 x = m x := by
  have hzeros : m.fill uuid uuidBinarySize 0 x = m x := by
    refine Bytes.put_apply_of_not fun hin => hx ?_
    rwa [List.length_replicate] at hin
  have hlength : (Hex.decodeText (uuidDigits m text)).length = uuidBinarySize := by
    rw [Hex.length_decodeText, length_uuidDigits]
    rfl
  unfold uuidFromString
  split
  · rfl
  · split
    · exact hzeros
    · split
      · refine Bytes.put_apply_of_not fun hin => hx ?_
        rwa [hlength] at hin
      · exact hzeros

section

variable {double : Int → UInt64}

/-- What the integer branch knows of a number is the number. -/
structure Integer.Is (i : Integer) (n : Int) : Prop where
  lower : -2 ^ 63 ≤ n
  upper : n < 2 ^ 64
  negative : i.negative = true ↔ n < 0
  signedOverflow : i.signedOverflow = true ↔ 2 ^ 63 ≤ n
  unsigned : 0 ≤ n → i.integerValue = n.toNat
  signed : n < 2 ^ 63 → i.sIntegerValue = n

theorem integerOf_none {content : Content Value} (h : content.integer = none) :
    integerOf content = none := by
  cases content with
  | uint n => cases h
  | sint n => cases h
  | _ => rfl

theorem integerOf_is {content : Content Value} {n : Int} (h : content.integer = some n) :
    ∃ i, integerOf content = some i ∧ i.Is n := by
  cases content with
  | uint u =>
      have hlt := u.toNat_lt
      cases h
      by_cases hsmall : u.toNat ≤ 2 ^ 63 - 1
      · refine ⟨⟨u.toNat, u.toNat, false, false⟩, if_pos hsmall, ?_⟩
        exact ⟨by omega, by omega, iff_of_false nofun (by omega), iff_of_false nofun (by omega),
          fun _ => (Int.toNat_natCast _).symm, fun _ => rfl⟩
      · refine ⟨⟨u.toNat, 0, false, true⟩, if_neg hsmall, ?_⟩
        exact ⟨by omega, by omega, iff_of_false nofun (by omega), iff_of_true rfl (by omega),
          fun _ => (Int.toNat_natCast _).symm, fun hlt => by omega⟩
  | sint u =>
      have hlo := u.le_toInt
      have hhi := u.toInt_lt
      cases h
      by_cases hpos : 0 ≤ u.toInt
      · refine ⟨⟨u.toInt.toNat, u.toInt, false, false⟩, if_pos hpos, ?_⟩
        exact ⟨hlo, by omega, iff_of_false nofun (by omega), iff_of_false nofun (by omega),
          fun _ => rfl, fun _ => rfl⟩
      · refine ⟨⟨0, u.toInt, true, false⟩, if_neg hpos, ?_⟩
        exact ⟨hlo, by omega, iff_of_true rfl (by omega), iff_of_false nofun (by omega),
          fun hge => absurd hge hpos, fun _ => rfl⟩
  | _ => cases h

/-- The bits of a number that is not negative and fits are the number. -/
theorem unsignedOf_eq {bits : Nat} {n : Int} (h : 0 ≤ n) (hlt : n < 2 ^ bits) :
    unsignedOf bits n = n.toNat := by
  rw [unsignedOf, Int.emod_eq_of_lt h hlt]

/-- A number is stored in the bits of its type if these can hold it, and refused if not. -/
theorem storeInteger_eq {m : Bytes} {target : Nat} {type : FieldType} {i : Integer} {n : Int}
    (htype : type.IsInteger) (h : i.Is n) :
    storeInteger m target type i =
      if type.Holds n then
        (.success, m.put target (Bytes.digits type.width (unsignedOf (8 * type.width) n)))
      else (.errorArithmeticOverflow, m) := by
  have hlower := h.lower
  have hupper := h.upper
  -- the source rejects what its own form cannot hold, then what the narrower type cannot
  rcases htype with rfl | rfl | rfl | rfl
  · by_cases hneg : n < 0
    · rw [if_neg (fun hin => absurd hin.1 (Int.not_le.mpr hneg))]
      exact if_pos (h.negative.mpr hneg)
    · have hpos := Int.not_lt.mp hneg
      rw [if_pos ⟨hpos, hupper⟩]
      refine (if_neg fun hin => hneg (h.negative.mp hin)).trans ?_
      rw [h.unsigned hpos]
      show _ = (Result.success, m.put target (Bytes.digits 8 (unsignedOf 64 n)))
      rw [unsignedOf_eq hpos hupper]
  · by_cases hlarge : 2 ^ 63 ≤ n
    · rw [if_neg (fun hin => absurd hin.2 (Int.not_lt.mpr hlarge))]
      exact if_pos (h.signedOverflow.mpr hlarge)
    · rw [if_pos ⟨hlower, Int.not_le.mp hlarge⟩]
      refine (if_neg fun hin => hlarge (h.signedOverflow.mp hin)).trans ?_
      rw [h.signed (Int.not_le.mp hlarge)]
      rfl
  · by_cases hneg : n < 0
    · rw [if_neg (fun hin => absurd hin.1 (Int.not_le.mpr hneg))]
      exact if_pos (h.negative.mpr hneg)
    · have hpos := Int.not_lt.mp hneg
      have hvalue := h.unsigned hpos
      refine (if_neg fun hin => hneg (h.negative.mp hin)).trans ?_
      by_cases hfits : n < 2 ^ 32
      · rw [if_pos (show FieldType.Holds .uint32 n from ⟨hpos, hfits⟩), if_neg (by omega), hvalue]
        show _ = (Result.success, m.put target (Bytes.digits 4 (unsignedOf 32 n)))
        rw [unsignedOf_eq hpos hfits]
      · rw [if_neg (show ¬ FieldType.Holds .uint32 n from fun hin => hfits hin.2),
          if_pos (by omega)]
  · by_cases hlarge : 2 ^ 63 ≤ n
    · rw [if_neg (show ¬ FieldType.Holds .int32 n from fun hin => by have := hin.2; omega)]
      exact if_pos (h.signedOverflow.mpr hlarge)
    · have hvalue := h.signed (Int.not_le.mp hlarge)
      refine (if_neg fun hin => hlarge (h.signedOverflow.mp hin)).trans ?_
      rw [hvalue]
      by_cases hfits : -2 ^ 31 ≤ n ∧ n < 2 ^ 31
      · rw [if_pos (show FieldType.Holds .int32 n from hfits), if_neg (by omega)]
        rfl
      · rw [if_neg (show ¬ FieldType.Holds .int32 n from hfits), if_pos (by omega)]

/-- The bytes of an integer, if the type can hold it. -/
def encodedInteger (type : FieldType) (value : Value) : Except Result (List UInt8) :=
  match value.content.integer with
  | none => .error .errorInvalidEnumType
  | some n =>
    if type.Holds n then .ok (Bytes.digits type.width (unsignedOf (8 * type.width) n))
    else .error .errorArithmeticOverflow

/-- The bytes a value is stored as by the types that decode nothing, or why it is refused. -/
def encoded (double : Int → UInt64) (type : FieldType) (value : Value) :
    Except Result (List UInt8) :=
  match type with
  | .string =>
    match value.content with
    | .str text length => .ok (Bytes.digits 8 text ++ Bytes.digits 4 length.toNat)
    | _ => .error .errorInvalidEnumType
  | .double =>
    match numberBits double value.content with
    | some bits => .ok (Bytes.digits 8 bits.toNat)
    | none => .error .errorInvalidEnumType
  | .bool =>
    match value.content with
    | .bool b => .ok [if b then 1 else 0]
    | _ => .error .errorInvalidEnumType
  | .value => .ok (Bytes.digits 8 value.addr)
  | .none => .error .errorInvalidParam
  | .unknown => .error .errorInvalidParam
  | _ => encodedInteger type value

theorem encoded_integer {type : FieldType} (value : Value) (h : type.IsInteger) :
    encoded double type value = encodedInteger type value := by
  rcases h with rfl | rfl | rfl | rfl <;> rfl

/-- An integer is stored in the bits of its type if these can hold it, and refused if not. -/
theorem readField_integer {m : Bytes} {target : Nat} {type : FieldType} {value : Value}
    (ht : target ≠ 0) (htype : type.IsInteger) :
    readField double m target type value =
      match encodedInteger type value with
      | .ok bytes => (.success, m.put target bytes)
      | .error result => (result, m) := by
  have hnone (h : integerOf value.content = none) :
      readField double m target type value = (.errorInvalidEnumType, m) := by
    unfold readField
    rw [if_neg ht]
    rcases htype with rfl | rfl | rfl | rfl <;> simp [FieldType.rank, h]
  have hsome (i : Integer) (h : integerOf value.content = some i) :
      readField double m target type value = storeInteger m target type i := by
    unfold readField
    rw [if_neg ht]
    rcases htype with rfl | rfl | rfl | rfl <;> simp [FieldType.rank, h]
  unfold encodedInteger
  cases hn : value.content.integer with
  | none => exact hnone (integerOf_none hn)
  | some n =>
      obtain ⟨i, hi, his⟩ := integerOf_is hn
      rw [hsome i hi, storeInteger_eq htype his]
      dsimp only
      split <;> rfl

/-- A conversion that decodes nothing writes the bytes of the value to the target, or leaves the
memory as it was. -/
theorem readField_encoded {m : Bytes} {target : Nat} {type : FieldType} {value : Value}
    (ht : target ≠ 0) (htype : ¬ type.Decodes) :
    readField double m target type value =
      match encoded double type value with
      | .ok bytes => (.success, m.put target bytes)
      | .error result => (result, m) := by
  -- integers share one case; of the rest only a string is written in two parts
  by_cases hinteger : type.IsInteger
  · rw [readField_integer ht hinteger, encoded_integer value hinteger]
  · obtain ⟨addr, content⟩ := value
    unfold readField
    rw [if_neg ht]
    cases type with
    | none => rfl
    | uint64 => exact absurd (Or.inl rfl) hinteger
    | int64 => exact absurd (Or.inr (Or.inl rfl)) hinteger
    | uint32 => exact absurd (Or.inr (Or.inr (Or.inl rfl))) hinteger
    | int32 => exact absurd (Or.inr (Or.inr (Or.inr rfl))) hinteger
    | string =>
        cases content with
        | str text length =>
            have hput := Bytes.put_put m target (Bytes.digits 8 text) (Bytes.digits 4 length.toNat)
            rw [Bytes.length_digits] at hput
            show (Result.success, (m.put target (Bytes.digits 8 text)).put (target + 8)
              (Bytes.digits 4 length.toNat)) = (.success, m.put target _)
            rw [hput]
        | _ => rfl
    | hexFixed => exact absurd (Or.inl rfl) htype
    | uuid => exact absurd (Or.inr rfl) htype
    | double =>
        cases hbits : numberBits double content with
        | none => simp [encoded, Value.content, hbits, FieldType.rank]
        | some bits => simp [encoded, Value.content, hbits, FieldType.rank]
    | bool => cases content <;> rfl
    | value => rfl
    | unknown => rfl

/-- A conversion that is refused leaves all but the buffer it was to decode into. -/
theorem readField_refused {m : Bytes} {target : Nat} {type : FieldType} {value : Value}
    (h : (readField double m target type value).1 ≠ .success) {x : Nat}
    (hx : type.Decodes → ¬ (Region.mk (blockData m target) (blockSize m target)).Has x) :
    (readField double m target type value).2 x = m x := by
  by_cases ht : target = 0
  · unfold readField
    rw [if_pos ht]
  -- hex and a uuid are decoded into the buffer a block names; nothing else writes when refused
  by_cases htype : type.Decodes
  · have hout := hx htype
    obtain ⟨addr, content⟩ := value
    unfold readField
    rw [if_neg ht]
    rcases htype with rfl | rfl
    · cases content with
      | str text length =>
          show (readString m target .hexFixed text length.toNat).2 x = m x
          unfold readString
          dsimp only
          split
          · rfl
          · rename_i hsize
            split
            · rfl
            · refine Hex.binaryFromHex_frame fun hin => hout ?_
              rwa [show length.toNat / 2 = blockSize m target by omega] at hin
      | _ => rfl
    · cases content with
      | str text length =>
          show (readString m target .uuid text length.toNat).2 x = m x
          unfold readString
          dsimp only
          split
          · rfl
          · rename_i hsize
            have hsixteen : blockSize m target = uuidBinarySize :=
              not_not.mp fun hne => hsize (Or.inr hne)
            rw [hsixteen] at hout
            split
            · rfl
            · exact uuidFromString_frame hout
      | _ => rfl
  · rw [readField_encoded ht htype] at h ⊢
    cases hencoded : encoded double type value with
    | error result => rfl
    | ok bytes =>
        rw [hencoded] at h
        exact absurd rfl h

end

end Arnm.Json
