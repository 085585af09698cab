import Arnm.Json.Value

set_option autoImplicit false

/-! # Reading an array

`arnm_json_read_array`. The elements are met in the order of the document and written in the order
of the slots; an element that is null moves on in the document only. -/

namespace Arnm.Json

variable (double : Int → UInt64)

/-- `element_size` -/
def elementSize : FieldType → Nat
  | .uint64 => 8
  | .int64 => 8
  | .uint32 => 4
  | .int32 => 4
  | .string => 16
  | .hexFixed => 16
  | .uuid => 16
  | .double => 8
  | .bool => 1
  | .value => 8
  | _ => 0

/-- The loop of `arnm_json_read_array`; the answer, `count` and the memory. -/
def readElements (type : FieldType) : List Value → Nat → Nat → Bytes → Result × Nat × Bytes
  | [], _, count, m => (.success, count, m)
  | value :: rest, slot, count, m =>
    if type ≠ .value ∧ value.isNull = true then readElements type rest slot count m
    else
      let r := readField double m slot type value
      if r.1 ≠ .success then (r.1, count, r.2)
      else readElements type rest (slot + elementSize type) (count + 1) r.2

/-- `arnm_json_read_array`; the answer, `*out_array_size` and the memory. -/
def readArray (m : Bytes) (array : Value) (type : FieldType) (outValues capacity : Nat) :
    Result × Nat × Bytes :=
  if outValues = 0 then (.errorNullPointer, 0, m)
  else if capacity = 0 then (.errorInvalidParam, 0, m)
  else if elementSize type = 0 then (.errorInvalidParam, 0, m)
  else
    match array.content with
    | .arr elements =>
      let arrayLength := elements.length % 2 ^ 32
      if capacity < arrayLength then (.errorDestinationBufferToSmall, arrayLength, m)
      else readElements double type elements outValues 0 m
    | _ => (.errorInvalidEnumType, 0, m)

/-! ## The slots -/

/-- The elements that are converted: all but the nulls, and for `value` these as well. -/
def FieldType.takes (type : FieldType) (value : Value) : Bool := type == .value || !value.isNull

/-- One conversion into each of the slots that follow each other, if none is refused. -/
def convertRow (type : FieldType) : List Value → Nat → Bytes → Option Bytes
  | [], _, m => some m
  | value :: rest, slot, m =>
    let r := readField double m slot type value
    if r.1 = .success then convertRow type rest (slot + elementSize type) r.2 else none

/-- The values were converted into consecutive slots as far as they can be, and counted so far. -/
def Fills (type : FieldType) (outValues : Nat) (m : Bytes) (values : List Value)
    (r : Result × Nat × Bytes) : Prop :=
  ∃ written rest m', values = written ++ rest ∧
    convertRow double type written outValues m = some m' ∧ r.2.1 = written.length ∧
    (rest = [] → r.1 = .success ∧ r.2.2 = m') ∧
    ∀ value later, rest = value :: later → r.1 ≠ .success ∧
      (r.1, r.2.2) = readField double m' (outValues + written.length * elementSize type) type value

variable {double}

theorem takes_eq_false {type : FieldType} {value : Value} :
    type.takes value = false ↔ type ≠ .value ∧ value.isNull = true := by
  unfold FieldType.takes
  rw [Bool.or_eq_false_iff, beq_eq_false_iff_ne, Bool.not_eq_false']

/-- The loop fills the slots from the one it is at, and goes on counting. -/
theorem readElements_fills (type : FieldType) (elements : List Value) (slot count : Nat)
    (m : Bytes) :
    ∃ written, Fills double type slot m (elements.filter type.takes)
        ((readElements double type elements slot count m).1, written,
          (readElements double type elements slot count m).2.2) ∧
      (readElements double type elements slot count m).2.1 = count + written := by
  induction elements generalizing slot count m with
  | nil => exact ⟨0, ⟨[], [], m, rfl, rfl, rfl, fun _ => ⟨rfl, rfl⟩, nofun⟩, rfl⟩
  | cons value rest ih =>
      rw [readElements]
      by_cases hnull : type.takes value = false
      · rw [if_pos (takes_eq_false.mp hnull), List.filter_cons_of_neg (by rw [hnull]; decide)]
        exact ih slot count m
      · have htaken : ¬ (type ≠ .value ∧ value.isNull = true) :=
          fun h => hnull (takes_eq_false.mpr h)
        rw [if_neg htaken, List.filter_cons_of_pos (Bool.not_eq_false _ ▸ hnull)]
        generalize hr : readField double m slot type value = r
        by_cases hok : r.1 = .success
        · obtain ⟨n, ⟨written, later, m', hvalues, hrow, hn, hend, hstop⟩, hcount⟩ :=
            ih (slot + elementSize type) (count + 1) r.2
          dsimp only
          rw [if_neg (not_not_intro hok)]
          refine ⟨n + 1, ⟨value :: written, later, m', ?_, ?_, ?_, hend, fun v vs heq => ?_⟩, ?_⟩
          · rw [hvalues, List.cons_append]
          · rw [convertRow, hr]
            exact (if_pos hok).trans hrow
          · rw [List.length_cons]
            exact congrArg (· + 1) hn
          · obtain ⟨hne, hfield⟩ := hstop v vs heq
            refine ⟨hne, hfield.trans ?_⟩
            rw [List.length_cons, Nat.succ_mul, Nat.add_assoc, Nat.add_comm (elementSize type)]
          · rw [hcount]
            omega
        · -- a value that cannot be converted is where the count stops
          dsimp only
          rw [if_pos hok]
          refine ⟨0, ⟨[], value :: rest.filter type.takes, m, rfl, rfl, rfl, nofun,
            fun v vs heq => ?_⟩,
            rfl⟩
          obtain ⟨rfl, -⟩ := List.cons.inj heq
          rw [List.length_nil, Nat.zero_mul, Nat.add_zero, hr]
          exact ⟨hok, rfl⟩

/-- Bytes that fit so much room, or an error. -/
def Fits (n : Nat) : Except Result (List UInt8) → Prop
  | .ok bytes => bytes.length ≤ n
  | .error result => result ≠ .success

theorem fits_digits (n w : Nat) : Fits n (.ok (Bytes.digits n w)) :=
  Nat.le_of_eq (Bytes.length_digits n w)

theorem fits_encodedInteger (type : FieldType) (value : Value) :
    Fits type.width (encodedInteger type value) := by
  unfold encodedInteger
  cases value.content.integer with
  | none => exact Result.noConfusion
  | some n =>
      dsimp only
      split
      · exact fits_digits _ _
      · exact Result.noConfusion

/-- The bytes of a value fit its slot. -/
theorem fits_encoded {type : FieldType} (value : Value) (htype : ¬ type.Decodes) :
    Fits (elementSize type) (encoded double type value) := by
  obtain ⟨addr, content⟩ := value
  cases type with
  | none => exact Result.noConfusion
  | uint64 => exact fits_encodedInteger _ _
  | int64 => exact fits_encodedInteger _ _
  | uint32 => exact fits_encodedInteger _ _
  | int32 => exact fits_encodedInteger _ _
  | string =>
      -- a string is stored as its address and its length
      cases content with
      | str text length =>
          show (Bytes.digits 8 text ++ Bytes.digits 4 length.toNat).length ≤ 16
          rw [List.length_append, Bytes.length_digits, Bytes.length_digits]
          decide
      | _ => exact Result.noConfusion
  | hexFixed => exact absurd (Or.inl rfl) htype
  | uuid => exact absurd (Or.inr rfl) htype
  | double =>
      unfold encoded
      dsimp only
      split
      · exact fits_digits _ _
      · exact Result.noConfusion
  | bool =>
      cases content with
      | bool b => exact Nat.le_refl 1
      | _ => exact Result.noConfusion
  | value => exact fits_digits _ _
  | unknown => exact Result.noConfusion

/-- Each slot keeps the bytes of its value, and nothing behind the slots is written to. -/
theorem convertRow_slots {type : FieldType} (htype : ¬ type.Decodes) {values : List Value}
    {slot : Nat}
    {m m' : Bytes} (hslot : slot ≠ 0) (h : convertRow double type values slot m = some m') :
    (∀ j value, values[j]? = some value → ∃ bytes, encoded double type value = .ok bytes ∧
      m'.read (slot + j * elementSize type) bytes.length = bytes) ∧
    ∀ x, ¬ (Region.mk slot (values.length * elementSize type)).Has x → m' x = m x := by
  induction values generalizing slot m with
  | nil =>
      cases h
      exact ⟨nofun, fun _ _ => rfl⟩
  | cons value rest ih =>
      rw [convertRow, readField_encoded hslot htype] at h
      have hfits := @fits_encoded double type value htype
      cases hencoded : encoded double type value with
      | error result =>
          rw [hencoded] at h hfits
          dsimp only at h
          rw [if_neg hfits] at h
          cases h
      | ok bytes =>
          rw [hencoded] at h hfits
          dsimp only at h
          rw [if_pos rfl] at h
          obtain ⟨hlater, hframe⟩ := ih (by omega) h
          have hlength : bytes.length ≤ elementSize type := hfits
          have hslots : (value :: rest).length * elementSize type =
              elementSize type + rest.length * elementSize type := by
            rw [List.length_cons, Nat.succ_mul, Nat.add_comm]
          refine ⟨fun j v hj => ?_, fun x hx => ?_⟩
          · cases j with
            | zero =>
                cases hj
                refine ⟨bytes, hencoded, ?_⟩
                -- the later slots lie behind this one
                have hkept : Bytes.AgreeOn (m.put slot bytes) m' ⟨slot, bytes.length⟩ := by
                  refine fun x hx => hframe x fun hin => ?_
                  have hlo := hin.1
                  have hhi := hx.2
                  simp only [Region.stop_mk] at hlo hhi
                  omega
                rw [Nat.zero_mul, Nat.add_zero, Bytes.read_congr hkept, Bytes.read_put]
            | succ j =>
                rw [List.getElem?_cons_succ] at hj
                obtain ⟨more, hmore, hread⟩ := hlater j v hj
                refine ⟨more, hmore, ?_⟩
                rwa [Nat.succ_mul, Nat.add_comm (j * elementSize type), ← Nat.add_assoc]
          · rw [hslots] at hx
            simp only [Region.Has, Region.stop_mk] at hx hframe
            rw [hframe x (by omega)]
            exact Bytes.put_apply_of_not (by omega)

/-- An array that is longer than the room for it is refused with its length. Any other is converted
element by element, without its nulls, into slots that follow each other, as far as it can be. -/
theorem readArray_fills {m : Bytes} {addr : Nat} {elements : List Value} {type : FieldType}
    {outValues capacity : Nat} (hout : outValues ≠ 0) (hcapacity : capacity ≠ 0)
    (hsize : elementSize type ≠ 0) (hshort : elements.length < 2 ^ 32) :
    let r := readArray double m ⟨addr, .arr elements⟩ type outValues capacity
    (capacity < elements.length → r = (.errorDestinationBufferToSmall, elements.length, m)) ∧
    (elements.length ≤ capacity →
      Fills double type outValues m (elements.filter type.takes) r ∧
      (¬ type.Decodes →
        (∀ j < r.2.1, ∃ value bytes, (elements.filter type.takes)[j]? = some value ∧
          encoded double type value = .ok bytes ∧
          r.2.2.read (outValues + j * elementSize type) bytes.length = bytes) ∧
        ∀ x, ¬ (Region.mk outValues (r.2.1 * elementSize type)).Has x → r.2.2 x = m x)) := by
  intro r
  have hr : r =
      if capacity < elements.length then (.errorDestinationBufferToSmall, elements.length, m)
      else readElements double type elements outValues 0 m := by
    show readArray double m ⟨addr, .arr elements⟩ type outValues capacity = _
    unfold readArray
    rw [if_neg hout, if_neg hcapacity, if_neg hsize]
    show (if capacity < elements.length % 2 ^ 32 then _ else _) = _
    rw [Nat.mod_eq_of_lt hshort]
  refine ⟨fun hlong => hr.trans (if_pos hlong), fun hfits => ?_⟩
  rw [if_neg (Nat.not_lt.mpr hfits)] at hr
  obtain ⟨n, hfills, hn⟩ := @readElements_fills double type elements outValues 0 m
  rw [Nat.zero_add] at hn
  have hall : Fills double type outValues m (elements.filter type.takes) r := by
    rw [hr]
    rw [← hn] at hfills
    exact hfills
  refine ⟨hall, fun htype => ?_⟩
  obtain ⟨written, rest, m', hvalues, hrow, hcount, hend, hstop⟩ := hall
  have hmemory : r.2.2 = m' := by
    cases rest with
    | nil => exact (hend rfl).2
    | cons value later =>
        -- a refused value is not written
        obtain ⟨hne, hfield⟩ := hstop value later rfl
        have hpos : outValues + written.length * elementSize type ≠ 0 := by omega
        rw [readField_encoded hpos htype] at hfield
        cases hencoded : encoded double type value with
        | error result =>
            rw [hencoded] at hfield
            exact congrArg Prod.snd hfield
        | ok bytes =>
            rw [hencoded] at hfield
            exact absurd (congrArg Prod.fst hfield) hne
  obtain ⟨hslots, hframe⟩ := convertRow_slots htype hout hrow
  rw [hcount, hmemory]
  refine ⟨fun j hj => ?_, hframe⟩
  obtain ⟨bytes, hbytes, hread⟩ := hslots j written[j] (List.getElem?_eq_getElem hj)
  refine ⟨written[j], bytes, ?_, hbytes, hread⟩
  rw [hvalues, List.getElem?_append_left hj, List.getElem?_eq_getElem hj]

/-- The elements of `[1, null, 3, -1]`. -/
def sampleElements : List Value :=
  [⟨8, .uint 1⟩, ⟨24, .null⟩, ⟨40, .uint 3⟩, ⟨56, .sint (-1)⟩]

/-- The null takes no slot, the negative element is refused behind the two that fit, and with room
for three nothing is converted. -/
theorem readArray_fills_sample :
    let r := readArray (fun _ => 0) (fun _ => 0) ⟨64, .arr sampleElements⟩ .uint32 16 4
    r.1 = .errorArithmeticOverflow ∧ r.2.1 = 2 ∧ r.2.2.read 20 4 = [3, 0, 0, 0] ∧
      r.2.2 24 = 0 ∧
      readArray (fun _ => 0) (fun _ => 0) ⟨64, .arr sampleElements⟩ .uint32 16 3 =
        (.errorDestinationBufferToSmall, 4, fun _ => 0) := by
  intro r
  have hcount : r.2.1 = 2 := by decide +kernel
  obtain ⟨-, hfills⟩ := @readArray_fills (fun _ => 0) (fun _ => 0) 64 sampleElements .uint32 16 4
    (by decide) (by decide) (by decide) (by decide)
  obtain ⟨hslots, hframe⟩ := (hfills (by decide)).2 (by decide)
  obtain ⟨value, bytes, hvalue, hbytes, hread⟩ := hslots 1 (hcount ▸ by decide)
  obtain rfl : ⟨40, .uint 3⟩ = value := Option.some.inj hvalue
  have hthree : encoded (fun _ => 0) .uint32 ⟨40, .uint 3⟩ = .ok [3, 0, 0, 0] := by decide +kernel
  obtain rfl := Except.ok.inj (hthree.symm.trans hbytes)
  refine ⟨by decide +kernel, hcount, hread, hframe 24 ?_, ?_⟩
  · exact fun hin => absurd hin.2 (hcount ▸ by decide)
  · exact (@readArray_fills (fun _ => 0) (fun _ => 0) 64 sampleElements .uint32 16 3
      (by decide) (by decide) (by decide) (by decide)).1 (by decide)

end Arnm.Json
