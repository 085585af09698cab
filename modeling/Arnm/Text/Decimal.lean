import Arnm.Lib.Writes
import Mathlib.Data.Nat.Digits.Lemmas

set_option autoImplicit false

/-! # Decimal numbers

The conversions of `converter.c` from integers to decimal text. A ladder of comparisons tells how
many digits a number has, and a writer fills the buffer from the back, two digits at a time. Both
agree with the digits of the number (`toString_converts`). -/

namespace Arnm.Decimal

/-! ## Sizes -/

/-- `arnm_uint64_to_string_size` -/
def uint64ToStringSize (value : UInt64) : Nat :=
  let value := value.toNat
  if value < 100000000 then
    if value < 10000 then
      if value < 100 then if value < 10 then 1 else 2
      else if value < 1000 then 3 else 4
    else if value < 1000000 then if value < 100000 then 5 else 6
    else if value < 10000000 then 7 else 8
  else if value < 1000000000000 then
    if value < 10000000000 then if value < 1000000000 then 9 else 10
    else if value < 100000000000 then 11 else 12
  else if value < 10000000000000000 then
    if value < 100000000000000 then if value < 10000000000000 then 13 else 14
    else if value < 1000000000000000 then 15 else 16
  else if value < 100000000000000000 then 17
  else if value < 1000000000000000000 then 18
  else if value < 10000000000000000000 then 19 else 20

/-- `int64_to_abs_u64` -/
def int64ToAbsU64 (v : Int64) : UInt64 := if v < 0 then 0 - v.toUInt64 else v.toUInt64

/-- `arnm_int64_to_string_size` -/
def int64ToStringSize (v : Int64) : Nat :=
  if v < 0 then uint64ToStringSize (int64ToAbsU64 v) + 1 else uint64ToStringSize (int64ToAbsU64 v)

/-! ## Writing -/

/-- `'0'` -/
def zero : UInt8 := 0x30

/-- `'-'` -/
def minus : UInt8 := 0x2D

/-- `DIGIT_TABLE`: both digits of every number below a hundred. -/
def digitTable : List UInt8 :=
  (List.range 100).flatMap fun i => [zero + UInt8.ofNat (i / 10), zero + UInt8.ofNat (i % 10)]

/-- The two digits of a number in front of a cursor. -/
def putPair (buffer cursor r : Nat) (m : Bytes) : Bytes :=
  (m.put (buffer + (cursor - 1)) [digitTable.getD (r * 2 + 1) 0]).put (buffer + (cursor - 2))
    [digitTable.getD (r * 2) 0]

/-- The loop over pairs of digits: what is left of the number and where the cursor stands, or `none`
when there was no room. -/
def writePairs (buffer temp cursor : Nat) (m : Bytes) : Option (Nat × Nat) × Bytes :=
  if temp < 100 then (some (temp, cursor), m)
  else if cursor < 2 then (none, m)
  else writePairs buffer (temp / 100) (cursor - 2) (putPair buffer cursor (temp % 100) m)
termination_by temp

/-- `arnm_uint64_to_string_known_string_size` -/
def uint64ToStringKnown (m : Bytes) (buffer : Nat) (value : UInt64) (stringSize : Nat) :
    Nat × Bytes :=
  if value = 0 then
    if stringSize < 1 then (1, m) else (1, (m.put buffer [zero]).put (buffer + 1) [0])
  else
    match writePairs buffer value.toNat stringSize (m.put (buffer + stringSize) [0]) with
    | (none, m) => (uint64ToStringSize value, m)
    | (some (temp, cursor), m) =>
      if temp < 10 then
        if cursor < 1 then (uint64ToStringSize value, m)
        else (stringSize, m.put (buffer + (cursor - 1)) [zero + UInt8.ofNat temp])
      else if cursor < 2 then (uint64ToStringSize value, m)
      else (stringSize, putPair buffer cursor temp m)

/-- `arnm_int64_to_string_known_string_size` -/
def int64ToStringKnown (m : Bytes) (buffer : Nat) (value : Int64) (stringSize : Nat) :
    Nat × Bytes :=
  if 0 ≤ value then uint64ToStringKnown m buffer value.toUInt64 stringSize
  else
    let r := uint64ToStringKnown (m.put buffer [minus]) (buffer + 1) (int64ToAbsU64 value)
      ((stringSize + 255) % 256)
    ((r.1 + 1) % 256, r.2)

/-- `arnm_uint64_to_string` -/
def uint64ToString (m : Bytes) (buffer bufferSize : Nat) (value : UInt64) : Nat × Bytes :=
  let requiredSize := uint64ToStringSize value
  if bufferSize < requiredSize + 1 then
    (requiredSize, if bufferSize ≠ 0 then m.put buffer [0] else m)
  else uint64ToStringKnown m buffer value requiredSize

/-- `arnm_int64_to_string` -/
def int64ToString (m : Bytes) (buffer bufferSize : Nat) (value : Int64) : Nat × Bytes :=
  let requiredSize := int64ToStringSize value
  if bufferSize < requiredSize + 1 then
    (requiredSize, if bufferSize ≠ 0 then m.put buffer [0] else m)
  else int64ToStringKnown m buffer value requiredSize

/-! ## Decimal text -/

def digitChar (d : Nat) : UInt8 := zero + UInt8.ofNat d

/-- The digits of a number, the highest first; of zero there are none. -/
def digitsText (n : Nat) : List UInt8 := ((Nat.digits 10 n).map digitChar).reverse

/-- The text of a number. -/
def text (n : Nat) : List UInt8 := if n = 0 then [zero] else digitsText n

/-- The digit a character is. -/
def digitOf (c : UInt8) : Option Nat := if zero ≤ c ∧ c ≤ 0x39 then some (c.toNat - 48) else none

/-- Reads digits behind the number read so far. -/
def parseFrom : Nat → List UInt8 → Option Nat
  | n, [] => some n
  | n, c :: rest => (digitOf c).bind fun d => parseFrom (n * 10 + d) rest

/-- Reads a text of one digit or more. -/
def parse (text : List UInt8) : Option Nat := if text = [] then none else parseFrom 0 text

/-- Reads a text of one digit or more behind at most one minus sign. -/
def parseSigned : List UInt8 → Option Int
  | c :: rest =>
      if c = minus then (parse rest).map fun n => -(n : Int) else (parse (c :: rest)).map (↑)
  | [] => none

/-- A text starts with a zero only when it is the zero. -/
def NoLeadingZero (text : List UInt8) : Prop := text.head? = some zero → text = [zero]

theorem digitOf_digitChar {d : Nat} (h : d < 10) : digitOf (digitChar d) = some d := by
  revert d
  decide

theorem digitsText_succ {n : Nat} (h : 0 < n) :
    digitsText n = digitsText (n / 10) ++ [digitChar (n % 10)] := by
  rw [digitsText, Nat.digits_def' (by decide) h, List.map_cons, List.reverse_cons]
  rfl

theorem parseFrom_append (n : Nat) (front back : List UInt8) :
    parseFrom n (front ++ back) = (parseFrom n front).bind fun m => parseFrom m back := by
  induction front generalizing n with
  | nil => rfl
  | cons c front ih =>
      rw [List.cons_append, parseFrom, parseFrom]
      cases digitOf c with
      | none => rfl
      | some d => exact ih _

/-- The digits are read back. -/
theorem parseFrom_digitsText (n : Nat) : parseFrom 0 (digitsText n) = some n := by
  induction n using Nat.strong_induction_on with
  | _ n ih =>
      rcases Nat.eq_zero_or_pos n with rfl | hpos
      · rfl
      · rw [digitsText_succ hpos, parseFrom_append, ih (n / 10) (by omega)]
        show (digitOf (digitChar (n % 10))).bind _ = _
        rw [digitOf_digitChar (Nat.mod_lt n (by decide))]
        show some (n / 10 * 10 + n % 10) = some n
        rw [Nat.div_add_mod']

theorem digitsText_ne_nil {n : Nat} (h : n ≠ 0) : digitsText n ≠ [] := by
  rw [digitsText_succ (Nat.pos_of_ne_zero h)]
  exact List.append_ne_nil_of_right_ne_nil _ (List.cons_ne_nil _ _)

theorem parse_text (n : Nat) : parse (text n) = some n := by
  by_cases h : n = 0
  · rw [h]
    rfl
  · rw [text, if_neg h, parse, if_neg (digitsText_ne_nil h), parseFrom_digitsText]

/-- The first digit of a number is no zero. -/
theorem digitsText_head (n : Nat) : (digitsText n).head? ≠ some zero := by
  induction n using Nat.strong_induction_on with
  | _ n ih =>
      rcases Nat.eq_zero_or_pos n with rfl | hpos
      · decide
      · rw [digitsText_succ hpos]
        by_cases hsmall : n / 10 = 0
        · rw [hsmall]
          have hdigit : ∀ d < 10, 0 < d → ([] ++ [digitChar d]).head? ≠ some zero := by decide
          exact hdigit (n % 10) (Nat.mod_lt n (by decide)) (by omega)
        · rw [List.head?_append_of_ne_nil _ (digitsText_ne_nil hsmall)]
          exact ih (n / 10) (by omega)

theorem noLeadingZero_text (n : Nat) : NoLeadingZero (text n) := by
  by_cases h : n = 0
  · rw [h]
    exact fun _ => rfl
  · rw [text, if_neg h]
    exact fun hzero => absurd hzero (digitsText_head n)

/-! ## The ladder -/

/-- The number of digits lies where the powers of ten put it. -/
theorem length_digitsText {n k : Nat} (hlo : 10 ^ k ≤ n) (hhi : n < 10 ^ (k + 1)) :
    (digitsText n).length = k + 1 := by
  rw [digitsText, List.length_reverse, List.length_map]
  have hle := (Nat.digits_length_le_iff (by decide) n).mpr hhi
  have hlt := (Nat.lt_digits_length_iff (by decide) n).mpr hlo
  omega

theorem length_text (value : UInt64) : (text value.toNat).length = uint64ToStringSize value := by
  have hmax := value.toNat_lt
  generalize hn : value.toNat = n at hmax
  have hladder : uint64ToStringSize value = uint64ToStringSize (UInt64.ofNat n) := by
    rw [← hn, UInt64.ofNat_toNat]
  by_cases hzero : n = 0
  · rw [hladder, hzero]
    decide
  rw [text, if_neg hzero, uint64ToStringSize, hn]
  split_ifs <;> exact length_digitsText (by norm_num; omega) (by norm_num; omega)

/-! ## The writer -/

theorem digitTable_pair : ∀ r < 100,
    digitTable.getD (r * 2) 0 = digitChar (r / 10) ∧
      digitTable.getD (r * 2 + 1) 0 = digitChar (r % 10) := by
  decide

/-- A pair of digits goes right in front of what was written. -/
theorem putPair_eq {buffer cursor r : Nat} (hr : r < 100) (hroom : 2 ≤ cursor) (m : Bytes)
    (written : List UInt8) :
    putPair buffer cursor r (m.put (buffer + cursor) written) =
      m.put (buffer + (cursor - 2)) (digitChar (r / 10) :: digitChar (r % 10) :: written) := by
  obtain ⟨hhigh, hlow⟩ := digitTable_pair r hr
  have hone := Bytes.put_put_before m (buffer + (cursor - 1)) [digitChar (r % 10)] written
  have htwo := Bytes.put_put_before m (buffer + (cursor - 2)) [digitChar (r / 10)]
    (digitChar (r % 10) :: written)
  rw [List.length_singleton, show buffer + (cursor - 1) + 1 = buffer + cursor by omega] at hone
  rw [List.length_singleton,
    show buffer + (cursor - 2) + 1 = buffer + (cursor - 1) by omega] at htwo
  rw [putPair, hhigh, hlow, hone]
  exact htwo

theorem digitsText_pair {n : Nat} (h : 10 ≤ n) :
    digitsText n =
      digitsText (n / 100) ++ [digitChar (n % 100 / 10), digitChar (n % 100 % 10)] := by
  rw [digitsText_succ (by omega), digitsText_succ (show 0 < n / 10 by omega),
    Nat.div_div_eq_div_mul,
    List.append_assoc, show n % 100 / 10 = n / 10 % 10 by omega,
      show n % 100 % 10 = n % 10 by omega]
  rfl

/-- With room for exactly its digits the loop leaves the first one or two of them. -/
theorem writePairs_spec (buffer : Nat) (m : Bytes) :
    ∀ (temp : Nat) (written : List UInt8), temp ≠ 0 →
      ∃ t rest, t ≠ 0 ∧ t < 100 ∧ digitsText temp = digitsText t ++ rest ∧
        writePairs buffer temp (digitsText temp).length
          (m.put (buffer + (digitsText temp).length) written) =
            (some (t, (digitsText t).length),
              m.put (buffer + (digitsText t).length) (rest ++ written)) := by
  intro temp
  induction temp using Nat.strong_induction_on with
  | _ temp ih =>
      intro written hne
      by_cases hsmall : temp < 100
      · refine ⟨temp, [], hne, hsmall, (List.append_nil _).symm, ?_⟩
        rw [writePairs, if_pos hsmall]
        rfl
      · have hpair := digitsText_pair (show 10 ≤ temp by omega)
        have hlen : (digitsText temp).length = (digitsText (temp / 100)).length + 2 := by
          rw [hpair, List.length_append]
          rfl
        -- the pair joins what was written behind it, and the loop goes on with a hundredth
        obtain ⟨t, rest, ht, hlt, htext, hloop⟩ := ih (temp / 100) (by omega)
          (digitChar (temp % 100 / 10) :: digitChar (temp % 100 % 10) :: written) (by omega)
        refine ⟨t, rest ++ [digitChar (temp % 100 / 10), digitChar (temp % 100 % 10)], ht,
          hlt, ?_, ?_⟩
        · rw [hpair, htext, List.append_assoc]
        · rw [writePairs, if_neg hsmall, if_neg (by omega),
            putPair_eq (Nat.mod_lt temp (by decide)) (by omega), hlen, Nat.add_sub_cancel, hloop,
            List.append_assoc]
          rfl

/-- With room for exactly its text a number is written there, and nothing else is. -/
theorem uint64ToStringKnown_spec (m : Bytes) (buffer : Nat) (value : UInt64) :
    uint64ToStringKnown m buffer value (uint64ToStringSize value) =
      (uint64ToStringSize value, m.put buffer (text value.toNat ++ [0])) := by
  unfold uint64ToStringKnown
  by_cases hzero : value = 0
  · have hput := Bytes.put_put m buffer [zero] [0]
    rw [List.length_singleton] at hput
    subst hzero
    rw [if_pos rfl, if_neg (by decide), hput]
    rfl
  · have hne : value.toNat ≠ 0 := by
      intro h
      apply hzero
      rw [← UInt64.toNat_inj, h]
      rfl
    have htext : text value.toNat = digitsText value.toNat := if_neg hne
    obtain ⟨t, rest, ht, hlt, hdigits, hloop⟩ := writePairs_spec buffer m value.toNat [0] hne
    rw [if_neg hzero, ← length_text value, htext, hloop]
    dsimp only
    -- what the loop leaves is the first digit, or the first two, and there is room for just that
    by_cases hone : t < 10
    · have hchar : digitsText t = [digitChar t] := by
        rw [digitsText_succ (Nat.pos_of_ne_zero ht), Nat.div_eq_of_lt hone, Nat.mod_eq_of_lt hone]
        rfl
      have hput := Bytes.put_put_before m buffer [digitChar t] (rest ++ [0])
      rw [hchar] at hdigits ⊢
      have hroom : ¬ [digitChar t].length < 1 := Nat.lt_irrefl 1
      rw [if_pos hone, if_neg hroom, hdigits, List.append_assoc]
      exact congrArg (Prod.mk _) hput
    · have hchars : digitsText t = [digitChar (t / 10), digitChar (t % 10)] := by
        rw [digitsText_pair (Nat.le_of_not_lt hone), Nat.div_eq_of_lt hlt, Nat.mod_eq_of_lt hlt]
        rfl
      rw [hchars] at hdigits ⊢
      have hroom : ¬ [digitChar (t / 10), digitChar (t % 10)].length < 2 := Nat.lt_irrefl 2
      rw [if_neg hone, if_neg hroom, hdigits, List.append_assoc]
      exact congrArg (Prod.mk _) (putPair_eq hlt (Nat.le_refl 2) m (rest ++ [0]))

/-- What the size function announces is the length of the text, and the conversion writes the text
when the buffer holds more than that. -/
theorem uint64ToString_eq (m : Bytes) (buffer bufferSize : Nat) (value : UInt64) :
    uint64ToString m buffer bufferSize value =
      (uint64ToStringSize value,
        if uint64ToStringSize value < bufferSize then m.put buffer (text value.toNat ++ [0])
        else if bufferSize ≠ 0 then m.put buffer [0] else m) := by
  unfold uint64ToString
  by_cases hroom : uint64ToStringSize value < bufferSize
  · rw [if_pos hroom, if_neg (by omega), uint64ToStringKnown_spec]
  · rw [if_neg hroom, if_pos (by omega)]

/-! ## Signed numbers -/

/-- The absolute value, that of the smallest number included. -/
theorem toNat_int64ToAbsU64 (v : Int64) : (int64ToAbsU64 v).toNat = v.toInt.natAbs := by
  have hbits : v.toInt = if 2 * v.toUInt64.toNat < 2 ^ 64 then (v.toUInt64.toNat : Int)
      else (v.toUInt64.toNat : Int) - 2 ^ 64 := by
    exact_mod_cast BitVec.toInt_eq_toNat_cond v.toBitVec
  have hlt := v.toUInt64.toNat_lt
  have hsign : v < 0 ↔ v.toInt < 0 := Int64.lt_iff_toInt_lt
  unfold int64ToAbsU64
  by_cases hneg : v < 0
  · -- `0 - v` wraps, so the smallest number is its own negation, which is its absolute value
    rw [if_pos hneg, UInt64.toNat_sub, UInt64.toNat_zero]
    rw [hsign] at hneg
    split at hbits <;> omega
  · rw [if_neg hneg]
    rw [hsign] at hneg
    split at hbits <;> omega

/-- The text of a signed number. -/
def signedText (n : Int) : List UInt8 := if n < 0 then minus :: text n.natAbs else text n.natAbs

theorem uint64ToStringSize_le (value : UInt64) : uint64ToStringSize value ≤ 20 := by
  have hlt := value.toNat_lt
  rw [← length_text, text]
  split
  · decide
  · rw [digitsText, List.length_reverse, List.length_map, Nat.digits_length_le_iff (by decide)]
    omega

theorem length_signedText (value : Int64) :
    (signedText value.toInt).length = int64ToStringSize value := by
  have hlen := length_text (int64ToAbsU64 value)
  have hsign : value < 0 ↔ value.toInt < 0 := Int64.lt_iff_toInt_lt
  rw [toNat_int64ToAbsU64] at hlen
  unfold signedText int64ToStringSize
  by_cases hneg : value < 0
  · rw [if_pos hneg, if_pos (hsign.mp hneg), List.length_cons, hlen]
  · rw [if_neg hneg, if_neg (mt hsign.mpr hneg), hlen]

theorem int64ToStringKnown_spec (m : Bytes) (buffer : Nat) (value : Int64) :
    int64ToStringKnown m buffer value (int64ToStringSize value) =
      (int64ToStringSize value, m.put buffer (signedText value.toInt ++ [0])) := by
  have hsign : value < 0 ↔ value.toInt < 0 := Int64.lt_iff_toInt_lt
  have hnonneg : 0 ≤ value ↔ 0 ≤ value.toInt := Int64.le_iff_toInt_le
  have habs := toNat_int64ToAbsU64 value
  unfold int64ToStringKnown signedText
  by_cases hneg : value < 0
  · -- the sign, and behind it the absolute value; neither length leaves its eight bits
    have hsize :
        int64ToStringSize value = uint64ToStringSize (int64ToAbsU64 value) + 1 := if_pos hneg
    have hle := uint64ToStringSize_le (int64ToAbsU64 value)
    have hput := Bytes.put_put m buffer [minus] (text value.toInt.natAbs ++ [0])
    rw [List.length_singleton] at hput
    rw [if_neg (by rw [hnonneg]; have := hsign.mp hneg; omega), if_pos (hsign.mp hneg), hsize,
      show (uint64ToStringSize (int64ToAbsU64 value) + 1 + 255) % 256 =
        uint64ToStringSize (int64ToAbsU64 value) by omega,
      uint64ToStringKnown_spec, habs, hput]
    show ((uint64ToStringSize (int64ToAbsU64 value) + 1) % 256, _) = _
    rw [Nat.mod_eq_of_lt (by omega)]
    rfl
  · have hsize : int64ToStringSize value = uint64ToStringSize (int64ToAbsU64 value) := if_neg hneg
    have hsame : int64ToAbsU64 value = value.toUInt64 := if_neg hneg
    rw [hsame] at hsize habs
    rw [if_pos (by rw [hnonneg]; have := mt hsign.mpr hneg; omega),
      if_neg (mt hsign.mpr hneg), hsize,
      uint64ToStringKnown_spec, habs]

theorem int64ToString_eq (m : Bytes) (buffer bufferSize : Nat) (value : Int64) :
    int64ToString m buffer bufferSize value =
      (int64ToStringSize value,
        if int64ToStringSize value < bufferSize then m.put buffer (signedText value.toInt ++ [0])
        else if bufferSize ≠ 0 then m.put buffer [0] else m) := by
  unfold int64ToString
  by_cases hroom : int64ToStringSize value < bufferSize
  · rw [if_pos hroom, if_neg (by omega), int64ToStringKnown_spec]
  · rw [if_neg hroom, if_pos (by omega)]

/-! ## Reading back -/

/-- A text that is read as digits has neither a terminator nor a sign in it. -/
theorem digitOf_of_parseFrom {n k : Nat} {l : List UInt8} (h : parseFrom n l = some k) :
    ∀ c ∈ l, digitOf c ≠ none := by
  induction l generalizing n with
  | nil =>
      intro c hc
      cases hc
  | cons b l ih =>
      rw [parseFrom] at h
      cases hb : digitOf b with
      | none =>
          rw [hb] at h
          cases h
      | some d =>
          rw [hb] at h
          intro c hc
          rcases List.mem_cons.mp hc with rfl | hc
          · rw [hb]
            exact Option.some_ne_none d
          · exact ih h c hc

theorem not_mem_text {c : UInt8} (hc : digitOf c = none) (n : Nat) : c ∉ text n := by
  have hparse := parse_text n
  rw [parse] at hparse
  split at hparse
  · cases hparse
  · exact fun hin => digitOf_of_parseFrom hparse c hin hc

theorem parseSigned_text (n : Nat) : parseSigned (text n) = some (n : Int) := by
  have hparse := parse_text n
  have hminus := not_mem_text (show digitOf minus = none by decide) n
  cases htext : text n with
  | nil =>
      rw [htext] at hparse
      cases hparse
  | cons c rest =>
      rw [htext] at hparse hminus
      have hne : c ≠ minus := fun h => hminus (h ▸ List.mem_cons_self)
      rw [parseSigned, if_neg hne, hparse]
      rfl

theorem parseSigned_signedText (n : Int) : parseSigned (signedText n) = some n := by
  unfold signedText
  by_cases hneg : n < 0
  · rw [if_pos hneg, parseSigned, if_pos rfl, parse_text]
    show some (-(n.natAbs : Int)) = some n
    rw [Int.ofNat_natAbs_of_nonpos (by omega), neg_neg]
  · rw [if_neg hneg, parseSigned_text, Int.natAbs_of_nonneg (by omega)]

/-- The text behind a sign. -/
def unsigned (text : List UInt8) : List UInt8 := if text.head? = some minus then text.tail else text

theorem unsigned_signedText (n : Int) : unsigned (signedText n) = text n.natAbs := by
  unfold signedText unsigned
  by_cases hneg : n < 0
  · rw [if_pos hneg]
    rfl
  · rw [if_neg hneg, if_neg]
    intro hhead
    exact not_mem_text (show digitOf minus = none by decide) _ (List.mem_of_mem_head? hhead)

/-- What a conversion to text promises: it returns the length announced; it writes a text of this
length that is what it should be, and a terminator, exactly when there is room for both; and
otherwise the empty string, if there is room for that. -/
structure Converts (m : Bytes) (buffer bufferSize size : Nat) (Is : List UInt8 → Prop)
    (r : Nat × Bytes) : Prop where
  returned : r.1 = size
  written : size < bufferSize →
    ∃ text, text.length = size ∧ 0 ∉ text ∧ Is text ∧ r.2 = m.put buffer (text ++ [0])
  refused : bufferSize ≤ size → r.2 = if bufferSize ≠ 0 then m.put buffer [0] else m

/-- Every number of 64 bits, without or with a sign, is converted to the text it is read back from;
and nothing behind the terminator, or in a buffer too small, is written. -/
theorem toString_converts (m : Bytes) (buffer bufferSize : Nat) :
    (∀ value : UInt64, Converts m buffer bufferSize (uint64ToStringSize value)
      (fun text => NoLeadingZero text ∧ parse text = some value.toNat)
      (uint64ToString m buffer bufferSize value)) ∧
    ∀ value : Int64, Converts m buffer bufferSize (int64ToStringSize value)
      (fun text => NoLeadingZero (unsigned text) ∧ parseSigned text = some value.toInt)
      (int64ToString m buffer bufferSize value) := by
  constructor
  · intro value
    rw [uint64ToString_eq]
    refine ⟨rfl, fun hroom => ?_, fun hsmall => if_neg (Nat.not_lt.mpr hsmall)⟩
    refine ⟨text value.toNat, length_text value, not_mem_text (by decide) _, ?_, if_pos hroom⟩
    exact ⟨noLeadingZero_text _, parse_text _⟩
  · intro value
    rw [int64ToString_eq]
    refine ⟨rfl, fun hroom => ?_, fun hsmall => if_neg (Nat.not_lt.mpr hsmall)⟩
    refine ⟨signedText value.toInt, length_signedText value, ?_, ?_, if_pos hroom⟩
    · unfold signedText
      split
      · rw [List.mem_cons, not_or]
        exact ⟨by decide, not_mem_text (by decide) _⟩
      · exact not_mem_text (by decide) _
    · rw [unsigned_signedText]
      exact ⟨noLeadingZero_text _, parseSigned_signedText _⟩

end Arnm.Decimal
