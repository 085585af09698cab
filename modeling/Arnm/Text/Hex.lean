import Arnm.Lib.Writes
import Arnm.Result

set_option autoImplicit false

/-! # Hex

`arnm_binary_to_hex` and `arnm_binary_from_hex_with_known_hex_size` of `converter.c`. The decoder
computes a nibble from every character and only counts whether one of them was no digit; what it has
written is cleared at the end. -/

namespace Arnm.Hex

/-- `ARNM_HEX_MAX_BINARY_SIZE` -/
def maxBinarySize : Nat := (2 ^ 32 - 1 - 1) / 2

/-- The character of a nibble. -/
def nibbleChar (nibble : UInt8) : UInt8 := nibble + if nibble < 10 then 48 else 87

/-- The loop of `arnm_binary_to_hex` over `n` bytes, from the byte `i` on. -/
def encodeBytes (result bytes : Nat) : Nat → Nat → Bytes → Bytes
  | 0, _, m => m
  | n + 1, i, m =>
    let high := m (bytes + i) >>> 4
    let low := m (bytes + i) &&& 0x0F
    encodeBytes result bytes n (i + 1) (m.put (result + i * 2) [nibbleChar high, nibbleChar low])

/-- `arnm_binary_to_hex` -/
def binaryToHex (m : Bytes) (result bytes size : Nat) : Result × Bytes :=
  if maxBinarySize < size then (.errorArithmeticOverflow, m)
  else (.success, (encodeBytes result bytes size 0 m).put (result + size * 2 % 2 ^ 32) [0])

/-- The nibble of a character, whatever the character is. -/
def nibble (c : UInt8) : UInt8 := (c &&& 0x0F) + 9 * (c >>> (6 : UInt8))

/-- One range check for the digits and one for the letters, in upper case. -/
def invalidChar (c : UInt8) : Bool := !(decide (c - 48 ≤ 9) || decide ((c &&& 0xDF) - 65 ≤ 5))

/-- The loop of `arnm_binary_from_hex_with_known_hex_size` over `n` bytes, from the byte `i` on. -/
def decodeBytes (result hex : Nat) : Nat → Nat → Bool × Bytes → Bool × Bytes
  | 0, _, s => s
  | n + 1, i, s =>
    let highChar := s.2 (hex + i * 2)
    let lowChar := s.2 (hex + (i * 2 + 1))
    decodeBytes result hex n (i + 1)
      (s.1 || invalidChar highChar || invalidChar lowChar,
        s.2.put (result + i) [nibble highChar <<< 4 ||| nibble lowChar])

/-- `arnm_binary_from_hex_with_known_hex_size` -/
def binaryFromHex (m : Bytes) (result hex hexSize : Nat) : Result × Bytes :=
  let binSize := hexSize / 2
  if binSize * 2 ≠ hexSize then (.errorInvalidParam, m)
  else
    let r := decodeBytes result hex binSize 0 (false, m)
    if r.1 then (.errorDecodeFailed, r.2.fill result binSize 0) else (.success, r.2)

/-! ## Characters -/

/-- A hex digit in either case. -/
def IsDigit (c : UInt8) : Prop :=
  48 ≤ c.toNat ∧ c.toNat ≤ 57 ∨ 65 ≤ c.toNat ∧ c.toNat ≤ 70 ∨ 97 ≤ c.toNat ∧ c.toNat ≤ 102

instance (c : UInt8) : Decidable (IsDigit c) := inferInstanceAs (Decidable (_ ∨ _ ∨ _))

def AllDigits (text : List UInt8) : Prop := ∀ c ∈ text, IsDigit c

instance (text : List UInt8) : Decidable (AllDigits text) := List.decidableBAll IsDigit text

theorem allDigits_cons {c : UInt8} {text : List UInt8} :
    AllDigits (c :: text) ↔ IsDigit c ∧ AllDigits text := List.forall_mem_cons

/-- A letter in lower case, and every other character as it is. -/
def lower (c : UInt8) : UInt8 := if 65 ≤ c.toNat ∧ c.toNat ≤ 90 then c + 32 else c

/-- The range checks find exactly the characters that are no digits. -/
theorem invalidChar_eq (c : UInt8) : invalidChar c = !decide (IsDigit c) := by
  have key : ∀ n < 256, invalidChar (UInt8.ofNat n) = !decide (IsDigit (UInt8.ofNat n)) := by
    decide +kernel
  have hc := key c.toNat c.toNat_lt
  rwa [UInt8.ofNat_toNat] at hc

/-- A digit has a nibble, and the character of the nibble is the digit in lower case. -/
theorem nibble_digit {c : UInt8} (h : IsDigit c) :
    nibble c < 16 ∧ nibbleChar (nibble c) = lower c := by
  have key : ∀ n < 256, IsDigit (UInt8.ofNat n) → nibble (UInt8.ofNat n) < 16 ∧
      nibbleChar (nibble (UInt8.ofNat n)) = lower (UInt8.ofNat n) := by
    decide +kernel
  have hc := key c.toNat c.toNat_lt
  rw [UInt8.ofNat_toNat] at hc
  exact hc h

/-- A nibble is found again in its character. -/
theorem digit_nibbleChar {v : UInt8} (h : v < 16) :
    IsDigit (nibbleChar v) ∧ nibble (nibbleChar v) = v := by
  have key : ∀ n < 256, UInt8.ofNat n < 16 →
      IsDigit (nibbleChar (UInt8.ofNat n)) ∧
        nibble (nibbleChar (UInt8.ofNat n)) = UInt8.ofNat n := by
    decide +kernel
  have hv := key v.toNat v.toNat_lt
  rw [UInt8.ofNat_toNat] at hv
  exact hv h

/-- A byte is cut into two nibbles and put together again. -/
theorem nibbles_byte (b : UInt8) :
    b >>> 4 < 16 ∧ b &&& 0x0F < 16 ∧ (b >>> 4) <<< 4 ||| (b &&& 0x0F) = b := by
  have key : ∀ n < 256, UInt8.ofNat n >>> 4 < 16 ∧ UInt8.ofNat n &&& 0x0F < 16 ∧
      (UInt8.ofNat n >>> 4) <<< 4 ||| (UInt8.ofNat n &&& 0x0F) = UInt8.ofNat n := by
    decide +kernel
  have hb := key b.toNat b.toNat_lt
  rwa [UInt8.ofNat_toNat] at hb

/-- Two nibbles are found again in their byte. -/
theorem byte_nibbles {v w : UInt8} (hv : v < 16) (hw : w < 16) :
    (v <<< 4 ||| w) >>> 4 = v ∧ (v <<< 4 ||| w) &&& 0x0F = w := by
  have key : ∀ i < 16, ∀ j < 16,
      (UInt8.ofNat i <<< 4 ||| UInt8.ofNat j) >>> 4 = UInt8.ofNat i ∧
        (UInt8.ofNat i <<< 4 ||| UInt8.ofNat j) &&& 0x0F = UInt8.ofNat j := by
    decide +kernel
  have hboth := key v.toNat (UInt8.lt_iff_toNat_lt.mp hv) w.toNat (UInt8.lt_iff_toNat_lt.mp hw)
  rwa [UInt8.ofNat_toNat, UInt8.ofNat_toNat] at hboth

/-! ## Texts -/

/-- The text of a run of bytes. -/
def encodeText (bytes : List UInt8) : List UInt8 :=
  bytes.flatMap fun (b : UInt8) => [nibbleChar (b >>> 4), nibbleChar (b &&& 0x0F)]

/-- The bytes of a text, two characters each. -/
def decodeText : List UInt8 → List UInt8
  | c :: d :: rest => (nibble c <<< 4 ||| nibble d) :: decodeText rest
  | _ => []

/-- Whole bytes written in digits. -/
def WellFormed (text : List UInt8) : Prop := text.length % 2 = 0 ∧ AllDigits text

theorem length_encodeText (bytes : List UInt8) : (encodeText bytes).length = bytes.length * 2 := by
  induction bytes with
  | nil => rfl
  | cons b bytes ih =>
      show (encodeText bytes).length + 1 + 1 = _
      rw [ih, List.length_cons, Nat.succ_mul]

theorem length_decodeText (text : List UInt8) : (decodeText text).length = text.length / 2 := by
  fun_induction decodeText text with
  | case1 c d rest ih =>
      simp only [List.length_cons, ih]
      omega
  | case2 text h =>
      rcases text with _ | ⟨c, _ | ⟨d, rest⟩⟩
      · rfl
      · exact (Nat.div_eq_of_lt (Nat.lt_succ_self 1)).symm
      · exact absurd rfl (h c d rest)

/-- The text of some bytes is made of digits and stands for them. -/
theorem wellFormed_encodeText (bytes : List UInt8) : WellFormed (encodeText bytes) := by
  refine ⟨by rw [length_encodeText, Nat.mul_mod_left], fun c hc => ?_⟩
  obtain ⟨b, -, hb⟩ := List.mem_flatMap.mp hc
  obtain ⟨hhigh, hlow, -⟩ := nibbles_byte b
  rcases List.mem_cons.mp hb with rfl | hb
  · exact (digit_nibbleChar hhigh).1
  · rw [List.mem_singleton.mp hb]
    exact (digit_nibbleChar hlow).1

theorem decodeText_encodeText (bytes : List UInt8) : decodeText (encodeText bytes) = bytes := by
  induction bytes with
  | nil => rfl
  | cons b bytes ih =>
      obtain ⟨hhigh, hlow, hboth⟩ := nibbles_byte b
      show (nibble (nibbleChar (b >>> 4)) <<< 4 ||| nibble (nibbleChar (b &&& 0x0F))) ::
        decodeText (encodeText bytes) = _
      rw [ih, (digit_nibbleChar hhigh).2, (digit_nibbleChar hlow).2, hboth]

/-- The bytes of a text are written as the text in lower case. -/
theorem encodeText_decodeText {text : List UInt8} (h : WellFormed text) :
    encodeText (decodeText text) = text.map lower := by
  obtain ⟨hlength, hall⟩ := h
  fun_induction decodeText text with
  | case1 c d rest ih =>
      obtain ⟨hc, hhigh⟩ := nibble_digit (hall c List.mem_cons_self)
      obtain ⟨hd, hlow⟩ := nibble_digit (hall d (List.mem_cons_of_mem _ List.mem_cons_self))
      obtain ⟨hfirst, hsecond⟩ := byte_nibbles hc hd
      have hrest := ih (by simp only [List.length_cons] at hlength; omega)
        fun x hx => hall x (List.mem_cons_of_mem _ (List.mem_cons_of_mem _ hx))
      show nibbleChar _ :: nibbleChar _ :: encodeText (decodeText rest) = _
      rw [hrest, hfirst, hsecond, hhigh, hlow]
      rfl
  | case2 text hshort =>
      rcases text with _ | ⟨c, _ | ⟨d, rest⟩⟩
      · rfl
      · simp at hlength
      · exact absurd rfl (hshort c d rest)

/-! ## The loops -/

/-- Bytes are read two characters further on. -/
theorem encodeBytes_spec {result bytes : Nat} (n i : Nat) (m : Bytes)
    (happart : Region.Apart ⟨result + i * 2, n * 2⟩ ⟨bytes + i, n⟩) :
    encodeBytes result bytes n i m =
      m.put (result + i * 2) (encodeText (m.read (bytes + i) n)) := by
  induction n generalizing i m with
  | zero =>
      rw [Bytes.read_zero]
      exact (Bytes.put_nil m _).symm
  | succ n ih =>
      generalize hpair :
        [nibbleChar (m (bytes + i) >>> 4), nibbleChar (m (bytes + i) &&& 0x0F)] = pair
      have htwo : pair.length = 2 := by
        rw [← hpair]
        rfl
      have hfirst : Region.Apart ⟨result + i * 2, pair.length⟩ ⟨bytes + (i + 1), n⟩ := by
        refine happart.within ?_ ?_ <;> simp only [Region.Within, Region.stop_mk] <;> omega
      have hlater : Region.Apart ⟨result + (i + 1) * 2, n * 2⟩ ⟨bytes + (i + 1), n⟩ := by
        refine happart.within ?_ ?_ <;> simp only [Region.Within, Region.stop_mk] <;> omega
      have hput := Bytes.put_put m (result + i * 2) pair (encodeText (m.read (bytes + (i + 1)) n))
      rw [htwo, show result + i * 2 + 2 = result + (i + 1) * 2 by omega] at hput
      rw [encodeBytes, hpair, ih _ _ hlater, Bytes.read_congr (Bytes.put_agreeOn hfirst), hput,
        Bytes.read_succ, ← hpair]
      rfl

/-- The loop writes what the characters would stand for, and knows whether all were digits. -/
theorem decodeBytes_spec {result hex : Nat} (n i : Nat) (invalid : Bool) (m : Bytes)
    (happart : Region.Apart ⟨result + i, n⟩ ⟨hex + i * 2, n * 2⟩) :
    decodeBytes result hex n i (invalid, m) =
      (invalid || !decide (AllDigits (m.read (hex + i * 2) (n * 2))),
        m.put (result + i) (decodeText (m.read (hex + i * 2) (n * 2)))) := by
  induction n generalizing i invalid m with
  | zero =>
      rw [Nat.zero_mul, Bytes.read_zero, decodeText, Bytes.put_nil]
      · have hnone : decide (AllDigits []) = true := decide_eq_true (List.forall_mem_nil _)
        rw [hnone, Bool.not_true, Bool.or_false]
        rfl
      · nofun
  | succ n ih =>
      have hread : m.read (hex + i * 2) ((n + 1) * 2) =
          m (hex + i * 2) :: m (hex + (i * 2 + 1)) :: m.read (hex + (i + 1) * 2) (n * 2) := by
        rw [Nat.succ_mul, Bytes.read_succ, Bytes.read_succ, Nat.succ_mul]
        rfl
      -- the byte written lies in front of the characters still to be read
      have hfirst : Region.Apart ⟨result + i, 1⟩ ⟨hex + (i + 1) * 2, n * 2⟩ := by
        refine happart.within ?_ ?_ <;> simp only [Region.Within, Region.stop_mk] <;> omega
      have hlater : Region.Apart ⟨result + (i + 1), n⟩ ⟨hex + (i + 1) * 2, n * 2⟩ := by
        refine happart.within ?_ ?_ <;> simp only [Region.Within, Region.stop_mk] <;> omega
      generalize hbyte : nibble (m (hex + i * 2)) <<< 4 ||| nibble (m (hex + (i * 2 + 1))) = byte
      have hput := Bytes.put_put m (result + i) [byte]
        (decodeText (m.read (hex + (i + 1) * 2) (n * 2)))
      rw [List.length_singleton, Nat.add_assoc, List.singleton_append] at hput
      rw [decodeBytes]
      dsimp only
      rw [hbyte, ih _ _ _ hlater, Bytes.read_congr (Bytes.put_agreeOn hfirst), hput]
      rw [hread, decodeText, hbyte, invalidChar_eq, invalidChar_eq]
      congr 1
      simp only [allDigits_cons, Bool.decide_and, Bool.not_and, Bool.or_assoc]

theorem binaryToHex_spec {m : Bytes} {result bytes size : Nat} (hsize : size ≤ maxBinarySize)
    (happart : Region.Apart ⟨result, size * 2⟩ ⟨bytes, size⟩) :
    binaryToHex m result bytes size =
      (.success, m.put result (encodeText (m.read bytes size) ++ [0])) := by
  have hmax : maxBinarySize = 2147483647 := rfl
  have hindex : size * 2 % 2 ^ 32 = (encodeText (m.read bytes size)).length := by
    rw [length_encodeText, Bytes.length_read]
    omega
  have hloop := @encodeBytes_spec result bytes size 0 m
    (by rwa [Nat.zero_mul])
  rw [Nat.zero_mul, Nat.add_zero, Nat.add_zero] at hloop
  unfold binaryToHex
  rw [if_neg (Nat.not_lt.mpr hsize), hloop, hindex, Bytes.put_put]

/-- What the decoder does with a text. -/
theorem binaryFromHex_spec {m : Bytes} {result hex hexSize : Nat}
    (happart : Region.Apart ⟨result, hexSize / 2⟩ ⟨hex, hexSize⟩) :
    binaryFromHex m result hex hexSize =
      if hexSize % 2 ≠ 0 then (.errorInvalidParam, m)
      else if AllDigits (m.read hex hexSize) then
        (.success, m.put result (decodeText (m.read hex hexSize)))
      else (.errorDecodeFailed, m.fill result (hexSize / 2) 0) := by
  unfold binaryFromHex
  dsimp only
  by_cases heven : hexSize % 2 = 0
  · have htwice : hexSize / 2 * 2 = hexSize := by omega
    have hloop := @decodeBytes_spec result hex (hexSize / 2) 0 false m
      (by rwa [Nat.zero_mul, htwice])
    rw [Nat.zero_mul, Nat.add_zero, Nat.add_zero, htwice, Bool.false_or] at hloop
    rw [if_neg (not_not_intro htwice), if_neg (not_not_intro heven), hloop]
    by_cases hall : AllDigits (m.read hex hexSize)
    · rw [if_pos hall, decide_eq_true hall]
      rfl
    · rw [if_neg hall, decide_eq_false hall]
      -- what was written of the text is cleared again
      have hcleared := @Bytes.fill_put m result 0 (hexSize / 2) 0
        (decodeText (m.read hex hexSize))
        (by rw [length_decodeText, Bytes.length_read, Nat.zero_add])
      rw [Nat.add_zero] at hcleared
      show (Result.errorDecodeFailed, (m.put result _).fill result (hexSize / 2) 0) = _
      rw [hcleared]
  · have hodd : hexSize / 2 * 2 ≠ hexSize := by omega
    rw [if_pos hodd, if_pos heven]

/-- Wherever the text lies, nothing but the output is written to. -/
theorem decodeBytes_frame {result hex : Nat} (n i : Nat) (s : Bool × Bytes) {x : Nat}
    (hx : ¬ (Region.mk (result + i) n).Has x) : (decodeBytes result hex n i s).2 x = s.2 x := by
  induction n generalizing i s with
  | zero => rfl
  | succ n ih =>
      simp only [Region.Has, Region.stop_mk] at hx ih
      rw [decodeBytes, ih (i + 1) _ (by omega)]
      exact Bytes.put_apply_of_not (by simp only [List.length_singleton]; omega)

theorem binaryFromHex_frame {m : Bytes} {result hex hexSize x : Nat}
    (hx : ¬ (Region.mk result (hexSize / 2)).Has x) :
    (binaryFromHex m result hex hexSize).2 x = m x := by
  have hloop := @decodeBytes_frame result hex (hexSize / 2) 0 (false, m) x hx
  unfold binaryFromHex
  dsimp only
  split
  · rfl
  · split
    · refine Eq.trans (Bytes.put_apply_of_not fun hin => hx ?_) hloop
      rwa [List.length_replicate] at hin
    · exact hloop

/-! ## There and back -/

/-- The text of some bytes is a string, and is decoded to them. -/
def RoundTrip (m : Bytes) (result bytes size : Nat) : Prop :=
  (binaryToHex m result bytes size).1 = .success ∧
    (binaryToHex m result bytes size).2 (result + size * 2) = 0 ∧
    (∀ c ∈ (binaryToHex m result bytes size).2.read result (size * 2), c ≠ 0) ∧
    ∀ target, Region.Apart ⟨target, size⟩ ⟨result, size * 2⟩ →
      binaryFromHex (binaryToHex m result bytes size).2 target result (size * 2) =
        (.success, (binaryToHex m result bytes size).2.put target (m.read bytes size))

/-- What the decoder takes, what it leaves of what it does not take, and what its bytes are written
as. -/
structure Settles (m : Bytes) (result hex hexSize : Nat) (r : Result × Bytes) : Prop where
  accepts : r.1 = .success ↔ WellFormed (m.read hex hexSize)
  uneven : hexSize % 2 ≠ 0 → r = (.errorInvalidParam, m)
  refuses : hexSize % 2 = 0 → ¬ WellFormed (m.read hex hexSize) →
    r = (.errorDecodeFailed, m.fill result (hexSize / 2) 0)
  /-- The bytes are written as the text in lower case. -/
  lowered : r.1 = .success → hexSize / 2 ≤ maxBinarySize → ∀ back,
    Region.Apart ⟨back, hexSize + 1⟩ ⟨result, hexSize / 2⟩ →
      binaryToHex r.2 back result (hexSize / 2) =
        (.success, r.2.put back ((m.read hex hexSize).map lower ++ [0]))

theorem encodeText_ne_zero {bytes : List UInt8} {c : UInt8} (h : c ∈ encodeText bytes) : c ≠ 0 := by
  have hdigit := (wellFormed_encodeText bytes).2 c h
  rintro rfl
  exact absurd hdigit (by decide)

theorem roundTrip {m : Bytes} {result bytes size : Nat} (hsize : size ≤ maxBinarySize)
    (happart : Region.Apart ⟨result, size * 2 + 1⟩ ⟨bytes, size⟩) :
    RoundTrip m result bytes size := by
  unfold RoundTrip
  have hcount : (encodeText (m.read bytes size)).length = size * 2 := by
    rw [length_encodeText, Bytes.length_read]
  have hwritten := binaryToHex_spec (m := m) hsize
    (happart.within ⟨Nat.le_refl _, by simp⟩ (Region.Within.refl _))
  rw [← Bytes.put_put, hcount] at hwritten
  rw [hwritten]
  generalize hm : m.put result (encodeText (m.read bytes size)) = m'
  have htext : (m'.put (result + size * 2) [0]).read result (size * 2) =
      encodeText (m.read bytes size) := by
    rw [Bytes.read_congr (Bytes.put_agreeOn (Or.inr (Nat.le_refl _))), ← hm, ← hcount,
      Bytes.read_put]
  refine ⟨rfl, ?_, fun c hc => ?_, fun target htarget => ?_⟩
  · show (m'.put (result + size * 2) [0]) (result + size * 2) = 0
    rw [Bytes.put, if_pos ⟨Nat.le_refl _, by simp⟩, Nat.sub_self]
    rfl
  · rw [htext] at hc
    exact encodeText_ne_zero hc
  · have hhalf : size * 2 / 2 = size := by omega
    rw [binaryFromHex_spec (by rwa [hhalf]), if_neg (by omega), htext,
      if_pos (wellFormed_encodeText _).2, decodeText_encodeText]

theorem settles {m : Bytes} {result hex hexSize : Nat}
    (happart : Region.Apart ⟨result, hexSize / 2⟩ ⟨hex, hexSize⟩) :
    Settles m result hex hexSize (binaryFromHex m result hex hexSize) := by
  have hlength := Bytes.length_read m hex hexSize
  rw [binaryFromHex_spec happart]
  by_cases heven : hexSize % 2 = 0
  · rw [if_neg (not_not_intro heven)]
    by_cases hall : AllDigits (m.read hex hexSize)
    · have hwell : WellFormed (m.read hex hexSize) := ⟨by rwa [hlength], hall⟩
      rw [if_pos hall]
      refine ⟨iff_of_true rfl hwell, fun h => absurd heven h, fun _ h => absurd hwell h,
        fun _ hsize back hback => ?_⟩
      have hdecoded : (decodeText (m.read hex hexSize)).length = hexSize / 2 := by
        rw [length_decodeText, hlength]
      have hback' : Region.Apart ⟨back, hexSize / 2 * 2⟩ ⟨result, hexSize / 2⟩ :=
        hback.within ⟨Nat.le_refl _, by simp only [Region.stop_mk]; omega⟩ (Region.Within.refl _)
      have hread := Bytes.read_put m result (decodeText (m.read hex hexSize))
      rw [hdecoded] at hread
      dsimp only
      rw [binaryToHex_spec hsize hback', hread, encodeText_decodeText hwell]
    · have hill : ¬ WellFormed (m.read hex hexSize) := fun h => hall h.2
      rw [if_neg hall]
      exact ⟨iff_of_false nofun hill, fun h => absurd heven h, fun _ _ => rfl, nofun⟩
  · have hill : ¬ WellFormed (m.read hex hexSize) := fun h => heven (hlength ▸ h.1)
    rw [if_pos heven]
    exact ⟨iff_of_false nofun hill, fun _ => rfl, fun h => absurd h heven, nofun⟩

/-- Hex is decoded to what was encoded, and exactly hex is decoded. -/
theorem hex_codec (m : Bytes) :
    (∀ result bytes size, size ≤ maxBinarySize →
      Region.Apart ⟨result, size * 2 + 1⟩ ⟨bytes, size⟩ → RoundTrip m result bytes size) ∧
    ∀ result hex hexSize, Region.Apart ⟨result, hexSize / 2⟩ ⟨hex, hexSize⟩ →
      Settles m result hex hexSize (binaryFromHex m result hex hexSize) :=
  ⟨fun _ _ _ hsize happart => roundTrip hsize happart, fun _ _ _ happart => settles happart⟩

/-- The text "c0DE", and one whose third character is no digit. -/
def sampleHex (third : UInt8) : Bytes :=
  Bytes.put (fun _ => 0) 8 [0x63, 0x30, third, 0x45]

theorem hex_codec_sample :
    let r := binaryFromHex (sampleHex 0x44) 32 8 4
    RoundTrip (sampleHex 0x44) 32 8 4 ∧ r.1 = .success ∧
      (binaryToHex r.2 64 32 2).2.read 64 5 = [0x63, 0x30, 0x64, 0x65, 0] ∧
      binaryFromHex (sampleHex 0x44) 32 8 3 = (.errorInvalidParam, sampleHex 0x44) ∧
      binaryFromHex (sampleHex 0x7A) 32 8 4 =
        (.errorDecodeFailed, (sampleHex 0x7A).fill 32 2 0) := by
  intro r
  have hdigits : WellFormed ((sampleHex 0x44).read 8 4) := ⟨rfl, by decide⟩
  have hother : ¬ WellFormed ((sampleHex 0x7A).read 8 4) := fun h => absurd h.2 (by decide)
  have hsettles := (hex_codec (sampleHex 0x44)).2 32 8 4 (by decide)
  have hok : r.1 = .success := hsettles.accepts.mpr hdigits
  refine ⟨(hex_codec _).1 32 8 4 (by decide) (by decide), hok, ?_,
    ((hex_codec _).2 32 8 3 (by decide)).uneven (by decide),
    ((hex_codec _).2 32 8 4 (by decide)).refuses rfl hother⟩
  have hback : binaryToHex r.2 64 32 2 = _ := hsettles.lowered hok (by decide) 64 (by decide)
  rw [hback]
  exact Bytes.read_put _ _ _

end Arnm.Hex
