import Arnm.Lib.Writes
import Arnm.Result

set_option autoImplicit false

/-! # Base64

`arnm_binary_to_base64`, `base64_decode_into` and their callers in `converter.c`. Text and bytes lie
in one memory, so that the decoder can be given one buffer as both. A group of four characters is a
number of 24 bits, six from each. -/

namespace Arnm.Base64

/-- `BASE64_ALPHABET` -/
def alphabet (i : Nat) : UInt8 :=
  ("ABCDEFGHIJKLMNOPQRSTUVWXYZabcdefghijklmnopqrstuvwxyz0123456789+/".toList.map fun c =>
    UInt8.ofNat c.toNat).getD i 0

/-- `BASE64_NO_VALUE` -/
def noValue : Nat := 255

/-- The entries of `BASE64_VALUE` for ASCII; the others are `BASE64_NO_VALUE`. -/
def values : List Nat :=
  [
    255, 255, 255, 255, 255, 255, 255, 255, 255, 255, 255, 255, 255, 255, 255, 255,
    255, 255, 255, 255, 255, 255, 255, 255, 255, 255, 255, 255, 255, 255, 255, 255,
    255, 255, 255, 255, 255, 255, 255, 255, 255, 255, 255, 62, 255, 255, 255, 63,
    52, 53, 54, 55, 56, 57, 58, 59, 60, 61, 255, 255, 255, 255, 255, 255,
    255, 0, 1, 2, 3, 4, 5, 6, 7, 8, 9, 10, 11, 12, 13, 14,
    15, 16, 17, 18, 19, 20, 21, 22, 23, 24, 25, 255, 255, 255, 255, 255,
    255, 26, 27, 28, 29, 30, 31, 32, 33, 34, 35, 36, 37, 38, 39, 40,
    41, 42, 43, 44, 45, 46, 47, 48, 49, 50, 51, 255, 255, 255, 255, 255]

/-- `BASE64_VALUE` -/
def value (c : UInt8) : Nat := values.getD c.toNat noValue

/-- `'='` -/
def pad : UInt8 := 0x3D

/-- `ARNM_BASE64_MAX_BINARY_SIZE` -/
def maxBinarySize : Nat := (2 ^ 32 - 1 - 1) / 4 * 3

/-- `ARNM_BASE64_STRING_LENGTH`, in 32 bits. -/
def stringLength (size : Nat) : Nat := (size + 2) % 2 ^ 32 / 3 * 4 % 2 ^ 32

/-- `ARNM_BASE64_BINARY_SIZE`, in 32 bits. -/
def binarySize (length : Nat) : Nat := length / 4 * 3 % 2 ^ 32

/-! ## Encoding -/

/-- The four characters of a group. -/
def groupText (group : Nat) : List UInt8 :=
  [alphabet (group >>> 18 &&& 0x3F), alphabet (group >>> 12 &&& 0x3F),
    alphabet (group >>> 6 &&& 0x3F), alphabet (group &&& 0x3F)]

/-- The group of the three bytes at an address. -/
def readBytes (m : Bytes) (addr : Nat) : Nat :=
  (m addr).toNat <<< 16 ||| (m (addr + 1)).toNat <<< 8 ||| (m (addr + 2)).toNat

/-- The loop of `arnm_binary_to_base64` over `n` whole groups, from group `k` on. -/
def encodeGroups (result bytes : Nat) : Nat → Nat → Bytes → Bytes
  | 0, _, m => m
  | n + 1, k, m =>
    encodeGroups result bytes n (k + 1)
      (m.put (result + k * 4) (groupText (readBytes m (bytes + k * 3))))

/-- The characters of the one or two bytes left over. -/
def restText (m : Bytes) (addr rest : Nat) : List UInt8 :=
  let group := (m addr).toNat <<< 16 ||| if 1 < rest then (m (addr + 1)).toNat <<< 8 else 0
  [alphabet (group >>> 18 &&& 0x3F), alphabet (group >>> 12 &&& 0x3F),
    if 1 < rest then alphabet (group >>> 6 &&& 0x3F) else pad, pad]

/-- `arnm_binary_to_base64` -/
def binaryToBase64 (m : Bytes) (result bytes size : Nat) : Result × Bytes :=
  if maxBinarySize < size then (.errorArithmeticOverflow, m)
  else
    let groups := size / 3
    let m := encodeGroups result bytes groups 0 m
    let written := groups * 4 % 2 ^ 32
    let rest := size - groups * 3
    if rest = 0 then (.success, m.put (result + written) [0])
    else
      let m := m.put (result + written) (restText m (bytes + groups * 3) rest)
      let written := (written + 4) % 2 ^ 32
      (.success, m.put (result + written) [0])

/-! ## Decoding -/

/-- `base64_padding` -/
def padding (m : Bytes) (base64 length : Nat) : Nat :=
  if m (base64 + (length - 1)) ≠ pad then 0
  else if m (base64 + (length - 2)) = pad then 2 else 1

/-- The loop of `base64_decode_into` over the `n` characters of a group from the `k`-th on; `none`
for a character that is neither of the alphabet nor padding in its place. -/
def readGroup (m : Bytes) (base64 length i : Nat) : Nat → Nat → Nat → Option Nat
  | 0, _, group => some group
  | n + 1, k, group =>
    let c := m (base64 + (i + k))
    if value c = noValue then
      -- only the last group may be padded, and only in its last two places
      if c = pad ∧ i + 4 = length ∧ 2 ≤ k ∧ (k = 3 ∨ m (base64 + (i + 3)) = pad) then
        readGroup m base64 length i n (k + 1) group
      else none
    else readGroup m base64 length i n (k + 1) (group ||| value c <<< (18 - 6 * k))

/-- A byte of a group is written, if it is one of the bytes announced. -/
def putByte (result binarySize : Nat) (s : Bytes × Nat) (byte : Nat) : Bytes × Nat :=
  if s.2 < binarySize then (s.1.put (result + s.2) [UInt8.ofNat (byte &&& 0xFF)], s.2 + 1) else s

/-- The loop of `base64_decode_into` over `n` groups, from the character `i` and the
byte `out` on. -/
def decodeGroups (result base64 length binarySize : Nat) : Nat → Nat → Bytes × Nat → Result × Bytes
  | 0, _, s => (.success, s.1)
  | n + 1, i, s =>
    match readGroup s.1 base64 length i 4 0 0 with
    | none => (.errorDecodeFailed, s.1.fill result binarySize 0)
    | some group =>
      let s := putByte result binarySize s (group >>> 16)
      let s := putByte result binarySize s (group >>> 8)
      let s := putByte result binarySize s group
      decodeGroups result base64 length binarySize n (i + 4) s

/-- `base64_decode_into` -/
def decodeInto (m : Bytes) (result base64 length binarySize : Nat) : Result × Bytes :=
  decodeGroups result base64 length binarySize ((length + 3) / 4) 0 (m, 0)

/-- `arnm_binary_from_base64` of a string of `length` characters; the answer, `*out_size` and the
memory. -/
def binaryFromBase64 (m : Bytes) (result outSize base64 length : Nat) : Result × Nat × Bytes :=
  if length = 0 then (.success, 0, m)
  else if length % 4 ≠ 0 then (.errorInvalidParam, outSize, m)
  else
    let binarySize := length / 4 * 3 - padding m base64 length
    let r := decodeInto m result base64 length binarySize
    if r.1 ≠ .success then (r.1, outSize, r.2) else (.success, binarySize % 2 ^ 32, r.2)

/-- `arnm_binary_from_base64_insitu` -/
def binaryFromBase64Insitu (m : Bytes) (base64 length outSize : Nat) : Result × Nat × Bytes :=
  if length = 0 then (.success, 0, m)
  else if length % 4 ≠ 0 then (.errorInvalidParam, outSize, m)
  else
    let binarySize := length / 4 * 3 - padding m base64 length
    let r := decodeInto m base64 base64 length binarySize
    if r.1 ≠ .success then (r.1, outSize, r.2) else (.success, binarySize % 2 ^ 32, r.2)

/-- `arnm_base64_binary_size`; the answer and `*out_size`. -/
def base64BinarySize (m : Bytes) (base64 length outSize : Nat) : Result × Nat :=
  if length % 4 ≠ 0 then (.errorDecodeFailed, outSize)
  else if length = 0 then (.success, 0)
  else
    let padding :=
      if m (base64 + (length - 1)) = pad then
        (if m (base64 + (length - 2)) = pad then 2 else 1) else 0
    (.success, (binarySize length + 2 ^ 32 - padding) % 2 ^ 32)

/-! ## What a group stands for -/

/-- A character of the alphabet. -/
def InAlphabet (c : UInt8) : Prop := value c ≠ noValue

instance (c : UInt8) : Decidable (InAlphabet c) := by
  unfold InAlphabet
  infer_instance

/-- The six bits of a character; padding has none. -/
def sextet (c : UInt8) : Nat := if InAlphabet c then value c else 0

/-- The group of four characters, where they are one. -/
def groupOf (last : Prop) [Decidable last] (a b c d : UInt8) : Option Nat :=
  if InAlphabet a ∧ InAlphabet b ∧ (InAlphabet c ∨ c = pad ∧ last ∧ d = pad) ∧
      (InAlphabet d ∨ d = pad ∧ last) then
    some (sextet a * 2 ^ 18 + sextet b * 2 ^ 12 + sextet c * 2 ^ 6 + sextet d)
  else none

/-- The three bytes of a group. -/
def groupBytes (group : Nat) : List UInt8 :=
  [UInt8.ofNat (group >>> 16 &&& 0xFF), UInt8.ofNat (group >>> 8 &&& 0xFF),
    UInt8.ofNat (group &&& 0xFF)]

/-- The tables are each other's inverse. -/
theorem value_alphabet {i : Nat} (h : i < 64) : value (alphabet i) = i := by
  have key : ∀ i < 64, value (alphabet i) = i := by
    decide +kernel
  exact key i h

theorem alphabet_value {c : UInt8} (h : InAlphabet c) : value c < 64 ∧ alphabet (value c) = c := by
  have key : ∀ n < 256, value (UInt8.ofNat n) ≠ noValue →
      value (UInt8.ofNat n) < 64 ∧ alphabet (value (UInt8.ofNat n)) = UInt8.ofNat n := by
    decide +kernel
  have hc := key c.toNat c.toNat_lt
  rw [UInt8.ofNat_toNat] at hc
  exact hc h

theorem inAlphabet_alphabet {i : Nat} (h : i < 64) : InAlphabet (alphabet i) := by
  unfold InAlphabet noValue
  rw [value_alphabet h]
  omega

theorem sextet_alphabet {i : Nat} (h : i < 64) : sextet (alphabet i) = i := by
  rw [sextet, if_pos (inAlphabet_alphabet h), value_alphabet h]

theorem not_inAlphabet_pad : ¬ InAlphabet pad := by decide

theorem sextet_pad : sextet pad = 0 := if_neg not_inAlphabet_pad

theorem sextet_lt (c : UInt8) : sextet c < 64 := by
  unfold sextet
  split
  · rename_i h
    exact (alphabet_value h).1
  · decide

/-- One character of a group is read. -/
theorem readGroup_succ (m : Bytes) (base64 length i n k group : Nat) :
    readGroup m base64 length i (n + 1) k group =
      if InAlphabet (m (base64 + (i + k))) ∨ m (base64 + (i + k)) = pad ∧ i + 4 = length ∧ 2 ≤ k ∧
          (k = 3 ∨ m (base64 + (i + 3)) = pad) then
        readGroup m base64 length i n (k + 1)
          (group ||| sextet (m (base64 + (i + k))) <<< (18 - 6 * k))
      else none := by
  rw [readGroup]
  by_cases hvalue : InAlphabet (m (base64 + (i + k)))
  · rw [if_neg hvalue, if_pos (Or.inl hvalue), sextet, if_pos hvalue]
  · rw [if_pos (not_not.mp hvalue), sextet, if_neg hvalue, Nat.zero_shiftLeft, Nat.or_zero]
    by_cases hpad : m (base64 + (i + k)) = pad ∧ i + 4 = length ∧ 2 ≤ k ∧
        (k = 3 ∨ m (base64 + (i + 3)) = pad)
    · rw [if_pos hpad, if_pos (Or.inr hpad)]
    · rw [if_neg hpad, if_neg (not_or.mpr ⟨hvalue, hpad⟩)]

/-- Bits that lie apart are added. -/
theorem or_digits {a b c d : Nat} (hb : b < 64) (hc : c < 64) (hd : d < 64) :
    0 ||| a <<< 18 ||| b <<< 12 ||| c <<< 6 ||| d <<< 0 =
      a * 2 ^ 18 + b * 2 ^ 12 + c * 2 ^ 6 + d := by
  have h₁ : a <<< 18 ||| b <<< 12 = (a * 2 ^ 6 + b) * 2 ^ 12 := by
    rw [Nat.shiftLeft_eq, Nat.shiftLeft_eq, Nat.mul_comm a,
      ← Nat.two_pow_add_eq_or_of_lt (show b * 2 ^ 12 < 2 ^ 18 by omega)]
    omega
  have h₂ : (a * 2 ^ 6 + b) * 2 ^ 12 ||| c <<< 6 = ((a * 2 ^ 6 + b) * 2 ^ 6 + c) * 2 ^ 6 := by
    rw [Nat.shiftLeft_eq, Nat.mul_comm _ (2 ^ 12),
      ← Nat.two_pow_add_eq_or_of_lt (show c * 2 ^ 6 < 2 ^ 12 by omega)]
    omega
  have h₃ : ((a * 2 ^ 6 + b) * 2 ^ 6 + c) * 2 ^ 6 ||| d <<< 0 =
      ((a * 2 ^ 6 + b) * 2 ^ 6 + c) * 2 ^ 6 + d := by
    rw [Nat.shiftLeft_zero, Nat.mul_comm _ (2 ^ 6),
      ← Nat.two_pow_add_eq_or_of_lt (show d < 2 ^ 6 by omega)]
  rw [Nat.zero_or, h₁, h₂, h₃]
  omega

/-- The loop over the characters of a group reads the group. -/
theorem readGroup_eq (m : Bytes) (base64 length i : Nat) :
    readGroup m base64 length i 4 0 0 =
      groupOf (i + 4 = length) (m (base64 + i)) (m (base64 + (i + 1))) (m (base64 + (i + 2)))
        (m (base64 + (i + 3))) := by
  rw [readGroup_succ, readGroup_succ, readGroup_succ, readGroup_succ, readGroup]
  have hor := or_digits (a := sextet (m (base64 + i))) (sextet_lt (m (base64 + (i + 1))))
    (sextet_lt (m (base64 + (i + 2)))) (sextet_lt (m (base64 + (i + 3))))
  simp only [Nat.zero_add, Nat.add_zero, Nat.mul_zero, Nat.sub_zero, Nat.mul_one, Nat.reduceSub,
    Nat.reduceMul, Nat.reduceAdd, Nat.reduceLeDiff, Nat.reduceEqDiff, false_and,
      and_false, or_false,
    true_and, and_true, true_or, false_or, hor, groupOf]
  simp only [ite_and]

/-! ## What a text stands for -/

/-- The bytes of all groups of a text, where they are groups. -/
def decodeText : List UInt8 → Option (List UInt8)
  | [] => some []
  | a :: b :: c :: d :: rest =>
    (groupOf (rest = []) a b c d).bind fun group =>
      (decodeText rest).map fun bytes => groupBytes group ++ bytes
  | _ => none

/-- Bytes written one by one, as many as were announced. -/
theorem foldl_putByte (result binarySize : Nat) (bytes : List Nat) (m : Bytes) {out : Nat}
    (hout : out ≤ binarySize) :
    bytes.foldl (putByte result binarySize) (m, out) =
      (m.put (result + out)
        ((bytes.map fun byte => UInt8.ofNat (byte &&& 0xFF)).take (binarySize - out)),
        out + min bytes.length (binarySize - out)) := by
  induction bytes generalizing m out with
  | nil => simp
  | cons byte bytes ih =>
      rw [List.foldl_cons, putByte]
      by_cases hlt : out < binarySize
      · rw [if_pos hlt, ih _ (Nat.succ_le_of_lt hlt), List.map_cons,
          show binarySize - out = binarySize - (out + 1) + 1 by omega, List.take_succ_cons]
        have hput := Bytes.put_put m (result + out) [UInt8.ofNat (byte &&& 0xFF)]
          ((bytes.map fun byte => UInt8.ofNat (byte &&& 0xFF)).take (binarySize - (out + 1)))
        rw [List.length_singleton, List.singleton_append, Nat.add_assoc] at hput
        rw [hput, List.length_cons]
        congr 1
        omega
      · have hz : binarySize - out = 0 := by omega
        rw [if_neg hlt, ih m hout, hz]
        simp

/-- The output lies apart from the text, or is the text itself, written no further than it was
read. -/
def Clear (result base64 length binarySize out i : Nat) : Prop :=
  Region.Apart ⟨result, binarySize⟩ ⟨base64, length⟩ ∨ result = base64 ∧ out ≤ i

/-- The groups of a text are decoded one after the other; the rest of the text is never written to
before it is read. -/
theorem decodeGroups_spec {result base64 length binarySize : Nat} (n : Nat)
    {i out : Nat} (m : Bytes)
    (hlength : i + 4 * n = length) (hout : out ≤ binarySize)
    (hclear : Clear result base64 length binarySize out i) :
    decodeGroups result base64 length binarySize n i (m, out) =
      match decodeText (m.read (base64 + i) (4 * n)) with
      | none => (.errorDecodeFailed, m.fill result binarySize 0)
      | some bytes => (.success, m.put (result + out) (bytes.take (binarySize - out))) := by
  induction n generalizing i out m with
  | zero =>
      show (Result.success, m) = (.success, m.put (result + out) (List.take _ []))
      rw [List.take_nil, Bytes.put_nil]
  | succ n ih =>
      have hread : m.read (base64 + i) (4 * (n + 1)) =
          m (base64 + i) :: m (base64 + (i + 1)) :: m (base64 + (i + 2)) :: m (base64 + (i + 3)) ::
            m.read (base64 + (i + 4)) (4 * n) := by
        rw [Nat.mul_succ, Bytes.read_succ, Bytes.read_succ, Bytes.read_succ, Bytes.read_succ]
        rfl
      have hlast : (i + 4 = length) = (m.read (base64 + (i + 4)) (4 * n) = []) := by
        rw [← List.length_eq_zero_iff, Bytes.length_read, eq_iff_iff]
        omega
      rw [decodeGroups, readGroup_eq, hread, decodeText]
      dsimp only
      simp only [hlast]
      cases hgroup : groupOf (m.read (base64 + (i + 4)) (4 * n) = []) (m (base64 + i))
        (m (base64 + (i + 1))) (m (base64 + (i + 2))) (m (base64 + (i + 3))) with
      | none => rfl
      | some group =>
          dsimp only [Option.bind_some]
          have hthree := foldl_putByte result binarySize [group >>> 16, group >>> 8, group] m hout
          rw [List.foldl_cons, List.foldl_cons, List.foldl_cons, List.foldl_nil] at hthree
          have hpart : ((groupBytes group).take (binarySize - out)).length =
              min 3 (binarySize - out) := by
            rw [List.length_take, Nat.min_comm]
            rfl
          generalize hpart' : (groupBytes group).take (binarySize - out) = part at hpart
          rw [show [group >>> 16, group >>> 8, group].map
            (fun byte => UInt8.ofNat (byte &&& 0xFF)) = groupBytes group from rfl, hpart',
            show [group >>> 16, group >>> 8, group].length = 3 from rfl] at hthree
          -- the characters still to be read are not among the bytes just written
          have happart : Region.Apart ⟨result + out, part.length⟩ ⟨base64 + (i + 4), 4 * n⟩ := by
            rcases hclear with hapart | ⟨rfl, hle⟩
            · refine hapart.within ⟨Nat.le_add_right _ _, ?_⟩ ⟨Nat.le_add_right _ _, ?_⟩
              · simp only [Region.stop_mk]
                omega
              · simp only [Region.stop_mk]
                omega
            · refine Or.inl ?_
              simp only [Region.stop_mk]
              omega
          have hclear' : Clear result base64 length binarySize (out + min 3 (binarySize - out))
              (i + 4) := hclear.imp_right fun hsame => ⟨hsame.1, by omega⟩
          rw [hthree, ih _ (by omega) (by omega) hclear',
            Bytes.read_congr (Bytes.put_agreeOn happart)]
          cases decodeText (m.read (base64 + (i + 4)) (4 * n)) with
          | none =>
              dsimp only [Option.map_none]
              rw [Bytes.fill_put (by omega)]
          | some bytes =>
              dsimp only [Option.map_some]
              rw [← hpart, ← Nat.add_assoc, Bytes.put_put, List.take_append, hpart']
              congr 3
              rw [hpart, show (groupBytes group).length = 3 from rfl]
              congr 1
              omega

/-- `base64_decode_into` over a text of whole groups. -/
theorem decodeInto_spec {m : Bytes} {result base64 length binarySize : Nat}
    (hlength : length % 4 = 0)
    (hclear : Region.Apart ⟨result, binarySize⟩ ⟨base64, length⟩ ∨ result = base64) :
    decodeInto m result base64 length binarySize =
      match decodeText (m.read base64 length) with
      | none => (.errorDecodeFailed, m.fill result binarySize 0)
      | some bytes => (.success, m.put result (bytes.take binarySize)) := by
  have hgroups : 4 * ((length + 3) / 4) = length := by omega
  have hspec := decodeGroups_spec ((length + 3) / 4) m
    (show 0 + 4 * ((length + 3) / 4) = length by omega) (Nat.zero_le binarySize)
    (hclear.imp_right fun hsame => ⟨hsame, Nat.le_refl 0⟩)
  rw [hgroups] at hspec
  exact hspec

/-! ## Texts that can be decoded -/

/-- Characters of the alphabet with at most two characters of padding behind them. -/
def Padded (text : List UInt8) : Prop :=
  ∃ body n, n ≤ 2 ∧ text = body ++ List.replicate n pad ∧ ∀ c ∈ body, InAlphabet c

/-- Whole groups, with all padding at the very end. -/
def WellFormed (text : List UInt8) : Prop := text.length % 4 = 0 ∧ Padded text

/-- How many characters of padding a text ends with, as the last two are looked at. -/
def paddingOf (text : List UInt8) : Nat :=
  if text.getD (text.length - 1) 0 ≠ pad then 0
  else if text.getD (text.length - 2) 0 = pad then 2 else 1

theorem getD_read (m : Bytes) (addr n : Nat) {k : Nat} (h : k < n) :
    (m.read addr n).getD k 0 = m (addr + k) := by
  rw [← List.getElem_eq_getD (h := by rwa [Bytes.length_read]), Bytes.read_getElem]

theorem padding_eq (m : Bytes) (base64 : Nat) {length : Nat} (h : 2 ≤ length) :
    padding m base64 length = paddingOf (m.read base64 length) := by
  unfold padding paddingOf
  rw [Bytes.length_read, getD_read _ _ _ (by omega), getD_read _ _ _ (by omega)]

/-- The number of bytes a text announces. -/
def announced (text : List UInt8) : Nat := text.length / 4 * 3 - paddingOf text

end Arnm.Base64
