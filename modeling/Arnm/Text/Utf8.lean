import Arnm.Lib.Pointers

set_option autoImplicit false

/-! # The length of valid UTF-8

`utf8.c`: the length of the longest prefix of a text that is well-formed UTF-8. The lead byte says
how many bytes follow and which ones may come first; runs of ASCII are skipped eight bytes at a
time. What is well formed is said by the encodings of characters, which are the Unicode scalar
values. -/

namespace Arnm.Utf8

/-- What a lead byte asks for: how many continuation bytes, and the range of the first. -/
structure Lead where
  continuations : Nat
  firstLow : UInt8
  firstHigh : UInt8
  deriving DecidableEq, Repr

/-- The classification of lead bytes above ASCII in `arnm_utf8_valid_length`. -/
def classify (lead : UInt8) : Option Lead :=
  if 0xC2 ≤ lead ∧ lead ≤ 0xDF then some ⟨1, 0x80, 0xBF⟩
  else if lead = 0xE0 then some ⟨2, 0xA0, 0xBF⟩
  else if lead = 0xED then some ⟨2, 0x80, 0x9F⟩
  else if (0xE1 ≤ lead ∧ lead ≤ 0xEC) ∨ lead = 0xEE ∨ lead = 0xEF then some ⟨2, 0x80, 0xBF⟩
  else if lead = 0xF0 then some ⟨3, 0x90, 0xBF⟩
  else if 0xF1 ≤ lead ∧ lead ≤ 0xF3 then some ⟨3, 0x80, 0xBF⟩
  else if lead = 0xF4 then some ⟨3, 0x80, 0x8F⟩
  -- a stray continuation, an overlong form, or past the end of Unicode
  else none

/-- The bytes behind a lead byte are those it asks for. -/
def continues (lead : Lead) (rest : List UInt8) : Bool :=
  match rest with
  | [] => false
  | first :: rest =>
    decide (lead.continuations ≤ rest.length + 1) &&
      (decide (lead.firstLow ≤ first ∧ first ≤ lead.firstHigh) &&
        (rest.take (lead.continuations - 1)).all fun b => b &&& 0xC0 == 0x80)

/-- The ASCII loop in machine words: what is left, and the index of it. -/
def asciiWords : Nat → List UInt8 → Nat → List UInt8 × Nat
  | 0, rest, index => (rest, index)
  | fuel + 1, rest, index =>
    if 8 ≤ rest.length then
      if Bytes.number (rest.take 8) &&& 0x8080808080808080 ≠ 0 then (rest, index)
      else asciiWords fuel (rest.drop 8) (index + 8)
    else (rest, index)

/-- The ASCII loop in bytes. -/
def asciiBytes : List UInt8 → Nat → List UInt8 × Nat
  | [], index => ([], index)
  | b :: rest, index => if b < 0x80 then asciiBytes rest (index + 1) else (b :: rest, index)

/-- The loop of `arnm_utf8_valid_length` at an index, the rest of the text in hand. -/
def validFrom : Nat → List UInt8 → Nat → Nat
  | 0, _, index => index
  | _ + 1, [], index => index
  | fuel + 1, lead :: rest, index =>
    if lead < 0x80 then
      let words := asciiWords (rest.length + 1) (lead :: rest) index
      let run := asciiBytes words.1 words.2
      validFrom fuel run.1 run.2
    else
      match classify lead with
      | none => index
      | some asks =>
        if continues asks rest then
          validFrom fuel (rest.drop asks.continuations) (index + (asks.continuations + 1))
        else index

/-- `arnm_utf8_valid_length` -/
def validLength (text : List UInt8) : Nat := validFrom text.length text 0

/-- The same loop without the ASCII loops: one sequence a turn. -/
def validBytewiseFrom : Nat → List UInt8 → Nat → Nat
  | 0, _, index => index
  | _ + 1, [], index => index
  | fuel + 1, lead :: rest, index =>
    if lead < 0x80 then validBytewiseFrom fuel rest (index + 1)
    else
      match classify lead with
      | none => index
      | some asks =>
        if continues asks rest then
          validBytewiseFrom fuel (rest.drop asks.continuations) (index + (asks.continuations + 1))
        else index

/-- The length of the sequence a text begins with, where it is a valid one. -/
def sequence (text : List UInt8) : Option Nat :=
  match text with
  | [] => none
  | lead :: rest =>
    if lead < 0x80 then some 1
    else
      match classify lead with
      | none => none
      | some asks => if continues asks rest then some (asks.continuations + 1) else none

/-- The encoding of a list of scalar values. -/
def encode (characters : List Char) : List UInt8 := characters.flatMap String.utf8EncodeChar

@[simp] theorem encode_nil : encode [] = [] := rfl

@[simp] theorem encode_cons (c : Char) (characters : List Char) :
    encode (c :: characters) = String.utf8EncodeChar c ++ encode characters := List.flatMap_cons

/-! ## Sequences and characters -/

theorem toNat_val_ofNat {v : Nat} (h : v.isValidChar) : (Char.ofNat v).val.toNat = v := by
  rw [Char.ofNat, dif_pos h]
  show (UInt32.ofNatLT v _).toNat = v
  rfl

theorem classify_toNat (lead : UInt8) :
    classify lead =
      if 0xC2 ≤ lead.toNat ∧ lead.toNat ≤ 0xDF then some ⟨1, 0x80, 0xBF⟩
      else if lead.toNat = 0xE0 then some ⟨2, 0xA0, 0xBF⟩
      else if lead.toNat = 0xED then some ⟨2, 0x80, 0x9F⟩
      else if (0xE1 ≤ lead.toNat ∧ lead.toNat ≤ 0xEC) ∨ lead.toNat = 0xEE ∨ lead.toNat = 0xEF then
        some ⟨2, 0x80, 0xBF⟩
      else if lead.toNat = 0xF0 then some ⟨3, 0x90, 0xBF⟩
      else if 0xF1 ≤ lead.toNat ∧ lead.toNat ≤ 0xF3 then some ⟨3, 0x80, 0xBF⟩
      else if lead.toNat = 0xF4 then some ⟨3, 0x80, 0x8F⟩
      else none := by
  unfold classify
  simp only [UInt8.le_iff_toNat_le, ← UInt8.toNat_inj, UInt8.reduceToNat]

/-- The mask of a continuation byte. -/
theorem and_C0_iff (b : UInt8) : (b &&& 0xC0 == 0x80) = true ↔ 0x80 ≤ b.toNat ∧ b.toNat ≤ 0xBF := by
  have key : ∀ n < 256, ((UInt8.ofNat n &&& 0xC0 == 0x80) = true ↔ 0x80 ≤ n ∧ n ≤ 0xBF) := by
    decide +kernel
  have hb := key b.toNat b.toNat_lt
  rwa [UInt8.ofNat_toNat] at hb

/-- The bytes of a character by the bounds of its value. -/
theorem utf8EncodeChar_ofNat {v : Nat} (h : v.isValidChar) :
    String.utf8EncodeChar (Char.ofNat v) =
      if v ≤ 0x7F then [UInt8.ofNat v]
      else if v ≤ 0x7FF then [UInt8.ofNat (v / 64 % 32 + 0xC0), UInt8.ofNat (v % 64 + 0x80)]
      else if v ≤ 0xFFFF then
        [UInt8.ofNat (v / 4096 % 16 + 0xE0), UInt8.ofNat (v / 64 % 64 + 0x80),
          UInt8.ofNat (v % 64 + 0x80)]
      else
        [UInt8.ofNat (v / 262144 % 8 + 0xF0), UInt8.ofNat (v / 4096 % 64 + 0x80),
          UInt8.ofNat (v / 64 % 64 + 0x80), UInt8.ofNat (v % 64 + 0x80)] := by
  unfold String.utf8EncodeChar
  rw [toNat_val_ofNat h]

theorem ofNat_eq {b : UInt8} {n : Nat} (h : n = b.toNat) : UInt8.ofNat n = b := by
  rw [h, UInt8.ofNat_toNat]

/-! ### The lead bytes by the lengths they ask for -/

theorem classify_two {lead : UInt8} (hlo : 0xC2 ≤ lead.toNat) (hhi : lead.toNat ≤ 0xDF) :
    classify lead = some ⟨1, 0x80, 0xBF⟩ := by
  rw [classify_toNat, if_pos ⟨hlo, hhi⟩]

theorem classify_three {lead : UInt8} (hlo : 0xE0 ≤ lead.toNat) (hhi : lead.toNat ≤ 0xEF) :
    classify lead = some ⟨2, if lead.toNat = 0xE0 then 0xA0 else 0x80,
      if lead.toNat = 0xED then 0x9F else 0xBF⟩ := by
  rw [classify_toNat, if_neg (by omega)]
  by_cases hE0 : lead.toNat = 0xE0
  · rw [if_pos hE0, if_pos hE0, if_neg (by omega)]
  by_cases hED : lead.toNat = 0xED
  · rw [if_neg hE0, if_pos hED, if_neg hE0, if_pos hED]
  · rw [if_neg hE0, if_neg hED, if_pos (by omega), if_neg hE0, if_neg hED]

theorem classify_four {lead : UInt8} (hlo : 0xF0 ≤ lead.toNat) (hhi : lead.toNat ≤ 0xF4) :
    classify lead = some ⟨3, if lead.toNat = 0xF0 then 0x90 else 0x80,
      if lead.toNat = 0xF4 then 0x8F else 0xBF⟩ := by
  rw [classify_toNat, if_neg (by omega), if_neg (by omega), if_neg (by omega), if_neg (by omega)]
  by_cases hF0 : lead.toNat = 0xF0
  · rw [if_pos hF0, if_pos hF0, if_neg (by omega)]
  by_cases hF4 : lead.toNat = 0xF4
  · rw [if_neg hF0, if_neg (by omega), if_pos hF4, if_neg hF0, if_pos hF4]
  · rw [if_neg hF0, if_pos (by omega), if_neg hF0, if_neg hF4]

/-- Every other byte above ASCII leads nothing. -/
theorem classify_some {lead : UInt8} {asks : Lead} (h : classify lead = some asks) :
    (0xC2 ≤ lead.toNat ∧ lead.toNat ≤ 0xDF) ∨ (0xE0 ≤ lead.toNat ∧ lead.toNat ≤ 0xEF) ∨
      (0xF0 ≤ lead.toNat ∧ lead.toNat ≤ 0xF4) := by
  rw [classify_toNat] at h
  by_contra hnone
  simp only [not_or, not_and, not_le] at hnone
  rw [if_neg (by omega), if_neg (by omega), if_neg (by omega), if_neg (by omega),
    if_neg (by omega), if_neg (by omega), if_neg (by omega)] at h
  cases h

theorem continues_one {low high : UInt8} {rest : List UInt8} :
    continues ⟨1, low, high⟩ rest = true ↔ ∃ x more, rest = x :: more ∧
      low.toNat ≤ x.toNat ∧ x.toNat ≤ high.toNat := by
  cases rest with
  | nil => simp [continues]
  | cons x more =>
      simp [continues, UInt8.le_iff_toNat_le]

theorem continues_two {low high : UInt8} {rest : List UInt8} :
    continues ⟨2, low, high⟩ rest = true ↔ ∃ x y more, rest = x :: y :: more ∧
      (low.toNat ≤ x.toNat ∧ x.toNat ≤ high.toNat) ∧ 0x80 ≤ y.toNat ∧ y.toNat ≤ 0xBF := by
  rcases rest with _ | ⟨x, _ | ⟨y, more⟩⟩
  · simp [continues]
  · simp [continues]
  · simp [continues, UInt8.le_iff_toNat_le, ← and_C0_iff]

theorem continues_three {low high : UInt8} {rest : List UInt8} :
    continues ⟨3, low, high⟩ rest = true ↔ ∃ x y z more, rest = x :: y :: z :: more ∧
      (low.toNat ≤ x.toNat ∧ x.toNat ≤ high.toNat) ∧ (0x80 ≤ y.toNat ∧ y.toNat ≤ 0xBF) ∧
      0x80 ≤ z.toNat ∧ z.toNat ≤ 0xBF := by
  rcases rest with _ | ⟨x, _ | ⟨y, _ | ⟨z, more⟩⟩⟩
  · simp [continues]
  · simp [continues]
  · simp [continues]
  · simp [continues, UInt8.le_iff_toNat_le, ← and_C0_iff, and_assoc]

/-! ### The characters behind the bytes -/

theorem exists_char_two {a x : UInt8} (ha : 0xC2 ≤ a.toNat ∧ a.toNat ≤ 0xDF)
    (hx : 0x80 ≤ x.toNat ∧ x.toNat ≤ 0xBF) : ∃ c, String.utf8EncodeChar c = [a, x] := by
  have hvalid : ((a.toNat - 0xC0) * 64 + (x.toNat - 0x80)).isValidChar := Or.inl (by omega)
  refine ⟨Char.ofNat ((a.toNat - 0xC0) * 64 + (x.toNat - 0x80)), ?_⟩
  rw [utf8EncodeChar_ofNat hvalid, if_neg (by omega), if_pos (by omega),
    ofNat_eq (b := a) (by omega),
    ofNat_eq (b := x) (by omega)]

/-- No overlong form and no surrogate: the lowest lead byte has a floor, `0xED` a ceiling. -/
theorem exists_char_three {a x y : UInt8} (ha : 0xE0 ≤ a.toNat ∧ a.toNat ≤ 0xEF)
    (hx : 0x80 ≤ x.toNat ∧ x.toNat ≤ 0xBF) (hy : 0x80 ≤ y.toNat ∧ y.toNat ≤ 0xBF)
    (hfloor : a.toNat = 0xE0 → 0xA0 ≤ x.toNat) (hceiling : a.toNat = 0xED → x.toNat ≤ 0x9F) :
    ∃ c, String.utf8EncodeChar c = [a, x, y] := by
  have hvalid :
      ((a.toNat - 0xE0) * 4096 + (x.toNat - 0x80) * 64 + (y.toNat - 0x80)).isValidChar := by
    by_cases hlow : a.toNat < 0xED
    · exact Or.inl (by omega)
    by_cases hED : a.toNat = 0xED
    · have hc := hceiling hED
      exact Or.inl (by omega)
    · exact Or.inr (by omega)
  refine ⟨Char.ofNat ((a.toNat - 0xE0) * 4096 + (x.toNat - 0x80) * 64 + (y.toNat - 0x80)), ?_⟩
  rw [utf8EncodeChar_ofNat hvalid, if_neg (by omega), if_neg (by omega), if_pos (by omega),
    ofNat_eq (b := a) (by omega), ofNat_eq (b := x) (by omega), ofNat_eq (b := y) (by omega)]

/-- Nothing past the end of Unicode: the highest lead byte has a ceiling too. -/
theorem exists_char_four {a x y z : UInt8} (ha : 0xF0 ≤ a.toNat ∧ a.toNat ≤ 0xF4)
    (hx : 0x80 ≤ x.toNat ∧ x.toNat ≤ 0xBF) (hy : 0x80 ≤ y.toNat ∧ y.toNat ≤ 0xBF)
    (hz : 0x80 ≤ z.toNat ∧ z.toNat ≤ 0xBF) (hfloor : a.toNat = 0xF0 → 0x90 ≤ x.toNat)
    (hceiling : a.toNat = 0xF4 → x.toNat ≤ 0x8F) :
    ∃ c, String.utf8EncodeChar c = [a, x, y, z] := by
  have hvalid : ((a.toNat - 0xF0) * 262144 + (x.toNat - 0x80) * 4096 + (y.toNat - 0x80) * 64 +
      (z.toNat - 0x80)).isValidChar := Or.inr (by omega)
  refine ⟨Char.ofNat ((a.toNat - 0xF0) * 262144 + (x.toNat - 0x80) * 4096 + (y.toNat - 0x80) * 64 +
    (z.toNat - 0x80)), ?_⟩
  rw [utf8EncodeChar_ofNat hvalid, if_neg (by omega), if_neg (by omega), if_neg (by omega),
    ofNat_eq (b := a) (by omega), ofNat_eq (b := x) (by omega), ofNat_eq (b := y) (by omega),
    ofNat_eq (b := z) (by omega)]

/-- A valid sequence is the encoding of a character. -/
theorem exists_char_of_sequence {text : List UInt8} {n : Nat} (h : sequence text = some n) :
    ∃ c rest, text = String.utf8EncodeChar c ++ rest ∧ n = (String.utf8EncodeChar c).length := by
  cases text with
  | nil => cases h
  | cons lead rest =>
      unfold sequence at h
      dsimp only at h
      have hlead := lead.toNat_lt
      by_cases hascii : lead < 0x80
      · rw [if_pos hascii, Option.some.injEq] at h
        rw [UInt8.lt_iff_toNat_lt] at hascii
        have hvalid : lead.toNat.isValidChar := Or.inl (by omega)
        refine ⟨Char.ofNat lead.toNat, rest, ?_, ?_⟩
        · rw [utf8EncodeChar_ofNat hvalid, if_pos (Nat.le_of_lt_succ hascii), UInt8.ofNat_toNat]
          rfl
        · rw [utf8EncodeChar_ofNat hvalid, if_pos (Nat.le_of_lt_succ hascii), ← h]
          rfl
      rw [if_neg hascii] at h
      cases hclass : classify lead with
      | none =>
          rw [hclass] at h
          cases h
      | some asks =>
          rw [hclass] at h
          dsimp only at h
          split at h
          · rename_i hcont
            cases h
            -- by the number of bytes the lead asks for
            rcases classify_some hclass with hrange | hrange | hrange
            · cases hclass.symm.trans (classify_two hrange.1 hrange.2)
              obtain ⟨x, more, rfl, hx⟩ := continues_one.mp hcont
              obtain ⟨c, hc⟩ := exists_char_two hrange hx
              exact ⟨c, more, by rw [hc]; rfl, by rw [hc]; rfl⟩
            · cases hclass.symm.trans (classify_three hrange.1 hrange.2)
              obtain ⟨x, y, more, rfl, hx, hy⟩ := continues_two.mp hcont
              rw [apply_ite UInt8.toNat, apply_ite UInt8.toNat] at hx
              simp only [UInt8.reduceToNat] at hx
              obtain ⟨c, hc⟩ := exists_char_three (x := x) hrange (by split_ifs at hx <;> omega) hy
                (fun hlow => by rw [if_pos hlow] at hx; exact hx.1)
                (fun hhigh => by rw [if_pos hhigh] at hx; exact hx.2)
              exact ⟨c, more, by rw [hc]; rfl, by rw [hc]; rfl⟩
            · cases hclass.symm.trans (classify_four hrange.1 hrange.2)
              obtain ⟨x, y, z, more, rfl, hx, hy, hz⟩ := continues_three.mp hcont
              rw [apply_ite UInt8.toNat, apply_ite UInt8.toNat] at hx
              simp only [UInt8.reduceToNat] at hx
              obtain ⟨c, hc⟩ :=
                exists_char_four (x := x) hrange (by split_ifs at hx <;> omega) hy hz
                (fun hlow => by rw [if_pos hlow] at hx; exact hx.1)
                (fun hhigh => by rw [if_pos hhigh] at hx; exact hx.2)
              exact ⟨c, more, by rw [hc]; rfl, by rw [hc]; rfl⟩
          · cases h

theorem toNat_ofNat_of_lt {n : Nat} (h : n < 256) : (UInt8.ofNat n).toNat = n := by
  rw [UInt8.toNat_ofNat']
  exact Nat.mod_eq_of_lt h

theorem not_ascii {lead : UInt8} (h : 0x80 ≤ lead.toNat) : ¬ lead < 0x80 := by
  rw [UInt8.lt_iff_toNat_lt]
  exact Nat.not_lt.mpr h

theorem sequence_of_continues {lead : UInt8} {rest : List UInt8} {asks : Lead}
    (hascii : ¬ lead < 0x80) (hclass : classify lead = some asks)
    (hcont : continues asks rest = true) :
    sequence (lead :: rest) = some (asks.continuations + 1) := by
  unfold sequence
  dsimp only
  rw [if_neg hascii, hclass]
  exact if_pos hcont

/-- A text that begins with a character begins with a valid sequence of its length. -/
theorem sequence_encode (c : Char) (rest : List UInt8) :
    sequence (String.utf8EncodeChar c ++ rest) = some (String.utf8EncodeChar c).length := by
  have hvalid : c.val.toNat.isValidChar := c.valid
  generalize hv : c.val.toNat = v at hvalid
  have hc : Char.ofNat v = c := by
    rw [← hv]
    exact Char.ofNat_toNat c
  rw [← hc, utf8EncodeChar_ofNat hvalid]
  have hbound : v < 0x110000 := by
    rcases hvalid with h | h <;> omega
  split_ifs with hone htwo hthree
  · have hascii : UInt8.ofNat v < 0x80 := by
      rw [UInt8.lt_iff_toNat_lt, toNat_ofNat_of_lt (by omega)]
      exact Nat.lt_succ_of_le hone
    exact if_pos hascii
  · have hlead := toNat_ofNat_of_lt (n := v / 64 % 32 + 0xC0) (by omega)
    have hx := toNat_ofNat_of_lt (n := v % 64 + 0x80) (by omega)
    refine sequence_of_continues (not_ascii (by omega)) (classify_two (by omega) (by omega))
      (continues_one.mpr ⟨_, rest, rfl, ?_⟩)
    rw [hx]
    simp only [UInt8.reduceToNat]
    omega
  · have hlead := toNat_ofNat_of_lt (n := v / 4096 % 16 + 0xE0) (by omega)
    have hx := toNat_ofNat_of_lt (n := v / 64 % 64 + 0x80) (by omega)
    have hy := toNat_ofNat_of_lt (n := v % 64 + 0x80) (by omega)
    refine sequence_of_continues (not_ascii (by omega)) (classify_three (by omega) (by omega))
      (continues_two.mpr ⟨_, _, rest, rfl, ?_, by omega, by omega⟩)
    rw [hlead, hx, apply_ite UInt8.toNat, apply_ite UInt8.toNat]
    simp only [UInt8.reduceToNat]
    -- the values below 0x800 and the surrogates are no three bytes
    rcases hvalid with hlow | hhigh
    · split_ifs <;> omega
    · split_ifs <;> omega
  · have hlead := toNat_ofNat_of_lt (n := v / 262144 % 8 + 0xF0) (by omega)
    have hx := toNat_ofNat_of_lt (n := v / 4096 % 64 + 0x80) (by omega)
    have hy := toNat_ofNat_of_lt (n := v / 64 % 64 + 0x80) (by omega)
    have hz := toNat_ofNat_of_lt (n := v % 64 + 0x80) (by omega)
    refine sequence_of_continues (not_ascii (by omega)) (classify_four (by omega) (by omega))
      (continues_three.mpr ⟨_, _, _, rest, rfl, ?_, ⟨by omega, by omega⟩, by omega, by omega⟩)
    rw [hlead, hx, apply_ite UInt8.toNat, apply_ite UInt8.toNat]
    simp only [UInt8.reduceToNat]
    split_ifs <;> omega

/-! ## The loops -/

/-- A turn of the plain loop takes one valid sequence, or ends. -/
theorem validBytewiseFrom_succ (fuel : Nat) (text : List UInt8) (index : Nat) :
    validBytewiseFrom (fuel + 1) text index =
      match sequence text with
      | none => index
      | some n => validBytewiseFrom fuel (text.drop n) (index + n) := by
  cases text with
  | nil => rfl
  | cons lead rest =>
      rw [validBytewiseFrom, sequence]
      by_cases hascii : lead < 0x80
      · rw [if_pos hascii, if_pos hascii]
        rfl
      rw [if_neg hascii, if_neg hascii]
      cases classify lead with
      | none => rfl
      | some asks =>
          dsimp only
          split <;> rfl

theorem sequence_pos {text : List UInt8} {n : Nat} (h : sequence text = some n) :
    0 < n ∧ n ≤ text.length := by
  obtain ⟨c, rest, rfl, rfl⟩ := exists_char_of_sequence h
  rw [List.length_append, String.length_utf8EncodeChar]
  exact ⟨c.utf8Size_pos, Nat.le_add_right _ _⟩

/-- From an index the plain loop goes over the longest prefix that is a list of characters. -/
theorem validBytewiseFrom_spec {fuel : Nat} {text : List UInt8} (index : Nat)
    (hfuel : text.length ≤ fuel) :
    ∃ characters rest, text = encode characters ++ rest ∧ sequence rest = none ∧
      validBytewiseFrom fuel text index = index + (encode characters).length := by
  induction fuel generalizing text index with
  | zero =>
      have hnil := List.length_eq_zero_iff.mp (Nat.le_zero.mp hfuel)
      subst hnil
      exact ⟨[], [], rfl, rfl, rfl⟩
  | succ fuel ih =>
      rw [validBytewiseFrom_succ]
      cases hseq : sequence text with
      | none => exact ⟨[], text, rfl, hseq, rfl⟩
      | some n =>
          obtain ⟨hpos, hle⟩ := sequence_pos hseq
          obtain ⟨c, more, rfl, rfl⟩ := exists_char_of_sequence hseq
          dsimp only
          rw [List.drop_left]
          obtain ⟨characters, rest, rfl, hnone, hindex⟩ :=
            ih (index + (String.utf8EncodeChar c).length) (show more.length ≤ fuel by
              rw [List.length_append] at hfuel
              omega)
          refine ⟨c :: characters, rest, ?_, hnone, ?_⟩
          · rw [encode_cons, List.append_assoc]
          · rw [hindex, encode_cons, List.length_append, Nat.add_assoc]

/-- The encoding of characters has no longer one that begins with it than the loop finds. -/
theorem encode_prefix {characters more : List Char} {rest tail : List UInt8}
    (hnone : sequence rest = none) (h : encode characters ++ rest = encode more ++ tail) :
    (encode more).length ≤ (encode characters).length := by
  induction more generalizing characters with
  | nil => exact Nat.zero_le _
  | cons c more ih =>
      rw [encode_cons, List.append_assoc] at h
      have hseq := sequence_encode c (encode more ++ tail)
      rw [← h] at hseq
      cases characters with
      | nil =>
          rw [encode_nil, List.nil_append, hnone] at hseq
          cases hseq
      | cons d characters =>
          rw [encode_cons, List.append_assoc] at h hseq
          -- both texts begin with the same character
          rw [sequence_encode] at hseq
          have hlength := Option.some.inj hseq
          obtain ⟨hsame, hrest⟩ := List.append_inj h hlength
          have hmore := ih hrest
          rw [encode_cons, encode_cons, List.length_append, List.length_append, hlength]
          exact Nat.add_le_add_left hmore _

/-- The plain loop needs no more turns than the text has bytes. -/
theorem validBytewiseFrom_fuel {fuel fuel' : Nat} {text : List UInt8} (index : Nat)
    (hfuel : text.length ≤ fuel) (hfuel' : text.length ≤ fuel') :
    validBytewiseFrom fuel text index = validBytewiseFrom fuel' text index := by
  induction fuel generalizing fuel' text index with
  | zero =>
      rw [List.length_eq_zero_iff.mp (Nat.le_zero.mp hfuel)]
      cases fuel' <;> rfl
  | succ fuel ih =>
      cases fuel' with
      | zero =>
          rw [List.length_eq_zero_iff.mp (Nat.le_zero.mp hfuel')]
          rfl
      | succ fuel' =>
          rw [validBytewiseFrom_succ, validBytewiseFrom_succ]
          cases hseq : sequence text with
          | none => rfl
          | some n =>
              obtain ⟨hpos, -⟩ := sequence_pos hseq
              refine ih (index + n) ?_ ?_
              · rw [List.length_drop]
                omega
              · rw [List.length_drop]
                omega

/-! ### The ASCII loops -/

/-- The bits of a byte and of those above it. -/
theorem and_split (b x m y : Nat) (hb : b < 256) (hm : m < 256) :
    (b + 256 * x) &&& (m + 256 * y) = (b &&& m) + 256 * (x &&& y) := by
  have hlow : ((b + 256 * x) &&& (m + 256 * y)) % 2 ^ 8 = b &&& m := by
    rw [Nat.and_mod_two_pow]
    congr 1 <;> omega
  have hhigh : ((b + 256 * x) &&& (m + 256 * y)) / 2 ^ 8 = x &&& y := by
    rw [Nat.and_div_two_pow]
    congr 1 <;> omega
  have hwhole := Nat.mod_add_div ((b + 256 * x) &&& (m + 256 * y)) (2 ^ 8)
  rw [hlow, hhigh] at hwhole
  exact hwhole.symm

/-- The highest bit of a byte. -/
theorem and_80_iff (b : UInt8) : b.toNat &&& 0x80 = 0 ↔ b < 0x80 := by
  have key : ∀ n < 256, (n &&& 0x80 = 0 ↔ n < 0x80) := by
    decide +kernel
  rw [UInt8.lt_iff_toNat_lt]
  exact key b.toNat b.toNat_lt

/-- The mask of the words asks for the highest bit of each byte. -/
theorem number_and_eq_zero_iff (bytes : List UInt8) :
    Bytes.number bytes &&& Bytes.number (List.replicate bytes.length 0x80) = 0 ↔
      ∀ b ∈ bytes, b < 0x80 := by
  induction bytes with
  | nil => simp [Bytes.number]
  | cons b bytes ih =>
      have hsplit : Bytes.number (b :: bytes) &&&
          Bytes.number (List.replicate (b :: bytes).length 0x80) =
          (b.toNat &&& 0x80) + 256 * (Bytes.number bytes &&&
            Bytes.number (List.replicate bytes.length 0x80)) :=
        and_split _ _ _ _ b.toNat_lt (by decide)
      rw [hsplit, List.forall_mem_cons, ← ih, ← and_80_iff]
      omega

/-- An ASCII loop moves over ASCII bytes only. -/
def Skips (text : List UInt8) (index : Nat) (r : List UInt8 × Nat) : Prop :=
  ∃ k ≤ text.length, r = (text.drop k, index + k) ∧ ∀ b ∈ text.take k, b < 0x80

theorem Skips.refl (text : List UInt8) (index : Nat) : Skips text index (text, index) :=
  ⟨0, Nat.zero_le _, rfl, by simp⟩

theorem Skips.trans {text : List UInt8} {index : Nat} {r r' : List UInt8 × Nat}
    (h : Skips text index r) (h' : Skips r.1 r.2 r') : Skips text index r' := by
  obtain ⟨k, hle, rfl, hk⟩ := h
  obtain ⟨j, hle', rfl, hj⟩ := h'
  rw [List.length_drop] at hle'
  refine ⟨k + j, by omega, ?_, fun b hb => ?_⟩
  · rw [List.drop_drop, Nat.add_assoc]
  · rw [List.take_add] at hb
    exact (List.mem_append.mp hb).elim (hk b) (hj b)

theorem asciiWords_skips (fuel : Nat) (text : List UInt8) (index : Nat) :
    Skips text index (asciiWords fuel text index) := by
  induction fuel generalizing text index with
  | zero => exact Skips.refl _ _
  | succ fuel ih =>
      rw [asciiWords]
      by_cases hlength : 8 ≤ text.length
      · rw [if_pos hlength]
        by_cases hword : Bytes.number (text.take 8) &&& 0x8080808080808080 ≠ 0
        · rw [if_pos hword]
          exact Skips.refl _ _
        · rw [if_neg hword]
          rw [not_not] at hword
          have hall := number_and_eq_zero_iff (text.take 8)
          rw [List.length_take, Nat.min_eq_left hlength] at hall
          have hskip : Skips text index (text.drop 8, index + 8) := ⟨8, hlength, rfl, hall.mp hword⟩
          exact hskip.trans (ih _ _)
      · rw [if_neg hlength]
        exact Skips.refl _ _

theorem asciiBytes_skips (text : List UInt8) (index : Nat) :
    Skips text index (asciiBytes text index) := by
  induction text generalizing index with
  | nil => exact Skips.refl _ _
  | cons b text ih =>
      rw [asciiBytes]
      by_cases hb : b < 0x80
      · rw [if_pos hb]
        have hskip : Skips (b :: text) index (text, index + 1) :=
            ⟨1, Nat.succ_le_succ (Nat.zero_le _), rfl, by simpa using hb⟩
        exact hskip.trans (ih _)
      · rw [if_neg hb]
        exact Skips.refl _ _

/-- What the byte loop leaves does not begin with ASCII. -/
theorem asciiBytes_head (text : List UInt8) (index : Nat) {b : UInt8} {rest : List UInt8}
    (h : (asciiBytes text index).1 = b :: rest) : ¬ b < 0x80 := by
  induction text generalizing index with
  | nil => cases h
  | cons a text ih =>
      rw [asciiBytes] at h
      by_cases ha : a < 0x80
      · rw [if_pos ha] at h
        exact ih _ h
      · rw [if_neg ha] at h
        cases h
        exact ha

/-- The plain loop takes ASCII bytes one by one. -/
theorem validBytewiseFrom_skip {fuel k : Nat} {text : List UInt8} (index : Nat)
    (hk : k ≤ text.length) (hascii : ∀ b ∈ text.take k, b < 0x80) :
    validBytewiseFrom (fuel + k) text index =
      validBytewiseFrom fuel (text.drop k) (index + k) := by
  induction k generalizing text index with
  | zero => rfl
  | succ k ih =>
      cases text with
      | nil => cases hk
      | cons b text =>
          have hb : b < 0x80 := hascii b (by simp)
          rw [← Nat.add_assoc, validBytewiseFrom, if_pos hb,
            ih (index + 1) (Nat.le_of_succ_le_succ hk) fun c hc => hascii c (by simp [hc]),
            List.drop_succ_cons, Nat.add_assoc, Nat.add_comm 1 k]

/-- The ASCII loops change nothing, from whatever index they start. -/
theorem validFrom_eq_bytewise {fuel : Nat} {text : List UInt8} (index : Nat)
    (hfuel : text.length ≤ fuel) :
    validFrom fuel text index = validBytewiseFrom fuel text index := by
  induction fuel generalizing text index with
  | zero => rfl
  | succ fuel ih =>
      cases text with
      | nil => rfl
      | cons lead rest =>
          rw [validFrom]
          by_cases hascii : lead < 0x80
          · rw [if_pos hascii]
            dsimp only
            have hwords := asciiWords_skips (rest.length + 1) (lead :: rest) index
            have hskips := hwords.trans (asciiBytes_skips _ _)
            have hhead := @asciiBytes_head
              (asciiWords (rest.length + 1) (lead :: rest) index).1
              (asciiWords (rest.length + 1) (lead :: rest) index).2
            obtain ⟨k, hle, hrun, hall⟩ := hskips
            rw [hrun] at hhead ⊢
            -- the loops take the lead byte at least
            have hpos : 0 < k := by
              refine Nat.pos_of_ne_zero fun hz => ?_
              rw [hz] at hhead
              exact hhead rfl hascii
            have hdrop : ((lead :: rest).drop k).length ≤ fuel := by
              rw [List.length_drop]
              omega
            rw [ih (index + k) hdrop, ← validBytewiseFrom_skip index hle hall]
            exact validBytewiseFrom_fuel index (by omega) (by omega)
          · rw [if_neg hascii, validBytewiseFrom, if_neg hascii]
            cases classify lead with
            | none => rfl
            | some asks =>
                dsimp only
                split
                · refine ih _ ?_
                  rw [List.length_drop]
                  rw [List.length_cons] at hfuel
                  omega
                · rfl

/-- The length found is that of the longest prefix which is the encoding of some characters. It is
that of the whole text exactly when the text is such an encoding, and from every index the loops in
words give the answer of the loop in bytes. -/
theorem validLength_longest_prefix (text : List UInt8) :
    (∃ characters, text.take (validLength text) = encode characters) ∧
    (∀ n ≤ text.length, (∃ characters, text.take n = encode characters) → n ≤ validLength text) ∧
    (validLength text = text.length ↔ ∃ characters, text = encode characters) ∧
    validLength text ≤ text.length ∧
    ∀ index, validFrom (text.length - index) (text.drop index) index =
      validBytewiseFrom (text.length - index) (text.drop index) index := by
  obtain ⟨characters, rest, htext, hnone, hlength⟩ :=
    validBytewiseFrom_spec 0 (Nat.le_refl text.length)
  have hvalid : validLength text = (encode characters).length := by
    rw [validLength, validFrom_eq_bytewise 0 (Nat.le_refl _), hlength, Nat.zero_add]
  have hwhole : text.length = (encode characters).length + rest.length := by
    conv_lhs => rw [htext]
    exact List.length_append
  -- behind the characters found no sequence is valid, so no longer prefix is one of characters
  have hlongest : ∀ n ≤ text.length, (∃ more, text.take n = encode more) →
    n ≤ validLength text := by
    rintro n hn ⟨more, hmore⟩
    have hsplit : encode characters ++ rest = encode more ++ text.drop n := by
      rw [← htext, ← hmore, List.take_append_drop]
    have hle := encode_prefix hnone hsplit
    rw [← hmore, List.length_take, Nat.min_eq_left hn] at hle
    rwa [hvalid]
  refine ⟨⟨characters, ?_⟩, hlongest, ⟨fun hall => ⟨characters, ?_⟩, fun hall => ?_⟩, ?_,
    fun index => ?_⟩
  · conv_lhs => rw [hvalid, htext]
    exact List.take_left
  · have hrest : rest = [] := List.length_eq_zero_iff.mp (by omega)
    rw [htext, hrest, List.append_nil]
  · refine Nat.le_antisymm (by omega) (hlongest _ (Nat.le_refl _) ?_)
    rwa [List.take_length]
  · omega
  · exact validFrom_eq_bytewise index (by rw [List.length_drop])

/-- A euro sign, and half of a surrogate pair. -/
example : validLength [0xE2, 0x82, 0xAC, 0xED, 0xA0, 0x80] = 3 := by decide +kernel

end Arnm.Utf8
