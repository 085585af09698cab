import Arnm.Text.Base64Decode

set_option autoImplicit false

/-! # Base64 there and back

The encoder writes one text for every run of bytes (`binaryToBase64_spec`), and each tail of one,
two or no bytes left over is decoded again (`base64_roundTrip`). -/

namespace Arnm.Base64

/-- Three bytes as one number. -/
def groupNumber (a b c : UInt8) : Nat := a.toNat <<< 16 ||| b.toNat <<< 8 ||| c.toNat

/-- The text of a run of bytes. -/
def encodeText : List UInt8 → List UInt8
  | a :: b :: c :: rest => groupText (groupNumber a b c) ++ encodeText rest
  | [a, b] => (groupText (groupNumber a b 0)).take 3 ++ [pad]
  | [a] => (groupText (groupNumber a 0 0)).take 2 ++ [pad, pad]
  | [] => []

theorem length_groupText (group : Nat) : (groupText group).length = 4 := rfl

theorem length_encodeText (bytes : List UInt8) :
    (encodeText bytes).length = (bytes.length + 2) / 3 * 4 := by
  fun_induction encodeText bytes with
  | case1 a b c rest ih =>
      rw [List.length_append, length_groupText, ih]
      simp only [List.length_cons]
      omega
  | case2 => simp [groupText]
  | case3 => simp [groupText]
  | case4 => rfl

/-! ## A group -/

theorem groupNumber_eq (a b c : UInt8) :
    groupNumber a b c = a.toNat * 2 ^ 16 + b.toNat * 2 ^ 8 + c.toNat := by
  have hb := b.toNat_lt
  have hc := c.toNat_lt
  have hhigh : a.toNat <<< 16 ||| b.toNat <<< 8 = (a.toNat * 2 ^ 8 + b.toNat) * 2 ^ 8 := by
    rw [Nat.shiftLeft_eq, Nat.shiftLeft_eq, Nat.mul_comm a.toNat,
      ← Nat.two_pow_add_eq_or_of_lt (show b.toNat * 2 ^ 8 < 2 ^ 16 by omega)]
    omega
  rw [groupNumber, hhigh, Nat.mul_comm _ (2 ^ 8), ← Nat.two_pow_add_eq_or_of_lt hc]
  omega

/-- Three bytes are found again in their number. -/
theorem groupBytes_groupNumber (a b c : UInt8) : groupBytes (groupNumber a b c) = [a, b, c] := by
  have ha := a.toNat_lt
  have hb := b.toNat_lt
  have hc := c.toNat_lt
  have hbyte : ∀ n, n &&& 0xFF = n % 2 ^ 8 := fun n => Nat.and_two_pow_sub_one_eq_mod n 8
  have h₁ : groupNumber a b c >>> 16 &&& 0xFF = a.toNat := by
    rw [hbyte, groupNumber_eq, Nat.shiftRight_eq_div_pow]
    omega
  have h₂ : groupNumber a b c >>> 8 &&& 0xFF = b.toNat := by
    rw [hbyte, groupNumber_eq, Nat.shiftRight_eq_div_pow]
    omega
  have h₃ : groupNumber a b c &&& 0xFF = c.toNat := by
    rw [hbyte, groupNumber_eq]
    omega
  rw [groupBytes, h₁, h₂, h₃, UInt8.ofNat_toNat, UInt8.ofNat_toNat, UInt8.ofNat_toNat]

theorem sixBits (n : Nat) : n &&& 0x3F = n % 2 ^ 6 := Nat.and_two_pow_sub_one_eq_mod n 6

theorem and_lt (n : Nat) : n &&& 0x3F < 64 := by
  rw [sixBits]
  exact Nat.mod_lt _ (by decide)

theorem inAlphabet_sixBits (n : Nat) : InAlphabet (alphabet (n &&& 0x3F)) :=
  inAlphabet_alphabet (and_lt n)

theorem sextet_sixBits (n : Nat) : sextet (alphabet (n &&& 0x3F)) = n % 2 ^ 6 := by
  rw [sextet_alphabet (and_lt n), sixBits]

/-- Four characters of the alphabet are read as the number they were written for. -/
theorem groupOf_groupText {last : Prop} [Decidable last] {group : Nat} (h : group < 2 ^ 24) :
    groupOf last (alphabet (group >>> 18 &&& 0x3F)) (alphabet (group >>> 12 &&& 0x3F))
      (alphabet (group >>> 6 &&& 0x3F)) (alphabet (group &&& 0x3F)) = some group := by
  have hin := inAlphabet_sixBits
  unfold groupOf
  rw [if_pos ⟨hin _, hin _, Or.inl (hin _), Or.inl (hin _)⟩]
  simp only [sextet_sixBits, Nat.shiftRight_eq_div_pow]
  congr 1
  omega

/-- The last group may leave out its last character, which is read as zero. -/
theorem groupOf_pad {last : Prop} [Decidable last] {group : Nat} (h : group < 2 ^ 24)
    (hzero : group % 2 ^ 6 = 0) (hlast : last) :
    groupOf last (alphabet (group >>> 18 &&& 0x3F)) (alphabet (group >>> 12 &&& 0x3F))
      (alphabet (group >>> 6 &&& 0x3F)) pad = some group := by
  have hin := inAlphabet_sixBits
  unfold groupOf
  rw [if_pos ⟨hin _, hin _, Or.inl (hin _), Or.inr ⟨rfl, hlast⟩⟩]
  simp only [sextet_sixBits, sextet_pad, Nat.shiftRight_eq_div_pow]
  congr 1
  omega

theorem groupOf_pad_pad {last : Prop} [Decidable last] {group : Nat} (h : group < 2 ^ 24)
    (hzero : group % 2 ^ 12 = 0) (hlast : last) :
    groupOf last (alphabet (group >>> 18 &&& 0x3F)) (alphabet (group >>> 12 &&& 0x3F)) pad pad =
      some group := by
  have hin := inAlphabet_sixBits
  unfold groupOf
  rw [if_pos ⟨hin _, hin _, Or.inr ⟨rfl, hlast, rfl⟩, Or.inr ⟨rfl, hlast⟩⟩]
  simp only [sextet_sixBits, sextet_pad, Nat.shiftRight_eq_div_pow]
  congr 1
  omega

theorem groupNumber_lt (a b c : UInt8) : groupNumber a b c < 2 ^ 24 := by
  have ha := a.toNat_lt
  have hb := b.toNat_lt
  have hc := c.toNat_lt
  rw [groupNumber_eq]
  omega

/-! ## A text -/

/-- The text of some bytes is decoded to them, and to zeros where bytes were missing. -/
theorem decodeText_encodeText (bytes : List UInt8) :
    decodeText (encodeText bytes) =
      some (bytes ++ List.replicate ((3 - bytes.length % 3) % 3) 0) := by
  fun_induction encodeText bytes with
  | case1 a b c rest ih =>
      show (groupOf _ _ _ _ _).bind _ = _
      rw [groupOf_groupText (groupNumber_lt a b c), Option.bind_some]
      show (decodeText (encodeText rest)).map _ = _
      rw [ih, Option.map_some, groupBytes_groupNumber]
      simp only [List.length_cons, List.cons_append, List.nil_append, Nat.add_assoc, Nat.reduceAdd,
        Nat.add_mod_right]
  | case2 a b =>
      have hzero : groupNumber a b 0 % 2 ^ 6 = 0 := by
        rw [groupNumber_eq, UInt8.toNat_zero]
        omega
      show (groupOf _ _ _ _ _).bind _ = _
      rw [groupOf_pad (groupNumber_lt a b 0) hzero rfl, Option.bind_some, decodeText,
        Option.map_some,
        groupBytes_groupNumber]
      rfl
  | case3 a =>
      have hzero : groupNumber a 0 0 % 2 ^ 12 = 0 := by
        rw [groupNumber_eq, UInt8.toNat_zero]
        omega
      show (groupOf _ _ _ _ _).bind _ = _
      rw [groupOf_pad_pad (groupNumber_lt a 0 0) hzero rfl, Option.bind_some, decodeText,
        Option.map_some, groupBytes_groupNumber]
      rfl
  | case4 => rfl

/-- The characters of the text that are no padding carry eight bits for each byte. -/
theorem byteCount_encodeText (bytes : List UInt8) :
    byteCount (encodeText bytes) = bytes.length := by
  have hin := inAlphabet_sixBits
  have hcount : (encodeText bytes).countP (fun c => decide (InAlphabet c)) =
      (bytes.length * 8 + 5) / 6 := by
    fun_induction encodeText bytes with
    | case1 a b c rest ih =>
        rw [List.countP_append, ih]
        simp only [groupText, List.countP_cons, List.countP_nil, hin, decide_true, if_true,
          List.length_cons]
        omega
    | case2 a b =>
        simp only [groupText, List.take_succ_cons, List.take_zero, List.cons_append,
          List.nil_append,
          List.countP_cons, List.countP_nil, hin, not_inAlphabet_pad, decide_true, decide_false,
          if_true, List.length_cons, List.length_nil]
        decide
    | case3 a =>
        simp only [groupText, List.take_succ_cons, List.take_zero, List.cons_append,
          List.nil_append,
          List.countP_cons, List.countP_nil, hin, not_inAlphabet_pad, decide_true, decide_false,
          if_true, List.length_cons, List.length_nil]
        decide
    | case4 => rfl
  rw [byteCount, hcount]
  omega

theorem wellFormed_encodeText (bytes : List UInt8) : WellFormed (encodeText bytes) := by
  refine (wellFormed_iff ?_).mpr ⟨_, decodeText_encodeText bytes⟩
  rw [length_encodeText, Nat.mul_mod_left]

theorem decoded_encodeText (bytes : List UInt8) : decoded (encodeText bytes) = bytes := by
  rw [decoded, decodeText_encodeText, Option.getD_some, announced_eq (wellFormed_encodeText bytes),
    byteCount_encodeText, List.take_left]

/-! ## The encoder -/

/-- The characters of a text are no NULs. -/
theorem encodeText_ne_zero {bytes : List UInt8} {c : UInt8} (h : c ∈ encodeText bytes) : c ≠ 0 := by
  obtain ⟨-, body, n, -, heq, hall⟩ := wellFormed_encodeText bytes
  rw [heq] at h
  rintro rfl
  rcases List.mem_append.mp h with hbody | hpad
  · exact absurd (hall 0 hbody) (by decide)
  · exact absurd (List.eq_of_mem_replicate hpad) (by decide)

theorem encodeText_append {front : List UInt8} (h : front.length % 3 = 0) (bytes : List UInt8) :
    encodeText (front ++ bytes) = encodeText front ++ encodeText bytes := by
  fun_induction encodeText front with
  | case1 a b c rest ih =>
      simp only [List.length_cons] at h
      show groupText (groupNumber a b c) ++ encodeText (rest ++ bytes) = _
      rw [ih (by omega), List.append_assoc]
  | case2 => simp at h
  | case3 => simp at h
  | case4 => rfl

/-- The loop over the whole groups. -/
theorem encodeGroups_spec {result bytes : Nat} (n k : Nat) (m : Bytes)
    (happart : Region.Apart ⟨result + k * 4, n * 4⟩ ⟨bytes + k * 3, n * 3⟩) :
    encodeGroups result bytes n k m =
      m.put (result + k * 4) (encodeText (m.read (bytes + k * 3) (n * 3))) := by
  induction n generalizing k m with
  | zero =>
      rw [Nat.zero_mul, Bytes.read_zero, encodeText, Bytes.put_nil]
      rfl
  | succ n ih =>
      have hread : m.read (bytes + k * 3) ((n + 1) * 3) =
          m (bytes + k * 3) :: m (bytes + k * 3 + 1) :: m (bytes + k * 3 + 2) ::
            m.read (bytes + (k + 1) * 3) (n * 3) := by
        rw [Nat.succ_mul, Bytes.read_succ, Bytes.read_succ, Bytes.read_succ, Nat.succ_mul]
        rfl
      -- the text of the group lies apart from the bytes of the later ones
      have hfirst : Region.Apart ⟨result + k * 4, (groupText (readBytes m (bytes + k * 3))).length⟩
          ⟨bytes + (k + 1) * 3, n * 3⟩ := by
        refine happart.within ⟨Nat.le_refl _, ?_⟩ ⟨?_, ?_⟩
        · simp only [Region.stop_mk, length_groupText]
          omega
        · simp only
          omega
        · simp only [Region.stop_mk]
          omega
      have hlater : Region.Apart ⟨result + (k + 1) * 4, n * 4⟩ ⟨bytes + (k + 1) * 3, n * 3⟩ := by
        refine happart.within ⟨?_, ?_⟩ ⟨?_, ?_⟩
        · simp only
          omega
        · simp only [Region.stop_mk]
          omega
        · simp only
          omega
        · simp only [Region.stop_mk]
          omega
      have hput := Bytes.put_put m (result + k * 4) (groupText (readBytes m (bytes + k * 3)))
        (encodeText (m.read (bytes + (k + 1) * 3) (n * 3)))
      rw [length_groupText, show result + k * 4 + 4 = result + (k + 1) * 4 by omega] at hput
      rw [encodeGroups, ih _ _ hlater, Bytes.read_congr (Bytes.put_agreeOn hfirst), hput, hread]
      rfl

/-- The one or two bytes left over: what is missing is read as zero. -/
theorem restText_eq (m : Bytes) (addr : Nat) {rest : Nat} (h : rest = 1 ∨ rest = 2) :
    restText m addr rest = encodeText (m.read addr rest) := by
  rcases h with rfl | rfl
  · have hgroup : groupNumber (m addr) 0 0 = (m addr).toNat <<< 16 ||| 0 := by
      rw [groupNumber, UInt8.toNat_zero, Nat.zero_shiftLeft, Nat.or_zero]
    rw [Bytes.read_succ, Bytes.read_zero, encodeText, hgroup]
    rfl
  · have hgroup : groupNumber (m addr) (m (addr + 1)) 0 =
        (m addr).toNat <<< 16 ||| (m (addr + 1)).toNat <<< 8 := by
      rw [groupNumber, UInt8.toNat_zero, Nat.or_zero]
    rw [Bytes.read_succ, Bytes.read_succ, Bytes.read_zero, encodeText, hgroup]
    rfl

theorem stringLength_eq {size : Nat} (h : size ≤ maxBinarySize) :
    stringLength size = (size + 2) / 3 * 4 := by
  have hmax : maxBinarySize = 3221225469 := rfl
  unfold stringLength
  omega

/-- The encoder writes the text of the bytes and a NUL behind it. -/
theorem binaryToBase64_spec {m : Bytes} {result bytes size : Nat} (hsize : size ≤ maxBinarySize)
    (happart : Region.Apart ⟨result, stringLength size⟩ ⟨bytes, size⟩) :
    binaryToBase64 m result bytes size =
      (.success, m.put result (encodeText (m.read bytes size) ++ [0])) := by
  have hmax : maxBinarySize = 3221225469 := rfl
  have hlength := stringLength_eq hsize
  have hwhole := @encodeGroups_spec result bytes (size / 3) 0 m
    (happart.within (by simp [Region.Within]; omega) (by simp [Region.Within]; omega))
  simp only [Nat.zero_mul, Nat.add_zero] at hwhole
  have hfront : (encodeText (m.read bytes (size / 3 * 3))).length = size / 3 * 4 := by
    rw [length_encodeText, Bytes.length_read]
    omega
  have hwritten : size / 3 * 4 % 2 ^ 32 = size / 3 * 4 := by omega
  unfold binaryToBase64
  rw [if_neg (Nat.not_lt.mpr hsize)]
  dsimp only
  rw [hwhole, hwritten]
  by_cases hrest : size - size / 3 * 3 = 0
  · have hsame : size / 3 * 3 = size := by omega
    rw [if_pos hrest, ← hfront, Bytes.put_put, hsame]
  · -- the one or two bytes left over are encoded behind the whole groups
    have hread : m.read bytes size =
        m.read bytes (size / 3 * 3) ++ m.read (bytes + size / 3 * 3) (size - size / 3 * 3) := by
      rw [← Bytes.read_add]
      congr 1
      omega
    have hends : Region.Apart ⟨result, (encodeText (m.read bytes (size / 3 * 3))).length⟩
        ⟨bytes + size / 3 * 3, size - size / 3 * 3⟩ := by
      rw [hfront]
      exact happart.within (by simp [Region.Within]; omega) (by simp [Region.Within]; omega)
    have hall : (encodeText (m.read bytes size)).length = size / 3 * 4 + 4 := by
      rw [length_encodeText, Bytes.length_read]
      omega
    have hmore : (size / 3 * 4 + 4) % 2 ^ 32 = size / 3 * 4 + 4 := by omega
    have htext : encodeText (m.read bytes (size / 3 * 3)) ++
        encodeText (m.read (bytes + size / 3 * 3) (size - size / 3 * 3)) =
        encodeText (m.read bytes size) := by
      rw [hread, encodeText_append]
      rw [Bytes.length_read, Nat.mul_mod_left]
    rw [if_neg hrest, restText_eq _ _ (by omega), Bytes.read_congr (Bytes.put_agreeOn hends), hmore]
    -- the groups, the last characters and the NUL are put one behind the other
    rw [← hall, ← hfront, Bytes.put_put, htext, Bytes.put_put]

/-! ## There and back -/

/-- What the encoder writes is a string of the length announced, and every decoder gives the bytes
back, over the text or elsewhere. -/
theorem base64_roundTrip {m : Bytes} {result bytes size : Nat} (hsize : size ≤ maxBinarySize)
    (happart : Region.Apart ⟨result, stringLength size + 1⟩ ⟨bytes, size⟩) :
    let r := binaryToBase64 m result bytes size
    r.1 = .success ∧ IsString r.2 result (stringLength size) ∧
      stringLength size = (size + 2) / 3 * 4 ∧
      (∀ x, ¬ (Region.mk result (stringLength size + 1)).Has x → r.2 x = m x) ∧
      ∀ target outSize,
        Region.Apart ⟨target, stringLength size / 4 * 3⟩ ⟨result, stringLength size⟩ ∨
            target = result →
          binaryFromBase64 r.2 target outSize result (stringLength size) =
            (.success, size, r.2.put target (m.read bytes size)) := by
  intro r
  have hlength := stringLength_eq hsize
  have hmax : maxBinarySize = 3221225469 := rfl
  have hcount : (encodeText (m.read bytes size)).length = stringLength size := by
    rw [length_encodeText, Bytes.length_read, hlength]
  have hr : r = (.success, m.put result (encodeText (m.read bytes size) ++ [0])) :=
    binaryToBase64_spec hsize
      (happart.within ⟨Nat.le_refl _, by simp⟩ (Region.Within.refl _))
  -- the terminator stands behind the text, which is read without it
  have hmemory : r.2 = (m.put result (encodeText (m.read bytes size))).put
      (result + stringLength size) [0] := by
    rw [hr, ← hcount, Bytes.put_put]
  have htext : r.2.read result (stringLength size) = encodeText (m.read bytes size) := by
    rw [hmemory, Bytes.read_congr (Bytes.put_agreeOn (Or.inr (Nat.le_refl _))), ← hcount,
      Bytes.read_put]
  refine ⟨by rw [hr], ⟨fun c hc => ?_, ?_⟩, hlength, fun x hx => ?_,
    fun target outSize hclear => ?_⟩
  · rw [htext] at hc
    exact encodeText_ne_zero hc
  · rw [hmemory, Bytes.put, if_pos ⟨Nat.le_refl _, by simp⟩, Nat.sub_self]
    rfl
  · rw [hr]
    refine Bytes.put_apply_of_not fun hin => hx ?_
    rw [List.length_append, hcount] at hin
    exact hin
  · have hbytes := byteCount_encodeText (m.read bytes size)
    rw [Bytes.length_read] at hbytes
    rw [binaryFromBase64_spec hclear, htext,
      outcome_of_wellFormed (wellFormed_encodeText _), hbytes,
      decoded_encodeText, Nat.mod_eq_of_lt (by omega)]

/-- Five bytes, of which two are left over: read back over their text, and behind it. -/
theorem base64_roundTrip_sample :
    let r := binaryToBase64 sampleText 32 8 5
    r.1 = .success ∧ IsString r.2 32 8 ∧ r.2 8 = 0x51 ∧
      binaryFromBase64 r.2 32 0 32 8 = (.success, 5, r.2.put 32 [0x51, 0x55, 0x4A, 0x44, 0x52]) ∧
      binaryFromBase64 r.2 64 0 32 8 =
        (.success, 5, r.2.put 64 [0x51, 0x55, 0x4A, 0x44, 0x52]) := by
  intro r
  have hread : sampleText.read 8 5 = [0x51, 0x55, 0x4A, 0x44, 0x52] := by decide
  obtain ⟨hok, hstring, -, hrest, hback⟩ :=
    @base64_roundTrip sampleText 32 8 5 (by decide) (by decide)
  rw [hread] at hback
  exact ⟨hok, hstring, (hrest 8 fun hin => absurd hin.1 (by decide)).trans (by decide),
    hback 32 0 (Or.inr rfl), hback 64 0 (Or.inl (by decide))⟩

end Arnm.Base64
