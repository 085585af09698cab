import Arnm.Json.Writer

set_option autoImplicit false

/-! # Uuids as texts

`arnm_uuid_to_string` and `arnm_uuid_from_string` of `converter.c`. A uuid is the hex of its sixteen
bytes with four dashes; each function gathers the hex in a buffer of its own, so the uuid and the
text may lie over each other. -/

namespace Arnm.Json

variable {m : Bytes}

/-- `arnm_uuid_to_string`; the call's own buffer lies at `hex`. -/
def uuidToText (m : Bytes) (hex result uuid : Nat) : Bytes :=
  let m := (Hex.binaryToHex m hex uuid uuidBinarySize).2
  let m := (m.copy result hex 8).put (result + 8) [dash]
  let m := (m.copy (result + 9) (hex + 8) 4).put (result + 13) [dash]
  let m := (m.copy (result + 14) (hex + 12) 4).put (result + 18) [dash]
  let m := (m.copy (result + 19) (hex + 16) 4).put (result + 23) [dash]
  (m.copy (result + 24) (hex + 20) 12).put (result + uuidStringLength) [0]

/-- The bytes of a uuid in memory. -/
def readUuid (m : Bytes) (uuid : Nat) : Vector UInt8 uuidBinarySize :=
  ⟨(m.read uuid uuidBinarySize).toArray, by simp⟩

/-- The form of a uuid's text. -/
def IsUuid (text : List UInt8) : Prop :=
  text.length = uuidStringLength ∧
    ∀ i < uuidStringLength, if i ∈ [8, 13, 18, 23] then text.getD i 0 = dash
      else Hex.IsDigit (text.getD i 0)

instance (text : List UInt8) : Decidable (IsUuid text) := inferInstanceAs (Decidable (_ ∧ _))

/-! ## The text -/

theorem length_hex (uuid : Vector UInt8 uuidBinarySize) :
    (Hex.encodeText uuid.toList).length = 32 := by
  rw [Hex.length_encodeText, Vector.length_toList]
  rfl

theorem length_uuidToString (uuid : Vector UInt8 uuidBinarySize) :
    (Writer.uuidToString uuid).length = uuidStringLength := by
  simp [Writer.uuidToString, length_hex, uuidStringLength]

/-- The text of a uuid by its parts. -/
theorem read_uuid (m : Bytes) (text : Nat) :
    m.read text uuidStringLength = m.read text 8 ++ ([m (text + 8)] ++
      (m.read (text + 9) 4 ++ ([m (text + 13)] ++ (m.read (text + 14) 4 ++ ([m (text + 18)] ++
        (m.read (text + 19) 4 ++ ([m (text + 23)] ++ m.read (text + 24) 12))))))) := by
  show m.read text (8 + (1 + (4 + (1 + (4 + (1 + (4 + (1 + 12)))))))) = _
  simp only [Bytes.read_add, Nat.add_assoc]
  rfl

/-- The digits of a uuid's text, without the dashes, are its hex. -/
theorem uuidDigits_eq {text : Nat} {uuid : Vector UInt8 uuidBinarySize}
    (h : m.read text uuidStringLength = Writer.uuidToString uuid) :
    uuidDigits m text = Hex.encodeText uuid.toList ∧ m (text + 8) = dash ∧ m (text + 13) = dash ∧
      m (text + 18) = dash ∧ m (text + 23) = dash := by
  have hlength := length_hex uuid
  rw [read_uuid, Writer.uuidToString] at h
  simp only [List.append_assoc] at h
  generalize Hex.encodeText uuid.toList = hex at h hlength ⊢
  obtain ⟨h₁, h⟩ := List.append_inj h (by simp [hlength])
  obtain ⟨hd₁, h⟩ := List.append_inj h rfl
  obtain ⟨h₂, h⟩ := List.append_inj h (by simp [hlength])
  obtain ⟨hd₂, h⟩ := List.append_inj h rfl
  obtain ⟨h₃, h⟩ := List.append_inj h (by simp [hlength])
  obtain ⟨hd₃, h⟩ := List.append_inj h rfl
  obtain ⟨h₄, h⟩ := List.append_inj h (by simp [hlength])
  obtain ⟨hd₄, h₅⟩ := List.append_inj h rfl
  refine ⟨?_, List.head_eq_of_cons_eq hd₁, List.head_eq_of_cons_eq hd₂, List.head_eq_of_cons_eq hd₃,
    List.head_eq_of_cons_eq hd₄⟩
  -- the parts follow each other in the hex
  have hcut : ∀ k n, (hex.drop k).take n ++ hex.drop (k + n) = hex.drop k := by
    intro k n
    rw [← List.drop_drop]
    exact List.take_append_drop n (hex.drop k)
  have hlast : (hex.drop 20).take 12 = hex.drop 20 := List.take_of_length_le (by simp [hlength])
  simp only [uuidDigits, h₁, h₂, h₃, h₄, h₅, hlast, List.append_assoc]
  rw [hcut 16 4, hcut 12 4, hcut 8 4, List.take_append_drop]

theorem uuidToString_ne_zero (uuid : Vector UInt8 uuidBinarySize) :
    0 ∉ Writer.uuidToString uuid := by
  intro hzero
  have hhex : ∀ l : List UInt8, l.Sublist (Hex.encodeText uuid.toList) → (0 : UInt8) ∉ l :=
    fun l hl hin => Hex.encodeText_ne_zero (hl.subset hin) rfl
  simp only [Writer.uuidToString, List.mem_append, List.mem_singleton] at hzero
  have htake : ∀ k n, (0 : UInt8) ∉ ((Hex.encodeText uuid.toList).drop k).take n := fun k n =>
    hhex _ ((List.take_sublist _ _).trans (List.drop_sublist _ _))
  have hdash : (0 : UInt8) ≠ dash := by decide
  have hfirst : (0 : UInt8) ∉ (Hex.encodeText uuid.toList).take 8 := hhex _ (List.take_sublist _ _)
  simp [htake, hfirst, hdash] at hzero

/-- The text of a uuid is read as the uuid. -/
theorem uuidFromString_text {text place : Nat} {uuid : Vector UInt8 uuidBinarySize}
    (h : m.read text uuidStringLength = Writer.uuidToString uuid)
    (hend : m (text + uuidStringLength) = 0) :
    uuidFromString m place text = (.success, m.put place uuid.toList) := by
  obtain ⟨hdigits, hd₁, hd₂, hd₃, hd₄⟩ := uuidDigits_eq h
  rw [uuidFromString, if_neg, if_neg, hdigits, if_pos (Hex.wellFormed_encodeText _).2,
    Hex.decodeText_encodeText]
  · simp [hd₁, hd₂, hd₃, hd₄]
  · rw [h]
    exact not_not_intro ⟨uuidToString_ne_zero uuid, hend⟩

/-! ## Writing -/

theorem copy_eq_put (m : Bytes) (dst src n : Nat) :
    m.copy dst src n = m.put dst (m.read src n) := by
  funext x
  unfold Bytes.copy Bytes.put
  rw [Bytes.length_read]
  by_cases hin : dst ≤ x ∧ x < dst + n
  · rw [if_pos hin, if_pos hin, ← List.getElem_eq_getD (h := by rw [Bytes.length_read]; omega),
      Bytes.read_getElem]
  · rw [if_neg hin, if_neg hin]

/-- A part of what is read. -/
theorem read_part {addr size k n : Nat} (h : k + n ≤ size) :
    ((m.read addr size).drop k).take n = m.read (addr + k) n := by
  apply List.ext_getElem
  · simp only [List.length_take, List.length_drop, Bytes.length_read]
    omega
  · intro i hi hi'
    rw [List.getElem_take, List.getElem_drop, Bytes.read_getElem, Bytes.read_getElem, Nat.add_assoc]

/-- One more part of the text behind what is written of it. -/
theorem put_more {result l : Nat} {text : List UInt8} (hlength : text.length = l)
    (more : List UInt8) :
    (m.put result text).put (result + l) more = m.put result (text ++ more) := by
  rw [← hlength, Bytes.put_put]

/-- One more part of the hex behind what is written of the text. -/
theorem copy_more {hex result l k n : Nat} {text digits : List UInt8} (hlength : text.length = l)
    (hdigits : m.read hex 32 = digits) (hkn : k + n ≤ 32) (hl : l ≤ 37)
    (happart : Region.Apart ⟨hex, 33⟩ ⟨result, 37⟩) :
    (m.put result text).copy (result + l) (hex + k) n =
      m.put result (text ++ (digits.drop k).take n) := by
  have hkept : Bytes.AgreeOn m (m.put result text) ⟨hex + k, n⟩ := by
    apply Bytes.put_agreeOn
    apply happart.symm.within <;> simp only [Region.Within, Region.stop_mk] <;> omega
  rw [copy_eq_put, Bytes.read_congr hkept, put_more hlength, ← hdigits, read_part hkn]

/-- The text of the sixteen bytes is written behind each other, wherever they lie. -/
theorem uuidToText_eq {hex result uuid : Nat} (happart : Region.Apart ⟨hex, 33⟩ ⟨result, 37⟩)
    (hsource : Region.Apart ⟨hex, 33⟩ ⟨uuid, uuidBinarySize⟩) :
    uuidToText m hex result uuid =
      (m.put hex (Hex.encodeText (readUuid m uuid).toList ++ [0])).put result
        (Writer.uuidToString (readUuid m uuid) ++ [0]) := by
  have hbytes : m.read uuid uuidBinarySize = (readUuid m uuid).toList := rfl
  have hhex : (Hex.binaryToHex m hex uuid uuidBinarySize).2 =
      m.put hex (Hex.encodeText (readUuid m uuid).toList ++ [0]) := by
    have happart' : Region.Apart ⟨hex, uuidBinarySize * 2⟩ ⟨uuid, uuidBinarySize⟩ := by
      apply hsource.within _ (Region.Within.refl _)
      exact ⟨Nat.le_refl _, by simp only [Region.stop_mk, uuidBinarySize]; omega⟩
    rw [Hex.binaryToHex_spec (by decide) happart', hbytes]
  have hlength := length_hex (readUuid m uuid)
  rw [uuidToText, hhex, Writer.uuidToString]
  generalize Hex.encodeText (readUuid m uuid).toList = digits at hlength ⊢
  generalize hm₁ : m.put hex (digits ++ [0]) = m₁
  have hdigits : m₁.read hex 32 = digits := by
    rw [← hm₁, ← Bytes.put_put, Bytes.read_congr (m := m.put hex digits), ← hlength, Bytes.read_put]
    exact Bytes.put_agreeOn (Or.inr (by simp only [Region.stop_mk]; omega))
  have hfirst : m₁.copy result hex 8 = m₁.put result (digits.take 8) := by
    rw [copy_eq_put, ← hdigits, Bytes.read_take]
    rfl
  rw [hfirst, put_more (l := 8), copy_more (l := 9) (k := 8) _ hdigits, put_more (l := 13),
    copy_more (l := 14) _ hdigits, put_more (l := 18), copy_more (l := 19) _ hdigits,
    put_more (l := 23), copy_more (l := 24) _ hdigits, put_more (l := uuidStringLength)]
  all_goals first | exact happart | simp [hlength, uuidStringLength]

/-! ## The form of a text -/

theorem mem_read {addr n : Nat} {c : UInt8} : c ∈ m.read addr n ↔ ∃ k < n, m (addr + k) = c := by
  simp [Bytes.read]

theorem isUuid_read (text : Nat) :
    IsUuid (m.read text uuidStringLength) ↔
      ∀ i < uuidStringLength,
        if i ∈ [8, 13, 18, 23] then m (text + i) = dash else Hex.IsDigit (m (text + i)) := by
  rw [IsUuid, Bytes.length_read]
  simp only [true_and]
  apply forall₂_congr
  intro i hi
  rw [← List.getElem_eq_getD (h := by rwa [Bytes.length_read]), Bytes.read_getElem]

/-- A text has the form if its dashes are dashes and the rest is hex. -/
theorem isUuid_iff (text : Nat) :
    IsUuid (m.read text uuidStringLength) ↔
      (m (text + 8) = dash ∧ m (text + 13) = dash ∧ m (text + 18) = dash ∧ m (text + 23) = dash) ∧
        Hex.AllDigits (uuidDigits m text) := by
  rw [isUuid_read]
  constructor
  · intro h
    have hdigit : ∀ i < uuidStringLength, i ∉ [8, 13, 18, 23] → Hex.IsDigit (m (text + i)) := by
      intro i hi hno
      have hboth := h i hi
      rwa [if_neg hno] at hboth
    refine ⟨⟨h 8 (by decide), h 13 (by decide), h 18 (by decide), h 23 (by decide)⟩, ?_⟩
    intro c hc
    simp only [uuidDigits, List.mem_append, mem_read] at hc
    have hmax : uuidStringLength = 36 := rfl
    rcases hc with (((⟨k, hk, rfl⟩ | ⟨k, hk, rfl⟩) | ⟨k, hk, rfl⟩) | ⟨k, hk, rfl⟩) | ⟨k, hk, rfl⟩
    · exact hdigit k (by omega) (by simp; omega)
    all_goals
      rw [Nat.add_assoc]
      exact hdigit _ (by omega) (by simp; omega)
  · rintro ⟨⟨h₁, h₂, h₃, h₄⟩, hall⟩ i hi
    have hmax : uuidStringLength = 36 := rfl
    have hpart : ∀ a n, a ≤ i → i < a + n →
        (∀ c ∈ m.read (text + a) n, Hex.IsDigit c) → Hex.IsDigit (m (text + i)) := by
      intro a n hle hlt hpart
      exact hpart _ (mem_read.mpr ⟨i - a, by omega, by rw [Nat.add_assoc, Nat.add_sub_cancel' hle]⟩)
    simp only [uuidDigits, Hex.AllDigits, List.mem_append, or_imp, forall_and] at hall
    obtain ⟨⟨⟨⟨hp₁, hp₂⟩, hp₃⟩, hp₄⟩, hp₅⟩ := hall
    by_cases hdash : i ∈ [8, 13, 18, 23]
    · rw [if_pos hdash]
      simp only [List.mem_cons, List.not_mem_nil, or_false] at hdash
      rcases hdash with rfl | rfl | rfl | rfl <;> assumption
    · rw [if_neg hdash]
      simp only [List.mem_cons, List.not_mem_nil, or_false, not_or] at hdash
      rcases show i < 8 ∨ (9 ≤ i ∧ i < 13) ∨ (14 ≤ i ∧ i < 18) ∨ (19 ≤ i ∧ i < 23) ∨
        24 ≤ i by omega with
        hlt | ⟨hle, hlt⟩ | ⟨hle, hlt⟩ | ⟨hle, hlt⟩ | hle
      · exact hpart 0 8 (by omega) (by omega) hp₁
      · exact hpart 9 4 hle hlt hp₂
      · exact hpart 14 4 hle hlt hp₃
      · exact hpart 19 4 hle hlt hp₄
      · exact hpart 24 12 hle (by omega) hp₅

/-! ## There and back -/

/-- What `arnm_uuid_from_string` takes, what it leaves of what it does not take, and what its bytes
are written as. -/
structure UuidSettles (m : Bytes) (uuid text : Nat) (r : Result × Bytes) : Prop where
  accepts : r.1 = .success ↔ IsUuid (m.read text uuidStringLength) ∧ m (text + uuidStringLength) = 0
  /-- A text of another length is refused before anything is written. -/
  length : ¬ (0 ∉ m.read text uuidStringLength ∧ m (text + uuidStringLength) = 0) →
    r = (.errorInvalidParam, m)
  refuses : 0 ∉ m.read text uuidStringLength → m (text + uuidStringLength) = 0 →
    ¬ IsUuid (m.read text uuidStringLength) → r = (.errorDecodeFailed, m.fill uuid uuidBinarySize 0)
  /-- The bytes are written as the text in lower case. -/
  lowered : r.1 = .success → ∀ hex result, Region.Apart ⟨hex, 33⟩ ⟨result, 37⟩ →
    Region.Apart ⟨hex, 33⟩ ⟨uuid, uuidBinarySize⟩ →
      (uuidToText r.2 hex result uuid).read result (uuidStringLength + 1) =
        (m.read text uuidStringLength).map Hex.lower ++ [0]

theorem IsUuid.ne_zero {text : List UInt8} (h : IsUuid text) : 0 ∉ text := by
  intro hzero
  obtain ⟨i, hi, hget⟩ := List.getElem_of_mem hzero
  have hboth := h.2 i (by rwa [← h.1])
  rw [← List.getElem_eq_getD (h := hi), hget] at hboth
  split at hboth
  · exact absurd hboth (by decide)
  · exact absurd hboth (by decide)

/-- The bytes of a text's hex are written as the text in lower case. -/
theorem uuidToString_decoded {text : Nat} {uuid : Vector UInt8 uuidBinarySize}
    (hform : IsUuid (m.read text uuidStringLength))
    (huuid : uuid.toList = Hex.decodeText (uuidDigits m text)) :
    Writer.uuidToString uuid = (m.read text uuidStringLength).map Hex.lower := by
  obtain ⟨⟨h₁, h₂, h₃, h₄⟩, hall⟩ := (isUuid_iff text).mp hform
  have hwell : Hex.WellFormed (uuidDigits m text) := by
    refine ⟨?_, hall⟩
    rw [length_uuidDigits]
    rfl
  have hdash : Hex.lower dash = dash := by decide
  rw [Writer.uuidToString, huuid, Hex.encodeText_decodeText hwell, read_uuid, h₁, h₂, h₃, h₄]
  simp [uuidDigits, List.drop_append, List.drop_of_length_le, List.take_of_length_le, hdash]

theorem uuid_settles (m : Bytes) (uuid text : Nat) :
    UuidSettles m uuid text (uuidFromString m uuid text) := by
  by_cases hlength : 0 ∉ m.read text uuidStringLength ∧ m (text + uuidStringLength) = 0
  · by_cases hform : IsUuid (m.read text uuidStringLength)
    · obtain ⟨⟨h₁, h₂, h₃, h₄⟩, hall⟩ := (isUuid_iff text).mp hform
      have hrun : uuidFromString m uuid text =
          (.success, m.put uuid (Hex.decodeText (uuidDigits m text))) := by
        rw [uuidFromString, if_neg (not_not_intro hlength), if_neg (by simp [h₁, h₂, h₃, h₄]),
          if_pos hall]
      have hsixteen : (Hex.decodeText (uuidDigits m text)).length = uuidBinarySize := by
        rw [Hex.length_decodeText, length_uuidDigits]
        rfl
      rw [hrun]
      constructor
      · exact iff_of_true rfl ⟨hform, hlength.2⟩
      · exact fun h => absurd hlength h
      · exact fun _ _ h => absurd hform h
      · intro _ hex result happart hsource
        have huuid : (readUuid (m.put uuid (Hex.decodeText (uuidDigits m text))) uuid).toList =
            Hex.decodeText (uuidDigits m text) := by
          show (m.put uuid (Hex.decodeText (uuidDigits m text))).read uuid uuidBinarySize = _
          rw [← hsixteen, Bytes.read_put]
        have htext := uuidToString_decoded hform huuid
        dsimp only
        rw [uuidToText_eq happart hsource, htext]
        have hwhole : ((m.read text uuidStringLength).map Hex.lower ++ [0]).length =
            uuidStringLength + 1 := by simp
        rw [← hwhole, Bytes.read_put]
    · have hrun :
          uuidFromString m uuid text = (.errorDecodeFailed, m.fill uuid uuidBinarySize 0) := by
        rw [uuidFromString, if_neg (not_not_intro hlength)]
        split
        · rfl
        · rename_i hdashes
          rw [if_neg]
          intro hall
          simp only [not_or, not_not, ne_eq] at hdashes
          exact hform ((isUuid_iff text).mpr ⟨hdashes, hall⟩)
      rw [hrun]
      constructor
      · exact iff_of_false Result.noConfusion fun h => hform h.1
      · exact fun h => absurd hlength h
      · exact fun _ _ _ => rfl
      · exact fun h => Result.noConfusion h
  · have hrun : uuidFromString m uuid text = (.errorInvalidParam, m) := by
      rw [uuidFromString, if_pos hlength]
    rw [hrun]
    constructor
    · exact iff_of_false Result.noConfusion fun h => hlength ⟨h.1.ne_zero, h.2⟩
    · exact fun _ => rfl
    · exact fun hno hend => absurd ⟨hno, hend⟩ hlength
    · exact fun h => Result.noConfusion h

/-- Any sixteen bytes are written as the text of a uuid, also over themselves, and that is read as
the bytes, wherever they are wanted; of all texts those of this form are read. -/
theorem uuid_codec (m : Bytes) :
    (∀ hex result uuid, Region.Apart ⟨hex, 33⟩ ⟨result, 37⟩ →
      Region.Apart ⟨hex, 33⟩ ⟨uuid, uuidBinarySize⟩ →
        let m' := uuidToText m hex result uuid
        IsUuid (m'.read result uuidStringLength) ∧ m' (result + uuidStringLength) = 0 ∧
          (∀ x, ¬ (Region.mk hex 33).Has x → ¬ (Region.mk result 37).Has x → m' x = m x) ∧
          ∀ target, uuidFromString m' target result =
            (.success, m'.put target (m.read uuid uuidBinarySize))) ∧
      ∀ uuid text, UuidSettles m uuid text (uuidFromString m uuid text) := by
  refine ⟨?_, uuid_settles m⟩
  intro hex result uuid happart hsource m'
  have hwritten : m' = _ := uuidToText_eq happart hsource
  have hlength := length_uuidToString (readUuid m uuid)
  rw [← Bytes.put_put, hlength] at hwritten
  have hread : m'.read result uuidStringLength = Writer.uuidToString (readUuid m uuid) := by
    rw [hwritten, Bytes.read_congr (Bytes.put_agreeOn (Or.inr (Nat.le_refl _))), ← hlength,
      Bytes.read_put]
  have hend : m' (result + uuidStringLength) = 0 := by
    rw [hwritten, Bytes.put, if_pos ⟨Nat.le_refl _, by simp⟩, Nat.sub_self]
    rfl
  refine ⟨?_, hend, ?_, ?_⟩
  · obtain ⟨hdigits, h₁, h₂, h₃, h₄⟩ := uuidDigits_eq hread
    rw [isUuid_iff, hdigits]
    exact ⟨⟨h₁, h₂, h₃, h₄⟩, (Hex.wellFormed_encodeText _).2⟩
  · intro x hhex hresult
    have hmax : uuidStringLength = 36 := rfl
    simp only [Region.Has, Region.stop_mk] at hhex hresult
    rw [hwritten, Bytes.put_apply_of_not (by simp; omega), Bytes.put_apply_of_not (by omega),
      Bytes.put_apply_of_not (by rw [List.length_append, length_hex, List.length_singleton]; omega)]
  · intro target
    exact uuidFromString_text hread hend

/-- Sixteen bytes of two kinds, their text read back over them, and no text where they stand. -/
theorem uuid_codec_sample :
    let m : Bytes := Bytes.put (fun _ => 0xAB) 8 [0x01, 0x23]
    let m' := uuidToText m 64 128 8
    IsUuid (m'.read 128 uuidStringLength) ∧
      uuidFromString m' 8 128 = (.success, m'.put 8 (m.read 8 uuidBinarySize)) ∧
      (uuidFromString m 64 8).1 ≠ .success := by
  intro m m'
  have hbytes : ¬ IsUuid (m.read 8 uuidStringLength) := by decide
  obtain ⟨hwritten, hsettles⟩ := uuid_codec m
  obtain ⟨hform, -, -, hback⟩ := hwritten 64 128 8 (by decide) (by decide)
  exact ⟨hform, hback 8, fun h => hbytes ((hsettles 64 8).accepts.mp h).1⟩

end Arnm.Json
