import Arnm.Text.Base64

set_option autoImplicit false

/-! # Base64 texts and their decoding

Which texts are decoded (`decodeText_isSome_iff`), and what the callers of the decoder answer for
them and for the others. -/

namespace Arnm.Base64

/-- What stands in front of two further characters is no padding. -/
theorem padded_cons {c : UInt8} {text : List UInt8} (h : 2 ≤ text.length) :
    Padded (c :: text) ↔ InAlphabet c ∧ Padded text := by
  constructor
  · rintro ⟨body, n, hn, heq, hall⟩
    cases body with
    | nil =>
        have hlength := congrArg List.length heq
        rw [List.nil_append, List.length_replicate, List.length_cons] at hlength
        omega
    | cons d body =>
        rw [List.cons_append, List.cons.injEq] at heq
        obtain ⟨rfl, rfl⟩ := heq
        exact ⟨hall c List.mem_cons_self, body, n, hn, rfl,
          fun x hx => hall x (List.mem_cons_of_mem _ hx)⟩
  · rintro ⟨hc, body, n, hn, rfl, hall⟩
    refine ⟨c :: body, n, hn, rfl, fun x hx => ?_⟩
    rcases List.mem_cons.mp hx with rfl | hx
    · exact hc
    · exact hall x hx

theorem padded_two {c d : UInt8} :
    Padded [c, d] ↔ (InAlphabet c ∨ c = pad ∧ d = pad) ∧ (InAlphabet d ∨ d = pad) := by
  constructor
  · rintro ⟨body, n, hn, heq, hall⟩
    rcases body with _ | ⟨x, _ | ⟨y, body⟩⟩
    · obtain ⟨-, hpads⟩ := List.eq_replicate_iff.mp (heq.symm ▸ List.nil_append _ : [c, d] = _)
      have hc := hpads c List.mem_cons_self
      have hd := hpads d (List.mem_cons_of_mem _ List.mem_cons_self)
      exact ⟨Or.inr ⟨hc, hd⟩, Or.inr hd⟩
    · rw [List.singleton_append, List.cons.injEq] at heq
      obtain ⟨rfl, hrest⟩ := heq
      have hd := (List.eq_replicate_iff.mp hrest).2 d List.mem_cons_self
      exact ⟨Or.inl (hall c List.mem_cons_self), Or.inr hd⟩
    · rw [List.cons_append, List.cons_append, List.cons.injEq, List.cons.injEq] at heq
      obtain ⟨rfl, rfl, -⟩ := heq
      exact ⟨Or.inl (hall c List.mem_cons_self),
        Or.inl (hall d (List.mem_cons_of_mem _ List.mem_cons_self))⟩
  · rintro ⟨hc | ⟨rfl, rfl⟩, hd⟩
    · rcases hd with hd | rfl
      · exact ⟨[c, d], 0, Nat.zero_le _, rfl, by simp [hc, hd]⟩
      · exact ⟨[c], 1, by decide, rfl, by simp [hc]⟩
    · exact ⟨[], 2, Nat.le_refl _, rfl, by simp⟩

theorem groupOf_isSome {last : Prop} [Decidable last] {a b c d : UInt8} :
    (groupOf last a b c d).isSome = true ↔ InAlphabet a ∧ InAlphabet b ∧
      (InAlphabet c ∨ c = pad ∧ last ∧ d = pad) ∧ (InAlphabet d ∨ d = pad ∧ last) := by
  unfold groupOf
  split
  · rename_i h
    exact iff_of_true rfl h
  · rename_i h
    exact iff_of_false (by simp) h

/-- A text of whole groups can be decoded iff all padding stands at its end. -/
theorem decodeText_isSome_iff {text : List UInt8} (h : text.length % 4 = 0) :
    (decodeText text).isSome = true ↔ Padded text := by
  fun_induction decodeText text with
  | case1 => exact iff_of_true rfl ⟨[], 0, Nat.zero_le _, rfl, by simp⟩
  | case2 a b c d rest ih =>
      simp only [List.length_cons] at h
      have hrest : rest.length % 4 = 0 := by omega
      have hboth : ((groupOf (rest = []) a b c d).bind fun group =>
          (decodeText rest).map fun bytes => groupBytes group ++ bytes).isSome = true ↔
          (groupOf (rest = []) a b c d).isSome = true ∧ (decodeText rest).isSome = true := by
        cases groupOf (rest = []) a b c d <;> simp
      rw [hboth, groupOf_isSome, ih hrest]
      by_cases hnil : rest = []
      · have hempty : Padded [] := ⟨[], 0, Nat.zero_le _, rfl, by simp⟩
        rw [hnil, padded_cons (by simp), padded_cons (by simp), padded_two]
        simp only [true_and, and_true, hempty]
      · -- behind a group with another one behind it there is no padding in it
        have hlength := List.length_pos_iff.mpr hnil
        rw [padded_cons (by simp), padded_cons (by simp), padded_cons (by simp; omega),
          padded_cons (by omega)]
        simp only [hnil, false_and, and_false, or_false, and_assoc]
  | case3 text hnil hcons =>
      rcases text with _ | ⟨a, _ | ⟨b, _ | ⟨c, _ | ⟨d, rest⟩⟩⟩⟩
      · exact absurd rfl hnil
      · simp at h
      · simp at h
      · simp at h
      · exact absurd rfl (hcons a b c d rest)

theorem wellFormed_iff {text : List UInt8} (h : text.length % 4 = 0) :
    WellFormed text ↔ ∃ bytes, decodeText text = some bytes := by
  rw [← Option.isSome_iff_exists, decodeText_isSome_iff h]
  exact ⟨And.right, fun hpadded => ⟨h, hpadded⟩⟩

/-- Each group has three bytes. -/
theorem length_decodeText {text bytes : List UInt8} (h : decodeText text = some bytes) :
    bytes.length = text.length / 4 * 3 := by
  fun_induction decodeText text generalizing bytes with
  | case1 =>
      cases h
      rfl
  | case2 a b c d rest ih =>
      obtain ⟨group, -, hmap⟩ := Option.bind_eq_some_iff.mp h
      obtain ⟨more, hmore, rfl⟩ := Option.map_eq_some_iff.mp hmap
      have hlength := ih hmore
      rw [List.length_append, hlength, show (groupBytes group).length = 3 from rfl]
      simp only [List.length_cons]
      omega
  | case3 => cases h

/-! ## What a text announces -/

/-- Eight bits of the characters of the alphabet make a byte. -/
def byteCount (text : List UInt8) : Nat := text.countP (fun c => decide (InAlphabet c)) * 6 / 8

@[simp] theorem announced_nil : announced [] = 0 := Nat.zero_sub _

theorem announced_le (text : List UInt8) : announced text ≤ text.length / 4 * 3 := Nat.sub_le _ _

/-- The padding of a text is what its last two characters say it is. -/
theorem paddingOf_append {body : List UInt8} {n : Nat} (hn : n ≤ 2) (hbody : 2 ≤ body.length)
    (hall : ∀ c ∈ body, InAlphabet c) : paddingOf (body ++ List.replicate n pad) = n := by
  have hlast : ∀ k, k < body.length → body.getD k 0 ≠ pad := by
    intro k hk heq
    rw [← List.getElem_eq_getD (h := hk)] at heq
    exact not_inAlphabet_pad (heq ▸ hall _ (List.getElem_mem hk))
  unfold paddingOf
  rw [List.length_append, List.length_replicate]
  have hn' : n = 0 ∨ n = 1 ∨ n = 2 := by omega
  rcases hn' with rfl | rfl | rfl
  · rw [List.replicate_zero, List.append_nil, if_pos (hlast _ (by omega))]
  · rw [if_neg, if_neg]
    · rw [List.getD_append _ _ _ _ (by omega)]
      exact hlast _ (by omega)
    · rw [List.getD_append_right _ _ _ _ (by omega), Nat.add_sub_cancel, Nat.sub_self]
      exact not_not_intro rfl
  · rw [if_neg, if_pos]
    · rw [List.getD_append_right _ _ _ _ (by omega), Nat.add_sub_cancel, Nat.sub_self]
      rfl
    · rw [List.getD_append_right _ _ _ _ (by omega),
        show body.length + 2 - 1 - body.length = 1 by omega]
      exact not_not_intro rfl

/-- A well-formed text announces the bytes that its characters make. -/
theorem announced_eq {text : List UInt8} (h : WellFormed text) :
    announced text = byteCount text := by
  obtain ⟨hlength, body, n, hn, rfl, hall⟩ := h
  have hcount : (body ++ List.replicate n pad).countP (fun c => decide (InAlphabet c)) =
      body.length := by
    rw [List.countP_append, List.countP_eq_length.mpr (by simpa using hall),
      List.countP_eq_zero.mpr, Nat.add_zero]
    intro c hc
    rw [List.eq_of_mem_replicate hc]
    decide
  unfold announced byteCount
  rw [hcount]
  rw [List.length_append, List.length_replicate] at hlength ⊢
  by_cases hbody : 2 ≤ body.length
  · rw [paddingOf_append hn hbody hall]
    omega
  · -- a text of less than two characters of the alphabet is empty
    have hnil : body = [] := List.eq_nil_of_length_eq_zero (by omega)
    have hzero : n = 0 := by
      rw [hnil, List.length_nil] at hlength
      omega
    rw [hnil, hzero]
    rfl

/-- The bytes of a text, where it has any. -/
def decoded (text : List UInt8) : List UInt8 := ((decodeText text).getD []).take (announced text)

theorem length_decoded {text : List UInt8} (h : WellFormed text) :
    (decoded text).length = byteCount text := by
  obtain ⟨bytes, hbytes⟩ := (wellFormed_iff h.1).mp h
  have hlength := length_decodeText hbytes
  have hle := announced_le text
  rw [decoded, hbytes, Option.getD_some, List.length_take, ← announced_eq h]
  omega

/-! ## The callers of the decoder -/

/-- What a decoder does with a text, when it writes to `target`. -/
def outcome (m : Bytes) (target outSize : Nat) (text : List UInt8) : Result × Nat × Bytes :=
  if text.length % 4 ≠ 0 then (.errorInvalidParam, outSize, m)
  else
    match decodeText text with
    | none => (.errorDecodeFailed, outSize, m.fill target (announced text) 0)
    | some bytes => (.success, announced text % 2 ^ 32, m.put target (bytes.take (announced text)))

/-- The bytes a text announces lie apart from it, or are written over it. -/
theorem clear_announced {m : Bytes} {result base64 length : Nat}
    (h : Region.Apart ⟨result, length / 4 * 3⟩ ⟨base64, length⟩ ∨ result = base64) :
    Region.Apart ⟨result, announced (m.read base64 length)⟩ ⟨base64, length⟩ ∨ result = base64 := by
  have hle := announced_le (m.read base64 length)
  rw [Bytes.length_read] at hle
  refine h.imp_left fun hapart => hapart.within ⟨Nat.le_refl _, ?_⟩ (Region.Within.refl _)
  exact Nat.add_le_add_left hle result

theorem binaryFromBase64_spec {m : Bytes} {result outSize base64 length : Nat}
    (hclear : Region.Apart ⟨result, length / 4 * 3⟩ ⟨base64, length⟩ ∨ result = base64) :
    binaryFromBase64 m result outSize base64 length =
      outcome m result outSize (m.read base64 length) := by
  unfold binaryFromBase64 outcome
  rw [Bytes.length_read]
  by_cases hzero : length = 0
  · subst hzero
    rw [if_pos rfl, if_neg (by decide), Bytes.read_zero, announced_nil]
    show _ = (Result.success, 0, m.put result [])
    rw [Bytes.put_nil]
  rw [if_neg hzero]
  by_cases hlength : length % 4 = 0
  · have hsize : length / 4 * 3 - padding m base64 length = announced (m.read base64 length) := by
      rw [announced, padding_eq m base64 (by omega), Bytes.length_read]
    have hdecode := decodeInto_spec (m := m) hlength (clear_announced (m := m) hclear)
    rw [if_neg (not_not_intro hlength), if_neg (not_not_intro hlength), hsize]
    dsimp only
    rw [hdecode]
    cases decodeText (m.read base64 length) with
    | none => rfl
    | some bytes => rfl
  · rw [if_pos hlength, if_pos hlength]

/-- Decoding in place is decoding with the text as the target. -/
theorem binaryFromBase64Insitu_eq (m : Bytes) (base64 length outSize : Nat) :
    binaryFromBase64Insitu m base64 length outSize =
      binaryFromBase64 m base64 outSize base64 length := rfl

/-- What a text is said to decode to, before it is. -/
theorem base64BinarySize_spec {m : Bytes} {base64 length outSize : Nat} (hmax : length < 2 ^ 32)
    (hlength : length % 4 = 0) :
    base64BinarySize m base64 length outSize = (.success, announced (m.read base64 length)) := by
  unfold base64BinarySize
  rw [if_neg (not_not_intro hlength)]
  by_cases hzero : length = 0
  · rw [if_pos hzero, hzero, Bytes.read_zero, announced_nil]
  rw [if_neg hzero]
  have hpadding := padding_eq m base64 (show 2 ≤ length by omega)
  have hsame : (if m (base64 + (length - 1)) = pad then
      (if m (base64 + (length - 2)) = pad then 2 else 1) else 0) = padding m base64 length := by
    unfold padding
    split <;> simp_all
  have hle : padding m base64 length ≤ 2 := by
    unfold padding
    split
    · exact Nat.zero_le _
    · split
      · exact Nat.le_refl _
      · exact Nat.le_succ _
  dsimp only
  rw [hsame, binarySize, announced, ← hpadding, Bytes.length_read]
  congr 1
  omega

/-- A decoder was given a text of which `sizeOf` says what it decodes to. -/
structure Settles (m : Bytes) (target outSize : Nat) (text : List UInt8)
    (sizeOf : Result × Nat) (r : Result × Nat × Bytes) : Prop where
  /-- The texts that are decoded. -/
  accepts : r.1 = .success ↔ WellFormed text
  /-- The size announced is the size decoded, and that many bytes are written. -/
  decodes : WellFormed text → sizeOf = (.success, r.2.1) ∧ (decoded text).length = r.2.1 ∧
    r.2.2 = m.put target (decoded text)
  /-- No whole groups. -/
  uneven : text.length % 4 ≠ 0 → r = (.errorInvalidParam, outSize, m)
  /-- Whole groups that are not all characters of the alphabet. -/
  refuses : text.length % 4 = 0 → ¬ WellFormed text → ∃ size, sizeOf = (.success, size) ∧
    r = (.errorDecodeFailed, outSize, m.fill target size 0)

theorem settles_outcome {m : Bytes} {target outSize base64 length size₀ : Nat}
    (hmax : length < 2 ^ 32) :
    Settles m target outSize (m.read base64 length) (base64BinarySize m base64 length size₀)
      (outcome m target outSize (m.read base64 length)) := by
  have hlength := Bytes.length_read m base64 length
  -- a length that is no multiple of four is refused before a character is read
  by_cases heven : length % 4 = 0
  · have hsize := @base64BinarySize_spec m base64 length size₀ hmax heven
    have hwell := @wellFormed_iff (m.read base64 length) (by rwa [hlength])
    have hle := announced_le (m.read base64 length)
    rw [hlength] at hle
    have heven' : ¬ (m.read base64 length).length % 4 ≠ 0 := by
      rw [hlength]
      exact not_not_intro heven
    rw [hsize]
    unfold outcome
    rw [if_neg heven']
    cases htext : decodeText (m.read base64 length) with
    | none =>
        have hill : ¬ WellFormed (m.read base64 length) := by
          rw [hwell, htext]
          simp
        exact ⟨iff_of_false nofun hill, fun h => absurd h hill, fun h => absurd h heven',
          fun _ _ => ⟨_, rfl, rfl⟩⟩
    | some bytes =>
        have hgood : WellFormed (m.read base64 length) := hwell.mpr ⟨bytes, htext⟩
        have hcount :
            announced (m.read base64 length) % 2 ^ 32 = announced (m.read base64 length) :=
          Nat.mod_eq_of_lt (by omega)
        refine ⟨iff_of_true rfl hgood, fun _ => ⟨?_, ?_, ?_⟩, fun h => absurd h heven',
          fun _ h => absurd hgood h⟩
        · rw [hcount]
        · rw [hcount, length_decoded hgood, announced_eq hgood]
        · rw [decoded, htext, Option.getD_some]
  · have hodd : (m.read base64 length).length % 4 ≠ 0 := by rwa [hlength]
    have hill : ¬ WellFormed (m.read base64 length) := fun h => hodd h.1
    unfold outcome
    rw [if_pos hodd]
    exact ⟨iff_of_false nofun hill, fun h => absurd h hill, fun _ => rfl, fun h => absurd h hodd⟩

/-- Both decoders take exactly the well-formed texts, decode them to as many bytes as
`arnm_base64_binary_size` announces, and leave what they refuse untouched or zeroed. -/
theorem decoders_settle {m : Bytes} {result outSize base64 length size₀ : Nat}
    (hmax : length < 2 ^ 32)
    (happart : Region.Apart ⟨result, length / 4 * 3⟩ ⟨base64, length⟩) :
    Settles m result outSize (m.read base64 length) (base64BinarySize m base64 length size₀)
        (binaryFromBase64 m result outSize base64 length) ∧
      Settles m base64 outSize (m.read base64 length) (base64BinarySize m base64 length size₀)
        (binaryFromBase64Insitu m base64 length outSize) := by
  rw [binaryFromBase64Insitu_eq, binaryFromBase64_spec (Or.inl happart),
    binaryFromBase64_spec (Or.inr rfl)]
  exact ⟨settles_outcome hmax, settles_outcome hmax⟩

/-- The eight characters `QUJDREU=`, which stand for five bytes. -/
def sampleText : Bytes :=
  Bytes.put (fun _ => 0) 8 [0x51, 0x55, 0x4A, 0x44, 0x52, 0x45, 0x55, 0x3D]

theorem wellFormed_sampleText : WellFormed (sampleText.read 8 8) := by
  have hbody : ([0x51, 0x55, 0x4A, 0x44, 0x52, 0x45, 0x55] : List UInt8).all
      (fun c => decide (InAlphabet c)) = true := rfl
  refine ⟨by rw [Bytes.length_read], [0x51, 0x55, 0x4A, 0x44, 0x52, 0x45, 0x55],
    1, by decide, rfl, ?_⟩
  intro c hc
  exact of_decide_eq_true (List.all_eq_true.mp hbody c hc)

/-- Elsewhere and in place; the first seven characters are no whole groups. -/
theorem decoders_settle_sample :
    let r := binaryFromBase64 sampleText 32 0 8 8
    let s := binaryFromBase64Insitu sampleText 8 8 0
    (r.1 = .success ∧ r.2.1 = 5 ∧ r.2.2.read 32 5 = [0x41, 0x42, 0x43, 0x44, 0x45]) ∧
    (s.1 = .success ∧ s.2.1 = 5 ∧ s.2.2.read 8 5 = [0x41, 0x42, 0x43, 0x44, 0x45]) ∧
    binaryFromBase64 sampleText 32 0 8 7 = (.errorInvalidParam, 0, sampleText) := by
  intro r s
  have hbytes : decoded (sampleText.read 8 8) = [0x41, 0x42, 0x43, 0x44, 0x45] := by decide
  obtain ⟨hr, hs⟩ := @decoders_settle sampleText 32 0 8 8 0 (by decide) (by decide)
  obtain ⟨-, hrlength, hrmemory⟩ := hr.decodes wellFormed_sampleText
  obtain ⟨-, hslength, hsmemory⟩ := hs.decodes wellFormed_sampleText
  rw [hbytes] at hrlength hrmemory hslength hsmemory
  refine ⟨⟨hr.accepts.mpr wellFormed_sampleText, hrlength.symm, ?_⟩,
    ⟨hs.accepts.mpr wellFormed_sampleText, hslength.symm, ?_⟩, ?_⟩
  · show Bytes.read (binaryFromBase64 sampleText 32 0 8 8).2.2 32 5 = _
    rw [hrmemory]
    exact Bytes.read_put _ _ _
  · show Bytes.read (binaryFromBase64Insitu sampleText 8 8 0).2.2 8 5 = _
    rw [hsmemory]
    exact Bytes.read_put _ _ _
  · exact (@decoders_settle sampleText 32 0 8 7 0 (by decide) (by decide)).1.uneven (by
      rw [Bytes.length_read]
      decide)

/-! ## Decoding in place -/

/-- The memory and the number of bytes written in front of a group, if it is reached. -/
def afterGroups (result base64 length binarySize : Nat) :
    Nat → Nat → Bytes × Nat → Option (Bytes × Nat)
  | 0, _, s => some s
  | n + 1, i, s =>
    (readGroup s.1 base64 length i 4 0 0).bind fun group =>
      afterGroups result base64 length binarySize n (i + 4)
        ([group >>> 16, group >>> 8, group].foldl (putByte result binarySize) s)

/-- The decoder goes on from the group it has reached. -/
theorem decodeGroups_add {result base64 length binarySize : Nat} (n k : Nat) {i : Nat}
    {s t : Bytes × Nat} (h : afterGroups result base64 length binarySize n i s = some t) :
    decodeGroups result base64 length binarySize (k + n) i s =
      decodeGroups result base64 length binarySize k (i + 4 * n) t := by
  induction n generalizing i s with
  | zero =>
      cases h
      rfl
  | succ n ih =>
      obtain ⟨group, hgroup, hafter⟩ := Option.bind_eq_some_iff.mp h
      rw [← Nat.add_assoc, decodeGroups, hgroup]
      have hnext := ih hafter
      rw [show i + 4 + 4 * n = i + 4 * (n + 1) by omega] at hnext
      exact hnext

/-- At most three bytes were written for each group, one behind the other. -/
theorem afterGroups_put {result base64 length binarySize : Nat} (n : Nat) {i out : Nat} {m : Bytes}
    {t : Bytes × Nat} (hout : out ≤ binarySize)
    (h : afterGroups result base64 length binarySize n i (m, out) = some t) :
    ∃ written, t = (m.put (result + out) written, out + written.length) ∧
      written.length ≤ 3 * n := by
  induction n generalizing i out m with
  | zero =>
      cases h
      exact ⟨[], by rw [Bytes.put_nil]; rfl, Nat.zero_le _⟩
  | succ n ih =>
      obtain ⟨group, -, hafter⟩ := Option.bind_eq_some_iff.mp h
      rw [foldl_putByte _ _ _ _ hout] at hafter
      generalize hpart : (([group >>> 16, group >>> 8, group].map fun byte =>
        UInt8.ofNat (byte &&& 0xFF)).take (binarySize - out)) = part at hafter
      have hlength : part.length = min 3 (binarySize - out) := by
        rw [← hpart, List.length_take, Nat.min_comm]
        rfl
      rw [show [group >>> 16, group >>> 8, group].length = 3 from rfl, ← hlength] at hafter
      obtain ⟨written, rfl, hle⟩ := ih (by omega) hafter
      refine ⟨part ++ written, ?_, ?_⟩
      · rw [← Nat.add_assoc, Bytes.put_put, List.length_append, Nat.add_assoc]
      · rw [List.length_append]
        omega

/-- Decoding a text over itself gives the answer and the bytes that decoding it elsewhere gives. In
front of each group, what has been written lies apart from all that is still to be read, and the
decoder goes on from there. -/
theorem decodeInto_insitu {m : Bytes} {result base64 length binarySize : Nat}
    (hlength : length % 4 = 0) (hsize : binarySize ≤ length / 4 * 3)
    (happart : Region.Apart ⟨result, binarySize⟩ ⟨base64, length⟩) :
    let s := decodeInto m base64 base64 length binarySize
    let r := decodeInto m result base64 length binarySize
    s.1 = r.1 ∧ s.2.read base64 binarySize = r.2.read result binarySize ∧
      (∀ x, ¬ (Region.mk base64 binarySize).Has x → s.2 x = m x) ∧
      ∀ g t, afterGroups base64 base64 length binarySize g 0 (m, 0) = some t →
        ∃ written, t.1 = m.put base64 written ∧
          Region.Apart ⟨base64, written.length⟩ ⟨base64 + 4 * g, length - 4 * g⟩ ∧
          (g ≤ length / 4 →
            s = decodeGroups base64 base64 length binarySize (length / 4 - g) (4 * g) t) := by
  intro s r
  have hsame : Region.Apart ⟨base64, binarySize⟩ ⟨base64, length⟩ ∨ base64 = base64 := Or.inr rfl
  have hs := decodeInto_spec (m := m) hlength hsame
  have hr := decodeInto_spec (m := m) hlength (Or.inl happart)
  -- a group of four gives three bytes at most, so the writes stay behind the reads
  have hahead : ∀ g t, afterGroups base64 base64 length binarySize g 0 (m, 0) = some t →
      ∃ written, t.1 = m.put base64 written ∧
        Region.Apart ⟨base64, written.length⟩ ⟨base64 + 4 * g, length - 4 * g⟩ ∧
        (g ≤ length / 4 →
          s = decodeGroups base64 base64 length binarySize (length / 4 - g) (4 * g) t) := by
    intro g t ht
    have hrest := decodeGroups_add g (length / 4 - g) ht
    obtain ⟨written, rfl, hle⟩ := afterGroups_put g (Nat.zero_le _) ht
    refine ⟨written, rfl, Or.inl ?_, ?_⟩
    · simp only [Region.stop_mk]
      omega
    · intro hg
      rw [Nat.zero_add] at hrest
      rw [← hrest]
      show decodeGroups base64 base64 length binarySize ((length + 3) / 4) 0 (m, 0) = _
      congr 1
      omega
  cases htext : decodeText (m.read base64 length) with
  | none =>
      rw [htext] at hs hr
      have hzeros : ∀ addr, (m.fill addr binarySize 0).read addr binarySize =
          List.replicate binarySize 0 := fun addr => Bytes.read_fill (Region.Within.refl _)
      refine ⟨?_, ?_, fun x hx => ?_, hahead⟩
      · rw [show s = _ from hs, show r = _ from hr]
      · rw [show s = _ from hs, show r = _ from hr, hzeros, hzeros]
      · rw [show s = _ from hs]
        refine Bytes.put_apply_of_not fun hin => hx ?_
        rwa [List.length_replicate] at hin
  | some bytes =>
      rw [htext] at hs hr
      have hcount : (bytes.take binarySize).length = binarySize := by
        rw [List.length_take, length_decodeText htext, Bytes.length_read]
        omega
      have hwritten : ∀ addr, (m.put addr (bytes.take binarySize)).read addr binarySize =
          bytes.take binarySize := by
        intro addr
        have hput := Bytes.read_put m addr (bytes.take binarySize)
        rwa [hcount] at hput
      refine ⟨?_, ?_, fun x hx => ?_, hahead⟩
      · rw [show s = _ from hs, show r = _ from hr]
      · rw [show s = _ from hs, show r = _ from hr, hwritten, hwritten]
      · rw [show s = _ from hs]
        refine Bytes.put_apply_of_not fun hin => hx ?_
        rwa [hcount] at hin

/-- Two groups over themselves; the second is decoded behind the three bytes of the first. -/
theorem decodeInto_insitu_sample :
    let s := decodeInto sampleText 8 8 8 5
    s.1 = (decodeInto sampleText 32 8 8 5).1 ∧ s.2.read 8 5 = [0x41, 0x42, 0x43, 0x44, 0x45] ∧
      s.2 13 = 0x45 ∧ s.2 15 = 0x3D ∧
      ∃ t, afterGroups 8 8 8 5 1 0 (sampleText, 0) = some t ∧ t.2 = 3 ∧
        s = decodeGroups 8 8 8 5 1 4 t := by
  intro s
  obtain ⟨hanswer, hbytes, hrest, hahead⟩ :=
    @decodeInto_insitu sampleText 32 8 8 5 (by decide) (by decide) (by decide)
  refine ⟨hanswer, hbytes.trans (by decide), (hrest 13 ?_).trans (by decide),
    (hrest 15 ?_).trans (by decide), ?_⟩
  · exact fun hin => absurd hin.2 (by decide)
  · exact fun hin => absurd hin.2 (by decide)
  · obtain ⟨-, -, -, hgoes⟩ := hahead 1 _ rfl
    exact ⟨_, rfl, rfl, hgoes (by decide)⟩

/-! ## Sizes beyond 32 bits -/

/-- A string: so many characters in front of the first NUL. -/
structure IsString (m : Bytes) (addr length : Nat) : Prop where
  characters : ∀ c ∈ m.read addr length, c ≠ 0
  terminator : m (addr + length) = 0

/-- A text that is decoded is decoded whole and its size is told; a size that 32 bits do not hold is
refused. -/
structure SizeKept (m : Bytes) (result : Nat) (text : List UInt8) (r : Result × Nat × Bytes) :
    Prop where
  whole : r.1 = .success → WellFormed text ∧ r.2.1 = byteCount text ∧
    r.2.2 = m.put result (decoded text)
  refused : WellFormed text → 2 ^ 32 ≤ byteCount text → r.1 = .errorArithmeticOverflow

/-- What a well-formed text is decoded to, however long it is. -/
theorem outcome_of_wellFormed {m : Bytes} {target outSize : Nat} {text : List UInt8}
    (h : WellFormed text) :
    outcome m target outSize text =
      (.success, byteCount text % 2 ^ 32, m.put target (decoded text)) := by
  obtain ⟨bytes, hbytes⟩ := (wellFormed_iff h.1).mp h
  unfold outcome decoded
  rw [if_neg (not_not_intro h.1), hbytes, announced_eq h]
  rfl

theorem outcome_of_not_wellFormed {m : Bytes} {target outSize : Nat} {text : List UInt8}
    (h : ¬ WellFormed text) : (outcome m target outSize text).1 ≠ .success := by
  unfold outcome
  split
  · nofun
  · rename_i hlength
    have hnone : decodeText text = none := by
      rw [wellFormed_iff (not_not.mp hlength)] at h
      cases hbytes : decodeText text with
      | none => rfl
      | some bytes => exact absurd ⟨bytes, hbytes⟩ h
    rw [hnone]
    nofun

/-- The size is kept exactly of the texts whose bytes 32 bits can count; of the others it wraps. -/
theorem binaryFromBase64_sizeKept_iff {m : Bytes} {result outSize base64 length : Nat}
    (happart : Region.Apart ⟨result, length / 4 * 3⟩ ⟨base64, length⟩) :
    SizeKept m result (m.read base64 length) (binaryFromBase64 m result outSize base64 length) ↔
      ¬ (WellFormed (m.read base64 length) ∧ 2 ^ 32 ≤ byteCount (m.read base64 length)) := by
  rw [binaryFromBase64_spec (Or.inl happart)]
  by_cases hwell : WellFormed (m.read base64 length)
  · rw [outcome_of_wellFormed hwell]
    constructor
    · rintro ⟨-, hrefused⟩ ⟨-, hlarge⟩
      exact absurd (hrefused hwell hlarge) nofun
    · intro hsmall
      have hlt : byteCount (m.read base64 length) < 2 ^ 32 :=
        Nat.lt_of_not_le fun hle => hsmall ⟨hwell, hle⟩
      exact ⟨fun _ => ⟨hwell, Nat.mod_eq_of_lt hlt, rfl⟩,
        fun _ hle => absurd hle (Nat.not_le_of_lt hlt)⟩
  · have hrefused := @outcome_of_not_wellFormed m result outSize _ hwell
    exact iff_of_true ⟨fun hok => absurd hok hrefused, fun h => absurd h hwell⟩
      fun h => hwell h.1

theorem binaryFromBase64_sizeKept_iff_sample :
    SizeKept sampleText 32 (sampleText.read 8 8) (binaryFromBase64 sampleText 32 0 8 8) := by
  refine (binaryFromBase64_sizeKept_iff (by decide)).mpr fun h => ?_
  exact absurd h.2 (by decide)

/-- A memory with `length` characters `A` and a NUL behind them. -/
def manyAs (length : Nat) : Bytes := fun x => if x < 8 + length then 0x41 else 0

theorem read_manyAs (length : Nat) :
    (manyAs length).read 8 length = List.replicate length 0x41 := by
  refine List.eq_replicate_iff.mpr ⟨Bytes.length_read _ _ _, fun c hc => ?_⟩
  obtain ⟨k, hk, rfl⟩ := List.mem_map.mp hc
  exact if_pos (Nat.add_lt_add_left (List.mem_range.mp hk) 8)

theorem isString_manyAs (length : Nat) : IsString (manyAs length) 8 length := by
  refine ⟨fun c hc => ?_, if_neg (Nat.lt_irrefl _)⟩
  rw [read_manyAs] at hc
  rw [List.eq_of_mem_replicate hc]
  decide

theorem wellFormed_replicate {n : Nat} (h : n % 4 = 0) : WellFormed (List.replicate n 0x41) := by
  refine ⟨by rwa [List.length_replicate], List.replicate n 0x41, 0, Nat.zero_le _, ?_,
    fun c hc => ?_⟩
  · rw [List.replicate_zero, List.append_nil]
  · rw [List.eq_of_mem_replicate hc]
    decide

theorem byteCount_replicate (n : Nat) : byteCount (List.replicate n 0x41) = n * 6 / 8 := by
  have hcount : (List.replicate n (0x41 : UInt8)).countP (fun c => decide (InAlphabet c)) = n := by
    rw [List.countP_replicate]
    exact if_pos (by decide)
  rw [byteCount, hcount]

/-- 5726623064 characters stand for 4294967298 bytes, and are decoded with a size of 2. -/
theorem binaryFromBase64_wraps :
    let length := 5726623064
    let r := binaryFromBase64 (manyAs length) (length + 16) 0 8 length
    IsString (manyAs length) 8 length ∧ r.1 = .success ∧ r.2.1 = 2 ∧
      byteCount ((manyAs length).read 8 length) = 4294967298 ∧
      ¬ SizeKept (manyAs length) (length + 16) ((manyAs length).read 8 length) r := by
  intro length r
  have hread := read_manyAs length
  have hwell : WellFormed ((manyAs length).read 8 length) := by
    rw [hread]
    exact wellFormed_replicate (by decide)
  have hcount : byteCount ((manyAs length).read 8 length) = 4294967298 := by
    rw [hread, byteCount_replicate]
    show 5726623064 * 6 / 8 = 4294967298
    norm_num
  have hr : r = (.success, 2,
      (manyAs length).put (length + 16) (decoded ((manyAs length).read 8 length))) := by
    have hspec := @binaryFromBase64_spec (manyAs length) (length + 16) 0 8 length
      (Or.inl (Or.inr (by decide)))
    rw [outcome_of_wellFormed hwell, hcount] at hspec
    exact hspec
  refine ⟨isString_manyAs length, by rw [hr], by rw [hr], hcount, fun hkept => ?_⟩
  have hrefused := hkept.refused hwell (by rw [hcount]; decide)
  rw [hr] at hrefused
  cases hrefused

end Arnm.Base64
