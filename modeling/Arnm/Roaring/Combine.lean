import Arnm.Roaring.Emit
import Arnm.Roaring.Ops

set_option autoImplicit false

/-! # One key of a set operation

Two parts of one key, each an array or a bitmap, are combined inside a range of low parts. Every
pairing of kinds has its own loop; all of them emit `selected`, the low parts of the range the
operation selects.
-/

namespace Arnm.Roaring

open Listing Words Memory Lending

variable {σ : Type} {L : BlockPool σ} {s : σ}

/-! ## What an operation selects -/

namespace WordOp

/-- The operation on membership. -/
def Holds : WordOp → Prop → Prop → Prop
  | .and, p, q => p ∧ q
  | .or, p, q => p ∨ q
  | .andnot, p, q => p ∧ ¬ q

instance (op : WordOp) (p q : Prop) [Decidable p] [Decidable q] : Decidable (op.Holds p q) := by
  cases op <;> unfold Holds <;> infer_instance

theorem has_apply (op : WordOp) (ws ws' : Array64) (i : Nat) :
    Has (fun w => op.apply (ws w) (ws' w)) i ↔ op.Holds (Has ws i) (Has ws' i) := by
  have hi : i % 64 < 64 := Nat.mod_lt _ (by decide)
  cases op with
  | and => simp [Has, apply, Holds]
  | or => simp [Has, apply, Holds]
  | andnot => simp [Has, apply, Holds, hi]

end WordOp

/-- The low parts of a range the operation selects. -/
def selected (op : WordOp) (low high : Nat) (xs ys : List Nat) : List Nat :=
  below 65536 fun i => low ≤ i ∧ i ≤ high ∧ op.Holds (i ∈ xs) (i ∈ ys)

/-! ## The parts -/

/-- A part the operations combine: an array of at most `arrayMax` low parts or a bitmap. -/
structure Container.Plain (c : Container) : Prop where
  readable : c.Readable
  not_wide : c.isWide = false
  length_le : c.arrayOf.length ≤ arrayMax

/-- A part of a valid set, with sparse values copied, is plain. -/
theorem Bitmap.Valid.plain_partAt {set : Bitmap} (hv : set.Valid) {key : Nat} {c : Container}
    (h : set.partAt true key = some c) : c.Plain := by
  have hread := hv.readable_partAt h
  rcases hv.form with hf | hf
  · rw [Bitmap.partAt, if_pos (Bitmap.isSparse_iff.mpr hf.containers_eq)] at h
    simp only at h
    split at h
    · cases h
    · cases h
      refine ⟨hread, rfl, ?_⟩
      have hle :=
        (List.filter_sublist (p := fun v => decide (keyOf v = key)) (l := set.values)).length_le
      have := hf.length_le
      simp only [Bitmap.view, Container.arrayOf, if_true, List.length_map, arrayMax]
      simp only [sparseMax] at this
      omega
  · rw [Bitmap.partAt, if_neg (fun hs => hf.containers_ne (Bitmap.isSparse_iff.mp hs))] at h
    have hcontent := (hf.valid c (List.mem_of_find?_eq_some h)).content
    refine ⟨hread, ?_, ?_⟩
    · unfold Container.isWide
      cases hk : c.content with
      | array values => rfl
      | bitmap words => rfl
      | wide values => rw [hk] at hcontent; exact hcontent.elim
    · unfold Container.arrayOf
      cases hk : c.content with
      | array values => rw [hk] at hcontent; exact hcontent.2.2.1
      | bitmap words => exact Nat.zero_le _
      | wide values => exact Nat.zero_le _

section Clip

variable {c x y : Container} {low high : Nat}

theorem Container.array_of_isArray (ha : c.isArray = true) :
    c.content = .array c.arrayOf ∧ c.lows = c.arrayOf := by
  unfold Container.isArray at ha
  unfold Container.arrayOf Container.lows
  cases hk : c.content with
  | array values => exact ⟨rfl, rfl⟩
  | bitmap words => rw [hk] at ha; cases ha
  | wide values => rw [hk] at ha; cases ha

theorem Container.Plain.bitmap (h : c.Plain) (ha : ¬ c.isArray = true) :
    c.lows = below 65536 (Has c.wordsOf) := by
  have hw := h.not_wide
  unfold Container.isArray at ha
  unfold Container.isWide at hw
  unfold Container.wordsOf Container.lows
  cases hk : c.content with
  | array values => rw [hk] at ha; exact absurd rfl ha
  | bitmap words => rfl
  | wide values => rw [hk] at hw; cases hw

theorem Container.Plain.has_iff (h : c.Plain) (ha : ¬ c.isArray = true) {i : Nat} (hi : i < 65536) :
    Has c.wordsOf i ↔ i ∈ c.lows := by
  rw [h.bitmap ha, mem_below]
  exact ⟨fun hh => ⟨hi, hh⟩, fun hh => hh.2⟩

theorem Container.Plain.within_length_le (h : c.Plain) (ha : c.isArray = true) :
    (c.within low high).length ≤ arrayMax := by
  have hlows := (Container.array_of_isArray ha).2
  calc (c.within low high).length ≤ c.lows.length := List.length_filter_le _ _
    _ = c.arrayOf.length := by rw [hlows]
    _ ≤ arrayMax := h.length_le

theorem Container.Plain.pairwise_within (h : c.Plain) : (c.within low high).Pairwise (· < ·) :=
  h.readable.pairwise_lows.filter _

theorem Container.Plain.lt_of_mem_within (h : c.Plain) {i : Nat} (hi : i ∈ c.within low high) :
    i < 65536 := h.readable.lt_of_mem (mem_within.mp hi).1

@[simp] theorem makeClip_container : (makeClip c low high).container = c := by
  unfold makeClip
  split <;> rfl

@[simp] theorem makeClip_low : (makeClip c low high).low = low := by
  unfold makeClip
  split <;> rfl

@[simp] theorem makeClip_high : (makeClip c low high).high = high := by
  unfold makeClip
  split <;> rfl

/-- The clip of an array is its entries inside the range. -/
theorem makeClip_entries (h : c.Plain) (ha : c.isArray = true) (hle : low ≤ high)
    (hh : high < 65536) :
    (makeClip c low high).entries = c.within low high ∧
      (makeClip c low high).endAt - (makeClip c low high).begin = (c.within low high).length := by
  have hb : c.isBitmap = false := by
    unfold Container.isBitmap
    rw [(Container.array_of_isArray ha).1]
  obtain ⟨hrest, hbegin, hend⟩ := rangeSpan_spec h.readable hb hle hh
  have hspan : (rangeSpan c low high).rest = (makeClip c low high).entries ∧
      (rangeSpan c low high).begin = (makeClip c low high).begin ∧
      (rangeSpan c low high).endAt = (makeClip c low high).endAt ∧
      (rangeSpan c low high).values = c.arrayOf := by
    simp only [rangeSpan, makeClip, Clip.entries, Span.rest, (Container.array_of_isArray ha).1]
    exact ⟨trivial, trivial, trivial, trivial⟩
  have hid : lowAt c = id := by
    funext v
    simp only [lowAt, (Container.array_of_isArray ha).1, id_eq]
  rw [hid, List.map_id] at hrest
  refine ⟨hspan.1 ▸ hrest, ?_⟩
  rw [← hrest, Span.rest, List.length_take, List.length_drop, ← hspan.2.1, ← hspan.2.2.1]
  omega

end Clip

/-! ## Emitting what is selected -/

section Emit

variable {out : Bitmap} {key low high : Nat} {values : List Nat}

/-- An array with the entries of a predicate emits these. -/
theorem emitArray_below {p : Nat → Prop} [DecidablePred p] (h : out.Under key) (hk : key < 65536)
    (hs : values.Pairwise (· < ·)) (hlen : values.length ≤ arrayMax)
    (hm : ∀ i, i ∈ values ↔ i < 65536 ∧ p i) :
    Emits L out key (below 65536 p) s (emitArray L out key values values.length s) := by
  have heq : values = below 65536 p :=
    eq_of_mem_iff_lt hs (pairwise_below _ _) fun i => by rw [hm, mem_below]
  rw [← heq]
  exact emitArray_emits _ h hk hs (fun v hv => ((hm v).mp hv).1) hlen

/-- The bits of words clipped to the range. -/
theorem bitsBetween_clip (words : Array64) (low high : Nat) :
    bitsBetween (clipAndCount words low high).1 (low >>> 6) (high >>> 6)
      = below 65536 fun i => low ≤ i ∧ i ≤ high ∧ Has words i := by
  rw [bitsBetween, clipAndCount_fst, shiftRight_6, shiftRight_6]
  exact below_congr fun i _ => has_edgeWord words low high i

/-- Clipped words are counted while they are clipped. -/
theorem clipAndCount_eq_length (words : Array64) (hh : high < 65536) :
    (clipAndCount words low high).2
      = (bitsBetween (clipAndCount words low high).1 (low >>> 6) (high >>> 6)).length := by
  rw [bitsBetween_clip, clipAndCount_snd words hh]

/-- Words clipped to the range emit their bits inside it. -/
theorem emitWords_clip (words : Array64) (h : out.Under key) (hk : key < 65536)
    (hh : high < 65536) :
    Emits L out key (below 65536 fun i => low ≤ i ∧ i ≤ high ∧ Has words i) s
      (emitWords L out key (clipAndCount words low high).1 (low >>> 6) (high >>> 6)
        (clipAndCount words low high).2 s) := by
  rw [← bitsBetween_clip]
  refine emitWords_emits h hk ?_ (clipAndCount_eq_length words hh)
  rw [shiftRight_6]
  omega

/-- The bits of words that are not clipped, counted word by word. -/
theorem sum_popcountll (words : Array64) (first : Nat) {last : Nat} (hl : last < 1024) :
    ((List.range' first (last + 1 - first)).map fun w => popcountll (words w)).sum
      = (bitsBetween words first last).length := by
  rw [bitsBetween, ← sum_cpop words (by omega)]
  rfl

end Emit

/-! ## One loop for each pairing -/

section Pairs

variable {out : Bitmap} {x y : Container} {key low high : Nat}

/-- A container alone gives what it has of the range. -/
theorem emitClip_emits (hx : x.Plain) (h : out.Under x.key) (hle : low ≤ high)
    (hh : high < 65536) :
    Emits L out x.key (x.within low high) s (emitClip L out (makeClip x low high) s) := by
  unfold emitClip
  simp only [makeClip_container, makeClip_low, makeClip_high]
  by_cases ha : x.isArray = true
  · obtain ⟨hentries, hcount⟩ := makeClip_entries hx ha hle hh
    rw [if_pos ha, hentries, hcount]
    exact emitArray_emits _ h hx.readable.key_lt hx.pairwise_within
      (fun v hv => hx.lt_of_mem_within hv) (hx.within_length_le ha)
  · rw [if_neg ha]
    have hwithin :
        x.within low high = below 65536 fun i => low ≤ i ∧ i ≤ high ∧ Has x.wordsOf i := by
      refine eq_of_mem_iff_lt hx.pairwise_within (pairwise_below _ _) fun i => ?_
      rw [mem_within, mem_below, hx.bitmap ha, mem_below]
      tauto
    rw [hwithin]
    exact emitWords_clip x.wordsOf h hx.readable.key_lt hh

/-- The binary searches find what the walk through both finds. -/
theorem commonSearched_eq {xs ys : List Nat} (hx : xs.Pairwise (· < ·)) (hy : ys.Pairwise (· < ·)) :
    commonSearched xs ys = xs.filter (· ∈ ys) := by
  have hkept : commonSearched xs ys = Sorted.kept true xs ys := by
    clear hx
    induction xs generalizing ys with
    | nil => rfl
    | cons v xs ih =>
        cases ys with
        | nil =>
            rw [Sorted.kept_eq_nil_right]
            rfl
        | cons w ys =>
            unfold commonSearched Sorted.kept
            have hdrop := (lowerBound_cut hy v).drop_eq_dropWhile
            rw [List.length_cons] at hdrop
            simp only [lowerBound16, hdrop]
            rw [ih (hy.sublist (List.dropWhile_sublist _))]
            simp only [decide_eq_true_eq]
  rw [hkept, Sorted.kept_eq true hx hy]
  simp only [decide_eq_true_eq]

theorem andArrays_emits (hx : x.Plain) (hy : y.Plain) (hxa : x.isArray = true)
    (hya : y.isArray = true) (h : out.Under x.key) (hle : low ≤ high) (hh : high < 65536) :
    Emits L out x.key (selected .and low high x.lows y.lows) s
      (andArrays L out (makeClip x low high) (makeClip y low high) s) := by
  obtain ⟨hex, hcx⟩ := makeClip_entries hx hxa hle hh
  obtain ⟨hey, hcy⟩ := makeClip_entries hy hya hle hh
  -- either way round, and by search or by walk, the common entries
  have hcommon : ∀ {c d : Container}, c.Plain → d.Plain → c.isArray = true →
      ∀ values, values = (c.within low high).filter (· ∈ d.within low high) →
      (∀ i, i ∈ c.lows ∧ i ∈ d.lows ↔ i ∈ x.lows ∧ i ∈ y.lows) →
      Emits L out x.key (selected .and low high x.lows y.lows) s
        (emitArray L out x.key values values.length s) := by
    intro c d hc hd hca values hvalues hiff
    refine emitArray_below h hx.readable.key_lt ?_ ?_ fun i => ?_
    · rw [hvalues]
      exact hc.pairwise_within.filter _
    · rw [hvalues]
      exact Nat.le_trans (List.length_filter_le _ _) (hc.within_length_le hca)
    · rw [hvalues, List.mem_filter, decide_eq_true_eq, mem_within, mem_within]
      have := hiff i
      have hlt : i ∈ c.lows → i < 65536 := hc.readable.lt_of_mem
      simp only [WordOp.Holds]
      tauto
  unfold andArrays
  simp only [makeClip_container, hex, hcx, hey, hcy]
  by_cases hswap : (y.within low high).length < (x.within low high).length
  · simp only [if_pos hswap]
    refine hcommon hy hx hya _ ?_ fun i => and_comm
    split
    · exact commonSearched_eq hy.pairwise_within hx.pairwise_within
    · exact Sorted.common_eq _ hy.pairwise_within hx.pairwise_within (by omega)
  · simp only [if_neg hswap]
    refine hcommon hx hy hxa _ ?_ fun i => Iff.rfl
    split
    · exact commonSearched_eq hx.pairwise_within hy.pairwise_within
    · exact Sorted.common_eq _ hx.pairwise_within hy.pairwise_within (by omega)

theorem hasBit_iff (words : Array64) (i : Nat) : hasBit words i = true ↔ Has words i := by
  rw [hasBit, Has, shiftRight_6, and_63]

/-- An array asked in a bitmap. -/
theorem filterArrayByWords_emits (keep : Bool) (hx : x.Plain) (hy : y.Plain)
    (hxa : x.isArray = true) (hyb : ¬ y.isArray = true) (h : out.Under x.key) (hle : low ≤ high)
    (hh : high < 65536) :
    Emits L out x.key
      (selected (if keep then .and else .andnot) low high x.lows y.lows) s
      (filterArrayByWords L out (makeClip x low high) (makeClip y low high) keep s) := by
  obtain ⟨hex, -⟩ := makeClip_entries hx hxa hle hh
  unfold filterArrayByWords
  simp only [makeClip_container, hex]
  refine emitArray_below h hx.readable.key_lt (hx.pairwise_within.filter _)
    (Nat.le_trans (List.length_filter_le _ _) (hx.within_length_le hxa)) fun i => ?_
  rw [List.mem_filter, decide_eq_true_eq, mem_within]
  have hlt : i ∈ x.lows → i < 65536 := hx.readable.lt_of_mem
  by_cases hi : i < 65536
  · have hhas := (hasBit_iff y.wordsOf i).trans (hy.has_iff hyb hi)
    cases keep with
    | true =>
        rw [hhas]
        simp only [if_true, WordOp.Holds]
        tauto
    | false =>
        rw [← Bool.not_eq_true, hhas]
        simp only [Bool.false_eq_true, if_false, WordOp.Holds]
        tauto
  · tauto

/-- Two bitmaps, word by word. -/
theorem combineWords_emits (op : WordOp) (hx : x.Plain) (hy : y.Plain) (hxb : ¬ x.isArray = true)
    (hyb : ¬ y.isArray = true) (h : out.Under x.key) (hh : high < 65536) :
    Emits L out x.key (selected op low high x.lows y.lows) s
      (combineWords L out (makeClip x low high) (makeClip y low high) op s) := by
  unfold combineWords
  simp only [makeClip_container, makeClip_low, makeClip_high]
  have hsel : selected op low high x.lows y.lows = below 65536 fun i => low ≤ i ∧ i ≤ high ∧
      Has (fun w => op.apply (x.wordsOf w) (y.wordsOf w)) i := by
    refine below_congr fun i hi => ?_
    rw [op.has_apply, propext (hx.has_iff hxb hi), propext (hy.has_iff hyb hi)]
  rw [hsel]
  exact emitWords_clip _ h hx.readable.key_lt hh

/-- A bitmap with the values of an array set or cleared. -/
theorem wordsWithArray_emits (set : Bool) (hx : x.Plain) (hy : y.Plain) (hxb : ¬ x.isArray = true)
    (hya : y.isArray = true) (h : out.Under x.key) (hle : low ≤ high) (hh : high < 65536) :
    Emits L out x.key
      (selected (if set then .or else .andnot) low high x.lows y.lows) s
      (wordsWithArray L out (makeClip x low high) (makeClip y low high) set s) := by
  obtain ⟨hey, -⟩ := makeClip_entries hy hya hle hh
  unfold wordsWithArray
  simp only [makeClip_container, makeClip_low, makeClip_high, hey]
  set words := (y.within low high).foldl (if set then setBit else clearBit) x.wordsOf with hwords
  have hsel : selected (if set then .or else .andnot) low high x.lows y.lows =
      below 65536 fun i => low ≤ i ∧ i ≤ high ∧ Has words i := by
    refine below_congr fun i hi => ?_
    have hhas := hx.has_iff hxb hi
    cases set with
    | true =>
        simp only [if_true] at hwords ⊢
        rw [hwords, has_foldl_setBit, mem_within, hhas]
        simp only [WordOp.Holds]
        tauto
    | false =>
        simp only [Bool.false_eq_true, if_false] at hwords ⊢
        rw [hwords, has_foldl_clearBit, mem_within, hhas]
        simp only [WordOp.Holds]
        tauto
  rw [hsel]
  exact emitWords_clip words h hx.readable.key_lt hh

/-- Two arrays together, as bits where they may pass `arrayMax`. -/
theorem orArrays_emits (hx : x.Plain) (hy : y.Plain) (hxa : x.isArray = true)
    (hya : y.isArray = true) (h : out.Under x.key) (hle : low ≤ high) (hh : high < 65536) :
    Emits L out x.key (selected .or low high x.lows y.lows) s
      (orArrays L out (makeClip x low high) (makeClip y low high) s) := by
  obtain ⟨hex, hcx⟩ := makeClip_entries hx hxa hle hh
  obtain ⟨hey, hcy⟩ := makeClip_entries hy hya hle hh
  have hltx : ∀ {i : Nat}, i ∈ x.lows → i < 65536 := hx.readable.lt_of_mem
  have hlty : ∀ {i : Nat}, i ∈ y.lows → i < 65536 := hy.readable.lt_of_mem
  unfold orArrays
  simp only [makeClip_container, makeClip_low, makeClip_high, hex, hcx, hey, hcy]
  -- counted as if no value were in both: what may pass the array is made of bits
  by_cases hbig : arrayMax < (x.within low high).length + (y.within low high).length
  · rw [if_pos hbig]
    set words := (y.within low high).foldl setBit
      ((x.within low high).foldl setBit fun _ => 0#64) with hwords
    have hhas : ∀ i, Has words i ↔ i ∈ x.within low high ∨ i ∈ y.within low high := fun i => by
      rw [hwords, has_foldl_setBit, has_foldl_setBit]
      simp [Has]
    have hbits :
        bitsBetween words (low >>> 6) (high >>> 6) = selected .or low high x.lows y.lows := by
      refine below_congr fun i _ => ?_
      rw [hhas, mem_within, mem_within, shiftRight_6, shiftRight_6]
      simp only [WordOp.Holds]
      constructor
      · rintro ⟨-, -, h1 | h1⟩ <;> tauto
      · rintro ⟨h1, h2, h3⟩
        refine ⟨by omega, by omega, ?_⟩
        tauto
    rw [← hbits]
    have hlast : high >>> 6 < 1024 := by
      rw [shiftRight_6]
      omega
    exact emitWords_emits h hx.readable.key_lt hlast (sum_popcountll words _ hlast)
  · rw [if_neg hbig]
    refine emitArray_below h hx.readable.key_lt
      (Sorted.pairwise_either _ hx.pairwise_within hy.pairwise_within (Nat.le_refl _))
      (Nat.le_trans (Sorted.length_either_le _ _ _) (Nat.not_lt.mp hbig)) fun i => ?_
    rw [Sorted.mem_either _ (Nat.le_refl _), mem_within, mem_within]
    simp only [WordOp.Holds]
    constructor
    · rintro (h1 | h1)
      · exact ⟨hltx h1.1, h1.2.1, h1.2.2, Or.inl h1.1⟩
      · exact ⟨hlty h1.1, h1.2.1, h1.2.2, Or.inr h1.1⟩
    · tauto

theorem andnotArrays_emits (hx : x.Plain) (hy : y.Plain) (hxa : x.isArray = true)
    (hya : y.isArray = true) (h : out.Under x.key) (hle : low ≤ high) (hh : high < 65536) :
    Emits L out x.key (selected .andnot low high x.lows y.lows) s
      (andnotArrays L out (makeClip x low high) (makeClip y low high) s) := by
  obtain ⟨hex, -⟩ := makeClip_entries hx hxa hle hh
  obtain ⟨hey, -⟩ := makeClip_entries hy hya hle hh
  unfold andnotArrays
  simp only [makeClip_container, hex, hey]
  rw [Sorted.kept_eq false hx.pairwise_within hy.pairwise_within]
  refine emitArray_below h hx.readable.key_lt (hx.pairwise_within.filter _)
    (Nat.le_trans (List.length_filter_le _ _) (hx.within_length_le hxa)) fun i => ?_
  have hlt : i ∈ x.lows → i < 65536 := hx.readable.lt_of_mem
  simp only [List.mem_filter, decide_eq_true_eq, decide_eq_false_iff_not, mem_within, WordOp.Holds]
  tauto

end Pairs

/-! ## One key of each operation -/

section Keys

variable {out : Bitmap} {x y : Container} {low high : Nat}

theorem selected_comm {op : WordOp} (hop : op ≠ .andnot) (xs ys : List Nat) :
    selected op low high xs ys = selected op low high ys xs := by
  refine below_congr fun i _ => ?_
  cases op with
  | and => simp only [WordOp.Holds]; tauto
  | or => simp only [WordOp.Holds]; tauto
  | andnot => exact absurd rfl hop

theorem andKey_emits (hx : x.Plain) (hy : y.Plain) (hkey : y.key = x.key) (h : out.Under x.key)
    (hle : low ≤ high) (hh : high < 65536) :
    Emits L out x.key (selected .and low high x.lows y.lows) s
      (if x.isArray ∧ y.isArray then
        andArrays L out (makeClip x low high) (makeClip y low high) s
      else if x.isArray then
        filterArrayByWords L out (makeClip x low high) (makeClip y low high) true s
      else if y.isArray then
        filterArrayByWords L out (makeClip y low high) (makeClip x low high) true s
      else combineWords L out (makeClip x low high) (makeClip y low high) .and s) := by
  split
  · rename_i hb
    exact andArrays_emits hx hy hb.1 hb.2 h hle hh
  · rename_i hb
    split
    · rename_i hxa
      exact filterArrayByWords_emits true hx hy hxa (fun hya => hb ⟨hxa, hya⟩) h hle hh
    · rename_i hxb
      split
      · -- the array is the second part: it is the one that is walked
        rename_i hya
        rw [selected_comm (by decide), ← hkey]
        exact filterArrayByWords_emits true hy hx hya hxb (hkey ▸ h) hle hh
      · rename_i hyb
        exact combineWords_emits .and hx hy hxb hyb h hh

theorem orKey_emits (hx : x.Plain) (hy : y.Plain) (hkey : y.key = x.key) (h : out.Under x.key)
    (hle : low ≤ high) (hh : high < 65536) :
    Emits L out x.key (selected .or low high x.lows y.lows) s
      (if x.isArray ∧ y.isArray then
        orArrays L out (makeClip x low high) (makeClip y low high) s
      else if x.isArray then
        wordsWithArray L out (makeClip y low high) (makeClip x low high) true s
      else if y.isArray then
        wordsWithArray L out (makeClip x low high) (makeClip y low high) true s
      else combineWords L out (makeClip x low high) (makeClip y low high) .or s) := by
  split
  · rename_i hb
    exact orArrays_emits hx hy hb.1 hb.2 h hle hh
  · rename_i hb
    split
    · -- the bitmap is the second part: the array's values are set in it
      rename_i hxa
      rw [selected_comm (by decide), ← hkey]
      exact wordsWithArray_emits true hy hx (fun hya => hb ⟨hxa, hya⟩) hxa (hkey ▸ h) hle hh
    · rename_i hxb
      split
      · rename_i hya
        exact wordsWithArray_emits true hx hy hxb hya h hle hh
      · rename_i hyb
        exact combineWords_emits .or hx hy hxb hyb h hh

theorem andnotKey_emits (hx : x.Plain) (hy : y.Plain) (h : out.Under x.key)
    (hle : low ≤ high) (hh : high < 65536) :
    Emits L out x.key (selected .andnot low high x.lows y.lows) s
      (if x.isArray ∧ y.isArray then
        andnotArrays L out (makeClip x low high) (makeClip y low high) s
      else if x.isArray then
        filterArrayByWords L out (makeClip x low high) (makeClip y low high) false s
      else if y.isArray then
        wordsWithArray L out (makeClip x low high) (makeClip y low high) false s
      else combineWords L out (makeClip x low high) (makeClip y low high) .andnot s) := by
  split
  · rename_i hb
    exact andnotArrays_emits hx hy hb.1 hb.2 h hle hh
  · rename_i hb
    split
    · rename_i hxa
      exact filterArrayByWords_emits false hx hy hxa (fun hya => hb ⟨hxa, hya⟩) h hle hh
    · rename_i hxb
      split
      · rename_i hya
        exact wordsWithArray_emits false hx hy hxb hya h hle hh
      · rename_i hyb
        exact combineWords_emits .andnot hx hy hxb hyb h hh

end Keys

end Arnm.Roaring
