import Arnm.Lib.Search
import Arnm.Lib.Words

set_option autoImplicit false

/-! # Containers of a roaring set

A value splits into a 16 bit key and a 16 bit low part. All values of one key live in one
container: an array of sorted low parts, a bitmap of 1024 words, or -- only while a union is
read -- a view of a sparse set's 32 bit values (`ROARING_KIND_WIDE`). This file has the layout,
the small reads of `roaring_intern.h` (the two searches, the edge masks, counting in words) and
`containerRangeCardinality`, with the set of low parts (`Container.lows`) they are about.

An array is a list, of which the code reads the first `cardinality` entries; the block a
container's data lies in is its address `data` and its exponent `blockLog2`.
-/

namespace Arnm.Roaring

open Listing Words

/-- `ARNM_ROARING_ARRAY_MAX` -/
def arrayMax : Nat := 4096

/-- `ARNM_ROARING_SPARSE_MAX` -/
def sparseMax : Nat := 1024

/-- `ARNM_ROARING_BITMAP_WORDS` -/
def bitmapWords : Nat := 1024

/-! ## Layout -/

/-- What a container's block holds; the constructor is `kind`. -/
inductive Content where
  | array (values : List Nat)
  | bitmap (words : Array64)
  | wide (values : List Nat)

structure Container where
  data : Nat
  content : Content
  cardinality : Nat
  key : Nat
  blockLog2 : Nat

namespace Container

/-- `ARNM_ROARING_ARRAY == kind` -/
def isArray (c : Container) : Bool :=
  match c.content with
  | .array _ => true
  | _ => false

/-- `ARNM_ROARING_BITMAP == kind` -/
def isBitmap (c : Container) : Bool :=
  match c.content with
  | .bitmap _ => true
  | _ => false

/-- `ROARING_KIND_WIDE == kind` -/
def isWide (c : Container) : Bool :=
  match c.content with
  | .wide _ => true
  | _ => false

def arrayOf (c : Container) : List Nat :=
  match c.content with
  | .array values => values
  | _ => []

def wordsOf (c : Container) : Array64 :=
  match c.content with
  | .bitmap words => words
  | _ => fun _ => 0

end Container

def keyOf (value : Nat) : Nat := value >>> 16

def lowOf (value : Nat) : Nat := value &&& 0xffff

def valueOf (key low : Nat) : Nat := key <<< 16 ||| low

theorem keyOf_eq (value : Nat) : keyOf value = value / 65536 := by
  rw [keyOf, Nat.shiftRight_eq_div_pow]

theorem lowOf_eq (value : Nat) : lowOf value = value % 65536 :=
  Nat.and_two_pow_sub_one_eq_mod value 16

theorem valueOf_eq (key : Nat) {low : Nat} (h : low < 65536) :
    valueOf key low = key * 65536 + low := by
  rw [valueOf, ← Nat.shiftLeft_add_eq_or_of_lt (by simpa using h), Nat.shiftLeft_eq]

theorem lowOf_lt (value : Nat) : lowOf value < 65536 := by
  rw [lowOf_eq]; omega

theorem keyOf_mono {v w : Nat} (h : v ≤ w) : keyOf v ≤ keyOf w := by
  rw [keyOf_eq, keyOf_eq]
  exact Nat.div_le_div_right h

/-- Inside one key the low parts are in the order of the values. -/
theorem lowOf_le_lowOf {v w : Nat} (hkey : keyOf v = keyOf w) (hle : v ≤ w) :
    lowOf v ≤ lowOf w := by
  rw [keyOf_eq, keyOf_eq] at hkey
  rw [lowOf_eq, lowOf_eq]
  omega

theorem valueOf_keyOf_lowOf (value : Nat) : valueOf (keyOf value) (lowOf value) = value := by
  rw [valueOf_eq _ (lowOf_lt value), keyOf_eq, lowOf_eq]
  omega

theorem keyOf_valueOf (key : Nat) {low : Nat} (h : low < 65536) :
    keyOf (valueOf key low) = key := by
  rw [valueOf_eq key h, keyOf_eq]
  omega

theorem lowOf_valueOf (key : Nat) {low : Nat} (h : low < 65536) :
    lowOf (valueOf key low) = low := by
  rw [valueOf_eq key h, lowOf_eq]
  omega

/-! ## Searches -/

/-- First index whose value is not below `value`. A bound at or before the first value needs no
search. -/
def lowerBound (values : List Nat) (count value : Nat) : Nat :=
  if count = 0 ∨ value ≤ values.getD 0 0 then 0
  else Search.bisect (fun middle => decide (values.getD middle 0 < value)) count 0 count

/-- First index whose value is above `value`. -/
def upperBound (values : List Nat) (count value : Nat) : Nat :=
  if count = 0 ∨ values.getD (count - 1) 0 ≤ value then count
  else Search.bisect (fun middle => decide (values.getD middle 0 ≤ value)) count 0 count

def lowerBound16 (array : List Nat) (count value : Nat) : Nat := lowerBound array count value

def upperBound16 (array : List Nat) (count value : Nat) : Nat := upperBound array count value

def lowerBound32 (values : List Nat) (count value : Nat) : Nat := lowerBound values count value

def upperBound32 (values : List Nat) (count value : Nat) : Nat := upperBound values count value

/-- The lower bound cuts a sorted list behind the values below the bound. -/
theorem lowerBound_cut {l : List Nat} (h : l.Pairwise (· < ·)) (v : Nat) :
    Search.Cut (· < v) l (lowerBound l l.length v) := by
  rw [lowerBound]
  split
  · rename_i h0
    refine ⟨Nat.zero_le _, by simp, fun a ha => ?_⟩
    rw [List.drop_zero] at ha
    cases l with
    | nil => simp at ha
    | cons x xs =>
        have hx : v ≤ x := by simpa using h0
        rcases List.mem_cons.mp ha with rfl | hm
        · omega
        · have := (List.pairwise_cons.mp h).1 a hm
          omega
  · refine Search.cut_bisect (fun i => l.getD i 0) (fun i hi => ?_) (fun i _ => by simp) ?_
    · simp [hi]
    · exact h.imp (fun hab hb => lt_trans hab hb)

/-- The lower bound of a value stands on it, if it is there. -/
theorem lowerBound_hit {l : List Nat} (hl : l.Pairwise (· < ·)) (v : Nat) :
    (decide (lowerBound l l.length v < l.length)
      && decide (l.getD (lowerBound l l.length v) 0 = v)) = true ↔ v ∈ l := by
  have hcut := lowerBound_cut hl v
  rw [Bool.and_eq_true, decide_eq_true_eq, decide_eq_true_eq]
  constructor
  · rintro ⟨h1, h2⟩
    rw [← h2]
    simp [h1]
  · intro hm
    have hlt : lowerBound l l.length v < l.length := by
      by_contra hc
      have := hcut.lt_of_none (List.getElem?_eq_none_iff.mpr (Nat.not_lt.mp hc)) v hm
      omega
    have hget := List.getElem?_eq_getElem hlt
    have h1 := hcut.le_of_getElem? hget
    have h2 := hcut.first hl hget v hm le_rfl
    refine ⟨hlt, ?_⟩
    simp [hlt]
    omega

/-- The upper bound cuts a sorted list behind the values up to the bound. -/
theorem upperBound_cut {l : List Nat} (h : l.Pairwise (· < ·)) (v : Nat) :
    Search.Cut (· ≤ v) l (upperBound l l.length v) := by
  rw [upperBound]
  split
  · rename_i h0
    refine ⟨le_rfl, fun a ha => ?_, by simp⟩
    rw [List.take_length] at ha
    obtain ⟨i, hi, rfl⟩ := List.mem_iff_getElem.mp ha
    have hlast : l[l.length - 1] ≤ v := by
      rcases h0 with h0 | h0
      · omega
      · simpa [show l.length - 1 < l.length by omega] using h0
    rcases Nat.lt_or_ge i (l.length - 1) with hlt | hge
    · have := List.pairwise_iff_getElem.mp h i (l.length - 1) hi (by omega) hlt
      omega
    · have : i = l.length - 1 := by omega
      subst this
      exact hlast
  · refine Search.cut_bisect (fun i => l.getD i 0) (fun i hi => ?_) (fun i _ => by simp) ?_
    · simp [hi]
    · exact h.imp (fun hab hb => le_trans hab.le hb)

/-- Between the two bounds lie the values of the range. -/
theorem slice_bounds {l : List Nat} (h : l.Pairwise (· < ·)) (low high : Nat) :
    (l.drop (lowerBound l l.length low)).take
        (upperBound l l.length high - lowerBound l l.length low)
      = l.filter (fun a => decide (low ≤ a ∧ a ≤ high)) := by
  rw [(lowerBound_cut h low).slice (upperBound_cut h high)]
  refine List.filter_congr (fun a _ => ?_)
  simp only [Nat.not_lt]

/-! ## Words -/

def popcountll (word : BitVec 64) : Nat := word.cpop.toNat

/-- Bits of word `low / 64` from `low` upwards. -/
def firstWordMask (low : Nat) : BitVec 64 := ~~~0#64 <<< (low &&& 63)

/-- Bits of word `high / 64` up to and including `high`. -/
def lastWordMask (high : Nat) : BitVec 64 := ~~~0#64 >>> (63 - (high &&& 63))

/-- The word `words[w]` of a range, masked where it is the range's first or last. -/
def edgeWord (words : Array64) (low high : Nat) : Array64 := fun w =>
  let word := words w
  let word := if w = low >>> 6 then word &&& firstWordMask low else word
  if w = high >>> 6 then word &&& lastWordMask high else word

/-- Set bits of `words` inside `[low, high]`: the two edge words masked, the ones between
counted as they are. -/
def wordsCardinality (words : Array64) (low high : Nat) : Nat :=
  let first := low >>> 6
  let last := high >>> 6
  if first = last then popcountll (words first &&& firstWordMask low &&& lastWordMask high)
  else
    popcountll (words first &&& firstWordMask low)
      + ((List.range' (first + 1) (last - (first + 1))).map (fun w => popcountll (words w))).sum
      + popcountll (words last &&& lastWordMask high)

/-- Masks the edge words of a range built in `words`, then counts it. -/
def clipAndCount (words : Array64) (low high : Nat) : Array64 × Nat :=
  let first := low >>> 6
  let last := high >>> 6
  let words := Function.update words first (words first &&& firstWordMask low)
  let words := Function.update words last (words last &&& lastWordMask high)
  (words, ((List.range' first (last + 1 - first)).map (fun w => popcountll (words w))).sum)

theorem getLsbD_firstWordMask (low i : Nat) :
    (firstWordMask low).getLsbD i = (decide (i < 64) && decide (low % 64 ≤ i)) := by
  have h : (~~~0#64).getLsbD (i - low % 64) = decide (i - low % 64 < 64) := by
    rw [BitVec.getLsbD_not, BitVec.getLsbD_zero]; simp
  rw [firstWordMask, and_63, BitVec.getLsbD_shiftLeft, h, Bool.eq_iff_iff]
  simp only [Bool.and_eq_true, Bool.not_eq_true', decide_eq_true_eq, decide_eq_false_iff_not]
  omega

theorem getLsbD_lastWordMask (high i : Nat) :
    (lastWordMask high).getLsbD i = decide (i ≤ high % 64) := by
  have h : (~~~0#64).getLsbD (63 - high % 64 + i) = decide (63 - high % 64 + i < 64) := by
    rw [BitVec.getLsbD_not, BitVec.getLsbD_zero]; simp
  rw [lastWordMask, and_63, BitVec.getLsbD_ushiftRight, h, Bool.eq_iff_iff, decide_eq_true_eq,
    decide_eq_true_eq]
  omega

/-- The edge masks leave the bits of the range. -/
theorem has_edgeWord (words : Array64) (low high i : Nat) :
    (low / 64 ≤ i / 64 ∧ i / 64 ≤ high / 64 ∧ Has (edgeWord words low high) i)
      ↔ low ≤ i ∧ i ≤ high ∧ Has words i := by
  have hi : i % 64 < 64 := by omega
  simp only [Has, edgeWord, shiftRight_6]
  by_cases h1 : i / 64 = low / 64
  · by_cases h2 : i / 64 = high / 64
    · rw [if_pos h1, if_pos h2]
      simp only [BitVec.getLsbD_and, getLsbD_firstWordMask, getLsbD_lastWordMask, Bool.and_eq_true,
        decide_eq_true_eq]
      constructor
      · rintro ⟨-, -, ⟨h3, -, h4⟩, h5⟩; exact ⟨by omega, by omega, h3⟩
      · rintro ⟨h3, h4, h5⟩; exact ⟨by omega, by omega, ⟨h5, hi, by omega⟩, by omega⟩
    · rw [if_pos h1, if_neg h2]
      simp only [BitVec.getLsbD_and, getLsbD_firstWordMask, Bool.and_eq_true, decide_eq_true_eq]
      constructor
      · rintro ⟨-, h3, h4, -, h5⟩; exact ⟨by omega, by omega, h4⟩
      · rintro ⟨h3, h4, h5⟩; exact ⟨by omega, by omega, h5, hi, by omega⟩
  · by_cases h2 : i / 64 = high / 64
    · rw [if_neg h1, if_pos h2]
      simp only [BitVec.getLsbD_and, getLsbD_lastWordMask, Bool.and_eq_true, decide_eq_true_eq]
      constructor
      · rintro ⟨h3, -, h4, h5⟩; exact ⟨by omega, by omega, h4⟩
      · rintro ⟨h3, h4, h5⟩; exact ⟨by omega, by omega, h5, by omega⟩
    · rw [if_neg h1, if_neg h2]
      constructor
      · rintro ⟨h3, h4, h5⟩; exact ⟨by omega, by omega, h5⟩
      · rintro ⟨h3, h4, h5⟩; exact ⟨by omega, by omega, h5⟩

/-- The masked words of a range, listed word after word, are the bits of the range. -/
theorem flatMap_edgeWord (d : Bool) (words : Array64) {low high : Nat} (hh : high < 65536) :
    (span d (low / 64) (high / 64)).flatMap
      (fun w => ordered d (listing (edgeWord words low high) w))
      = ordered d (below 65536 (fun i => low ≤ i ∧ i ≤ high ∧ Has words i)) := by
  rw [flatMap_listing d _ _ _ 65536 (by omega),
    below_congr (fun i _ => has_edgeWord words low high i)]

theorem sum_edgeWord (words : Array64) {low high : Nat} (hh : high < 65536) :
    ((List.range' (low / 64) (high / 64 + 1 - low / 64)).map
        (fun w => popcountll (edgeWord words low high w))).sum
      = (below 65536 (fun i => low ≤ i ∧ i ≤ high ∧ Has words i)).length := by
  rw [← below_congr (fun i _ => has_edgeWord words low high i)]
  exact sum_cpop _ (by omega)

theorem clipAndCount_fst (words : Array64) (low high : Nat) :
    (clipAndCount words low high).1 = edgeWord words low high := by
  funext w
  simp only [clipAndCount, edgeWord, Function.update_apply]
  by_cases h1 : w = low >>> 6
  · by_cases h2 : w = high >>> 6
    · have h3 : high >>> 6 = low >>> 6 := by omega
      simp [h1, h3]
    · have h3 : ¬ low >>> 6 = high >>> 6 := by omega
      simp [h1, h3]
  · by_cases h2 : w = high >>> 6
    · have h3 : ¬ high >>> 6 = low >>> 6 := by omega
      simp [h2, h3]
    · simp [h1, h2]

/-- Clipping keeps the bits of the range. -/
theorem below_clipAndCount (words : Array64) (low high : Nat) :
    below 65536 (fun i => low ≤ i ∧ i ≤ high ∧ Has (clipAndCount words low high).1 i)
      = below 65536 (fun i => low ≤ i ∧ i ≤ high ∧ Has words i) := by
  refine below_congr (fun i _ => and_congr_right (fun h1 => and_congr_right (fun h2 => ?_)))
  have he := has_edgeWord words low high i
  have h3 : low / 64 ≤ i / 64 := Nat.div_le_div_right h1
  have h4 : i / 64 ≤ high / 64 := Nat.div_le_div_right h2
  rw [clipAndCount_fst]
  tauto

theorem clipAndCount_snd (words : Array64) {low high : Nat} (hh : high < 65536) :
    (clipAndCount words low high).2
      = (below 65536 (fun i => low ≤ i ∧ i ≤ high ∧ Has words i)).length := by
  rw [← sum_edgeWord words hh, ← clipAndCount_fst]
  simp only [clipAndCount, shiftRight_6]

theorem wordsCardinality_eq (words : Array64) {low high : Nat} (hl : low ≤ high)
    (hh : high < 65536) :
    wordsCardinality words low high
      = (below 65536 (fun i => low ≤ i ∧ i ≤ high ∧ Has words i)).length := by
  rw [← sum_edgeWord words hh]
  simp only [wordsCardinality, shiftRight_6]
  by_cases he : low / 64 = high / 64
  · rw [if_pos he, he, show high / 64 + 1 - high / 64 = 1 by omega]
    simp [edgeWord, shiftRight_6, he]
  · rw [if_neg he, show high / 64 + 1 - low / 64 = (high / 64 - (low / 64 + 1)) + 1 + 1 by omega,
      List.range'_succ, List.range'_concat]
    have hmid : (List.range' (low / 64 + 1) (high / 64 - (low / 64 + 1))).map
        (fun w => popcountll (edgeWord words low high w))
        = (List.range' (low / 64 + 1) (high / 64 - (low / 64 + 1))).map
            (fun w => popcountll (words w)) := by
      refine List.map_congr_left (fun w hw => ?_)
      rw [List.mem_range'_1] at hw
      have h1 : ¬ w = low / 64 := by omega
      have h2 : ¬ w = high / 64 := by omega
      simp [edgeWord, shiftRight_6, h1, h2]
    have hlast : low / 64 + 1 + 1 * (high / 64 - (low / 64 + 1)) = high / 64 := by omega
    rw [hlast, List.map_cons, List.map_append, hmid, List.sum_cons, List.sum_append]
    have he' : ¬ high / 64 = low / 64 := fun h => he h.symm
    simp [edgeWord, shiftRight_6, he, he']
    omega

/-! ## The low parts of a container -/

namespace Container

/-- The low parts a container holds, ascending. -/
def lows (c : Container) : List Nat :=
  match c.content with
  | .array values => values
  | .bitmap words => below 65536 (Has words)
  | .wide values => values.map lowOf

/-- What every reader relies on: the low parts are stored in ascending order -- a view's values
all share its key -- and the stored count is theirs. -/
structure Readable (c : Container) : Prop where
  key_lt : c.key < 65536
  sorted : match c.content with
    | .array values => values.Pairwise (· < ·) ∧ ∀ v ∈ values, v < 65536
    | .bitmap _ => True
    | .wide values => values.Pairwise (· < ·) ∧ ∀ v ∈ values, keyOf v = c.key
  cardinality_eq : c.cardinality = c.lows.length
  pos : 0 < c.cardinality

variable {c : Container}

theorem Readable.pairwise_lows (h : c.Readable) : c.lows.Pairwise (· < ·) := by
  have hs := h.sorted
  unfold lows
  cases hc : c.content with
  | array values => rw [hc] at hs; exact hs.1
  | bitmap words => exact pairwise_below _ _
  | wide values =>
      rw [hc] at hs
      refine List.pairwise_map.mpr (hs.1.imp_of_mem (fun {a b} ha hb hab => ?_))
      have h1 := hs.2 a ha
      have h2 := hs.2 b hb
      rw [keyOf_eq] at h1 h2
      rw [lowOf_eq, lowOf_eq]
      omega

theorem Readable.lt_of_mem (h : c.Readable) {i : Nat} (hi : i ∈ c.lows) : i < 65536 := by
  have hs := h.sorted
  unfold lows at hi
  cases hc : c.content with
  | array values => rw [hc] at hs hi; exact hs.2 i hi
  | bitmap words => rw [hc] at hi; exact (mem_below.mp hi).1
  | wide values =>
      rw [hc] at hi
      obtain ⟨v, -, rfl⟩ := List.mem_map.mp hi
      exact lowOf_lt v

theorem Readable.lows_ne_nil (h : c.Readable) : c.lows ≠ [] := by
  have := h.pos
  rw [h.cardinality_eq] at this
  exact List.length_pos_iff.mp this

/-- The values of a view inside a range of low parts, as low parts. -/
theorem map_lowOf_filter {values : List Nat} {key low high : Nat}
    (hk : ∀ v ∈ values, keyOf v = key) (hl : low < 65536) (hh : high < 65536) :
    (values.filter (fun a => decide (valueOf key low ≤ a ∧ a ≤ valueOf key high))).map lowOf
      = (values.map lowOf).filter (fun a => decide (low ≤ a ∧ a ≤ high)) := by
  rw [List.filter_map]
  congr 1
  refine List.filter_congr (fun v hv => ?_)
  have h1 := hk v hv
  rw [keyOf_eq] at h1
  rw [valueOf_eq key hl, valueOf_eq key hh, Function.comp_apply, lowOf_eq]
  refine decide_eq_decide.mpr ?_
  omega

end Container

/-! ## Counting a part of a container -/

/-- Values of `container` inside `[low, high]`; the whole key answers from the stored count. -/
def containerRangeCardinality (container : Container) (low high : Nat) : Nat :=
  if low = 0 ∧ high = 0xffff then container.cardinality
  else match container.content with
    | .wide wide =>
        upperBound32 wide container.cardinality (valueOf container.key high)
          - lowerBound32 wide container.cardinality (valueOf container.key low)
    | .array array =>
        upperBound16 array container.cardinality high
          - lowerBound16 array container.cardinality low
    | .bitmap words => wordsCardinality words low high

theorem length_slice {l : List Nat} {low high : Nat} (h : l.Pairwise (· < ·)) :
    upperBound l l.length high - lowerBound l l.length low
      = (l.filter (fun a => decide (low ≤ a ∧ a ≤ high))).length := by
  have hu := (upperBound_cut h high).1
  rw [← slice_bounds h, List.length_take, List.length_drop]
  omega

theorem containerRangeCardinality_eq {c : Container} (h : c.Readable) {low high : Nat}
    (hle : low ≤ high) (hh : high < 65536) :
    containerRangeCardinality c low high
      = (c.lows.filter (fun a => decide (low ≤ a ∧ a ≤ high))).length := by
  have hs := h.sorted
  have hcard := h.cardinality_eq
  unfold containerRangeCardinality
  by_cases hall : low = 0 ∧ high = 0xffff
  · rw [if_pos hall, hcard, List.filter_eq_self.mpr]
    intro a ha
    have := h.lt_of_mem ha
    simp only [decide_eq_true_eq]
    omega
  · rw [if_neg hall]
    unfold Container.lows at hcard ⊢
    -- an array and a view are searched at both ends, the words are counted
    cases hc : c.content with
    | array values =>
        rw [hc] at hs hcard
        simp only at hcard ⊢
        rw [hcard]
        exact length_slice hs.1
    | bitmap words =>
        simp only
        rw [wordsCardinality_eq words hle hh, filter_eq_below (pairwise_below _ _)
          (fun a ha => (mem_below.mp ha).1)]
        refine congrArg List.length (below_congr (fun i hi => ?_))
        simp only [mem_below]
        tauto
    | wide values =>
        rw [hc] at hs hcard
        simp only [List.length_map] at hcard ⊢
        rw [hcard, ← Container.map_lowOf_filter hs.2 (by omega) hh, List.length_map]
        exact length_slice hs.1

end Arnm.Roaring
