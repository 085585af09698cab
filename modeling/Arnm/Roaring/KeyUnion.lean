import Arnm.Roaring.SparseUnion

set_option autoImplicit false

/-! # Counting the union of one key

The containers of one key, of several sets, are counted together without building their union:
by merging the arrays' spans, by setting all values as bits, or -- with bitmaps among them -- by
counting the bitmaps' words and then the array values no bitmap has. All ways count `lows`, the
low parts of the range some part holds.
-/

namespace Arnm.Roaring

open Listing Words Merge

/-! ## The entries of a range -/

/-- The low parts of a container inside `[low, high]`. -/
def Container.within (c : Container) (low high : Nat) : List Nat :=
  c.lows.filter (fun a => decide (low ≤ a ∧ a ≤ high))

/-- `low ? lower_bound(values, count, bound) : 0`: a range from the edge of the key needs no
search. -/
def beginOf (values : List Nat) (count low bound : Nat) : Nat :=
  if low ≠ 0 then lowerBound values count bound else 0

/-- `0xffff == high ? count : upper_bound(values, count, bound)` -/
def endOf (values : List Nat) (count high bound : Nat) : Nat :=
  if high = 0xffff then count else upperBound values count bound

/-- The entries of an array or a view inside `[low, high]`, by index; a bitmap has none. -/
def rangeSpan (c : Container) (low high : Nat) : Span :=
  match c.content with
  | .wide wide =>
      ⟨wide, beginOf wide c.cardinality low (valueOf c.key low),
        endOf wide c.cardinality high (valueOf c.key high)⟩
  | .array array =>
      ⟨array, beginOf array c.cardinality low low, endOf array c.cardinality high high⟩
  | .bitmap _ => ⟨[], 0, 0⟩

/-- A span's entry as a low part. -/
def lowAt (c : Container) (value : Nat) : Nat :=
  match c.content with
  | .wide _ => lowOf value
  | _ => value

theorem beginOf_cut {l : List Nat} (h : l.Pairwise (· < ·)) (low bound : Nat)
    (h0 : low = 0 → ∀ a ∈ l, bound ≤ a) :
    Search.Cut (· < bound) l (beginOf l l.length low bound) := by
  unfold beginOf
  split
  · exact lowerBound_cut h bound
  · rename_i hl
    refine ⟨Nat.zero_le _, by simp, fun a ha => ?_⟩
    rw [List.drop_zero] at ha
    exact Nat.not_lt.mpr (h0 (by omega) a ha)

theorem endOf_cut {l : List Nat} (h : l.Pairwise (· < ·)) (high bound : Nat)
    (h0 : high = 0xffff → ∀ a ∈ l, a ≤ bound) :
    Search.Cut (· ≤ bound) l (endOf l l.length high bound) := by
  unfold endOf
  split
  · rename_i hh
    refine ⟨le_rfl, fun a ha => ?_, by simp⟩
    rw [List.take_length] at ha
    exact h0 hh a ha
  · exact upperBound_cut h bound

/-- The span of a range holds the container's low parts inside it. -/
theorem rangeSpan_spec {c : Container} (hc : c.Readable) (hb : c.isBitmap = false) {low high : Nat}
    (hle : low ≤ high) (hh : high < 65536) :
    (rangeSpan c low high).rest.map (lowAt c) = c.within low high ∧
      (rangeSpan c low high).begin ≤ (rangeSpan c low high).endAt ∧
      (rangeSpan c low high).endAt ≤ (rangeSpan c low high).values.length := by
  have hs := hc.sorted
  have hcard := hc.cardinality_eq
  -- the begin of a range is not behind its end
  have hmono : ∀ (l : List Nat) (b e a : Nat), Search.Cut (· < b) l a → Search.Cut (· ≤ e) l
      (endOf l l.length high e) → b ≤ e → a ≤ endOf l l.length high e := by
    intro l b e a h1 h2 hbe
    rw [h1.length, h2.length]
    exact (List.monotone_filter_right _ (fun x hx => by
      simp only [decide_eq_true_eq] at hx ⊢
      omega)).length_le
  unfold rangeSpan lowAt Container.within Container.lows
  unfold Container.lows at hcard
  unfold Container.isBitmap at hb
  cases hk : c.content with
  | bitmap words => rw [hk] at hb; cases hb
  | array values =>
      rw [hk] at hs hcard
      simp only at hs hcard ⊢
      rw [hcard]
      have h1 := beginOf_cut hs.1 low low (fun h0 a _ => by omega)
      have h2 := endOf_cut hs.1 high high
        (fun h0 a ha => by have := hs.2 a ha; omega)
      refine ⟨?_, hmono _ _ _ _ h1 h2 hle, h2.1⟩
      rw [Span.rest, h1.slice h2, List.map_id']
      exact List.filter_congr (fun a _ => by simp only [Nat.not_lt])
  | wide values =>
      rw [hk] at hs hcard
      simp only [List.length_map] at hs hcard ⊢
      rw [hcard]
      have hv1 := valueOf_eq c.key (show low < 65536 by omega)
      have hv2 := valueOf_eq c.key hh
      have h1 := beginOf_cut hs.1 low (valueOf c.key low) (fun h0 a ha => by
        have := hs.2 a ha
        rw [keyOf_eq] at this
        omega)
      have h2 := endOf_cut hs.1 high (valueOf c.key high) (fun h0 a ha => by
        have := hs.2 a ha
        rw [keyOf_eq] at this
        omega)
      refine ⟨?_, hmono _ _ _ _ h1 h2 (by omega), h2.1⟩
      rw [← Container.map_lowOf_filter hs.2 (by omega) hh]
      rw [Span.rest, h1.slice h2]
      congr 1
      exact List.filter_congr (fun a _ => by simp only [Nat.not_lt])

/-! ## The model -/

structure KeyUnion where
  parts : List Container
  key : Nat
  low : Nat
  high : Nat
  anyBitmap : Bool

/-- Sets the bits of `container` inside `[low, high]` in `words`. -/
def bitsOfPart (words : Array64) (container : Container) (low high : Nat) : Array64 :=
  match container.content with
  | .bitmap x =>
      fun w => if low >>> 6 ≤ w ∧ w ≤ high >>> 6 then words w ||| x w else words w
  | .wide wide =>
      let begin := lowerBound32 wide container.cardinality (valueOf container.key low)
      let endAt := upperBound32 wide container.cardinality (valueOf container.key high)
      (((wide.drop begin).take (endAt - begin)).map lowOf).foldl setBit words
  | .array array =>
      let begin := lowerBound16 array container.cardinality low
      let endAt := upperBound16 array container.cardinality high
      ((array.drop begin).take (endAt - begin)).foldl setBit words

/-- The union of a key's containers as bits in `[low, high]`, edges masked, and their count. Each
part sets its bits as `bitsOfPart` does; the words outside the range are never read. -/
def keyUnionWords (u : KeyUnion) : Array64 × Nat :=
  clipAndCount
    (u.parts.foldl (fun words c => bitsOfPart words c u.low u.high) (fun _ => 0)) u.low u.high

/-- Index spans of a key's arrays inside `[low, high]`; a view's slice is copied as low parts. -/
def keyUnionSpans (u : KeyUnion) : List Span :=
  u.parts.map (fun c =>
    match c.content with
    | .wide wide =>
        let begin := lowerBound32 wide c.cardinality (valueOf u.key u.low)
        let endAt := upperBound32 wide c.cardinality (valueOf u.key u.high)
        ⟨((wide.drop begin).take (endAt - begin)).map lowOf, 0, endAt - begin⟩
    | _ => rangeSpan c u.low u.high)

/-- The first value of a span that is not read out. -/
def spanHead (span : Span) : Option Nat :=
  if span.begin < span.endAt then some (span.head false) else none

/-- Moves a span standing on `smallest` on. -/
def spanMove (smallest : Nat) (span : Span) : Span :=
  if spanHead span = some smallest then { span with begin := span.begin + 1 } else span

/-- The merging loop over a key's spans: counts the distinct values `counts` asks for, until every
span is read out and nothing below `0x10000` is found. -/
def mergeSpansLoop (counts : Nat → Bool) : Nat → List Span → Nat → Nat
  | 0, _, total => total
  | fuel + 1, spans, total =>
      let smallest := pick false 0x10000 (spans.filterMap spanHead)
      if smallest = 0x10000 then total
      else
        mergeSpansLoop counts fuel (spans.map (spanMove smallest))
          (if counts smallest then total + 1 else total)

/-- The values the merging loop counts; none where the rounds did not last. -/
def mergedValues (counts : Nat → Bool) : Nat → List Span → Option (List Nat)
  | 0, _ => none
  | rounds + 1, spans =>
      let smallest := pick false 0x10000 (spans.filterMap spanHead)
      if smallest = 0x10000 then some []
      else
        (mergedValues counts rounds (spans.map (spanMove smallest))).map
          (fun values => if counts smallest then smallest :: values else values)

/-- Distinct values of a key's arrays merged, all of them only arrays. -/
def mergedArraysCardinality (u : KeyUnion) : Nat :=
  mergeSpansLoop (fun _ => true) 0x10001 (keyUnionSpans u) 0

/-- Whether any bitmap among `bitmaps` has `low` set. -/
def anyBit (bitmaps : List Array64) (low : Nat) : Bool :=
  bitmaps.any (fun words => (words (low >>> 6)).getLsbD (low &&& 63))

/-- The set bits of the bitmaps' OR inside `[low, high]`, counted word by word. -/
def bitmapsCardinality (bitmaps : List Array64) (low high : Nat) : Nat :=
  match bitmaps with
  | [words] => wordsCardinality words low high
  | bitmaps =>
      let first := low >>> 6
      let last := high >>> 6
      let word := fun w => bitmaps.foldl (fun word x => word ||| x w) 0
      ((List.range' first (last + 1 - first)).map
        (fun w => popcountll (edgeWord word low high w))).sum

/-- The count of a key with bitmaps among its parts: the bitmaps' OR, then every array value inside
the range once if no bitmap has it already. -/
def mixedUnionCardinality (u : KeyUnion) : Nat :=
  let bitmaps := (u.parts.filter Container.isBitmap).map Container.wordsOf
  let arrays := u.parts.filter (fun c => !c.isBitmap)
  let total := bitmapsCardinality bitmaps u.low u.high
  if arrays = [] then total
  else
    mergeSpansLoop (fun low => !anyBit bitmaps low) 0x10001
      (keyUnionSpans { u with parts := arrays, anyBitmap := false }) total

/-- Array values of a key's containers inside `[low, high]`, counted with repeats. -/
def arrayValuesInRange (u : KeyUnion) : Nat :=
  (u.parts.map (fun c =>
    match c.content with
    | .bitmap _ => 0
    | .wide _ => containerRangeCardinality c u.low u.high
    | .array _ => (rangeSpan c u.low u.high).size)).sum

def keyUnionCardinality (u : KeyUnion) : Nat :=
  match u.parts with
  | [part] => containerRangeCardinality part u.low u.high
  | _ =>
      if unionBitsFrom ≤ arrayValuesInRange u then (keyUnionWords u).2
      else if u.anyBitmap then mixedUnionCardinality u
      else mergedArraysCardinality u

/-! ## Bits -/

/-- The slice a search without shortcuts cuts out, as low parts. -/
theorem slice_lows {c : Container} (hc : c.Readable) {low high : Nat} (hl : low < 65536)
    (hh : high < 65536) (values : List Nat) :
    (c.content = .wide values →
      ((values.drop (lowerBound values c.cardinality (valueOf c.key low))).take
        (upperBound values c.cardinality (valueOf c.key high)
          - lowerBound values c.cardinality (valueOf c.key low))).map lowOf = c.within low high) ∧
    (c.content = .array values →
      (values.drop (lowerBound values c.cardinality low)).take
        (upperBound values c.cardinality high - lowerBound values c.cardinality low)
          = c.within low high) := by
  have hs := hc.sorted
  have hcard := hc.cardinality_eq
  unfold Container.lows at hcard
  unfold Container.within Container.lows
  refine ⟨fun hk => ?_, fun hk => ?_⟩
  · rw [hk] at hs hcard
    simp only [hk, List.length_map] at hs hcard ⊢
    rw [hcard, slice_bounds hs.1, Container.map_lowOf_filter hs.2 hl hh]
  · rw [hk] at hs hcard
    simp only [hk] at hs hcard ⊢
    rw [hcard, slice_bounds hs.1]

theorem mem_within {c : Container} {low high i : Nat} :
    i ∈ c.within low high ↔ i ∈ c.lows ∧ low ≤ i ∧ i ≤ high := by
  rw [Container.within, List.mem_filter, decide_eq_true_eq]

theorem has_bitsOfPart {c : Container} (hc : c.Readable) (words : Array64) {low high i : Nat}
    (hl : low ≤ i) (hi : i ≤ high) (hh : high < 65536) :
    Has (bitsOfPart words c low high) i ↔ Has words i ∨ i ∈ c.lows := by
  unfold bitsOfPart
  cases hk : c.content with
  | array values =>
      simp only [lowerBound16, upperBound16]
      rw [(slice_lows hc (by omega) hh _).2 hk, has_foldl_setBit, mem_within]
      simp [hl, hi]
  | wide values =>
      simp only [lowerBound32, upperBound32]
      rw [(slice_lows hc (by omega) hh _).1 hk, has_foldl_setBit, mem_within]
      simp [hl, hi]
  | bitmap x =>
      simp only [Has, shiftRight_6]
      rw [if_pos (by omega), BitVec.getLsbD_or, Bool.or_eq_true]
      refine or_congr_right ?_
      simp only [Container.lows, hk, mem_below, Has]
      exact ⟨fun h => ⟨by omega, h⟩, fun h => h.2⟩

theorem has_foldl_bitsOfPart {parts : List Container} (hp : ∀ c ∈ parts, c.Readable)
    (words : Array64) {low high i : Nat} (hl : low ≤ i) (hi : i ≤ high) (hh : high < 65536) :
    Has (parts.foldl (fun words c => bitsOfPart words c low high) words) i
      ↔ Has words i ∨ ∃ c ∈ parts, i ∈ c.lows :=
  foldl_iff_or (q := fun words => Has words i)
    (fun c hc words => has_bitsOfPart (hp c hc) words hl hi hh) words

namespace KeyUnion

variable {u : KeyUnion}

/-- The low parts of the range some part of the key holds, ascending. -/
def lows (u : KeyUnion) : List Nat :=
  below 65536 (fun i => u.low ≤ i ∧ i ≤ u.high ∧ ∃ c ∈ u.parts, i ∈ c.lows)

/-- A key's parts as they are gathered: readable, of this key, with a range that is not empty. -/
structure Gathered (u : KeyUnion) : Prop where
  readable : ∀ c ∈ u.parts, c.Readable
  key_eq : ∀ c ∈ u.parts, c.key = u.key
  le : u.low ≤ u.high
  high_lt : u.high < 65536

theorem Gathered.sub (h : u.Gathered) (parts : List Container) (hp : ∀ c ∈ parts, c ∈ u.parts)
    (b : Bool) : ({ u with parts := parts, anyBitmap := b } : KeyUnion).Gathered :=
  ⟨fun c hc => h.readable c (hp c hc), fun c hc => h.key_eq c (hp c hc), h.le, h.high_lt⟩

theorem Gathered.pairwise_within (h : u.Gathered) {c : Container} (hc : c ∈ u.parts) :
    (c.within u.low u.high).Pairwise (· < ·) :=
  (h.readable c hc).pairwise_lows.filter _

/-- The union of a key is the merge of its parts. -/
theorem Gathered.lists (h : u.Gathered) (d : Bool) :
    Lists d (ordered d u.lows) (u.parts.map (fun c => ordered d (c.within u.low u.high))) := by
  refine ⟨pairwise_ordered (pairwise_below _ _), fun l hl => ?_, fun i => ?_⟩
  · obtain ⟨c, hc, rfl⟩ := List.mem_map.mp hl
    exact pairwise_ordered (h.pairwise_within hc)
  · rw [mem_ordered, lows, mem_below]
    constructor
    · rintro ⟨-, hl, hh, c, hc, hi⟩
      exact ⟨_, List.mem_map_of_mem hc, mem_ordered.mpr (mem_within.mpr ⟨hi, hl, hh⟩)⟩
    · rintro ⟨l, hl, hi⟩
      obtain ⟨c, hc, rfl⟩ := List.mem_map.mp hl
      obtain ⟨hm, h1, h2⟩ := mem_within.mp (mem_ordered.mp hi)
      exact ⟨(h.readable c hc).lt_of_mem hm, h1, h2, c, hc, hm⟩

end KeyUnion

variable {u : KeyUnion}

theorem keyUnionWords_has (h : u.Gathered) {i : Nat} (hl : u.low ≤ i) (hi : i ≤ u.high) :
    Has (u.parts.foldl (fun words c => bitsOfPart words c u.low u.high) (fun _ => 0)) i
      ↔ ∃ c ∈ u.parts, i ∈ c.lows := by
  rw [has_foldl_bitsOfPart h.readable _ hl hi h.high_lt]
  simp

theorem lows_eq_below_has (h : u.Gathered) :
    u.lows = below 65536 (fun i => u.low ≤ i ∧ i ≤ u.high ∧
      Has (u.parts.foldl (fun words c => bitsOfPart words c u.low u.high) (fun _ => 0)) i) :=
  below_congr (fun _ _ => and_congr_right (fun hl => and_congr_right (fun hi =>
    (keyUnionWords_has h hl hi).symm)))

theorem keyUnionWords_snd (h : u.Gathered) : (keyUnionWords u).2 = u.lows.length := by
  rw [keyUnionWords, clipAndCount_snd _ h.high_lt, lows_eq_below_has h]

/-! ## Merging -/

theorem keyUnionSpans_rest (h : u.Gathered) (hb : ∀ c ∈ u.parts, c.isBitmap = false) :
    Lists false u.lows ((keyUnionSpans u).map Span.rest) ∧
      ∀ s ∈ keyUnionSpans u, s.begin ≤ s.endAt ∧ s.endAt ≤ s.values.length := by
  -- each part that is no bitmap has its slice as a span, a view by its low halves
  have key : ∀ c ∈ u.parts, ∀ s, s = (match c.content with
      | .wide wide =>
          (⟨((wide.drop (lowerBound32 wide c.cardinality (valueOf u.key u.low))).take
            (upperBound32 wide c.cardinality (valueOf u.key u.high)
              - lowerBound32 wide c.cardinality (valueOf u.key u.low))).map lowOf, 0,
            upperBound32 wide c.cardinality (valueOf u.key u.high)
              - lowerBound32 wide c.cardinality (valueOf u.key u.low)⟩ : Span)
      | _ => rangeSpan c u.low u.high) →
      s.rest = c.within u.low u.high ∧ s.begin ≤ s.endAt ∧ s.endAt ≤ s.values.length := by
    intro c hc s hs
    have hr := h.readable c hc
    have hl : u.low < 65536 := lt_of_le_of_lt h.le h.high_lt
    cases hk : c.content with
    | bitmap words =>
        have := hb c hc
        rw [Container.isBitmap, hk] at this
        cases this
    | array values =>
        rw [hk] at hs
        subst hs
        obtain ⟨h1, h2⟩ := rangeSpan_spec hr (hb c hc) h.le h.high_lt
        have hid : lowAt c = id := by funext v; simp [lowAt, hk]
        rw [hid, List.map_id] at h1
        exact ⟨h1, h2⟩
    | wide wide =>
        rw [hk, ← h.key_eq c hc] at hs
        subst hs
        have hcard := hr.cardinality_eq
        have hsort := hr.sorted
        rw [hk] at hsort
        rw [Container.lows, hk, List.length_map] at hcard
        have hsl := (slice_lows hr hl h.high_lt wide).1 hk
        simp only [Span.rest, lowerBound32, upperBound32, List.drop_zero, Nat.sub_zero]
        have hup := (upperBound_cut hsort.1 (valueOf c.key u.high)).1
        rw [← hcard] at hup
        refine ⟨?_, Nat.zero_le _, ?_⟩
        · rw [hsl, List.take_of_length_le]
          rw [← hsl, List.length_map, List.length_take]
          omega
        · rw [List.length_map, List.length_take, List.length_drop]
          omega
  constructor
  · have hl := h.lists false
    simp only [ordered_false] at hl
    rw [keyUnionSpans, List.map_map]
    refine hl.congr (fun l _ => ?_)
    simp only [List.mem_map, Function.comp_apply]
    constructor
    · rintro ⟨c, hc, rfl⟩
      exact ⟨c, hc, (key c hc _ rfl).1.symm⟩
    · rintro ⟨c, hc, rfl⟩
      exact ⟨c, hc, (key c hc _ rfl).1⟩
  · intro s hs
    obtain ⟨c, hc, he⟩ := List.mem_map.mp hs
    exact (key c hc s he.symm).2

theorem spanHead_eq {s : Span} (hs : s.begin ≤ s.endAt ∧ s.endAt ≤ s.values.length) :
    spanHead s = s.rest.head? := by
  unfold spanHead
  split
  · rename_i hlt
    rw [Span.rest_eq_cons ⟨hlt, hs.2⟩]
    rfl
  · rw [Span.rest_eq_nil (by omega)]
    rfl

theorem spanMove_spec {s : Span} {v : Nat} (hs : s.begin ≤ s.endAt ∧ s.endAt ≤ s.values.length) :
    (spanMove v s).rest = Merge.pass v s.rest ∧
      (spanMove v s).begin ≤ (spanMove v s).endAt ∧
        (spanMove v s).endAt ≤ (spanMove v s).values.length := by
  have hhead := spanHead_eq hs
  unfold spanMove
  by_cases hv : spanHead s = some v
  · rw [if_pos hv]
    have hlt : s.begin < s.endAt := by
      by_contra hc
      rw [spanHead, if_neg hc] at hv
      cases hv
    have hcons := Span.rest_eq_cons ⟨hlt, hs.2⟩
    have hh : s.head false = v := by
      rw [spanHead, if_pos hlt] at hv
      exact Option.some.inj hv
    rw [hcons, Merge.pass, if_pos hh]
    exact ⟨rfl, by simp only; omega, hs.2⟩
  · rw [if_neg hv]
    refine ⟨?_, hs⟩
    cases hr : s.rest with
    | nil => rfl
    | cons a l =>
        rw [hhead, hr] at hv
        rw [Merge.pass, if_neg (fun h => hv (by rw [h]; rfl))]

/-- The loop goes through the merge of its spans. -/
theorem mergedValues_eq (counts : Nat → Bool) {L : List Nat} (hL : ∀ a ∈ L, a < 0x10000) :
    ∀ {spans : List Span}, (∀ s ∈ spans, s.begin ≤ s.endAt ∧ s.endAt ≤ s.values.length) →
      Lists false L (spans.map Span.rest) → ∀ {rounds : Nat}, L.length < rounds →
        mergedValues counts rounds spans = some (L.filter counts) := by
  induction L with
  | nil =>
      intro spans hs h rounds hf
      cases rounds with
      | zero => simp at hf
      | succ rounds =>
          have hnone : spans.filterMap spanHead = [] := by
            refine List.filterMap_eq_nil_iff.mpr (fun s hm => ?_)
            rw [spanHead_eq (hs s hm), h.eq_nil _ (List.mem_map_of_mem hm)]
            rfl
          rw [mergedValues, hnone]
          simp [pick]
  | cons v L ih =>
      intro spans hs h rounds hf
      cases rounds with
      | zero => simp at hf
      | succ rounds =>
          have hv : v < 0x10000 := hL v (by simp)
          -- the smallest head is the next value: it heads some span, and none comes before it
          have hp : pick false 0x10000 (spans.filterMap spanHead) = v := by
            have hmem : ∀ a, a ∈ spans.filterMap spanHead →
                ∃ s ∈ spans, s.rest.head? = some a := by
              intro a ha
              obtain ⟨s, hm, he⟩ := List.mem_filterMap.mp ha
              exact ⟨s, hm, by rw [← spanHead_eq (hs s hm)]; exact he⟩
            refine pick_eq ?_ ?_
            · obtain ⟨l, hl, t, rfl⟩ := h.exists_head
              obtain ⟨s, hm, he⟩ := List.mem_map.mp hl
              refine List.mem_cons_of_mem _ (List.mem_filterMap.mpr ⟨s, hm, ?_⟩)
              rw [spanHead_eq (hs s hm), he]
              rfl
            · intro a ha
              rcases List.mem_cons.mp ha with rfl | ha
              · exact Or.inr ((before_false _ _).mpr hv)
              · obtain ⟨s, hm, he⟩ := hmem a ha
                exact h.before _ (List.mem_map_of_mem hm) a (List.mem_of_mem_head? he)
          rw [mergedValues]
          simp only [hp]
          rw [if_neg (by omega)]
          have hnext : Lists false L ((spans.map (spanMove v)).map Span.rest) := by
            have := h.pass
            rw [List.map_map] at this ⊢
            have he : spans.map (Span.rest ∘ spanMove v) = spans.map (Merge.pass v ∘ Span.rest) :=
              List.map_congr_left (fun s hm => (spanMove_spec (hs s hm)).1)
            rwa [he]
          rw [ih (fun a ha => hL a (List.mem_cons_of_mem _ ha)) (fun s hm => by
              obtain ⟨s', hm', rfl⟩ := List.mem_map.mp hm
              exact (spanMove_spec (hs s' hm')).2) hnext (by simpa using hf), Option.map_some]
          by_cases hc : counts v = true
          · rw [if_pos hc, List.filter_cons_of_pos hc]
          · rw [if_neg hc, List.filter_cons_of_neg hc]

/-- The loop adds one for each value it counts. -/
theorem mergeSpansLoop_of_values (counts : Nat → Bool) :
    ∀ {rounds : Nat} {spans : List Span} {values : List Nat},
      mergedValues counts rounds spans = some values →
      ∀ total, mergeSpansLoop counts rounds spans total = total + values.length := by
  intro rounds
  induction rounds with
  | zero => intro spans values h; cases h
  | succ rounds ih =>
      intro spans values h total
      rw [mergedValues] at h
      rw [mergeSpansLoop]
      split at h
      · cases h
        rename_i hend
        rw [if_pos hend]
        rfl
      · rename_i hend
        obtain ⟨rest, hrest, rfl⟩ := Option.map_eq_some_iff.mp h
        rw [if_neg hend, ih hrest]
        split
        · rw [List.length_cons]
          omega
        · rfl

/-- The loop counts the merge of its spans. -/
theorem mergeSpansLoop_eq (counts : Nat → Bool) {L : List Nat} (hL : ∀ a ∈ L, a < 0x10000)
    {spans : List Span} (hs : ∀ s ∈ spans, s.begin ≤ s.endAt ∧ s.endAt ≤ s.values.length)
    (h : Lists false L (spans.map Span.rest)) {fuel : Nat} (hf : L.length < fuel) (total : Nat) :
    mergeSpansLoop counts fuel spans total = total + (L.filter counts).length :=
  mergeSpansLoop_of_values counts (mergedValues_eq counts hL hs h hf) total

theorem lows_length_lt (u : KeyUnion) : u.lows.length < 0x10001 := by
  have h : u.lows.length ≤ 65536 := length_below_le _ _
  omega

theorem lt_of_mem_lows {i : Nat} (h : i ∈ u.lows) : i < 0x10000 := (mem_below.mp h).1

theorem mergedArraysCardinality_eq (h : u.Gathered) (hb : ∀ c ∈ u.parts, c.isBitmap = false) :
    mergedArraysCardinality u = u.lows.length := by
  obtain ⟨h1, h2⟩ := keyUnionSpans_rest h hb
  rw [mergedArraysCardinality, mergeSpansLoop_eq _ (fun a ha => lt_of_mem_lows ha) h2 h1
    (lows_length_lt u), Nat.zero_add, List.filter_eq_self.mpr (fun _ _ => rfl)]

/-! ## Bitmaps among the parts -/

theorem anyBit_iff {bitmaps : List Array64} {i : Nat} :
    anyBit bitmaps i = true ↔ ∃ words ∈ bitmaps, Has words i := by
  simp only [anyBit, List.any_eq_true, Has, shiftRight_6, and_63]

theorem getLsbD_foldl_or (bitmaps : List Array64) (w i : Nat) (word : BitVec 64) :
    (bitmaps.foldl (fun word x => word ||| x w) word).getLsbD i = true
      ↔ word.getLsbD i = true ∨ ∃ x ∈ bitmaps, (x w).getLsbD i = true := by
  induction bitmaps generalizing word with
  | nil => simp
  | cons x bitmaps ih =>
      rw [List.foldl_cons, ih, BitVec.getLsbD_or, Bool.or_eq_true, or_assoc]
      simp

/-- The words of a key's bitmaps hold the low parts of its bitmaps. -/
theorem has_bitmaps (h : u.Gathered) {i : Nat} (hi : i ≤ u.high) :
    (∃ words ∈ (u.parts.filter Container.isBitmap).map Container.wordsOf, Has words i)
      ↔ ∃ c ∈ u.parts, c.isBitmap = true ∧ i ∈ c.lows := by
  have hh := h.high_lt
  simp only [List.mem_map, List.mem_filter]
  constructor
  · rintro ⟨words, ⟨c, ⟨hc, hb⟩, rfl⟩, hi'⟩
    refine ⟨c, hc, hb, ?_⟩
    cases hk : c.content with
    | bitmap x =>
        rw [Container.wordsOf, hk] at hi'
        simp only [Container.lows, hk, mem_below]
        exact ⟨by omega, hi'⟩
    | array _ => rw [Container.isBitmap, hk] at hb; cases hb
    | wide _ => rw [Container.isBitmap, hk] at hb; cases hb
  · rintro ⟨c, hc, hb, hi'⟩
    refine ⟨_, ⟨c, ⟨hc, hb⟩, rfl⟩, ?_⟩
    cases hk : c.content with
    | bitmap x =>
        simp only [Container.lows, hk, mem_below] at hi'
        rw [Container.wordsOf, hk]
        exact hi'.2
    | array _ => rw [Container.isBitmap, hk] at hb; cases hb
    | wide _ => rw [Container.isBitmap, hk] at hb; cases hb

theorem bitmapsCardinality_eq (bitmaps : List Array64) {low high : Nat} (hl : low ≤ high)
    (hh : high < 65536) :
    bitmapsCardinality bitmaps low high
      = (below 65536 (fun i => low ≤ i ∧ i ≤ high ∧ ∃ words ∈ bitmaps, Has words i)).length := by
  unfold bitmapsCardinality
  split
  · rename_i words
    rw [wordsCardinality_eq words hl hh]
    exact congrArg List.length (below_congr (fun i _ => by simp))
  · simp only
    rw [shiftRight_6, shiftRight_6, sum_edgeWord _ hh]
    refine congrArg List.length (below_congr (fun i _ => ?_))
    refine and_congr_right (fun _ => and_congr_right (fun _ => ?_))
    rw [Has, getLsbD_foldl_or]
    simp [Has]

/-! ### Bits first, arrays after -/

namespace KeyUnion

def bitmaps (u : KeyUnion) : List Array64 :=
  (u.parts.filter Container.isBitmap).map Container.wordsOf

/-- The same key with its arrays and views only. -/
def arrays (u : KeyUnion) : KeyUnion :=
  { u with parts := u.parts.filter (fun c => !c.isBitmap), anyBitmap := false }

/-- The bits of the range some bitmap has. -/
def bitLows (u : KeyUnion) : List Nat :=
  below 65536 (fun i => u.low ≤ i ∧ i ≤ u.high ∧ ∃ words ∈ u.bitmaps, Has words i)

end KeyUnion

/-- What `mixedUnionCardinality` counts: the bits some bitmap has, then the values of the arrays
that no bitmap has; none where the rounds of the merge did not last. -/
def mixedValues (rounds : Nat) (u : KeyUnion) : Option (List Nat) :=
  if u.arrays.parts = [] then some u.bitLows
  else
    (mergedValues (fun low => !anyBit u.bitmaps low) rounds (keyUnionSpans u.arrays)).map
      (u.bitLows ++ ·)

/-- A low part is a bit of some bitmap, or in an array. -/
theorem mem_lows_iff (h : u.Gathered) (i : Nat) :
    i ∈ u.lows ↔ i ∈ u.bitLows ∨ i ∈ u.arrays.lows := by
  have harrays : i ∈ u.arrays.lows ↔
      i < 65536 ∧ u.low ≤ i ∧ i ≤ u.high ∧ ∃ c ∈ u.arrays.parts, i ∈ c.lows := mem_below
  rw [harrays, KeyUnion.lows, mem_below, KeyUnion.bitLows, mem_below, ← and_or_left, ← and_or_left,
    ← and_or_left]
  refine and_congr_right fun _ => and_congr_right fun _ => and_congr_right fun hi => ?_
  rw [KeyUnion.bitmaps, has_bitmaps h hi]
  constructor
  · rintro ⟨c, hc, hm⟩
    cases hb : c.isBitmap with
    | true => exact Or.inl ⟨c, hc, hb, hm⟩
    | false => exact Or.inr ⟨c, List.mem_filter.mpr ⟨hc, by rw [hb]; rfl⟩, hm⟩
  · rintro (⟨c, hc, -, hm⟩ | ⟨c, hc, hm⟩)
    · exact ⟨c, hc, hm⟩
    · exact ⟨c, (List.mem_filter.mp hc).1, hm⟩

theorem mem_bitLows_iff {i : Nat} (hi : i ∈ u.arrays.lows) :
    i ∈ u.bitLows ↔ anyBit u.bitmaps i = true := by
  obtain ⟨hlt, hlo, hhi, -⟩ := mem_below.mp hi
  rw [KeyUnion.bitLows, mem_below, anyBit_iff]
  exact ⟨fun h => h.2.2.2, fun h => ⟨hlt, hlo, hhi, h⟩⟩

theorem nodup_below (n : Nat) (p : Nat → Prop) [DecidablePred p] : (below n p).Nodup :=
  (pairwise_below n p).imp fun h => Nat.ne_of_lt h

/-- Bits first and arrays after go through the low parts as well. -/
theorem mixedValues_perm (h : u.Gathered) :
    ∃ values : List Nat, (∀ rounds, 0x10001 ≤ rounds → mixedValues rounds u = some values) ∧
      values.Perm u.lows := by
  by_cases hnil : u.arrays.parts = []
  · refine ⟨u.bitLows, fun rounds _ => by unfold mixedValues; rw [if_pos hnil], ?_⟩
    refine (List.perm_ext_iff_of_nodup (nodup_below _ _) (nodup_below _ _)).mpr fun i => ?_
    have hnone : i ∉ u.arrays.lows := by
      intro hi
      obtain ⟨-, -, -, c, hc, -⟩ := mem_below.mp hi
      rw [hnil] at hc
      cases hc
    exact ((mem_lows_iff h i).trans (or_iff_left hnone)).symm
  · have hin : ∀ c ∈ u.arrays.parts, c ∈ u.parts ∧ c.isBitmap = false := by
      intro c hc
      obtain ⟨hmem, hb⟩ := List.mem_filter.mp hc
      exact ⟨hmem, by rwa [Bool.not_eq_true'] at hb⟩
    have hg : u.arrays.Gathered := h.sub _ (fun c hc => (hin c hc).1) false
    obtain ⟨hlists, hspans⟩ := keyUnionSpans_rest hg (fun c hc => (hin c hc).2)
    refine ⟨u.bitLows ++ u.arrays.lows.filter (fun low => !anyBit u.bitmaps low),
      fun rounds hrounds => ?_, ?_⟩
    · have hlt := lows_length_lt u.arrays
      unfold mixedValues
      rw [if_neg hnil, mergedValues_eq _ (fun _ ha => lt_of_mem_lows ha) hspans hlists (by omega)]
      rfl
    · -- what the merge counts no bitmap has
      have hnot : ∀ i ∈ u.arrays.lows, ((!anyBit u.bitmaps i) = true ↔ i ∉ u.bitLows) := by
        intro i hi
        rw [mem_bitLows_iff hi, Bool.not_eq_true', Bool.not_eq_true]
      have hnodup : (u.bitLows ++ u.arrays.lows.filter fun low => !anyBit u.bitmaps low).Nodup := by
        refine List.nodup_append.mpr ⟨nodup_below _ _, (nodup_below _ _).filter _, ?_⟩
        rintro a ha b hb rfl
        obtain ⟨hmem, hbit⟩ := List.mem_filter.mp hb
        exact (hnot a hmem).mp hbit ha
      refine (List.perm_ext_iff_of_nodup hnodup (nodup_below _ _)).mpr fun i => ?_
      show i ∈ _ ++ _ ↔ i ∈ u.lows
      rw [List.mem_append, List.mem_filter, mem_lows_iff h]
      constructor
      · rintro (hbit | ⟨harr, -⟩)
        · exact Or.inl hbit
        · exact Or.inr harr
      · intro hcase
        by_cases hbit : i ∈ u.bitLows
        · exact Or.inl hbit
        · have harr := hcase.resolve_left hbit
          exact Or.inr ⟨harr, (hnot i harr).mpr hbit⟩

/-- The bits and the values of the merge are counted together. -/
theorem mixedUnionCardinality_of_values (h : u.Gathered) {values : List Nat}
    (hv : mixedValues 0x10001 u = some values) : mixedUnionCardinality u = values.length := by
  have hbits : bitmapsCardinality u.bitmaps u.low u.high = u.bitLows.length :=
    bitmapsCardinality_eq u.bitmaps h.le h.high_lt
  have hmixed : mixedUnionCardinality u = if u.arrays.parts = [] then u.bitLows.length
      else mergeSpansLoop (fun low => !anyBit u.bitmaps low) 0x10001 (keyUnionSpans u.arrays)
        u.bitLows.length := by
    rw [← hbits]
    rfl
  rw [hmixed]
  unfold mixedValues at hv
  by_cases hnil : u.arrays.parts = []
  · rw [if_pos hnil, Option.some.injEq] at hv
    rw [if_pos hnil, hv]
  · rw [if_neg hnil] at hv
    obtain ⟨merged, hrun, rfl⟩ := Option.map_eq_some_iff.mp hv
    rw [if_neg hnil, mergeSpansLoop_of_values _ hrun, List.length_append]

theorem mixedUnionCardinality_eq (h : u.Gathered) : mixedUnionCardinality u = u.lows.length := by
  obtain ⟨values, hrun, hperm⟩ := mixedValues_perm h
  rw [mixedUnionCardinality_of_values h (hrun 0x10001 (Nat.le_refl _)), hperm.length_eq]

/-- However a key's union is counted, its low parts are counted. -/
theorem keyUnionCardinality_eq (h : u.Gathered)
    (hb : u.anyBitmap = u.parts.any Container.isBitmap) :
    keyUnionCardinality u = u.lows.length := by
  unfold keyUnionCardinality
  split
  · rename_i part hp
    rw [containerRangeCardinality_eq (h.readable part (by rw [hp]; simp)) h.le h.high_lt]
    have := (h.lists false)
    rw [hp] at this
    exact congrArg List.length this.eq_of_singleton.symm
  · split
    · exact keyUnionWords_snd h
    · split
      · exact mixedUnionCardinality_eq h
      · rename_i hany
        refine mergedArraysCardinality_eq h (fun c hc => ?_)
        rw [hb, List.any_eq_true] at hany
        by_contra hcb
        exact hany ⟨c, hc, by simpa using hcb⟩

end Arnm.Roaring
