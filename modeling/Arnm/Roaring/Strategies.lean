import Arnm.Roaring.QueryKey

set_option autoImplicit false

/-! # One key answered in different ways

A key's union is counted in bits, by merging its arrays, or from its bitmaps and then its arrays;
with sets to intersect or to subtract, by looking up the values of one part, or in bits. Each way is
compared by the low parts it goes through: they are those of the key, each once. -/

namespace Arnm.Roaring

open Listing Words

/-- The bits set inside `[low, high]`. -/
def bitsIn (words : Array64) (low high : Nat) : List Nat :=
  below 65536 (fun i => low ≤ i ∧ i ≤ high ∧ Has words i)

/-- What `mergedArraysCardinality` counts. -/
def mergedArraysValues (rounds : Nat) (u : KeyUnion) : Option (List Nat) :=
  mergedValues (fun _ => true) rounds (keyUnionSpans u)

/-- The question `probesCountSlice` asks of a value: a bit test against a single bitmap. -/
def probesTest (probes : KeyProbes) : Nat → Bool :=
  match probes.all, probes.any, probes.none with
  | [⟨.bitmap words, _, _⟩], [], [] => fun low => (words (low >>> 6)).getLsbD (low &&& 63)
  | _, _, _ => probesMatch probes

/-- The values `probesCountSlice` counts. -/
def probesValues (probes : KeyProbes) (slice : DriverSlice) : List Nat :=
  ((List.range' slice.span.begin (slice.span.endAt - slice.span.begin)).map
    (driverAt slice)).filter (probesTest probes)

/-! ## A union -/

section Union

variable {u : KeyUnion}

/-- The bits of a key's union are its low parts. -/
theorem bitsIn_keyUnionWords (h : u.Gathered) :
    bitsIn (keyUnionWords u).1 u.low u.high = u.lows := by
  unfold bitsIn keyUnionWords
  rw [below_clipAndCount, lows_eq_below_has h]

/-- Merging goes through the low parts of a key without bitmaps, in their order. -/
theorem mergedArraysValues_eq (h : u.Gathered) (hb : ∀ c ∈ u.parts, c.isBitmap = false)
    {rounds : Nat} (hrounds : 0x10001 ≤ rounds) : mergedArraysValues rounds u = some u.lows := by
  obtain ⟨hlists, hspans⟩ := keyUnionSpans_rest h hb
  have hlt := lows_length_lt u
  unfold mergedArraysValues
  rw [mergedValues_eq _ (fun _ ha => lt_of_mem_lows ha) hspans hlists (by omega)]
  exact congrArg some (List.filter_eq_self.mpr fun _ _ => rfl)

end Union

/-! ## A key with sets to intersect -/

section Key

variable {key : QueryKey}

/-- The bit test is what the probes would answer. -/
theorem probesTest_eq (probes : KeyProbes) : probesTest probes = probesMatch probes := by
  unfold probesTest
  split
  · rename_i words _ _ hall hany hnone
    funext low
    rw [probesMatch, hall, hany, hnone]
    simp [probeHas]
  · rfl

/-- Looking up the values of any part of `all` goes through the matches, in their order. -/
theorem probesValues_eq (h : key.Gathered) {driver : Nat} {part : Container}
    (hd : key.all[driver]? = some part) (hb : part.isBitmap = false) :
    probesValues (keyProbesOf key driver) (driverSliceOf part key.low key.high) = key.lows := by
  have hr := h.readable part (Or.inl (List.mem_of_getElem? hd))
  have hvalues := map_driverAt hr hb false h.le h.high_lt
  simp only [Bool.false_eq_true, if_false, ordered_false] at hvalues
  have hslice : (List.range' (rangeSpan part key.low key.high).begin
      ((rangeSpan part key.low key.high).endAt - (rangeSpan part key.low key.high).begin)).map
        (driverAt (driverSliceOf part key.low key.high)) = part.within key.low key.high := by
    rw [← hvalues, List.range'_eq_map_range, List.map_map]
    rfl
  unfold probesValues
  rw [probesTest_eq, ← filter_within_eq_lows h hd, ← hslice]
  rfl

end Key

/-- Every way to count a union goes through the same low parts, and every way to count a key with
sets to intersect does; so the counts are the same, whichever way is taken. The merges are the
source's where the range holds less than `unionBitsFrom` array values, for more its buffer has no
room. -/
theorem strategies_agree :
    (∀ u : KeyUnion, u.Gathered →
      bitsIn (keyUnionWords u).1 u.low u.high = u.lows ∧
      (∃ values, (∀ rounds, 0x10001 ≤ rounds → mixedValues rounds u = some values) ∧
        values.Perm u.lows ∧ mixedUnionCardinality u = values.length) ∧
      mixedUnionCardinality u = (keyUnionWords u).2 ∧
      ((∀ c ∈ u.parts, c.isBitmap = false) →
        (∀ rounds, 0x10001 ≤ rounds → mergedArraysValues rounds u = some u.lows) ∧
        mergedArraysCardinality u = (keyUnionWords u).2) ∧
      (u.anyBitmap = u.parts.any Container.isBitmap →
        keyUnionCardinality u = (keyUnionWords u).2)) ∧
    ∀ key : QueryKey, key.Gathered →
      bitsIn (keyBits key).1 key.low key.high = key.lows ∧
      (∀ driver part, key.all[driver]? = some part → part.isBitmap = false →
        probesValues (keyProbesOf key driver) (driverSliceOf part key.low key.high) = key.lows ∧
        probesCountSlice (keyProbesOf key driver) (driverSliceOf part key.low key.high) =
          (keyBits key).2) ∧
      queryKeyCardinality key = (keyBits key).2 := by
  constructor
  · intro u h
    have hwords := keyUnionWords_snd h
    obtain ⟨values, hrun, hperm⟩ := mixedValues_perm h
    refine ⟨bitsIn_keyUnionWords h, ⟨values, hrun, hperm, ?_⟩, ?_, fun hb => ⟨?_, ?_⟩,
      fun hany => ?_⟩
    · rw [mixedUnionCardinality_eq h, hperm.length_eq]
    · rw [mixedUnionCardinality_eq h, hwords]
    · exact fun rounds hrounds => mergedArraysValues_eq h hb hrounds
    · rw [mergedArraysCardinality_eq h hb, hwords]
    · rw [keyUnionCardinality_eq h hany, hwords]
  · intro key h
    have hbits := keyBits_snd h
    refine ⟨keyBits_fst h, fun driver part hd hb => ⟨probesValues_eq h hd hb, ?_⟩, ?_⟩
    · rw [probesCountSlice_eq h hd hb, hbits]
    · rw [queryKeyCardinality_eq h, hbits]

/-- An array and a wide view of key 0, which share the value 7. -/
def sampleKey : QueryKey where
  all := [⟨4096, .array [5, 7], 2, 0, 4⟩]
  any := [⟨8192, .wide [7, 9], 2, 0, 0⟩]
  none := []
  key := 0
  low := 6
  high := 20

theorem gathered_sampleKey : sampleKey.Gathered := by
  have hreadable : ∀ c, c ∈ sampleKey.all ∨ c ∈ sampleKey.any ∨ c ∈ sampleKey.none →
      c.Readable ∧ c.key = 0 := by
    intro c hc
    simp only [sampleKey, List.mem_singleton, List.not_mem_nil, or_false] at hc
    rcases hc with rfl | rfl
    · exact ⟨⟨by decide, by decide, rfl, by decide⟩, rfl⟩
    · exact ⟨⟨by decide, by decide, rfl, by decide⟩, rfl⟩
  exact ⟨fun c hc => (hreadable c hc).1, fun c hc => (hreadable c hc).2, by decide, by decide,
    Or.inl (by decide)⟩

theorem strategies_agree_sample :
    mixedUnionCardinality sampleKey.union = (keyUnionWords sampleKey.union).2 ∧
      probesCountSlice (keyProbesOf sampleKey 0)
        (driverSliceOf ⟨4096, .array [5, 7], 2, 0, 4⟩ 6 20) = (keyBits sampleKey).2 := by
  constructor
  · exact (strategies_agree.1 sampleKey.union gathered_sampleKey.union).2.2.1
  · exact ((strategies_agree.2 sampleKey gathered_sampleKey).2.1 0 _ rfl rfl).2

end Arnm.Roaring
