import Arnm.Roaring.KeyEmit

set_option autoImplicit false

/-! # One key of a query

The parts of one key, sorted into the query's three lists, are answered in one of three ways: a
plain union as in `KeyUnion`, the values of the smallest part of `all` looked up in the others, or
bits. Each way counts the matches of the key (`QueryKey.lows`) and pages through them.
-/

namespace Arnm.Roaring

open Listing Words Merge

/-! ## The model -/

structure QueryKey where
  all : List Container
  any : List Container
  none : List Container
  key : Nat
  low : Nat
  high : Nat

/-- A part made ready to be asked about single values; `content` is the one of `words`, `array` and
`wide` that is not NULL. -/
structure PartProbe where
  content : Content
  count : Nat
  key : Nat

def probeOf (container : Container) : PartProbe :=
  ⟨container.content, container.cardinality, container.key⟩

/-- Whether `probe` holds `low`. -/
def probeHas (probe : PartProbe) (low : Nat) : Bool :=
  match probe.content with
  | .bitmap words => (words (low >>> 6)).getLsbD (low &&& 63)
  | .wide wide =>
      let value := valueOf probe.key low
      let position := lowerBound32 wide probe.count value
      decide (position < probe.count) && decide (wide.getD position 0 = value)
  | .array array =>
      let position := lowerBound16 array probe.count low
      decide (position < probe.count) && decide (array.getD position 0 = low)

/-- The parts a value has to be checked against once the driver has it. -/
structure KeyProbes where
  all : List PartProbe
  any : List PartProbe
  none : List PartProbe

def keyProbesOf (key : QueryKey) (driver : Nat) : KeyProbes :=
  ⟨(key.all.eraseIdx driver).map probeOf, key.any.map probeOf, key.none.map probeOf⟩

/-- Whether `low` is a match once the driver has it: in the rest of all, in any, in no none. -/
def probesMatch (probes : KeyProbes) (low : Nat) : Bool :=
  probes.all.all (fun probe => probeHas probe low)
    && (probes.any.isEmpty || probes.any.any (fun probe => probeHas probe low))
    && !probes.none.any (fun probe => probeHas probe low)

/-- The values of the part a key is read from: a span of its entries, and whether they are a
view's. -/
structure DriverSlice where
  span : Span
  wide : Bool

def driverSliceOf (container : Container) (low high : Nat) : DriverSlice :=
  ⟨rangeSpan container low high, container.isWide⟩

def driverAt (slice : DriverSlice) (index : Nat) : Nat :=
  if slice.wide then lowOf (slice.span.values.getD index 0) else slice.span.values.getD index 0

/-- Values of `slice` the probes match; against a single bitmap a bit test per value. -/
def probesCountSlice (probes : KeyProbes) (slice : DriverSlice) : Nat :=
  let indices := List.range' slice.span.begin (slice.span.endAt - slice.span.begin)
  match probes.all, probes.any, probes.none with
  | [⟨.bitmap words, _, _⟩], [], [] =>
      (indices.map (fun i =>
        let low := driverAt slice i
        if (words (low >>> 6)).getLsbD (low &&& 63) then 1 else 0)).sum
  | _, _, _ => (indices.map (fun i => if probesMatch probes (driverAt slice i) then 1 else 0)).sum

/-- The loop of `probesPageSlice` over its steps. -/
def probesPageLoop (probes : KeyProbes) (slice : DriverSlice) (key : Nat) (descending : Bool) :
    List Nat → Nat → Nat → List Nat × Nat
  | [], skip, _ => ([], skip)
  | n :: steps, skip, size =>
      if size = 0 then ([], skip)
      else
        let index := if descending then slice.span.endAt - 1 - n else slice.span.begin + n
        let low := driverAt slice index
        if !probesMatch probes low then probesPageLoop probes slice key descending steps skip size
        else if 0 < skip then probesPageLoop probes slice key descending steps (skip - 1) size
        else
          let rest := probesPageLoop probes slice key descending steps 0 (size - 1)
          (valueOf key low :: rest.1, rest.2)

/-- One page out of `slice`: the matches after `skip`, from the near end or the far one. -/
def probesPageSlice (probes : KeyProbes) (slice : DriverSlice) (key skip size : Nat)
    (descending : Bool) : List Nat × Nat :=
  probesPageLoop probes slice key descending
    (List.range (slice.span.endAt - slice.span.begin)) skip size

/-- The part of `all` with the fewest values. -/
def keyDriver (key : QueryKey) : Nat :=
  (List.range key.all.length).foldl
    (fun smallest i =>
      if (key.all[i]?.map Container.cardinality).getD 0
          < (key.all[smallest]?.map Container.cardinality).getD 0 then i
      else smallest) 0

/-- Clears the bits of `container` inside `[low, high]` in `words`. -/
def bitsWithoutPart (words : Array64) (container : Container) (low high : Nat) : Array64 :=
  match container.content with
  | .bitmap x =>
      fun w => if low >>> 6 ≤ w ∧ w ≤ high >>> 6 then words w &&& ~~~(x w) else words w
  | .wide wide =>
      let begin := lowerBound32 wide container.cardinality (valueOf container.key low)
      let endAt := upperBound32 wide container.cardinality (valueOf container.key high)
      (((wide.drop begin).take (endAt - begin)).map lowOf).foldl clearBit words
  | .array array =>
      let begin := lowerBound16 array container.cardinality low
      let endAt := upperBound16 array container.cardinality high
      ((array.drop begin).take (endAt - begin)).foldl clearBit words

/-- `words[w] &= scratch[w]` for the words of the range. -/
def andWords (words scratch : Array64) (low high : Nat) : Array64 :=
  fun w => if low >>> 6 ≤ w ∧ w ≤ high >>> 6 then words w &&& scratch w else words w

/-- Sets the bits of every part in cleared words; the words outside the range are never read. -/
def bitsOfParts (parts : List Container) (low high : Nat) : Array64 :=
  parts.foldl (fun words c => bitsOfPart words c low high) (fun _ => 0)

/-- The matching values of one key as bits, edges masked, and their count. -/
def keyBits (key : QueryKey) : Array64 × Nat :=
  let words :=
    match key.all with
    | [] => bitsOfParts key.any key.low key.high
    | first :: others =>
        let words := bitsOfParts [first] key.low key.high
        let words := others.foldl
          (fun words c => andWords words (bitsOfParts [c] key.low key.high) key.low key.high) words
        if key.any = [] then words
        else andWords words (bitsOfParts key.any key.low key.high) key.low key.high
  let words := key.none.foldl (fun words c => bitsWithoutPart words c key.low key.high) words
  clipAndCount words key.low key.high

/-- Whether the key is read value by value from its smallest part of all, rather than combined in
bits. -/
def keyReadsValues (key : QueryKey) (driver : Nat) : Option Container :=
  (key.all[driver]?).filter (fun c => !c.isBitmap)

/-- A plain union of this key's parts. -/
def QueryKey.union (key : QueryKey) : KeyUnion :=
  ⟨key.any, key.key, key.low, key.high, key.any.any Container.isBitmap⟩

def queryKeyCardinality (key : QueryKey) : Nat :=
  if key.all = [] ∧ key.none = [] then keyUnionCardinality key.union
  else
    let driver := keyDriver key
    match key.all, key.any, key.none with
    | [part], [], [] => containerRangeCardinality part key.low key.high
    | _, _, _ =>
        match keyReadsValues key driver with
        | some part =>
            probesCountSlice (keyProbesOf key driver) (driverSliceOf part key.low key.high)
        | none => (keyBits key).2

def queryKeyPage (key : QueryKey) (skip size : Nat) (descending : Bool) : List Nat × Nat :=
  if key.all = [] ∧ key.none = [] then
    -- a key the skip passes over whole is counted, never read value by value
    let inKey := keyUnionCardinality key.union
    if 0 < skip ∧ inKey ≤ skip then ([], skip - inKey)
    else keyUnionEmit key.union skip size descending
  else
    let driver := keyDriver key
    match keyReadsValues key driver with
    | some part =>
        probesPageSlice (keyProbesOf key driver) (driverSliceOf part key.low key.high) key.key skip
          size descending
    | none =>
        let bits := keyBits key
        if bits.2 ≤ skip then ([], skip - bits.2)
        else wordsEmit bits.1 key.low key.high key.key skip size descending

/-! ## The matches of a key -/

namespace QueryKey

/-- A low part in every part of `all`, in some part of `any` if there is one, in no part of
`none`. -/
def Match (key : QueryKey) (low : Nat) : Prop :=
  (∀ c ∈ key.all, low ∈ c.lows) ∧ (key.any ≠ [] → ∃ c ∈ key.any, low ∈ c.lows) ∧
    ∀ c ∈ key.none, low ∉ c.lows

instance (key : QueryKey) (low : Nat) : Decidable (key.Match low) := by
  unfold Match; infer_instance

/-- The matches of the range, ascending. -/
def lows (key : QueryKey) : List Nat :=
  below 65536 (fun i => key.low ≤ i ∧ i ≤ key.high ∧ key.Match i)

/-- A key as the walk gathers it: readable parts of this key, a range that is not empty, and a part
to read the matches from. -/
structure Gathered (key : QueryKey) : Prop where
  readable : ∀ c, c ∈ key.all ∨ c ∈ key.any ∨ c ∈ key.none → c.Readable
  key_eq : ∀ c, c ∈ key.all ∨ c ∈ key.any ∨ c ∈ key.none → c.key = key.key
  le : key.low ≤ key.high
  high_lt : key.high < 65536
  ne : key.all ≠ [] ∨ key.any ≠ []

end QueryKey

variable {key : QueryKey}

/-! ### A plain union -/

theorem QueryKey.Gathered.union (h : key.Gathered) : key.union.Gathered :=
  ⟨fun c hc => h.readable c (Or.inr (Or.inl hc)), fun c hc => h.key_eq c (Or.inr (Or.inl hc)), h.le,
    h.high_lt⟩

theorem union_lows (h : key.Gathered) (ha : key.all = [] ∧ key.none = []) :
    key.union.lows = key.lows := by
  refine below_congr (fun i _ => and_congr_right (fun _ => and_congr_right (fun _ => ?_)))
  have hne : key.any ≠ [] := h.ne.resolve_left (fun hc => hc ha.1)
  rw [QueryKey.Match, ha.1, ha.2]
  simp [QueryKey.union, hne]

/-! ### Values looked up -/

theorem probeHas_iff {c : Container} (hc : c.Readable) {i : Nat} (hi : i < 65536) :
    probeHas (probeOf c) i = true ↔ i ∈ c.lows := by
  have hs := hc.sorted
  have hcard := hc.cardinality_eq
  unfold probeHas probeOf
  unfold Container.lows at hcard ⊢
  cases hk : c.content with
  | bitmap words =>
      simp only [mem_below, shiftRight_6, and_63, Has]
      exact ⟨fun h => ⟨hi, h⟩, fun h => h.2⟩
  | array values =>
      rw [hk] at hs hcard
      simp only [lowerBound16] at hcard ⊢
      rw [hcard]
      exact lowerBound_hit hs.1 i
  | wide values =>
      rw [hk] at hs hcard
      simp only [lowerBound32, List.length_map, List.mem_map] at hcard ⊢
      rw [hcard]
      refine (lowerBound_hit hs.1 (valueOf c.key i)).trans ?_
      constructor
      · intro hm
        exact ⟨_, hm, lowOf_valueOf c.key hi⟩
      · rintro ⟨v, hv, rfl⟩
        rwa [← hs.2 v hv, valueOf_keyOf_lowOf]

/-- Once the driver has a value, the other parts decide. -/
theorem probesMatch_iff (h : key.Gathered) {driver : Nat} {part : Container}
    (hd : key.all[driver]? = some part) {i : Nat} (hi : i ∈ part.lows) :
    probesMatch (keyProbesOf key driver) i = true ↔ key.Match i := by
  obtain ⟨hlt, rfl⟩ := List.getElem?_eq_some_iff.mp hd
  have hperm := List.getElem_cons_eraseIdx_perm hlt
  have hi' : i < 65536 :=
    (h.readable _ (Or.inl (List.getElem_mem hlt))).lt_of_mem hi
  have hall : ∀ c ∈ key.all.eraseIdx driver, c ∈ key.all := fun c hc => List.mem_of_mem_eraseIdx hc
  simp only [probesMatch, keyProbesOf, Bool.and_eq_true, Bool.or_eq_true, Bool.not_eq_true',
    QueryKey.Match, and_assoc]
  -- all but the driver have it, some of any do, none of none does
  refine and_congr ?_ (and_congr ?_ ?_)
  · rw [List.all_map, List.all_eq_true]
    constructor
    · intro hp c hc
      rcases List.mem_cons.mp (hperm.mem_iff.mpr hc) with rfl | hm
      · exact hi
      · exact (probeHas_iff (h.readable c (Or.inl (hall c hm))) hi').mp (hp c hm)
    · intro hp c hc
      exact (probeHas_iff (h.readable c (Or.inl (hall c hc))) hi').mpr (hp c (hall c hc))
  · rw [List.isEmpty_iff, List.map_eq_nil_iff, List.any_map, List.any_eq_true]
    constructor
    · rintro (hnil | ⟨c, hc, hp⟩) hne
      · exact absurd hnil hne
      · exact ⟨c, hc, (probeHas_iff (h.readable c (Or.inr (Or.inl hc))) hi').mp hp⟩
    · intro hp
      by_cases hne : key.any = []
      · exact Or.inl hne
      · obtain ⟨c, hc, hm⟩ := hp hne
        exact Or.inr ⟨c, hc, (probeHas_iff (h.readable c (Or.inr (Or.inl hc))) hi').mpr hm⟩
  · rw [List.any_map, List.any_eq_false]
    exact forall₂_congr (fun c hc =>
      not_congr (probeHas_iff (h.readable c (Or.inr (Or.inr hc))) hi'))

/-- The matches are the driver's values that match. -/
theorem filter_within_eq_lows (h : key.Gathered) {driver : Nat} {part : Container}
    (hd : key.all[driver]? = some part) :
    (part.within key.low key.high).filter (probesMatch (keyProbesOf key driver)) = key.lows := by
  have hmem : part ∈ key.all := List.mem_of_getElem? hd
  have hr := h.readable part (Or.inl hmem)
  refine eq_of_mem_iff_lt ((hr.pairwise_lows.filter _).filter _) (pairwise_below _ _) (fun i => ?_)
  rw [List.mem_filter, mem_within, QueryKey.lows, mem_below]
  constructor
  · rintro ⟨⟨hi, h1, h2⟩, hp⟩
    exact ⟨hr.lt_of_mem hi, h1, h2, (probesMatch_iff h hd hi).mp hp⟩
  · rintro ⟨h0, h1, h2, hm⟩
    have hi := hm.1 part hmem
    exact ⟨⟨hi, h1, h2⟩, (probesMatch_iff h hd hi).mpr hm⟩

section Slice

variable {part : Container} (hr : part.Readable) (hb : part.isBitmap = false) {low high : Nat}

theorem driverAt_eq (index : Nat) :
    driverAt (driverSliceOf part low high) index
      = lowAt part ((rangeSpan part low high).values.getD index 0) := by
  unfold driverAt driverSliceOf lowAt Container.isWide
  cases part.content <;> rfl

include hr hb in
/-- The slice read in walking order lists the driver's values of the range. -/
theorem map_driverAt (d : Bool) (hle : low ≤ high) (hh : high < 65536) :
    (List.range ((rangeSpan part low high).endAt - (rangeSpan part low high).begin)).map (fun n =>
        driverAt (driverSliceOf part low high)
          (if d then (rangeSpan part low high).endAt - 1 - n
            else (rangeSpan part low high).begin + n))
      = ordered d (part.within low high) := by
  obtain ⟨h1, h2, h3⟩ := rangeSpan_spec hr hb hle hh
  have ht := spanTake_eq d h2 h3 0 (rangeSpan part low high).size (by omega)
  rw [List.drop_zero, List.take_of_length_le (by rw [length_ordered, Span.length_rest h3])] at ht
  rw [← h1, ordered_map, ← ht, spanTake, List.map_map]
  refine List.map_congr_left (fun n _ => ?_)
  rw [driverAt_eq, Function.comp_apply, Nat.sub_zero, Nat.add_zero]

include hr hb in
theorem sum_driverAt (hle : low ≤ high) (hh : high < 65536) (p : Nat → Bool) :
    ((List.range' (rangeSpan part low high).begin
        ((rangeSpan part low high).endAt - (rangeSpan part low high).begin)).map (fun i =>
          if p (driverAt (driverSliceOf part low high) i) then 1 else 0)).sum
      = ((part.within low high).filter p).length := by
  have hm := map_driverAt hr hb false hle hh
  simp only [Bool.false_eq_true, if_false, ordered_false] at hm
  rw [← hm, List.range'_eq_map_range, List.map_map, List.filter_map, List.length_map]
  induction List.range ((rangeSpan part low high).endAt - (rangeSpan part low high).begin) with
  | nil => rfl
  | cons n l ih =>
      rw [List.map_cons, List.sum_cons, ih]
      simp only [Function.comp_apply, List.filter_cons]
      split
      · simp; omega
      · simp

end Slice

theorem probesCountSlice_eq (h : key.Gathered) {driver : Nat} {part : Container}
    (hd : key.all[driver]? = some part) (hb : part.isBitmap = false) :
    probesCountSlice (keyProbesOf key driver) (driverSliceOf part key.low key.high)
      = key.lows.length := by
  have hr := h.readable part (Or.inl (List.mem_of_getElem? hd))
  rw [← filter_within_eq_lows h hd, ← sum_driverAt hr hb h.le h.high_lt]
  unfold probesCountSlice
  split
  · rename_i words _ _ hall hany hnone
    have hpm : ∀ i, probesMatch (keyProbesOf key driver) i
        = (words (i >>> 6)).getLsbD (i &&& 63) := by
      intro i
      rw [probesMatch, hall, hany, hnone]
      simp [probeHas]
    simp only [hpm]
    rfl
  · rfl

theorem probesPageLoop_eq (probes : KeyProbes) (slice : DriverSlice) (k : Nat) (d : Bool)
    (steps : List Nat) :
    ∀ skip size, (size = 0 → skip = 0) →
      probesPageLoop probes slice k d steps skip size
        = page (((steps.map (fun n => driverAt slice
            (if d then slice.span.endAt - 1 - n else slice.span.begin + n))).filter
              (probesMatch probes)).map (valueOf k)) skip size := by
  induction steps with
  | nil =>
      intro skip size _; rw [probesPageLoop, List.map_nil, List.filter_nil, List.map_nil, page_nil]
  | cons n steps ih =>
      intro skip size hz
      rw [probesPageLoop, List.map_cons]
      by_cases h0 : size = 0
      · rw [if_pos h0, h0, hz h0]
        simp [page]
      · rw [if_neg h0]
        simp only
        by_cases hm : probesMatch probes (driverAt slice
            (if d then slice.span.endAt - 1 - n else slice.span.begin + n)) = true
        · rw [if_neg (by simp [hm]), List.filter_cons_of_pos hm]
          exact page_step (by omega) ih
        · rw [if_pos (by simp [hm]), List.filter_cons_of_neg hm]
          exact ih skip size hz

theorem probesPageSlice_eq (h : key.Gathered) {driver : Nat} {part : Container}
    (hd : key.all[driver]? = some part) (hb : part.isBitmap = false) (d : Bool) {skip size : Nat}
    (hz : size = 0 → skip = 0) :
    probesPageSlice (keyProbesOf key driver)
      (driverSliceOf part key.low key.high) key.key skip size d
      = page ((ordered d key.lows).map (valueOf key.key)) skip size := by
  have hr := h.readable part (Or.inl (List.mem_of_getElem? hd))
  rw [probesPageSlice, probesPageLoop_eq _ _ _ _ _ _ _ hz]
  have hm := map_driverAt hr hb d h.le h.high_lt
  have hs : (driverSliceOf part key.low key.high).span = rangeSpan part key.low key.high := rfl
  rw [hs, hm, ← filter_within_eq_lows h hd]
  cases d with
  | false => rfl
  | true => rw [ordered_true, ordered_true, List.filter_reverse]

/-! ### Bits -/

theorem has_bitsWithoutPart {c : Container} (hc : c.Readable) (words : Array64) {low high i : Nat}
    (hl : low ≤ i) (hi : i ≤ high) (hh : high < 65536) :
    Has (bitsWithoutPart words c low high) i ↔ Has words i ∧ i ∉ c.lows := by
  unfold bitsWithoutPart
  cases hk : c.content with
  | array values =>
      simp only [lowerBound16, upperBound16]
      rw [(slice_lows hc (by omega) hh _).2 hk, has_foldl_clearBit, mem_within]
      simp [hl, hi]
  | wide values =>
      simp only [lowerBound32, upperBound32]
      rw [(slice_lows hc (by omega) hh _).1 hk, has_foldl_clearBit, mem_within]
      simp [hl, hi]
  | bitmap x =>
      simp only [Has, shiftRight_6]
      rw [if_pos (by omega), BitVec.getLsbD_and, BitVec.getLsbD_not, Bool.and_eq_true]
      refine and_congr_right (fun _ => ?_)
      simp only [Container.lows, hk, mem_below, Has]
      simp only [show i % 64 < 64 by omega, decide_true, Bool.true_and, Bool.not_eq_true',
        show i < 65536 by omega, true_and, Bool.not_eq_true]

theorem has_foldl_bitsWithoutPart {parts : List Container} (hp : ∀ c ∈ parts, c.Readable)
    (words : Array64) {low high i : Nat} (hl : low ≤ i) (hi : i ≤ high) (hh : high < 65536) :
    Has (parts.foldl (fun words c => bitsWithoutPart words c low high) words) i
      ↔ Has words i ∧ ∀ c ∈ parts, i ∉ c.lows :=
  foldl_iff_and (q := fun words => Has words i)
    (fun c hc words => has_bitsWithoutPart (hp c hc) words hl hi hh) words

theorem has_andWords (words scratch : Array64) {low high i : Nat} (hl : low ≤ i) (hi : i ≤ high) :
    Has (andWords words scratch low high) i ↔ Has words i ∧ Has scratch i := by
  simp only [Has, andWords, shiftRight_6]
  rw [if_pos ⟨Nat.div_le_div_right hl, Nat.div_le_div_right hi⟩, BitVec.getLsbD_and,
    Bool.and_eq_true]

theorem has_bitsOfParts {parts : List Container} (hp : ∀ c ∈ parts, c.Readable) {low high i : Nat}
    (hl : low ≤ i) (hi : i ≤ high) (hh : high < 65536) :
    Has (bitsOfParts parts low high) i ↔ ∃ c ∈ parts, i ∈ c.lows := by
  rw [bitsOfParts, has_foldl_bitsOfPart hp _ hl hi hh]
  simp

theorem has_foldl_andWords {parts : List Container} (hp : ∀ c ∈ parts, c.Readable)
    (words : Array64) {low high i : Nat} (hl : low ≤ i) (hi : i ≤ high) (hh : high < 65536) :
    Has (parts.foldl (fun words c => andWords words (bitsOfParts [c] low high) low high) words) i
      ↔ Has words i ∧ ∀ c ∈ parts, i ∈ c.lows := by
  have hstep : ∀ c ∈ parts, ∀ words : Array64,
      Has (andWords words (bitsOfParts [c] low high) low high) i ↔ Has words i ∧ i ∈ c.lows := by
    intro c hc words
    rw [has_andWords _ _ hl hi, has_bitsOfParts (by simpa using hp c hc) hl hi hh]
    simp
  exact foldl_iff_and (q := fun words => Has words i) hstep words

/-- The bits before the edges are masked. -/
theorem keyBits_has (h : key.Gathered) :
    ∃ words, keyBits key = clipAndCount words key.low key.high ∧
      ∀ i, key.low ≤ i → i ≤ key.high → (Has words i ↔ key.Match i) := by
  refine ⟨_, rfl, fun i hl hi => ?_⟩
  have hh := h.high_lt
  have hall : ∀ c ∈ key.all, c.Readable := fun c hc => h.readable c (Or.inl hc)
  have hany : ∀ c ∈ key.any, c.Readable := fun c hc => h.readable c (Or.inr (Or.inl hc))
  rw [has_foldl_bitsWithoutPart (fun c hc => h.readable c (Or.inr (Or.inr hc))) _ hl hi hh,
    QueryKey.Match, ← and_assoc]
  refine and_congr_left (fun _ => ?_)
  cases hk : key.all with
  | nil =>
      have hne : key.any ≠ [] := h.ne.resolve_left (fun hc => hc hk)
      simp only
      rw [has_bitsOfParts hany hl hi hh]
      simp [hne]
  | cons first others =>
      have hfirst : ∀ c ∈ [first], c.Readable := by
        intro c hc
        rw [List.mem_singleton] at hc
        exact hall c (by rw [hk, hc]; simp)
      have hothers : ∀ c ∈ others, c.Readable := fun c hc => hall c (by rw [hk]; simp [hc])
      simp only
      by_cases hne : key.any = []
      · rw [if_pos hne, has_foldl_andWords hothers _ hl hi hh, has_bitsOfParts hfirst hl hi hh]
        simp [hne]
      · rw [if_neg hne, has_andWords _ _ hl hi, has_foldl_andWords hothers _ hl hi hh,
          has_bitsOfParts hfirst hl hi hh, has_bitsOfParts hany hl hi hh]
        simp [hne]

theorem keyBits_snd (h : key.Gathered) : (keyBits key).2 = key.lows.length := by
  obtain ⟨words, hw, hhas⟩ := keyBits_has h
  rw [hw, clipAndCount_snd _ h.high_lt]
  exact congrArg List.length (below_congr (fun i _ => and_congr_right (fun h1 =>
    and_congr_right (fun h2 => hhas i h1 h2))))

theorem keyBits_fst (h : key.Gathered) :
    below 65536 (fun i => key.low ≤ i ∧ i ≤ key.high ∧ Has (keyBits key).1 i) = key.lows := by
  obtain ⟨words, hw, hhas⟩ := keyBits_has h
  rw [hw, below_clipAndCount]
  exact below_congr (fun i _ => and_congr_right (fun h1 => and_congr_right (fun h2 =>
    hhas i h1 h2)))

theorem wordsEmit_keyBits (h : key.Gathered) (d : Bool) {skip size : Nat}
    (hz : size = 0 → skip = 0) :
    wordsEmit (keyBits key).1 key.low key.high key.key skip size d
      = page ((ordered d key.lows).map (valueOf key.key)) skip size := by
  rw [wordsEmit_eq _ key.key d h.high_lt hz, keyBits_fst h]

/-! ### The answers -/

theorem keyReadsValues_spec {driver : Nat} {part : Container}
    (hk : keyReadsValues key driver = some part) :
    key.all[driver]? = some part ∧ part.isBitmap = false := by
  rw [keyReadsValues, Option.filter_eq_some_iff] at hk
  simpa using hk

/-- Whichever way a key is counted, its matches are counted. -/
theorem queryKeyCardinality_eq (h : key.Gathered) : queryKeyCardinality key = key.lows.length := by
  unfold queryKeyCardinality
  by_cases hu : key.all = [] ∧ key.none = []
  · rw [if_pos hu, keyUnionCardinality_eq h.union rfl, union_lows h hu]
  · rw [if_neg hu]
    simp only
    split
    · rename_i part hall hany hnone
      have hr := h.readable part (Or.inl (by rw [hall]; simp))
      rw [containerRangeCardinality_eq hr h.le h.high_lt, filter_eq_below hr.pairwise_lows
        (fun a ha => hr.lt_of_mem ha)]
      refine congrArg List.length (below_congr (fun i _ => ?_))
      rw [QueryKey.Match, hall, hany, hnone]
      simp only [List.mem_singleton, forall_eq, ne_eq, not_true_eq_false, false_implies,
        List.not_mem_nil, implies_true, and_true]
      tauto
    · split
      · rename_i part hk
        obtain ⟨hd, hb⟩ := keyReadsValues_spec hk
        exact probesCountSlice_eq h hd hb
      · exact keyBits_snd h

/-- Whichever way a key is paged through, the page is that of its matches. -/
theorem queryKeyPage_eq (h : key.Gathered) (d : Bool) {skip size : Nat} (hs : 0 < size) :
    queryKeyPage key skip size d = page ((ordered d key.lows).map (valueOf key.key)) skip size := by
  have hz : size = 0 → skip = 0 := fun h0 => absurd h0 (by omega)
  have hlen : ((ordered d key.lows).map (valueOf key.key)).length = key.lows.length := by
    rw [List.length_map, length_ordered]
  unfold queryKeyPage
  by_cases hu : key.all = [] ∧ key.none = []
  · have hlows := union_lows h hu
    rw [if_pos hu, keyUnionCardinality_eq h.union rfl, hlows]
    simp only
    by_cases hsk : 0 < skip ∧ key.lows.length ≤ skip
    · rw [if_pos hsk, page_of_length_le size (by rw [hlen]; exact hsk.2), hlen]
    · rw [if_neg hsk, keyUnionEmit_eq h.union hz, hlows]
      rfl
  · rw [if_neg hu]
    simp only
    split
    · rename_i part hk
      obtain ⟨hd, hb⟩ := keyReadsValues_spec hk
      exact probesPageSlice_eq h hd hb d hz
    · rw [keyBits_snd h]
      by_cases hsk : key.lows.length ≤ skip
      · rw [if_pos hsk, page_of_length_le size (by rw [hlen]; exact hsk), hlen]
      · rw [if_neg hsk]
        exact wordsEmit_keyBits h d hz

end Arnm.Roaring
