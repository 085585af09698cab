import Arnm.Roaring.CheckedOps

set_option autoImplicit false

/-! # Queries with their buffer, and every call

A query copies the slices of views into the 128 `lows` of `key_union_spans`; its sources have no
buffer. With the calls of `roaring_bitmap.c` and `roaring_ops.c` these are all the calls that write
into a buffer of values on the stack, and none of them leaves one.
-/

namespace Arnm.Roaring

open Listing Words Memory Lending

/-! ## The spans of a key -/

/-- The loop of `key_union_spans`; the slice of a view is copied behind what `lows` holds, and later
slices go behind it. -/
def keyUnionSpansLoop (u : KeyUnion) :
    List Container → Buffer Nat unionBitsFrom → Option (List Span)
  | [], _ => some []
  | c :: parts, lows =>
    match c.content with
    | .wide wide =>
      let begin := lowerBound32 wide c.cardinality (valueOf u.key u.low)
      let endAt := upperBound32 wide c.cardinality (valueOf u.key u.high)
      (lows.putAll ((Buffer.readOut wide 0 begin endAt).map lowOf)).bind fun filled =>
        (keyUnionSpansLoop u parts filled).map fun spans =>
          ⟨filled.entries.drop lows.entries.length, 0, endAt - begin⟩ :: spans
    | _ => (keyUnionSpansLoop u parts lows).map fun spans => rangeSpan c u.low u.high :: spans

/-- `keyUnionSpans`, its `unionBitsFrom` `lows` checked. -/
def keyUnionSpansChecked (u : KeyUnion) : Option (List Span) :=
  keyUnionSpansLoop u u.parts (Buffer.empty Nat unionBitsFrom)

/-- `mergedArraysCardinality`, checked. -/
def mergedArraysCardinalityChecked (u : KeyUnion) : Option Nat :=
  (keyUnionSpansChecked u).map fun spans => mergeSpansLoop (fun _ => true) 0x10001 spans 0

/-- `mixedUnionCardinality`, checked. -/
def mixedUnionCardinalityChecked (u : KeyUnion) : Option Nat :=
  let bitmaps := (u.parts.filter Container.isBitmap).map Container.wordsOf
  let arrays := u.parts.filter (fun c => !c.isBitmap)
  let total := bitmapsCardinality bitmaps u.low u.high
  if arrays = [] then some total
  else
    (keyUnionSpansChecked { u with parts := arrays, anyBitmap := false }).map fun spans =>
      mergeSpansLoop (fun low => !anyBit bitmaps low) 0x10001 spans total

/-- `keyUnionCardinality`, checked. -/
def keyUnionCardinalityChecked (u : KeyUnion) : Option Nat :=
  match u.parts with
  | [part] => some (containerRangeCardinality part u.low u.high)
  | _ =>
      -- from here on `lows` would have no room
      if unionBitsFrom ≤ arrayValuesInRange u then some (keyUnionWords u).2
      else if u.anyBitmap then mixedUnionCardinalityChecked u
      else mergedArraysCardinalityChecked u

/-- `queryKeyCardinality`, checked. -/
def queryKeyCardinalityChecked (key : QueryKey) : Option Nat :=
  if key.all = [] ∧ key.none = [] then keyUnionCardinalityChecked key.union
  else some (queryKeyCardinality key)

/-- `queryKeyPage`, checked; a key is counted only where values are to be passed over. -/
def queryKeyPageChecked (key : QueryKey) (skip size : Nat) (descending : Bool) :
    Option (List Nat × Nat) :=
  if key.all = [] ∧ key.none = [] then
    if 0 < skip then
      (keyUnionCardinalityChecked key.union).map fun inKey =>
        if inKey ≤ skip then ([], skip - inKey) else keyUnionEmit key.union skip size descending
    else some (keyUnionEmit key.union skip size descending)
  else some (queryKeyPage key skip size descending)

/-! ## The walks of a query -/

/-- `walkCardinality`, checked; none where the rounds did not last. -/
def walkCardinalityChecked : Nat → QueryWalk → Nat → Option Nat
  | 0, _, _ => none
  | fuel + 1, walk, total =>
      match queryWalkNext walk with
      | none => some total
      | some (key, walk) =>
          (queryKeyCardinalityChecked key).bind fun inKey =>
            walkCardinalityChecked fuel walk (total + inKey)

/-- `walkPage`, checked. -/
def walkPageChecked (descending : Bool) : Nat → QueryWalk → Nat → Nat → Option (List Nat)
  | 0, _, _, _ => none
  | fuel + 1, walk, skip, size =>
      if size = 0 then some []
      else
        match queryWalkNext walk with
        | none => some []
        | some (key, walk) =>
            (queryKeyPageChecked key skip size descending).bind fun r =>
              (walkPageChecked descending fuel walk r.2 (size - r.1.length)).map (r.1 ++ ·)

/-- `walkListing`, checked. -/
def walkListingChecked (descending : Bool) :
    Nat → QueryWalk → Nat → Nat → Nat → Option (List Nat × Nat)
  | 0, _, _, _, _ => none
  | fuel + 1, walk, skip, size, total =>
      match queryWalkNext walk with
      | none => some ([], total)
      | some (key, walk) =>
          (queryKeyCardinalityChecked key).bind fun inKey =>
            if 0 < size then
              if inKey ≤ skip then
                walkListingChecked descending fuel walk (skip - inKey) size (total + inKey)
              else
                (queryKeyPageChecked key skip size descending).bind fun r =>
                  (walkListingChecked descending fuel walk r.2 (size - r.1.length)
                    (total + inKey)).map fun rest => (r.1 ++ rest.1, rest.2)
            else walkListingChecked descending fuel walk skip size (total + inKey)

/-- `queryCardinality`, checked. -/
def queryCardinalityChecked (query : Option Query) (out : Bool) : Option (Except Result Nat) :=
  match query, checkQuery query with
  | some query, .success =>
      if !out then some (.error .errorNullPointer)
      else if query.min ≤ query.max then
        if queryIsSparseUnion query then
          let spans := sparseSpansOf query.anySets query.min query.max
          some (.ok (if spans = [] then 0 else sparseUnionCardinality spans))
        else
          (walkCardinalityChecked 0x10001 (queryWalkBegin query false false) 0).map Except.ok
      else some (.ok 0)
  | _, result => some (.error result)

/-- `queryPage`, checked. -/
def queryPageChecked (query : Option Query) (skip size : Nat) (descending out written : Bool) :
    Option (Except Result Page) :=
  match query, checkQuery query with
  | some query, .success =>
      if !written ∨ (size ≠ 0 ∧ !out) then some (.error .errorNullPointer)
      else
        let values :=
          if size ≠ 0 ∧ query.min ≤ query.max then
            if queryIsSparseUnion query then
              let spans := sparseSpansOf query.anySets query.min query.max
              some (if spans = [] then [] else sparseUnionPage spans skip size descending)
            else walkPageChecked descending 0x10001 (queryWalkBegin query descending true) skip size
          else some []
        values.map fun values => .ok ⟨values, values.length⟩
  | _, result => some (.error result)

/-- `queryListing`, checked. -/
def queryListingChecked (query : Option Query) (skip size : Nat)
    (descending out written cardinality : Bool) : Option (Except Result ListingPage) :=
  match query, checkQuery query with
  | some query, .success =>
      if !written ∨ !cardinality ∨ (size ≠ 0 ∧ !out) then some (.error .errorNullPointer)
      else
        let listed :=
          if query.min ≤ query.max then
            if queryIsSparseUnion query then
              let spans := sparseSpansOf query.anySets query.min query.max
              some (if spans = [] then ([], 0)
                else
                  (if size ≠ 0 then sparseUnionPage spans skip size descending else [],
                    sparseUnionCardinality spans))
            else
              walkListingChecked descending 0x10001
                (queryWalkBegin query descending true) skip size 0
          else some ([], 0)
        listed.map fun r => .ok ⟨⟨r.1, r.1.length⟩, r.2⟩
  | _, result => some (.error result)

/-! ## The slices of views fit -/

section Spans

variable {u : KeyUnion} {c : Container}

/-- A part's entries inside `[low, high]`, as `array_values_in_range` counts them. -/
def valuesInRange (u : KeyUnion) (c : Container) : Nat :=
  match c.content with
  | .bitmap _ => 0
  | .wide _ => containerRangeCardinality c u.low u.high
  | .array _ => (rangeSpan c u.low u.high).size

theorem arrayValuesInRange_eq (u : KeyUnion) :
    arrayValuesInRange u = (u.parts.map (valuesInRange u)).sum := rfl

/-- The slice of a view ends inside it, and it is counted whole. -/
theorem wideSlice_le (hr : c.Readable) (hkey : c.key = u.key) {wide : List Nat}
    (hc : c.content = .wide wide) :
    upperBound32 wide c.cardinality (valueOf u.key u.high) ≤ wide.length ∧
      upperBound32 wide c.cardinality (valueOf u.key u.high)
          - lowerBound32 wide c.cardinality (valueOf u.key u.low)
        ≤ valuesInRange u c := by
  have hsorted := hr.sorted
  have hcard := hr.cardinality_eq
  rw [hc] at hsorted
  rw [Container.lows, hc, List.length_map] at hcard
  -- the values are searched up to the end of the view
  have hend : upperBound32 wide c.cardinality (valueOf u.key u.high) ≤ wide.length := by
    rw [hcard]
    exact (upperBound_cut hsorted.1 _).1
  refine ⟨hend, ?_⟩
  rw [valuesInRange, hc]
  simp only
  unfold containerRangeCardinality
  split
  · -- the whole range: no slice is longer than the view
    rw [hcard] at hend ⊢
    omega
  · rw [hc, hkey]

/-- Merging reads the slices the model reads while they fit into `lows` together. -/
theorem keyUnionSpansLoop_eq {parts : List Container}
    (hr : ∀ c ∈ parts, c.Readable ∧ c.key = u.key) {lows : Buffer Nat unionBitsFrom}
    (h : lows.entries.length + (parts.map (valuesInRange u)).sum ≤ unionBitsFrom) :
    keyUnionSpansLoop u parts lows = some (keyUnionSpans { u with parts := parts }) := by
  -- on the parts: what is left of them still fits behind what `lows` holds
  induction parts generalizing lows with
  | nil => rfl
  | cons c parts ih =>
      obtain ⟨hc, hkey⟩ := hr c List.mem_cons_self
      have hrest : ∀ c ∈ parts, c.Readable ∧ c.key = u.key :=
        fun c hc => hr c (List.mem_cons_of_mem _ hc)
      rw [List.map_cons, List.sum_cons] at h
      rw [keyUnionSpansLoop, keyUnionSpans, List.map_cons]
      cases hk : c.content with
      | array array =>
          dsimp only
          rw [ih hrest (by omega), Option.map_some]
          rfl
      | bitmap words =>
          dsimp only
          rw [ih hrest (by omega), Option.map_some]
          rfl
      | wide wide =>
          obtain ⟨hend, hcount⟩ := wideSlice_le (u := u) hc hkey hk
          dsimp only
          rw [Buffer.readOut_eq hend]
          set begin := lowerBound32 wide c.cardinality (valueOf u.key u.low)
          set endAt := upperBound32 wide c.cardinality (valueOf u.key u.high)
          have hlength : (((wide.drop begin).take (endAt - begin)).map lowOf).length
              = endAt - begin := by
            rw [List.length_map, List.length_take, List.length_drop]
            omega
          have hfill : lows.Fills (((wide.drop begin).take (endAt - begin)).map lowOf) _ :=
            Buffer.putAll_fills (by omega)
          obtain ⟨filled, hput, hentries⟩ := hfill
          have hroom : filled.entries.length + (parts.map (valuesInRange u)).sum
              ≤ unionBitsFrom := by
            rw [hentries, List.length_append, hlength]
            omega
          rw [hput, Option.bind_some, ih hrest hroom, Option.map_some, hentries,
            List.drop_left]
          rfl

theorem keyUnionSpansChecked_eq (h : u.Gathered) (hfew : arrayValuesInRange u < unionBitsFrom) :
    keyUnionSpansChecked u = some (keyUnionSpans u) := by
  refine keyUnionSpansLoop_eq (fun c hc => ⟨h.readable c hc, h.key_eq c hc⟩) ?_
  rw [← arrayValuesInRange_eq]
  exact Buffer.empty_room hfew.le

/-- The arrays and views of a key have no more values than all its parts. -/
theorem sum_filter_le (parts : List Container) (p : Container → Bool) (f : Container → Nat) :
    ((parts.filter p).map f).sum ≤ (parts.map f).sum := by
  induction parts with
  | nil => exact Nat.le_refl 0
  | cons c parts ih =>
      rw [List.filter_cons, List.map_cons, List.sum_cons]
      split
      · rw [List.map_cons, List.sum_cons]
        omega
      · omega

theorem mixedUnionCardinalityChecked_eq (h : u.Gathered)
    (hfew : arrayValuesInRange u < unionBitsFrom) :
    mixedUnionCardinalityChecked u = some (mixedUnionCardinality u) := by
  unfold mixedUnionCardinalityChecked mixedUnionCardinality
  dsimp only
  split
  · rfl
  · -- the threshold was counted over all parts, the merge reads some of them
    have hsub := h.sub (u.parts.filter fun c => !c.isBitmap) fun c hc => List.mem_of_mem_filter hc
    have hle : arrayValuesInRange
        { u with parts := u.parts.filter (fun c => !c.isBitmap), anyBitmap := false }
        ≤ arrayValuesInRange u := sum_filter_le u.parts _ (valuesInRange u)
    rw [keyUnionSpansChecked_eq (hsub false) (hle.trans_lt hfew), Option.map_some]

/-- The merges run only where the range holds fewer values than `lows` has entries. -/
theorem keyUnionCardinalityChecked_eq (h : u.Gathered) :
    keyUnionCardinalityChecked u = some (keyUnionCardinality u) := by
  -- for none and for two or more the count of values decides; one is counted by itself
  have hmany : (if unionBitsFrom ≤ arrayValuesInRange u then some (keyUnionWords u).2
      else if u.anyBitmap then mixedUnionCardinalityChecked u
      else mergedArraysCardinalityChecked u)
      = some (if unionBitsFrom ≤ arrayValuesInRange u then (keyUnionWords u).2
        else if u.anyBitmap then mixedUnionCardinality u
        else mergedArraysCardinality u) := by
    by_cases hbits : unionBitsFrom ≤ arrayValuesInRange u
    · rw [if_pos hbits, if_pos hbits]
    rw [if_neg hbits, if_neg hbits]
    have hfew := Nat.not_le.mp hbits
    by_cases hany : u.anyBitmap = true
    · rw [if_pos hany, if_pos hany]
      exact mixedUnionCardinalityChecked_eq h hfew
    · rw [if_neg hany, if_neg hany, mergedArraysCardinalityChecked,
        keyUnionSpansChecked_eq h hfew]
      rfl
  unfold keyUnionCardinalityChecked keyUnionCardinality
  rcases u.parts with _ | ⟨part, _ | ⟨part', parts⟩⟩
  · exact hmany
  · rfl
  · exact hmany

end Spans

/-! ## The answers of a query -/

section Queries

variable {key : QueryKey} {q : Query} {d : Bool}

theorem queryKeyCardinalityChecked_eq (h : key.Gathered) :
    queryKeyCardinalityChecked key = some (queryKeyCardinality key) := by
  unfold queryKeyCardinalityChecked
  by_cases hunion : key.all = [] ∧ key.none = []
  · rw [if_pos hunion, keyUnionCardinalityChecked_eq h.union, queryKeyCardinality, if_pos hunion]
  · rw [if_neg hunion]

theorem queryKeyPageChecked_eq (h : key.Gathered) (skip size : Nat) (d : Bool) :
    queryKeyPageChecked key skip size d = some (queryKeyPage key skip size d) := by
  unfold queryKeyPageChecked
  by_cases hunion : key.all = [] ∧ key.none = []
  · rw [if_pos hunion, queryKeyPage, if_pos hunion]
    dsimp only
    by_cases hskip : 0 < skip
    · rw [if_pos hskip, keyUnionCardinalityChecked_eq h.union, Option.map_some]
      simp only [hskip, true_and]
    · rw [if_neg hskip, if_neg fun hboth => hskip hboth.1]
  · rw [if_neg hunion]

theorem walkCardinalityChecked_eq (hv : q.Valid) :
    ∀ (fuel : Nat) {walk : QueryWalk} {K : Nat}, Walks q d walk K → distance d 0x10000 K < fuel →
      ∀ total, walkCardinalityChecked fuel walk total = some (walkCardinality fuel walk total) := by
  intro fuel
  induction fuel with
  | zero => intro _ _ _ hf; omega
  | succ fuel ih =>
      intro walk K h hf total
      have hn := queryWalkNext_spec hv h
      rw [walkCardinalityChecked, walkCardinality]
      cases hr : queryWalkNext walk with
      | none => rfl
      | some r =>
          obtain ⟨key, walk'⟩ := r
          rw [hr] at hn
          obtain ⟨hg, hw, ha, hlt, -⟩ := hn
          have hdist := distance_past_lt ha hlt
          dsimp only
          rw [queryKeyCardinalityChecked_eq hg, Option.bind_some]
          exact ih hw (by omega) _

theorem walkPageChecked_eq (hv : q.Valid) :
    ∀ (fuel : Nat) {walk : QueryWalk} {K : Nat}, Walks q d walk K → distance d 0x10000 K < fuel →
      ∀ skip size,
        walkPageChecked d fuel walk skip size = some (walkPage d fuel walk skip size) := by
  intro fuel
  induction fuel with
  | zero => intro _ _ _ hf; omega
  | succ fuel ih =>
      intro walk K h hf skip size
      have hn := queryWalkNext_spec hv h
      rw [walkPageChecked, walkPage]
      by_cases h0 : size = 0
      · rw [if_pos h0, if_pos h0]
      rw [if_neg h0, if_neg h0]
      cases hr : queryWalkNext walk with
      | none => rfl
      | some r =>
          obtain ⟨key, walk'⟩ := r
          rw [hr] at hn
          obtain ⟨hg, hw, ha, hlt, -⟩ := hn
          have hdist := distance_past_lt ha hlt
          dsimp only
          -- what the key is read with fits, and the walk goes on from behind it
          rw [queryKeyPageChecked_eq hg, Option.bind_some, ih hw (by omega), Option.map_some]

theorem walkListingChecked_eq (hv : q.Valid) :
    ∀ (fuel : Nat) {walk : QueryWalk} {K : Nat}, Walks q d walk K → distance d 0x10000 K < fuel →
      ∀ skip size total, walkListingChecked d fuel walk skip size total
        = some (walkListing d fuel walk skip size total) := by
  intro fuel
  induction fuel with
  | zero => intro _ _ _ hf; omega
  | succ fuel ih =>
      intro walk K h hf skip size total
      have hn := queryWalkNext_spec hv h
      rw [walkListingChecked, walkListing]
      cases hr : queryWalkNext walk with
      | none => rfl
      | some r =>
          obtain ⟨key, walk'⟩ := r
          rw [hr] at hn
          obtain ⟨hg, hw, ha, hlt, -⟩ := hn
          have hdist := distance_past_lt ha hlt
          dsimp only
          rw [queryKeyCardinalityChecked_eq hg, Option.bind_some]
          -- the key is counted in any case, and read once more where the page starts in it
          by_cases hsize : 0 < size
          · rw [if_pos hsize, if_pos hsize]
            by_cases hskip : queryKeyCardinality key ≤ skip
            · rw [if_pos hskip, if_pos hskip]
              exact ih hw (by omega) _ _ _
            · rw [if_neg hskip, if_neg hskip, queryKeyPageChecked_eq hg, Option.bind_some,
                ih hw (by omega), Option.map_some]
          · rw [if_neg hsize, if_neg hsize]
            exact ih hw (by omega) _ _ _

theorem queryCardinalityChecked_eq (hv : q.Valid) (out : Bool) :
    queryCardinalityChecked (some q) out = some (queryCardinality (some q) out) := by
  unfold queryCardinalityChecked queryCardinality
  cases checkQuery (some q) with
  | success =>
      dsimp only
      by_cases hout : (!out) = true
      · rw [if_pos hout, if_pos hout]
      rw [if_neg hout, if_neg hout]
      by_cases hle : q.min ≤ q.max
      · rw [if_pos hle, if_pos hle]
        by_cases hs : queryIsSparseUnion q = true
        · rw [if_pos hs, if_pos hs]
        · rw [if_neg hs, if_neg hs, walkCardinalityChecked_eq hv _ (walks_begin hv false false)
            (walks_distance q false), Option.map_some]
      · rw [if_neg hle, if_neg hle]
  | _ => rfl

theorem queryPageChecked_eq (hv : q.Valid) (skip size : Nat) (d out written : Bool) :
    queryPageChecked (some q) skip size d out written
      = some (queryPage (some q) skip size d out written) := by
  unfold queryPageChecked queryPage
  cases checkQuery (some q) with
  | success =>
      dsimp only
      by_cases hout : (!written) = true ∨ size ≠ 0 ∧ (!out) = true
      · rw [if_pos hout, if_pos hout]
      rw [if_neg hout, if_neg hout]
      by_cases hread : size ≠ 0 ∧ q.min ≤ q.max
      · rw [if_pos hread, if_pos hread]
        by_cases hs : queryIsSparseUnion q = true
        · rw [if_pos hs, if_pos hs, Option.map_some]
        · rw [if_neg hs, if_neg hs, walkPageChecked_eq hv _ (walks_begin hv d true)
            (walks_distance q d), Option.map_some]
      · rw [if_neg hread, if_neg hread, Option.map_some]
  | _ => rfl

theorem queryListingChecked_eq (hv : q.Valid) (skip size : Nat) (d out written cardinality : Bool) :
    queryListingChecked (some q) skip size d out written cardinality
      = some (queryListing (some q) skip size d out written cardinality) := by
  unfold queryListingChecked queryListing
  cases checkQuery (some q) with
  | success =>
      dsimp only
      by_cases hout : (!written) = true ∨ (!cardinality) = true ∨ size ≠ 0 ∧ (!out) = true
      · rw [if_pos hout, if_pos hout]
      rw [if_neg hout, if_neg hout]
      by_cases hle : q.min ≤ q.max
      · rw [if_pos hle, if_pos hle]
        by_cases hs : queryIsSparseUnion q = true
        · rw [if_pos hs, if_pos hs, Option.map_some]
        · rw [if_neg hs, if_neg hs, walkListingChecked_eq hv _ (walks_begin hv d true)
            (walks_distance q d), Option.map_some]
      · rw [if_neg hle, if_neg hle, Option.map_some]
  | _ => rfl

end Queries

/-! ## Every call -/

/-- On valid sets no write into a buffer on the stack leaves it: every checked call, whatever the
pool grants, comes to its end, with what the call answers. -/
theorem stack_writes_stay {σ : Type} (L : BlockPool σ) (s : σ) :
    (∀ set : Bitmap, set.Valid → ∀ value,
      addChecked L set value s = some (add L set value s)) ∧
    (∀ a b : Bitmap, a.Valid → b.Valid → ∀ out min max,
      roaringAndChecked L out a b min max s = some (roaringAnd L out a b min max s) ∧
      roaringOrChecked L out a b min max s = some (roaringOr L out a b min max s) ∧
      roaringAndnotChecked L out a b min max s = some (roaringAndnot L out a b min max s)) ∧
    (∀ a : Bitmap, a.Valid → ∀ out min max,
      roaringCopyRangeChecked L out a min max s = some (roaringCopyRange L out a min max s)) ∧
    ∀ q : Query, q.Valid →
      (∀ out, queryCardinalityChecked (some q) out = some (queryCardinality (some q) out)) ∧
      (∀ skip size d out written, queryPageChecked (some q) skip size d out written
        = some (queryPage (some q) skip size d out written)) ∧
      ∀ skip size d out written cardinality,
        queryListingChecked (some q) skip size d out written cardinality
          = some (queryListing (some q) skip size d out written cardinality) := by
  refine ⟨fun set hv value => addChecked_eq hv value s, fun a b ha hb out min max => ?_,
    fun a ha out min max => roaringCopyRangeChecked_eq ha out min max s, fun q hv => ?_⟩
  · exact ⟨roaringAndChecked_eq ha hb out min max s, roaringOrChecked_eq ha hb out min max s,
      roaringAndnotChecked_eq ha hb out min max s⟩
  · exact ⟨queryCardinalityChecked_eq hv, queryPageChecked_eq hv, queryListingChecked_eq hv⟩

theorem stack_writes_stay_sample :
    roaringOrChecked grantingPool Bitmap.init sampleLeft sampleRight 0 (2 ^ 32 - 1) 0
        = some (roaringOr grantingPool Bitmap.init sampleLeft sampleRight 0 (2 ^ 32 - 1) 0) ∧
      queryCardinalityChecked (some sampleQuery) true
        = some (queryCardinality (some sampleQuery) true) := by
  constructor
  · exact ((stack_writes_stay grantingPool 0).2.1 sampleLeft sampleRight valid_sampleLeft
      valid_sampleRight Bitmap.init 0 (2 ^ 32 - 1)).2.1
  · exact ((stack_writes_stay grantingPool 0).2.2.2 sampleQuery valid_sampleQuery).1 true

end Arnm.Roaring
