import Arnm.Result
import Arnm.Roaring.QueryWalk

set_option autoImplicit false

/-! # Queries over several sets

The three answers of a query: how many values match, a page of the matches, and both in one walk.
Each is compared with `Query.matching`, the ascending list of the values asked for: the count is its
length, a page is a slice of it in walking order, and the walk that does both gives the two answers
of the others.
-/

namespace Arnm.Roaring

open Listing

/-! ## The model -/

/-- `ARNM_ROARING_QUERY_MAX` -/
def queryMax : Nat := 8

/-- The checks all answers start with. -/
def checkQuery (query : Option Query) : Result :=
  match query with
  | none => .errorNullPointer
  | some query =>
      if queryMax < query.allCount ∨ queryMax < query.anyCount ∨ queryMax < query.noneCount then
        .errorInvalidParam
      else if (query.allCount ≠ 0 ∧ query.all.isNone) ∨ (query.anyCount ≠ 0 ∧ query.any.isNone) ∨
          (query.noneCount ≠ 0 ∧ query.none.isNone) then
        .errorNullPointer
      else .success

/-- Only sets of the sparse form, and nothing to intersect or subtract: the arrays answer alone. -/
def queryIsSparseUnion (query : Query) : Bool :=
  decide (query.allCount = 0) && decide (query.noneCount = 0) && decide (query.anyCount ≠ 0)
    && allSparse query.anySets

/-- `while (query_walk_next(&walk, &key)) { total += ... }`; every round takes one key. -/
def walkCardinality : Nat → QueryWalk → Nat → Nat
  | 0, _, total => total
  | fuel + 1, walk, total =>
      match queryWalkNext walk with
      | none => total
      | some (key, walk) => walkCardinality fuel walk (total + queryKeyCardinality key)

/-- The loop of `queryPage`; `size` is what the page has left. -/
def walkPage (descending : Bool) : Nat → QueryWalk → Nat → Nat → List Nat
  | 0, _, _, _ => []
  | fuel + 1, walk, skip, size =>
      if size = 0 then []
      else
        match queryWalkNext walk with
        | none => []
        | some (key, walk) =>
            let r := queryKeyPage key skip size descending
            r.1 ++ walkPage descending fuel walk r.2 (size - r.1.length)

/-- The loop of `queryListing`: only the key the page starts in is read a second time, value by
value. -/
def walkListing (descending : Bool) : Nat → QueryWalk → Nat → Nat → Nat → List Nat × Nat
  | 0, _, _, _, total => ([], total)
  | fuel + 1, walk, skip, size, total =>
      match queryWalkNext walk with
      | none => ([], total)
      | some (key, walk) =>
          let inKey := queryKeyCardinality key
          if 0 < size then
            if inKey ≤ skip then
              walkListing descending fuel walk (skip - inKey) size (total + inKey)
            else
              let r := queryKeyPage key skip size descending
              let rest := walkListing descending fuel walk r.2 (size - r.1.length) (total + inKey)
              (r.1 ++ rest.1, rest.2)
          else walkListing descending fuel walk skip size (total + inKey)

/-- What a page writes to `out`, and how many it reports. -/
structure Page where
  out : List Nat
  written : Nat
deriving DecidableEq

/-- What the one-walk listing delivers. -/
structure ListingPage where
  page : Page
  cardinality : Nat

/-- `arnm_roaring_query_cardinality`; `out` says whether the pointer for the count is given. -/
def queryCardinality (query : Option Query) (out : Bool) : Except Result Nat :=
  match query, checkQuery query with
  | some query, .success =>
      if !out then .error .errorNullPointer
      else if query.min ≤ query.max then
        if queryIsSparseUnion query then
          let spans := sparseSpansOf query.anySets query.min query.max
          .ok (if spans = [] then 0 else sparseUnionCardinality spans)
        else .ok (walkCardinality 0x10001 (queryWalkBegin query false false) 0)
      else .ok 0
  | _, result => .error result

/-- `arnm_roaring_query_page`; `written` and `out` say whether these pointers are given. -/
def queryPage (query : Option Query) (skip size : Nat) (descending out written : Bool) :
    Except Result Page :=
  match query, checkQuery query with
  | some query, .success =>
      if !written ∨ (size ≠ 0 ∧ !out) then .error .errorNullPointer
      else
        let values :=
          if size ≠ 0 ∧ query.min ≤ query.max then
            if queryIsSparseUnion query then
              let spans := sparseSpansOf query.anySets query.min query.max
              if spans = [] then [] else sparseUnionPage spans skip size descending
            else walkPage descending 0x10001 (queryWalkBegin query descending true) skip size
          else []
        .ok ⟨values, values.length⟩
  | _, result => .error result

/-- `arnm_roaring_query_listing` -/
def queryListing (query : Option Query) (skip size : Nat)
    (descending out written cardinality : Bool) :
    Except Result ListingPage :=
  match query, checkQuery query with
  | some query, .success =>
      if !written ∨ !cardinality ∨ (size ≠ 0 ∧ !out) then .error .errorNullPointer
      else
        let r :=
          if query.min ≤ query.max then
            if queryIsSparseUnion query then
              let spans := sparseSpansOf query.anySets query.min query.max
              if spans = [] then ([], 0)
              else
                (if size ≠ 0 then sparseUnionPage spans skip size descending else [],
                  sparseUnionCardinality spans)
            else walkListing descending 0x10001 (queryWalkBegin query descending true) skip size 0
          else ([], 0)
        .ok ⟨⟨r.1, r.1.length⟩, r.2⟩
  | _, result => .error result

/-! ## The matches -/

namespace Query

/-- The values a query asks for, ascending. -/
def matching (q : Query) : List Nat := below (2 ^ 32) q.Matches

variable {q : Query}

theorem matching_of_max_lt (h : ¬ q.min ≤ q.max) : q.matching = [] := by
  refine List.eq_nil_iff_forall_not_mem.mpr (fun v hv => ?_)
  have := (mem_below.mp hv).2.1
  omega

/-- A match lies ahead of where the walk starts. -/
theorem Matches.ahead_first {v : Nat} (h : q.Matches v) (d : Bool) :
    Ahead d (Source.first q.min q.max d) (keyOf v) := by
  obtain ⟨⟨h1, h2⟩, -⟩ := h
  cases d with
  | false =>
      simp only [Source.first, Bool.false_eq_true, if_false, ahead_false]
      exact keyOf_mono h1
  | true =>
      simp only [Source.first, if_true, ahead_true]
      exact Nat.lt_succ_of_le (keyOf_mono h2)

/-- In front of the range everything is still to be done. -/
theorem todo_first (d : Bool) : q.todo d (Source.first q.min q.max d) = ordered d q.matching := by
  unfold todo matching
  congr 1
  exact below_congr (fun v _ => ⟨fun h => h.2, fun h => ⟨h.ahead_first d, h⟩⟩)

/-- A sparse union asks for what one of its sets has in the range. -/
theorem matching_of_sparse (h : queryIsSparseUnion q = true) :
    q.matching = below (2 ^ 32) (fun v => q.min ≤ v ∧ v ≤ q.max ∧ InSome q.anySets v) := by
  simp only [queryIsSparseUnion, Bool.and_eq_true, decide_eq_true_eq] at h
  have ha : q.allSets = [] := by rw [allSets, h.1.1.1, List.take_zero]
  have hn : q.noneSets = [] := by rw [noneSets, h.1.1.2, List.take_zero]
  refine below_congr (fun v _ => ?_)
  rw [Matches, ha, hn, InSome]
  constructor
  · rintro ⟨h1, -, h2, -, h3⟩
    exact ⟨h1.1, h1.2, h2 (h3.resolve_left (fun hc => hc rfl))⟩
  · rintro ⟨h1, h2, h3⟩
    have hne : q.anySets ≠ [] := by
      obtain ⟨set, hs, -⟩ := h3
      exact List.ne_nil_of_mem hs
    exact ⟨⟨h1, h2⟩, by simp, fun _ => h3, by simp, Or.inr hne⟩

end Query

/-! ## Runs of the walk -/

variable {q : Query} {d : Bool}

theorem queryWalkNext_spec (hv : q.Valid) {walk : QueryWalk} {K : Nat} (h : Walks q d walk K) :
    q.Finds d K (queryWalkNext walk) :=
  queryWalkLoop_spec hv _ h (lt_of_le_of_lt (distance_le d _ _) (by omega))

theorem length_values (key : QueryKey) :
    ((ordered d key.lows).map (valueOf key.key)).length = key.lows.length := by
  rw [List.length_map, length_ordered]

/-- Counting key by key counts the matches ahead. -/
theorem walkCardinality_eq (hv : q.Valid) :
    ∀ (fuel : Nat) {walk : QueryWalk} {K : Nat}, Walks q d walk K → distance d 0x10000 K < fuel →
      ∀ total, walkCardinality fuel walk total = total + (q.todo d K).length := by
  intro fuel
  induction fuel with
  | zero => intro _ _ _ hf; omega
  | succ fuel ih =>
      intro walk K h hf total
      have hn := queryWalkNext_spec hv h
      rw [walkCardinality]
      cases hr : queryWalkNext walk with
      | none =>
          rw [hr] at hn
          simp only at hn ⊢
          rw [hn]
          rfl
      | some r =>
          obtain ⟨key, walk'⟩ := r
          rw [hr] at hn
          obtain ⟨hg, hw, ha, hlt, he⟩ := hn
          have hdist := distance_past_lt ha hlt
          simp only
          rw [ih hw (by omega), queryKeyCardinality_eq hg, he, List.length_append, length_values]
          omega

/-- Paging key by key pages through the matches ahead. -/
theorem walkPage_eq (hv : q.Valid) :
    ∀ (fuel : Nat) {walk : QueryWalk} {K : Nat}, Walks q d walk K → distance d 0x10000 K < fuel →
      ∀ skip size, walkPage d fuel walk skip size = (page (q.todo d K) skip size).1 := by
  intro fuel
  induction fuel with
  | zero => intro _ _ _ hf; omega
  | succ fuel ih =>
      intro walk K h hf skip size
      have hn := queryWalkNext_spec hv h
      rw [walkPage]
      by_cases h0 : size = 0
      · rw [if_pos h0, h0]
        simp [page]
      · rw [if_neg h0]
        cases hr : queryWalkNext walk with
        | none =>
            rw [hr] at hn
            simp only at hn ⊢
            rw [hn, page_nil]
        | some r =>
            obtain ⟨key, walk'⟩ := r
            rw [hr] at hn
            obtain ⟨hg, hw, ha, hlt, he⟩ := hn
            have hdist := distance_past_lt ha hlt
            simp only
            rw [queryKeyPage_eq hg d (Nat.pos_of_ne_zero h0), ih hw (by omega), he, page_append]

/-- One walk counts the matches ahead and pages through them. -/
theorem walkListing_eq (hv : q.Valid) :
    ∀ (fuel : Nat) {walk : QueryWalk} {K : Nat}, Walks q d walk K → distance d 0x10000 K < fuel →
      ∀ skip size total, walkListing d fuel walk skip size total
        = ((page (q.todo d K) skip size).1, total + (q.todo d K).length) := by
  intro fuel
  induction fuel with
  | zero => intro _ _ _ hf; omega
  | succ fuel ih =>
      intro walk K h hf skip size total
      have hn := queryWalkNext_spec hv h
      rw [walkListing]
      cases hr : queryWalkNext walk with
      | none =>
          rw [hr] at hn
          simp only at hn ⊢
          rw [hn, page_nil]
          rfl
      | some r =>
          obtain ⟨key, walk'⟩ := r
          rw [hr] at hn
          obtain ⟨hg, hw, ha, hlt, he⟩ := hn
          have hdist := distance_past_lt ha hlt
          have hlen := length_values (d := d) key
          simp only
          rw [queryKeyCardinality_eq hg, he, List.length_append, hlen, page_append]
          by_cases h0 : 0 < size
          · rw [if_pos h0]
            -- the page starts behind the key, or in it; either way the key is counted
            by_cases hsk : key.lows.length ≤ skip
            · have hp : page ((ordered d key.lows).map (valueOf key.key)) skip size
                  = ([], skip - key.lows.length) := by
                rw [page_of_length_le size (by omega), hlen]
              rw [if_pos hsk, ih hw (by omega), hp]
              simp only [List.nil_append, List.length_nil, Nat.sub_zero, Prod.mk.injEq, true_and]
              omega
            · rw [if_neg hsk, queryKeyPage_eq hg d h0, ih hw (by omega)]
              simp only [Prod.mk.injEq, true_and]
              omega
          · rw [if_neg h0, ih hw (by omega), show size = 0 by omega]
            simp [page, Nat.add_assoc]

/-! ## The three answers -/

theorem walks_distance (q : Query) (d : Bool) :
    distance d 0x10000 (Source.first q.min q.max d) < 0x10001 :=
  lt_of_le_of_lt (distance_le d _ _) (by omega)

theorem sparse_lists (hv : q.Valid) (h : queryIsSparseUnion q = true) (hle : q.min ≤ q.max)
    (d : Bool) :
    (∀ s ∈ sparseSpansOf q.anySets q.min q.max, s.Live) ∧
      Merge.Lists d (ordered d q.matching)
        ((sparseSpansOf q.anySets q.min q.max).map (fun s => ordered d s.rest)) := by
  have hall : allSparse q.anySets = true := by
    simp only [queryIsSparseUnion, Bool.and_eq_true] at h
    exact h.2
  have hform : ∀ set, some set ∈ q.anySets → set.SparseForm := fun set hs =>
    sparseForm_of_allSparse hall (fun set' hs' => hv.any _ hs' set' rfl) hs
  rw [Query.matching_of_sparse h]
  exact ⟨sparseSpansOf_live hle hform, lists_sparseSpansOf d hform⟩

/-- The count of a union of sparse sets. -/
theorem sparse_cardinality (hv : q.Valid) (h : queryIsSparseUnion q = true) (hle : q.min ≤ q.max) :
    (if sparseSpansOf q.anySets q.min q.max = [] then 0
      else sparseUnionCardinality (sparseSpansOf q.anySets q.min q.max)) = q.matching.length := by
  obtain ⟨hl, hlists⟩ := sparse_lists hv h hle false
  split
  · rename_i hnil
    rw [hnil] at hlists
    have : q.matching = [] := List.eq_nil_iff_forall_not_mem.mpr (fun a ha => by
      obtain ⟨l, hl, -⟩ := (hlists.mem a).mp ha
      simp at hl)
    rw [this]
    rfl
  · exact sparseUnionCardinality_eq hl hlists

/-- A page of a union of sparse sets. -/
theorem sparse_page (hv : q.Valid) (h : queryIsSparseUnion q = true) (hle : q.min ≤ q.max)
    (skip size : Nat) (d : Bool) :
    (if sparseSpansOf q.anySets q.min q.max = [] then []
      else sparseUnionPage (sparseSpansOf q.anySets q.min q.max) skip size d)
      = (page (ordered d q.matching) skip size).1 := by
  obtain ⟨hl, hlists⟩ := sparse_lists hv h hle d
  split
  · rename_i hnil
    rw [hnil] at hlists
    have : ordered d q.matching = [] := List.eq_nil_iff_forall_not_mem.mpr (fun a ha => by
      obtain ⟨l, hl, -⟩ := (hlists.mem a).mp ha
      simp at hl)
    rw [this, page_nil]
  · exact sparseUnionPage_eq hl hlists skip size

theorem queryCardinality_eq (hc : checkQuery (some q) = .success) (hv : q.Valid) :
    queryCardinality (some q) true = .ok q.matching.length := by
  unfold queryCardinality
  rw [hc]
  simp only [Bool.not_true, Bool.false_eq_true, if_false]
  by_cases hle : q.min ≤ q.max
  · rw [if_pos hle]
    by_cases hs : queryIsSparseUnion q = true
    · rw [if_pos hs, sparse_cardinality hv hs hle]
    · rw [if_neg hs, walkCardinality_eq hv _ (walks_begin hv false false) (walks_distance q false),
        Query.todo_first, Nat.zero_add]
      rfl
  · rw [if_neg hle, Query.matching_of_max_lt hle]
    rfl

theorem queryPage_eq (hc : checkQuery (some q) = .success) (hv : q.Valid)
    (skip size : Nat) (d : Bool)
    {out : Bool} (ho : size ≠ 0 → out = true) :
    queryPage (some q) skip size d out true
      = .ok ⟨(page (ordered d q.matching) skip size).1,
        (page (ordered d q.matching) skip size).1.length⟩ := by
  unfold queryPage
  rw [hc]
  have hout : ¬ ((!true) = true ∨ size ≠ 0 ∧ (!out) = true) := by
    rintro (h | ⟨h1, h2⟩)
    · cases h
    · rw [ho h1] at h2
      cases h2
  simp only [if_neg hout]
  by_cases h0 : size = 0
  · rw [if_neg (by simp [h0]), h0]
    simp [page]
  · by_cases hle : q.min ≤ q.max
    · rw [if_pos ⟨h0, hle⟩]
      by_cases hs : queryIsSparseUnion q = true
      · rw [if_pos hs, sparse_page hv hs hle]
      · rw [if_neg hs, walkPage_eq hv _ (walks_begin hv d true) (walks_distance q d),
          Query.todo_first]
    · rw [if_neg (fun h => hle h.2), Query.matching_of_max_lt hle]
      cases d <;> simp

theorem queryListing_eq (hc : checkQuery (some q) = .success) (hv : q.Valid) (skip size : Nat)
    (d : Bool) {out : Bool} (ho : size ≠ 0 → out = true) :
    queryListing (some q) skip size d out true true
      = .ok ⟨⟨(page (ordered d q.matching) skip size).1,
        (page (ordered d q.matching) skip size).1.length⟩,
          q.matching.length⟩ := by
  unfold queryListing
  rw [hc]
  have hout : ¬ ((!true) = true ∨ (!true) = true ∨ size ≠ 0 ∧ (!out) = true) := by
    rintro (h | h | ⟨h1, h2⟩)
    · cases h
    · cases h
    · rw [ho h1] at h2
      cases h2
  simp only [if_neg hout]
  by_cases hle : q.min ≤ q.max
  · rw [if_pos hle]
    -- the sparse union answers both from its spans, the walk both in one pass
    by_cases hs : queryIsSparseUnion q = true
    · have hcount := sparse_cardinality hv hs hle
      have hpage := sparse_page hv hs hle skip size d
      rw [if_pos hs]
      by_cases hnil : sparseSpansOf q.anySets q.min q.max = []
      · rw [if_pos hnil] at hcount hpage ⊢
        rw [← hcount, ← hpage]
      · rw [if_neg hnil] at hcount hpage ⊢
        rw [← hcount]
        by_cases h0 : size = 0
        · rw [if_neg (by simp [h0]), h0]
          simp [page]
        · rw [if_pos h0, hpage]
    · rw [if_neg hs, walkListing_eq hv _ (walks_begin hv d true) (walks_distance q d),
        Query.todo_first, Nat.zero_add, length_ordered]
  · rw [if_neg hle, Query.matching_of_max_lt hle]
    cases d <;> simp

/-- A set with containers for the keys 0 and 2. -/
def sampleContainers : Bitmap :=
  ⟨some 4096, [⟨4128, .array [5, 7, 900], 3, 0, 4⟩, ⟨4144, .array [1, 7], 2, 2, 4⟩], [],
    5, 131079, 5⟩

theorem valid_sampleContainers : sampleContainers.Valid := by
  refine ⟨Or.inr ⟨by decide, by decide, ?_, by decide, by decide, by decide, by decide⟩, by decide⟩
  intro c hc
  simp only [sampleContainers, List.mem_cons, List.not_mem_nil, or_false] at hc
  rcases hc with rfl | rfl
  · exact ⟨by decide, by decide, by decide, by decide⟩
  · exact ⟨by decide, by decide, by decide, by decide⟩

/-- A query of that set and of sparse ones, one of them to be left out and two of them missing: it
asks for 5, 900 and 131073. -/
def sampleQuery : Query where
  all := some [some sampleContainers]
  allCount := 1
  any := some [some ⟨some 20480, [], [5, 7, 900], 3, 900, 4⟩, none,
    some ⟨some 20496, [], [70000, 131073], 2, 131073, 3⟩]
  anyCount := 3
  none := some [none, some ⟨some 20512, [], [7], 1, 7, 4⟩]
  noneCount := 2
  min := 3
  max := 131079

theorem valid_sampleQuery : sampleQuery.Valid := by
  have h900 : (Bitmap.mk (some 20480) [] [5, 7, 900] 3 900 4).Valid :=
    ⟨Or.inl ⟨rfl, by decide, by decide, by decide, rfl, by decide, by decide⟩,
      fun _ hv => Option.some.inj hv⟩
  have h131073 : (Bitmap.mk (some 20496) [] [70000, 131073] 2 131073 3).Valid :=
    ⟨Or.inl ⟨rfl, by decide, by decide, by decide, rfl, by decide, by decide⟩,
      fun _ hv => Option.some.inj hv⟩
  have h7 := Bitmap.valid_single (v := 7) (by omega) 20512
  refine ⟨?_, ?_, ?_⟩
  all_goals
    intro set hset s hs
    simp only [Query.allSets, Query.anySets, Query.noneSets, sampleQuery, Option.getD_some,
      List.take_succ_cons, List.take_zero, List.mem_cons, List.not_mem_nil, or_false] at hset
  · subst hset
    cases hs
    exact valid_sampleContainers
  · rcases hset with rfl | rfl | rfl
    · cases hs
      exact h900
    · cases hs
    · cases hs
      exact h131073
  · rcases hset with rfl | rfl
    · cases hs
    · cases hs
      exact h7

/-- The count of a query is the number of values it asks for, and 0 if it names no set to read
from. -/
theorem query_cardinality_is_count (q : Query) (hc : checkQuery (some q) = .success)
    (hv : q.Valid) :
    queryCardinality (some q) true = .ok (below (2 ^ 32) q.Matches).length ∧
      (q.allSets = [] → q.anySets = [] → queryCardinality (some q) true = .ok 0) := by
  have h := queryCardinality_eq hc hv
  refine ⟨h, fun ha hn => ?_⟩
  have hnil : q.matching = [] := List.eq_nil_iff_forall_not_mem.mpr (fun v hm => by
    have := (mem_below.mp hm).2.2.2.2.2
    simp [ha, hn] at this)
  rw [h, hnil]
  rfl

theorem query_cardinality_sample :
    queryCardinality (some sampleQuery) true = .ok 3 ∧
      (below (2 ^ 32) sampleQuery.Matches).length = 3 := by
  have hcount := (query_cardinality_is_count sampleQuery rfl valid_sampleQuery).1
  have h3 : queryCardinality (some sampleQuery) true = .ok 3 := by decide +kernel
  exact ⟨h3, Except.ok.inj (hcount.symm.trans h3)⟩

/-- A page is the slice of the sorted matches it asks for, with its length; the pages of one size
put together are the matches from the first on, each once. -/
theorem query_page_is_slice (q : Query) (hc : checkQuery (some q) = .success) (hv : q.Valid)
    (skip size : Nat) (d out : Bool) (ho : size ≠ 0 → out = true) :
    queryPage (some q) skip size d out true
        = .ok ⟨((ordered d (below (2 ^ 32) q.Matches)).drop skip).take size,
            min size ((below (2 ^ 32) q.Matches).length - skip)⟩ ∧
      ∀ n, (List.range n).flatMap (fun i =>
          match queryPage (some q) (skip + i * size) size d out true with
          | .ok page => page.out
          | .error _ => [])
        = ((ordered d (below (2 ^ 32) q.Matches)).drop skip).take (n * size) := by
  constructor
  · rw [queryPage_eq hc hv skip size d ho]
    simp only [page, Query.matching, List.length_take, List.length_drop, length_ordered]
  · intro n
    induction n with
    | zero => simp
    | succ n ih =>
        -- the last page is what the others leave of the longer slice
        rw [List.range_succ, List.flatMap_append, ih, List.flatMap_singleton,
          queryPage_eq hc hv _ size d ho]
        calc _ = ((ordered d q.matching).drop skip).take (n * size) ++
              ((ordered d q.matching).drop (skip + n * size)).take size := rfl
          _ = ((ordered d q.matching).drop skip).take (n * size + size) := by
              rw [List.take_add, List.drop_drop]
          _ = ((ordered d q.matching).drop skip).take ((n + 1) * size) := by
              rw [Nat.add_mul, Nat.one_mul]

/-- Two values from the second on, walking down. -/
theorem query_page_sample :
    queryPage (some sampleQuery) 1 2 true true true = .ok ⟨[900, 5], 2⟩ ∧
      ((ordered true (below (2 ^ 32) sampleQuery.Matches)).drop 1).take 2 = [900, 5] := by
  have hpage := (query_page_is_slice sampleQuery rfl valid_sampleQuery 1 2 true true fun _ => rfl).1
  have hout : queryPage (some sampleQuery) 1 2 true true true = .ok ⟨[900, 5], 2⟩ := by
    decide +kernel
  exact ⟨hout, congrArg Page.out (Except.ok.inj (hpage.symm.trans hout))⟩

/-- The one-walk listing agrees with the two separate answers. -/
theorem query_listing_agrees (q : Query) (hc : checkQuery (some q) = .success) (hv : q.Valid)
    (skip size : Nat) (d out : Bool) (ho : size ≠ 0 → out = true) :
    ∃ page total, queryPage (some q) skip size d out true = .ok page ∧
      queryCardinality (some q) true = .ok total ∧
      queryListing (some q) skip size d out true true = .ok ⟨page, total⟩ :=
  ⟨_, _, queryPage_eq hc hv skip size d ho, queryCardinality_eq hc hv,
    queryListing_eq hc hv skip size d ho⟩

/-- A page of one value, with a value before it and one behind. -/
theorem query_listing_sample :
    queryListing (some sampleQuery) 1 1 false true true true = .ok ⟨⟨[900], 1⟩, 3⟩ := by
  obtain ⟨page, total, hpage, htotal, hlisting⟩ :=
    query_listing_agrees sampleQuery rfl valid_sampleQuery 1 1 false true fun _ => rfl
  have hout : queryPage (some sampleQuery) 1 1 false true true = .ok ⟨[900], 1⟩ := by
    decide +kernel
  have h3 : queryCardinality (some sampleQuery) true = .ok 3 := by decide +kernel
  rw [hlisting, Except.ok.inj (hpage.symm.trans hout), Except.ok.inj (htotal.symm.trans h3)]

end Arnm.Roaring
