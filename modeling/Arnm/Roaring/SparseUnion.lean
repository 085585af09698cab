import Arnm.Lib.Merge
import Arnm.Roaring.Bitmap

set_option autoImplicit false

/-! # A union of sparse sets

With sparse sets only, the union is read off their arrays: the part of each inside the range is a
span of indices, and the spans are merged. `sparseUnionCardinality` counts a merge in three ways
-- one span by its length, few values one by one, many values key by key in bits -- and
`sparseUnionPage` writes a page of it; both are compared with any list `L` that is the merge of
the spans (`Merge.Lists`).
-/

namespace Arnm.Roaring

open Listing Words Merge

/-- `ROARING_UNION_BITS_FROM` -/
def unionBitsFrom : Nat := 128

/-! ## Spans -/

/-- A sorted array's entries from index `begin` up to `endAt`. -/
structure Span where
  values : List Nat
  begin : Nat
  endAt : Nat

namespace Span

/-- The entries themselves. -/
def rest (span : Span) : List Nat := (span.values.drop span.begin).take (span.endAt - span.begin)

def size (span : Span) : Nat := span.endAt - span.begin

/-- The value a walk stands on: the first entry ascending, the last one descending. -/
def head (descending : Bool) (span : Span) : Nat :=
  if descending then span.values.getD (span.endAt - 1) 0 else span.values.getD span.begin 0

/-- The span behind the value the walk stands on. -/
def next (descending : Bool) (span : Span) : Span :=
  if descending then { span with endAt := span.endAt - 1 }
    else { span with begin := span.begin + 1 }

/-- A span in use has entries, and its array has them. -/
def Live (span : Span) : Prop := span.begin < span.endAt ∧ span.endAt ≤ span.values.length

variable {span : Span}

theorem length_rest (h : span.endAt ≤ span.values.length) : span.rest.length = span.size := by
  rw [rest, size, List.length_take, List.length_drop]
  omega

theorem rest_eq_nil (h : span.endAt ≤ span.begin) : span.rest = [] := by
  rw [rest, show span.endAt - span.begin = 0 by omega, List.take_zero]

theorem rest_eq_cons (h : span.Live) : span.rest = span.head false :: (span.next false).rest := by
  obtain ⟨h1, h2⟩ := h
  have hb : span.begin < span.values.length := by omega
  simp only [rest, head, next, Bool.false_eq_true, if_false]
  rw [List.drop_eq_getElem_cons hb,
    show span.endAt - span.begin = (span.endAt - (span.begin + 1)) + 1 by omega,
      List.take_succ_cons]
  simp [hb]

theorem rest_eq_append (h : span.Live) : span.rest = (span.next true).rest ++ [span.head true] := by
  obtain ⟨h1, h2⟩ := h
  have he : span.endAt - 1 < span.values.length := by omega
  simp only [rest, head, next, if_true]
  rw [show span.endAt - span.begin = (span.endAt - 1 - span.begin) + 1 by omega, List.take_add,
    List.take_one_drop_eq_of_lt_length (by rw [List.length_drop]; omega)]
  simp [show span.begin + (span.endAt - 1 - span.begin) = span.endAt - 1 by omega, he]

theorem ordered_rest (d : Bool) (h : span.Live) :
    ordered d span.rest = span.head d :: ordered d (span.next d).rest := by
  cases d with
  | false => exact rest_eq_cons h
  | true => rw [rest_eq_append h]; simp

@[simp] theorem next_values (d : Bool) : (span.next d).values = span.values := by cases d <;> rfl

theorem Live.next_bounds (h : span.Live) (d : Bool) :
    (span.next d).begin ≤ (span.next d).endAt ∧ (span.next d).endAt ≤ span.values.length := by
  obtain ⟨h1, h2⟩ := h
  cases d <;> simp [next] <;> omega

end Span

/-- Moves a span standing on `pick` on; a span that runs out is dropped. -/
def spanStep (descending : Bool) (pick : Nat) (span : Span) : Option Unit × Option Span :=
  (none,
    if span.head descending = pick then
      let moved := span.next descending
      if moved.begin = moved.endAt then none else some moved
    else some span)

theorem spanStep_spec {d : Bool} {v : Nat} {span : Span} (h : span.Live) :
    match (spanStep d v span).2 with
    | some moved => moved.Live ∧ ordered d moved.rest = Merge.pass v (ordered d span.rest)
    | none => Merge.pass v (ordered d span.rest) = [] := by
  have ho := Span.ordered_rest d h
  unfold spanStep
  by_cases hv : span.head d = v
  · obtain ⟨hle, hin⟩ := h.next_bounds d
    have hp : Merge.pass v (ordered d span.rest) = ordered d (span.next d).rest := by
      rw [ho, Merge.pass, if_pos hv]
    simp only [if_pos hv]
    by_cases he : (span.next d).begin = (span.next d).endAt
    · rw [if_pos he]
      simp only
      rw [hp, Span.rest_eq_nil (by omega)]
      cases d <;> rfl
    · rw [if_neg he]
      refine ⟨⟨Nat.lt_of_le_of_ne hle he, ?_⟩, hp.symm⟩
      rw [Span.next_values]
      exact hin
  · simp only [if_neg hv]
    refine ⟨h, ?_⟩
    rw [ho, Merge.pass, if_neg hv]

theorem sweep_live {d : Bool} {v : Nat} {spans : List Span} (h : ∀ s ∈ spans, s.Live) :
    ∀ s ∈ (sweep (spanStep d v) spans).2, s.Live := by
  intro s hs
  rw [(sweep_perm _ _).2.mem_iff] at hs
  obtain ⟨s', hs', he⟩ := List.mem_filterMap.mp hs
  have := spanStep_spec (d := d) (v := v) (h s' hs')
  rw [he] at this
  exact this.1

theorem lists_sweep {d : Bool} {v : Nat} {L : List Nat} {spans : List Span}
    (h : Lists d (v :: L) (spans.map (fun s => ordered d s.rest))) (hl : ∀ s ∈ spans, s.Live) :
    Lists d L ((sweep (spanStep d v) spans).2.map (fun s => ordered d s.rest)) := by
  refine h.sweep (fun s hs => ?_)
  have := spanStep_spec (d := d) (v := v) (hl s hs)
  split <;> rename_i he <;> rw [he] at this
  · exact this.2
  · exact this

theorem pick_spans {d : Bool} {v : Nat} {L : List Nat} {span : Span} {spans : List Span}
    (h : Lists d (v :: L) ((span :: spans).map (fun s => ordered d s.rest)))
    (hl : ∀ s ∈ span :: spans, s.Live) :
    pick d (span.head d) (spans.map (Span.head d)) = v :=
  h.pick_eq (fun s hs => by rw [Span.ordered_rest d (hl s hs)]; rfl)

/-! ## The model -/

/-- Whether every set is sparse or missing, and so the union can be read off the arrays. -/
def allSparse (sets : List (Option Bitmap)) : Bool :=
  sets.all (fun set =>
    match set with
    | none => true
    | some set => set.isSparse)

/-- The part of each sparse set inside `[min, max]`; empty sets and empty parts left out. -/
def sparseSpansOf (sets : List (Option Bitmap)) (min max : Nat) : List Span :=
  sets.filterMap (fun set =>
    match set with
    | none => none
    | some set =>
        if set.cardinality = 0 then none
        else
          let begin := lowerBound32 set.values set.cardinality min
          let endAt := upperBound32 set.values set.cardinality max
          if begin = endAt then none else some ⟨set.values, begin, endAt⟩)

/-- The merging loop of `sparseMergedCardinality`; every round counts one value, so the values of
the spans bound the rounds. -/
def sparseMergedLoop : Nat → List Span → Nat → Nat
  | 0, _, count => count
  | _ + 1, [], count => count
  | fuel + 1, span :: spans, count =>
      let smallest := pick false (span.head false) (spans.map (Span.head false))
      sparseMergedLoop fuel (sweep (spanStep false smallest) (span :: spans)).2 (count + 1)

/-- Distinct values of the spans merged, value by value. -/
def sparseMergedCardinality (spans : List Span) : Nat :=
  match spans with
  | [span] => span.size
  | spans => sparseMergedLoop (spans.map Span.size).sum spans 0

/-- A span's part in `key`, and what is left of the span behind it. -/
def inKeyStep (key : Nat) (span : Span) : Option Span × Option Span :=
  if keyOf (span.head false) = key then
    let endAt := span.begin + upperBound32 span.rest span.size (valueOf key 0xffff)
    (some { span with endAt := endAt },
      if endAt = span.endAt then none else some { span with begin := endAt })
  else (none, some span)

/-- Distinct values of the spans' parts in one key. -/
def inKeyCardinality (inKey : List Span) : Nat :=
  let valuesInKey := (inKey.map Span.size).sum
  if inKey.length = 1 then valuesInKey
  else if unionBitsFrom ≤ valuesInKey then
    let low := inKey.foldl (fun low s => min low (lowOf (s.head false))) 0xffff
    let high := inKey.foldl (fun high s => max high (lowOf (s.head true))) 0
    let first := low >>> 6
    let last := high >>> 6
    let words := (inKey.flatMap (fun s => s.rest.map lowOf)).foldl setBit (fun _ => 0)
    ((List.range' first (last + 1 - first)).map (fun w => popcountll (words w))).sum
  else sparseMergedCardinality inKey

/-- The loop over the keys; every round takes at least one value. -/
def sparseKeysLoop : Nat → List Span → Nat → Nat
  | 0, _, total => total
  | _ + 1, [], total => total
  | fuel + 1, span :: spans, total =>
      let smallest := pick false (span.head false) (spans.map (Span.head false))
      let parts := sweep (inKeyStep (keyOf smallest)) (span :: spans)
      sparseKeysLoop fuel parts.2 (total + inKeyCardinality parts.1)

/-- Distinct values of the spans: few values merge in one go, many are counted key by key. -/
def sparseUnionCardinality (spans : List Span) : Nat :=
  match spans with
  | [span] => span.size
  | spans =>
      let values := (spans.map Span.size).sum
      if values < unionBitsFrom then sparseMergedCardinality spans
      else sparseKeysLoop values spans 0

/-- The merging loop of `sparseUnionPage`. -/
def sparsePageLoop (descending : Bool) : Nat → List Span → Nat → Nat → List Nat
  | 0, _, _, _ => []
  | _ + 1, [], _, _ => []
  | fuel + 1, span :: spans, skip, size =>
      if size = 0 then []
      else
        let pick := pick descending (span.head descending) (spans.map (Span.head descending))
        let spans := (sweep (spanStep descending pick) (span :: spans)).2
        if 0 < skip then sparsePageLoop descending fuel spans (skip - 1) size
        else pick :: sparsePageLoop descending fuel spans 0 (size - 1)

/-- `take` entries of a span in walking order, behind the first `skip`. -/
def spanTake (span : Span) (skip take : Nat) (descending : Bool) : List Nat :=
  (List.range take).map (fun i =>
    span.values.getD (if descending then span.endAt - 1 - skip - i else span.begin + skip + i) 0)

/-- The spans merged in walking order: up to `size` values after passing over `skip`. -/
def sparseUnionPage (spans : List Span) (skip size : Nat) (descending : Bool) : List Nat :=
  match spans with
  | [span] =>
      let available := span.size
      if available ≤ skip then []
      else
        spanTake span skip (min (available - skip) size) descending
  | spans => sparsePageLoop descending (spans.map Span.size).sum spans skip size

/-! ## Counting -/

theorem sparseMergedLoop_eq {spans : List Span} (hl : ∀ s ∈ spans, s.Live) {L : List Nat}
    (h : Lists false L (spans.map Span.rest)) :
    ∀ {fuel : Nat}, L.length ≤ fuel →
      ∀ count, sparseMergedLoop fuel spans count = count + L.length := by
  induction L generalizing spans with
  | nil =>
      intro fuel _ count
      cases spans with
      | nil => cases fuel <;> rfl
      | cons s spans =>
          have := h.eq_nil s.rest (by simp)
          rw [Span.rest_eq_cons (hl s (by simp))] at this
          cases this
  | cons v L ih =>
      intro fuel hf count
      cases fuel with
      | zero => simp at hf
      | succ fuel =>
          cases spans with
          | nil =>
              obtain ⟨l, hl, -⟩ := h.exists_head
              simp at hl
          | cons s spans =>
              rw [sparseMergedLoop]
              have hp : pick false (s.head false) (spans.map (Span.head false)) = v :=
                pick_spans h hl
              simp only [hp]
              rw [ih (sweep_live hl) (lists_sweep h hl) (by simpa using hf), List.length_cons]
              omega

theorem sum_size {spans : List Span} (hl : ∀ s ∈ spans, s.Live) :
    (spans.map Span.size).sum = (spans.map (fun s => s.rest.length)).sum := by
  congr 1
  exact List.map_congr_left (fun s hs => (Span.length_rest (hl s hs).2).symm)

theorem sparseMergedCardinality_eq {spans : List Span} (hl : ∀ s ∈ spans, s.Live) {L : List Nat}
    (h : Lists false L (spans.map Span.rest)) : sparseMergedCardinality spans = L.length := by
  unfold sparseMergedCardinality
  split
  · rename_i span
    rw [h.eq_of_singleton, Span.length_rest (hl span (by simp)).2]
  · rw [sparseMergedLoop_eq hl h (by rw [sum_size hl]; exact h.length_le), Nat.zero_add]

/-! ### One key -/

theorem inKeyStep_spec {key : Nat} {s : Span} (h : s.Live) (hs : s.rest.Pairwise (· < ·))
    (hk : ∀ a ∈ s.rest, key ≤ keyOf a) :
    (match (inKeyStep key s).1 with
      | some part => part.Live ∧ part.rest = s.rest.filter (fun a => decide (keyOf a = key))
      | none => s.rest.filter (fun a => decide (keyOf a = key)) = []) ∧
    (match (inKeyStep key s).2 with
      | some left => left.Live ∧ left.rest = s.rest.filter (fun a => decide (¬ keyOf a = key))
      | none => s.rest.filter (fun a => decide (¬ keyOf a = key)) = []) := by
  have hlen := Span.length_rest h.2
  have hcons := Span.rest_eq_cons h
  have hcut : Search.Cut (fun a => keyOf a = key) s.rest
      (upperBound32 s.rest s.size (valueOf key 0xffff)) := by
    rw [← hlen]
    obtain ⟨h1, h2, h3⟩ := upperBound_cut hs (valueOf key 0xffff)
    rw [upperBound32]
    rw [valueOf_eq _ (by omega)] at h1 h2 h3 ⊢
    refine ⟨h1, fun a ha => ?_, fun a ha => ?_⟩
    · have := h2 a ha
      have := hk a (List.mem_of_mem_take ha)
      rw [keyOf_eq] at this
      show keyOf a = key
      rw [keyOf_eq]
      omega
    · have := h3 a ha
      show ¬ keyOf a = key
      rw [keyOf_eq]
      omega
  obtain ⟨h1, h2⟩ := h
  unfold inKeyStep
  by_cases hhead : keyOf (s.head false) = key
  · simp only [if_pos hhead]
    set e := upperBound32 s.rest s.size (valueOf key 0xffff) with he
    have hpos : 0 < e := by
      by_contra hc
      have h0 : e = 0 := by omega
      rw [h0] at hcut
      exact hcut.2.2 (s.head false) (by rw [List.drop_zero, hcons]; simp) hhead
    have hle := hcut.1
    rw [hlen] at hle
    have hsize : s.size = s.endAt - s.begin := rfl
    refine ⟨⟨⟨by simp only; omega, by simp only; omega⟩, ?_⟩, ?_⟩
    · rw [← hcut.take]
      simp only [Span.rest]
      rw [List.take_take, show s.begin + e - s.begin = e by omega, Nat.min_eq_left (by omega)]
    · by_cases hend : s.begin + e = s.endAt
      · rw [if_pos hend]
        simp only
        rw [← hcut.drop, List.drop_eq_nil_of_le (by omega)]
      · rw [if_neg hend]
        refine ⟨⟨by simp only; omega, h2⟩, ?_⟩
        rw [← hcut.drop]
        simp only [Span.rest]
        rw [List.drop_take, List.drop_drop, Nat.sub_sub]
  · simp only [if_neg hhead]
    have hne : ∀ a ∈ s.rest, keyOf a ≠ key := by
      intro a ha hak
      have h3 := hk (s.head false) (by rw [hcons]; simp)
      rw [hcons] at ha hs
      rcases List.mem_cons.mp ha with rfl | hm
      · exact hhead hak
      · have := (List.pairwise_cons.mp hs).1 a hm
        rw [keyOf_eq] at h3 hhead hak
        omega
    refine ⟨List.filter_eq_nil_iff.mpr (fun a ha => by simpa using hne a ha), ⟨h1, h2⟩, ?_⟩
    exact (List.filter_eq_self.mpr (fun a ha => by simpa using hne a ha)).symm

theorem foldl_min_le {α : Type} (f : α → Nat) (l : List α) (init : Nat) :
    l.foldl (fun m a => min m (f a)) init ≤ init ∧
      ∀ a ∈ l, l.foldl (fun m a => min m (f a)) init ≤ f a := by
  induction l generalizing init with
  | nil => simp
  | cons b l ih =>
      obtain ⟨h1, h2⟩ := ih (min init (f b))
      rw [List.foldl_cons]
      refine ⟨by omega, fun a ha => ?_⟩
      rcases List.mem_cons.mp ha with rfl | hm
      · omega
      · exact h2 a hm

theorem le_foldl_max {α : Type} (f : α → Nat) (l : List α) (init : Nat) :
    init ≤ l.foldl (fun m a => max m (f a)) init ∧
      ∀ a ∈ l, f a ≤ l.foldl (fun m a => max m (f a)) init := by
  induction l generalizing init with
  | nil => simp
  | cons b l ih =>
      obtain ⟨h1, h2⟩ := ih (max init (f b))
      rw [List.foldl_cons]
      refine ⟨by omega, fun a ha => ?_⟩
      rcases List.mem_cons.mp ha with rfl | hm
      · omega
      · exact h2 a hm

theorem foldl_max_lt {α : Type} (f : α → Nat) (l : List α) {init n : Nat} (hi : init < n)
    (hf : ∀ a ∈ l, f a < n) : l.foldl (fun m a => max m (f a)) init < n := by
  induction l generalizing init with
  | nil => exact hi
  | cons b l ih =>
      rw [List.foldl_cons]
      refine ih ?_ (fun a ha => hf a (List.mem_cons_of_mem _ ha))
      have := hf b (by simp)
      omega

/-- The entries of a span lie between its first and its last. -/
theorem head_bounds {s : Span} (h : s.Live) (hs : s.rest.Pairwise (· < ·)) :
    ∀ a ∈ s.rest, s.head false ≤ a ∧ a ≤ s.head true := by
  intro a ha
  constructor
  · have hc := Span.rest_eq_cons h
    rw [hc] at ha hs
    rcases List.mem_cons.mp ha with rfl | hm
    · exact le_rfl
    · exact ((List.pairwise_cons.mp hs).1 a hm).le
  · have hc := Span.rest_eq_append h
    rw [hc] at ha hs
    rcases List.mem_append.mp ha with hm | hm
    · exact ((List.pairwise_append.mp hs).2.2 a hm _ (by simp)).le
    · rw [List.mem_singleton] at hm; exact hm.le

theorem head_mem {s : Span} (h : s.Live) (d : Bool) : s.head d ∈ s.rest := by
  cases d with
  | false => rw [Span.rest_eq_cons h]; simp
  | true => rw [Span.rest_eq_append h]; simp

/-- The three ways to count a key agree. -/
theorem inKeyCardinality_eq {key : Nat} {inKey : List Span} (hl : ∀ s ∈ inKey, s.Live)
    (hk : ∀ s ∈ inKey, ∀ a ∈ s.rest, keyOf a = key) {L : List Nat}
    (h : Lists false L (inKey.map Span.rest)) : inKeyCardinality inKey = L.length := by
  have hsort : ∀ s ∈ inKey, s.rest.Pairwise (· < ·) := fun s hs =>
    (h.parts _ (List.mem_map_of_mem hs)).imp (by simp)
  simp only [inKeyCardinality]
  by_cases h1 : inKey.length = 1
  · rw [if_pos h1]
    obtain ⟨s, rfl⟩ := List.length_eq_one_iff.mp h1
    rw [h.eq_of_singleton, Span.length_rest (hl s (by simp)).2]
    simp
  · rw [if_neg h1]
    by_cases hbits : unionBitsFrom ≤ (inKey.map Span.size).sum
    · rw [if_pos hbits]
      set low := inKey.foldl (fun low s => min low (lowOf (s.head false))) 0xffff with hlow
      set high := inKey.foldl (fun high s => max high (lowOf (s.head true))) 0 with hhigh
      have hhigh_lt : high < 65536 := foldl_max_lt _ _ (by omega) (fun s _ => lowOf_lt _)
      rw [shiftRight_6, shiftRight_6]
      rw [show (fun w => popcountll ((inKey.flatMap (fun s => s.rest.map lowOf)).foldl setBit
        (fun _ => 0) w)) = (fun w => (((inKey.flatMap (fun s => s.rest.map lowOf)).foldl setBit
        (fun _ => 0)) w).cpop.toNat) from rfl, sum_cpop _ (n := 65536) (by omega)]
      -- the low parts of the merge, listed by their bits
      rw [show L.length = (L.map lowOf).length from (List.length_map lowOf).symm]
      refine congrArg List.length (eq_of_mem_iff_lt (pairwise_below _ _) ?_ (fun i => ?_))
      · have hLk : ∀ a ∈ L, keyOf a = key := by
          intro a ha
          obtain ⟨l, hl', ha⟩ := (h.mem a).mp ha
          obtain ⟨s, hs, rfl⟩ := List.mem_map.mp hl'
          exact hk s hs a ha
        refine List.pairwise_map.mpr (h.pairwise.imp_of_mem (fun {a b} ha hb hab => ?_))
        have e1 := hLk a ha
        have e2 := hLk b hb
        rw [before_false] at hab
        rw [keyOf_eq] at e1 e2
        rw [lowOf_eq, lowOf_eq]
        omega
      · rw [mem_below, has_foldl_setBit, List.mem_flatMap, List.mem_map]
        constructor
        · rintro ⟨-, -, -, hh⟩
          obtain ⟨s, hs, hm⟩ := hh.resolve_left (not_has_zero i)
          obtain ⟨a, ha, rfl⟩ := List.mem_map.mp hm
          exact ⟨a, (h.mem a).mpr ⟨_, List.mem_map_of_mem hs, ha⟩, rfl⟩
        · rintro ⟨a, ha, rfl⟩
          obtain ⟨l, hl', ha⟩ := (h.mem a).mp ha
          obtain ⟨s, hs, rfl⟩ := List.mem_map.mp hl'
          have hb := head_bounds (hl s hs) (hsort s hs) a ha
          have e := hk s hs a ha
          have e1 := hk s hs _ (head_mem (hl s hs) false)
          have e2 := hk s hs _ (head_mem (hl s hs) true)
          have hmin := (foldl_min_le (fun s : Span => lowOf (s.head false)) inKey 0xffff).2 s hs
          have hmax := (le_foldl_max (fun s : Span => lowOf (s.head true)) inKey 0).2 s hs
          rw [← hlow] at hmin
          rw [← hhigh] at hmax
          simp only [lowOf_eq] at hmin hmax ⊢
          rw [keyOf_eq] at e e1 e2
          refine ⟨by omega, by omega, by omega, Or.inr ⟨s, hs, List.mem_map.mpr ⟨a, ha, ?_⟩⟩⟩
          rw [lowOf_eq]
    · rw [if_neg hbits]
      exact sparseMergedCardinality_eq hl h

/-! ### Key by key -/

/-- The spans are cut at the end of a key: what they have of it, and what they have behind it. -/
theorem sweep_inKeyStep {spans : List Span} {L : List Nat} {key : Nat}
    (hl : ∀ s ∈ spans, s.Live) (h : Lists false L (spans.map Span.rest))
    (hge : ∀ s ∈ spans, ∀ a ∈ s.rest, key ≤ keyOf a) :
    ((∀ s ∈ (sweep (inKeyStep key) spans).1, s.Live ∧ ∀ a ∈ s.rest, keyOf a = key) ∧
      Lists false (L.filter fun a => decide (keyOf a = key))
        ((sweep (inKeyStep key) spans).1.map Span.rest)) ∧
    (∀ s ∈ (sweep (inKeyStep key) spans).2, s.Live) ∧
      Lists false (L.filter fun a => decide (¬ keyOf a = key))
        ((sweep (inKeyStep key) spans).2.map Span.rest) := by
  have hsort : ∀ s ∈ spans, s.rest.Pairwise (· < ·) := fun s hs =>
    (h.parts _ (List.mem_map_of_mem hs)).imp (by simp)
  have hstep := fun s hs => inKeyStep_spec (hl s hs) (hsort s hs) (hge s hs)
  have hperm := sweep_perm (inKeyStep key) spans
  refine ⟨⟨fun s hs => ?_, (h.filter _).filterMap hperm.1 fun s hs => ?_⟩, fun s hs => ?_,
    (h.filter _).filterMap hperm.2 fun s hs => ?_⟩
  · rw [hperm.1.mem_iff] at hs
    obtain ⟨s', hs', he⟩ := List.mem_filterMap.mp hs
    have hin := (hstep s' hs').1
    rw [he] at hin
    refine ⟨hin.1, fun a ha => ?_⟩
    rw [hin.2, List.mem_filter] at ha
    simpa using ha.2
  · have hin := (hstep s hs).1
    split <;> rename_i he <;> rw [he] at hin
    · exact hin.2
    · exact hin
  · rw [hperm.2.mem_iff] at hs
    obtain ⟨s', hs', he⟩ := List.mem_filterMap.mp hs
    have hout := (hstep s' hs').2
    rw [he] at hout
    exact hout.1
  · have hout := (hstep s hs).2
    split <;> rename_i he <;> rw [he] at hout
    · exact hout.2
    · exact hout

theorem sparseKeysLoop_eq :
    ∀ (fuel : Nat) {spans : List Span} {L : List Nat}, (∀ s ∈ spans, s.Live) →
      Lists false L (spans.map Span.rest) → L.length ≤ fuel →
      ∀ total, sparseKeysLoop fuel spans total = total + L.length := by
  intro fuel
  induction fuel with
  | zero =>
      intro spans L _ _ hf total
      rw [sparseKeysLoop]
      omega
  | succ fuel ih =>
      intro spans L hl h hf total
      cases spans with
      | nil =>
          have hnil : L = [] := List.eq_nil_iff_forall_not_mem.mpr (fun a ha => by
            obtain ⟨l, hl, -⟩ := (h.mem a).mp ha
            simp at hl)
          rw [hnil, sparseKeysLoop]
          rfl
      | cons s spans =>
          cases L with
          | nil =>
              have hnil := h.eq_nil s.rest (by simp)
              rw [Span.rest_eq_cons (hl s (by simp))] at hnil
              cases hnil
          | cons v L =>
              rw [sparseKeysLoop]
              have hp : pick false (s.head false) (spans.map (Span.head false)) = v :=
                pick_spans h hl
              simp only [hp]
              -- the least value has the least key
              have hge : ∀ x ∈ s :: spans, ∀ a ∈ x.rest, keyOf v ≤ keyOf a := by
                intro x hx a ha
                rcases h.before _ (List.mem_map_of_mem hx) a ha with rfl | hb
                · exact le_rfl
                · rw [before_false] at hb
                  exact keyOf_mono hb.le
              obtain ⟨⟨hin_live, hin⟩, hout_live, hout⟩ := sweep_inKeyStep hl h hge
              have hsum := List.length_eq_length_filter_add (l := v :: L)
                (fun a => decide (keyOf a = keyOf v))
              have hpos : 0 < ((v :: L).filter (fun a => decide (keyOf a = keyOf v))).length := by
                rw [List.filter_cons_of_pos (by simp)]
                simp
              have hnot : (v :: L).filter (fun a => !decide (keyOf a = keyOf v)) =
                  (v :: L).filter fun a => decide (¬ keyOf a = keyOf v) := by
                simp only [decide_not]
              rw [hnot] at hsum
              rw [inKeyCardinality_eq (fun x hx => (hin_live x hx).1)
                (fun x hx => (hin_live x hx).2) hin, ih hout_live hout (by omega)]
              omega

/-- The union of the spans is counted. -/
theorem sparseUnionCardinality_eq {spans : List Span} (hl : ∀ s ∈ spans, s.Live) {L : List Nat}
    (h : Lists false L (spans.map Span.rest)) : sparseUnionCardinality spans = L.length := by
  unfold sparseUnionCardinality
  split
  · rename_i span
    rw [h.eq_of_singleton, Span.length_rest (hl span (by simp)).2]
  · simp only
    split
    · exact sparseMergedCardinality_eq hl h
    · rw [sparseKeysLoop_eq _ hl h (by rw [sum_size hl]; exact h.length_le), Nat.zero_add]

/-! ## Pages -/

theorem sparsePageLoop_eq {d : Bool} {spans : List Span} (hl : ∀ s ∈ spans, s.Live) {L : List Nat}
    (h : Lists d L (spans.map (fun s => ordered d s.rest))) :
    ∀ {fuel : Nat}, L.length ≤ fuel → ∀ skip size,
      sparsePageLoop d fuel spans skip size = (L.drop skip).take size := by
  induction L generalizing spans with
  | nil =>
      intro fuel _ skip size
      cases spans with
      | nil => cases fuel <;> simp [sparsePageLoop]
      | cons s spans =>
          have := h.eq_nil (ordered d s.rest) (by simp)
          rw [Span.ordered_rest d (hl s (by simp))] at this
          cases this
  | cons v L ih =>
      intro fuel hf skip size
      cases fuel with
      | zero => simp at hf
      | succ fuel =>
          cases spans with
          | nil =>
              obtain ⟨l, hl, -⟩ := h.exists_head
              simp at hl
          | cons s spans =>
              rw [sparsePageLoop]
              have hp : pick d (s.head d) (spans.map (Span.head d)) = v := pick_spans h hl
              simp only [hp]
              have hrec :=
                ih (sweep_live hl) (lists_sweep h hl) (show L.length ≤ fuel by simpa using hf)
              cases size with
              | zero => simp
              | succ size =>
                  rw [if_neg (by omega)]
                  cases skip with
                  | zero => rw [if_neg (by omega), hrec]; simp
                  | succ skip => rw [if_pos (by omega), hrec]; simp

theorem spanTake_eq (d : Bool) {span : Span} (h1 : span.begin ≤ span.endAt)
    (h2 : span.endAt ≤ span.values.length) (skip take : Nat) (ht : skip + take ≤ span.size) :
    spanTake span skip take d = ((ordered d span.rest).drop skip).take take := by
  have hlen := Span.length_rest h2
  have hsize : span.size = span.endAt - span.begin := rfl
  refine List.ext_getElem (by simp [spanTake, hlen]; omega) (fun i hi hi' => ?_)
  simp only [spanTake, List.length_map, List.length_range] at hi
  simp only [spanTake]
  rw [List.getElem_map, List.getElem_range, List.getElem_take, List.getElem_drop]
  cases d with
  | false =>
      simp only [Bool.false_eq_true, if_false, ordered_false, Span.rest, List.getElem_take,
        List.getElem_drop]
      simp [show span.begin + (skip + i) < span.values.length by omega, Nat.add_assoc]
  | true =>
      simp only [if_true, ordered_true, List.getElem_reverse, Span.rest, List.getElem_take,
        List.getElem_drop]
      simp [show span.endAt - 1 - skip - i < span.values.length by omega]
      congr 1
      omega

/-- Reading a page by index reads the page of the entries. -/
theorem page_span (d : Bool) {span : Span} (h1 : span.begin ≤ span.endAt)
    (h2 : span.endAt ≤ span.values.length) (skip size : Nat) :
    (if span.size ≤ skip then (([] : List Nat), skip - span.size)
      else (spanTake span skip (min (span.size - skip) size) d, 0))
      = page (ordered d span.rest) skip size := by
  have hlen := Span.length_rest h2
  have hl : (ordered d span.rest).length = span.size := by rw [length_ordered, hlen]
  by_cases hsk : span.size ≤ skip
  · rw [if_pos hsk, page_of_length_le size (by rw [hl]; exact hsk), hl]
  · rw [if_neg hsk, spanTake_eq d h1 h2 _ _ (by omega), page, hl,
      show skip - span.size = 0 by omega, ← List.take_take]
    congr 1
    exact List.take_of_length_le (by rw [List.length_take, List.length_drop, hl]; omega)

theorem sparseUnionPage_eq {d : Bool} {spans : List Span} (hl : ∀ s ∈ spans, s.Live) {L : List Nat}
    (h : Lists d L (spans.map (fun s => ordered d s.rest))) (skip size : Nat) :
    sparseUnionPage spans skip size d = (L.drop skip).take size := by
  unfold sparseUnionPage
  split
  · rename_i span
    obtain ⟨h1, h2⟩ := hl span (by simp)
    have hp := congrArg Prod.fst (page_span d h1.le h2 skip size)
    rw [apply_ite Prod.fst] at hp
    rw [h.eq_of_singleton]
    exact hp
  · refine sparsePageLoop_eq hl h ?_ skip size
    have := h.length_le
    simp only [length_ordered] at this
    rw [sum_size hl]
    exact this

/-! ## The spans of a range -/

/-- A value is in one of the sets. -/
def InSome (sets : List (Option Bitmap)) (v : Nat) : Prop := ∃ set ∈ sets, InSet set v

instance (sets : List (Option Bitmap)) (v : Nat) : Decidable (InSome sets v) := by
  unfold InSome; infer_instance

theorem sparseForm_of_allSparse {sets : List (Option Bitmap)} (ha : allSparse sets = true)
    (hv : ∀ set, some set ∈ sets → set.Valid) {set : Bitmap} (hs : some set ∈ sets) :
    set.SparseForm := by
  have hsp : set.isSparse = true := List.all_eq_true.mp ha _ hs
  rcases (hv set hs).form with hf | hf
  · exact hf
  · exact absurd (Bitmap.isSparse_iff.mp hsp) hf.containers_ne

theorem mem_sparseSpansOf {sets : List (Option Bitmap)} {min max : Nat} {s : Span} :
    s ∈ sparseSpansOf sets min max ↔ ∃ set, some set ∈ sets ∧ set.cardinality ≠ 0 ∧
      lowerBound32 set.values set.cardinality min ≠ upperBound32 set.values set.cardinality max ∧
      s = ⟨set.values, lowerBound32 set.values set.cardinality min,
        upperBound32 set.values set.cardinality max⟩ := by
  simp only [sparseSpansOf, List.mem_filterMap]
  constructor
  · rintro ⟨o, ho, h⟩
    cases o with
    | none => cases h
    | some set =>
        simp only at h
        split at h
        · cases h
        · split at h
          · cases h
          · rename_i h1 h2
            cases h
            exact ⟨set, ho, h1, h2, rfl⟩
  · rintro ⟨set, ho, h1, h2, rfl⟩
    exact ⟨some set, ho, by simp only [if_neg h1, if_neg h2]⟩

/-- The spans are the sets' values of the range. -/
theorem sparseSpansOf_rest {set : Bitmap} (hf : set.SparseForm) (min max : Nat) :
    (Span.mk set.values (lowerBound32 set.values set.cardinality min)
        (upperBound32 set.values set.cardinality max)).rest
      = set.values.filter (fun v => decide (min ≤ v ∧ v ≤ max)) := by
  rw [hf.cardinality_eq]
  exact slice_bounds hf.sorted min max

theorem sparseSpansOf_live {sets : List (Option Bitmap)} {min max : Nat} (hle : min ≤ max)
    (hf : ∀ set, some set ∈ sets → set.SparseForm) :
    ∀ s ∈ sparseSpansOf sets min max, s.Live := by
  intro s hs
  obtain ⟨set, hm, -, hne, rfl⟩ := mem_sparseSpansOf.mp hs
  have hform := hf set hm
  rw [hform.cardinality_eq] at hne ⊢
  have hlow := lowerBound_cut hform.sorted min
  have hup := upperBound_cut hform.sorted max
  have hll : lowerBound set.values set.values.length min
      ≤ upperBound set.values set.values.length max := by
    rw [hlow.length, hup.length]
    exact (List.monotone_filter_right _ (fun a ha => by
      simp only [decide_eq_true_eq] at ha ⊢
      omega)).length_le
  refine ⟨?_, hup.1⟩
  rw [lowerBound32, upperBound32] at hne ⊢
  exact lt_of_le_of_ne hll hne

theorem lists_sparseSpansOf {sets : List (Option Bitmap)} {min max : Nat} (d : Bool)
    (hf : ∀ set, some set ∈ sets → set.SparseForm) :
    Lists d (ordered d (below (2 ^ 32) (fun v => min ≤ v ∧ v ≤ max ∧ InSome sets v)))
      ((sparseSpansOf sets min max).map (fun s => ordered d s.rest)) := by
  refine ⟨pairwise_ordered (pairwise_below _ _), fun l hl => ?_, fun v => ?_⟩
  · obtain ⟨s, hs, rfl⟩ := List.mem_map.mp hl
    obtain ⟨set, hm, -, -, rfl⟩ := mem_sparseSpansOf.mp hs
    rw [sparseSpansOf_rest (hf set hm)]
    exact pairwise_ordered ((hf set hm).sorted.filter _)
  · rw [mem_ordered, mem_below]
    constructor
    · rintro ⟨-, hmin, hmax, _, hm, set, rfl, hv⟩
      have hform := hf set hm
      rw [Bitmap.members_sparse hform.containers_eq] at hv
      have hrest : v ∈ (Span.mk set.values (lowerBound32 set.values set.cardinality min)
          (upperBound32 set.values set.cardinality max)).rest := by
        rw [sparseSpansOf_rest hform, List.mem_filter]
        exact ⟨hv, by simp [hmin, hmax]⟩
      refine ⟨_, List.mem_map.mpr ⟨_, mem_sparseSpansOf.mpr ⟨set, hm, ?_, ?_, rfl⟩, rfl⟩,
        mem_ordered.mpr hrest⟩
      · rw [hform.cardinality_eq, ne_eq, List.length_eq_zero_iff]
        exact List.ne_nil_of_mem hv
      · intro he
        rw [Span.rest_eq_nil (by simp only; omega)] at hrest
        cases hrest
    · rintro ⟨l, hl, hv⟩
      obtain ⟨s, hs, rfl⟩ := List.mem_map.mp hl
      obtain ⟨set, hm, -, -, rfl⟩ := mem_sparseSpansOf.mp hs
      rw [mem_ordered, sparseSpansOf_rest (hf set hm), List.mem_filter, decide_eq_true_eq] at hv
      refine ⟨(hf set hm).lt v hv.1, hv.2.1, hv.2.2, _, hm, set, rfl, ?_⟩
      rw [Bitmap.members_sparse (hf set hm).containers_eq]
      exact hv.1

end Arnm.Roaring
