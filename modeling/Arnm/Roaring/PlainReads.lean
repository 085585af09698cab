import Arnm.Roaring.PlainSets

set_option autoImplicit false

/-! # What is read off the sets of a run

Every answer a program gets of its sets -- of one of them or of a query over several -- is the
answer plain sets of numbers give: a membership, a number of members, a least or greatest member,
the member with so many before it, a slice in one of the two directions. The search through
directories and words, the walk over keys and the merge of spans leave no trace in it.
-/

namespace Arnm.Roaring

open Enumerated Listing Pool

instance asymm_before (d : Bool) : Std.Asymm (Before d) := ⟨fun _ _ h => h.asymm⟩

/-! ## One set -/

namespace Bitmap

variable {set : Bitmap}

/-- The walking order of a set enumerates it. -/
theorem Valid.ordered_enumerates (h : set.Valid) (d : Bool) :
    Enumerates (Before d) (ordered d set.members) set.toSet := by
  constructor
  · exact pairwise_ordered h.pairwise_members
  · intro v
    exact mem_ordered

end Bitmap

namespace Store

variable {world : Surroundings} {store : Store}

/-- A set of a run answers as the plain set it stands for. -/
theorem reads_plain_set (hr : Reachable world store) {i : ℕ} {set : Bitmap}
    (hset : store.sets[i]? = some set) :
    ∃ S, store.values[i]? = some S ∧
      (∀ v, contains set v = true ↔ v ∈ S) ∧ set.cardinality = S.ncard ∧
      (∀ v, minimum set = some v ↔ IsLeast S v) ∧ (∀ v, maximum set = some v ↔ IsGreatest S v) ∧
      (∀ min max, rangeCardinality set min max = {v ∈ S | min ≤ v ∧ v ≤ max}.ncard) ∧
      (∀ index v, select set index = some v ↔ v ∈ S ∧ rank (· < ·) S v = index) ∧
      ∀ skip size d, Enumerates (Before d) (page set skip size d)
        (slice (Before d) S skip size) := by
  have hvalid := hr.sound.valid set (List.mem_of_getElem? hset)
  have henum := hvalid.enumerates
  refine ⟨set.toSet, values_of_getElem? hset, fun v => contains_iff hvalid, ?_, fun v => ?_,
    fun v => ?_, fun min max => ?_, fun index v => ?_, fun skip size d => ?_⟩
  · rw [hvalid.cardinality_eq, henum.ncard]
  · rw [minimum_eq hvalid]
    exact henum.head?_iff v
  · rw [maximum_eq hvalid]
    exact henum.getLast?_iff v
  · rw [rangeCardinality_eq hvalid]
    exact (henum.filter _).ncard.symm
  · rw [select_eq hvalid]
    exact henum.getElem?_iff index v
  · rw [page_eq hvalid]
    exact (hvalid.ordered_enumerates d).slice skip size

/-- The second set of the sample. -/
def sampleSet : Bitmap := ⟨some 4128, [], [2, 4, 5, 9, 65536], 5, 65536, 5⟩

theorem sampleSet_eq : sampleStore.sets[1]? = some sampleSet := rfl

theorem reads_plain_set_sample :
    ∃ S : Set ℕ, sampleStore.values[1]? = some S ∧ S.ncard = 5 ∧ IsGreatest S 65536 ∧
      {v ∈ S | 3 ≤ v ∧ v ≤ 9}.ncard = 3 ∧
      Enumerates (Before true) [9, 5] (slice (Before true) S 1 2) := by
  obtain ⟨S, hS, -, hcard, -, hmax, hrange, -, hpage⟩ :=
    reads_plain_set reachable_sampleStore sampleSet_eq
  refine ⟨S, hS, hcard.symm, (hmax 65536).mp (by decide), (hrange 3 9).symm.trans (by decide), ?_⟩
  have hout : page sampleSet 1 2 true = [9, 5] := by decide +kernel
  exact hout ▸ hpage 1 2 true

/-! ## Queries -/

/-- The arguments of a query, its sets by their pointers. -/
structure Question where
  all : Option (List ℕ)
  allCount : ℕ
  any : Option (List ℕ)
  anyCount : ℕ
  none : Option (List ℕ)
  noneCount : ℕ
  min : ℕ
  max : ℕ

namespace Question

def pointersOf (pointers : Option (List ℕ)) (count : ℕ) : List ℕ := (pointers.getD []).take count

/-- The members of the plain set a pointer names; a pointer without a set names the empty one. -/
def Has (sets : List (Set ℕ)) (v i : ℕ) : Prop := ∃ S ∈ sets[i]?, v ∈ S

/-- What the question asks of plain sets. -/
def Wants (question : Question) (sets : List (Set ℕ)) : Set ℕ :=
  {v | (question.min ≤ v ∧ v ≤ question.max) ∧
    (∀ i ∈ pointersOf question.all question.allCount, Has sets v i) ∧
    (pointersOf question.any question.anyCount ≠ [] →
      ∃ i ∈ pointersOf question.any question.anyCount, Has sets v i) ∧
    (∀ i ∈ pointersOf question.none question.noneCount, ¬ Has sets v i) ∧
    (pointersOf question.all question.allCount ≠ [] ∨
      pointersOf question.any question.anyCount ≠ [])}

/-- At most `queryMax` pointers of each kind, and an array wherever a number is given. -/
def Proper (question : Question) : Prop :=
  question.allCount ≤ queryMax ∧ question.anyCount ≤ queryMax ∧ question.noneCount ≤ queryMax ∧
    (question.all = Option.none → question.allCount = 0) ∧
    (question.any = Option.none → question.anyCount = 0) ∧
    (question.none = Option.none → question.noneCount = 0)

end Question

/-- A question put to the sets of the store. -/
def query (store : Store) (question : Question) : Query where
  all := question.all.map fun pointers => pointers.map fun i => store.sets[i]?
  allCount := question.allCount
  any := question.any.map fun pointers => pointers.map fun i => store.sets[i]?
  anyCount := question.anyCount
  none := question.none.map fun pointers => pointers.map fun i => store.sets[i]?
  noneCount := question.noneCount
  min := question.min
  max := question.max

open Question

/-- The sets of a kind are those their pointers name. -/
theorem take_pointers (store : Store) (pointers : Option (List ℕ)) (count : ℕ) :
    ((pointers.map fun pointers => pointers.map fun i => store.sets[i]?).getD []).take count =
      (pointersOf pointers count).map fun i => store.sets[i]? := by
  cases pointers with
  | none => simp [pointersOf]
  | some pointers => exact List.map_take.symm

theorem inSet_pointer (store : Store) (v i : ℕ) :
    InSet store.sets[i]? v ↔ Has store.values v i := by
  rw [Has, values_getElem?]
  cases store.sets[i]? <;> simp [InSet]

/-- The matches of the query are what the question wants of the plain sets. -/
theorem matches_iff (store : Store) (question : Question) (v : ℕ) :
    (store.query question).Matches v ↔ v ∈ question.Wants store.values := by
  have hall := take_pointers store question.all question.allCount
  have hany := take_pointers store question.any question.anyCount
  have hnone := take_pointers store question.none question.noneCount
  unfold Query.Matches Query.allSets Query.anySets Query.noneSets query Wants
  rw [hall, hany, hnone]
  -- what is said of all named sets first, the two are rewritten differently
  simp only [List.forall_mem_map, ne_eq, List.map_eq_nil_iff]
  simp only [List.mem_map, exists_exists_and_eq_and, inSet_pointer, Set.mem_ofPred_eq]

theorem valid_query (hs : store.Sound) (question : Question) : (store.query question).Valid := by
  have hnamed : ∀ (pointers : Option (List ℕ)) (count : ℕ),
      ∀ set ∈ ((pointers.map fun pointers => pointers.map fun i => store.sets[i]?).getD
        []).take count,
        ∀ s ∈ set, s.Valid := by
    intro pointers count set hset s hset'
    rw [take_pointers] at hset
    obtain ⟨i, -, rfl⟩ := List.mem_map.mp hset
    exact hs.valid s (List.mem_of_getElem? hset')
  exact ⟨hnamed _ _, hnamed _ _, hnamed _ _⟩

theorem checkQuery_proper {question : Question} (hp : question.Proper) (store : Store) :
    checkQuery (some (store.query question)) = .success := by
  obtain ⟨h1, h2, h3, h4, h5, h6⟩ := hp
  have hgiven : ∀ {count : ℕ} {pointers : Option (List ℕ)},
      (pointers = Option.none → count = 0) →
      ¬ (count ≠ 0 ∧
        (pointers.map fun pointers => pointers.map fun i => store.sets[i]?).isNone) := by
    intro count pointers h hboth
    rw [Option.isNone_map, Option.isNone_iff_eq_none] at hboth
    exact hboth.1 (h hboth.2)
  have hmost : ¬ (queryMax < (store.query question).allCount ∨
      queryMax < (store.query question).anyCount ∨
      queryMax < (store.query question).noneCount) := by
    simp only [query]
    omega
  have harrays : ¬ (((store.query question).allCount ≠ 0 ∧ (store.query question).all.isNone) ∨
      ((store.query question).anyCount ≠ 0 ∧ (store.query question).any.isNone) ∨
      ((store.query question).noneCount ≠ 0 ∧ (store.query question).none.isNone)) := by
    rintro (h | h | h)
    · exact hgiven h4 h
    · exact hgiven h5 h
    · exact hgiven h6 h
  simp only [checkQuery, if_neg hmost, if_neg harrays]

/-- What a query asks for, in the walking direction, enumerates what the question wants. -/
theorem matching_enumerates (hs : store.Sound) (question : Question) (d : Bool) :
    Enumerates (Before d) (ordered d (store.query question).matching)
      (question.Wants store.values) := by
  constructor
  · exact pairwise_ordered (pairwise_below _ _)
  · intro v
    rw [mem_ordered, Query.matching, mem_below, ← matches_iff]
    apply and_iff_right_of_imp
    rintro ⟨-, hall, hany, -, hnamed⟩
    -- a match is in some named set, so it is a value of 32 bits
    have hin : ∃ set ∈ (store.query question).allSets ++ (store.query question).anySets,
        InSet set v := by
      rcases hnamed with hne | hne
      · obtain ⟨set, hset⟩ := List.exists_mem_of_ne_nil _ hne
        exact ⟨set, List.mem_append_left _ hset, hall set hset⟩
      · obtain ⟨set, hset, hv⟩ := hany hne
        exact ⟨set, List.mem_append_right _ hset, hv⟩
    obtain ⟨set, hset, s, hsome, hv⟩ := hin
    have hvalid := valid_query hs question
    rcases List.mem_append.mp hset with hset | hset
    · exact (hvalid.all set hset s hsome).lt_of_mem hv
    · exact (hvalid.any set hset s hsome).lt_of_mem hv

/-- A query over the sets of a run, asked properly, gets the answers of the plain sets: their
number, a slice in the direction asked for and its length, or both in one walk. -/
theorem queries_plain_sets (hr : Reachable world store) (question : Question)
    (hp : question.Proper) (skip size : ℕ) (d : Bool) :
    queryCardinality (some (store.query question)) true =
        .ok (question.Wants store.values).ncard ∧
      ∃ page, queryPage (some (store.query question)) skip size d true true = .ok page ∧
        Enumerates (Before d) page.out (slice (Before d) (question.Wants store.values) skip size) ∧
        page.written = (slice (Before d) (question.Wants store.values) skip size).ncard ∧
        queryListing (some (store.query question)) skip size d true true true =
          .ok ⟨page, (question.Wants store.values).ncard⟩ := by
  have hcheck := checkQuery_proper hp store
  have hvalid := valid_query hr.sound question
  have hcount : (question.Wants store.values).ncard = (store.query question).matching.length := by
    rw [(matching_enumerates hr.sound question d).ncard, length_ordered]
  have hslice := (matching_enumerates hr.sound question d).slice skip size
  rw [hcount]
  refine ⟨queryCardinality_eq hcheck hvalid, _,
    queryPage_eq hcheck hvalid skip size d (fun _ => rfl),
    hslice, ?_, queryListing_eq hcheck hvalid skip size d fun _ => rfl⟩
  rw [hslice.ncard]
  rfl

/-- What one of the two sets of the sample has, the third being empty. -/
def sampleQuestion : Question := ⟨Option.none, 0, some [0, 1, 7], 3, some [2], 1, 2, 9⟩

/-- Five values of the sets are asked for, and the second and third from above listed. -/
theorem queries_plain_sets_sample :
    (sampleQuestion.Wants sampleStore.values).ncard = 5 ∧
      Enumerates (Before true) [5, 4]
        (slice (Before true) (sampleQuestion.Wants sampleStore.values) 1 2) := by
  obtain ⟨hcount, p, hpage, hlists, -⟩ := queries_plain_sets reachable_sampleStore sampleQuestion
    ⟨by decide, by decide, by decide, fun _ => rfl, fun h => (by cases h), fun h => (by cases h)⟩
    1 2 true
  have h5 : queryCardinality (some (sampleStore.query sampleQuestion)) true = .ok 5 := by
    decide +kernel
  have hout : queryPage (some (sampleStore.query sampleQuestion)) 1 2 true true true =
      .ok ⟨[5, 4], 2⟩ := by
    decide +kernel
  obtain rfl := Except.ok.inj (hpage.symm.trans hout)
  exact ⟨Except.ok.inj (hcount.symm.trans h5), hlists⟩

/-! ## Counting without building -/

/-- The question an operation answers by building a set. -/
def asking (op : WordOp) (a b min max : ℕ) : Question :=
  match op with
  | .and => ⟨some [a, b], 2, Option.none, 0, Option.none, 0, min, max⟩
  | .or => ⟨Option.none, 0, some [a, b], 2, Option.none, 0, min, max⟩
  | .andnot => ⟨some [a], 1, Option.none, 0, some [b], 1, min, max⟩

theorem proper_asking (op : WordOp) (a b min max : ℕ) : (asking op a b min max).Proper := by
  cases op <;> simp [asking, Proper, queryMax]

/-- The question wants what the operation leaves. -/
theorem wants_asking {sets : List (Set ℕ)} {a b : ℕ} {A B : Set ℕ} (hA : sets[a]? = some A)
    (hB : sets[b]? = some B) (op : WordOp) (out min max : ℕ) :
    (asking op a b min max).Wants sets = Plain.leaves (.combine op out a b min max) A B := by
  ext v
  have hhasA : Has sets v a ↔ v ∈ A := by simp [Has, hA]
  have hhasB : Has sets v b ↔ v ∈ B := by simp [Has, hB]
  cases op with
  | and => simp [asking, Wants, pointersOf, Plain.leaves, WordOp.Holds, hhasA, hhasB, and_assoc]
  | or => simp [asking, Wants, pointersOf, Plain.leaves, WordOp.Holds, hhasA, hhasB, and_assoc]
  | andnot => simp [asking, Wants, pointersOf, Plain.leaves, WordOp.Holds, hhasA, hhasB, and_assoc]

/-- An operation that succeeded was given sets, and left what it asks of them. -/
theorem combined {op : WordOp} {out a b min max : ℕ} (hs : store.Sound)
    (hok : (store.call world (.combine op out a b min max)).1 = .success) :
    ∃ A B set, store.values[a]? = some A ∧ store.values[b]? = some B ∧
      (store.call world (.combine op out a b min max)).2.sets[out]? = some set ∧
      set.toSet = Plain.leaves (.combine op out a b min max) A B := by
  have hstep : Plain.Step store.values (.combine op out a b min max) _ _ :=
    step_call hs world trivial
  rw [hok] at hstep
  generalize hafter : (store.call world (.combine op out a b min max)).2.values = after at hstep
  cases hstep with
  | @done _ _ _ _ A B operands neA neB empty namedA namedB =>
      cases operands
      have hlt := (List.getElem?_eq_some_iff.mp empty).1
      have hvalue : (store.call world (.combine op out a b min max)).2.values[out]? =
          some (Plain.leaves (.combine op out a b min max) A B) := by
        rw [hafter, List.getElem?_set_self hlt]
      rw [values_getElem?, Option.map_eq_some_iff] at hvalue
      obtain ⟨set, hset, hleaves⟩ := hvalue
      exact ⟨A, B, set, namedA, namedB, hset, hleaves⟩
  | refused operands neA neB empty namedA namedB error => cases error

/-- A query counts and pages what the operation would build, without building it: whenever the
operation succeeds, the two agree. -/
theorem query_reads_result (hr : Reachable world store) (op : WordOp) (out a b min max : ℕ)
    (hok : (store.call world (.combine op out a b min max)).1 = .success) :
    ∃ set, (store.call world (.combine op out a b min max)).2.sets[out]? = some set ∧
      queryCardinality (some (store.query (asking op a b min max))) true = .ok set.cardinality ∧
      ∀ skip size d, queryPage (some (store.query (asking op a b min max))) skip size d true true =
        .ok ⟨page set skip size d, (page set skip size d).length⟩ := by
  obtain ⟨A, B, set, hA, hB, hset, hleaves⟩ := combined hr.sound hok
  have hafter := (hr.call _ (.combine op out a b min max) trivial).sound
  have hvalid := hafter.valid set (List.mem_of_getElem? hset)
  have hcheck := checkQuery_proper (proper_asking op a b min max) store
  have hquery := valid_query hr.sound (asking op a b min max)
  have hlist : ∀ d, ordered d (store.query (asking op a b min max)).matching =
      ordered d set.members := by
    intro d
    have hwants := matching_enumerates hr.sound (asking op a b min max) d
    have hmembers := hvalid.ordered_enumerates d
    rw [wants_asking hA hB op out, ← hleaves] at hwants
    apply eq_of_mem_iff hwants.sorted hmembers.sorted
    intro v
    exact (hwants.mem_iff v).trans (hmembers.mem_iff v).symm
  refine ⟨set, hset, ?_, fun skip size d => ?_⟩
  · rw [queryCardinality_eq hcheck hquery, hvalid.cardinality_eq]
    exact congrArg (fun l => Except.ok l.length) (hlist false)
  · rw [queryPage_eq hcheck hquery skip size d (fun _ => rfl), page_eq hvalid, hlist]
    rfl

/-- Two values, of which the greater is listed. -/
theorem query_reads_result_sample :
    ∃ set, (sampleStore.call sampleWorld (.combine .and 2 0 1 0 9)).2.sets[2]? = some set ∧
      set.cardinality = 2 ∧ page set 0 1 true = [9] := by
  have hok : (sampleStore.call sampleWorld (.combine .and 2 0 1 0 9)).1 = .success := by
    decide +kernel
  obtain ⟨set, hset, hcount, hpage⟩ := query_reads_result reachable_sampleStore .and 2 0 1 0 9 hok
  have h2 : queryCardinality (some (sampleStore.query (asking .and 0 1 0 9))) true = .ok 2 := by
    decide +kernel
  have hout : queryPage (some (sampleStore.query (asking .and 0 1 0 9))) 0 1 true true true =
      .ok ⟨[9], 1⟩ := by
    decide +kernel
  exact ⟨set, hset, Except.ok.inj (hcount.symm.trans h2),
    congrArg Page.out (Except.ok.inj ((hpage 0 1 true).symm.trans hout))⟩

/-- For any two sets of a run and any range the counts add up, each of them found without building
a set: what both have and what only the first has is what the first has, and what either has and
what both have is what the two have. -/
theorem counts_add_up (hr : Reachable world store) {a b : ℕ} {x y : Bitmap}
    (hx : store.sets[a]? = some x) (hy : store.sets[b]? = some y) (min max : ℕ) :
    ∃ both either only,
      queryCardinality (some (store.query (asking .and a b min max))) true = .ok both ∧
      queryCardinality (some (store.query (asking .or a b min max))) true = .ok either ∧
      queryCardinality (some (store.query (asking .andnot a b min max))) true = .ok only ∧
      both + only = rangeCardinality x min max ∧
      either + both = rangeCardinality x min max + rangeCardinality y min max := by
  have hA := values_of_getElem? hx
  have hB := values_of_getElem? hy
  have hanswers : ∀ op, queryCardinality (some (store.query (asking op a b min max))) true =
      .ok (Plain.leaves (.combine op 0 a b min max) x.toSet y.toSet).ncard := by
    intro op
    rw [← wants_asking hA hB]
    exact (queries_plain_sets hr _ (proper_asking op a b min max) 0 0 false).1
  have hranges : ∀ {set : Bitmap} {i : ℕ}, store.sets[i]? = some set →
      rangeCardinality set min max = {v ∈ set.toSet | min ≤ v ∧ v ≤ max}.ncard := by
    intro set i hset
    have hvalid := hr.sound.valid set (List.mem_of_getElem? hset)
    rw [rangeCardinality_eq hvalid]
    exact (hvalid.enumerates.filter _).ncard.symm
  have hfinite : ∀ set : Bitmap, {v ∈ set.toSet | min ≤ v ∧ v ≤ max}.Finite := by
    intro set
    apply (Set.finite_Iic max).subset
    intro v hv
    exact hv.2.2
  have hboth : Plain.leaves (.combine .and 0 a b min max) x.toSet y.toSet =
      {v ∈ x.toSet | min ≤ v ∧ v ≤ max} ∩ {v ∈ y.toSet | min ≤ v ∧ v ≤ max} := by
    ext v
    simp only [Plain.leaves, WordOp.Holds, Set.mem_inter_iff, Set.mem_ofPred_eq]
    tauto
  have heither : Plain.leaves (.combine .or 0 a b min max) x.toSet y.toSet =
      {v ∈ x.toSet | min ≤ v ∧ v ≤ max} ∪ {v ∈ y.toSet | min ≤ v ∧ v ≤ max} := by
    ext v
    simp only [Plain.leaves, WordOp.Holds, Set.mem_union, Set.mem_ofPred_eq]
    tauto
  have honly : Plain.leaves (.combine .andnot 0 a b min max) x.toSet y.toSet =
      {v ∈ x.toSet | min ≤ v ∧ v ≤ max} \ {v ∈ y.toSet | min ≤ v ∧ v ≤ max} := by
    ext v
    simp only [Plain.leaves, WordOp.Holds, Set.mem_sdiff, Set.mem_ofPred_eq]
    tauto
  refine ⟨_, _, _, hanswers .and, hanswers .or, hanswers .andnot, ?_, ?_⟩
  · rw [hboth, honly, hranges hx]
    exact Set.ncard_inter_add_ncard_sdiff_eq_ncard _ _ (hfinite x)
  · rw [hboth, heither, hranges hx, hranges hy]
    exact Set.ncard_union_add_ncard_inter _ _ (hfinite x) (hfinite y)

/-- Four values of each set lie in the range, two of them in both. -/
theorem counts_add_up_sample :
    ∃ either only,
      queryCardinality (some (sampleStore.query (asking .and 0 1 0 9))) true = .ok 2 ∧
      queryCardinality (some (sampleStore.query (asking .or 0 1 0 9))) true = .ok either ∧
      queryCardinality (some (sampleStore.query (asking .andnot 0 1 0 9))) true = .ok only ∧
      2 + only = 4 ∧ either + 2 = 8 := by
  have h0 : sampleStore.sets[0]? = some ⟨some 4096, [], [1, 3, 5, 9], 4, 9, 4⟩ := rfl
  obtain ⟨both, either, only, hboth, heither, honly, hfirst, hsum⟩ :=
    counts_add_up reachable_sampleStore h0 sampleSet_eq 0 9
  have h2 : queryCardinality (some (sampleStore.query (asking .and 0 1 0 9))) true = .ok 2 := by
    decide +kernel
  obtain rfl := Except.ok.inj (hboth.symm.trans h2)
  exact ⟨either, only, h2, heither, honly, hfirst.trans (by decide), hsum.trans (by decide)⟩

end Store

end Arnm.Roaring
