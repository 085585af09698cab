import Arnm.Roaring.Emit
import Arnm.Roaring.Source

set_option autoImplicit false

/-! # Reading one set

`arnm_roaring_contains`, `arnm_roaring_minimum`, `arnm_roaring_maximum` and
`arnm_roaring_range_cardinality`, compared with the ascending list of a set's values. -/

namespace Arnm.Roaring

open Listing Words Search

/-- `while (!words[w]) { ++w; }`; `fuel` bounds the words looked at. -/
def firstWord (words : Array64) : Nat → Nat → Nat
  | 0, w => w
  | fuel + 1, w => if words w = 0#64 then firstWord words fuel (w + 1) else w

/-- `arnm_roaring_minimum`; `none` where it answers false. -/
def minimum (set : Bitmap) : Option Nat :=
  if set.cardinality = 0 then none
  else if set.isSparse then some (set.values.getD 0 0)
  else
    set.containers.head?.map fun first =>
      if first.isArray then valueOf first.key (first.arrayOf.getD 0 0)
      else
        let words := first.wordsOf
        let w := firstWord words bitmapWords 0
        valueOf first.key (w <<< 6 ||| (words w).ctz.toNat)

/-- `arnm_roaring_maximum` -/
def maximum (set : Bitmap) : Option Nat := if set.cardinality = 0 then none else some set.maximum

/-- The end of `arnm_roaring_contains`, in the container of the key. -/
def containerContains (container : Container) (low : Nat) : Bool :=
  if container.isBitmap then
    decide ((container.wordsOf (low >>> 6)) >>> (low &&& 63) &&& 1#64 ≠ 0#64)
  else
    let position := lowerBound16 container.arrayOf container.cardinality low
    decide (position < container.cardinality) && decide (container.arrayOf.getD position 0 = low)

/-- `arnm_roaring_contains` -/
def contains (set : Bitmap) (value : Nat) : Bool :=
  if set.isSparse then
    let position := lowerBound32 set.values set.cardinality value
    decide (position < set.cardinality) && decide (set.values.getD position 0 = value)
  else
    let key := keyOf value
    match set.containers[set.firstContainer key]? with
    | none => false
    | some container =>
      if container.key ≠ key then false else containerContains container (lowOf value)

/-- The loop of `arnm_roaring_range_cardinality` over the containers from the first one of the range
on. -/
def rangeLoop (min max : Nat) : List Container → Nat → Nat
  | [], total => total
  | container :: rest, total =>
    if container.key ≤ keyOf max then
      let bounds := containerBounds container.key min max
      rangeLoop min max rest (total + containerRangeCardinality container bounds.1 bounds.2)
    else total

/-- `arnm_roaring_range_cardinality` -/
def rangeCardinality (set : Bitmap) (min max : Nat) : Nat :=
  if max < min then 0
  else if set.isSparse then
    upperBound32 set.values set.cardinality max - lowerBound32 set.values set.cardinality min
  else rangeLoop min max (set.containers.drop (set.firstContainer (keyOf min))) 0

/-! ## The first bit -/

/-- The lowest bit of the first word that has one is the least number in the words. -/
theorem firstWord_spec (words : Array64) {n : Nat} :
    ∀ (fuel w : Nat), w + fuel = n → (∀ i, i < w * 64 → ¬ Has words i) →
      ∀ {j : Nat}, j < n * 64 → Has words j →
        Has words (firstWord words fuel w * 64 + (words (firstWord words fuel w)).ctz.toNat) ∧
          firstWord words fuel w * 64 + (words (firstWord words fuel w)).ctz.toNat ≤ j ∧
          (words (firstWord words fuel w)).ctz.toNat < 64 := by
  intro fuel
  induction fuel with
  | zero =>
      intro w hw hbefore j hj hhas
      exact absurd hhas (hbefore j (by omega))
  | succ fuel ih =>
      intro w hw hbefore j hj hhas
      rw [firstWord]
      by_cases hzero : words w = 0#64
      · rw [if_pos hzero]
        refine ih (w + 1) (by omega) (fun i hi hhas' => ?_) hj hhas
        by_cases hlow : i < w * 64
        · exact hbefore i hlow hhas'
        · rw [Has, show i / 64 = w by omega, hzero, BitVec.getLsbD_zero] at hhas'
          cases hhas'
      · rw [if_neg hzero]
        have hlt := toNat_ctz_lt hzero
        have hbit := BitVec.getLsbD_true_ctz_of_ne_zero hzero
        refine ⟨?_, ?_, hlt⟩
        · rw [Has, show (w * 64 + (words w).ctz.toNat) / 64 = w by omega,
            show (w * 64 + (words w).ctz.toNat) % 64 = (words w).ctz.toNat by omega]
          exact hbit
        · by_contra hgt
          have hsame : j / 64 = w := by
            have hge : ¬ j < w * 64 := fun h => hbefore j h hhas
            omega
          rw [Has, hsame] at hhas
          have hle := ctz_le_of_mem (mem_bits.mpr hhas)
          omega

/-- An ascending list starts with its least entry. -/
theorem head?_of_least {l : List Nat} (hl : l.Pairwise (· < ·)) {a : Nat} (ha : a ∈ l)
    (hleast : ∀ b ∈ l, a ≤ b) : l.head? = some a := by
  cases l with
  | nil => cases ha
  | cons b l =>
      have hle := hleast b List.mem_cons_self
      rcases List.mem_cons.mp ha with rfl | ha
      · rfl
      · have hlt := (List.pairwise_cons.mp hl).1 a ha
        omega

/-- The first low part of a container, as `arnm_roaring_minimum` finds it. -/
theorem head_lows {c : Container} (h : c.Valid) :
    c.lows.head? = some (if c.isArray then c.arrayOf.getD 0 0
      else firstWord c.wordsOf bitmapWords 0 <<< 6 |||
        (c.wordsOf (firstWord c.wordsOf bitmapWords 0)).ctz.toNat) := by
  have hne := h.readable.lows_ne_nil
  have hcontent := h.content
  unfold Container.lows at hne ⊢
  unfold Container.isArray Container.arrayOf Container.wordsOf
  cases hc : c.content with
  | array values =>
      rw [hc] at hne
      cases values with
      | nil => exact absurd rfl hne
      | cons v values => rfl
  | bitmap words =>
      rw [hc] at hne
      obtain ⟨j, hj⟩ := List.exists_mem_of_ne_nil _ hne
      have hspec : ∀ {j : Nat}, j < 1024 * 64 → Has words j → _ :=
        fun hlt hhas => firstWord_spec words (n := 1024) bitmapWords 0 rfl (by omega) hlt hhas
      obtain ⟨hlt, hhas⟩ := mem_below.mp hj
      obtain ⟨hfirst, hle, hbit⟩ := hspec hlt hhas
      show (below 65536 (Has words)).head? = some (firstWord words bitmapWords 0 <<< 6 ||| _)
      rw [shiftLeft_6_or _ hbit]
      refine head?_of_least (pairwise_below _ _) (mem_below.mpr ⟨by omega, hfirst⟩) fun b hb => ?_
      obtain ⟨hlt', hhas'⟩ := mem_below.mp hb
      exact (hspec hlt' hhas').2.1
  | wide values =>
      rw [hc] at hcontent
      exact hcontent.elim

theorem members_of_cardinality_zero {set : Bitmap} (hv : set.Valid) (h : set.cardinality = 0) :
    set.members = [] :=
  List.eq_nil_of_length_eq_zero (hv.cardinality_eq.symm.trans h)

theorem minimum_eq {set : Bitmap} (hv : set.Valid) : minimum set = set.members.head? := by
  unfold minimum
  by_cases hzero : set.cardinality = 0
  · rw [if_pos hzero, members_of_cardinality_zero hv hzero]
    rfl
  rw [if_neg hzero]
  rcases hv.form with hf | hf
  · rw [if_pos (Bitmap.isSparse_iff.mpr hf.containers_eq), Bitmap.members_sparse hf.containers_eq]
    rw [hf.cardinality_eq] at hzero
    cases hvalues : set.values with
    | nil =>
        rw [hvalues] at hzero
        exact absurd rfl hzero
    | cons v values => rfl
  · rw [if_neg fun hs => hf.containers_ne (Bitmap.isSparse_iff.mp hs),
      Bitmap.members_containers hf.containers_ne]
    cases hcontainers : set.containers with
    | nil => exact absurd hcontainers hf.containers_ne
    | cons first rest =>
        have hvalid := hf.valid first (by rw [hcontainers]; exact List.mem_cons_self)
        have hhead := head_lows hvalid
        rw [List.flatMap_cons, List.head?_append, List.head?_map, hhead, List.head?_cons]
        show some _ = some _
        by_cases harray : first.isArray = true
        · simp only [if_pos harray]
        · simp only [if_neg harray]

theorem maximum_eq {set : Bitmap} (hv : set.Valid) : maximum set = set.members.getLast? := by
  have hcard := hv.cardinality_eq
  unfold maximum
  by_cases hzero : set.cardinality = 0
  · rw [if_pos hzero, members_of_cardinality_zero hv hzero]
    rfl
  · rw [if_neg hzero]
    have hne : set.members ≠ [] := by
      intro hnil
      rw [hnil] at hcard
      exact hzero hcard
    have hlast := List.getLast?_eq_some_getLast hne
    rw [hlast, hv.maximum_eq _ (Option.mem_def.mpr hlast)]

/-! ## Membership -/

theorem bit_test (word : BitVec 64) (b : Nat) :
    decide (word >>> b &&& 1#64 ≠ 0#64) = word.getLsbD b := by
  have hbit : (word >>> b &&& 1#64) = if word.getLsbD b then 1#64 else 0#64 := by
    refine BitVec.eq_of_getLsbD_eq fun i hi => ?_
    rw [BitVec.getLsbD_and, BitVec.getLsbD_ushiftRight, BitVec.getLsbD_one]
    cases i with
    | zero => cases word.getLsbD b <;> simp
    | succ i => cases word.getLsbD b <;> simp
  rw [hbit]
  cases word.getLsbD b <;> decide

/-- The container a key is looked up in is the one with that key, if there is one. -/
theorem getElem?_firstContainer {set : Bitmap} (hf : set.ContainerForm) (key : Nat) :
    (∃ c, set.containers[set.firstContainer key]? = some c ∧ c.key = key) ↔ key ∈ set.keys := by
  have hcut : Cut (· < key) set.keys (set.firstContainer key) := by
    have h := lowerBound_cut hf.sorted key
    rw [Bitmap.keys, List.length_map] at h
    exact h
  constructor
  · rintro ⟨c, hc, rfl⟩
    exact List.mem_map.mpr ⟨c, List.mem_of_getElem? hc, rfl⟩
  · intro hkey
    have hlt : set.firstContainer key < set.keys.length := by
      by_contra hge
      have hall := hcut.lt_of_none (List.getElem?_eq_none_iff.mpr (Nat.not_lt.mp hge)) key hkey
      omega
    have hget := List.getElem?_eq_getElem hlt
    have hle := hcut.le_of_getElem? hget
    have hfirst := hcut.first hf.sorted hget key hkey le_rfl
    rw [Bitmap.keys, List.length_map] at hlt
    refine ⟨set.containers[set.firstContainer key], List.getElem?_eq_getElem hlt, ?_⟩
    simp only [Bitmap.keys, List.getElem_map] at hle hfirst
    omega

theorem containerContains_iff {c : Container} (h : c.Valid) {low : Nat} (hlow : low < 65536) :
    containerContains c low = true ↔ low ∈ c.lows := by
  have hcontent := h.content
  have hcard := h.cardinality_eq
  unfold containerContains
  unfold Container.lows at hcard ⊢
  unfold Container.isBitmap Container.wordsOf Container.arrayOf
  cases hc : c.content with
  | array values =>
      rw [hc] at hcontent hcard
      dsimp only at hcard ⊢
      rw [hcard]
      exact lowerBound_hit hcontent.1 low
  | bitmap words =>
      dsimp only
      rw [if_pos rfl, bit_test, shiftRight_6, and_63, mem_below]
      exact ⟨fun hbit => ⟨hlow, hbit⟩, fun hin => hin.2⟩
  | wide values =>
      rw [hc] at hcontent
      exact hcontent.elim

theorem contains_iff {set : Bitmap} (hv : set.Valid) {value : Nat} :
    contains set value = true ↔ value ∈ set.members := by
  unfold contains
  rcases hv.form with hf | hf
  · rw [if_pos (Bitmap.isSparse_iff.mpr hf.containers_eq), Bitmap.members_sparse hf.containers_eq,
      hf.cardinality_eq]
    exact lowerBound_hit hf.sorted value
  · have hs : ¬ set.isSparse = true := fun hc => hf.containers_ne (Bitmap.isSparse_iff.mp hc)
    have hs' : set.isSparse = false := Bool.not_eq_true _ ▸ hs
    have hmem := @Bitmap.Valid.mem_members_iff set hv false (keyOf value) _ (lowOf_lt value)
    rw [valueOf_keyOf_lowOf] at hmem
    rw [if_neg hs, hmem]
    dsimp only
    by_cases hkey : keyOf value ∈ set.keys
    · obtain ⟨c, hc, hck⟩ := (getElem?_firstContainer hf (keyOf value)).mpr hkey
      have hpart := Source.partAt_of_getElem? hs' hf.sorted (b := false) hc
      have hvalid := hf.valid c (List.mem_of_getElem? hc)
      rw [hck] at hpart
      rw [hc, hpart]
      dsimp only
      rw [if_neg (not_not_intro hck), containerContains_iff hvalid (lowOf_lt value)]
      simp
    · have hnone : set.partAt false (keyOf value) = none := Source.partAt_eq_none hs' hkey
      rw [hnone]
      refine iff_of_false (fun hcontains => hkey ?_) (by simp)
      refine (getElem?_firstContainer hf (keyOf value)).mp ?_
      cases hc : set.containers[set.firstContainer (keyOf value)]? with
      | none =>
          rw [hc] at hcontains
          cases hcontains
      | some c =>
          rw [hc] at hcontains
          refine ⟨c, rfl, ?_⟩
          by_contra hne
          dsimp only at hcontains
          rw [if_pos hne] at hcontains
          cases hcontains

/-! ## Ranges -/

theorem rangeLoop_add (min max : Nat) (containers : List Container) (total : Nat) :
    rangeLoop min max containers total = total + rangeLoop min max containers 0 := by
  induction containers generalizing total with
  | nil => rfl
  | cons c rest ih =>
      rw [rangeLoop, rangeLoop]
      split
      · dsimp only
        rw [ih (total + _), ih (0 + _)]
        omega
      · rfl

/-- The values of one container inside a range. -/
theorem length_filter_values {c : Container} (h : c.Valid) {min max : Nat} (hle : min ≤ max)
    (hmin : keyOf min ≤ c.key) (hmax : c.key ≤ keyOf max) :
    containerRangeCardinality c (containerBounds c.key min max).1
      (containerBounds c.key min max).2 =
      ((c.lows.map (valueOf c.key)).filter fun v => decide (min ≤ v ∧ v ≤ max)).length := by
  rw [containerRangeCardinality_eq h.readable (containerBounds_le _ hle) containerBounds_lt,
    List.filter_map, List.length_map]
  refine congrArg List.length (List.filter_congr fun low hlow => decide_eq_decide.mpr ?_)
  exact containerBounds_iff min max (h.readable.lt_of_mem hlow) hmin hmax

/-- No value of a container with a key outside the range is in the range. -/
theorem filter_values_eq_nil {c : Container} (h : c.Valid) {min max : Nat}
    (hout : c.key < keyOf min ∨ keyOf max < c.key) :
    (c.lows.map (valueOf c.key)).filter (fun v => decide (min ≤ v ∧ v ≤ max)) = [] := by
  refine List.filter_eq_nil_iff.mpr fun v hv hin => ?_
  obtain ⟨low, hlow, rfl⟩ := List.mem_map.mp hv
  rw [decide_eq_true_eq, valueOf_eq _ (h.readable.lt_of_mem hlow)] at hin
  have hlt := h.readable.lt_of_mem hlow
  simp only [keyOf_eq] at hout
  omega

/-- The values of the containers inside a range are counted, container by container. -/
theorem rangeLoop_eq {min max : Nat} (hle : min ≤ max) {containers : List Container}
    (hvalid : ∀ c ∈ containers, c.Valid) (hsorted : (containers.map Container.key).Pairwise (· < ·))
    (hmin : ∀ c ∈ containers, keyOf min ≤ c.key) :
    rangeLoop min max containers 0 =
      ((containers.flatMap fun c => c.lows.map (valueOf c.key)).filter
        fun v => decide (min ≤ v ∧ v ≤ max)).length := by
  induction containers with
  | nil => rfl
  | cons c rest ih =>
      have hc := hvalid c List.mem_cons_self
      obtain ⟨hlater, hrest⟩ := List.pairwise_cons.mp hsorted
      rw [rangeLoop]
      by_cases hmax : c.key ≤ keyOf max
      · have hcount := ih (fun d hd => hvalid d (List.mem_cons_of_mem _ hd)) hrest
          fun d hd => hmin d (List.mem_cons_of_mem _ hd)
        rw [if_pos hmax, List.flatMap_cons, List.filter_append, List.length_append,
          ← length_filter_values hc hle (hmin c List.mem_cons_self) hmax, ← hcount]
        dsimp only
        rw [rangeLoop_add, Nat.zero_add]
      · -- the keys from here on are behind the range
        have hnone : ((c :: rest).flatMap fun c => c.lows.map (valueOf c.key)).filter
            (fun v => decide (min ≤ v ∧ v ≤ max)) = [] := by
          rw [List.filter_flatMap, List.flatMap_eq_nil_iff]
          intro d hd
          refine filter_values_eq_nil (hvalid d hd) (Or.inr ?_)
          rcases List.mem_cons.mp hd with rfl | hd
          · exact Nat.not_le.mp hmax
          · have hlt := hlater d.key (List.mem_map.mpr ⟨d, hd, rfl⟩)
            omega
        rw [if_neg hmax, hnone]
        rfl

theorem rangeCardinality_eq {set : Bitmap} (hv : set.Valid) (min max : Nat) :
    rangeCardinality set min max =
      (set.members.filter fun v => decide (min ≤ v ∧ v ≤ max)).length := by
  unfold rangeCardinality
  by_cases hreversed : max < min
  · rw [if_pos hreversed]
    refine (List.length_eq_zero_iff.mpr (List.filter_eq_nil_iff.mpr fun v _ hin => ?_)).symm
    rw [decide_eq_true_eq] at hin
    omega
  rw [if_neg hreversed]
  have hle := Nat.not_lt.mp hreversed
  rcases hv.form with hf | hf
  · rw [if_pos (Bitmap.isSparse_iff.mpr hf.containers_eq), Bitmap.members_sparse hf.containers_eq,
      hf.cardinality_eq]
    exact length_slice hf.sorted
  · have hcut : Cut (· < keyOf min) set.keys (set.firstContainer (keyOf min)) := by
      have h := lowerBound_cut hf.sorted (keyOf min)
      rw [Bitmap.keys, List.length_map] at h
      exact h
    generalize hindex : set.firstContainer (keyOf min) = index at hcut
    rw [if_neg fun hs => hf.containers_ne (Bitmap.isSparse_iff.mp hs),
      Bitmap.members_containers hf.containers_ne]
    -- in front of the first container there is nothing of the range
    have hbefore : ((set.containers.take index).flatMap fun c => c.lows.map (valueOf c.key)).filter
        (fun v => decide (min ≤ v ∧ v ≤ max)) = [] := by
      rw [List.filter_flatMap, List.flatMap_eq_nil_iff]
      intro c hc
      refine filter_values_eq_nil (hf.valid c (List.mem_of_mem_take hc)) (Or.inl ?_)
      refine hcut.2.1 c.key ?_
      rw [Bitmap.keys, ← List.map_take]
      exact List.mem_map.mpr ⟨c, hc, rfl⟩
    have hfrom : ∀ c ∈ set.containers.drop index, keyOf min ≤ c.key := by
      intro c hc
      refine Nat.not_lt.mp (hcut.2.2 c.key ?_)
      rw [Bitmap.keys, ← List.map_drop]
      exact List.mem_map.mpr ⟨c, hc, rfl⟩
    have hsorted : ((set.containers.drop index).map Container.key).Pairwise (· < ·) := by
      rw [List.map_drop]
      exact hf.sorted.drop
    conv_rhs => rw [← List.take_append_drop index set.containers]
    rw [List.flatMap_append, List.filter_append, hbefore, List.nil_append]
    exact rangeLoop_eq hle (fun c hc => hf.valid c (List.mem_of_mem_drop hc)) hsorted hfrom

/-- Whatever is asked of a set is answered as from the ascending list of its values. -/
theorem reads_members {set : Bitmap} (hv : set.Valid) :
    (∀ value, contains set value = true ↔ value ∈ set.members) ∧
      minimum set = set.members.head? ∧ maximum set = set.members.getLast? ∧
      ∀ min max, rangeCardinality set min max =
        (set.members.filter fun v => decide (min ≤ v ∧ v ≤ max)).length :=
  ⟨fun _ => contains_iff hv, minimum_eq hv, maximum_eq hv, rangeCardinality_eq hv⟩

/-- The range from within the bitmap to the first value of the array has the last 120 values of the
one and one of the other; a reversed range has none. -/
theorem reads_members_sample :
    contains Bitmap.mixed 5119 = true ∧ contains Bitmap.mixed 5120 = false ∧
      minimum Bitmap.mixed = some 0 ∧ maximum Bitmap.mixed = some 131079 ∧
      rangeCardinality Bitmap.mixed 5000 131073 = 121 ∧
        rangeCardinality Bitmap.mixed 131073 5000 = 0 := by
  obtain ⟨hcontains, hminimum, hmaximum, hrange⟩ := reads_members Bitmap.valid_mixed
  rw [Bitmap.members_mixed] at hminimum hmaximum
  refine ⟨?_, ?_, hminimum.trans (by decide +kernel), hmaximum.trans (by decide +kernel), ?_, ?_⟩
  · rw [hcontains, Bitmap.members_mixed]
    simp
  · rw [← Bool.not_eq_true, hcontains, Bitmap.members_mixed]
    simp
  · rw [hrange, Bitmap.members_mixed]
    decide +kernel
  · rw [hrange, Bitmap.members_mixed]
    decide +kernel

end Arnm.Roaring
