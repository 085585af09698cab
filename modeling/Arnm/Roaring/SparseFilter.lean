import Arnm.Roaring.KeyWalk

set_option autoImplicit false

/-! # Results built from sparse values

Where an input is sparse the result is a list of values before it is a set: what `sparse_filter`
keeps of a sparse set, the merge of two, or a slice of one. `valuesResult` turns the list into a
set, sparse or with containers by its length.
-/

namespace Arnm.Roaring

open Listing Words Memory Lending

variable {σ : Type} {L : BlockPool σ} {s : σ}

/-! ## From values to a set -/

section Values

variable {out : Bitmap} {values : List Nat} {p : Nat → Prop} [DecidablePred p]

/-- The first `count` values are all that is read. -/
theorem valuesResult_take {count : Nat} (hcount : count ≤ values.length) :
    valuesResult L out values count s
      = valuesResult L out (values.take count) (values.take count).length s := by
  have hlen : (values.take count).length = count := by rw [List.length_take]; omega
  rw [hlen]
  unfold valuesResult
  by_cases h0 : count = 0
  · rw [if_pos h0, if_pos h0]
  · have hlast : (values.take count).getD (count - 1) 0 = values.getD (count - 1) 0 := by
      rw [List.getD_eq_getElem?_getD, List.getD_eq_getElem?_getD,
        List.getElem?_take_of_lt (by omega)]
    rw [if_neg h0, if_neg h0, List.take_take, Nat.min_self, hlast]

/-- The values of a result, in the form their number asks for. -/
theorem finish_valuesResult (h : out.Empty) (hlen : values.length ≤ arrayMax)
    (hs : values.Pairwise (· < ·)) (hm : ∀ v, v ∈ values ↔ v < 2 ^ 32 ∧ p v) :
    Yields L out s p (finish L (valuesResult L out values values.length s)) := by
  have hbelow : values = below (2 ^ 32) p :=
    eq_of_mem_iff_lt hs (pairwise_below _ _) fun v => by rw [hm, mem_below]
  have hlt : ∀ v ∈ values, v < 2 ^ 32 := fun v hv => ((hm v).mp hv).1
  unfold valuesResult
  by_cases h0 : values.length = 0
  · rw [if_pos h0, finish_of_success rfl]
    have hnil := List.length_eq_zero_iff.mp h0
    refine Or.inl ⟨rfl, (h.under 0).wellFormed, ?_, Balanced.refl s _⟩
    rw [← hbelow, hnil, h.members_nil]
  rw [if_neg h0]
  by_cases hbig : sparseMax < values.length
  · rw [if_pos hbig, List.take_length]
    obtain ⟨⟨k, hunder⟩, hbal, hcases⟩ := valuesToContainers_cases (L := L) (s := s)
      values.length (h.under 0) hs hlt (fun v _ => Nat.zero_le _) hlen (Nat.le_refl _)
    rcases hcases with ⟨hok, hmembers⟩ | ⟨herr, hwhy⟩
    · rw [finish_of_success hok]
      refine Or.inl ⟨hok, hunder.wellFormed, ?_, hbal⟩
      rw [hmembers, h.members_nil, List.nil_append, hbelow]
    · obtain ⟨hres, hinit, hgone⟩ := finish_of_error herr hunder.valid.anchored hbal
      refine Or.inr ⟨hres, hinit, hgone, fun hg => ?_⟩
      have := hwhy hg
      rw [h.members_nil, List.length_nil, Nat.zero_add] at this
      rwa [← hbelow]
  rw [if_neg hbig]
  simp only [arrayMax] at hlen
  simp only
  rcases hgot : L.alloc (log2ForBytes (values.length * 4)) s with ⟨answer, s'⟩
  cases answer with
  | error refusal =>
      have hbal := Balanced.refused (L := L) (s := s) (by rw [hgot]) out.loans
      rw [hgot] at hbal
      obtain ⟨hres, hinit, hgone⟩ := finish_of_error (L := L)
        (r := ⟨refusal.result, out, s'⟩) refusal.isError h.valid.anchored hbal
      exact Or.inr ⟨hres, hinit, hgone, fun hg => absurd (by rw [hgot]) hg.ne_error⟩
  | ok block =>
      rw [finish_of_success rfl]
      have hnil := h.valid.anchored h.block_none
      have hfit : values.length * 4 ≤ 2 ^ log2ForBytes (values.length * 4) :=
        le_log2ForBytes (by omega)
      set built : Bitmap := { out with
        block := some block
        values := values.take values.length
        directoryLog2 := log2ForBytes (values.length * 4)
        cardinality := values.length
        maximum := values.getD (values.length - 1) 0 } with hbuilt
      have hvalues : built.values = values := List.take_length
      have hcontainers : built.containers = [] := hnil
      have hmembers : built.members = values := (Bitmap.members_sparse hcontainers).trans hvalues
      have hlast : values.getLast? = some (values.getD (values.length - 1) 0) := by
        rw [List.getLast?_eq_getElem?, List.getD_eq_getElem?_getD,
          List.getElem?_eq_getElem (by omega)]
        rfl
      have hvalid : built.Valid := by
        refine ⟨Or.inl ⟨hnil, ?_, ?_, ?_, ?_, ?_, ?_⟩, ?_⟩
        · rwa [hvalues]
        · rwa [hvalues]
        · rw [hvalues]
          exact Nat.not_lt.mp hbig
        · rw [hvalues]
        · intro hb
          cases hb
        · intro _
          rw [hvalues]
          show 4 * values.length ≤ 2 ^ log2ForBytes (values.length * 4)
          omega
        · intro v hv
          rw [hmembers, hlast, Option.mem_def, Option.some.injEq] at hv
          exact hv
      refine Or.inl ⟨rfl, ⟨hvalid, fun hn => ?_⟩, hmembers.trans hbelow, ?_⟩
      · rw [hmembers] at hn
        exact absurd (by rw [hn]; rfl) h0
      · have htake := Balanced.granted (L := L) (s := s) (by rw [hgot]) out.loans
        rw [hgot] at htake
        have hloans : built.loans = [⟨block, log2ForBytes (values.length * 4)⟩] := by
          simp [Bitmap.loans, Bitmap.blockLoan, hbuilt, hnil]
        rw [hloans]
        rw [h.loans_nil] at htake ⊢
        exact htake

end Values

/-! ## Asking a set with containers -/

section Keys

/-- A list of containers has a value. -/
def HasValue (containers : List Container) (v : Nat) : Prop :=
  ∃ c ∈ containers, c.key = keyOf v ∧ lowOf v ∈ c.lows

instance (containers : List Container) (v : Nat) : Decidable (HasValue containers v) := by
  unfold HasValue
  infer_instance

variable {containers : List Container} {values : List Nat} {keep : Bool}

/-- An array walked forward across the values of one key. -/
theorem keptOfArray_eq {array : List Nat} (hs : (values.map lowOf).Pairwise (· < ·))
    (ha : array.Pairwise (· < ·)) :
    keptOfKey.keptOfArray keep values array
      = values.filter fun v => decide (lowOf v ∈ array) = keep := by
  induction values generalizing array with
  | nil => rfl
  | cons v values ih =>
      rw [List.map_cons] at hs
      obtain ⟨hfirst, hrest⟩ := List.pairwise_cons.mp hs
      have hlater :
          (values.filter fun u => decide (decide (lowOf u ∈ array.dropWhile (· < lowOf v)) = keep))
          = values.filter fun u => decide (decide (lowOf u ∈ array) = keep) :=
        List.filter_congr fun u hu => by
          have := Sorted.mem_dropWhile_lt array (hfirst _ (List.mem_map_of_mem hu)).le
          simp only [this]
      have hhead := Sorted.head?_dropWhile_lt (x := lowOf v) ha
      unfold keptOfKey.keptOfArray
      simp only [ih hrest (ha.sublist (List.dropWhile_sublist _)), hhead]
      rw [hlater]
      by_cases hk : decide (lowOf v ∈ array) = keep
      · rw [if_pos hk, List.filter_cons_of_pos (by simpa using hk)]
      · rw [if_neg hk, List.filter_cons_of_neg (by simpa using hk)]

/-- The values of one key, kept or dropped by the container of the key. -/
theorem keptOfKey_eq {container : Option Container} (hs : (values.map lowOf).Pairwise (· < ·))
    (hv : ∀ c ∈ container, c.Valid) :
    keptOfKey keep container values
      = values.filter fun v => decide (∃ c ∈ container, lowOf v ∈ c.lows) = keep := by
  unfold keptOfKey
  cases container with
  | none => simp
  | some c =>
      have hvalid := hv c rfl
      have hcontent := hvalid.content
      have hcard := hvalid.cardinality_eq
      simp only [Option.mem_def, Option.some.injEq, exists_eq_left']
      unfold Container.lows at hcard ⊢
      cases hk : c.content with
      | array array =>
          rw [hk] at hcontent hcard
          have harray : c.arrayOf = array := by rw [Container.arrayOf, hk]
          simp only at hcard ⊢
          rw [harray, hcard, List.take_length]
          exact keptOfArray_eq hs hcontent.1
      | bitmap words =>
          simp only
          refine List.filter_congr fun v _ => ?_
          have hbit : hasBit words (lowOf v) = decide (lowOf v ∈ below 65536 (Has words)) := by
            rw [Bool.eq_iff_iff, hasBit_iff, decide_eq_true_eq, mem_below]
            exact ⟨fun h => ⟨lowOf_lt v, h⟩, fun h => h.2⟩
          rw [hbit]
      | wide wide =>
          rw [hk] at hcontent
          exact hcontent.elim

/-- The values of a sorted list, key by key, kept or dropped by the containers. -/
theorem keptOfKeys_eq (fuel : Nat) (hs : values.Pairwise (· < ·)) (hfuel : values.length ≤ fuel)
    (hkeys : (containers.map Container.key).Pairwise (· < ·)) (hv : ∀ c ∈ containers, c.Valid) :
    keptOfKeys keep fuel values containers
      = values.filter fun v => decide (HasValue containers v) = keep := by
  induction fuel generalizing values containers with
  | zero =>
      rw [List.length_eq_zero_iff.mp (Nat.le_zero.mp hfuel)]
      rfl
  | succ fuel ih =>
      cases values with
      | nil => rfl
      | cons value values =>
          have g := firstGroup hs
          have hshort := g.rest_le
          simp only [List.length_cons] at hfuel
          unfold keptOfKeys
          simp only
          set group := (value :: values).takeWhile fun v => decide (keyOf v = keyOf value) with hg
          set rest := (value :: values).dropWhile fun v => decide (keyOf v = keyOf value) with hr
          set ahead := containers.dropWhile fun c => decide (c.key < keyOf value) with hahead
          have hsub : ahead.Sublist containers := List.dropWhile_sublist _
          -- the containers passed over have smaller keys than any value left
          have hmem : ∀ v, keyOf value ≤ keyOf v → (HasValue ahead v ↔ HasValue containers v) := by
            intro v hle
            refine ⟨fun ⟨c, hc, h⟩ => ⟨c, hsub.subset hc, h⟩, fun ⟨c, hc, hkey, hlow⟩ => ?_⟩
            refine ⟨c, ?_, hkey, hlow⟩
            have hsplit :=
              List.takeWhile_append_dropWhile (p := fun c => decide (c.key < keyOf value))
              (l := containers)
            rw [← hsplit] at hc
            rcases List.mem_append.mp hc with hc | hc
            · have := List.mem_takeWhile_imp hc
              rw [decide_eq_true_eq] at this
              omega
            · exact hc
          have hkeysAhead := hkeys.sublist (hsub.map Container.key)
          set container := ahead.head?.filter fun c => decide (c.key = keyOf value) with hcontainer
          -- of the containers ahead only the first can have the key
          have hfound : ∀ v ∈ group, (∃ c ∈ container, lowOf v ∈ c.lows) ↔
            HasValue containers v := by
            intro v hvm
            have hkv := g.key_eq v hvm
            rw [← hmem v (by omega)]
            constructor
            · rintro ⟨c, hc, hlow⟩
              rw [hcontainer, Option.mem_def, Option.filter_eq_some_iff, decide_eq_true_eq] at hc
              exact ⟨c, List.mem_of_head? hc.1, by rw [hkv]; exact hc.2, hlow⟩
            · rintro ⟨c, hc, hkey, hlow⟩
              refine ⟨c, ?_, hlow⟩
              rw [hcontainer, Option.mem_def, Option.filter_eq_some_iff, decide_eq_true_eq]
              refine ⟨?_, by omega⟩
              cases hd : ahead with
              | nil =>
                  rw [hd] at hc
                  cases hc
              | cons d others =>
                  have hnot : ¬ d.key < keyOf value := by
                    have :=
                      List.head_dropWhile_not (fun c => decide (Container.key c < keyOf value))
                      (l := containers) (by rw [← hahead, hd]; simp)
                    simpa [← hahead, hd] using this
                  rw [hd] at hc hkeysAhead
                  rw [List.map_cons] at hkeysAhead
                  rcases List.mem_cons.mp hc with rfl | hc
                  · rfl
                  · have := (List.pairwise_cons.mp hkeysAhead).1 _ (List.mem_map_of_mem hc)
                    omega
          have hcv : ∀ c ∈ container, c.Valid := fun c hc => by
            rw [hcontainer, Option.mem_def, Option.filter_eq_some_iff] at hc
            exact hv c (hsub.subset (List.mem_of_head? hc.1))
          have hkept : keptOfKeys keep fuel rest ahead
              = rest.filter fun v => decide (decide (HasValue containers v) = keep) := by
            rw [ih g.rest_sorted (by omega) hkeysAhead fun c hc => hv c (hsub.subset hc)]
            refine List.filter_congr fun v hvm => ?_
            rw [decide_eq_decide.mpr (hmem v (by have := g.next_le v hvm; omega))]
          rw [keptOfKey_eq g.lows_sorted hcv, hkept, ← g.append_eq, List.filter_append]
          congr 1
          refine List.filter_congr fun v hvm => ?_
          rw [decide_eq_decide.mpr (hfound v hvm)]

end Keys

/-! ## The filter of a sparse set -/

section Filter

variable {out sparse other : Bitmap}

/-- The values of a sparse set inside a range. -/
theorem slice_values (h : sparse.SparseForm) (min max : Nat) :
    (sparse.values.drop (lowerBound32 sparse.values sparse.cardinality min)).take
        (upperBound32 sparse.values sparse.cardinality max
          - lowerBound32 sparse.values sparse.cardinality min)
      = sparse.values.filter fun v => decide (min ≤ v ∧ v ≤ max) := by
  rw [h.cardinality_eq]
  exact slice_bounds h.sorted min max

/-- Containers with keys from `key` on have the members with these keys. -/
theorem hasValue_drop (h : other.ContainerForm) {key v : Nat} (hk : key ≤ keyOf v) :
    HasValue (other.containers.drop (other.firstContainer key)) v ↔ v ∈ other.members := by
  have hcut : Search.Cut (· < key) other.keys (other.firstContainer key) := by
    have := lowerBound_cut h.sorted key
    rw [show other.keys.length = other.count by simp [Bitmap.keys, Bitmap.count]] at this
    exact this
  rw [Bitmap.members_containers h.containers_ne, List.mem_flatMap]
  constructor
  · rintro ⟨c, hc, hkey, hlow⟩
    exact ⟨c, List.mem_of_mem_drop hc, List.mem_map.mpr ⟨lowOf v, hlow, by
      rw [hkey, valueOf_keyOf_lowOf]⟩⟩
  · rintro ⟨c, hc, hv⟩
    obtain ⟨low, hlow, rfl⟩ := List.mem_map.mp hv
    have hlt := (h.valid c hc).readable.lt_of_mem hlow
    rw [keyOf_valueOf _ hlt] at hk
    refine ⟨c, ?_, (keyOf_valueOf _ hlt).symm, by rwa [lowOf_valueOf _ hlt]⟩
    rw [← List.take_append_drop (other.firstContainer key) other.containers] at hc
    rcases List.mem_append.mp hc with hc | hc
    · -- a container passed over has a smaller key
      have hmem : c.key ∈ other.keys.take (other.firstContainer key) := by
        rw [Bitmap.keys, ← List.map_take]
        exact List.mem_map_of_mem hc
      have := hcut.2.1 _ hmem
      omega
    · exact hc

/-- The values of the range that the other set has, or has not, are those chosen. -/
theorem kept_yields (keep : Bool) (min max : Nat) (hform : sparse.SparseForm) (h : out.Empty)
    {kept : List Nat}
    (hkept : kept = (sparse.values.filter fun v => decide (min ≤ v ∧ v ≤ max)).filter
      fun v => decide (v ∈ other.members) = keep) :
    Yields L out s (Chosen (if keep then .and else .andnot) sparse other min max)
      (finish L (valuesResult L out kept kept.length s)) := by
  have hlen : kept.length ≤ arrayMax := by
    rw [hkept]
    calc _ ≤ (sparse.values.filter fun v => decide (min ≤ v ∧ v ≤ max)).length :=
          List.length_filter_le _ _
      _ ≤ sparse.values.length := List.length_filter_le _ _
      _ ≤ sparseMax := hform.length_le
      _ ≤ arrayMax := by decide
  have hsorted : kept.Pairwise (· < ·) := hkept ▸ (hform.sorted.filter _).filter _
  refine finish_valuesResult h hlen hsorted fun v => ?_
  rw [hkept, List.mem_filter, List.mem_filter, decide_eq_true_eq, decide_eq_true_eq, Chosen,
    Bitmap.members_sparse hform.containers_eq]
  have hlt := hform.lt v
  cases keep with
  | true =>
      simp only [decide_eq_true_eq, if_true, WordOp.Holds]
      tauto
  | false =>
      simp only [decide_eq_false_iff_not, Bool.false_eq_true, if_false, WordOp.Holds]
      tauto

/-- The walk through another sparse set passes over what it has in front of the range. -/
theorem kept_sparse (keep : Bool) (hof : other.SparseForm) {min : Nat} {values : List Nat}
    (hsorted : values.Pairwise (· < ·)) (hmin : ∀ v ∈ values, min ≤ v) :
    Sorted.kept keep values (other.values.drop
        (if other.cardinality ≠ 0 then lowerBound32 other.values other.cardinality min else 0)) =
      values.filter fun v => decide (v ∈ other.members) = keep := by
  set j := if other.cardinality ≠ 0 then lowerBound32 other.values other.cardinality min else 0
    with hj
  have hcut : Search.Cut (· < min) other.values j := by
    rw [hj, hof.cardinality_eq]
    split
    · exact lowerBound_cut hof.sorted min
    · rename_i hzero
      rw [not_not] at hzero
      refine ⟨Nat.zero_le _, by simp, fun a ha => ?_⟩
      rw [List.length_eq_zero_iff.mp hzero] at ha
      cases ha
  rw [Sorted.kept_eq keep hsorted (hof.sorted.sublist (List.drop_sublist _ _)), hcut.drop]
  refine List.filter_congr fun v hv => ?_
  have hiff : v ∈ other.values.filter (fun a => decide (¬ a < min)) ↔ v ∈ other.members := by
    rw [List.mem_filter, decide_eq_true_eq, Bitmap.members_sparse hof.containers_eq]
    exact and_iff_left (Nat.not_lt.mpr (hmin v hv))
  rw [decide_eq_decide.mpr hiff]

/-- The walk through the containers starts at that of the first value. -/
theorem kept_containers (keep : Bool) (hof : other.ContainerForm) (values : List Nat) :
    values.Pairwise (· < ·) → keptOfKeys keep values.length values (other.containers.drop
        (match values with
          | [] => 0
          | value :: _ => other.firstContainer (keyOf value))) =
      values.filter fun v => decide (v ∈ other.members) = keep := by
  intro hsorted
  cases values with
  | nil => rfl
  | cons value values =>
      have hkeys : ((other.containers.drop (other.firstContainer (keyOf value))).map
          Container.key).Pairwise (· < ·) :=
        hof.sorted.sublist ((List.drop_sublist _ _).map Container.key)
      simp only
      rw [keptOfKeys_eq _ hsorted (Nat.le_refl _) hkeys
        fun c hc => hof.valid c (List.mem_of_mem_drop hc)]
      refine List.filter_congr fun v hv => ?_
      have hle : keyOf value ≤ keyOf v := by
        rcases List.mem_cons.mp hv with rfl | hv
        · exact Nat.le_refl _
        · exact keyOf_mono ((List.pairwise_cons.mp hsorted).1 v hv).le
      rw [decide_eq_decide.mpr (hasValue_drop hof hle)]

/-- What `sparse_filter` keeps are the values of the range that the other set has, or has not. -/
theorem sparseFilter_yields (keep : Bool) (min max : Nat) (hs : sparse.Valid)
    (hsparse : sparse.isSparse = true)
    (ho : other.Valid) (h : out.Empty) :
    Yields L out s
      (Chosen (if keep then .and else .andnot) sparse other min max)
      (finish L (sparseFilter L out sparse other keep min max s)) := by
  have hform := hs.sparseForm hsparse
  have hsorted : (sparse.values.filter fun v => decide (min ≤ v ∧ v ≤ max)).Pairwise (· < ·) :=
    hform.sorted.filter _
  unfold sparseFilter
  simp only [slice_values hform min max]
  apply kept_yields keep min max hform h
  -- whichever form the other set has, the values are asked one by one
  by_cases hos : other.isSparse = true
  · rw [if_pos hos]
    refine kept_sparse keep (ho.sparseForm hos) hsorted fun v hv => ?_
    rw [List.mem_filter, decide_eq_true_eq] at hv
    exact hv.2.1
  · rw [if_neg hos]
    have hof : other.ContainerForm :=
      ho.form.resolve_left fun hf => hos (Bitmap.isSparse_iff.mpr hf.containers_eq)
    exact kept_containers keep hof _ hsorted

end Filter

end Arnm.Roaring
