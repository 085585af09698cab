import Arnm.Roaring.Sequence
import Arnm.Roaring.SparseFilter

set_option autoImplicit false

/-! # What the set operations leave

And, or, andnot and a range copied out, for inputs in any forms: on success exactly the values the
operation chooses, as a valid set; on failure an empty set and every block given back.
-/

namespace Arnm.Roaring

open Listing Words Memory Lending Source

variable {σ : Type} {L : BlockPool σ} {s : σ} {out a b : Bitmap} {min max : Nat}

/-! ## Each operation -/

/-- An empty range chooses nothing. -/
theorem yields_of_empty_range {p : Nat → Prop} [DecidablePred p] (h : out.Empty) (hlt : max < min)
    (hp : ∀ v, p v → min ≤ v ∧ v ≤ max) : Yields L out s p ⟨.success, out, s⟩ := by
  have hnone : ∀ v, ¬ p v := fun v hv => by
    have := hp v hv
    omega
  exact (h.begins (k := 0) fun v _ => hnone v).done fun v _ _ => hnone v

/-- Nothing is chosen below the key the walks start at. -/
theorem Bitmap.Empty.starts {p : Nat → Prop} [DecidablePred p] (h : out.Empty)
    (hp : ∀ v, p v → min ≤ v) : Partial out p (keyOf min) :=
  h.begins fun v hk hv => by
    have := keyOf_mono (hp v hv)
    omega

theorem left_add_left_lt (sa sb : Source) : sa.left + sb.left < walkSteps := by
  have h1 := left_le sa
  have h2 := left_le sb
  rw [walkSteps]
  omega

theorem left_lt (source : Source) : source.left < walkSteps := by
  calc source.left ≤ source.left + source.left := Nat.le_add_right _ _
    _ < walkSteps := left_add_left_lt source source

theorem roaringAnd_yields (min max : Nat) (ha : a.Valid) (hb : b.Valid) (h : out.Empty) :
    Yields L out s (Chosen .and a b min max) (roaringAnd L out a b min max s) := by
  unfold roaringAnd
  by_cases hlt : max < min
  · rw [if_pos hlt]
    exact yields_of_empty_range h hlt fun v hv => ⟨hv.1, hv.2.1⟩
  rw [if_neg hlt]
  by_cases hsparse : a.isSparse = true ∨ b.isSparse = true
  · rw [if_pos hsparse]
    simp only
    by_cases hread : (a.isSparse && (!b.isSparse || decide (a.cardinality ≤ b.cardinality))) = true
    · rw [if_pos hread, if_pos hread]
      rw [Bool.and_eq_true] at hread
      exact sparseFilter_yields true min max ha hread.1 hb h
    · -- then the second set is sparse
      have hbs : b.isSparse = true := by
        rcases hsparse with has | hbs
        · by_contra hbs
          rw [Bool.not_eq_true] at hbs
          simp [has, hbs] at hread
        · exact hbs
      rw [if_neg hread, if_neg hread]
      have hyields := sparseFilter_yields (L := L) (s := s) true min max hb hbs ha h
      refine hyields.congr fun v _ => ?_
      simp only [if_true, Chosen, WordOp.Holds]
      tauto
  rw [if_neg hsparse]
  exact andLoop_yields ha hb (Nat.not_lt.mp hlt) walkSteps (left_add_left_lt _ _)
    (reads_start ha min max) (reads_start hb min max) (h.starts fun v hv => hv.1)

theorem roaringOr_yields (min max : Nat) (ha : a.Valid) (hb : b.Valid) (h : out.Empty) :
    Yields L out s (Chosen .or a b min max) (roaringOr L out a b min max s) := by
  unfold roaringOr
  by_cases hlt : max < min
  · rw [if_pos hlt]
    exact yields_of_empty_range h hlt fun v hv => ⟨hv.1, hv.2.1⟩
  rw [if_neg hlt]
  by_cases hsparse : a.isSparse = true ∧ b.isSparse = true
  · rw [if_pos hsparse]
    have hfa := ha.sparseForm hsparse.1
    have hfb := hb.sparseForm hsparse.2
    simp only [slice_values hfa, slice_values hfb]
    have hsa := hfa.sorted.filter fun v => decide (min ≤ v ∧ v ≤ max)
    have hsb := hfb.sorted.filter fun v => decide (min ≤ v ∧ v ≤ max)
    have hla := List.length_filter_le (fun v => decide (min ≤ v ∧ v ≤ max)) a.values
    have hlb := List.length_filter_le (fun v => decide (min ≤ v ∧ v ≤ max)) b.values
    rw [← hfa.cardinality_eq] at hla
    rw [← hfb.cardinality_eq] at hlb
    -- two sparse sets together have at most 2048 values
    have hshort : a.cardinality + b.cardinality ≤ arrayMax := by
      have h1 := hfa.length_le
      have h2 := hfb.length_le
      rw [hfa.cardinality_eq, hfb.cardinality_eq]
      simp only [sparseMax, arrayMax] at h1 h2 ⊢
      omega
    refine finish_valuesResult h ?_ (Sorted.pairwise_either _ hsa hsb (by omega)) fun v => ?_
    · exact (Sorted.length_either_le _ _ _).trans (by omega)
    · rw [Sorted.mem_either _ (by omega), List.mem_filter, List.mem_filter, decide_eq_true_eq,
        Chosen, Bitmap.members_sparse hfa.containers_eq, Bitmap.members_sparse hfb.containers_eq]
      have hlta := hfa.lt v
      have hltb := hfb.lt v
      simp only [WordOp.Holds]
      tauto
  rw [if_neg hsparse]
  exact orLoop_yields ha hb (Nat.not_lt.mp hlt) walkSteps (left_add_left_lt _ _)
    (reads_start ha min max) (reads_start hb min max) (h.starts fun v hv => hv.1)

theorem roaringAndnot_yields (min max : Nat) (ha : a.Valid) (hb : b.Valid) (h : out.Empty) :
    Yields L out s (Chosen .andnot a b min max) (roaringAndnot L out a b min max s) := by
  unfold roaringAndnot
  by_cases hlt : max < min
  · rw [if_pos hlt]
    exact yields_of_empty_range h hlt fun v hv => ⟨hv.1, hv.2.1⟩
  rw [if_neg hlt]
  by_cases hsparse : a.isSparse = true
  · rw [if_pos hsparse]
    exact sparseFilter_yields false min max ha hsparse hb h
  rw [if_neg hsparse]
  exact andnotLoop_yields ha hb (Nat.not_lt.mp hlt) walkSteps (left_lt _) (reads_start ha min max)
    (Nat.le_refl _) (reads_start hb min max) (h.starts fun v hv => hv.1)

/-- What a range copied out holds. -/
def InRange (a : Bitmap) (min max v : Nat) : Prop := min ≤ v ∧ v ≤ max ∧ v ∈ a.members

instance (a : Bitmap) (min max : Nat) : DecidablePred (InRange a min max) := by
  intro v
  unfold InRange
  infer_instance

theorem roaringCopyRange_yields (min max : Nat) (ha : a.Valid) (h : out.Empty) :
    Yields L out s (InRange a min max) (roaringCopyRange L out a min max s) := by
  unfold roaringCopyRange
  by_cases hlt : max < min
  · rw [if_pos hlt]
    exact yields_of_empty_range h hlt fun v hv => ⟨hv.1, hv.2.1⟩
  rw [if_neg hlt]
  by_cases hsparse : a.isSparse = true
  · rw [if_pos hsparse]
    have hfa := ha.sparseForm hsparse
    have hmembers := Bitmap.members_sparse hfa.containers_eq
    by_cases h0 : a.cardinality = 0
    · rw [if_pos h0]
      have hnone : ∀ v, ¬ InRange a min max v := fun v hv => by
        rw [hfa.cardinality_eq] at h0
        have hm := hv.2.2
        rw [hmembers, List.length_eq_zero_iff.mp h0] at hm
        cases hm
      exact (h.begins (k := 0) fun v _ => hnone v).done fun v _ _ => hnone v
    · rw [if_neg h0]
      simp only
      have hslice := slice_values hfa min max
      have hle : upperBound32 a.values a.cardinality max - lowerBound32 a.values a.cardinality min
          ≤ (a.values.drop (lowerBound32 a.values a.cardinality min)).length := by
        have := (upperBound_cut hfa.sorted max).1
        rw [List.length_drop, hfa.cardinality_eq]
        exact Nat.sub_le_sub_right this _
      rw [valuesResult_take hle, hslice]
      refine finish_valuesResult h ?_ (hfa.sorted.filter _) fun v => ?_
      · have h1 := List.length_filter_le (fun v => decide (min ≤ v ∧ v ≤ max)) a.values
        have h2 := hfa.length_le
        simp only [sparseMax, arrayMax] at h2 ⊢
        omega
      · rw [List.mem_filter, decide_eq_true_eq, InRange, hmembers]
        have hltv := hfa.lt v
        tauto
  rw [if_neg hsparse]
  exact copyLoop_yields ha (Nat.not_lt.mp hlt) (fun v => Iff.rfl) walkSteps (left_lt _)
    (reads_start ha min max) (h.starts fun v hv => hv.1)

/-! ## Exactly the chosen values -/

theorem Yields.success {p : Nat → Prop} [DecidablePred p] {r : Built σ} (h : Yields L out s p r)
    (hok : r.result = .success) : r.set.Valid ∧ ∀ v, v ∈ r.set.members ↔ v < 2 ^ 32 ∧ p v := by
  rcases h with ⟨-, hwell, hmembers, -⟩ | ⟨herr, -⟩
  · exact ⟨hwell.valid, fun v => by rw [hmembers, mem_below]⟩
  · exact absurd hok (Result.ne_success_of_isError herr)

theorem Yields.failure {p : Nat → Prop} [DecidablePred p] {r : Built σ} (h : Yields L out s p r)
    (hne : r.result ≠ .success) :
    r.set = Bitmap.init ∧ Balanced L s out.loans r.pool [] ∧
      (L.Grants → uint32Max < (below (2 ^ 32) p).length) := by
  rcases h with ⟨hok, -⟩ | ⟨-, hrest⟩
  · exact absurd hok hne
  · exact hrest

/-- A set with containers for the keys 0 and 2. -/
def sampleLeft : Bitmap :=
  ⟨some 4096, [⟨4160, .array [3, 5], 2, 0, 4⟩, ⟨4176, .array [1, 7], 2, 2, 4⟩], [], 4, 131079, 6⟩

/-- Another one with the same keys. -/
def sampleRight : Bitmap :=
  ⟨some 4224, [⟨4288, .array [5, 6], 2, 0, 4⟩, ⟨4304, .array [7], 1, 2, 4⟩], [], 3, 131079, 6⟩

theorem valid_sampleLeft : sampleLeft.Valid := by
  refine ⟨Or.inr ⟨by decide, by decide, ?_, by decide, by decide, by decide, by decide⟩, by decide⟩
  intro c hc
  simp only [sampleLeft, List.mem_cons, List.not_mem_nil, or_false] at hc
  rcases hc with rfl | rfl
  · exact ⟨by decide, by decide, by decide, by decide⟩
  · exact ⟨by decide, by decide, by decide, by decide⟩

theorem valid_sampleRight : sampleRight.Valid := by
  refine ⟨Or.inr ⟨by decide, by decide, ?_, by decide, by decide, by decide, by decide⟩, by decide⟩
  intro c hc
  simp only [sampleRight, List.mem_cons, List.not_mem_nil, or_false] at hc
  rcases hc with rfl | rfl
  · exact ⟨by decide, by decide, by decide, by decide⟩
  · exact ⟨by decide, by decide, by decide, by decide⟩

/-- And leaves the values of the range that both sets have, as a valid set. -/
theorem and_is_intersection (ha : a.Valid) (hb : b.Valid) (hout : out.Empty) (pool : σ)
    (min max : Nat)
    (hok : (roaringAnd L out a b min max pool).result = .success) :
    (roaringAnd L out a b min max pool).set.Valid ∧
      ∀ v, v ∈ (roaringAnd L out a b min max pool).set.members ↔
        min ≤ v ∧ v ≤ max ∧ v ∈ a.members ∧ v ∈ b.members := by
  obtain ⟨hvalid, hmem⟩ := (roaringAnd_yields (s := pool) min max ha hb hout).success hok
  refine ⟨hvalid, fun v => ?_⟩
  rw [hmem]
  exact and_iff_right_of_imp fun hv => ha.lt_of_mem hv.2.2.1

theorem and_is_intersection_sample :
    (roaringAnd grantingPool Bitmap.init sampleLeft sampleRight 4 131079 0).set.Valid ∧
      5 ∈ (roaringAnd grantingPool Bitmap.init sampleLeft sampleRight 4 131079 0).set.members := by
  obtain ⟨hvalid, hmem⟩ := and_is_intersection (L := grantingPool) valid_sampleLeft
    valid_sampleRight Bitmap.empty_init 0 4 131079 (by decide +kernel)
  exact ⟨hvalid, (hmem 5).mpr (by decide)⟩

/-- Or leaves the values of the range that at least one of the sets has, as a valid set; with a
pool that grants it fails only where there are more of these than the set can count. -/
theorem or_is_union (ha : a.Valid) (hb : b.Valid) (hout : out.Empty) (pool : σ)
    (min max : Nat) :
    ((roaringOr L out a b min max pool).result = .success →
      (roaringOr L out a b min max pool).set.Valid ∧
        ∀ v, v ∈ (roaringOr L out a b min max pool).set.members ↔
          min ≤ v ∧ v ≤ max ∧ (v ∈ a.members ∨ v ∈ b.members)) ∧
    (L.Grants → (roaringOr L out a b min max pool).result ≠ .success →
      uint32Max < (below (2 ^ 32) (Chosen .or a b min max)).length) := by
  have hyields := roaringOr_yields (L := L) (s := pool) min max ha hb hout
  refine ⟨fun hok => ?_, fun hg hne => (hyields.failure hne).2.2 hg⟩
  obtain ⟨hvalid, hmem⟩ := hyields.success hok
  refine ⟨hvalid, fun v => ?_⟩
  rw [hmem]
  refine and_iff_right_of_imp fun hv => ?_
  rcases hv.2.2 with hm | hm
  · exact ha.lt_of_mem hm
  · exact hb.lt_of_mem hm

theorem or_is_union_sample :
    (roaringOr grantingPool Bitmap.init sampleLeft sampleRight 4 131079 0).set.Valid ∧
      6 ∈ (roaringOr grantingPool Bitmap.init sampleLeft sampleRight 4 131079 0).set.members := by
  obtain ⟨hvalid, hmem⟩ := (or_is_union (L := grantingPool) valid_sampleLeft
    valid_sampleRight Bitmap.empty_init 0 4 131079).1 (by decide +kernel)
  exact ⟨hvalid, (hmem 6).mpr (by decide)⟩

/-- Andnot leaves the values of the range that only the first set has and a copied range those of
its source, both as valid sets; what andnot and and leave of a range are the two parts of what a
copy leaves. -/
theorem andnot_and_split_copy (ha : a.Valid) (hb : b.Valid) (hout : out.Empty) (pool : σ)
    (min max : Nat) :
    ((roaringAndnot L out a b min max pool).result = .success →
      (roaringAndnot L out a b min max pool).set.Valid ∧
        ∀ v, v ∈ (roaringAndnot L out a b min max pool).set.members ↔
          min ≤ v ∧ v ≤ max ∧ v ∈ a.members ∧ v ∉ b.members) ∧
    ((roaringCopyRange L out a min max pool).result = .success →
      (roaringCopyRange L out a min max pool).set.Valid ∧
        ∀ v, v ∈ (roaringCopyRange L out a min max pool).set.members ↔
          min ≤ v ∧ v ≤ max ∧ v ∈ a.members) ∧
    ∀ (out₁ out₂ : Bitmap) (pool₁ pool₂ : σ), out₁.Empty → out₂.Empty →
      (roaringAndnot L out a b min max pool).result = .success →
      (roaringAnd L out₁ a b min max pool₁).result = .success →
      (roaringCopyRange L out₂ a min max pool₂).result = .success →
      ∀ v, ¬ (v ∈ (roaringAndnot L out a b min max pool).set.members ∧
          v ∈ (roaringAnd L out₁ a b min max pool₁).set.members) ∧
        (v ∈ (roaringAndnot L out a b min max pool).set.members ∨
            v ∈ (roaringAnd L out₁ a b min max pool₁).set.members ↔
          v ∈ (roaringCopyRange L out₂ a min max pool₂).set.members) := by
  have handnot : (roaringAndnot L out a b min max pool).result = .success →
      (roaringAndnot L out a b min max pool).set.Valid ∧
        ∀ v, v ∈ (roaringAndnot L out a b min max pool).set.members ↔
          min ≤ v ∧ v ≤ max ∧ v ∈ a.members ∧ v ∉ b.members := fun hok => by
    obtain ⟨hvalid, hmem⟩ := (roaringAndnot_yields (s := pool) min max ha hb hout).success hok
    refine ⟨hvalid, fun v => ?_⟩
    rw [hmem]
    exact and_iff_right_of_imp fun hv => ha.lt_of_mem hv.2.2.1
  have hcopy : ∀ {out : Bitmap} {pool : σ}, out.Empty →
      (roaringCopyRange L out a min max pool).result = .success →
      (roaringCopyRange L out a min max pool).set.Valid ∧
        ∀ v, v ∈ (roaringCopyRange L out a min max pool).set.members ↔
          min ≤ v ∧ v ≤ max ∧ v ∈ a.members := fun {out pool} hout hok => by
    obtain ⟨hvalid, hmem⟩ := (roaringCopyRange_yields (s := pool) min max ha hout).success hok
    refine ⟨hvalid, fun v => ?_⟩
    rw [hmem]
    exact and_iff_right_of_imp fun hv => ha.lt_of_mem hv.2.2
  refine ⟨handnot, hcopy hout, fun out₁ out₂ pool₁ pool₂ h1 h2 hok hok1 hok2 v => ?_⟩
  have hand := (roaringAnd_yields (L := L) (s := pool₁) min max ha hb h1).success hok1
  have hv := hand.2 v
  rw [(handnot hok).2 v, (hcopy h2 hok2).2 v, hv]
  have hlt : v ∈ a.members → v < 2 ^ 32 := ha.lt_of_mem
  simp only [Chosen, WordOp.Holds]
  tauto

theorem andnot_and_split_copy_sample :
    131073 ∈ (roaringAndnot grantingPool Bitmap.init sampleLeft sampleRight 4 131079
      0).set.members ∧
      131073 ∈ (roaringCopyRange grantingPool Bitmap.init sampleLeft 4 131079 0).set.members := by
  obtain ⟨handnot, -, hsplit⟩ := andnot_and_split_copy (L := grantingPool) valid_sampleLeft
    valid_sampleRight Bitmap.empty_init 0 4 131079
  have hin := ((handnot (by decide +kernel)).2 131073).mpr (by decide)
  obtain ⟨-, hcopy⟩ := hsplit Bitmap.init Bitmap.init 0 0 Bitmap.empty_init Bitmap.empty_init
    (by decide +kernel) (by decide +kernel) (by decide +kernel) 131073
  exact ⟨hin, hcopy.mp (Or.inl hin)⟩

end Arnm.Roaring
