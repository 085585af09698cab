import Arnm.Lib.Listing
import Arnm.Lib.Search

set_option autoImplicit false

/-! # Masks of ascending lists

A mask marks the positions of an ascending list by its bits (`Marks`). The number of bits below a
position is then an index into the list: that of the first entry at or behind the position
(`Marks.rank`). -/

namespace Masks

open Listing Search

variable {w : Nat} {mask low x y : BitVec w} {l : List Nat} {m r : Nat}

/-- The population count is the number of set bits. -/
theorem toNat_cpop (mask : BitVec w) :
    mask.cpop.toNat = (below w fun i => mask.getLsbD i = true).length := by
  have key : ∀ k, mask.cpopNatRec k 0 = ((List.range k).filter fun i => mask.getLsbD i).length := by
    intro k
    induction k with
    | zero => rfl
    | succ k ih =>
        rw [BitVec.cpopNatRec_succ, BitVec.cpopNatRec_add, ih, List.range_succ, List.filter_append,
          List.length_append]
        cases h : mask.getLsbD k <;> simp [h]
  rw [BitVec.toNat_cpop, key w, below]
  simp

/-- The set bits of the mask are at the positions in the list. -/
def Marks (mask : BitVec w) (l : List Nat) : Prop := ∀ i, mask.getLsbD i = true ↔ i ∈ l

theorem Marks.nil : Marks (0#w) [] := fun i => by simp

theorem Marks.lt (h : Marks mask l) {i : Nat} (hi : i ∈ l) : i < w := by
  by_contra hge
  have hbit := (h i).mpr hi
  rw [BitVec.getLsbD_of_ge mask i (Nat.le_of_not_lt hge)] at hbit
  cases hbit

/-- Only the bit `b` of `1 << b` is set. -/
theorem getLsbD_one_shiftLeft {b : Nat} (hb : b < w) (i : Nat) :
    (1#w <<< b).getLsbD i = decide (i = b) := by
  rw [← BitVec.twoPow_eq, BitVec.getLsbD_twoPow]
  by_cases hi : b = i
  · simp [hi, hi ▸ hb]
  · simp [hi, Ne.symm hi]

/-- One more bit. -/
theorem Marks.insert (h : Marks mask l) {b : Nat} (hb : b < w) :
    Marks (mask ||| 1#w <<< b) (l ++ [b]) := by
  intro i
  rw [BitVec.getLsbD_or, getLsbD_one_shiftLeft hb, Bool.or_eq_true, h i, List.mem_append,
    List.mem_singleton, decide_eq_true_eq]

theorem Marks.cpop (h : Marks mask l) (hl : l.Pairwise (· < ·)) : mask.cpop.toNat = l.length := by
  rw [toNat_cpop]
  refine congrArg List.length (eq_of_mem_iff_lt (pairwise_below _ _) hl fun i => ?_)
  rw [mem_below, h i]
  exact ⟨And.right, fun hi => ⟨h.lt hi, hi⟩⟩

/-! ## Ranks -/

/-- An ascending list is cut at every position. -/
theorem exists_cut (hl : l.Pairwise (· < ·)) (m : Nat) : ∃ r, Cut (· < m) l r := by
  induction l with
  | nil => exact ⟨0, Nat.le_refl _, fun a ha => absurd ha List.not_mem_nil,
      fun a ha => absurd ha List.not_mem_nil⟩
  | cons a l ih =>
      obtain ⟨hfirst, hrest⟩ := List.pairwise_cons.mp hl
      by_cases ha : a < m
      · obtain ⟨r, hr, hbefore, hbehind⟩ := ih hrest
        refine ⟨r + 1, Nat.succ_le_succ hr, fun b hb => ?_, hbehind⟩
        rcases List.mem_cons.mp hb with rfl | hb
        · exact ha
        · exact hbefore b hb
      · refine ⟨0, Nat.zero_le _, fun b hb => absurd hb List.not_mem_nil, fun b hb => ?_⟩
        rcases List.mem_cons.mp hb with rfl | hb
        · exact ha
        · have hlt := hfirst b hb
          omega

/-- The bits of the mask below a position are counted by the index of the first entry that is not
below it. -/
theorem Marks.rank (h : Marks mask l) (hl : l.Pairwise (· < ·)) (hcut : Cut (· < m) l r)
    (hlow : ∀ i, low.getLsbD i = (mask.getLsbD i && decide (i < m))) : low.cpop.toNat = r := by
  have hmarks : Marks low (l.filter fun a => decide (a < m)) := by
    intro i
    rw [hlow i, Bool.and_eq_true, h i, List.mem_filter]
  rw [hmarks.cpop (hl.filter _), hcut.length]

/-! ## Filling a mask downwards -/

/-- One step doubles the number of places each bit is copied to. -/
theorem getLsbD_or_shiftRight {k : Nat}
    (h : ∀ i, y.getLsbD i = true ↔ ∃ j, i ≤ j ∧ j < i + k ∧ x.getLsbD j = true) (i : Nat) :
    (y ||| y >>> k).getLsbD i = true ↔ ∃ j, i ≤ j ∧ j < i + 2 * k ∧ x.getLsbD j = true := by
  rw [BitVec.getLsbD_or, BitVec.getLsbD_ushiftRight, Bool.or_eq_true, h i, h (k + i)]
  constructor
  · rintro (⟨j, hlo, hhi, hj⟩ | ⟨j, hlo, hhi, hj⟩)
    · exact ⟨j, hlo, by omega, hj⟩
    · exact ⟨j, by omega, by omega, hj⟩
  · rintro ⟨j, hlo, hhi, hj⟩
    by_cases hk : j < i + k
    · exact Or.inl ⟨j, hlo, hk, hj⟩
    · exact Or.inr ⟨j, by omega, by omega, hj⟩

/-- A number has no bit from a position on iff it is below the power of two there. -/
theorem lt_two_pow_iff (x : BitVec w) (i : Nat) :
    x.toNat < 2 ^ i ↔ ¬ ∃ j, i ≤ j ∧ x.getLsbD j = true := by
  constructor
  · rintro hlt ⟨j, hj, hbit⟩
    have hzero : x.toNat.testBit j = false :=
      Nat.testBit_lt_two_pow (Nat.lt_of_lt_of_le hlt (Nat.pow_le_pow_right (by decide) hj))
    rw [BitVec.getLsbD] at hbit
    rw [hbit] at hzero
    cases hzero
  · intro hnone
    refine Nat.lt_pow_two_of_testBit _ fun j hj => ?_
    rw [← Bool.not_eq_true]
    exact fun hbit => hnone ⟨j, hj, hbit⟩

end Masks
