import Mathlib.Tactic
import Mathlib.Data.List.TakeWhile

set_option autoImplicit false

/-! # Walks through two sorted lists

The two pointer loops over ascending lists: their common entries, the entries of either, those of
one without the other. Each loop takes as many steps as its fuel says; the length of both lists is
enough.
-/

namespace Sorted

variable {α : Type} [LinearOrder α]

/-- The entries both lists have. -/
def common : Nat → List α → List α → List α
  | fuel + 1, x :: xs, y :: ys =>
    if x < y then common fuel xs (y :: ys)
    else if y < x then common fuel (x :: xs) ys
    else x :: common fuel xs ys
  | _, _, _ => []

/-- The entries of either list, each once. -/
def either : Nat → List α → List α → List α
  | fuel + 1, x :: xs, y :: ys =>
    if x < y then x :: either fuel xs (y :: ys)
    else if y < x then y :: either fuel (x :: xs) ys
    else x :: either fuel xs ys
  | _, xs, [] => xs
  | _, [], ys => ys
  | 0, _, _ => []

/-- The entries of the first list that the second has, if `keep`, or has not. -/
def kept (keep : Bool) : List α → List α → List α
  | [], _ => []
  | x :: xs, ys =>
    let ys := ys.dropWhile (· < x)
    let has := decide (ys.head? = some x)
    if has = keep then x :: kept keep xs ys else kept keep xs ys

theorem not_mem_of_lt {x y : α} {ys : List α} (hs : (y :: ys).Pairwise (· < ·)) (h : x < y) :
    x ∉ y :: ys := by
  intro hx
  rcases List.mem_cons.mp hx with rfl | hx
  · exact lt_irrefl _ h
  · exact lt_asymm h ((List.pairwise_cons.mp hs).1 x hx)

theorem common_eq (fuel : Nat) {xs ys : List α} (hx : xs.Pairwise (· < ·))
    (hy : ys.Pairwise (· < ·)) (hf : xs.length + ys.length ≤ fuel) :
    common fuel xs ys = xs.filter (· ∈ ys) := by
  induction fuel generalizing xs ys with
  | zero =>
      have : xs = [] := List.length_eq_zero_iff.mp (by omega)
      rw [this]
      rfl
  | succ fuel ih =>
      cases xs with
      | nil => cases ys <;> rfl
      | cons x xs =>
          cases ys with
          | nil => simp [common]
          | cons y ys =>
              simp only [List.length_cons] at hf
              obtain ⟨hx1, hx2⟩ := List.pairwise_cons.mp hx
              obtain ⟨hy1, hy2⟩ := List.pairwise_cons.mp hy
              unfold common
              rcases lt_trichotomy x y with h | rfl | h
              · rw [if_pos h, ih hx2 hy (by simp only [List.length_cons]; omega),
                  List.filter_cons_of_neg (by simpa using not_mem_of_lt hy h)]
              · rw [if_neg (lt_irrefl x), if_neg (lt_irrefl x), ih hx2 hy2 (by omega),
                  List.filter_cons_of_pos (by simp)]
                congr 1
                refine List.filter_congr fun a ha => ?_
                have hne : a ≠ x := (hx1 a ha).ne'
                simp [hne]
              · rw [if_neg (lt_asymm h), if_pos h,
                  ih hx hy2 (by simp only [List.length_cons]; omega)]
                refine List.filter_congr fun a ha => ?_
                -- every entry of the first list lies above the head of the second
                have hne : a ≠ y := fun he => not_mem_of_lt hx h (he ▸ ha)
                simp [hne]

theorem mem_either (fuel : Nat) {xs ys : List α} (hf : xs.length + ys.length ≤ fuel) (a : α) :
    a ∈ either fuel xs ys ↔ a ∈ xs ∨ a ∈ ys := by
  induction fuel generalizing xs ys with
  | zero =>
      have hx : xs = [] := List.length_eq_zero_iff.mp (by omega)
      have hy : ys = [] := List.length_eq_zero_iff.mp (by omega)
      simp [hx, hy, either]
  | succ fuel ih =>
      cases xs with
      | nil => cases ys <;> simp [either]
      | cons x xs =>
          cases ys with
          | nil => simp [either]
          | cons y ys =>
              simp only [List.length_cons] at hf
              unfold either
              rcases lt_trichotomy x y with h | rfl | h
              · rw [if_pos h, List.mem_cons, ih (by simp only [List.length_cons]; omega),
                  List.mem_cons (b := x), or_assoc]
              · rw [if_neg (lt_irrefl x), if_neg (lt_irrefl x), List.mem_cons, ih (by omega),
                  List.mem_cons, List.mem_cons]
                tauto
              · rw [if_neg (lt_asymm h), if_pos h, List.mem_cons,
                  ih (by simp only [List.length_cons]; omega), List.mem_cons (b := y)]
                tauto

theorem pairwise_either (fuel : Nat) {xs ys : List α} (hx : xs.Pairwise (· < ·))
    (hy : ys.Pairwise (· < ·)) (hf : xs.length + ys.length ≤ fuel) :
    (either fuel xs ys).Pairwise (· < ·) := by
  induction fuel generalizing xs ys with
  | zero =>
      have hx : xs = [] := List.length_eq_zero_iff.mp (by omega)
      have hy : ys = [] := List.length_eq_zero_iff.mp (by omega)
      simp [hx, hy, either]
  | succ fuel ih =>
      cases xs with
      | nil =>
          cases ys with
          | nil => simp [either]
          | cons y ys => simpa [either] using hy
      | cons x xs =>
          cases ys with
          | nil => simpa [either] using hx
          | cons y ys =>
              simp only [List.length_cons] at hf
              obtain ⟨hx1, hx2⟩ := List.pairwise_cons.mp hx
              obtain ⟨hy1, hy2⟩ := List.pairwise_cons.mp hy
              unfold either
              -- the smaller head comes first, and what follows is from either list behind the heads
              rcases lt_trichotomy x y with h | rfl | h
              · have hfuel : xs.length + (y :: ys).length ≤ fuel := by
                  simp only [List.length_cons]
                  omega
                rw [if_pos h]
                refine List.pairwise_cons.mpr ⟨fun a ha => ?_, ih hx2 hy hfuel⟩
                rcases (mem_either fuel hfuel a).mp ha with ha | ha
                · exact hx1 a ha
                · rcases List.mem_cons.mp ha with rfl | ha
                  · exact h
                  · exact h.trans (hy1 a ha)
              · rw [if_neg (lt_irrefl x), if_neg (lt_irrefl x)]
                refine List.pairwise_cons.mpr ⟨fun a ha => ?_, ih hx2 hy2 (by omega)⟩
                rcases (mem_either fuel (by omega) a).mp ha with ha | ha
                · exact hx1 a ha
                · exact hy1 a ha
              · have hfuel : (x :: xs).length + ys.length ≤ fuel := by
                  simp only [List.length_cons]
                  omega
                rw [if_neg (lt_asymm h), if_pos h]
                refine List.pairwise_cons.mpr ⟨fun a ha => ?_, ih hx hy2 hfuel⟩
                rcases (mem_either fuel hfuel a).mp ha with ha | ha
                · rcases List.mem_cons.mp ha with rfl | ha
                  · exact h
                  · exact h.trans (hx1 a ha)
                · exact hy1 a ha

theorem length_either_le (fuel : Nat) (xs ys : List α) :
    (either fuel xs ys).length ≤ xs.length + ys.length := by
  induction fuel generalizing xs ys with
  | zero => cases xs <;> cases ys <;> simp [either]
  | succ fuel ih =>
      cases xs with
      | nil => cases ys <;> simp [either]
      | cons x xs =>
          cases ys with
          | nil => simp [either]
          | cons y ys =>
              unfold either
              have h1 := ih xs (y :: ys)
              have h2 := ih (x :: xs) ys
              have h3 := ih xs ys
              simp only [List.length_cons] at h1 h2 ⊢
              split
              · simp only [List.length_cons]
                omega
              · split <;> simp only [List.length_cons] <;> omega

theorem length_common_le (fuel : Nat) (xs ys : List α) :
    (common fuel xs ys).length ≤ xs.length := by
  induction fuel generalizing xs ys with
  | zero => cases xs <;> cases ys <;> simp [common]
  | succ fuel ih =>
      cases xs with
      | nil => cases ys <;> simp [common]
      | cons x xs =>
          cases ys with
          | nil => simp [common]
          | cons y ys =>
              unfold common
              have h1 := ih xs (y :: ys)
              have h2 := ih (x :: xs) ys
              have h3 := ih xs ys
              simp only [List.length_cons] at h2 ⊢
              split
              · exact Nat.le_succ_of_le h1
              · split
                · exact h2
                · exact Nat.succ_le_succ h3

theorem length_kept_le (keep : Bool) (xs ys : List α) : (kept keep xs ys).length ≤ xs.length := by
  induction xs generalizing ys with
  | nil => exact Nat.le_refl 0
  | cons x xs ih =>
      unfold kept
      simp only [List.length_cons]
      split
      · exact Nat.succ_le_succ (ih _)
      · exact Nat.le_succ_of_le (ih _)

theorem kept_eq_nil_right (xs : List α) : kept true xs [] = [] := by
  induction xs with
  | nil => rfl
  | cons x xs ih => simpa [kept] using ih

/-- Passing over the smaller entries keeps the ones from `x` on. -/
theorem mem_dropWhile_lt {x a : α} (ys : List α) (h : x ≤ a) :
    a ∈ ys.dropWhile (· < x) ↔ a ∈ ys := by
  constructor
  · exact fun ha => (List.dropWhile_sublist _).subset ha
  · intro ha
    have happ := List.takeWhile_append_dropWhile (p := fun y => decide (y < x)) (l := ys)
    rw [← happ] at ha
    rcases List.mem_append.mp ha with ha | ha
    · have := List.mem_takeWhile_imp ha
      simp only [decide_eq_true_eq] at this
      exact absurd this (not_lt.mpr h)
    · exact ha

/-- What is in front after passing over the smaller entries is the entry looked for, if it is
there. -/
theorem head?_dropWhile_lt {x : α} {ys : List α} (hs : ys.Pairwise (· < ·)) :
    (ys.dropWhile (· < x)).head? = some x ↔ x ∈ ys := by
  constructor
  · exact fun h => (List.dropWhile_sublist _).subset (List.mem_of_head? h)
  · intro h
    have hm := (mem_dropWhile_lt ys le_rfl).mpr h
    have hp := hs.sublist (List.dropWhile_sublist (· < x))
    cases hd : ys.dropWhile (· < x) with
    | nil =>
        rw [hd] at hm
        cases hm
    | cons y rest =>
        have hy : ¬ y < x := by
          have := List.head_dropWhile_not (fun y => decide (y < x)) (l := ys) (by rw [hd]; simp)
          simpa [hd] using this
        rw [hd] at hm hp
        rcases List.mem_cons.mp hm with rfl | hm
        · rfl
        · exact absurd ((List.pairwise_cons.mp hp).1 x hm) hy

theorem kept_eq (keep : Bool) {xs ys : List α} (hx : xs.Pairwise (· < ·))
    (hy : ys.Pairwise (· < ·)) :
    kept keep xs ys = xs.filter fun a => decide (a ∈ ys) = keep := by
  induction xs generalizing ys with
  | nil => rfl
  | cons x xs ih =>
      obtain ⟨hx1, hx2⟩ := List.pairwise_cons.mp hx
      have hrest : (xs.filter fun a => decide (decide (a ∈ ys.dropWhile (· < x)) = keep))
          = xs.filter fun a => decide (decide (a ∈ ys) = keep) :=
        List.filter_congr fun a ha => by
          have := mem_dropWhile_lt ys (hx1 a ha).le
          simp only [this]
      have hhead := head?_dropWhile_lt (x := x) hy
      unfold kept
      simp only [ih hx2 (hy.sublist (List.dropWhile_sublist _)), hhead]
      rw [hrest]
      by_cases hk : decide (x ∈ ys) = keep
      · rw [if_pos hk, List.filter_cons_of_pos (by simpa using hk)]
      · rw [if_neg hk, List.filter_cons_of_neg (by simpa using hk)]

end Sorted
