import Mathlib.Tactic

set_option autoImplicit false

/-! # Bisection

`bisect p fuel low high` halves the interval `[low, high)` until it is empty and returns the
first index at which `p` fails, for a `p` that never turns true again once it has failed. On a
sorted list this cuts the list exactly where the filter by `p` cuts it.
-/

namespace Search

/-- The halving loop; `fuel` bounds its rounds. -/
def bisect (p : Nat → Bool) : Nat → Nat → Nat → Nat
  | 0, low, _ => low
  | fuel + 1, low, high =>
      if low < high then
        let middle := (low + high) / 2
        if p middle then bisect p fuel (middle + 1) high else bisect p fuel low middle
      else low

/-- `p` is true on an initial part of `[0, n)` only. -/
def Initial (p : Nat → Bool) (n : Nat) : Prop :=
  ∀ i j, i ≤ j → j < n → p j = true → p i = true

theorem bisect_spec {p : Nat → Bool} {n : Nat} (hp : Initial p n) :
    ∀ (fuel low high : Nat), low ≤ high → high ≤ n → high - low ≤ fuel →
      low ≤ bisect p fuel low high ∧ bisect p fuel low high ≤ high ∧
      (∀ i, low ≤ i → i < bisect p fuel low high → p i = true) ∧
      (∀ i, bisect p fuel low high ≤ i → i < high → p i = false) := by
  intro fuel
  induction fuel with
  | zero =>
      intro low high hle _ hf
      have : low = high := by omega
      subst this
      simp only [bisect, le_refl, true_and]
      exact ⟨fun i h h' => by omega, fun i h h' => by omega⟩
  | succ fuel ih =>
      intro low high hle hn hf
      rw [bisect]
      by_cases hlt : low < high
      · rw [if_pos hlt]
        simp only
        set middle := (low + high) / 2 with hm
        have h1 : low ≤ middle := by omega
        have h2 : middle < high := by omega
        -- the half that is left out lies on one side of where `p` ends
        by_cases hpm : p middle = true
        · rw [if_pos hpm]
          obtain ⟨ha, hb, hc, hd⟩ := ih (middle + 1) high (by omega) hn (by omega)
          refine ⟨by omega, hb, fun i hi hr => ?_, hd⟩
          by_cases him : i ≤ middle
          · exact hp i middle him (by omega) hpm
          · exact hc i (by omega) hr
        · rw [if_neg hpm]
          obtain ⟨ha, hb, hc, hd⟩ := ih low middle h1 (by omega) (by omega)
          refine ⟨ha, by omega, hc, fun i hi hr => ?_⟩
          by_cases him : i < middle
          · exact hd i hi him
          · by_contra hpi
            exact hpm (hp middle i (by omega) (by omega) (by simpa using hpi))
      · rw [if_neg hlt]
        exact ⟨le_refl _, by omega, fun i h h' => by omega, fun i h h' => by omega⟩

/-! ## Cutting a list -/

/-- `r` is where `l` stops having the property `q`. -/
def Cut (q : Nat → Prop) (l : List Nat) (r : Nat) : Prop :=
  r ≤ l.length ∧ (∀ a ∈ l.take r, q a) ∧ ∀ a ∈ l.drop r, ¬ q a

variable {q : Nat → Prop} [DecidablePred q] {l : List Nat} {r : Nat}

theorem Cut.take (h : Cut q l r) : l.take r = l.filter (fun a => decide (q a)) := by
  conv_rhs => rw [← List.take_append_drop r l, List.filter_append]
  rw [List.filter_eq_self.mpr (by simpa using h.2.1),
    List.filter_eq_nil_iff.mpr (by simpa using h.2.2), List.append_nil]

theorem Cut.drop (h : Cut q l r) : l.drop r = l.filter (fun a => decide (¬ q a)) := by
  conv_rhs => rw [← List.take_append_drop r l, List.filter_append]
  rw [List.filter_eq_nil_iff.mpr (by simpa using h.2.1),
    List.filter_eq_self.mpr (by simpa using h.2.2), List.nil_append]

/-- Dropping up to a cut is dropping while the entries lie below it. -/
theorem Cut.drop_eq_dropWhile (h : Cut q l r) : l.drop r = l.dropWhile fun a => decide (q a) := by
  have happ : l.take r ++ l.drop r = l := List.take_append_drop r l
  conv_rhs => rw [← happ]
  rw [List.dropWhile_append_of_pos fun a ha => by simpa using h.2.1 a ha]
  cases hd : l.drop r with
  | nil => rfl
  | cons a rest =>
      have ha := h.2.2 a (by rw [hd]; exact List.mem_cons_self)
      rw [List.dropWhile_cons_of_neg (by simpa using ha)]

/-- A scan that stops at the first entry without the property stops at the cut. -/
theorem Cut.findIdx (h : Cut q l r) : l.findIdx (fun a => decide (¬ q a)) = r := by
  obtain ⟨hle, hbefore, hbehind⟩ := h
  have hhead : (l.take r).findIdx (fun a => decide (¬ q a)) = r := by
    rw [List.findIdx_eq_length_of_false, List.length_take, Nat.min_eq_left hle]
    intro a ha
    exact decide_eq_false (not_not_intro (hbefore a ha))
  have hrest : (l.drop r).findIdx (fun a => decide (¬ q a)) = 0 := by
    cases hd : l.drop r with
    | nil => rfl
    | cons a rest =>
        have ha := hbehind a (by rw [hd]; exact List.mem_cons_self)
        rw [List.findIdx_cons, decide_eq_true ha]
        rfl
  have hlen : (l.take r).length = r := by rw [List.length_take, Nat.min_eq_left hle]
  calc l.findIdx (fun a => decide (¬ q a))
      = (l.take r ++ l.drop r).findIdx (fun a => decide (¬ q a)) := by rw [List.take_append_drop]
    _ = 0 + r := by
        rw [List.findIdx_append, hhead, hrest, hlen, if_neg (Nat.lt_irrefl r)]
    _ = r := Nat.zero_add r

theorem Cut.length (h : Cut q l r) : r = (l.filter (fun a => decide (q a))).length := by
  rw [← h.take, List.length_take, Nat.min_eq_left h.1]

omit [DecidablePred q] in
/-- A cut of a list is a cut of its rest behind any index. -/
theorem Cut.shift (h : Cut q l r) (s : Nat) : Cut q (l.drop s) (r - s) := by
  obtain ⟨h1, h2, h3⟩ := h
  refine ⟨by rw [List.length_drop]; omega, fun a ha => ?_, fun a ha => ?_⟩
  · rw [← List.drop_take] at ha
    exact h2 a (List.mem_of_mem_drop ha)
  · rw [List.drop_drop] at ha
    refine h3 a ?_
    by_cases hs : s ≤ r
    · rwa [show s + (r - s) = r by omega] at ha
    · rw [show s + (r - s) = r + (s - r) by omega, ← List.drop_drop] at ha
      exact List.mem_of_mem_drop ha

/-- The entries between two cuts are those with the second property and not the first. -/
theorem Cut.slice {q' : Nat → Prop} [DecidablePred q'] {r' : Nat} (h : Cut q l r)
    (h' : Cut q' l r') :
    (l.drop r).take (r' - r) = l.filter (fun a => decide (¬ q a ∧ q' a)) := by
  rw [(h'.shift r).take, h.drop, List.filter_filter]
  refine List.filter_congr (fun a _ => ?_)
  rw [Bool.decide_and, Bool.and_comm]

omit [DecidablePred q] in
/-- Cutting the rest behind a cut, by a weaker property, cuts the list. -/
theorem Cut.append {q' : Nat → Prop} {s : Nat} (h : Cut q l r) (hq : ∀ a, q a → q' a)
    (h' : Cut q' (l.drop r) s) : Cut q' l (r + s) := by
  obtain ⟨h1, h2, -⟩ := h
  obtain ⟨h1', h2', h3'⟩ := h'
  rw [List.length_drop] at h1'
  refine ⟨by omega, fun a ha => ?_, fun a ha => ?_⟩
  · rw [List.take_add] at ha
    rcases List.mem_append.mp ha with ha | ha
    · exact hq a (h2 a ha)
    · exact h2' a ha
  · exact h3' a (by rwa [List.drop_drop])

omit [DecidablePred q] in
/-- Cutting an initial part cuts the list, if nothing behind that part has the property. -/
theorem Cut.of_take {n : Nat} (hn : n ≤ l.length) (h : Cut q (l.take n) r)
    (hq : ∀ a ∈ l.drop n, ¬ q a) : Cut q l r := by
  obtain ⟨h1, h2, h3⟩ := h
  rw [List.length_take, Nat.min_eq_left hn] at h1
  refine ⟨by omega, fun a ha => h2 a ?_, fun a ha => ?_⟩
  · rwa [List.take_take, Nat.min_eq_left h1]
  · by_cases hm : a ∈ (l.take n).drop r
    · exact h3 a hm
    · refine hq a ?_
      rw [← List.take_append_drop n l, List.drop_append_of_le_length
        (by rw [List.length_take]; omega)] at ha
      exact (List.mem_append.mp ha).resolve_left hm

/-! ### The entries at a cut of a sorted list -/

variable {m v : Nat}

theorem Cut.le_of_getElem? (h : Cut (· < m) l r) (hv : l[r]? = some v) : m ≤ v := by
  have hm : v ∈ l.drop r := by
    obtain ⟨hr, rfl⟩ := List.getElem?_eq_some_iff.mp hv
    exact List.mem_drop_iff_getElem.mpr ⟨0, by omega, by simp⟩
  exact Nat.not_lt.mp (h.2.2 v hm)

/-- The entry behind the cut is the first one not below the bound. -/
theorem Cut.first (h : Cut (· < m) l r) (hl : l.Pairwise (· < ·)) (hv : l[r]? = some v) :
    ∀ u ∈ l, m ≤ u → v ≤ u := by
  intro u hu hmu
  obtain ⟨hr, rfl⟩ := List.getElem?_eq_some_iff.mp hv
  obtain ⟨i, hi, rfl⟩ := List.mem_iff_getElem.mp hu
  by_contra hc
  have hir : i < r := by
    by_contra hge
    rcases Nat.eq_or_lt_of_le (Nat.not_lt.mp hge) with rfl | hlt
    · exact hc le_rfl
    · have := List.pairwise_iff_getElem.mp hl r i hr hi hlt
      omega
  have := h.2.1 _ (List.mem_take_iff_getElem.mpr ⟨i, by omega, rfl⟩)
  omega

theorem Cut.lt_of_none (h : Cut (· < m) l r) (hv : l[r]? = none) : ∀ u ∈ l, u < m := by
  intro u hu
  rw [List.getElem?_eq_none_iff] at hv
  exact h.2.1 u (by rwa [List.take_of_length_le hv])

theorem Cut.lt_of_getElem? (h : Cut (· < m) l r) (hr : 0 < r)
    (hv : l[r - 1]? = some v) : v < m := by
  obtain ⟨hi, rfl⟩ := List.getElem?_eq_some_iff.mp hv
  exact h.2.1 _ (List.mem_take_iff_getElem.mpr ⟨r - 1, by omega, rfl⟩)

/-- The entry in front of the cut is the last one below the bound. -/
theorem Cut.last (h : Cut (· < m) l r) (hl : l.Pairwise (· < ·)) (hv : l[r - 1]? = some v) :
    ∀ u ∈ l, u < m → u ≤ v := by
  intro u hu hmu
  obtain ⟨hr', rfl⟩ := List.getElem?_eq_some_iff.mp hv
  obtain ⟨i, hi, rfl⟩ := List.mem_iff_getElem.mp hu
  by_contra hc
  have hir : r ≤ i := by
    by_contra hge
    rcases Nat.eq_or_lt_of_le (show i ≤ r - 1 by omega) with rfl | hlt
    · exact hc le_rfl
    · have := List.pairwise_iff_getElem.mp hl i (r - 1) hi hr' hlt
      omega
  refine h.2.2 _ (List.mem_drop_iff_getElem.mpr ⟨i - r, by omega, rfl⟩) ?_
  simp only [show r + (i - r) = i by omega]
  exact hmu

theorem Cut.not_lt_of_zero (h : Cut (· < m) l 0) : ∀ u ∈ l, m ≤ u :=
  fun u hu => Nat.not_lt.mp (h.2.2 u (by rwa [List.drop_zero]))

/-- The entry at an index is where its own cut is. -/
theorem cut_self (hl : l.Pairwise (· < ·)) {i : Nat} (hv : l[i]? = some v) : Cut (· < v) l i := by
  obtain ⟨hi, rfl⟩ := List.getElem?_eq_some_iff.mp hv
  refine ⟨Nat.le_of_lt hi, fun a ha => ?_, fun a ha => ?_⟩
  · obtain ⟨k, hk, rfl⟩ := List.mem_take_iff_getElem.mp ha
    exact List.pairwise_iff_getElem.mp hl k i _ hi (by omega)
  · obtain ⟨k, hk, rfl⟩ := List.mem_drop_iff_getElem.mp ha
    rcases Nat.eq_zero_or_pos k with rfl | hpos
    · simp
    · exact Nat.not_lt.mpr (Nat.le_of_lt
        (List.pairwise_iff_getElem.mp hl i (i + k) hi (by omega) (by omega)))

/-- One entry on. -/
theorem cut_succ (hl : l.Pairwise (· < ·)) (hv : l[r]? = some v) : Cut (· < v + 1) l (r + 1) := by
  obtain ⟨hr, he⟩ := List.getElem?_eq_some_iff.mp hv
  refine ⟨hr, fun a ha => ?_, fun a ha => ?_⟩
  · obtain ⟨i, hi, rfl⟩ := List.mem_take_iff_getElem.mp ha
    rcases Nat.eq_or_lt_of_le (show i ≤ r by omega) with rfl | hlt
    · omega
    · have := List.pairwise_iff_getElem.mp hl i r (by omega) hr hlt
      omega
  · obtain ⟨i, hi, rfl⟩ := List.mem_drop_iff_getElem.mp ha
    have := List.pairwise_iff_getElem.mp hl r (r + 1 + i) hr (by omega) (by omega)
    omega

omit [DecidablePred q] in
/-- Bisecting by a property that holds of an initial part of `l` cuts `l` there. -/
theorem cut_bisect {p : Nat → Bool} (get : Nat → Nat) (hget : ∀ i (h : i < l.length), get i = l[i])
    (hp : ∀ i, i < l.length → (p i = true ↔ q (get i)))
    (hq : l.Pairwise (fun a b => q b → q a)) :
    Cut q l (bisect p l.length 0 l.length) := by
  have hi : Initial p l.length := by
    intro i j hij hj hpj
    rcases Nat.eq_or_lt_of_le hij with rfl | hlt
    · exact hpj
    · have hil : i < l.length := by omega
      rw [hp i hil, hget i hil]
      rw [hp j hj, hget j hj] at hpj
      exact List.pairwise_iff_getElem.mp hq i j hil hj hlt hpj
  obtain ⟨-, h2, h3, h4⟩ := bisect_spec hi l.length 0 l.length (Nat.zero_le _) le_rfl (by omega)
  refine ⟨h2, fun a ha => ?_, fun a ha => ?_⟩
  · obtain ⟨i, hir, rfl⟩ := List.mem_take_iff_getElem.mp ha
    have hil : i < l.length := by omega
    rw [← hget i hil]
    exact (hp i hil).mp (h3 i (Nat.zero_le _) (by omega))
  · obtain ⟨i, hil, rfl⟩ := List.mem_drop_iff_getElem.mp ha
    rw [← hget _ (by omega)]
    intro hc
    have := (hp _ (by omega)).mpr hc
    rw [h4 _ (by omega) (by omega)] at this
    cases this

end Search
