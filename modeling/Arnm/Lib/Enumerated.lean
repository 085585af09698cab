import Mathlib.Data.Set.Card
import Mathlib.Order.Bounds.Basic
import Mathlib.Tactic

set_option autoImplicit false

/-! # Sets written out in order

A list enumerates a set if it has the members of the set in the order of a relation, each once.
What is read off the list -- its length, its entry at an index, a slice, its ends -- is then said
of the set alone: the number of its members, the member with so many before it, the members whose
numbers of predecessors lie in an interval, the least and the greatest member.
-/

namespace Enumerated

variable {α : Type}

/-- The list has the members of `S` in the order `r`. -/
structure Enumerates (r : α → α → Prop) (l : List α) (S : Set α) : Prop where
  sorted : l.Pairwise r
  mem_iff : ∀ a, a ∈ l ↔ a ∈ S

/-- The number of members of `S` before `a`. -/
noncomputable def rank (r : α → α → Prop) (S : Set α) (a : α) : ℕ := {b ∈ S | r b a}.ncard

/-- The members of `S` with at least `skip` and fewer than `skip + size` before them. -/
def slice (r : α → α → Prop) (S : Set α) (skip size : ℕ) : Set α :=
  {a ∈ S | skip ≤ rank r S a ∧ rank r S a < skip + size}

variable {r : α → α → Prop} {l : List α} {S : Set α}

theorem Enumerates.eq_nil_iff (h : Enumerates r l S) : l = [] ↔ S = ∅ := by
  rw [List.eq_nil_iff_forall_not_mem, Set.eq_empty_iff_forall_notMem]
  constructor
  · intro hnone a ha
    exact hnone a ((h.mem_iff a).mpr ha)
  · intro hnone a ha
    exact hnone a ((h.mem_iff a).mp ha)

theorem Enumerates.filter (h : Enumerates r l S) (p : α → Prop) [DecidablePred p] :
    Enumerates r (l.filter fun a => decide (p a)) {a ∈ S | p a} := by
  constructor
  · exact h.sorted.filter _
  · intro a
    rw [List.mem_filter, decide_eq_true_eq, h.mem_iff]
    exact Iff.rfl

theorem Enumerates.reverse (h : Enumerates r l S) : Enumerates (fun a b => r b a) l.reverse S := by
  constructor
  · exact List.pairwise_reverse.mpr h.sorted
  · intro a
    rw [List.mem_reverse]
    exact h.mem_iff a

section Asymmetric

variable [Std.Asymm r]

theorem Enumerates.nodup (h : Enumerates r l S) : l.Nodup := by
  apply h.sorted.imp
  intro a b hab heq
  rw [heq] at hab
  exact Std.Asymm.asymm b b hab hab

theorem ncard_of_nodup {l : List α} (h : l.Nodup) {S : Set α} (hm : ∀ a, a ∈ l ↔ a ∈ S) :
    S.ncard = l.length := by
  classical
  have hS : S = (l.toFinset : Set α) := by
    ext a
    rw [Finset.mem_coe, List.mem_toFinset]
    exact (hm a).symm
  calc S.ncard
      = (l.toFinset : Set α).ncard := by rw [hS]
    _ = l.toFinset.card := Set.ncard_coe_finset _
    _ = l.length := List.toFinset_card_of_nodup h

theorem Enumerates.ncard (h : Enumerates r l S) : S.ncard = l.length :=
  ncard_of_nodup h.nodup h.mem_iff

/-- Exactly the entries in front of an index come before the entry at it. -/
theorem Enumerates.before_iff (h : Enumerates r l S) {i : ℕ} {a : α} (ha : l[i]? = some a) (b : α) :
    b ∈ l.take i ↔ b ∈ S ∧ r b a := by
  have hi := (List.getElem?_eq_some_iff.mp ha).1
  have hsplit : l = l.take i ++ l.drop i := (List.take_append_drop i l).symm
  have hdrop : l.drop i = a :: l.drop (i + 1) := by
    rw [List.drop_eq_getElem_cons hi, (List.getElem?_eq_some_iff.mp ha).2]
  have hsorted := h.sorted
  rw [hsplit, hdrop] at hsorted
  have hfront := (List.pairwise_append.mp hsorted).2.2
  have hback := (List.pairwise_cons.mp (List.pairwise_append.mp hsorted).2.1).1
  constructor
  · intro hb
    exact ⟨(h.mem_iff b).mp (List.mem_of_mem_take hb), hfront b hb a List.mem_cons_self⟩
  · rintro ⟨hb, hba⟩
    have hin := (h.mem_iff b).mpr hb
    rw [hsplit, hdrop] at hin
    rcases List.mem_append.mp hin with hin | hin
    · exact hin
    -- neither the entry itself nor a later one comes before it
    exfalso
    rcases List.mem_cons.mp hin with heq | hin
    · rw [heq] at hba
      exact Std.Asymm.asymm a a hba hba
    · exact Std.Asymm.asymm b a hba (hback b hin)

theorem Enumerates.rank_eq (h : Enumerates r l S) {i : ℕ} {a : α} (ha : l[i]? = some a) :
    rank r S a = i := by
  have hi := (List.getElem?_eq_some_iff.mp ha).1
  calc rank r S a
      = (l.take i).length :=
        ncard_of_nodup (h.nodup.sublist (List.take_sublist i l)) (h.before_iff ha)
    _ = i := by rw [List.length_take, Nat.min_eq_left hi.le]

/-- The entry at an index is the member with that many before it. -/
theorem Enumerates.getElem?_iff (h : Enumerates r l S) (i : ℕ) (a : α) :
    l[i]? = some a ↔ a ∈ S ∧ rank r S a = i := by
  constructor
  · intro ha
    exact ⟨(h.mem_iff a).mp (List.mem_of_getElem? ha), h.rank_eq ha⟩
  · rintro ⟨ha, hrank⟩
    obtain ⟨j, hj⟩ := List.mem_iff_getElem?.mp ((h.mem_iff a).mpr ha)
    rw [← hrank, h.rank_eq hj]
    exact hj

/-- A slice of the list enumerates that slice of the set. -/
theorem Enumerates.slice (h : Enumerates r l S) (skip size : ℕ) :
    Enumerates r ((l.drop skip).take size) (slice r S skip size) := by
  constructor
  · exact (h.sorted.sublist (List.drop_sublist skip l)).sublist (List.take_sublist size _)
  · intro a
    rw [List.mem_iff_getElem?]
    constructor
    · rintro ⟨i, hi⟩
      rw [List.getElem?_take] at hi
      by_cases hsize : i < size
      · rw [if_pos hsize, List.getElem?_drop] at hi
        have hin := (h.getElem?_iff _ _).mp hi
        exact ⟨hin.1, by omega, by omega⟩
      · rw [if_neg hsize] at hi
        cases hi
    · rintro ⟨ha, hskip, hsize⟩
      refine ⟨rank r S a - skip, ?_⟩
      rw [List.getElem?_take, if_pos (by omega), List.getElem?_drop]
      apply (h.getElem?_iff _ _).mpr
      exact ⟨ha, by omega⟩

end Asymmetric

section Linear

variable [LinearOrder α]

theorem Enumerates.head?_iff (h : Enumerates (· < ·) l S) (a : α) :
    l.head? = some a ↔ IsLeast S a := by
  cases l with
  | nil =>
      constructor
      · intro hnone
        cases hnone
      · intro hleast
        exact absurd ((h.mem_iff a).mpr hleast.1) List.not_mem_nil
  | cons b l =>
      have hb : IsLeast S b := by
        refine ⟨(h.mem_iff b).mp List.mem_cons_self, fun c hc => ?_⟩
        rcases List.mem_cons.mp ((h.mem_iff c).mpr hc) with heq | hin
        · exact heq.ge
        · exact ((List.pairwise_cons.mp h.sorted).1 c hin).le
      rw [List.head?_cons, Option.some.injEq]
      constructor
      · intro heq
        rw [← heq]
        exact hb
      · intro ha
        exact hb.unique ha

theorem Enumerates.getLast?_iff (h : Enumerates (· < ·) l S) (a : α) :
    l.getLast? = some a ↔ IsGreatest S a := by
  rw [List.getLast?_eq_head?_reverse]
  have hleast := @Enumerates.head?_iff αᵒᵈ l.reverse S _ h.reverse a
  exact hleast

end Linear

end Enumerated
