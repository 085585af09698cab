import Mathlib.Tactic
import Mathlib.Data.List.Sort

set_option autoImplicit false

/-! # Ordered listings and their pages

A finite set of numbers is handed out as a list in one of two directions. This file has the
facts such listings are compared with: two strictly ordered lists with the same members are
equal (`eq_of_mem_iff`), and reading a page out of a concatenation is reading it out of the parts
one after the other (`page_append`).
-/

namespace Listing

/-! ## Directions -/

/-- `a` comes strictly before `b` in the walking direction. -/
def Before (descending : Bool) (a b : Nat) : Prop := if descending then b < a else a < b

instance (d : Bool) (a b : Nat) : Decidable (Before d a b) := by
  unfold Before; infer_instance

@[simp] theorem before_false (a b : Nat) : Before false a b ↔ a < b := by simp [Before]

@[simp] theorem before_true (a b : Nat) : Before true a b ↔ b < a := by simp [Before]

theorem Before.trans {d : Bool} {a b c : Nat} (h : Before d a b) (h' : Before d b c) :
    Before d a c := by
  cases d <;> simp at * <;> omega

theorem Before.irrefl (d : Bool) (a : Nat) : ¬ Before d a a := by cases d <;> simp

theorem Before.asymm {d : Bool} {a b : Nat} (h : Before d a b) : ¬ Before d b a :=
  fun h' => Before.irrefl d a (h.trans h')

theorem before_or_eq_or_before (d : Bool) (a b : Nat) : Before d a b ∨ a = b ∨ Before d b a := by
  cases d <;> simp <;> omega

/-- Reached in a walk with everything before `frontier` behind it; the frontier itself is the next
number ascending, one past it descending. -/
def Ahead (descending : Bool) (frontier a : Nat) : Prop :=
  if descending then a < frontier else frontier ≤ a

instance (d : Bool) (f a : Nat) : Decidable (Ahead d f a) := by
  unfold Ahead; infer_instance

@[simp] theorem ahead_false (f a : Nat) : Ahead false f a ↔ f ≤ a := by simp [Ahead]

@[simp] theorem ahead_true (f a : Nat) : Ahead true f a ↔ a < f := by simp [Ahead]

/-- The frontier in front of `a`. -/
def upTo (descending : Bool) (a : Nat) : Nat := if descending then a + 1 else a

/-- The frontier behind `a`. -/
def past (descending : Bool) (a : Nat) : Nat := if descending then a else a + 1

theorem ahead_upTo {d : Bool} {a b : Nat} : Ahead d (upTo d a) b ↔ ¬ Before d b a := by
  cases d with
  | false => simp [upTo]
  | true => simp [upTo]

theorem ahead_past {d : Bool} {a b : Nat} : Ahead d (past d a) b ↔ Before d a b := by
  cases d with
  | false => simp [past]
  | true => simp [past]

theorem Ahead.of_past {d : Bool} {f a b : Nat} (h : Ahead d f a) (hb : Ahead d (past d a) b) :
    Ahead d f b := by
  cases d <;> simp [past] at * <;> omega

theorem Ahead.of_upTo {d : Bool} {f a b : Nat} (h : Ahead d f a) (hb : Ahead d (upTo d a) b) :
    Ahead d f b := by
  cases d <;> simp [upTo] at * <;> omega

theorem Before.of_ahead {d : Bool} {a b : Nat} (h : Ahead d (upTo d a) b) (hne : b ≠ a) :
    Before d a b := by
  cases d <;> simp [upTo] at * <;> omega

theorem Before.trans_ahead {d : Bool} {a b c : Nat} (h : Before d a b)
    (h' : Ahead d (upTo d b) c) : Before d a c := by
  cases d <;> simp [upTo] at * <;> omega

/-- How many of the numbers below `n` a frontier leaves. -/
def distance (descending : Bool) (n frontier : Nat) : Nat :=
  if descending then min frontier n else n - frontier

theorem distance_past_lt {d : Bool} {n f a : Nat} (h : Ahead d f a) (hn : a < n) :
    distance d n (past d a) < distance d n f := by
  cases d <;> simp [past, distance] at * <;> omega

theorem distance_le (d : Bool) (n f : Nat) : distance d n f ≤ n := by
  cases d <;> simp [distance]

theorem not_ahead_of_distance {d : Bool} {n f a : Nat} (h : distance d n f = 0) (hn : a < n) :
    ¬ Ahead d f a := by
  cases d <;> simp [distance] at * <;> omega

/-- An ascending list lies between its first entry and its last. -/
theorem getD_le_and_le_getD {l : List Nat} (hl : l.Pairwise (· < ·)) {a : Nat} (ha : a ∈ l) :
    l.getD 0 0 ≤ a ∧ a ≤ l.getD (l.length - 1) 0 := by
  obtain ⟨n, hn, rfl⟩ := List.mem_iff_getElem.mp ha
  have hfirst : 0 < l.length := by omega
  have hlast : l.length - 1 < l.length := by omega
  rw [← List.getElem_eq_getD (h := hfirst), ← List.getElem_eq_getD (h := hlast)]
  constructor
  · rcases Nat.eq_zero_or_pos n with rfl | hpos
    · exact Nat.le_refl _
    · exact (List.pairwise_iff_getElem.mp hl 0 n hfirst hn hpos).le
  · rcases Nat.eq_or_lt_of_le (Nat.le_sub_one_of_lt hn) with rfl | hlt
    · exact Nat.le_refl _
    · exact (List.pairwise_iff_getElem.mp hl n _ hn hlast hlt).le

/-- An ascending list stays one with a number above all of its own behind it. -/
theorem pairwise_concat {l : List Nat} {v : Nat} (h : l.Pairwise (· < ·)) (hv : ∀ a ∈ l, a < v) :
    (l ++ [v]).Pairwise (· < ·) := by
  refine List.pairwise_append.mpr ⟨h, List.pairwise_singleton _ _, fun a ha b hb => ?_⟩
  rw [List.mem_singleton.mp hb]
  exact hv a ha

/-- The walking direction applied to an ascending list. -/
def ordered (descending : Bool) (l : List Nat) : List Nat :=
  if descending then l.reverse else l

@[simp] theorem ordered_false (l : List Nat) : ordered false l = l := rfl

@[simp] theorem ordered_true (l : List Nat) : ordered true l = l.reverse := rfl

@[simp] theorem mem_ordered {d : Bool} {l : List Nat} {a : Nat} : a ∈ ordered d l ↔ a ∈ l := by
  cases d <;> simp

@[simp] theorem length_ordered (d : Bool) (l : List Nat) : (ordered d l).length = l.length := by
  cases d <;> simp

theorem pairwise_ordered {d : Bool} {l : List Nat} (h : l.Pairwise (· < ·)) :
    (ordered d l).Pairwise (Before d) := by
  cases d with
  | false => exact h.imp (fun hab => (before_false _ _).mpr hab)
  | true => exact List.pairwise_reverse.mpr (h.imp (fun hab => (before_true _ _).mpr hab))

theorem ordered_map {d : Bool} (l : List Nat) (f : Nat → Nat) :
    ordered d (l.map f) = (ordered d l).map f := by
  cases d <;> simp

/-! ## Equality of ordered lists -/

/-- Two lists in strict walking order with the same members are the same list. -/
theorem eq_of_mem_iff {d : Bool} {l l' : List Nat} (h : l.Pairwise (Before d))
    (h' : l'.Pairwise (Before d)) (hm : ∀ a, a ∈ l ↔ a ∈ l') : l = l' := by
  have hne : ∀ {a b : Nat}, Before d a b → a ≠ b := by
    rintro a b hab rfl
    exact Before.irrefl d a hab
  have hp : l.Perm l' := (List.perm_ext_iff_of_nodup (h.imp hne) (h'.imp hne)).mpr hm
  exact hp.eq_of_pairwise (fun a b _ _ hab hba => absurd hba hab.asymm) h h'

theorem eq_of_mem_iff_lt {l l' : List Nat} (h : l.Pairwise (· < ·)) (h' : l'.Pairwise (· < ·))
    (hm : ∀ a, a ∈ l ↔ a ∈ l') : l = l' :=
  eq_of_mem_iff (d := false) (h.imp (by simp)) (h'.imp (by simp)) hm

/-! ## The listing of a predicate -/

/-- The numbers below `n` with the property `p`, ascending. -/
def below (n : Nat) (p : Nat → Prop) [DecidablePred p] : List Nat :=
  (List.range n).filter (fun a => decide (p a))

variable {p q : Nat → Prop} [DecidablePred p] [DecidablePred q]

@[simp] theorem mem_below {n a : Nat} : a ∈ below n p ↔ a < n ∧ p a := by
  simp [below]

theorem pairwise_below (n : Nat) (p : Nat → Prop) [DecidablePred p] :
    (below n p).Pairwise (· < ·) :=
  (List.pairwise_lt_range (n := n)).filter _

theorem below_congr {n : Nat} (h : ∀ a, a < n → (p a ↔ q a)) : below n p = below n q := by
  refine eq_of_mem_iff_lt (pairwise_below n p) (pairwise_below n q) (fun a => ?_)
  simp only [mem_below]
  exact and_congr_right (h a)

theorem filter_eq_below {n : Nat} {l : List Nat} (hl : l.Pairwise (· < ·)) (hn : ∀ a ∈ l, a < n) :
    l.filter (fun a => decide (p a)) = below n (fun a => a ∈ l ∧ p a) := by
  refine eq_of_mem_iff_lt (hl.filter _) (pairwise_below _ _) (fun a => ?_)
  simp only [List.mem_filter, decide_eq_true_eq, mem_below]
  exact ⟨fun h => ⟨hn a h.1, h⟩, fun h => h.2⟩

theorem length_below_le (n : Nat) (p : Nat → Prop) [DecidablePred p] : (below n p).length ≤ n := by
  have h := List.length_filter_le (fun a => decide (p a)) (List.range n)
  rwa [List.length_range] at h

attribute [irreducible] below

/-! ## Pages -/

/-- Reading up to `size` entries of `l` after passing over `skip` of them: what is read, and
how much of `skip` is left when the list ends. -/
def page {α : Type} (l : List α) (skip size : Nat) : List α × Nat :=
  ((l.drop skip).take size, skip - l.length)

@[simp] theorem page_nil {α : Type} (skip size : Nat) :
    page ([] : List α) skip size = ([], skip) := by
  simp [page]

theorem page_of_length_le {α : Type} {l : List α} {skip : Nat} (size : Nat)
    (h : l.length ≤ skip) : page l skip size = ([], skip - l.length) := by
  simp [page, List.drop_eq_nil_of_le h]

theorem page_cons_succ {α : Type} (a : α) (l : List α) (skip size : Nat) :
    page (a :: l) (skip + 1) size = page l skip size := by
  simp [page]

theorem page_cons_zero {α : Type} (a : α) (l : List α) (size : Nat) :
    page (a :: l) 0 (size + 1) = (a :: (page l 0 size).1, (page l 0 size).2) := by
  simp [page]

/-- A page of `l₁ ++ l₂`: the page of `l₁`, then with what is left of `skip` and `size` the
page of `l₂`. -/
theorem page_append {α : Type} (l₁ l₂ : List α) (skip size : Nat) :
    page (l₁ ++ l₂) skip size
      = ((page l₁ skip size).1 ++
        (page l₂ (page l₁ skip size).2 (size - (page l₁ skip size).1.length)).1,
          (page l₂ (page l₁ skip size).2 (size - (page l₁ skip size).1.length)).2) := by
  simp only [page, Prod.mk.injEq]
  refine ⟨?_, by rw [List.length_append]; omega⟩
  rw [List.drop_append, List.take_append, List.length_take]
  congr 2
  rw [Nat.min_def]
  split
  · rename_i h
    have h1 : size - (l₁.drop skip).length = 0 := by omega
    rw [h1, Nat.sub_self]
  · rfl

theorem page_map {α β : Type} (f : α → β) (l : List α) (skip size : Nat) :
    page (l.map f) skip size = ((page l skip size).1.map f, (page l skip size).2) := by
  simp [page, List.map_take, List.map_drop]

end Listing
