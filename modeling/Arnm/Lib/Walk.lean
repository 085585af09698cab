import Mathlib.Tactic

set_option autoImplicit false

/-! # Walks along links

`Walk next head l`: from `head` along `next` one meets the nodes `l` and then the end, `0`. Where
`next` keeps its links is left open. A walk depends on the links of its own nodes only; the edits
are a node put in front, the first node taken off, and a second walk hung behind the last node. -/

/-- From `head` the links `next` lead through the nodes of the list to the end. -/
inductive Walk (next : Nat → Nat) : Nat → List Nat → Prop where
  | nil : Walk next 0 []
  | cons {a : Nat} {l : List Nat} (ne : a ≠ 0) (rest : Walk next (next a) l) :
      Walk next a (a :: l)

namespace Walk

variable {next next' : Nat → Nat} {head head' a : Nat} {l l' : List Nat}

/-- Links of other nodes do not matter. -/
theorem congr (h : Walk next head l) (hsame : ∀ a ∈ l, next' a = next a) : Walk next' head l := by
  induction h with
  | nil => exact .nil
  | cons ne _ ih =>
      refine .cons ne ?_
      rw [hsame _ List.mem_cons_self]
      exact ih fun a ha => hsame a (List.mem_cons_of_mem _ ha)

theorem ne_zero (h : Walk next head l) (ha : a ∈ l) : a ≠ 0 := by
  induction h with
  | nil => cases ha
  | cons ne _ ih =>
      rcases List.mem_cons.mp ha with rfl | ha
      · exact ne
      · exact ih ha

theorem head_eq_zero_iff (h : Walk next head l) : head = 0 ↔ l = [] := by
  cases h with
  | nil => simp
  | cons ne _ => simp [ne]

/-- A head that is no end is the first node, and its link leads to the rest. -/
theorem pop (h : Walk next head l) (hne : head ≠ 0) :
    ∃ rest, l = head :: rest ∧ Walk next (next head) rest := by
  cases h with
  | nil => exact absurd rfl hne
  | cons _ rest => exact ⟨_, rfl, rest⟩

/-- A node linked to the old head is the new head. -/
theorem push (h : Walk next head l) (hne : a ≠ 0) (hlink : next' a = head)
    (hsame : ∀ b ∈ l, next' b = next b) : Walk next' a (a :: l) := by
  refine .cons hne ?_
  rw [hlink]
  exact h.congr hsame

/-- A second walk hung behind the last node of the first. -/
theorem splice (h : Walk next head (l ++ [a])) (h' : Walk next head' l')
    (hlink : next' a = head') (hsame : ∀ b ∈ l ++ l', next' b = next b) :
    Walk next' head (l ++ a :: l') := by
  induction l generalizing head with
  | nil =>
      cases h with
      | cons ne _ =>
          exact h'.push ne hlink fun b hb => hsame b hb
  | cons b l ih =>
      cases h with
      | cons ne rest =>
          refine .cons ne ?_
          rw [hsame b List.mem_cons_self]
          exact ih rest fun c hc => hsame c (List.mem_cons_of_mem _ hc)

end Walk
