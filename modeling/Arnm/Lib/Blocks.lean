import Mathlib.Tactic

set_option autoImplicit false

/-! # Lists kept in blocks

A list is kept as blocks that follow each other, of which only the lengths are looked at to find an
entry (`locate`). What stands in front of the entry and behind it are then whole blocks and a part
of one. -/

namespace Blocks

variable {α : Type}

/-- Passes over whole blocks as long as the rank lies behind them: the block of the rank, and the
rank in it. `fuel` bounds the blocks. -/
def locate (size : Nat → Nat) : Nat → Nat → Nat → Nat × Nat
  | 0, i, rank => (i, rank)
  | fuel + 1, i, rank =>
      if rank < size i then (i, rank) else locate size fuel (i + 1) (rank - size i)

/-- The blocks in front of the `i`-th. -/
def before (f : Nat → List α) (i : Nat) : List α := (List.range i).flatMap f

/-- The blocks behind the `i`-th, of `n`. -/
def behind (f : Nat → List α) (n i : Nat) : List α := (List.range' (i + 1) (n - (i + 1))).flatMap f

theorem before_succ (f : Nat → List α) (i : Nat) : before f (i + 1) = before f i ++ f i := by
  rw [before, List.range_succ, List.flatMap_append, List.flatMap_singleton]
  rfl

/-- What is made of the entry at an index of a list, as a block. -/
def entryAt {β : Type} (g : β → List α) (l : List β) (i : Nat) : List α :=
  match l[i]? with
  | some b => g b
  | none => []

/-- The blocks made of the entries in front of an index. -/
theorem before_entryAt {β : Type} (g : β → List α) (l : List β) (i : Nat) :
    before (entryAt g l) i = (l.take i).flatMap g := by
  induction i with
  | zero => rfl
  | succ i ih =>
      rw [before_succ, ih, List.take_add_one, List.flatMap_append, entryAt]
      cases l[i]? with
      | none => rfl
      | some b => exact congrArg _ (List.flatMap_singleton g b).symm

/-- A block is where it is among the others. -/
theorem before_split (f : Nat → List α) {n i : Nat} (h : i < n) :
    before f n = before f i ++ f i ++ behind f n i := by
  have hrange : List.range n = List.range (i + 1) ++ List.range' (i + 1) (n - (i + 1)) := by
    have happend := List.range'_append_1 (s := 0) (m := i + 1) (n := n - (i + 1))
    rw [Nat.zero_add, show i + 1 + (n - (i + 1)) = n by omega] at happend
    rw [List.range_eq_range', List.range_eq_range', happend]
  rw [before, hrange, List.flatMap_append, ← before, before_succ]
  rfl

theorem behind_eq_nil (f : Nat → List α) {n i : Nat} (h : n ≤ i + 1) : behind f n i = [] := by
  rw [behind, show n - (i + 1) = 0 by omega]
  rfl

theorem behind_eq (f : Nat → List α) {n i : Nat} (h : i + 1 < n) :
    behind f n i = f (i + 1) ++ behind f n (i + 1) := by
  rw [behind, show n - (i + 1) = n - (i + 1 + 1) + 1 by omega, List.range'_succ, List.flatMap_cons]
  rfl

/-- The block of a rank: all blocks in front of it are passed over. -/
theorem locate_spec {f : Nat → List α} {size : Nat → Nat} {n : Nat}
    (hsize : ∀ i < n, size i = (f i).length) :
    ∀ (fuel i rank : Nat), i + fuel = n → (before f i).length + rank < (before f n).length →
      (locate size fuel i rank).1 < n ∧
        (locate size fuel i rank).2 < (f (locate size fuel i rank).1).length ∧
        (before f (locate size fuel i rank).1).length + (locate size fuel i rank).2 =
          (before f i).length + rank := by
  intro fuel
  induction fuel with
  | zero =>
      intro i rank hi hlt
      rw [← hi, Nat.add_zero] at hlt
      omega
  | succ fuel ih =>
      intro i rank hi hlt
      rw [locate, hsize i (by omega)]
      by_cases hhere : rank < (f i).length
      · rw [if_pos hhere]
        exact ⟨by omega, hhere, rfl⟩
      · rw [if_neg hhere]
        have hnext : (before f (i + 1)).length = (before f i).length + (f i).length := by
          rw [before_succ, List.length_append]
        have h := ih (i + 1) (rank - (f i).length) (by omega) (by omega)
        refine ⟨h.1, h.2.1, ?_⟩
        rw [h.2.2]
        omega

section

variable {f : Nat → List α} {n i r rank : Nat} (hi : i < n) (hr : r < (f i).length)
  (hrank : (before f i).length + r = rank)

include hi hr hrank

/-- The entry at a rank. -/
theorem getElem?_located : (before f n)[rank]? = (f i)[r]? := by
  rw [before_split f hi, List.append_assoc, ← hrank,
    List.getElem?_append_right (Nat.le_add_right _ _),
    Nat.add_sub_cancel_left, List.getElem?_append_left hr]

/-- What stands at a rank and behind it. -/
theorem drop_located : (before f n).drop rank = (f i).drop r ++ behind f n i := by
  calc (before f n).drop rank
      = (before f i ++ (f i ++ behind f n i)).drop ((before f i).length + r) := by
        rw [before_split f hi, List.append_assoc, hrank]
    _ = (f i ++ behind f n i).drop r := List.drop_length_add_append _
    _ = (f i).drop r ++ behind f n i := List.drop_append_of_le_length (Nat.le_of_lt hr)

/-- What stands in front of a rank and at it. -/
theorem take_located : (before f n).take (rank + 1) = before f i ++ (f i).take (r + 1) := by
  calc (before f n).take (rank + 1)
      = (before f i ++ (f i ++ behind f n i)).take ((before f i).length + (r + 1)) := by
        rw [before_split f hi, List.append_assoc, ← hrank, Nat.add_assoc]
    _ = before f i ++ (f i ++ behind f n i).take (r + 1) := List.take_length_add_append _
    _ = before f i ++ (f i).take (r + 1) := by rw [List.take_append_of_le_length (by omega)]

end

/-- A list that is written in two parts: the second one only if the first did not fill the page. -/
theorem take_append_stop (first second : List α) (size : Nat) :
    (if (first.take size).length = size then first.take size
      else first.take size ++ second.take (size - (first.take size).length)) =
      (first ++ second).take size := by
  rw [List.take_append]
  by_cases hfull : (first.take size).length = size
  · rw [if_pos hfull]
    rw [List.length_take] at hfull
    rw [show size - first.length = 0 by omega, List.take_zero, List.append_nil]
  · rw [if_neg hfull]
    rw [List.length_take] at hfull ⊢
    congr 2
    omega

end Blocks
