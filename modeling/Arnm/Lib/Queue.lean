import Mathlib.Tactic

set_option autoImplicit false

/-! # Bounded queues

A bounded first-in first-out queue is what entered it so far and how much of that has left again.
Its items are the rest, the oldest first, and there are at most `limit` of them. -/

/-- What entered, oldest first, and how many of these have left. -/
structure Fifo (α : Type) (limit : Nat) where
  entered : List α
  gone : Nat
  gone_le : gone ≤ entered.length
  fits : entered.length ≤ gone + limit

namespace Fifo

variable {α : Type} {limit : Nat}

/-- What is waiting, oldest first. -/
def items (q : Fifo α limit) : List α := q.entered.drop q.gone

def empty : Fifo α limit := ⟨[], 0, Nat.le_refl _, Nat.zero_le _⟩

theorem length_items (q : Fifo α limit) : q.items.length = q.entered.length - q.gone :=
  List.length_drop

theorem length_items_le (q : Fifo α limit) : q.items.length ≤ limit := by
  have := q.fits
  rw [length_items]
  omega

/-- One more at the back, while there is room. -/
def enter (q : Fifo α limit) (room : q.items.length < limit) (x : α) : Fifo α limit where
  entered := q.entered ++ [x]
  gone := q.gone
  gone_le := by
    have := q.gone_le
    rw [List.length_append]
    omega
  fits := by
    have := q.gone_le
    rw [length_items] at room
    rw [List.length_append, List.length_singleton]
    omega

/-- The oldest leaves. -/
def leave (q : Fifo α limit) (some : q.items ≠ []) : Fifo α limit where
  entered := q.entered
  gone := q.gone + 1
  gone_le := by
    have := List.length_pos_iff.mpr some
    rw [length_items] at this
    omega
  fits := by
    have := q.fits
    omega

/-- All leave. -/
def clear (q : Fifo α limit) : Fifo α limit where
  entered := q.entered
  gone := q.entered.length
  gone_le := Nat.le_refl _
  fits := Nat.le_add_right _ _

/-- The `i`-th oldest is rewritten where it waits. -/
def rewrite (q : Fifo α limit) (i : Nat) (x : α) : Fifo α limit where
  entered := q.entered.set (q.gone + i) x
  gone := q.gone
  gone_le := by
    rw [List.length_set]
    exact q.gone_le
  fits := by
    rw [List.length_set]
    exact q.fits

@[simp] theorem items_enter (q : Fifo α limit) (room : q.items.length < limit) (x : α) :
    (q.enter room x).items = q.items ++ [x] := by
  simp only [items, enter, List.drop_append_of_le_length q.gone_le]

@[simp] theorem items_leave (q : Fifo α limit) (some : q.items ≠ []) :
    (q.leave some).items = q.items.tail := by
  simp only [items, leave, List.tail_drop]

@[simp] theorem items_clear (q : Fifo α limit) : q.clear.items = [] := by
  simp [items, clear]

@[simp] theorem items_rewrite (q : Fifo α limit) (i : Nat) (x : α) :
    (q.rewrite i x).items = q.items.set i x := by
  simp only [items, rewrite, List.drop_set, Nat.add_sub_cancel_left]
  rw [if_neg (by omega)]

end Fifo

/-! ## Places on a circle

The places of a queue that wraps once: `place limit head i` is the `i`-th place from `head` on a
circle of `limit` places. -/

namespace Circle

/-- The `i`-th place from `head`. -/
def place (limit head i : Nat) : Nat := if head + i < limit then head + i else head + i - limit

/-- The place behind `head`. -/
def next (limit head : Nat) : Nat := if head + 1 = limit then 0 else head + 1

variable {limit head : Nat}

theorem place_lt {i : Nat} (h : head < limit) (hi : i < limit) : place limit head i < limit := by
  unfold place
  split <;> omega

theorem next_lt (h : head < limit) : next limit head < limit := by
  unfold next
  split <;> omega

theorem place_inj {i j : Nat} (hi : i < limit) (hj : j < limit)
    (heq : place limit head i = place limit head j) : i = j := by
  unfold place at heq
  split at heq <;> split at heq <;> omega

/-- The places from the one behind `head`. -/
theorem place_next {i : Nat} (hi : i < limit) :
    place limit (next limit head) i = place limit head (i + 1) := by
  unfold place next
  split <;> split <;> split <;> omega

end Circle
