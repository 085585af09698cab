import Arnm.Lib.Pointers
import Mathlib.Data.List.GetD

set_option autoImplicit false

/-! # Writes that follow each other

A loop that writes a buffer from front to back, or from back to front, has written what it wrote one
after the other (`put_put`, `put_put_before`), and filling the buffer undoes all of it (`fill_put`).
-/

namespace Arnm.Bytes

theorem put_apply_of_not {m : Bytes} {addr x : Nat} {values : List UInt8}
    (h : ¬ (addr ≤ x ∧ x < addr + values.length)) : m.put addr values x = m x := if_neg h

@[simp] theorem put_nil (m : Bytes) (addr : Nat) : m.put addr [] = m := by
  funext x
  exact put_apply_of_not fun hin => absurd hin.2 (Nat.not_lt.mpr hin.1)

/-- A second run right behind the first. -/
theorem put_put (m : Bytes) (addr : Nat) (values more : List UInt8) :
    (m.put addr values).put (addr + values.length) more = m.put addr (values ++ more) := by
  funext x
  unfold put
  rw [List.length_append]
  by_cases hlow : addr ≤ x ∧ x < addr + values.length
  · rw [if_neg (by omega), if_pos hlow, if_pos (by omega),
      List.getD_append _ _ _ _ (show x - addr < values.length by omega)]
  by_cases hhigh : addr + values.length ≤ x ∧ x < addr + values.length + more.length
  · rw [if_pos hhigh, if_pos (by omega),
      List.getD_append_right _ _ _ _ (show values.length ≤ x - addr by omega)]
    congr 1
    omega
  · rw [if_neg hhigh, if_neg hlow, if_neg (by omega)]

/-- A second run right in front of the first. -/
theorem put_put_before (m : Bytes) (addr : Nat) (values more : List UInt8) :
    (m.put (addr + values.length) more).put addr values = m.put addr (values ++ more) := by
  rw [← put_put]
  funext x
  by_cases hlow : addr ≤ x ∧ x < addr + values.length
  · rw [put_apply_of_not (m := m.put addr values) (by omega)]
    exact (if_pos hlow).trans (if_pos hlow).symm
  · rw [put_apply_of_not hlow]
    unfold put
    rw [if_neg hlow]

/-- A run written over a part of itself. -/
theorem put_put_within {m : Bytes} {addr offset : Nat} {values more : List UInt8}
    (h : offset + values.length ≤ more.length) :
    (m.put (addr + offset) values).put addr more = m.put addr more := by
  funext x
  by_cases hin : addr ≤ x ∧ x < addr + more.length
  · exact (if_pos hin).trans (if_pos hin).symm
  · rw [put_apply_of_not hin, put_apply_of_not hin, put_apply_of_not (by omega)]

/-- What was written is filled over. -/
theorem fill_put {m : Bytes} {addr offset n : Nat} {b : UInt8} {values : List UInt8}
    (h : offset + values.length ≤ n) :
    (m.put (addr + offset) values).fill addr n b = m.fill addr n b :=
  put_put_within (by rwa [List.length_replicate])

theorem read_succ (m : Bytes) (addr n : Nat) :
    m.read addr (n + 1) = m addr :: m.read (addr + 1) n := by
  rw [Nat.add_comm n 1, read_add]
  rfl

end Arnm.Bytes
