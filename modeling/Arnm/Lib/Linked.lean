import Arnm.Lib.Region
import Arnm.Lib.Walk

set_option autoImplicit false

/-! # Lists linked through a byte memory

A node keeps the address of the next node in its first eight bytes; address `0` ends the list.
`Linked m head l` says that the walk from `head` meets the nodes `l`. Writing bytes apart from the
nodes' first eight leaves a list as it is; putting a node in front and taking one off are the two
edits of the walk. -/

namespace Arnm

namespace Bytes

/-- The number in the `n` bytes from `a` on, the least significant byte first. -/
def load (m : Bytes) (a : Nat) : Nat → Nat
  | 0 => 0
  | n + 1 => m.load a n + 256 ^ n * (m (a + n)).toNat

/-- Write the number `v` into the `n` bytes from `a` on. -/
def store (m : Bytes) (a n v : Nat) : Bytes :=
  fun x => if a ≤ x ∧ x < a + n then UInt8.ofNat (v / 256 ^ (x - a)) else m x

/-- A load sees only the bytes it reads. -/
theorem load_congr {m m' : Bytes} {a : Nat} :
    ∀ {n : Nat}, AgreeOn m m' ⟨a, n⟩ → m'.load a n = m.load a n
  | 0, _ => rfl
  | n + 1, h => by
      have hlast : m' (a + n) = m (a + n) := h (a + n) ⟨Nat.le_add_right _ _, by simp⟩
      have hrest : AgreeOn m m' ⟨a, n⟩ := h.within ⟨Nat.le_refl _, by simp⟩
      rw [load, load, load_congr hrest, hlast]

theorem store_apply {m : Bytes} {a n v k : Nat} (hk : k < n) :
    m.store a n v (a + k) = UInt8.ofNat (v / 256 ^ k) := by
  have hin : a ≤ a + k ∧ a + k < a + n := by omega
  simp only [store, if_pos hin, Nat.add_sub_cancel_left]

/-- A store leaves every region apart from its own bytes alone. -/
theorem store_agreeOn {m : Bytes} {a n v : Nat} {r : Region} (h : Region.Apart ⟨a, n⟩ r) :
    AgreeOn m (m.store a n v) r := by
  intro x hx
  have hout : ¬ (a ≤ x ∧ x < a + n) := fun hd => h.not_has (x := x) hd hx
  simp only [store, if_neg hout]

/-- What was stored is loaded, as far as the bytes hold it. -/
theorem load_store_mod (m : Bytes) (a n v : Nat) :
    ∀ k ≤ n, (m.store a n v).load a k = v % 256 ^ k
  | 0, _ => by simp [load, Nat.mod_one]
  | k + 1, hk => by
      rw [load, load_store_mod m a n v k (by omega), store_apply (by omega), Nat.mod_pow_succ]
      simp

theorem load_store {m : Bytes} {a n v : Nat} (hv : v < 256 ^ n) :
    (m.store a n v).load a n = v := by
  rw [load_store_mod m a n v n (Nat.le_refl n), Nat.mod_eq_of_lt hv]

end Bytes

/-- The walk from `head` along the words the nodes start with meets the nodes of the list. -/
def Linked (m : Bytes) : Nat → List Nat → Prop := Walk fun a => m.load a 8

namespace Linked

variable {m m' : Bytes} {head : Nat} {l : List Nat}

/-- The bytes of a node that its list is linked through. -/
def link (a : Nat) : Region := ⟨a, 8⟩

theorem nil : Linked m 0 [] := Walk.nil

/-- A list does not notice what is written apart from its links. -/
theorem congr (h : Linked m head l) (hag : ∀ a ∈ l, Bytes.AgreeOn m m' (link a)) :
    Linked m' head l := by
  apply Walk.congr h
  intro a ha
  exact Bytes.load_congr (hag a ha)

/-- A head that is no end is the first node, and its word leads to the rest. -/
theorem pop (h : Linked m head l) (hne : head ≠ 0) :
    ∃ rest, l = head :: rest ∧ Linked m (m.load head 8) rest := Walk.pop h hne

/-- A node that stores the old head is the new head. -/
theorem push (h : Linked m head l) {a : Nat} (hne : a ≠ 0) (hhead : head < 256 ^ 8)
    (hapart : ∀ b ∈ l, (link a).Apart (link b)) : Linked (m.store a 8 head) a (a :: l) := by
  apply Walk.push h hne
  · exact Bytes.load_store hhead
  · intro b hb
    exact Bytes.load_congr (Bytes.store_agreeOn (hapart b hb))

attribute [irreducible] Linked

end Linked

end Arnm
