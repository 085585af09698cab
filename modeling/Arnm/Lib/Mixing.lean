import Mathlib.Tactic

set_option autoImplicit false

/-! # Mixing words without loss

The steps hash functions are made of lose nothing: an xor with its own shift, a rotation, a product
with a unit. Words folded one by one into a state by a step that loses neither the state nor the
word keep apart what differs in one of them. Bytes packed into a word keep apart as well. -/

namespace Mixing

variable {w : Nat}

/-! ## Steps -/

/-- The highest bits stay, and each bit below them is told by the ones above. -/
theorem xorShift_injective {s : Nat} (hs : 0 < s) :
    Function.Injective fun x : BitVec w => x ^^^ x >>> s := by
  intro x y h
  have hbit : ∀ i, (x.getLsbD i ^^ x.getLsbD (s + i)) = (y.getLsbD i ^^ y.getLsbD (s + i)) := by
    intro i
    have hi := congrArg (fun z => BitVec.getLsbD z i) h
    simpa only [BitVec.getLsbD_xor, BitVec.getLsbD_ushiftRight] using hi
  -- downwards from the width, where there are no bits
  have hall : ∀ n i, w ≤ i + n → x.getLsbD i = y.getLsbD i := by
    intro n
    induction n with
    | zero =>
        intro i hi
        rw [BitVec.getLsbD_of_ge x i hi, BitVec.getLsbD_of_ge y i hi]
    | succ n ih =>
        intro i hi
        have habove := ih (s + i) (by omega)
        have hboth := hbit i
        rw [habove] at hboth
        exact Bool.xor_left_inj.mp hboth
  apply BitVec.eq_of_getLsbD_eq
  intro i _
  exact hall w i (Nat.le_add_left w i)

/-- A rotation to the left, as it is written with two shifts. -/
def rotl (x : BitVec w) (bits : Nat) : BitVec w := x <<< bits ||| x >>> (w - bits)

/-- Every bit is found again in the rotated word. -/
theorem getLsbD_rotl {bits : Nat} (hb : bits ≤ w) (x : BitVec w) {i : Nat} (hi : i < w) :
    (rotl x bits).getLsbD (if i + bits < w then i + bits else i + bits - w) = x.getLsbD i := by
  rw [rotl, BitVec.getLsbD_or, BitVec.getLsbD_shiftLeft, BitVec.getLsbD_ushiftRight]
  by_cases hlow : i + bits < w
  · rw [if_pos hlow, BitVec.getLsbD_of_ge x (w - bits + (i + bits)) (by omega), Nat.add_sub_cancel]
    simp [hlow]
  · rw [if_neg hlow, show w - bits + (i + bits - w) = i by omega]
    have hno : i + bits - w < bits := by omega
    simp [hno]

theorem rotl_injective {bits : Nat} (hb : bits ≤ w) :
    Function.Injective fun x : BitVec w => rotl x bits := by
  intro x y h
  have hrot : rotl x bits = rotl y bits := h
  apply BitVec.eq_of_getLsbD_eq
  intro i hi
  rw [← getLsbD_rotl hb x hi, hrot, getLsbD_rotl hb y hi]

/-- A word added to another, then rotated and joined to the sum. -/
theorem addRotlXor_inj {bits : Nat} (hb : bits ≤ w) {a b a' b' : BitVec w} (hsum : a + b = a' + b')
    (hmix : rotl b bits ^^^ (a + b) = rotl b' bits ^^^ (a' + b')) : a = a' ∧ b = b' := by
  rw [hsum] at hmix
  have hword : b = b' := rotl_injective hb ((BitVec.xor_left_inj _).mp hmix)
  rw [hword] at hsum
  exact ⟨(BitVec.add_left_inj b').mp hsum, hword⟩

theorem mul_injective {k k' : BitVec w} (h : k * k' = 1#w) :
    Function.Injective fun x : BitVec w => x * k := by
  intro x y hxy
  have hback : x * k * k' = y * k * k' := congrArg (· * k') hxy
  rwa [BitVec.mul_assoc, BitVec.mul_assoc, h, BitVec.mul_one, BitVec.mul_one] at hback

/-! ## Folds -/

section Folds

variable {α σ : Type} {step : σ → α → σ}

/-- What comes behind keeps two states apart. -/
theorem foldl_injective (hstate : ∀ a, Function.Injective fun s => step s a) (l : List α) :
    Function.Injective fun s => l.foldl step s := by
  induction l with
  | nil => exact fun _ _ h => h
  | cons a l ih => exact fun _ _ h => hstate a (ih h)

/-- Two lists that differ in one entry lead to different states. -/
theorem foldl_ne (hstate : ∀ a, Function.Injective fun s => step s a)
    (hword : ∀ s, Function.Injective fun a => step s a) {l l' : List α} {k : Nat} {a a' : α}
    (hk : l[k]? = some a) (hk' : l'[k]? = some a') (hne : a ≠ a')
    (hsame : ∀ i, i ≠ k → l[i]? = l'[i]?) (s : σ) :
    l.foldl step s ≠ l'.foldl step s := by
  -- the lists are one list with two entries at `k`: alike before it, alike behind it
  have hset : l' = l.set k a' := by
    apply List.ext_getElem?
    intro i
    rw [List.getElem?_set]
    by_cases hi : k = i
    · subst hi
      rw [if_pos rfl, if_pos (List.getElem?_eq_some_iff.mp hk).1, hk']
    · rw [if_neg hi, hsame i (fun h => hi h.symm)]
  obtain ⟨hlt, hget⟩ := List.getElem?_eq_some_iff.mp hk
  rw [hset, List.set_eq_take_cons_drop a' hlt]
  conv_lhs => rw [← List.take_append_drop k l, List.drop_eq_getElem_cons hlt, hget]
  rw [List.foldl_append, List.foldl_append, List.foldl_cons, List.foldl_cons]
  intro h
  exact hne (hword _ (foldl_injective hstate _ h))

end Folds

/-! ## Bytes -/

/-- Bytes as a word of `8 * n` bits, the least significant first. -/
def pack (w : Nat) : List UInt8 → BitVec w
  | [] => 0#w
  | b :: rest => b.toBitVec.setWidth w ||| pack w rest <<< 8

/-- Every bit of a word is one of its bytes'. -/
theorem getLsbD_pack (w : Nat) :
    ∀ (l : List UInt8) {i : Nat}, i < w →
      (pack w l).getLsbD i = (l.getD (i / 8) 0).toBitVec.getLsbD (i % 8)
  | [], i, _ => by
      rw [pack, BitVec.getLsbD_zero]
      simp
  | b :: rest, i, hi => by
      rw [pack, BitVec.getLsbD_or, BitVec.getLsbD_setWidth, BitVec.getLsbD_shiftLeft]
      by_cases hlow : i < 8
      · rw [show i / 8 = 0 by omega, show i % 8 = i by omega]
        simp [hlow, hi]
      · rw [show i / 8 = (i - 8) / 8 + 1 by omega, List.getD_cons_succ,
          show i % 8 = (i - 8) % 8 by omega,
          ← getLsbD_pack w rest (show i - 8 < w by omega),
            BitVec.getLsbD_of_ge _ i (Nat.le_of_not_lt hlow)]
        simp [hlow, hi]

theorem pack_injective {l l' : List UInt8} (hlen : l.length = l'.length) (hw : 8 * l.length ≤ w)
    (h : pack w l = pack w l') : l = l' := by
  apply List.ext_getElem hlen
  intro j hj hj'
  apply UInt8.toBitVec_inj.mp
  apply BitVec.eq_of_getLsbD_eq
  intro t ht
  have hbit := congrArg (fun z => BitVec.getLsbD z (8 * j + t)) h
  rw [getLsbD_pack w l (by omega), getLsbD_pack w l' (by omega), show (8 * j + t) / 8 = j by omega,
    show (8 * j + t) % 8 = t by omega, List.getD_eq_getElem?_getD, List.getElem?_eq_getElem hj,
    List.getD_eq_getElem?_getD, List.getElem?_eq_getElem hj'] at hbit
  exact hbit

end Mixing
