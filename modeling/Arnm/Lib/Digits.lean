import Mathlib.Tactic
import Mathlib.Data.Nat.Digits.Lemmas

set_option autoImplicit false

/-! # Digits side by side in a word

A word can be read as digits of some width, and an operation on the word as one on every digit at
once, where no digit runs over into the next. `repeated` is the word with the same digit everywhere,
a mask or a multiplier: a mask cuts each digit, and the product with the ones has the sum of all
digits on top. -/

namespace Digits

/-- The word of `n` digits that are all the same. -/
def repeated (base digit n : Nat) : Nat := Nat.ofDigits base (List.replicate n digit)

theorem repeated_succ (base digit n : Nat) :
    repeated base digit (n + 1) = digit + base * repeated base digit n := by
  rw [repeated, List.replicate_succ, Nat.ofDigits_cons, repeated]

/-! ## Digit by digit -/

section Map

variable {base : Nat} (f g : Nat → Nat) (l : List Nat)

theorem ofDigits_map_add :
    Nat.ofDigits base (l.map f) + Nat.ofDigits base (l.map g) =
      Nat.ofDigits base (l.map fun d => f d + g d) := by
  induction l with
  | nil => rfl
  | cons d l ih =>
      simp only [List.map_cons, Nat.ofDigits_cons, ← ih]
      ring

theorem ofDigits_map_sub (h : ∀ d ∈ l, g d ≤ f d) :
    Nat.ofDigits base (l.map f) - Nat.ofDigits base (l.map g) =
      Nat.ofDigits base (l.map fun d => f d - g d) := by
  apply Nat.sub_eq_of_eq_add
  rw [ofDigits_map_add]
  congr 1
  apply List.map_congr_left
  intro d hd
  exact (Nat.sub_add_cancel (h d hd)).symm

end Map

/-! ## Masks -/

/-- A bitwise and of two digits with what is above them. -/
theorem and_add_mul {w a m : Nat} (ha : a < 2 ^ w) (hm : m < 2 ^ w) (b c : Nat) :
    (a + 2 ^ w * b) &&& (m + 2 ^ w * c) = (a &&& m) + 2 ^ w * (b &&& c) := by
  have hand : a &&& m < 2 ^ w := Nat.and_lt_two_pow a hm
  apply Nat.eq_of_testBit_eq
  intro i
  rw [Nat.testBit_and, Nat.add_comm a, Nat.add_comm m, Nat.add_comm (a &&& m),
    Nat.testBit_two_pow_mul_add b ha, Nat.testBit_two_pow_mul_add c hm,
    Nat.testBit_two_pow_mul_add (b &&& c) hand]
  by_cases hi : i < w
  · rw [if_pos hi, if_pos hi, if_pos hi, Nat.testBit_and]
  · rw [if_neg hi, if_neg hi, if_neg hi, Nat.testBit_and]

/-- A shift moves bits of a digit into the one below; a mask that leaves out that many bits on top
of each digit drops them. -/
theorem shiftRight_and_repeated {w s mask : Nat} (hs : s ≤ w) (hmask : mask < 2 ^ (w - s))
    {l : List Nat} (hl : ∀ d ∈ l, d < 2 ^ w) :
    (Nat.ofDigits (2 ^ w) l >>> s) &&& repeated (2 ^ w) mask l.length =
      Nat.ofDigits (2 ^ w) (l.map fun d => d >>> s &&& mask) := by
  induction l with
  | nil =>
      show 0 >>> s &&& 0 = 0
      rw [Nat.and_zero]
  | cons d l ih =>
      have hd := hl d List.mem_cons_self
      have htail := ih fun e he => hl e (List.mem_cons_of_mem d he)
      have hsplit : 2 ^ w = 2 ^ s * 2 ^ (w - s) := by rw [← pow_add, Nat.add_sub_cancel' hs]
      have hwide : mask < 2 ^ w :=
        hmask.trans_le (Nat.pow_le_pow_right (by decide) (Nat.sub_le w s))
      generalize hr : Nat.ofDigits (2 ^ w) l = rest at htail
      -- the lowest digit of the shifted word: what is left of `d`, and the bits from above
      have hshift : (d + 2 ^ w * rest) >>> s =
          (d >>> s + 2 ^ (w - s) * (rest % 2 ^ s)) + 2 ^ w * (rest >>> s) := by
        rw [Nat.shiftRight_eq_div_pow, Nat.shiftRight_eq_div_pow, Nat.shiftRight_eq_div_pow]
        have hdiv : (d + 2 ^ w * rest) / 2 ^ s = d / 2 ^ s + 2 ^ (w - s) * rest := by
          rw [hsplit, Nat.mul_assoc, Nat.add_mul_div_left _ _ (Nat.two_pow_pos s)]
        have hrest : 2 ^ (w - s) * rest =
            2 ^ (w - s) * (rest % 2 ^ s) + 2 ^ w * (rest / 2 ^ s) := by
          conv_lhs => rw [← Nat.mod_add_div rest (2 ^ s)]
          rw [hsplit]
          ring
        rw [hdiv, hrest, Nat.add_assoc]
      have hlow : d >>> s < 2 ^ (w - s) := by
        rw [Nat.shiftRight_eq_div_pow]
        apply Nat.div_lt_of_lt_mul
        rwa [← hsplit]
      have hdigit : d >>> s + 2 ^ (w - s) * (rest % 2 ^ s) < 2 ^ w := by
        have hmod : rest % 2 ^ s + 1 ≤ 2 ^ s := Nat.mod_lt rest (Nat.two_pow_pos s)
        calc d >>> s + 2 ^ (w - s) * (rest % 2 ^ s)
            < 2 ^ (w - s) + 2 ^ (w - s) * (rest % 2 ^ s) := Nat.add_lt_add_right hlow _
          _ = 2 ^ (w - s) * (rest % 2 ^ s + 1) := by ring
          _ ≤ 2 ^ (w - s) * 2 ^ s := Nat.mul_le_mul_left _ hmod
          _ = 2 ^ w := by rw [hsplit, Nat.mul_comm]
      have hcut : (d >>> s + 2 ^ (w - s) * (rest % 2 ^ s)) &&& mask = d >>> s &&& mask := by
        have hand := and_add_mul hlow hmask (rest % 2 ^ s) 0
        rwa [Nat.mul_zero, Nat.add_zero, Nat.and_zero, Nat.mul_zero, Nat.add_zero] at hand
      rw [Nat.ofDigits_cons, List.length_cons, repeated_succ, hr, hshift, List.map_cons,
        Nat.ofDigits_cons]
      rw [and_add_mul hdigit hwide, hcut, htail]

/-- A digit added to its own upper part, under a mask of the lower part. Both parts are small enough
that the sum of two stays below the middle, so nothing runs over. -/
theorem add_shiftRight_and_repeated {h small : Nat} (hsmall : 2 * small < 2 ^ h) {l : List Nat}
    (hl : ∀ d ∈ l, d % 2 ^ h ≤ small ∧ d / 2 ^ h ≤ small) :
    (Nat.ofDigits (2 ^ (h + h)) l + Nat.ofDigits (2 ^ (h + h)) l >>> h) &&&
        repeated (2 ^ (h + h)) (2 ^ h - 1) l.length =
      Nat.ofDigits (2 ^ (h + h)) (l.map fun d => d % 2 ^ h + d / 2 ^ h) := by
  induction l with
  | nil =>
      show (0 + 0 >>> h) &&& 0 = 0
      rw [Nat.and_zero]
  | cons d l ih =>
      have htail := ih fun e he => hl e (List.mem_cons_of_mem d he)
      obtain ⟨hlow, hhigh⟩ := hl d List.mem_cons_self
      have hpow : 2 ^ (h + h) = 2 ^ h * 2 ^ h := pow_add 2 h h
      have hnext : Nat.ofDigits (2 ^ (h + h)) l % 2 ^ h ≤ small := by
        cases l with
        | nil => exact Nat.zero_le small
        | cons e l =>
            have he := (hl e (List.mem_cons_of_mem d List.mem_cons_self)).1
            rw [Nat.ofDigits_cons, hpow, Nat.mul_assoc, Nat.add_mul_mod_self_left]
            exact he
      generalize hr : Nat.ofDigits (2 ^ (h + h)) l = rest at htail hnext
      have hparts := Nat.mod_add_div d (2 ^ h)
      have hrest := Nat.mod_add_div rest (2 ^ h)
      have hshift : (d + 2 ^ (h + h) * rest) >>> h = d / 2 ^ h + 2 ^ h * rest := by
        rw [Nat.shiftRight_eq_div_pow, hpow, Nat.mul_assoc,
          Nat.add_mul_div_left _ _ (Nat.two_pow_pos h)]
      -- the lowest digit of the sum, in its two parts
      have hsum : d + 2 ^ (h + h) * rest + (d / 2 ^ h + 2 ^ h * rest) =
          ((d % 2 ^ h + d / 2 ^ h) + 2 ^ h * (d / 2 ^ h + rest % 2 ^ h)) +
            2 ^ (h + h) * (rest + rest >>> h) := by
        rw [Nat.shiftRight_eq_div_pow, hpow]
        calc d + 2 ^ h * 2 ^ h * rest + (d / 2 ^ h + 2 ^ h * rest)
            = (d % 2 ^ h + 2 ^ h * (d / 2 ^ h)) + 2 ^ h * 2 ^ h * rest +
                (d / 2 ^ h + 2 ^ h * (rest % 2 ^ h + 2 ^ h * (rest / 2 ^ h))) := by
              rw [hparts, hrest]
          _ = _ := by ring
      have hfirst : d % 2 ^ h + d / 2 ^ h < 2 ^ h := by omega
      have hsecond : d / 2 ^ h + rest % 2 ^ h + 1 ≤ 2 ^ h := by omega
      have hdigit : (d % 2 ^ h + d / 2 ^ h) + 2 ^ h * (d / 2 ^ h + rest % 2 ^ h) < 2 ^ (h + h) := by
        calc (d % 2 ^ h + d / 2 ^ h) + 2 ^ h * (d / 2 ^ h + rest % 2 ^ h)
            < 2 ^ h + 2 ^ h * (d / 2 ^ h + rest % 2 ^ h) := Nat.add_lt_add_right hfirst _
          _ = 2 ^ h * (d / 2 ^ h + rest % 2 ^ h + 1) := by ring
          _ ≤ 2 ^ h * 2 ^ h := Nat.mul_le_mul_left _ hsecond
          _ = 2 ^ (h + h) := hpow.symm
      have hmask : 2 ^ h - 1 < 2 ^ (h + h) := by
        have hle : 2 ^ h ≤ 2 ^ (h + h) := Nat.pow_le_pow_right (by decide) (Nat.le_add_right h h)
        have hpos := Nat.two_pow_pos h
        omega
      have hcut : (d % 2 ^ h + d / 2 ^ h) + 2 ^ h * (d / 2 ^ h + rest % 2 ^ h) &&& 2 ^ h - 1 =
          d % 2 ^ h + d / 2 ^ h := by
        rw [Nat.and_two_pow_sub_one_eq_mod, Nat.add_mul_mod_self_left, Nat.mod_eq_of_lt hfirst]
      rw [Nat.ofDigits_cons, List.length_cons, repeated_succ, hr, hshift, hsum, List.map_cons,
        Nat.ofDigits_cons]
      rw [and_add_mul hdigit hmask, hcut, htail]

/-! ## The sum of the digits -/

/-- The ones filled up to the base. -/
theorem repeated_one (base n : Nat) (hbase : 0 < base) :
    (base - 1) * repeated base 1 n + 1 = base ^ n := by
  induction n with
  | zero => rw [repeated, List.replicate_zero, Nat.ofDigits_nil, Nat.mul_zero, Nat.pow_zero]
  | succ n ih =>
      rw [repeated_succ, Nat.pow_succ', ← ih]
      obtain ⟨b, rfl⟩ := Nat.exists_eq_add_of_lt hbase
      rw [show 0 + b + 1 - 1 = b by omega]
      ring

theorem repeated_last (base n : Nat) :
    repeated base 1 (n + 1) = repeated base 1 n + base ^ n := by
  rw [repeated, List.replicate_succ', Nat.ofDigits_append, Nat.ofDigits_singleton,
    List.length_replicate, Nat.mul_one, repeated]

/-- The product with the ones, up to the top digit: the sum of all digits stands there, and below it
is less than a carry. -/
theorem mul_repeated_one {base : Nat} (hbase : 0 < base) :
    ∀ (l : List Nat) (n : Nat), l.length = n + 1 → l.sum < base →
      ∃ below, below ≤ l.sum * repeated base 1 n ∧
        (Nat.ofDigits base l * repeated base 1 (n + 1)) % base ^ (n + 1) = below + base ^ n * l.sum
  | [], n, hlen, _ => absurd hlen (Nat.succ_ne_zero n).symm
  | [d], 0, _, hsum => by
      refine ⟨0, Nat.zero_le _, ?_⟩
      rw [List.sum_singleton] at hsum ⊢
      have hone : repeated base 1 (0 + 1) = 1 := by
        rw [repeated_succ, repeated, List.replicate_zero, Nat.ofDigits_nil, Nat.mul_zero]
      calc Nat.ofDigits base [d] * repeated base 1 (0 + 1) % base ^ (0 + 1)
          = d % base := by rw [Nat.ofDigits_singleton, hone, Nat.mul_one, Nat.zero_add, Nat.pow_one]
        _ = d := Nat.mod_eq_of_lt hsum
        _ = 0 + base ^ 0 * d := by rw [Nat.pow_zero, Nat.one_mul, Nat.zero_add]
  | d :: e :: l, 0, hlen, _ => by cases hlen
  | d :: l, n + 1, hlen, hsum => by
      rw [List.length_cons, Nat.add_right_cancel_iff] at hlen
      rw [List.sum_cons] at hsum ⊢
      obtain ⟨below, hbelow, hprod⟩ := mul_repeated_one hbase l n hlen (by omega)
      -- the lowest digit adds itself to each digit of the rest's product
      have hones := repeated_last base (n + 1)
      have hlow : d * repeated base 1 (n + 1) + base * below ≤
          (d + l.sum) * repeated base 1 (n + 1) := by
        calc d * repeated base 1 (n + 1) + base * below
            ≤ d * repeated base 1 (n + 1) + base * (l.sum * repeated base 1 n) :=
              Nat.add_le_add_left (Nat.mul_le_mul_left base hbelow) _
          _ ≤ d * repeated base 1 (n + 1) + l.sum * (1 + base * repeated base 1 n) := by
              apply Nat.add_le_add_left
              rw [Nat.mul_add, Nat.mul_left_comm]
              exact Nat.le_add_left _ _
          _ = (d + l.sum) * repeated base 1 (n + 1) := by
              rw [← repeated_succ, Nat.add_mul]
      refine ⟨d * repeated base 1 (n + 1) + base * below, hlow, ?_⟩
      have hfull := repeated_one base (n + 1) hbase
      have hless : d * repeated base 1 (n + 1) + base * below < base ^ (n + 1) := by
        have hle : (d + l.sum) * repeated base 1 (n + 1) ≤ (base - 1) * repeated base 1 (n + 1) :=
          Nat.mul_le_mul_right _ (by omega)
        omega
      have hsplit :=
        Nat.mod_add_div (Nat.ofDigits base l * repeated base 1 (n + 1)) (base ^ (n + 1))
      rw [hprod] at hsplit
      rw [Nat.ofDigits_cons, hones]
      have htotal : (d + base * Nat.ofDigits base l) * (repeated base 1 (n + 1) + base ^ (n + 1)) =
          (d * repeated base 1 (n + 1) + base * below + base ^ (n + 1) * (d + l.sum)) +
            base ^ (n + 1 + 1) * (Nat.ofDigits base l * repeated base 1 (n + 1) / base ^ (n + 1) +
              Nat.ofDigits base l) := by
        calc (d + base * Nat.ofDigits base l) * (repeated base 1 (n + 1) + base ^ (n + 1))
            = d * repeated base 1 (n + 1) + d * base ^ (n + 1) +
                base * (Nat.ofDigits base l * repeated base 1 (n + 1)) +
                base ^ (n + 1 + 1) * Nat.ofDigits base l := by ring
          _ = d * repeated base 1 (n + 1) + d * base ^ (n + 1) +
                base * (below + base ^ n * l.sum + base ^ (n + 1) *
                  (Nat.ofDigits base l * repeated base 1 (n + 1) / base ^ (n + 1))) +
                base ^ (n + 1 + 1) * Nat.ofDigits base l := by rw [hsplit]
          _ = _ := by ring
      rw [htotal, Nat.add_mul_mod_self_left, Nat.mod_eq_of_lt]
      calc d * repeated base 1 (n + 1) + base * below + base ^ (n + 1) * (d + l.sum)
          < base ^ (n + 1) + base ^ (n + 1) * (d + l.sum) := Nat.add_lt_add_right hless _
        _ = base ^ (n + 1) * (d + l.sum + 1) := by ring
        _ ≤ base ^ (n + 1) * base := Nat.mul_le_mul_left _ hsum
        _ = base ^ (n + 1 + 1) := (Nat.pow_succ base (n + 1)).symm

/-- The top digit of the product with the ones is the sum of the digits. -/
theorem top_mul_repeated_one {base : Nat} (hbase : 0 < base) {l : List Nat} {n : Nat}
    (hlen : l.length = n + 1) (hsum : l.sum < base) :
    (Nat.ofDigits base l * repeated base 1 (n + 1)) % base ^ (n + 1) / base ^ n = l.sum := by
  obtain ⟨below, hbelow, hprod⟩ := mul_repeated_one hbase l n hlen hsum
  have hfull := repeated_one base n hbase
  have hless : below < base ^ n := by
    have hle : l.sum * repeated base 1 n ≤ (base - 1) * repeated base 1 n :=
      Nat.mul_le_mul_right _ (by omega)
    omega
  rw [hprod, Nat.add_mul_div_left _ _ (Nat.pow_pos hbase), Nat.div_eq_of_lt hless, Nat.zero_add]

end Digits
