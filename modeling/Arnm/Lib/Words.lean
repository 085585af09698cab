import Arnm.Lib.Listing
import Arnm.Lib.Masks

set_option autoImplicit false

/-! # Sets of numbers in 64 bit words

A word holds the numbers of its set bits (`bits`), an array of words the numbers
`64 * w + b` for bit `b` of word `w` (`Words.Has`). Counting, isolating and clearing bits are
read as operations on these lists: `cpop` is the length of `bits`, `ctz` its first entry and
`63 - clz` its last.
-/

namespace Words

open Listing

/-! ## The bits of one word -/

/-- The set bits of a word, ascending. -/
def bits (w : BitVec 64) : List Nat := below 64 (fun i => w.getLsbD i = true)

@[simp] theorem mem_bits {w : BitVec 64} {i : Nat} : i ∈ bits w ↔ w.getLsbD i = true := by
  rw [bits, mem_below]
  refine ⟨fun h => h.2, fun h => ⟨?_, h⟩⟩
  by_contra hc
  rw [BitVec.getLsbD_of_ge w i (by omega)] at h
  cases h

theorem pairwise_bits (w : BitVec 64) : (bits w).Pairwise (· < ·) := pairwise_below _ _

theorem lt_of_mem_bits {w : BitVec 64} {i : Nat} (h : i ∈ bits w) : i < 64 :=
  (mem_below.mp h).1

/-- The population count is the number of set bits. -/
theorem toNat_cpop_eq_length (w : BitVec 64) : w.cpop.toNat = (bits w).length :=
  Masks.toNat_cpop w

theorem bits_eq_nil {w : BitVec 64} : bits w = [] ↔ w = 0#64 := by
  constructor
  · intro h
    refine BitVec.eq_of_getLsbD_eq (fun i _ => ?_)
    have hi : i ∉ bits w := by rw [h]; simp
    simpa using hi
  · rintro rfl
    exact List.eq_nil_iff_forall_not_mem.mpr (fun i hi => by simp at hi)

/-- Only the bit `b` of the word `1 << b` is set. -/
theorem getLsbD_one_shiftLeft {b : Nat} (hb : b < 64) (i : Nat) :
    (1#64 <<< b).getLsbD i = decide (i = b) := Masks.getLsbD_one_shiftLeft hb i

theorem getLsbD_set_bit (w : BitVec 64) {b : Nat} (hb : b < 64) (i : Nat) :
    (w ||| 1#64 <<< b).getLsbD i = (w.getLsbD i || decide (i = b)) := by
  rw [BitVec.getLsbD_or, getLsbD_one_shiftLeft hb]

theorem getLsbD_clear_bit (w : BitVec 64) {b : Nat} (hb : b < 64) (i : Nat) :
    (w &&& ~~~(1#64 <<< b)).getLsbD i = (w.getLsbD i && !decide (i = b)) := by
  rw [BitVec.getLsbD_and, BitVec.getLsbD_not, getLsbD_one_shiftLeft hb]
  by_cases hi : i < 64
  · simp [hi]
  · rw [BitVec.getLsbD_of_ge w i (by omega)]
    simp

theorem toNat_ctz_lt {w : BitVec 64} (h : w ≠ 0#64) : w.ctz.toNat < 64 := by
  have := BitVec.ctz_lt_iff_ne_zero.mpr h
  simpa [BitVec.lt_def] using this

theorem ctz_le_of_mem {w : BitVec 64} {i : Nat} (h : i ∈ bits w) : w.ctz.toNat ≤ i := by
  by_contra hc
  rw [mem_bits, BitVec.getLsbD_false_of_lt_ctz (by omega)] at h
  cases h

/-- The lowest set bit first, then the bits of the word without it. -/
theorem bits_eq_ctz_cons {w : BitVec 64} (h : w ≠ 0#64) :
    bits w = w.ctz.toNat :: bits (w &&& ~~~(1#64 <<< w.ctz.toNat)) := by
  refine eq_of_mem_iff_lt (pairwise_bits _) (List.pairwise_cons.mpr ⟨?_, pairwise_bits _⟩) ?_
  · intro i hi
    rw [mem_bits, getLsbD_clear_bit w (toNat_ctz_lt h)] at hi
    simp only [Bool.and_eq_true, Bool.not_eq_true', decide_eq_false_iff_not] at hi
    have := ctz_le_of_mem (mem_bits.mpr hi.1)
    omega
  · intro i
    rw [List.mem_cons, mem_bits, mem_bits, getLsbD_clear_bit w (toNat_ctz_lt h)]
    by_cases hi : i = w.ctz.toNat
    · simp [hi, BitVec.getLsbD_true_ctz_of_ne_zero h]
    · simp [hi]

/-- `word & (word - 1)` clears the lowest set bit. -/
theorem and_sub_one {w : BitVec 64} (h : w ≠ 0#64) :
    w &&& (w - 1#64) = w &&& ~~~(1#64 <<< w.ctz.toNat) := by
  set t := w.ctz.toNat with ht
  have htl : t < 64 := toNat_ctz_lt h
  have hbit : w.toNat.testBit t = true := BitVec.getLsbD_true_ctz_of_ne_zero h
  have hlow : ∀ i, i < t → w.toNat.testBit i = false :=
    fun i hi => BitVec.getLsbD_false_of_lt_ctz hi
  -- the word is `2^(t+1) * q + 2^t`, so one less has the bits below `t` set and bit `t` clear
  obtain ⟨q, hq⟩ : ∃ q, w.toNat = 2 ^ (t + 1) * q + 2 ^ t := by
    refine ⟨w.toNat / 2 ^ (t + 1), ?_⟩
    have hm : w.toNat % 2 ^ (t + 1) = 2 ^ t := by
      refine Nat.eq_of_testBit_eq (fun i => ?_)
      rw [Nat.testBit_mod_two_pow, Nat.testBit_two_pow]
      rcases Nat.lt_trichotomy i t with hi | rfl | hi
      · simp [hlow i hi]; omega
      · simp [hbit]
      · have h1 : ¬ i < t + 1 := by omega
        have h2 : ¬ t = i := by omega
        simp [h1, h2]
    have := Nat.div_add_mod w.toNat (2 ^ (t + 1))
    omega
  have hpos : 0 < 2 ^ t := Nat.two_pow_pos t
  have hlt : 2 ^ t < 2 ^ (t + 1) := Nat.pow_lt_pow_right (by decide) (by omega)
  have hsub : (w - 1#64).toNat = 2 ^ (t + 1) * q + (2 ^ t - 1) := by
    have hone : 1 ≤ w.toNat := by omega
    rw [BitVec.toNat_sub_of_le (by simpa [BitVec.le_def] using hone)]
    simp
    omega
  refine BitVec.eq_of_getLsbD_eq (fun i hi => ?_)
  rw [getLsbD_clear_bit w htl, BitVec.getLsbD_and]
  show (w.toNat.testBit i && (w - 1#64).toNat.testBit i) = (w.toNat.testBit i && _)
  rw [hsub, Nat.testBit_two_pow_mul_add q (by omega)]
  by_cases hit : i < t + 1
  · rw [if_pos hit, Nat.testBit_two_pow_sub_one]
    rcases Nat.lt_or_ge i t with hlt' | hge
    · rw [hlow i hlt']; simp
    · have : i = t := by omega
      subst this
      simp
  · rw [if_neg hit]
    have hne : ¬ i = t := by omega
    rw [hq, Nat.testBit_two_pow_mul_add q hlt, if_neg hit]
    simp [hne]

/-! ### The highest bit -/

theorem toNat_clz_lt {w : BitVec 64} (h : w ≠ 0#64) : w.clz.toNat < 64 := by
  have := BitVec.clz_lt_iff_ne_zero.mpr h
  simpa [BitVec.lt_def] using this

theorem getLsbD_reverse_of_lt (w : BitVec 64) {i : Nat} (hi : i < 64) :
    w.reverse.getLsbD i = w.getLsbD (63 - i) := by
  rw [BitVec.getLsbD_reverse, BitVec.getMsbD_eq_getLsbD]
  simp [hi]

theorem getLsbD_top {w : BitVec 64} (h : w ≠ 0#64) : w.getLsbD (63 - w.clz.toNat) = true := by
  have hr : w.reverse ≠ 0#64 := by rw [ne_eq, BitVec.reverse_eq_zero_iff]; exact h
  have := BitVec.getLsbD_true_ctz_of_ne_zero hr
  rwa [← BitVec.clz_eq_reverse_ctz, getLsbD_reverse_of_lt w (toNat_clz_lt h)] at this

theorem le_top_of_mem {w : BitVec 64} {i : Nat} (h : i ∈ bits w) : i ≤ 63 - w.clz.toNat := by
  have hi := lt_of_mem_bits h
  by_contra hc
  have hlt : 63 - i < w.reverse.ctz.toNat := by
    rw [← BitVec.clz_eq_reverse_ctz]; omega
  have := BitVec.getLsbD_false_of_lt_ctz hlt
  rw [getLsbD_reverse_of_lt w (by omega), show 63 - (63 - i) = i by omega] at this
  rw [mem_bits, this] at h
  cases h

/-- The highest set bit last, before it the bits of the word without it. -/
theorem bits_eq_append_top {w : BitVec 64} (h : w ≠ 0#64) :
    bits w = bits (w &&& ~~~(1#64 <<< (63 - w.clz.toNat))) ++ [63 - w.clz.toNat] := by
  have htl : 63 - w.clz.toNat < 64 := by omega
  refine eq_of_mem_iff_lt (pairwise_bits _)
    (List.pairwise_append.mpr ⟨pairwise_bits _, by simp, ?_⟩) ?_
  · intro i hi j hj
    rw [mem_bits, getLsbD_clear_bit w htl] at hi
    simp only [Bool.and_eq_true, Bool.not_eq_true', decide_eq_false_iff_not] at hi
    have := le_top_of_mem (mem_bits.mpr hi.1)
    rw [List.mem_singleton] at hj
    omega
  · intro i
    rw [List.mem_append, List.mem_singleton, mem_bits, mem_bits, getLsbD_clear_bit w htl]
    by_cases hi : i = 63 - w.clz.toNat
    · rw [hi, getLsbD_top h]; simp
    · simp [hi]

/-- The bit a walk in direction `descending` meets first. -/
def firstBit (descending : Bool) (w : BitVec 64) : Nat :=
  if descending then 63 - w.clz.toNat else w.ctz.toNat

theorem firstBit_lt (d : Bool) {w : BitVec 64} (h : w ≠ 0#64) : firstBit d w < 64 := by
  cases d with
  | false => exact toNat_ctz_lt h
  | true => show 63 - w.clz.toNat < 64; omega

/-- The bits in walking order: the first one, then those of the word without it. -/
theorem ordered_bits (d : Bool) {w : BitVec 64} (h : w ≠ 0#64) :
    ordered d (bits w) = firstBit d w :: ordered d (bits (w &&& ~~~(1#64 <<< firstBit d w))) := by
  cases d with
  | false => exact bits_eq_ctz_cons h
  | true =>
      show (bits w).reverse = _
      rw [bits_eq_append_top h, List.reverse_append]
      rfl

/-! ## Arrays of words -/

/-- An array of words, read by index. -/
abbrev Array64 := Nat → BitVec 64

/-- The number `i` is in the array: its bit is set. -/
def Has (ws : Array64) (i : Nat) : Prop := (ws (i / 64)).getLsbD (i % 64) = true

instance (ws : Array64) (i : Nat) : Decidable (Has ws i) := by unfold Has; infer_instance

/-- The numbers of word `w` of the array, ascending. -/
def listing (ws : Array64) (w : Nat) : List Nat := (bits (ws w)).map (w * 64 + ·)

theorem mem_listing {ws : Array64} {w i : Nat} : i ∈ listing ws w ↔ i / 64 = w ∧ Has ws i := by
  simp only [listing, List.mem_map, mem_bits, Has]
  constructor
  · rintro ⟨b, hb, rfl⟩
    have hb64 := lt_of_mem_bits (mem_bits.mpr hb)
    have h1 : (w * 64 + b) / 64 = w := by omega
    have h2 : (w * 64 + b) % 64 = b := by omega
    rw [h1, h2]
    exact ⟨rfl, hb⟩
  · rintro ⟨rfl, hb⟩
    exact ⟨i % 64, hb, by omega⟩

theorem pairwise_listing (ws : Array64) (w : Nat) : (listing ws w).Pairwise (· < ·) :=
  List.pairwise_map.mpr ((pairwise_bits _).imp (fun h => by omega))

theorem length_listing (ws : Array64) (w : Nat) :
    (listing ws w).length = (ws w).cpop.toNat := by
  rw [listing, List.length_map, toNat_cpop_eq_length]

/-- The indices from `first` to `last`, in walking order. -/
def span (descending : Bool) (first last : Nat) : List Nat :=
  ordered descending (List.range' first (last + 1 - first))

theorem mem_span {d : Bool} {first last w : Nat} :
    w ∈ span d first last ↔ first ≤ w ∧ w ≤ last := by
  rw [span, mem_ordered, List.mem_range'_1]
  omega

/-- The listing of the words `first` to `last`, word after word in walking order. -/
theorem flatMap_listing (d : Bool) (ws : Array64) (first last n : Nat) (hn : last * 64 + 64 ≤ n) :
    (span d first last).flatMap (fun w => ordered d (listing ws w))
      = ordered d (below n (fun i => first ≤ i / 64 ∧ i / 64 ≤ last ∧ Has ws i)) := by
  refine eq_of_mem_iff (d := d) ?_ (pairwise_ordered (pairwise_below _ _)) ?_
  · rw [List.pairwise_flatMap]
    refine ⟨fun w _ => pairwise_ordered (pairwise_listing ws w), ?_⟩
    have hp : (span d first last).Pairwise (Before d) :=
      pairwise_ordered List.pairwise_lt_range'
    refine hp.imp (fun {w w'} hb x hx y hy => ?_)
    rw [mem_ordered, mem_listing] at hx hy
    cases d with
    | false => rw [before_false] at hb ⊢; omega
    | true => rw [before_true] at hb ⊢; omega
  · intro i
    simp only [List.mem_flatMap, mem_span, mem_ordered, mem_listing, mem_below]
    constructor
    · rintro ⟨w, ⟨h1, h2⟩, rfl, h3⟩
      exact ⟨by omega, h1, h2, h3⟩
    · rintro ⟨-, h1, h2, h3⟩
      exact ⟨i / 64, ⟨h1, h2⟩, rfl, h3⟩

/-! ## Setting and clearing single bits -/

/-- `words[i / 64] |= 1 << (i % 64)` -/
def setBit (ws : Array64) (i : Nat) : Array64 :=
  Function.update ws (i >>> 6) (ws (i >>> 6) ||| 1#64 <<< (i &&& 63))

/-- `words[i / 64] &= ~(1 << (i % 64))` -/
def clearBit (ws : Array64) (i : Nat) : Array64 :=
  Function.update ws (i >>> 6) (ws (i >>> 6) &&& ~~~(1#64 <<< (i &&& 63)))

theorem and_63 (n : Nat) : n &&& 63 = n % 64 := Nat.and_two_pow_sub_one_eq_mod n 6

theorem shiftRight_6 (n : Nat) : n >>> 6 = n / 64 := by rw [Nat.shiftRight_eq_div_pow]

theorem has_setBit (ws : Array64) (i j : Nat) : Has (setBit ws i) j ↔ Has ws j ∨ j = i := by
  simp only [Has, setBit, Function.update_apply, and_63, shiftRight_6]
  by_cases h : j / 64 = i / 64
  · rw [if_pos h, getLsbD_set_bit _ (by omega), h, Bool.or_eq_true, decide_eq_true_eq]
    exact or_congr_right (by omega)
  · rw [if_neg h]
    have : ¬ j = i := by rintro rfl; exact h rfl
    simp [this]

theorem has_clearBit (ws : Array64) (i j : Nat) : Has (clearBit ws i) j ↔ Has ws j ∧ j ≠ i := by
  simp only [Has, clearBit, Function.update_apply, and_63, shiftRight_6]
  by_cases h : j / 64 = i / 64
  · rw [if_pos h, getLsbD_clear_bit _ (by omega), h, Bool.and_eq_true, Bool.not_eq_true',
      decide_eq_false_iff_not]
    exact and_congr_right (fun _ => not_congr (by omega))
  · rw [if_neg h]
    have : ¬ j = i := by rintro rfl; exact h rfl
    simp [this]

/-- What each step leaves of a property if its element does, a fold leaves if all elements do. -/
theorem foldl_iff_and {σ α : Type} {q : σ → Prop} {p : α → Prop} {f : σ → α → σ} {l : List α}
    (h : ∀ a ∈ l, ∀ s, q (f s a) ↔ q s ∧ p a) (s : σ) :
    q (l.foldl f s) ↔ q s ∧ ∀ a ∈ l, p a := by
  induction l generalizing s with
  | nil => simp
  | cons a l ih =>
      obtain ⟨ha, hl⟩ := List.forall_mem_cons.mp h
      rw [List.foldl_cons, ih hl, ha, List.forall_mem_cons, and_assoc]

/-- What each step brings about if its element does, a fold brings about if one element does. -/
theorem foldl_iff_or {σ α : Type} {q : σ → Prop} {p : α → Prop} {f : σ → α → σ} {l : List α}
    (h : ∀ a ∈ l, ∀ s, q (f s a) ↔ q s ∨ p a) (s : σ) :
    q (l.foldl f s) ↔ q s ∨ ∃ a ∈ l, p a := by
  have hnot := foldl_iff_and (q := fun s => ¬ q s) (p := fun a => ¬ p a) (f := f)
    (fun a ha s => (not_congr (h a ha s)).trans not_or) s
  rw [← not_iff_not, hnot, not_or]
  push Not
  rfl

theorem has_foldl_setBit (l : List Nat) (ws : Array64) (j : Nat) :
    Has (l.foldl setBit ws) j ↔ Has ws j ∨ j ∈ l := by
  rw [foldl_iff_or (q := fun ws => Has ws j) fun a _ ws => has_setBit ws a j]
  simp

theorem has_foldl_clearBit (l : List Nat) (ws : Array64) (j : Nat) :
    Has (l.foldl clearBit ws) j ↔ Has ws j ∧ j ∉ l := by
  rw [foldl_iff_and (q := fun ws => Has ws j) fun a _ ws => has_clearBit ws a j]
  exact and_congr_right' List.forall_mem_ne

@[simp] theorem not_has_zero (j : Nat) : ¬ Has (fun _ => 0#64) j := by simp [Has]

/-- Counting the words `first` to `last` counts the numbers in them. -/
theorem sum_cpop (ws : Array64) {first last n : Nat} (hn : last * 64 + 64 ≤ n) :
    ((List.range' first (last + 1 - first)).map (fun w => (ws w).cpop.toNat)).sum
      = (below n (fun i => first ≤ i / 64 ∧ i / 64 ≤ last ∧ Has ws i)).length := by
  have h := congrArg List.length (flatMap_listing false ws first last n hn)
  rw [List.length_flatMap, length_ordered] at h
  simp only [length_listing, span, ordered_false] at h
  exact h

end Words
