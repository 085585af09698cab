import Arnm.Lib.Digits
import Arnm.Roaring.Container
import Arnm.Lib.Masks

set_option autoImplicit false

/-! # Counting bits without the instruction

`arnm_popcount` and `arnm_popcountll` of `bitmap.h` are the compiler's builtin, and on a compiler
that has no safe one a fold: bits are added up in pairs, in fours and in bytes, and a product adds
up the bytes. The fold counts the same, so nothing the counts are used for depends on the compiler.
-/

namespace Arnm

open Digits

/-- The fold, with the masks of the three steps and the ones of the product; `top` is where its
highest byte starts. -/
def foldCount {w : Nat} (pairs fours bytes ones : BitVec w) (top : Nat) (bitmap : BitVec w) : Nat :=
  let bitmap := bitmap - ((bitmap >>> 1) &&& pairs)
  let bitmap := (bitmap &&& fours) + ((bitmap >>> 2) &&& fours)
  let bitmap := (bitmap + (bitmap >>> 4)) &&& bytes
  ((bitmap * ones) >>> top).toNat

/-- `arnm_popcount` without the builtin. -/
def popcountFold (bitmap : BitVec 32) : Nat :=
  foldCount 0x55555555#32 0x33333333#32 0x0f0f0f0f#32 0x01010101#32 24 bitmap

/-- `arnm_popcountll` without the builtin. -/
def popcountllFold (bitmap : BitVec 64) : Nat :=
  foldCount 0x5555555555555555#64 0x3333333333333333#64 0x0f0f0f0f0f0f0f0f#64
    0x0101010101010101#64 56 bitmap

/-! ## One byte -/

/-- The bits of a byte that are set. -/
def byteCount (b : Nat) : Nat := (List.range 8).countP b.testBit

/-- A byte with its bits added up in pairs. -/
def pairCounts (b : Nat) : Nat := b - (b >>> 1 &&& 0x55)

/-- A byte of pairs, added up to two fours. -/
def fourCounts (b : Nat) : Nat := (b >>> 0 &&& 0x33) + (b >>> 2 &&& 0x33)

theorem byte_stages {b : Nat} (hb : b < 256) :
    b >>> 1 &&& 0x55 ≤ b ∧ pairCounts b < 256 ∧
      fourCounts (pairCounts b) % 2 ^ 4 ≤ 4 ∧ fourCounts (pairCounts b) / 2 ^ 4 ≤ 4 ∧
      fourCounts (pairCounts b) % 2 ^ 4 + fourCounts (pairCounts b) / 2 ^ 4 = byteCount b ∧
      byteCount b ≤ 8 := by
  revert b
  decide +kernel

/-! ## All bytes of a word -/

section Word

variable {l : List Nat}

theorem pairs_word (hl : ∀ b ∈ l, b < 256) :
    Nat.ofDigits 256 l - (Nat.ofDigits 256 l >>> 1 &&& repeated 256 0x55 l.length) =
      Nat.ofDigits 256 (l.map pairCounts) := by
  have hmask := @shiftRight_and_repeated 8 1 0x55 (by decide) (by decide) l hl
  have hsub := @ofDigits_map_sub 256 id (fun b => b >>> 1 &&& 0x55) l
    fun b hb => (byte_stages (hl b hb)).1
  rw [List.map_id] at hsub
  exact (congrArg (Nat.ofDigits 256 l - ·) hmask).trans hsub

theorem fours_word (hl : ∀ b ∈ l, b < 256) :
    (Nat.ofDigits 256 l &&& repeated 256 0x33 l.length) +
        (Nat.ofDigits 256 l >>> 2 &&& repeated 256 0x33 l.length) =
      Nat.ofDigits 256 (l.map fourCounts) := by
  have hlow := @shiftRight_and_repeated 8 0 0x33 (by decide) (by decide) l hl
  have hhigh := @shiftRight_and_repeated 8 2 0x33 (by decide) (by decide) l hl
  rw [Nat.shiftRight_zero] at hlow
  exact (congrArg₂ (· + ·) hlow hhigh).trans (ofDigits_map_add _ _ l)

/-- The bits of a word are those of its bytes. -/
theorem countP_testBit_ofDigits (hl : ∀ b ∈ l, b < 256) :
    (List.range (8 * l.length)).countP (Nat.ofDigits 256 l).testBit = (l.map byteCount).sum := by
  induction l with
  | nil => rfl
  | cons b l ih =>
      have hb : b < 2 ^ 8 := hl b List.mem_cons_self
      have hbit : ∀ i, (256 * Nat.ofDigits 256 l + b).testBit i =
          if i < 8 then b.testBit i else (Nat.ofDigits 256 l).testBit (i - 8) :=
        fun i => Nat.testBit_two_pow_mul_add (Nat.ofDigits 256 l) hb i
      have hword : Nat.ofDigits 256 (b :: l) = 256 * Nat.ofDigits 256 l + b := by
        rw [Nat.ofDigits_cons, Nat.add_comm]
      have hfirst : (List.range 8).countP (Nat.ofDigits 256 (b :: l)).testBit = byteCount b := by
        apply List.countP_congr
        intro i hi
        rw [hword, hbit, if_pos (List.mem_range.mp hi)]
      have hrest : (List.range (8 * l.length)).countP
          ((Nat.ofDigits 256 (b :: l)).testBit ∘ (8 + ·)) = (l.map byteCount).sum := by
        rw [← ih fun e he => hl e (List.mem_cons_of_mem b he)]
        apply List.countP_congr
        intro i _
        rw [Function.comp_apply, hword, hbit, if_neg (by omega), Nat.add_sub_cancel_left]
      calc (List.range (8 * (b :: l).length)).countP (Nat.ofDigits 256 (b :: l)).testBit
          = (List.range 8).countP (Nat.ofDigits 256 (b :: l)).testBit +
              (List.range (8 * l.length)).countP
                ((Nat.ofDigits 256 (b :: l)).testBit ∘ (8 + ·)) := by
            rw [List.length_cons, Nat.mul_succ, Nat.add_comm, List.range_add, List.countP_append,
              List.countP_map]
        _ = byteCount b + (l.map byteCount).sum := by rw [hfirst, hrest]
        _ = ((b :: l).map byteCount).sum := by rw [List.map_cons, List.sum_cons]

theorem sum_byteCount_le (hl : ∀ b ∈ l, b < 256) : (l.map byteCount).sum ≤ 8 * l.length := by
  induction l with
  | nil => exact Nat.le_refl 0
  | cons b l ih =>
      have hb := (byte_stages (hl b List.mem_cons_self)).2.2.2.2.2
      have hrest := ih fun e he => hl e (List.mem_cons_of_mem b he)
      rw [List.map_cons, List.sum_cons, List.length_cons]
      omega

end Word

/-- The fold counts the bits, in every word of at most 31 bytes whose masks have the same byte
everywhere. -/
theorem foldCount_eq {w n : Nat} (hw : w = 8 * (n + 1)) (hn : n + 1 ≤ 31)
    {pairs fours bytes ones : BitVec w} (hpairs : pairs.toNat = repeated 256 0x55 (n + 1))
    (hfours : fours.toNat = repeated 256 0x33 (n + 1))
    (hbytes : bytes.toNat = repeated 256 0x0f (n + 1))
    (hones : ones.toNat = repeated 256 1 (n + 1)) (bitmap : BitVec w) :
    foldCount pairs fours bytes ones (8 * n) bitmap = bitmap.cpop.toNat := by
  have hpow : (2 : Nat) ^ w = 256 ^ (n + 1) := by
    rw [hw, pow_mul]
    rfl
  obtain ⟨l, ⟨hlen, hl⟩, hx⟩ := (Nat.bijOn_ofDigits (by decide : 1 < 256) (n + 1)).surjOn
    (show bitmap.toNat < 256 ^ (n + 1) from hpow ▸ bitmap.isLt)
  -- what is made of the bytes stays a word
  have hlt : ∀ f : Nat → Nat, (∀ b ∈ l, f b < 256) → Nat.ofDigits 256 (l.map f) < 2 ^ w := by
    intro f hf
    have hword := Nat.ofDigits_lt_base_pow_length (by decide : 1 < 256)
      (List.forall_mem_map.mpr hf)
    rwa [List.length_map, hlen, ← hpow] at hword
  have hstages := fun b hb => byte_stages (hl b hb)
  have hfirst : (bitmap - ((bitmap >>> 1) &&& pairs)).toNat =
      Nat.ofDigits 256 (l.map pairCounts) := by
    have hword := pairs_word hl
    rw [hlen, hx, ← hpairs] at hword
    have hle : bitmap.toNat >>> 1 &&& pairs.toNat ≤ bitmap.toNat := by
      calc bitmap.toNat >>> 1 &&& pairs.toNat ≤ bitmap.toNat >>> 1 := Nat.and_le_left
        _ ≤ bitmap.toNat := Nat.shiftRight_le _ _
    rw [BitVec.toNat_sub_of_le, BitVec.toNat_and, BitVec.toNat_ushiftRight, hword]
    rw [BitVec.le_def, BitVec.toNat_and, BitVec.toNat_ushiftRight]
    exact hle
  unfold foldCount
  dsimp only
  generalize bitmap - ((bitmap >>> 1) &&& pairs) = first at hfirst ⊢
  have hsecond : ((first &&& fours) + ((first >>> 2) &&& fours)).toNat =
      Nat.ofDigits 256 (l.map fun b => fourCounts (pairCounts b)) := by
    have hword := fours_word (List.forall_mem_map.mpr fun b hb => (hstages b hb).2.1)
    rw [List.length_map, hlen, ← hfirst, ← hfours, List.map_map] at hword
    rw [BitVec.toNat_add, BitVec.toNat_and, BitVec.toNat_and, BitVec.toNat_ushiftRight, hword,
      Nat.mod_eq_of_lt (hlt (fourCounts ∘ pairCounts) fun b hb => ?_)]
    · rfl
    · have hparts := (hstages b hb).2.2
      rw [Function.comp_apply]
      omega
  generalize (first &&& fours) + ((first >>> 2) &&& fours) = second at hsecond ⊢
  have hthird : ((second + (second >>> 4)) &&& bytes).toNat =
      Nat.ofDigits 256 (l.map byteCount) := by
    have hnibbles : ∀ d ∈ l.map fun b => fourCounts (pairCounts b),
        d % 2 ^ 4 ≤ 4 ∧ d / 2 ^ 4 ≤ 4 :=
      List.forall_mem_map.mpr fun b hb => ⟨(hstages b hb).2.2.1, (hstages b hb).2.2.2.1⟩
    have hword := add_shiftRight_and_repeated (h := 4) (by decide) hnibbles
    have hcounts : (l.map fun b => fourCounts (pairCounts b)).map
        (fun d => d % 2 ^ 4 + d / 2 ^ 4) = l.map byteCount := by
      rw [List.map_map]
      apply List.map_congr_left
      intro b hb
      exact (hstages b hb).2.2.2.2.1
    rw [List.length_map, hlen, hcounts] at hword
    have hand : (second.toNat + second.toNat >>> 4) &&& bytes.toNat =
        Nat.ofDigits 256 (l.map byteCount) := by
      rw [hsecond, hbytes]
      exact hword
    -- what the sum loses above the word is not under the mask
    have hmod : (second.toNat + second.toNat >>> 4 &&& bytes.toNat) % 2 ^ w =
        (second.toNat + second.toNat >>> 4) % 2 ^ w &&& bytes.toNat % 2 ^ w := Nat.and_mod_two_pow
    rw [hand, Nat.mod_eq_of_lt bytes.isLt, Nat.mod_eq_of_lt (hlt byteCount fun b hb => ?_)] at hmod
    · rw [BitVec.toNat_and, BitVec.toNat_add, BitVec.toNat_ushiftRight, hmod]
    · have hcount := (hstages b hb).2.2.2.2.2
      omega
  have hbound := sum_byteCount_le hl
  have hsum := top_mul_repeated_one (by decide : 0 < 256) ((l.length_map byteCount).trans hlen)
    (show (l.map byteCount).sum < 256 by omega)
  have hbits := countP_testBit_ofDigits hl
  rw [hlen, hx, ← hw] at hbits
  have hcpop : bitmap.cpop.toNat = (List.range w).countP bitmap.toNat.testBit := by
    rw [Masks.toNat_cpop, Listing.below, ← List.countP_eq_length_filter]
    apply List.countP_congr
    intro i _
    rw [decide_eq_true_iff]
    rfl
  -- the product has the sum of the bytes on top, where the shift reads it
  rw [BitVec.toNat_ushiftRight, BitVec.toNat_mul, hthird, hones, hpow, Nat.shiftRight_eq_div_pow,
    pow_mul, show (2 : Nat) ^ 8 = 256 from rfl, hsum, hcpop, hbits]

/-- On every word the fold counts what the instruction does. -/
theorem popcount_fold :
    (∀ bitmap : BitVec 32, popcountFold bitmap = bitmap.cpop.toNat) ∧
      ∀ bitmap : BitVec 64, popcountllFold bitmap = Roaring.popcountll bitmap := by
  constructor
  · intro bitmap
    exact foldCount_eq (n := 3) (by decide) (by decide) (by decide) (by decide) (by decide)
      (by decide) bitmap
  · intro bitmap
    exact foldCount_eq (n := 7) (by decide) (by decide) (by decide) (by decide) (by decide)
      (by decide) bitmap

end Arnm
