import Arnm.Lib.Mixing

set_option autoImplicit false

/-! # The fast hash

`arnm_hash_fast` of `hash.h`. Each of its steps loses nothing, so inputs of one length that differ
in one word only have different hashes (`hashFast_apart`). -/

namespace Arnm.Keys

open Mixing

/-- `arnm_hash_load_le64` of the bytes at an offset. -/
def loadLe64 (data : List UInt8) (offset : Nat) : BitVec 64 :=
  let byte := fun i => (data.getD (offset + i) 0).toBitVec.setWidth 64
  byte 0 ||| byte 1 <<< 8 ||| byte 2 <<< 16 ||| byte 3 <<< 24 ||| byte 4 <<< 32 |||
    byte 5 <<< 40 |||
    byte 6 <<< 48 ||| byte 7 <<< 56

/-- `arnm_hash_fast_fold`, with `arnm_hash_rotl64`. -/
def hashFastFold (state word : BitVec 64) : BitVec 64 :=
  rotl ((state ^^^ word) * 0x9e3779b97f4a7c15#64) 31

/-- The loop over the whole words, from the offsets on that are given. -/
def foldWhole (data : List UInt8) (offsets : List Nat) (state : BitVec 64) : BitVec 64 :=
  offsets.foldl (fun state offset => hashFastFold state (loadLe64 data offset)) state

/-- The loop over the bytes behind the whole words. -/
def packTail (data : List UInt8) (whole : Nat) (indices : List Nat) (tail : BitVec 64) :
    BitVec 64 :=
  indices.foldl
    (fun tail i => tail ||| (data.getD i 0).toBitVec.setWidth 64 <<< (8 * (i - whole))) tail

/-- The finalizer. -/
def finalize (state : BitVec 64) : BitVec 64 :=
  let state := state ^^^ state >>> 30
  let state := state * 0xbf58476d1ce4e5b9#64
  let state := state ^^^ state >>> 27
  let state := state * 0x94d049bb133111eb#64
  state ^^^ state >>> 31

/-- `arnm_hash_fast` -/
def hashFast (data : List UInt8) : BitVec 64 :=
  let whole := data.length / 8 * 8
  let state := foldWhole data (List.range' 0 (data.length / 8) 8) 0x243f6a8885a308d3#64
  let state :=
    if data.length ≠ whole then
      hashFastFold state (packTail data whole (List.range' whole (data.length - whole)) 0#64)
    else state
  finalize state

/-! ## The steps lose nothing -/

theorem hashFastFold_state (word : BitVec 64) :
    Function.Injective fun s => hashFastFold s word := by
  intro s s' h
  have hproduct := rotl_injective (by decide) h
  have hxor := mul_injective (show 0x9e3779b97f4a7c15#64 * 0xf1de83e19937733d#64 = 1#64 by decide)
    hproduct
  exact (BitVec.xor_left_inj word).mp hxor

theorem hashFastFold_word (state : BitVec 64) : Function.Injective (hashFastFold state) := by
  intro word word' h
  have hproduct := rotl_injective (by decide) h
  have hxor := mul_injective (show 0x9e3779b97f4a7c15#64 * 0xf1de83e19937733d#64 = 1#64 by decide)
    hproduct
  exact (BitVec.xor_right_inj state).mp hxor

theorem finalize_injective : Function.Injective finalize := by
  intro s s' h
  have h₁ := xorShift_injective (by decide) h
  have h₂ := mul_injective (show 0x94d049bb133111eb#64 * 0x319642b2d24d8ec3#64 = 1#64 by decide) h₁
  have h₃ := xorShift_injective (by decide) h₂
  have h₄ := mul_injective (show 0xbf58476d1ce4e5b9#64 * 0x96de1b173f119089#64 = 1#64 by decide) h₃
  exact xorShift_injective (by decide) h₄

/-! ## The words of an input -/

/-- The `k`-th word; the last one may be short. -/
def word (data : List UInt8) (k : Nat) : BitVec 64 := pack 64 ((data.drop (8 * k)).take 8)

def words (data : List UInt8) : List (BitVec 64) :=
  (List.range ((data.length + 7) / 8)).map (word data)

/-- Bytes are packed one by one. -/
theorem packTail_eq (data : List UInt8) (whole : Nat) :
    ∀ (n i : Nat) (tail : BitVec 64), whole ≤ i → i + n ≤ data.length →
      packTail data whole (List.range' i n) tail =
        tail ||| pack 64 ((data.drop i).take n) <<< (8 * (i - whole))
  | 0, i, tail, _, _ => by
      rw [List.take_zero, pack, BitVec.zero_shiftLeft, BitVec.or_zero]
      rfl
  | n + 1, i, tail, hi, hn => by
      have hlt : i < data.length := by omega
      have hget : data.getD i 0 = data[i] := by
        rw [List.getD_eq_getElem?_getD, List.getElem?_eq_getElem hlt]
        rfl
      have hpack : pack 64 ((data.drop i).take (n + 1)) =
          data[i].toBitVec.setWidth 64 ||| pack 64 ((data.drop (i + 1)).take n) <<< 8 := by
        rw [List.drop_eq_getElem_cons hlt, List.take_succ_cons, pack]
      calc packTail data whole (List.range' i (n + 1)) tail
          = packTail data whole (List.range' (i + 1) n)
              (tail ||| data[i].toBitVec.setWidth 64 <<< (8 * (i - whole))) := by
            rw [packTail, List.range'_succ, List.foldl_cons, ← packTail, hget]
        _ = tail ||| data[i].toBitVec.setWidth 64 <<< (8 * (i - whole)) |||
              pack 64 ((data.drop (i + 1)).take n) <<< (8 * (i + 1 - whole)) :=
            packTail_eq data whole n (i + 1) _ (by omega) (by omega)
        _ = tail ||| pack 64 ((data.drop i).take (n + 1)) <<< (8 * (i - whole)) := by
            rw [hpack, BitVec.shiftLeft_or_distrib, ← BitVec.shiftLeft_add, BitVec.or_assoc,
              show 8 * (i + 1 - whole) = 8 + 8 * (i - whole) by omega]

theorem loadLe64_eq {data : List UInt8} {k : Nat} (h : 8 * k + 8 ≤ data.length) :
    loadLe64 data (8 * k) = word data k := by
  have hpacked := packTail_eq data (8 * k) 8 (8 * k) 0#64 (Nat.le_refl _) h
  rw [Nat.sub_self, Nat.mul_zero, BitVec.shiftLeft_zero, BitVec.zero_or] at hpacked
  rw [word, ← hpacked]
  simp only [packTail, loadLe64, List.range'_succ, List.range'_zero, List.foldl_cons,
    List.foldl_nil,
    BitVec.zero_or, Nat.add_sub_cancel_left, Nat.sub_self, Nat.add_zero, Nat.mul_zero,
    BitVec.shiftLeft_zero, Nat.add_assoc, Nat.reduceAdd, Nat.reduceMul]

/-- The loop folds the whole words. -/
theorem foldWhole_eq (data : List UInt8) :
    ∀ (n k : Nat) (state : BitVec 64), 8 * (k + n) ≤ data.length →
      foldWhole data (List.range' (8 * k) n 8) state =
        ((List.range' k n).map (word data)).foldl hashFastFold state
  | 0, _, _, _ => rfl
  | n + 1, k, state, h => by
      calc foldWhole data (List.range' (8 * k) (n + 1) 8) state
          = foldWhole data (List.range' (8 * (k + 1)) n 8)
              (hashFastFold state (word data k)) := by
            rw [foldWhole, List.range'_succ, List.foldl_cons, ← foldWhole,
              show 8 * k + 8 = 8 * (k + 1) by omega, loadLe64_eq (by omega)]
        _ = ((List.range' (k + 1) n).map (word data)).foldl hashFastFold
              (hashFastFold state (word data k)) := foldWhole_eq data n (k + 1) _ (by omega)
        _ = ((List.range' k (n + 1)).map (word data)).foldl hashFastFold state := by
            rw [List.range'_succ, List.map_cons, List.foldl_cons]

/-- The hash folds the words and scatters the last state. -/
theorem hashFast_eq (data : List UInt8) :
    hashFast data = finalize ((words data).foldl hashFastFold 0x243f6a8885a308d3#64) := by
  have hwhole := foldWhole_eq data (data.length / 8) 0 0x243f6a8885a308d3#64 (by omega)
  rw [Nat.mul_zero, ← List.range_eq_range'] at hwhole
  rw [hashFast, hwhole]
  -- both sides scatter their state: the states are compared
  congr 1
  by_cases htail : data.length = data.length / 8 * 8
  · rw [if_neg (not_not_intro htail), words, show (data.length + 7) / 8 = data.length / 8 by omega]
  · -- the tail is the last word, a short one
    have hlast : packTail data (data.length / 8 * 8)
        (List.range' (data.length / 8 * 8) (data.length - data.length / 8 * 8)) 0#64 =
          word data (data.length / 8) := by
      rw [packTail_eq data _ _ _ _ (Nat.le_refl _) (by omega), Nat.sub_self, Nat.mul_zero,
        BitVec.shiftLeft_zero, BitVec.zero_or, word, Nat.mul_comm 8]
      rw [List.take_of_length_le (by rw [List.length_drop]),
        List.take_of_length_le (by rw [List.length_drop]; omega)]
    rw [if_pos htail, hlast, words, show (data.length + 7) / 8 = data.length / 8 + 1 by omega,
      List.range_succ, List.map_append, List.foldl_append]
    rfl

/-! ## Apart -/

/-- The words of two inputs are the same where their bytes are, and apart where they are not. -/
theorem word_eq_iff {data data' : List UInt8} (hlen : data.length = data'.length) (k : Nat) :
    word data k = word data' k ↔ ∀ i, i / 8 = k → data[i]? = data'[i]? := by
  have hchunk : (data.drop (8 * k)).take 8 = (data'.drop (8 * k)).take 8 ↔
      ∀ i, i / 8 = k → data[i]? = data'[i]? := by
    constructor
    · intro h i hi
      have hget := congrArg (fun l => l[i - 8 * k]?) h
      simp only [List.getElem?_take, List.getElem?_drop, if_pos (show i - 8 * k < 8 by omega),
        show 8 * k + (i - 8 * k) = i by omega] at hget
      exact hget
    · intro h
      apply List.ext_getElem?
      intro j
      rw [List.getElem?_take, List.getElem?_take, List.getElem?_drop, List.getElem?_drop]
      by_cases hj : j < 8
      · rw [if_pos hj, if_pos hj, h (8 * k + j) (by omega)]
      · rw [if_neg hj, if_neg hj]
  rw [← hchunk]
  constructor
  · intro h
    -- chunks of one length and at most eight bytes are packed apart
    apply pack_injective _ _ h
    · rw [List.length_take, List.length_take, List.length_drop, List.length_drop, hlen]
    · rw [List.length_take]
      omega
  · intro h
    rw [word, word, h]

theorem getElem?_words {data : List UInt8} {k : Nat} (hk : 8 * k < data.length) :
    (words data)[k]? = some (word data k) := by
  rw [words, List.getElem?_map, List.getElem?_range (by omega)]
  rfl

theorem length_words (data : List UInt8) : (words data).length = (data.length + 7) / 8 := by
  rw [words, List.length_map, List.length_range]

/-- Inputs of one length that differ, and only within one word of eight bytes or within the tail,
have different hashes; so up to eight bytes no two inputs of one length share a hash. -/
theorem hashFast_apart :
    (∀ (data data' : List UInt8) (k : Nat), data.length = data'.length →
      (∀ i, i / 8 ≠ k → data[i]? = data'[i]?) → data ≠ data' → hashFast data ≠ hashFast data') ∧
    ∀ n ≤ 8, ∀ data data' : List UInt8, data.length = n → data'.length = n →
      hashFast data = hashFast data' → data = data' := by
  have hapart : ∀ (data data' : List UInt8) (k : Nat), data.length = data'.length →
      (∀ i, i / 8 ≠ k → data[i]? = data'[i]?) → data ≠ data' → hashFast data ≠ hashFast data' := by
    intro data data' k hlen hsame hne h
    rw [hashFast_eq, hashFast_eq] at h
    have hwords := finalize_injective h
    -- the word that differs is there: behind the last byte nothing differs
    have hword : word data k ≠ word data' k := by
      intro heq
      apply hne
      apply List.ext_getElem?
      intro i
      by_cases hi : i / 8 = k
      · exact (word_eq_iff hlen k).mp heq i hi
      · exact hsame i hi
    have hk : 8 * k < data.length := by
      by_contra hout
      apply hword
      rw [word_eq_iff hlen]
      intro i hi
      rw [List.getElem?_eq_none (by omega), List.getElem?_eq_none (by omega)]
    refine foldl_ne hashFastFold_state hashFastFold_word (getElem?_words hk)
      (getElem?_words (hlen ▸ hk)) hword ?_ _ hwords
    intro j hj
    by_cases hin : 8 * j < data.length
    · rw [getElem?_words hin, getElem?_words (hlen ▸ hin), Option.some_inj, word_eq_iff hlen]
      intro i hi
      exact hsame i (by omega)
    · rw [List.getElem?_eq_none (by rw [length_words]; omega),
        List.getElem?_eq_none (by rw [length_words]; omega)]
  refine ⟨hapart, ?_⟩
  intro n hn data data' hlen hlen' h
  by_contra hne
  refine hapart data data' 0 (hlen.trans hlen'.symm) ?_ hne h
  intro i hi
  rw [List.getElem?_eq_none (by omega), List.getElem?_eq_none (by omega)]

end Arnm.Keys
