import Arnm.Keys.Hash

set_option autoImplicit false

/-! # SipHash

`arnm_hash_siphash` of `hash.h`. The words it folds tell the input, its length included, so no two
inputs have the same (`sipWords_injective`). Taking a word in is a bijection of the four state
words, and one round of compression loses nothing of the word it takes in; what an input and a key
leave in the state is kept apart until the four words are joined to one (`siphash13_apart`). -/

namespace Arnm.Keys

open Mixing

/-- The four state words `v`. -/
structure SipState where
  v0 : BitVec 64
  v1 : BitVec 64
  v2 : BitVec 64
  v3 : BitVec 64
deriving DecidableEq, Repr

/-- `arnm_hash_sipround` -/
def sipround (v : SipState) : SipState :=
  let v := { v with v0 := v.v0 + v.v1 }
  let v := { v with v1 := rotl v.v1 13 }
  let v := { v with v1 := v.v1 ^^^ v.v0 }
  let v := { v with v0 := rotl v.v0 32 }
  let v := { v with v2 := v.v2 + v.v3 }
  let v := { v with v3 := rotl v.v3 16 }
  let v := { v with v3 := v.v3 ^^^ v.v2 }
  let v := { v with v0 := v.v0 + v.v3 }
  let v := { v with v3 := rotl v.v3 21 }
  let v := { v with v3 := v.v3 ^^^ v.v0 }
  let v := { v with v2 := v.v2 + v.v1 }
  let v := { v with v1 := rotl v.v1 17 }
  let v := { v with v1 := v.v1 ^^^ v.v2 }
  { v with v2 := rotl v.v2 32 }

/-- The loops over `arnm_hash_sipround`. -/
def siprounds (rounds : Nat) (v : SipState) : SipState := sipround^[rounds] v

/-- One word taken in: it goes into `v[3]` before the rounds and into `v[0]` behind them. -/
def sipCompress (cRounds : Nat) (v : SipState) (m : BitVec 64) : SipState :=
  let v := { v with v3 := v.v3 ^^^ m }
  let v := siprounds cRounds v
  { v with v0 := v.v0 ^^^ m }

/-- The state words under a key. -/
def sipInit (k0 k1 : BitVec 64) : SipState where
  v0 := 0x736f6d6570736575#64 ^^^ k0
  v1 := 0x646f72616e646f6d#64 ^^^ k1
  v2 := 0x6c7967656e657261#64 ^^^ k0
  v3 := 0x7465646279746573#64 ^^^ k1

/-- `arnm_hash_siphash` until its last line: the state words behind the finalization rounds. -/
def siphashState (data : List UInt8) (k0 k1 : BitVec 64) (cRounds dRounds : Nat) : SipState :=
  let whole := data.length / 8 * 8
  let v := (List.range' 0 (data.length / 8) 8).foldl
    (fun v offset => sipCompress cRounds v (loadLe64 data offset)) (sipInit k0 k1)
  let last := packTail data whole (List.range' whole (data.length - whole))
    (BitVec.ofNat 64 (data.length % 256) <<< 56)
  let v := sipCompress cRounds v last
  let v := { v with v2 := v.v2 ^^^ 0xff#64 }
  siprounds dRounds v

/-- `arnm_hash_siphash` -/
def siphash (data : List UInt8) (k0 k1 : BitVec 64) (cRounds dRounds : Nat) : BitVec 64 :=
  let v := siphashState data k0 k1 cRounds dRounds
  v.v0 ^^^ v.v1 ^^^ v.v2 ^^^ v.v3

/-- `arnm_hash_siphash13` -/
def siphash13 (data : List UInt8) (k0 k1 : BitVec 64) : BitVec 64 := siphash data k0 k1 1 3

-- the first reference vector: no byte, under the key 00 01 .. 0f
example : siphash [] 0x0706050403020100#64 0x0f0e0d0c0b0a0908#64 2 4 = 0x726fdb47dd0e0e31#64 := by
  decide

/-! ## The rounds lose nothing -/

theorem sipround_injective : Function.Injective sipround := by
  intro v w h
  obtain ⟨a, b, c, d⟩ := v
  obtain ⟨a', b', c', d'⟩ := w
  simp only [sipround, SipState.mk.injEq] at h
  obtain ⟨h0, h1, h2, h3⟩ := h
  -- the four steps are undone from the last one on
  have hsum := rotl_injective (by decide) h2
  obtain ⟨hc, hb⟩ := addRotlXor_inj (by decide) hsum h1
  obtain ⟨ha, hd⟩ := addRotlXor_inj (by decide) h0 h3
  obtain ⟨hc, hd⟩ := addRotlXor_inj (by decide) hc hd
  obtain ⟨ha, hb⟩ := addRotlXor_inj (by decide) (rotl_injective (by decide) ha) hb
  rw [ha, hb, hc, hd]

theorem siprounds_injective (rounds : Nat) : Function.Injective (siprounds rounds) :=
  sipround_injective.iterate rounds

/-- The state words before a word is taken in are told by those behind it. -/
theorem sipCompress_state (cRounds : Nat) (m : BitVec 64) :
    Function.Injective fun v => sipCompress cRounds v m := by
  intro v w h
  simp only [sipCompress, SipState.mk.injEq] at h
  obtain ⟨h0, h1, h2, h3⟩ := h
  have hrounds : siprounds cRounds { v with v3 := v.v3 ^^^ m } =
      siprounds cRounds { w with v3 := w.v3 ^^^ m } := by
    generalize siprounds cRounds { v with v3 := v.v3 ^^^ m } = x at h0 h1 h2 h3 ⊢
    generalize siprounds cRounds { w with v3 := w.v3 ^^^ m } = y at h0 h1 h2 h3 ⊢
    obtain ⟨x0, x1, x2, x3⟩ := x
    obtain ⟨y0, y1, y2, y3⟩ := y
    rw [SipState.mk.injEq]
    exact ⟨(BitVec.xor_left_inj m).mp h0, h1, h2, h3⟩
  have hstate := siprounds_injective cRounds hrounds
  obtain ⟨a, b, c, d⟩ := v
  obtain ⟨a', b', c', d'⟩ := w
  rw [SipState.mk.injEq] at hstate ⊢
  exact ⟨hstate.1, hstate.2.1, hstate.2.2.1, (BitVec.xor_left_inj m).mp hstate.2.2.2⟩

instance : Finite SipState := by
  apply Finite.of_injective fun v : SipState => (v.v0.toFin, v.v1.toFin, v.v2.toFin, v.v3.toFin)
  intro v w h
  obtain ⟨a, b, c, d⟩ := v
  obtain ⟨a', b', c', d'⟩ := w
  simp only [Prod.mk.injEq, BitVec.toFin_inj] at h
  rw [SipState.mk.injEq]
  exact h

/-- Taking a word in is a bijection of the state words. -/
theorem sipCompress_bijective (cRounds : Nat) (m : BitVec 64) :
    Function.Bijective fun v => sipCompress cRounds v m :=
  (sipCompress_state cRounds m).bijective_of_finite

/-- One round tells the word that was taken in: `v[2]` has it added. -/
theorem sipCompress_word (v : SipState) : Function.Injective (sipCompress 1 v) := by
  intro m m' h
  have h2 := congrArg SipState.v2 h
  have hsum := rotl_injective (by decide) h2
  have hword := BitVec.add_right_inj _ |>.mp (BitVec.add_left_inj _ |>.mp hsum)
  exact (BitVec.xor_right_inj v.v3).mp hword

theorem sipInit_injective {k0 k1 k0' k1' : BitVec 64} (h : sipInit k0 k1 = sipInit k0' k1') :
    k0 = k0' ∧ k1 = k1' := by
  rw [sipInit, sipInit, SipState.mk.injEq] at h
  exact ⟨(BitVec.xor_right_inj _).mp h.1, (BitVec.xor_right_inj _).mp h.2.1⟩

/-! ## The words of an input -/

/-- The block behind the whole words: the bytes that are left, and the length's low byte on top. -/
def sipLast (data : List UInt8) : BitVec 64 :=
  BitVec.ofNat 64 (data.length % 256) <<< 56 ||| pack 64 (data.drop (data.length / 8 * 8))

/-- The words an input is folded as. -/
def sipWords (data : List UInt8) : List (BitVec 64) :=
  (List.range (data.length / 8)).map (word data) ++ [sipLast data]

theorem length_sipWords (data : List UInt8) : (sipWords data).length = data.length / 8 + 1 := by
  rw [sipWords, List.length_append, List.length_map, List.length_range, List.length_singleton]

/-- The loop over the whole words folds them. -/
theorem foldl_loadLe64 {σ : Type} (step : σ → BitVec 64 → σ) (data : List UInt8) :
    ∀ (n k : Nat) (s : σ), 8 * (k + n) ≤ data.length →
      (List.range' (8 * k) n 8).foldl (fun s offset => step s (loadLe64 data offset)) s =
        ((List.range' k n).map (word data)).foldl step s
  | 0, _, _, _ => rfl
  | n + 1, k, s, h => by
      calc (List.range' (8 * k) (n + 1) 8).foldl
            (fun s offset => step s (loadLe64 data offset)) s
          = (List.range' (8 * (k + 1)) n 8).foldl
              (fun s offset => step s (loadLe64 data offset)) (step s (word data k)) := by
            rw [List.range'_succ, List.foldl_cons, show 8 * k + 8 = 8 * (k + 1) by omega,
              loadLe64_eq (by omega)]
        _ = ((List.range' (k + 1) n).map (word data)).foldl step (step s (word data k)) :=
            foldl_loadLe64 step data n (k + 1) _ (by omega)
        _ = ((List.range' k (n + 1)).map (word data)).foldl step s := by
            rw [List.range'_succ, List.map_cons, List.foldl_cons]

/-- The hash folds the words of its input into the state under the key. -/
theorem siphashState_eq (data : List UInt8) (k0 k1 : BitVec 64) (cRounds dRounds : Nat) :
    siphashState data k0 k1 cRounds dRounds =
      let v := (sipWords data).foldl (sipCompress cRounds) (sipInit k0 k1)
      siprounds dRounds { v with v2 := v.v2 ^^^ 0xff#64 } := by
  have hwhole := foldl_loadLe64 (sipCompress cRounds) data (data.length / 8) 0 (sipInit k0 k1)
    (by omega)
  rw [Nat.mul_zero, ← List.range_eq_range'] at hwhole
  have hlast : packTail data (data.length / 8 * 8)
      (List.range' (data.length / 8 * 8) (data.length - data.length / 8 * 8))
      (BitVec.ofNat 64 (data.length % 256) <<< 56) = sipLast data := by
    rw [packTail_eq data _ _ _ _ (Nat.le_refl _) (by omega), Nat.sub_self, Nat.mul_zero,
      BitVec.shiftLeft_zero, List.take_of_length_le (by rw [List.length_drop]), sipLast]
  rw [siphashState, hwhole, hlast, sipWords, List.foldl_append]
  rfl

/-- The top byte of the last block is the length's, the others are the input's. -/
theorem getLsbD_sipLast (data : List UInt8) {i : Nat} (hi : i < 64) :
    (sipLast data).getLsbD i =
      if i < 56 then (pack 64 (data.drop (data.length / 8 * 8))).getLsbD i
      else (BitVec.ofNat 8 data.length).getLsbD (i - 56) := by
  rw [sipLast, BitVec.getLsbD_or, BitVec.getLsbD_shiftLeft]
  by_cases hlow : i < 56
  · rw [if_pos hlow]
    simp [hlow]
  · have hrest : (data.drop (data.length / 8 * 8)).length ≤ 7 := by
      rw [List.length_drop]
      omega
    -- at most seven bytes are left, so none of them is in the top byte
    have hnone : (pack 64 (data.drop (data.length / 8 * 8))).getLsbD i = false := by
      rw [getLsbD_pack 64 _ hi, List.getD_eq_getElem?_getD, List.getElem?_eq_none (by omega)]
      simp
    have hbyte : i - 56 < 8 := by omega
    rw [if_neg hlow, hnone, Bool.or_false, BitVec.getLsbD_ofNat, BitVec.getLsbD_ofNat,
      show (256 : Nat) = 2 ^ 8 from rfl, Nat.testBit_mod_two_pow]
    simp [hlow, hi, hbyte, show i - 56 < 64 by omega]

/-- Inputs whose words are the same have one length. -/
theorem length_of_sipWords {data data' : List UInt8} (h : sipWords data = sipWords data') :
    data.length = data'.length := by
  have hcount := congrArg List.length h
  rw [length_sipWords, length_sipWords] at hcount
  have hlast : sipLast data = sipLast data' := by
    have hget := congrArg List.getLast? h
    rw [sipWords, sipWords, List.getLast?_concat, List.getLast?_concat, Option.some_inj] at hget
    exact hget
  have hbyte : BitVec.ofNat 8 data.length = BitVec.ofNat 8 data'.length := by
    apply BitVec.eq_of_getLsbD_eq
    intro i hi
    have hbit := congrArg (fun x => BitVec.getLsbD x (56 + i)) hlast
    rw [getLsbD_sipLast data (by omega), getLsbD_sipLast data' (by omega), if_neg (by omega),
      if_neg (by omega), Nat.add_sub_cancel_left] at hbit
    exact hbit
  have hmod := congrArg BitVec.toNat hbyte
  rw [BitVec.toNat_ofNat, BitVec.toNat_ofNat] at hmod
  omega

/-- No two inputs are folded as the same words. -/
theorem sipWords_injective : Function.Injective sipWords := by
  intro data data' h
  have hlen := length_of_sipWords h
  have hparts := List.append_inj h (by
    rw [List.length_map, List.length_map, List.length_range, List.length_range, hlen])
  have hlast : sipLast data = sipLast data' := (List.cons.inj hparts.2).1
  apply List.ext_getElem?
  intro i
  by_cases hwhole : i / 8 < data.length / 8
  · -- a byte of a whole word
    have hword := congrArg (fun l => l[i / 8]?) hparts.1
    rw [List.getElem?_map, List.getElem?_map, List.getElem?_range hwhole,
      List.getElem?_range (hlen ▸ hwhole), Option.map_some, Option.map_some,
        Option.some_inj] at hword
    exact (word_eq_iff hlen (i / 8)).mp hword i rfl
  · have htail : data.drop (data.length / 8 * 8) = data'.drop (data'.length / 8 * 8) := by
      apply pack_injective (w := 64)
      · rw [List.length_drop, List.length_drop, hlen]
      · rw [List.length_drop]
        omega
      · apply BitVec.eq_of_getLsbD_eq
        intro j hj
        by_cases hlow : j < 56
        · have hbit := congrArg (fun x => BitVec.getLsbD x j) hlast
          rw [getLsbD_sipLast data hj, getLsbD_sipLast data' hj, if_pos hlow, if_pos hlow] at hbit
          exact hbit
        · rw [getLsbD_pack 64 _ hj, getLsbD_pack 64 _ hj, List.getD_eq_getElem?_getD,
            List.getD_eq_getElem?_getD, List.getElem?_eq_none (by rw [List.length_drop]; omega),
            List.getElem?_eq_none (by rw [List.length_drop]; omega)]
    have hget := congrArg (fun l => l[i - data.length / 8 * 8]?) htail
    rw [List.getElem?_drop, List.getElem?_drop, ← hlen,
      show data.length / 8 * 8 + (i - data.length / 8 * 8) = i by omega] at hget
    exact hget

/-! ## Apart -/

/-- What the state words tell stays told by the finalization rounds. -/
theorem siphashState_inj {data data' : List UInt8} {k0 k1 k0' k1' : BitVec 64}
    {cRounds dRounds : Nat}
    (h : siphashState data k0 k1 cRounds dRounds = siphashState data' k0' k1' cRounds dRounds) :
    (sipWords data).foldl (sipCompress cRounds) (sipInit k0 k1) =
      (sipWords data').foldl (sipCompress cRounds) (sipInit k0' k1') := by
  rw [siphashState_eq, siphashState_eq] at h
  have hstate := siprounds_injective dRounds h
  rw [SipState.mk.injEq] at hstate
  generalize (sipWords data).foldl (sipCompress cRounds) (sipInit k0 k1) = v at hstate ⊢
  generalize (sipWords data').foldl (sipCompress cRounds) (sipInit k0' k1') = w at hstate ⊢
  obtain ⟨a, b, c, d⟩ := v
  obtain ⟨a', b', c', d'⟩ := w
  rw [SipState.mk.injEq]
  exact ⟨hstate.1, hstate.2.1, (BitVec.xor_left_inj _).mp hstate.2.2.1, hstate.2.2.2⟩

/-- Inputs that are folded as the same number of words, one of them different, leave different state
words. -/
theorem siphashState_ne_of_words {data data' : List UInt8} {k : Nat} (k0 k1 : BitVec 64)
    (dRounds : Nat) (hlen : (sipWords data).length = (sipWords data').length)
    (hsame : ∀ i, i ≠ k → (sipWords data)[i]? = (sipWords data')[i]?) (hne : data ≠ data') :
    siphashState data k0 k1 1 dRounds ≠ siphashState data' k0 k1 1 dRounds := by
  intro h
  -- the words are not all the same, so they differ at `k`
  have hword : (sipWords data)[k]? ≠ (sipWords data')[k]? := by
    intro heq
    apply hne
    apply sipWords_injective
    apply List.ext_getElem?
    intro i
    by_cases hi : i = k
    · rw [hi, heq]
    · exact hsame i hi
  have hk : k < (sipWords data).length := by
    by_contra hout
    apply hword
    rw [List.getElem?_eq_none (Nat.le_of_not_lt hout),
      List.getElem?_eq_none (hlen ▸ Nat.le_of_not_lt hout)]
  have hget := List.getElem?_eq_getElem hk
  have hget' := List.getElem?_eq_getElem (hlen ▸ hk)
  rw [hget, hget', ne_eq, Option.some_inj] at hword
  exact foldl_ne (sipCompress_state 1) sipCompress_word hget hget' hword hsame _
    (siphashState_inj h)

/-- What two inputs differ in is in one word where it is within eight bytes. -/
theorem getElem?_sipWords_of_same {data data' : List UInt8} {k : Nat}
    (hlen : data.length = data'.length) (hsame : ∀ i, i / 8 ≠ k → data[i]? = data'[i]?) {i : Nat}
    (hi : i ≠ k) : (sipWords data)[i]? = (sipWords data')[i]? := by
  have hcount :
      ∀ l : List UInt8, ((List.range (l.length / 8)).map (word l)).length = l.length / 8 := by
    intro l
    rw [List.length_map, List.length_range]
  rw [sipWords, sipWords]
  rcases Nat.lt_trichotomy i (data.length / 8) with hwhole | hlast | hout
  · rw [List.getElem?_append_left (by rw [hcount]; exact hwhole),
      List.getElem?_append_left (by rw [hcount]; exact hlen ▸ hwhole), List.getElem?_map,
      List.getElem?_map, List.getElem?_range hwhole, List.getElem?_range (hlen ▸ hwhole),
      Option.map_some, Option.map_some, Option.some_inj, word_eq_iff hlen]
    intro j hj
    exact hsame j (by omega)
  · -- the bytes behind the whole words are the same
    have hrest : data.drop (data.length / 8 * 8) = data'.drop (data'.length / 8 * 8) := by
      apply List.ext_getElem?
      intro j
      rw [List.getElem?_drop, List.getElem?_drop, ← hlen]
      by_cases hin : data.length / 8 * 8 + j < data.length
      · exact hsame _ (by omega)
      · rw [List.getElem?_eq_none (by omega), List.getElem?_eq_none (by omega)]
    have hend : ∀ l : List UInt8,
        ((List.range (l.length / 8)).map (word l) ++ [sipLast l])[l.length / 8]? =
          some (sipLast l) := by
      intro l
      rw [List.getElem?_append_right (by rw [hcount]), hcount, Nat.sub_self]
      rfl
    calc ((List.range (data.length / 8)).map (word data) ++ [sipLast data])[i]?
        = some (sipLast data) := by rw [hlast, hend data]
      _ = some (sipLast data') := by rw [sipLast, sipLast, hrest, hlen]
      _ = ((List.range (data'.length / 8)).map (word data') ++ [sipLast data'])[i]? := by
          rw [hlast, hlen, hend data']
  · rw [List.getElem?_eq_none (by rw [List.length_append, hcount]; exact hout),
      List.getElem?_eq_none (by rw [List.length_append, hcount]; exact hlen ▸ hout)]

/-- The hash folds words that no two inputs share, each by a bijection of the state words. In the
variant for tables, inputs of one length that differ within one word of eight bytes only, and any
two inputs of less than eight bytes, leave different state words under every key; and in every
variant two keys do, on every input. -/
theorem siphash13_apart :
    (∀ (data : List UInt8) (k0 k1 : BitVec 64) (cRounds dRounds : Nat),
      siphash data k0 k1 cRounds dRounds =
        let v := (sipWords data).foldl (sipCompress cRounds) (sipInit k0 k1)
        let v := siprounds dRounds { v with v2 := v.v2 ^^^ 0xff#64 }
        v.v0 ^^^ v.v1 ^^^ v.v2 ^^^ v.v3) ∧
    Function.Injective sipWords ∧
    (∀ (cRounds : Nat) (m : BitVec 64), Function.Bijective fun v => sipCompress cRounds v m) ∧
    (∀ (data : List UInt8) (k0 k1 : BitVec 64), siphash13 data k0 k1 =
      let v := siphashState data k0 k1 1 3
      v.v0 ^^^ v.v1 ^^^ v.v2 ^^^ v.v3) ∧
    (∀ (data data' : List UInt8) (k0 k1 : BitVec 64) (k : Nat), data.length = data'.length →
      (∀ i, i / 8 ≠ k → data[i]? = data'[i]?) → data ≠ data' →
      siphashState data k0 k1 1 3 ≠ siphashState data' k0 k1 1 3) ∧
    (∀ (data data' : List UInt8) (k0 k1 : BitVec 64), data.length < 8 → data'.length < 8 →
      data ≠ data' → siphashState data k0 k1 1 3 ≠ siphashState data' k0 k1 1 3) ∧
    ∀ (data : List UInt8) (k0 k1 k0' k1' : BitVec 64) (cRounds dRounds : Nat),
      siphashState data k0 k1 cRounds dRounds = siphashState data k0' k1' cRounds dRounds →
      k0 = k0' ∧ k1 = k1' := by
  refine ⟨?_, sipWords_injective, sipCompress_bijective, fun _ _ _ => rfl, ?_, ?_, ?_⟩
  · intro data k0 k1 cRounds dRounds
    rw [siphash, siphashState_eq]
  · intro data data' k0 k1 k hlen hsame hne
    apply siphashState_ne_of_words (k := k) k0 k1 3 _ _ hne
    · rw [length_sipWords, length_sipWords, hlen]
    · intro i hi
      exact getElem?_sipWords_of_same hlen hsame hi
  · -- a short input is one word
    intro data data' k0 k1 hshort hshort' hne
    apply siphashState_ne_of_words (k := 0) k0 k1 3 _ _ hne
    · rw [length_sipWords, length_sipWords, Nat.div_eq_of_lt hshort, Nat.div_eq_of_lt hshort']
    · intro i hi
      rw [List.getElem?_eq_none (by rw [length_sipWords]; omega),
        List.getElem?_eq_none (by rw [length_sipWords]; omega)]
  · intro data k0 k1 k0' k1' cRounds dRounds h
    exact sipInit_injective (foldl_injective (sipCompress_state cRounds) _ (siphashState_inj h))

end Arnm.Keys
