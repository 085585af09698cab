import Arnm.Lib.Blocks
import Arnm.Roaring.Reading

set_option autoImplicit false

/-! # Values by rank

`arnm_roaring_select` and `arnm_roaring_page`. The values of a set are kept in blocks twice: the
containers, and the words of a bitmap. A rank is looked up through both, and a page goes on from
there in either direction. -/

namespace Arnm.Roaring

open Listing Words Blocks

/-- `arnm_roaring_words_select`: word and bit of the `rank`-th set bit. -/
def wordsSelect (words : Array64) (rank : Nat) : Nat × Nat :=
  let r := locate (fun w => popcountll (words w)) bitmapWords 0 rank
  (r.1, (dropBits false r.2 (words r.1)).ctz.toNat)

/-- The number of values of the container at an index. -/
def cardinalityAt (set : Bitmap) (index : Nat) : Nat :=
  match set.containers[index]? with
  | some container => container.cardinality
  | none => 0

/-- The value at a rank of a container. -/
def containerSelect (container : Container) (rank : Nat) : Nat :=
  if container.isArray then valueOf container.key (container.arrayOf.getD rank 0)
  else
    let s := wordsSelect container.wordsOf rank
    valueOf container.key (s.1 <<< 6 ||| s.2)

/-- `arnm_roaring_select`; `none` where it answers false. -/
def select (set : Bitmap) (rank : Nat) : Option Nat :=
  if set.cardinality ≤ rank then none
  else if set.isSparse then some (set.values.getD rank 0)
  else
    let r := locate (cardinalityAt set) set.count 0 rank
    set.containers[r.1]?.map fun container => containerSelect container r.2

/-! ## Pages upwards -/

/-- The loop over an array from an index on, as long as there is room. -/
def arrayAscending (key : Nat) (array : List Nat) (cardinality : Nat) : Nat → Nat → List Nat
  | 0, _ => []
  | size + 1, i =>
    if i < cardinality then
      valueOf key (array.getD i 0) :: arrayAscending key array cardinality size (i + 1)
    else []

/-- `while (word && written < size)` upwards: the lowest bit is written and cleared. -/
def wordAscending (key w : Nat) : Nat → BitVec 64 → List Nat
  | 0, _ => []
  | size + 1, word =>
    if word = 0#64 then []
    else valueOf key (w <<< 6 ||| word.ctz.toNat) ::
      wordAscending key w size (word &&& (word - 1#64))

/-- The loop over the words, of which `n` stand behind the one at hand. -/
def wordsAscending (words : Array64) (key : Nat) : Nat → Nat → BitVec 64 → Nat → List Nat
  | 0, w, word, size => wordAscending key w size word
  | n + 1, w, word, size =>
    let out := wordAscending key w size word
    if out.length = size then out
    else out ++ wordsAscending words key n (w + 1) (words (w + 1)) (size - out.length)

/-- The values of a container from a rank on. -/
def containerAscending (container : Container) (rank size : Nat) : List Nat :=
  if container.isArray then
    arrayAscending container.key container.arrayOf container.cardinality size rank
  else
    let words := container.wordsOf
    let s := wordsSelect words rank
    wordsAscending words container.key (bitmapWords - 1 - s.1) s.1
      (words s.1 &&& ~~~0#64 <<< s.2) size

/-- `page_ascending` over the containers from an index on. -/
def pageAscending : List Container → Nat → Nat → List Nat
  | [], _, _ => []
  | container :: rest, rank, size =>
    if size = 0 then []
    else
      let out := containerAscending container rank size
      out ++ pageAscending rest 0 (size - out.length)

/-! ## Pages downwards -/

/-- The loop over an array below an index. -/
def arrayDescending (key : Nat) (array : List Nat) : Nat → Nat → List Nat
  | 0, _ => []
  | _, 0 => []
  | size + 1, i + 1 => valueOf key (array.getD i 0) :: arrayDescending key array size i

/-- The loop over the words from one downwards. -/
def wordsDescending (words : Array64) (key : Nat) : Nat → BitVec 64 → Nat → List Nat
  | 0, word, size => emitBits true key 0 size word
  | w + 1, word, size =>
    let out := emitBits true key (w + 1) size word
    if out.length = size then out
    else out ++ wordsDescending words key w (words w) (size - out.length)

/-- The values of a container from a rank downwards. -/
def containerDescending (container : Container) (rank size : Nat) : List Nat :=
  if container.isArray then arrayDescending container.key container.arrayOf size (rank + 1)
  else
    let words := container.wordsOf
    let s := wordsSelect words rank
    wordsDescending words container.key s.1 (words s.1 &&& ~~~0#64 >>> (63 - s.2)) size

/-- `page_descending` over the containers from an index downwards. -/
def pageDescending : List Container → Nat → Nat → List Nat
  | [], _, _ => []
  | container :: rest, rank, size =>
    let out := containerDescending container rank size
    if out.length = size then out
    else
      match rest with
      | [] => out
      | next :: _ => out ++ pageDescending rest (next.cardinality - 1) (size - out.length)

/-- `arnm_roaring_page`: what is written, of which the length is the answer. -/
def page (set : Bitmap) (skip size : Nat) (descending : Bool) : List Nat :=
  if size = 0 ∨ set.cardinality ≤ skip then []
  else
    let rank := if descending then set.cardinality - 1 - skip else skip
    if set.isSparse then
      let left := set.cardinality - skip
      let take := if left < size then left else size
      (List.range take).map fun i => set.values.getD (if descending then rank - i else rank + i) 0
    else
      let r := locate (cardinalityAt set) set.count 0 rank
      if descending then pageDescending (set.containers.take (r.1 + 1)).reverse r.2 size
      else pageAscending (set.containers.drop r.1) r.2 size

/-! ## Words by rank -/

/-- The numbers of a bitmap, word by word. -/
theorem before_listing (words : Array64) :
    before (listing words) bitmapWords = below 65536 (Has words) := by
  have h := flatMap_listing false words 0 1023 65536 (by decide)
  simp only [span, ordered_false] at h
  rw [before, List.range_eq_range']
  refine h.trans (below_congr fun i hi => ?_)
  exact ⟨fun hin => hin.2.2, fun hhas => ⟨Nat.zero_le _, by omega, hhas⟩⟩

/-- The word and the bit of a rank. -/
theorem wordsSelect_spec {words : Array64} {rank : Nat}
    (h : rank < (below 65536 (Has words)).length) :
    ∃ r, (wordsSelect words rank).1 < bitmapWords ∧
      (before (listing words) (wordsSelect words rank).1).length + r = rank ∧
      (bits (words (wordsSelect words rank).1))[r]? = some (wordsSelect words rank).2 := by
  have hlocate := @locate_spec Nat (listing words) (fun w => popcountll (words w))
    bitmapWords (fun i _ => (length_listing words i).symm) bitmapWords 0 rank (Nat.zero_add _)
    (by rw [before_listing]; simpa [before] using h)
  unfold wordsSelect
  generalize hr : locate (fun w => popcountll (words w)) bitmapWords 0 rank = r at hlocate
  obtain ⟨w, r⟩ := r
  dsimp only at hlocate ⊢
  obtain ⟨hw, hlt, hrank⟩ := hlocate
  rw [listing, List.length_map] at hlt
  refine ⟨r, hw, by simpa [before] using hrank, ?_⟩
  have hdrop := dropBits_eq false r (words w) (Nat.le_of_lt hlt)
  rw [ordered_false, ordered_false] at hdrop
  have hne : dropBits false r (words w) ≠ 0#64 := by
    intro hzero
    rw [hzero, bits_eq_nil.mpr rfl] at hdrop
    have hlength := congrArg List.length hdrop
    rw [List.length_drop, List.length_nil] at hlength
    omega
  rw [bits_eq_ctz_cons hne] at hdrop
  have hhead : (bits (words w))[r]? = some (dropBits false r (words w)).ctz.toNat := by
    rw [← Nat.add_zero r, ← List.getElem?_drop, Nat.add_zero, ← hdrop, List.getElem?_cons_zero]
  exact hhead

theorem listing_getElem? {words : Array64} {w r b : Nat} (h : (bits (words w))[r]? = some b) :
    (listing words w)[r]? = some (w * 64 + b) := by
  rw [listing, List.getElem?_map, h]
  rfl

theorem lt_length_listing {words : Array64} {w r b : Nat} (h : (bits (words w))[r]? = some b) :
    r < (listing words w).length := (List.getElem?_eq_some_iff.mp (listing_getElem? h)).1

/-- The bits from one on. -/
theorem bits_from {word : BitVec 64} {r b : Nat} (h : (bits word)[r]? = some b) :
    bits (word &&& ~~~0#64 <<< b) = (bits word).drop r := by
  have hcut := Search.cut_self (pairwise_bits word) h
  have hb := lt_of_mem_bits (List.mem_of_getElem? h)
  rw [hcut.drop]
  refine eq_of_mem_iff_lt (pairwise_bits _) ((pairwise_bits word).filter _) fun i => ?_
  rw [List.mem_filter, mem_bits, mem_bits, BitVec.getLsbD_and, BitVec.getLsbD_shiftLeft,
    BitVec.getLsbD_not, BitVec.getLsbD_zero, Bool.and_eq_true, decide_eq_true_eq]
  refine and_congr_right fun hi => ?_
  have hlt := lt_of_mem_bits (mem_bits.mpr hi)
  simp only [Bool.and_eq_true, Bool.not_eq_true', decide_eq_true_eq,
    decide_eq_false_iff_not, and_true]
  omega

/-- The bits up to one. -/
theorem bits_upTo {word : BitVec 64} {r b : Nat} (h : (bits word)[r]? = some b) :
    bits (word &&& ~~~0#64 >>> (63 - b)) = (bits word).take (r + 1) := by
  have hcut := Search.cut_succ (pairwise_bits word) h
  have hb := lt_of_mem_bits (List.mem_of_getElem? h)
  rw [hcut.take]
  refine eq_of_mem_iff_lt (pairwise_bits _) ((pairwise_bits word).filter _) fun i => ?_
  rw [List.mem_filter, mem_bits, mem_bits, BitVec.getLsbD_and, BitVec.getLsbD_ushiftRight,
    BitVec.getLsbD_not, BitVec.getLsbD_zero, Bool.and_eq_true, decide_eq_true_eq]
  refine and_congr_right fun hi => ?_
  simp only [Bool.and_eq_true, Bool.not_false, decide_eq_true_eq, and_true]
  omega

/-! ## Containers by rank -/

/-- The values of a container, ascending. -/
def Container.values (c : Container) : List Nat := c.lows.map (valueOf c.key)

theorem containerValues_length {c : Container} (h : c.Valid) : c.values.length = c.cardinality := by
  rw [Container.values, List.length_map, h.cardinality_eq]

/-- The value at a rank of a container. -/
theorem containerSelect_eq {c : Container} (h : c.Valid) {rank : Nat}
    (hrank : rank < c.cardinality) :
    c.values[rank]? = some (containerSelect c rank) := by
  have hcontent := h.content
  rw [h.cardinality_eq] at hrank
  rw [Container.values, List.getElem?_map]
  unfold containerSelect Container.isArray Container.arrayOf Container.wordsOf
  unfold Container.lows at hrank ⊢
  cases hc : c.content with
  | array values =>
      rw [hc] at hrank
      dsimp only at hrank ⊢
      rw [if_pos rfl, List.getElem?_eq_getElem hrank, ← List.getElem_eq_getD (h := hrank)]
      rfl
  | bitmap words =>
      rw [hc] at hrank
      dsimp only at hrank ⊢
      obtain ⟨r, hw, hr, hbit⟩ := wordsSelect_spec hrank
      have hb := lt_of_mem_bits (List.mem_of_getElem? hbit)
      rw [← before_listing, getElem?_located hw (lt_length_listing hbit) hr, listing_getElem? hbit,
        if_neg Bool.false_ne_true, shiftLeft_6_or _ hb]
      rfl
  | wide values =>
      rw [hc] at hcontent
      exact hcontent.elim

/-- The values of the container at an index. -/
def valuesAt (set : Bitmap) (index : Nat) : List Nat :=
  entryAt Container.values set.containers index

/-- The values of the containers in front of an index. -/
theorem valuesAt_before (set : Bitmap) (index : Nat) :
    before (valuesAt set) index = (set.containers.take index).flatMap Container.values :=
  before_entryAt _ _ _

theorem before_valuesAt {set : Bitmap} (h : set.containers ≠ []) :
    before (valuesAt set) set.count = set.members := by
  rw [Bitmap.members_containers h, valuesAt_before, Bitmap.count, List.take_length]
  rfl

theorem cardinalityAt_eq {set : Bitmap} (hvalid : ∀ c ∈ set.containers, c.Valid) {i : Nat}
    (hi : i < set.count) : cardinalityAt set i = (valuesAt set i).length := by
  have hget := List.getElem?_eq_getElem hi
  rw [cardinalityAt, valuesAt, entryAt, hget]
  exact (containerValues_length (hvalid _ (List.getElem_mem hi))).symm

/-- The container of a rank, and the rank in it. -/
theorem locate_container {set : Bitmap} (hv : set.Valid) (hf : set.ContainerForm) {rank : Nat}
    (hrank : rank < set.cardinality) :
    ∃ i r c, locate (cardinalityAt set) set.count 0 rank = (i, r) ∧ i < set.count ∧
      set.containers[i]? = some c ∧ valuesAt set i = c.values ∧ c.Valid ∧ r < c.cardinality ∧
      (before (valuesAt set) i).length + r = rank := by
  have hall := before_valuesAt hf.containers_ne
  have hspec := @locate_spec Nat (valuesAt set) (cardinalityAt set) set.count
    (fun i hi => cardinalityAt_eq hf.valid hi) set.count 0 rank (Nat.zero_add _)
    (by rw [hall, ← hv.cardinality_eq]; simpa [before] using hrank)
  generalize locate (cardinalityAt set) set.count 0 rank = found at hspec
  obtain ⟨i, r⟩ := found
  dsimp only at hspec
  obtain ⟨hi, hlt, hsum⟩ := hspec
  have hget := List.getElem?_eq_getElem hi
  have hvalues : valuesAt set i = set.containers[i].values := by
    rw [valuesAt, entryAt, hget]
  have hvalid := hf.valid _ (List.getElem_mem hi)
  refine ⟨i, r, _, rfl, hi, hget, hvalues, hvalid, ?_, by simpa [before] using hsum⟩
  rwa [hvalues, containerValues_length hvalid] at hlt

theorem select_eq {set : Bitmap} (hv : set.Valid) (rank : Nat) :
    select set rank = set.members[rank]? := by
  unfold select
  by_cases hle : set.cardinality ≤ rank
  · rw [if_pos hle]
    rw [hv.cardinality_eq] at hle
    exact (List.getElem?_eq_none hle).symm
  rw [if_neg hle]
  have hlt := Nat.not_le.mp hle
  rcases hv.form with hf | hf
  · rw [if_pos (Bitmap.isSparse_iff.mpr hf.containers_eq), Bitmap.members_sparse hf.containers_eq]
    rw [hf.cardinality_eq] at hlt
    rw [List.getElem?_eq_getElem hlt, ← List.getElem_eq_getD (h := hlt)]
  · rw [if_neg fun hs => hf.containers_ne (Bitmap.isSparse_iff.mp hs)]
    obtain ⟨i, r, c, hlocate, hi, hget, hvalues, hvalid, hr, hsum⟩ := locate_container hv hf hlt
    rw [hlocate]
    dsimp only
    rw [hget, Option.map_some, ← before_valuesAt hf.containers_ne,
      getElem?_located hi (by rwa [hvalues, containerValues_length hvalid]) hsum, hvalues,
      containerSelect_eq hvalid hr]

/-! ## Pages upwards -/

theorem wordAscending_eq (key w size : Nat) (word : BitVec 64) :
    wordAscending key w size word = emitBits false key w size word := by
  induction size generalizing word with
  | zero => rfl
  | succ size ih =>
      rw [wordAscending, emitBits]
      by_cases hzero : word = 0#64
      · rw [if_pos hzero, if_pos hzero]
      · rw [if_neg hzero, if_neg hzero, ih, and_sub_one hzero]
        rfl

theorem arrayAscending_eq (key : Nat) (array : List Nat) (size i : Nat) :
    arrayAscending key array array.length size i =
      ((array.map (valueOf key)).drop i).take size := by
  induction size generalizing i with
  | zero => rfl
  | succ size ih =>
      rw [arrayAscending]
      by_cases hi : i < array.length
      · have hget : array.getD i 0 = array[i] := (List.getElem_eq_getD (h := hi) 0).symm
        have hdrop : (array.map (valueOf key)).drop i =
            valueOf key array[i] :: (array.map (valueOf key)).drop (i + 1) := by
          rw [List.drop_eq_getElem_cons (by rwa [List.length_map]), List.getElem_map]
        rw [if_pos hi, ih, hget, hdrop, List.take_succ_cons]
      · rw [if_neg hi, List.drop_of_length_le (by rw [List.length_map]; omega), List.take_nil]

/-- The words from one on: what is left of it, then the later ones. -/
theorem wordsAscending_eq (words : Array64) (key : Nat) (n w : Nat) (word : BitVec 64)
    (size : Nat) :
    wordsAscending words key n w word size =
      ((((bits word).map (w * 64 + ·)) ++ behind (listing words) (w + 1 + n) w).map
        (valueOf key)).take size := by
  induction n generalizing w word size with
  | zero =>
      rw [wordsAscending, wordAscending_eq, emitBits_eq, behind_eq_nil _ (Nat.le_refl _),
        List.append_nil]
      rfl
  | succ n ih =>
      rw [wordsAscending, wordAscending_eq, emitBits_eq, ordered_false, List.map_append,
        behind_eq _ (by omega : w + 1 < w + 1 + (n + 1)), ← take_append_stop]
      rw [ih, show w + 1 + 1 + n = w + 1 + (n + 1) by omega]
      rfl

/-- The values of a container from a rank on. -/
theorem containerAscending_eq {c : Container} (h : c.Valid) {rank : Nat}
    (hrank : rank < c.cardinality)
    (size : Nat) : containerAscending c rank size = (c.values.drop rank).take size := by
  have hcontent := h.content
  have hcard := h.cardinality_eq
  unfold containerAscending Container.values Container.isArray Container.arrayOf Container.wordsOf
  unfold Container.lows at hcard ⊢
  cases hc : c.content with
  | array values =>
      rw [hc] at hcard
      dsimp only at hcard ⊢
      rw [if_pos rfl, hcard]
      exact arrayAscending_eq _ _ _ _
  | bitmap words =>
      rw [hc] at hcard
      dsimp only at hcard ⊢
      rw [hcard] at hrank
      obtain ⟨r, hw, hr, hbit⟩ := wordsSelect_spec hrank
      have hsum : (wordsSelect words rank).1 + 1 + (bitmapWords - 1 - (wordsSelect words rank).1) =
          bitmapWords := by omega
      have hdrop := drop_located hw (lt_length_listing hbit) hr
      rw [before_listing, listing, ← List.map_drop, ← bits_from hbit] at hdrop
      rw [if_neg Bool.false_ne_true, wordsAscending_eq, hsum, ← hdrop, List.map_drop]
  | wide values =>
      rw [hc] at hcontent
      exact hcontent.elim

theorem pageAscending_eq {containers : List Container} (hvalid : ∀ c ∈ containers, c.Valid)
    {rank : Nat}
    (hrank : ∀ c ∈ containers.head?, rank < c.cardinality) (hnil : containers = [] → rank = 0)
    (size : Nat) :
    pageAscending containers rank size =
      ((containers.flatMap Container.values).drop rank).take size := by
  induction containers generalizing rank size with
  | nil => rw [pageAscending, List.flatMap_nil, List.drop_nil, List.take_nil]
  | cons c rest ih =>
      have hc := hvalid c List.mem_cons_self
      have hlt := hrank c rfl
      rw [pageAscending]
      by_cases hsize : size = 0
      · rw [if_pos hsize, hsize, List.take_zero]
      · have hrest : ∀ d ∈ rest, d.Valid := fun d hd => hvalid d (List.mem_cons_of_mem _ hd)
        have hlater := @ih hrest 0
          (fun d hd => (hrest d (List.mem_of_mem_head? hd)).pos) (fun _ => rfl)
        rw [if_neg hsize, containerAscending_eq hc hlt]
        dsimp only
        rw [hlater, List.drop_zero, List.flatMap_cons, List.drop_append_of_le_length
          (by rw [containerValues_length hc]; omega), List.take_append, List.length_take,
            List.length_drop]
        congr 2
        omega

/-! ## Pages downwards -/

theorem arrayDescending_eq (key : Nat) (array : List Nat) (size i : Nat) (h : i ≤ array.length) :
    arrayDescending key array size i = (((array.take i).map (valueOf key)).reverse).take size := by
  induction size generalizing i with
  | zero => simp [arrayDescending]
  | succ size ih =>
      cases i with
      | zero => rfl
      | succ i =>
          have hget : array.getD i 0 = array[i] := (List.getElem_eq_getD (h := h) 0).symm
          have htake : ((array.take (i + 1)).map (valueOf key)).reverse =
              valueOf key array[i] :: ((array.take i).map (valueOf key)).reverse := by
            rw [List.take_succ_eq_append_getElem h, List.map_append, List.reverse_append]
            rfl
          calc arrayDescending key array (size + 1) (i + 1)
              = valueOf key array[i] :: arrayDescending key array size i := by
                rw [arrayDescending, hget]
            _ = valueOf key array[i] :: ((array.take i).map (valueOf key)).reverse.take size := by
                rw [ih i (Nat.le_of_succ_le h)]
            _ = ((array.take (i + 1)).map (valueOf key)).reverse.take (size + 1) := by
                rw [htake, List.take_succ_cons]

/-- The words from one downwards: what is left of it behind the earlier ones, from the end. -/
theorem wordsDescending_eq (words : Array64) (key w : Nat) (word : BitVec 64) (size : Nat) :
    wordsDescending words key w word size =
      (((before (listing words) w ++ (bits word).map (w * 64 + ·)).map (valueOf key)).reverse).take
        size := by
  induction w generalizing word size with
  | zero =>
      rw [wordsDescending, emitBits_eq, ordered_true, List.map_reverse]
      rfl
  | succ w ih =>
      have hsplit : ((before (listing words) (w + 1) ++ (bits word).map ((w + 1) * 64 + ·)).map
            (valueOf key)).reverse =
          (((bits word).map ((w + 1) * 64 + ·)).reverse).map (valueOf key) ++
            ((before (listing words) (w + 1)).map (valueOf key)).reverse := by
        rw [List.map_append, List.reverse_append, List.map_reverse]
      rw [hsplit, ← take_append_stop, wordsDescending, emitBits_eq, ordered_true, ih, before_succ]
      rfl

/-- The values of a container from a rank downwards. -/
theorem containerDescending_eq {c : Container} (h : c.Valid) {rank : Nat}
    (hrank : rank < c.cardinality)
    (size : Nat) :
    containerDescending c rank size = ((c.values.take (rank + 1)).reverse).take size := by
  have hcontent := h.content
  have hcard := h.cardinality_eq
  unfold containerDescending Container.values Container.isArray Container.arrayOf Container.wordsOf
  unfold Container.lows at hcard ⊢
  cases hc : c.content with
  | array values =>
      rw [hc] at hcard
      dsimp only at hcard ⊢
      rw [if_pos rfl, arrayDescending_eq _ _ _ _ (by omega), List.map_take]
  | bitmap words =>
      rw [hc] at hcard
      dsimp only at hcard ⊢
      rw [hcard] at hrank
      obtain ⟨r, hw, hr, hbit⟩ := wordsSelect_spec hrank
      have htake := take_located hw (lt_length_listing hbit) hr
      rw [before_listing, listing, ← List.map_take, ← bits_upTo hbit] at htake
      rw [if_neg Bool.false_ne_true, wordsDescending_eq, ← htake, List.map_take]
  | wide values =>
      rw [hc] at hcontent
      exact hcontent.elim

/-- The containers from one downwards: the first one up to the rank, the others whole. -/
theorem pageDescending_eq {c : Container} {rest : List Container}
    (hvalid : ∀ d ∈ c :: rest, d.Valid)
    {rank : Nat} (hrank : rank < c.cardinality) (size : Nat) :
    pageDescending (c :: rest) rank size =
      ((c.values.take (rank + 1)).reverse ++ rest.flatMap fun d => d.values.reverse).take size := by
  induction rest generalizing c rank size with
  | nil =>
      have hc := containerDescending_eq (hvalid c List.mem_cons_self) hrank size
      rw [pageDescending, hc, List.flatMap_nil, List.append_nil]
      exact ite_self _
  | cons next rest ih =>
      have hc := containerDescending_eq (hvalid c List.mem_cons_self) hrank size
      have hnext := hvalid next (List.mem_cons_of_mem _ List.mem_cons_self)
      have hpos := hnext.pos
      have hwhole : next.values.take (next.cardinality - 1 + 1) = next.values := by
        rw [Nat.sub_add_cancel hpos, ← containerValues_length hnext, List.take_length]
      have hlater := @ih next
        (fun d hd => hvalid d (List.mem_cons_of_mem _ hd)) (next.cardinality - 1)
        (Nat.sub_lt hpos Nat.one_pos)
      rw [pageDescending, hc, List.flatMap_cons, ← take_append_stop]
      rw [hlater, hwhole]

/-! ## A page of a set -/

/-- A page of a sparse set is copied out of its array. -/
theorem values_page {values : List Nat} {skip take : Nat} (h : skip + take ≤ values.length)
    (descending : Bool) :
    ((List.range take).map fun i =>
        values.getD (if descending then values.length - 1 - skip - i
          else (if descending then values.length - 1 - skip else skip) + i) 0) =
      ((ordered descending values).drop skip).take take := by
  apply List.ext_getElem
  · cases descending <;> simp <;> omega
  · intro i h1 h2
    rw [List.length_map, List.length_range] at h1
    rw [List.getElem_map, List.getElem_range, List.getElem_take, List.getElem_drop]
    cases descending with
    | false => exact (List.getElem_eq_getD 0).symm
    | true =>
        rw [if_pos rfl]
        simp only [ordered_true, List.getElem_reverse]
        rw [← List.getElem_eq_getD (h := by omega)]
        congr 1
        omega

theorem pageAscending_page {set : Bitmap} {i r rank : Nat} {c : Container}
    (hvalid : ∀ d ∈ set.containers, d.Valid) (hne : set.containers ≠ [])
    (hget : set.containers[i]? = some c) (hr : r < c.cardinality)
    (hsum : (before (valuesAt set) i).length + r = rank) (size : Nat) :
    pageAscending (set.containers.drop i) r size = (set.members.drop rank).take size := by
  obtain ⟨hi, hc⟩ := List.getElem?_eq_some_iff.mp hget
  have hcons : set.containers.drop i = c :: set.containers.drop (i + 1) := by
    rw [List.drop_eq_getElem_cons hi, hc]
  have hmembers : set.members =
      before (valuesAt set) i ++ (set.containers.drop i).flatMap Container.values := by
    rw [valuesAt_before, ← List.flatMap_append, List.take_append_drop]
    exact Bitmap.members_containers hne
  rw [hmembers, ← hsum, List.drop_append, List.drop_of_length_le (Nat.le_add_right _ _),
    List.nil_append, Nat.add_sub_cancel_left]
  apply pageAscending_eq
  · exact fun d hd => hvalid d (List.mem_of_mem_drop hd)
  · intro d hd
    rw [hcons] at hd
    cases hd
    exact hr
  · intro hnil
    rw [hcons] at hnil
    cases hnil

theorem pageDescending_page {set : Bitmap} {i r rank : Nat} {c : Container}
    (hvalid : ∀ d ∈ set.containers, d.Valid) (hne : set.containers ≠ [])
    (hget : set.containers[i]? = some c) (hr : r < c.cardinality)
    (hsum : (before (valuesAt set) i).length + r = rank) (size : Nat) :
    pageDescending (set.containers.take (i + 1)).reverse r size =
      ((set.members.take (rank + 1)).reverse).take size := by
  obtain ⟨hi, hc⟩ := List.getElem?_eq_some_iff.mp hget
  have hcons : (set.containers.take (i + 1)).reverse = c :: (set.containers.take i).reverse := by
    rw [List.take_succ_eq_append_getElem hi, hc, List.reverse_append]
    rfl
  have hat : valuesAt set i = c.values := by
    rw [valuesAt, entryAt, hget]
  have hin : r < (valuesAt set i).length := by
    rwa [hat, containerValues_length (hvalid c (List.mem_of_getElem? hget))]
  have hall : before (valuesAt set) set.containers.length = set.members := before_valuesAt hne
  rw [hcons, ← hall, take_located hi hin hsum, hat, List.reverse_append,
    valuesAt_before, List.reverse_flatMap]
  apply pageDescending_eq _ hr
  intro d hd
  rw [← hcons] at hd
  exact hvalid d (List.mem_of_mem_take (List.mem_reverse.mp hd))

theorem page_eq {set : Bitmap} (hv : set.Valid) (skip size : Nat) (descending : Bool) :
    page set skip size descending = ((ordered descending set.members).drop skip).take size := by
  have hcard := hv.cardinality_eq
  have hlength : (ordered descending set.members).length = set.cardinality := by
    rw [hcard]
    cases descending <;> simp
  unfold page
  by_cases hout : size = 0 ∨ set.cardinality ≤ skip
  · rw [if_pos hout]
    rcases hout with rfl | hpast
    · rfl
    · rw [List.drop_of_length_le (by omega), List.take_nil]
  obtain ⟨hsize, hskip⟩ := not_or.mp hout
  rw [if_neg hout]
  rcases hv.form with hf | hf
  · have hmembers := Bitmap.members_sparse hf.containers_eq
    rw [hmembers] at hcard hlength ⊢
    rw [if_pos (Bitmap.isSparse_iff.mpr hf.containers_eq)]
    generalize htake : (if set.cardinality - skip < size then set.cardinality - skip
      else size) = take
    have hle : skip + take ≤ set.values.length := by
      rw [← htake]
      split <;> omega
    -- what is cut off the page is behind the last value
    have hcut : ((ordered descending set.values).drop skip).take size =
        ((ordered descending set.values).drop skip).take take := by
      rw [List.take_eq_take_iff, List.length_drop, hlength, ← htake]
      split <;> omega
    rw [hcut, ← values_page hle, ← hcard, ← htake]
    cases descending <;> rfl
  · rw [if_neg fun hs => hf.containers_ne (Bitmap.isSparse_iff.mp hs)]
    cases descending with
    | false =>
        obtain ⟨i, r, c, hlocate, -, hget, -, -, hr, hsum⟩ :=
          locate_container hv hf (Nat.not_le.mp hskip)
        rw [if_neg Bool.false_ne_true, if_neg Bool.false_ne_true, hlocate]
        exact pageAscending_page hf.valid hf.containers_ne hget hr hsum size
    | true =>
        obtain ⟨i, r, c, hlocate, -, hget, -, -, hr, hsum⟩ :=
          locate_container hv hf (show set.cardinality - 1 - skip < set.cardinality by omega)
        rw [if_pos rfl, if_pos rfl, hlocate]
        show pageDescending (set.containers.take (i + 1)).reverse r size = _
        rw [pageDescending_page hf.valid hf.containers_ne hget hr hsum size, ordered_true,
          List.drop_reverse, ← hcard]
        congr 3
        omega

/-- A value is found by its rank and a page is cut out of the list of values in its direction. -/
theorem select_page {set : Bitmap} (hv : set.Valid) :
    (∀ rank, select set rank = set.members[rank]?) ∧
      ∀ skip size descending,
        page set skip size descending = ((ordered descending set.members).drop skip).take size :=
  ⟨select_eq hv, page_eq hv⟩

/-- The first value of the array has the rank of the bitmap's size, and pages reach from one into
the other in both directions; one that starts behind the end is empty. -/
theorem select_page_sample :
    select Bitmap.mixed 5120 = some 131073 ∧ select Bitmap.mixed 5122 = none ∧
      page Bitmap.mixed 5118 4294967295 false = [5118, 5119, 131073, 131079] ∧
      page Bitmap.mixed 1 3 true = [131073, 5119, 5118] ∧ page Bitmap.mixed 5122 4 true = [] := by
  obtain ⟨hselect, hpage⟩ := select_page Bitmap.valid_mixed
  rw [hselect, hselect, hpage, hpage, hpage, Bitmap.members_mixed]
  decide +kernel

end Arnm.Roaring
