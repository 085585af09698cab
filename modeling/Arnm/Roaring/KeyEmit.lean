import Arnm.Roaring.KeyUnion

set_option autoImplicit false

/-! # Writing a page of the union of one key

A page of one key comes from one container by index, from a merge of cursors when it reads few
values, or from the key's bits. Each of the three is the page (`Listing.page`) of the key's values
in walking order: what is written, and what is left of `skip` for the next key.
-/

namespace Arnm.Roaring

open Listing Words Merge

/-! ## Words -/

/-- `while (*skip)`: drops the bits passed over, from the end the walk comes from. -/
def dropBits (descending : Bool) : Nat → BitVec 64 → BitVec 64
  | 0, word => word
  | skip + 1, word =>
      dropBits descending skip
        (if descending then word &&& ~~~(1#64 <<< (63 - word.clz.toNat))
          else word &&& (word - 1#64))

/-- `while (word && written < size)`: writes bits of word `w`, from the end the walk comes from. -/
def emitBits (descending : Bool) (key w : Nat) : Nat → BitVec 64 → List Nat
  | 0, _ => []
  | size + 1, word =>
      if word = 0#64 then []
      else
        let bit := if descending then 63 - word.clz.toNat else word.ctz.toNat
        valueOf key (w <<< 6 ||| bit) :: emitBits descending key w size (word &&& ~~~(1#64 <<< bit))

/-- The loop of `wordsEmit` over its steps: what is written, and what is left of `skip`. -/
def wordsEmitLoop (words : Array64) (low high key : Nat) (descending : Bool) :
    List Nat → Nat → Nat → List Nat × Nat
  | [], skip, _ => ([], skip)
  | step :: steps, skip, size =>
      if size = 0 then ([], skip)
      else
        let w := if descending then high >>> 6 - step else low >>> 6 + step
        let word := edgeWord words low high w
        let bits := popcountll word
        if bits ≤ skip then wordsEmitLoop words low high key descending steps (skip - bits) size
        else
          let out := emitBits descending key w size (dropBits descending skip word)
          let rest := wordsEmitLoop words low high key descending steps 0 (size - out.length)
          (out ++ rest.1, rest.2)

/-- Up to `size` values of the bits `words` holds in `[low, high]`, after passing over `skip`. -/
def wordsEmit (words : Array64) (low high key skip size : Nat) (descending : Bool) :
    List Nat × Nat :=
  wordsEmitLoop words low high key descending (List.range (high >>> 6 + 1 - low >>> 6)) skip size

theorem dropBits_eq (d : Bool) (skip : Nat) (word : BitVec 64) (h : skip ≤ (bits word).length) :
    ordered d (bits (dropBits d skip word)) = (ordered d (bits word)).drop skip := by
  induction skip generalizing word with
  | zero => rfl
  | succ skip ih =>
      have hne : word ≠ 0#64 := by
        rintro rfl
        rw [bits_eq_nil.mpr rfl] at h
        simp at h
      have hstep :
          (if d then word &&& ~~~(1#64 <<< (63 - word.clz.toNat)) else word &&& (word - 1#64))
          = word &&& ~~~(1#64 <<< firstBit d word) := by
        cases d with
        | false => exact and_sub_one hne
        | true => rfl
      have ho := ordered_bits d hne
      have hlen : (bits (word &&& ~~~(1#64 <<< firstBit d word))).length + 1 =
        (bits word).length := by
        have := congrArg List.length ho
        rw [List.length_cons, length_ordered, length_ordered] at this
        omega
      rw [dropBits, hstep, ih _ (by omega), ho, List.drop_succ_cons]

theorem shiftLeft_6_or (w : Nat) {b : Nat} (h : b < 64) : w <<< 6 ||| b = w * 64 + b := by
  rw [← Nat.shiftLeft_add_eq_or_of_lt (by simpa using h), Nat.shiftLeft_eq]

theorem emitBits_eq (d : Bool) (key w size : Nat) (word : BitVec 64) :
    emitBits d key w size word
      = ((ordered d ((bits word).map (w * 64 + ·))).map (valueOf key)).take size := by
  induction size generalizing word with
  | zero => simp [emitBits]
  | succ size ih =>
      rw [emitBits]
      by_cases h : word = 0#64
      · rw [if_pos h, bits_eq_nil.mpr h]
        cases d <;> rfl
      · rw [if_neg h]
        have hb : (if d then 63 - word.clz.toNat else word.ctz.toNat) = firstBit d word := rfl
        simp only [hb]
        rw [ih, ordered_map, ordered_map, ordered_bits d h, shiftLeft_6_or w (firstBit_lt d h)]
        rfl

/-- The values of one masked word in walking order. -/
def wordValues (words : Array64) (low high key : Nat) (d : Bool) (w : Nat) : List Nat :=
  (ordered d (listing (edgeWord words low high) w)).map (valueOf key)

theorem wordsEmitLoop_eq (words : Array64) (low high key : Nat) (d : Bool) (steps : List Nat) :
    ∀ skip size, (size = 0 → skip = 0) →
      wordsEmitLoop words low high key d steps skip size
        = page (steps.flatMap (fun step =>
            wordValues words low high key d (if d then high >>> 6 - step else low >>> 6 + step)))
            skip size := by
  induction steps with
  | nil => intro skip size _; rw [wordsEmitLoop, List.flatMap_nil, page_nil]
  | cons step steps ih =>
      intro skip size hz
      rw [wordsEmitLoop, List.flatMap_cons, page_append]
      set w := if d then high >>> 6 - step else low >>> 6 + step with hw
      set word := edgeWord words low high w with hword
      have hlen : (wordValues words low high key d w).length = popcountll word := by
        rw [wordValues, List.length_map, length_ordered, length_listing]
        rfl
      by_cases h0 : size = 0
      · rw [if_pos h0, h0, hz h0]
        simp [page]
      · rw [if_neg h0]
        simp only
        -- a word within the skip is passed over whole, from the others its first bits are dropped
        by_cases hs : popcountll word ≤ skip
        · rw [if_pos hs, page_of_length_le size (by rw [hlen]; exact hs), hlen,
            ih (skip - popcountll word) size (fun h => absurd h h0)]
          simp
        · rw [if_neg hs]
          have hbits : popcountll word = (bits word).length := toNat_cpop_eq_length word
          have hout : emitBits d key w size (dropBits d skip word)
              = (page (wordValues words low high key d w) skip size).1 := by
            rw [emitBits_eq, ordered_map, dropBits_eq d skip word (by omega)]
            rw [page, wordValues, listing, ordered_map, List.map_drop, List.map_drop]
          have hskip : (page (wordValues words low high key d w) skip size).2 = 0 := by
            rw [page, hlen]; simp only; omega
          rw [hout, hskip, ih 0 _ (fun _ => rfl)]

/-- `wordsEmit` writes the page of the bits of the range. -/
theorem wordsEmit_eq (words : Array64) {low high : Nat} (key : Nat) (d : Bool) (hh : high < 65536)
    {skip size : Nat} (hz : size = 0 → skip = 0) :
    wordsEmit words low high key skip size d
      = page ((ordered d (below 65536 (fun i => low ≤ i ∧ i ≤ high ∧ Has words i))).map
        (valueOf key))
          skip size := by
  rw [wordsEmit, wordsEmitLoop_eq _ _ _ _ _ _ _ _ hz, ← flatMap_edgeWord d words hh,
    List.map_flatMap, shiftRight_6, shiftRight_6]
  congr 1
  -- the steps from either end are the words in walking order
  have hsteps : span d (low / 64) (high / 64)
      = (List.range (high / 64 + 1 - low / 64)).map
          (fun step => if d then high / 64 - step else low / 64 + step) := by
    cases d with
    | false => simp [span, List.range'_eq_map_range]
    | true =>
        rw [span, ordered_true]
        refine List.ext_getElem (by simp) (fun i hi hi' => ?_)
        simp only [List.length_reverse, List.length_range'] at hi
        simp
        omega
  rw [hsteps, List.flatMap_map]
  rfl

/-! ## Cursors -/

/-- One container read value by value; `content` is the one of `wide`, `array` and `words` that is
not NULL. -/
structure Cursor where
  content : Content
  index : Nat
  stop : Nat
  wordIndex : Nat
  word : BitVec 64
  value : Nat
  live : Bool

/-- Loads the next bitmap word that has a bit left inside the range, or ends the cursor. The range
has at most `bitmapWords` words, `fuel` counts them. -/
def cursorSeekWord (words : Array64) (low high : Nat) (descending : Bool) : Nat → Cursor → Cursor
  | 0, c => c
  | fuel + 1, c =>
      if c.word ≠ 0#64 then
        let bit := if descending then 63 - c.word.clz.toNat else c.word.ctz.toNat
        { c with value := c.wordIndex <<< 6 ||| bit }
      else if (if descending then c.wordIndex = low >>> 6 else c.wordIndex = high >>> 6) then
        { c with live := false }
      else
        let wordIndex := if descending then c.wordIndex - 1 else c.wordIndex + 1
        cursorSeekWord words low high descending fuel
          { c with wordIndex := wordIndex, word := edgeWord words low high wordIndex }

/-- Stands an array's or a view's cursor on its index, or ends it. -/
def cursorLoad (c : Cursor) (values : List Nat) (low : Nat → Nat) (descending : Bool) : Cursor :=
  if c.index ≠ c.stop then
    { c with
      live := true
      value := low (values.getD (if descending then c.index - 1 else c.index) 0) }
  else { c with live := false }

def cursorBegin (container : Container) (low high : Nat) (descending : Bool) : Cursor :=
  let span := rangeSpan container low high
  let index := if descending then span.endAt else span.begin
  let stop := if descending then span.begin else span.endAt
  let c : Cursor := ⟨container.content, index, stop, 0, 0, 0, true⟩
  match container.content with
  | .wide values => cursorLoad c values lowOf descending
  | .array values => cursorLoad c values id descending
  | .bitmap words =>
      let wordIndex := if descending then high >>> 6 else low >>> 6
      cursorSeekWord words low high descending (bitmapWords + 1)
        { c with wordIndex := wordIndex, word := edgeWord words low high wordIndex }

def cursorNext (c : Cursor) (low high : Nat) (descending : Bool) : Cursor :=
  let moved := { c with index := if descending then c.index - 1 else c.index + 1 }
  match c.content with
  | .wide values => cursorLoad moved values lowOf descending
  | .array values => cursorLoad moved values id descending
  | .bitmap words =>
      cursorSeekWord words low high descending (bitmapWords + 1)
        { c with word := c.word &&& ~~~(1#64 <<< (c.value &&& 63)) }

namespace Cursor

/-- The entries an array's cursor has not read, as a span. -/
def unread (d : Bool) (values : List Nat) (c : Cursor) : Span :=
  if d then ⟨values, c.stop, c.index⟩ else ⟨values, c.index, c.stop⟩

/-- The words a bitmap's cursor has not loaded, in walking order. -/
def ahead (d : Bool) (low high w : Nat) : List Nat :=
  if d then (List.range' (low / 64) (w - low / 64)).reverse
  else List.range' (w + 1) (high / 64 - w)

/-- The low parts a bitmap's cursor has not read. -/
def wordsRest (d : Bool) (low high : Nat) (words : Array64) (w : Nat)
    (word : BitVec 64) : List Nat :=
  ordered d ((bits word).map (w * 64 + ·)) ++
    (ahead d low high w).flatMap (fun w => ordered d (listing (edgeWord words low high) w))

/-- The low parts a cursor has not read, the one it stands on first. -/
def rest (d : Bool) (low high : Nat) (c : Cursor) : List Nat :=
  if c.live then
    match c.content with
    | .array values => ordered d (c.unread d values).rest
    | .wide values => (ordered d (c.unread d values).rest).map lowOf
    | .bitmap words => wordsRest d low high words c.wordIndex c.word
  else []

/-- A live cursor stands on a value. -/
structure Ready (d : Bool) (low high : Nat) (c : Cursor) : Prop where
  inside : match c.content with
    | .array values => (c.unread d values).Live
    | .wide values => (c.unread d values).Live
    | .bitmap _ => low / 64 ≤ c.wordIndex ∧ c.wordIndex ≤ high / 64 ∧ c.word ≠ 0#64
  value_eq : match c.content with
    | .array values => c.value = (c.unread d values).head d
    | .wide values => c.value = lowOf ((c.unread d values).head d)
    | .bitmap _ => c.value = c.wordIndex * 64 + firstBit d c.word

end Cursor

open Cursor

variable {d : Bool} {low high : Nat}

theorem ahead_eq_nil {w : Nat} (h : if d then w = low / 64 else w = high / 64) :
    ahead d low high w = [] := by
  cases d with
  | false =>
      simp only [Bool.false_eq_true, if_false] at h
      simp [ahead, h]
  | true =>
      simp only [if_true] at h
      simp [ahead, h]

theorem ahead_eq_cons {w : Nat} (h1 : low / 64 ≤ w) (h2 : w ≤ high / 64)
    (h : ¬ if d then w = low / 64 else w = high / 64) :
    ahead d low high w = (if d then w - 1 else w + 1)
      :: ahead d low high (if d then w - 1 else w + 1) := by
  cases d with
  | false =>
      simp only [Bool.false_eq_true, if_false] at h
      simp only [ahead, Bool.false_eq_true, if_false]
      rw [show high / 64 - w = (high / 64 - (w + 1)) + 1 by omega, List.range'_succ]
  | true =>
      simp only [if_true] at h
      simp only [ahead, if_true]
      rw [show w - low / 64 = (w - 1 - low / 64) + 1 by omega, List.range'_concat,
        List.reverse_append]
      simp
      omega

/-- Seeking moves to the next value of the words, if there is one. -/
theorem cursorSeekWord_spec (d : Bool) (low high : Nat) (words : Array64) :
    ∀ (fuel : Nat) (c : Cursor), c.content = .bitmap words → c.live = true →
      low / 64 ≤ c.wordIndex → c.wordIndex ≤ high / 64 →
      (ahead d low high c.wordIndex).length < fuel →
      ((cursorSeekWord words low high d fuel c).live = true →
        (cursorSeekWord words low high d fuel c).Ready d low high) ∧
      (cursorSeekWord words low high d fuel c).rest d low high
        = wordsRest d low high words c.wordIndex c.word := by
  intro fuel
  induction fuel with
  | zero => intro c _ _ _ _ hf; simp at hf
  | succ fuel ih =>
      intro c hc hlive h1 h2 hf
      rw [cursorSeekWord]
      by_cases hw : c.word = 0#64
      · rw [if_neg (by simpa using hw), shiftRight_6, shiftRight_6]
        have hz : bits c.word = [] := bits_eq_nil.mpr hw
        -- an empty word: the next one is loaded, or there is none
        by_cases hend : if d then c.wordIndex = low / 64 else c.wordIndex = high / 64
        · rw [if_pos hend]
          refine ⟨fun h => by simp at h, ?_⟩
          rw [wordsRest, ahead_eq_nil hend, hz]
          cases d <;> simp [rest]
        · rw [if_neg hend]
          have hcons := ahead_eq_cons h1 h2 hend
          simp only
          rw [hcons, List.length_cons] at hf
          have hin : low / 64 ≤ (if d then c.wordIndex - 1 else c.wordIndex + 1) ∧
              (if d then c.wordIndex - 1 else c.wordIndex + 1) ≤ high / 64 := by
            cases d with
            | false => simp only [Bool.false_eq_true, if_false] at hend ⊢; omega
            | true => simp only [if_true] at hend ⊢; omega
          obtain ⟨ha, hb⟩ := ih { c with
            wordIndex := if d then c.wordIndex - 1 else c.wordIndex + 1
            word := edgeWord words low high (if d then c.wordIndex - 1 else c.wordIndex + 1) }
            hc hlive hin.1 hin.2 (by simpa using hf)
          refine ⟨ha, ?_⟩
          rw [hb, wordsRest, wordsRest, hcons, hz, List.flatMap_cons]
          cases d <;> rfl
      · rw [if_pos (by simpa using hw)]
        have hb : (if d then 63 - c.word.clz.toNat else c.word.ctz.toNat) = firstBit d c.word := rfl
        simp only [hb]
        refine ⟨fun _ => ⟨?_, ?_⟩, ?_⟩
        · simp only [hc]
          exact ⟨h1, h2, hw⟩
        · simp only [hc]
          exact shiftLeft_6_or _ (firstBit_lt d hw)
        · simp only [rest, hlive, if_true, hc]

theorem length_ahead_lt {w : Nat} (h1 : low / 64 ≤ w) (h2 : w ≤ high / 64) (hh : high < 65536) :
    (ahead d low high w).length < bitmapWords + 1 := by
  rw [bitmapWords]
  cases d <;> simp [ahead] <;> omega

/-- An array's cursor stands on the first entry not read, if there is one. -/
theorem cursorLoad_spec (d : Bool) (low high : Nat) (c : Cursor) (values : List Nat) (f : Nat → Nat)
    (hc : c.content = .array values ∧ f = id ∨ c.content = .wide values ∧ f = lowOf)
    (h1 : (c.unread d values).begin ≤ (c.unread d values).endAt)
    (h2 : (c.unread d values).endAt ≤ values.length) :
    ((cursorLoad c values f d).live = true → (cursorLoad c values f d).Ready d low high) ∧
      (cursorLoad c values f d).rest d low high = (ordered d (c.unread d values).rest).map f := by
  unfold cursorLoad
  by_cases hs : c.index = c.stop
  · rw [if_neg (by simpa using hs)]
    refine ⟨fun h => by simp at h, ?_⟩
    have hnil : (c.unread d values).rest = [] := by
      refine Span.rest_eq_nil ?_
      cases d <;> simp [Cursor.unread, hs]
    rw [hnil]
    cases d <;> simp [rest]
  · rw [if_pos (by simpa using hs)]
    -- an index that is not the stop has an entry under it, on either side
    have hlive : (c.unread d values).Live := by
      refine ⟨?_, by cases d <;> exact h2⟩
      cases d with
      | false => simp only [Cursor.unread, Bool.false_eq_true, if_false] at h1 ⊢; omega
      | true => simp only [Cursor.unread, if_true] at h1 ⊢; omega
    have hhead :
        values.getD (if d then c.index - 1 else c.index) 0 = (c.unread d values).head d := by
      cases d <;> rfl
    rw [hhead]
    rcases hc with ⟨hc, rfl⟩ | ⟨hc, rfl⟩
    · refine ⟨fun _ => ⟨by simp only [hc]; exact hlive, by simp only [hc]; rfl⟩, ?_⟩
      simp only [rest, if_true, hc, List.map_id]
      rfl
    · refine ⟨fun _ => ⟨by simp only [hc]; exact hlive, by simp only [hc]; rfl⟩, ?_⟩
      simp only [rest, if_true, hc]
      rfl

theorem isBitmap_eq_false_iff {c : Container} :
    c.isBitmap = false ↔ ∀ words, c.content ≠ .bitmap words := by
  unfold Container.isBitmap
  cases c.content <;> simp

/-- A cursor starts with the container's low parts of the range. -/
theorem cursorBegin_spec {c : Container} (hc : c.Readable) (hle : low ≤ high) (hh : high < 65536) :
    ((cursorBegin c low high d).live = true → (cursorBegin c low high d).Ready d low high) ∧
      (cursorBegin c low high d).rest d low high = ordered d (c.within low high) := by
  have hspan : ∀ values, (∀ words, c.content ≠ .bitmap words) →
    (rangeSpan c low high).values = values →
      (Cursor.unread d values ⟨c.content,
        if d then (rangeSpan c low high).endAt else (rangeSpan c low high).begin,
        if d then (rangeSpan c low high).begin else (rangeSpan c low high).endAt, 0, 0, 0, true⟩)
        = rangeSpan c low high := by
    intro values _ hv
    cases d <;> simp [Cursor.unread, ← hv]
  unfold cursorBegin
  cases hk : c.content with
  | array values =>
      have hb : ∀ words, c.content ≠ .bitmap words := by rw [hk]; simp
      obtain ⟨h1, h2, h3⟩ := rangeSpan_spec hc (isBitmap_eq_false_iff.mpr hb) hle hh
      have hvals : (rangeSpan c low high).values = values := by rw [rangeSpan, hk]
      have hsp := hspan values hb hvals
      rw [hk] at hsp
      simp only
      obtain ⟨ha, hb'⟩ := cursorLoad_spec d low high ⟨.array values,
        if d then (rangeSpan c low high).endAt else (rangeSpan c low high).begin,
        if d then (rangeSpan c low high).begin
          else (rangeSpan c low high).endAt, 0, 0, 0, true⟩ values id
        (Or.inl ⟨rfl, rfl⟩) (by rw [hsp]; exact h2) (by rw [hsp, ← hvals]; exact h3)
      refine ⟨ha, ?_⟩
      have hid : lowAt c = id := by funext v; simp [lowAt, hk]
      rw [hb', hsp, ← ordered_map, ← h1, hid]
  | wide values =>
      have hb : ∀ words, c.content ≠ .bitmap words := by rw [hk]; simp
      obtain ⟨h1, h2, h3⟩ := rangeSpan_spec hc (isBitmap_eq_false_iff.mpr hb) hle hh
      have hvals : (rangeSpan c low high).values = values := by rw [rangeSpan, hk]
      have hsp := hspan values hb hvals
      rw [hk] at hsp
      simp only
      obtain ⟨ha, hb'⟩ := cursorLoad_spec d low high ⟨.wide values,
        if d then (rangeSpan c low high).endAt else (rangeSpan c low high).begin,
        if d then (rangeSpan c low high).begin
          else (rangeSpan c low high).endAt, 0, 0, 0, true⟩ values
        lowOf (Or.inr ⟨rfl, rfl⟩) (by rw [hsp]; exact h2) (by rw [hsp, ← hvals]; exact h3)
      refine ⟨ha, ?_⟩
      have hid : lowAt c = lowOf := by funext v; simp [lowAt, hk]
      rw [hb', hsp, ← ordered_map, ← h1, hid]
  | bitmap words =>
      simp only [shiftRight_6]
      have hin : low / 64 ≤ (if d then high / 64 else low / 64) ∧
          (if d then high / 64 else low / 64) ≤ high / 64 := by
        cases d <;> simp <;> omega
      obtain ⟨ha, hb⟩ := cursorSeekWord_spec d low high words
        (bitmapWords + 1) ⟨.bitmap words,
          if d then (rangeSpan c low high).endAt else (rangeSpan c low high).begin,
          if d then (rangeSpan c low high).begin else (rangeSpan c low high).endAt,
          if d then high / 64 else low / 64,
          edgeWord words low high (if d then high / 64 else low / 64), 0, true⟩ rfl rfl hin.1 hin.2
        (length_ahead_lt hin.1 hin.2 hh)
      refine ⟨ha, ?_⟩
      rw [hb]
      have hlows : c.within low high = below 65536 (fun i => low ≤ i ∧ i ≤ high ∧ Has words i) := by
        rw [Container.within, Container.lows, hk, filter_eq_below (pairwise_below _ _)
          (fun a ha => (mem_below.mp ha).1)]
        refine below_congr (fun i hi => ?_)
        rw [mem_below]
        tauto
      rw [hlows, ← flatMap_edgeWord d words hh]
      -- the first word and those ahead of it are all words of the range
      have hall : span d (low / 64) (high / 64)
          = (if d then high / 64 else low / 64)
            :: ahead d low high (if d then high / 64 else low / 64) := by
        have hdiv : low / 64 ≤ high / 64 := Nat.div_le_div_right hle
        cases d with
        | false =>
            simp only [span, ahead, ordered_false, Bool.false_eq_true, if_false]
            rw [show high / 64 + 1 - low / 64 = (high / 64 - low / 64) + 1 by omega,
              List.range'_succ]
        | true =>
            simp only [span, ahead, ordered_true, if_true]
            rw [show high / 64 + 1 - low / 64 = (high / 64 - low / 64) + 1 by omega,
              List.range'_concat, List.reverse_append]
            simp
            omega
      rw [hall, List.flatMap_cons, wordsRest]
      rfl

theorem unread_next (d : Bool) (values : List Nat) (c : Cursor) :
    Cursor.unread d values { c with index := if d then c.index - 1 else c.index + 1 } =
      (c.unread d values).next d := by
  cases d <;> rfl

theorem unread_values (d : Bool) (values : List Nat) (c : Cursor) :
    (c.unread d values).values = values := by
  cases d <;> rfl

/-- A cursor of an array or a view that moves on has read the entry it stood on. -/
theorem cursorLoad_next (d : Bool) (low high : Nat) (c : Cursor) (values : List Nat) (f : Nat → Nat)
    (hc : c.content = .array values ∧ f = id ∨ c.content = .wide values ∧ f = lowOf)
    (hin : (c.unread d values).Live) (hval : c.value = f ((c.unread d values).head d)) :
    let moved := cursorLoad { c with index := if d then c.index - 1 else c.index + 1 } values f d
    (moved.live = true → moved.Ready d low high) ∧
      (ordered d (c.unread d values).rest).map f =
        c.value :: moved.rest d low high := by
  intro moved
  obtain ⟨hle, hend⟩ := hin.next_bounds d
  rw [unread_values] at hend
  obtain ⟨hready, hrest⟩ := cursorLoad_spec d low high
    { c with index := if d then c.index - 1 else c.index + 1 } values f hc
    (by rw [unread_next]; exact hle) (by rw [unread_next]; exact hend)
  refine ⟨hready, ?_⟩
  rw [hrest, unread_next, Span.ordered_rest d hin, List.map_cons, hval]

/-- A cursor of words that moves on has read the bit it stood on. -/
theorem cursorSeekWord_next {c : Cursor} {words : Array64} (hc : c.content = .bitmap words)
    (hl : c.live = true) (h1 : low / 64 ≤ c.wordIndex) (h2 : c.wordIndex ≤ high / 64)
    (hne : c.word ≠ 0#64) (hval : c.value = c.wordIndex * 64 + firstBit d c.word)
    (hh : high < 65536) :
    let moved := cursorSeekWord words low high d (bitmapWords + 1)
      { c with word := c.word &&& ~~~(1#64 <<< (c.value &&& 63)) }
    (moved.live = true → moved.Ready d low high) ∧
      wordsRest d low high words c.wordIndex c.word = c.value :: moved.rest d low high := by
  intro moved
  have hlt := firstBit_lt d hne
  -- the bit under the cursor is the first of the word; clearing it leaves the others
  have hbit : c.value &&& 63 = firstBit d c.word := by
    rw [and_63, hval]
    omega
  obtain ⟨hready, hrest⟩ := cursorSeekWord_spec d low high words (bitmapWords + 1)
    { c with word := c.word &&& ~~~(1#64 <<< (c.value &&& 63)) } hc hl h1 h2
    (length_ahead_lt h1 h2 hh)
  refine ⟨hready, ?_⟩
  rw [hrest, hbit, wordsRest, wordsRest, hval, ordered_map, ordered_map, ordered_bits d hne]
  rfl

/-- Moving on reads the value the cursor stands on. -/
theorem cursorNext_spec {c : Cursor} (hl : c.live = true) (hc : c.Ready d low high)
    (hh : high < 65536) :
    ((cursorNext c low high d).live = true → (cursorNext c low high d).Ready d low high) ∧
      c.rest d low high = c.value :: (cursorNext c low high d).rest d low high := by
  obtain ⟨hin, hval⟩ := hc
  rw [Cursor.rest, if_pos hl]
  unfold cursorNext
  cases hk : c.content with
  | array values =>
      rw [hk] at hin hval
      have hnext := cursorLoad_next d low high c values id (Or.inl ⟨hk, rfl⟩) hin hval
      rw [List.map_id] at hnext
      rw [hk] at hnext
      exact hnext
  | wide values =>
      rw [hk] at hin hval
      have hnext := cursorLoad_next d low high c values lowOf (Or.inr ⟨hk, rfl⟩) hin hval
      rw [hk] at hnext
      exact hnext
  | bitmap words =>
      rw [hk] at hin hval
      have hnext := cursorSeekWord_next hk hl hin.1 hin.2.1 hin.2.2 hval hh
      rw [hk] at hnext
      exact hnext

/-! ## Merging cursors -/

/-- One pass of the merge: every cursor standing on `pick` moves on; one that runs out is
dropped. -/
def cursorStep (low high : Nat) (descending : Bool) (pick : Nat) (c : Cursor) :
    Option Unit × Option Cursor :=
  (none,
    if c.value = pick then
      let moved := cursorNext c low high descending
      if moved.live then some moved else none
    else some c)

/-- One container left: the rest comes from it alone, no comparing. -/
def lastCursorEmit (key low high : Nat) (descending : Bool) :
    Nat → Cursor → Nat → Nat → List Nat × Nat
  | 0, _, skip, _ => ([], skip)
  | fuel + 1, c, skip, size =>
      if size = 0 ∨ c.live = false then ([], skip)
      else
        let next := cursorNext c low high descending
        if 0 < skip then lastCursorEmit key low high descending fuel next (skip - 1) size
        else
          let rest := lastCursorEmit key low high descending fuel next 0 (size - 1)
          (valueOf key c.value :: rest.1, rest.2)

/-- The merging loop over the live cursors; a key has at most `0x10000` values. -/
def mergedCursorsLoop (key low high : Nat) (descending : Bool) :
    Nat → List Cursor → Nat → Nat → List Nat × Nat
  | 0, _, skip, _ => ([], skip)
  | _ + 1, [], skip, _ => ([], skip)
  | fuel + 1, [c], skip, size => lastCursorEmit key low high descending (fuel + 1) c skip size
  | fuel + 1, c :: c' :: cursors, skip, size =>
      if size = 0 then ([], skip)
      else
        let pick := pick descending c.value ((c' :: cursors).map Cursor.value)
        let cursors := (sweep (cursorStep low high descending pick) (c :: c' :: cursors)).2
        if 0 < skip then mergedCursorsLoop key low high descending fuel cursors (skip - 1) size
        else
          let rest := mergedCursorsLoop key low high descending fuel cursors 0 (size - 1)
          (valueOf key pick :: rest.1, rest.2)

/-- Merges a key's containers value by value in walking order, passing over `skip` first. -/
def mergedCursorsEmit (u : KeyUnion) (skip size : Nat) (descending : Bool) : List Nat × Nat :=
  let cursors := u.parts.map (fun c => cursorBegin c u.low u.high descending)
  mergedCursorsLoop u.key u.low u.high descending 0x10001 (cursors.filter Cursor.live) skip size

/-- What a page reads value by value is the page of what is read: one step. -/
theorem page_step {key v : Nat} {L : List Nat} {skip size : Nat} (hs : 0 < size)
    {f : Nat → Nat → List Nat × Nat}
    (hf : ∀ skip size, (size = 0 → skip = 0) → f skip size = page (L.map (valueOf key)) skip size) :
    (if 0 < skip then f (skip - 1) size
      else (valueOf key v :: (f 0 (size - 1)).1, (f 0 (size - 1)).2))
      = page ((v :: L).map (valueOf key)) skip size := by
  obtain ⟨size, rfl⟩ : ∃ n, size = n + 1 := ⟨size - 1, by omega⟩
  cases skip with
  | zero =>
      rw [if_neg (by omega), hf 0 _ (fun _ => rfl), List.map_cons, page_cons_zero]
      rfl
  | succ skip =>
      rw [if_pos (by omega), hf _ _ (fun h => by omega), List.map_cons, page_cons_succ]
      rfl

theorem lastCursorEmit_eq (key : Nat) (hh : high < 65536) :
    ∀ {L : List Nat} {fuel : Nat} {c : Cursor}, (c.live = true → c.Ready d low high) →
      c.rest d low high = L → L.length < fuel → ∀ skip size, (size = 0 → skip = 0) →
        lastCursorEmit key low high d fuel c skip size = page (L.map (valueOf key)) skip size := by
  intro L
  induction L with
  | nil =>
      intro fuel c hc hr hf skip size hz
      cases fuel with
      | zero => simp at hf
      | succ fuel =>
          have hl : c.live = false := by
            by_contra hl
            rw [Bool.not_eq_false] at hl
            rw [(cursorNext_spec hl (hc hl) hh).2] at hr
            cases hr
          rw [lastCursorEmit, if_pos (Or.inr hl), List.map_nil, page_nil]
  | cons v L ih =>
      intro fuel c hc hr hf skip size hz
      cases fuel with
      | zero => simp at hf
      | succ fuel =>
          have hl : c.live = true := by
            by_contra hl
            rw [rest, if_neg hl] at hr
            cases hr
          obtain ⟨hn, hcons⟩ := cursorNext_spec hl (hc hl) hh
          rw [hr] at hcons
          -- the value the cursor stands on is the first of those left
          obtain ⟨hv, hL⟩ := List.cons.inj hcons
          rw [lastCursorEmit]
          by_cases h0 : size = 0
          · rw [if_pos (Or.inl h0), h0, hz h0]
            simp [page]
          · rw [if_neg (by simp [h0, hl])]
            simp only
            rw [← hv]
            exact page_step (by omega) (fun skip size hz =>
              ih hn hL.symm (by simpa using hf) skip size hz)

theorem mergedCursorsLoop_eq (key : Nat) (hh : high < 65536) :
    ∀ {L : List Nat} {fuel : Nat} {cursors : List Cursor},
      (∀ c ∈ cursors, c.live = true ∧ c.Ready d low high) →
      Lists d L (cursors.map (rest d low high)) → L.length < fuel →
      ∀ skip size, (size = 0 → skip = 0) →
        mergedCursorsLoop key low high d fuel cursors skip size
          = page (L.map (valueOf key)) skip size := by
  intro L
  induction L with
  | nil =>
      intro fuel cursors hc h hf skip size hz
      cases cursors with
      | nil => cases fuel <;> rw [mergedCursorsLoop, List.map_nil, page_nil]
      | cons c cursors =>
          obtain ⟨hl, hr⟩ := hc c (by simp)
          have := h.eq_nil (c.rest d low high) (by simp)
          rw [(cursorNext_spec hl hr hh).2] at this
          cases this
  | cons v L ih =>
      intro fuel cursors hc h hf skip size hz
      cases fuel with
      | zero => simp at hf
      | succ fuel =>
          match cursors, hc, h with
          | [], _, h =>
              obtain ⟨l, hl, -⟩ := h.exists_head
              simp at hl
          | [c], hc, h =>
              obtain ⟨hl, hr⟩ := hc c (by simp)
              rw [mergedCursorsLoop]
              exact lastCursorEmit_eq key hh (fun _ => hr) h.eq_of_singleton.symm hf skip size hz
          | c :: c' :: cursors, hc, h =>
              have hhead : ∀ x ∈ c :: c' :: cursors, (x.rest d low high).head? = some x.value := by
                intro x hx
                rw [(cursorNext_spec (hc x hx).1 (hc x hx).2 hh).2]
                rfl
              have hp : pick d c.value ((c' :: cursors).map Cursor.value) = v := h.pick_eq hhead
              rw [mergedCursorsLoop, hp]
              -- a cursor on the value picked moves on or is dropped, the others stay
              have hstep : ∀ x ∈ c :: c' :: cursors, match (cursorStep low high d v x).2 with
                  | some y => (y.live = true ∧ y.Ready d low high) ∧
                      y.rest d low high = Merge.pass v (x.rest d low high)
                  | none => Merge.pass v (x.rest d low high) = [] := by
                intro x hx
                obtain ⟨hl, hr⟩ := hc x hx
                obtain ⟨hn, hcons⟩ := cursorNext_spec hl hr hh
                unfold cursorStep
                by_cases hv : x.value = v
                · simp only [if_pos hv]
                  rw [hcons, Merge.pass, if_pos hv]
                  by_cases hln : (cursorNext x low high d).live = true
                  · rw [if_pos hln]
                    exact ⟨⟨hln, hn hln⟩, rfl⟩
                  · rw [if_neg hln]
                    show (cursorNext x low high d).rest d low high = []
                    rw [rest, if_neg hln]
                · simp only [if_neg hv]
                  rw [hcons, Merge.pass, if_neg hv]
                  exact ⟨⟨hl, hr⟩, rfl⟩
              have hnext : Lists d L ((sweep (cursorStep low high d v) (c :: c' :: cursors)).2.map
                  (rest d low high)) := by
                refine h.sweep (fun x hx => ?_)
                have := hstep x hx
                split <;> rename_i he <;> rw [he] at this
                · exact this.2
                · exact this
              have hlive : ∀ x ∈ (sweep (cursorStep low high d v) (c :: c' :: cursors)).2,
                  x.live = true ∧ x.Ready d low high := by
                intro x hx
                rw [(sweep_perm _ _).2.mem_iff] at hx
                obtain ⟨y, hy, he⟩ := List.mem_filterMap.mp hx
                have := hstep y hy
                rw [he] at this
                exact this.1
              by_cases h0 : size = 0
              · rw [if_pos h0, h0, hz h0]
                simp [page]
              · rw [if_neg h0]
                simp only
                exact page_step (by omega) (fun skip size hz =>
                  ih hlive hnext (by simpa using hf) skip size hz)

variable {u : KeyUnion}

theorem mergedCursorsEmit_eq (h : u.Gathered) {skip size : Nat} (hz : size = 0 → skip = 0) :
    mergedCursorsEmit u skip size d = page ((ordered d u.lows).map (valueOf u.key)) skip size := by
  have hspec := fun c hc => cursorBegin_spec (d := d) (h.readable c hc) h.le h.high_lt
  refine mergedCursorsLoop_eq u.key h.high_lt (fun c hc => ?_) ?_ ?_ skip size hz
  · obtain ⟨hm, hl⟩ := List.mem_filter.mp hc
    obtain ⟨c', hc', rfl⟩ := List.mem_map.mp hm
    exact ⟨hl, (hspec c' hc').1 hl⟩
  · refine (h.lists d).congr (fun l hl => ?_)
    simp only [List.mem_map, List.mem_filter]
    constructor
    · rintro ⟨c, ⟨⟨c', hc', rfl⟩, -⟩, rfl⟩
      exact ⟨c', hc', (hspec c' hc').2.symm⟩
    · rintro ⟨c, hc, rfl⟩
      refine ⟨_, ⟨⟨c, hc, rfl⟩, ?_⟩, (hspec c hc).2⟩
      by_contra hn
      have := (hspec c hc).2
      rw [rest, if_neg hn] at this
      exact hl this.symm
  · rw [length_ordered]
    exact lows_length_lt u

/-! ## A page of one key -/

/-- `ROARING_UNION_MERGE_UP_TO` -/
def unionMergeUpTo : Nat := 1024

/-- A page out of the one array or view a key has, by index. -/
def spanEmit (span : Span) (value : Nat → Nat) (skip size : Nat) (descending : Bool) :
    List Nat × Nat :=
  let available := span.size
  if available ≤ skip then ([], skip - available)
  else ((spanTake span skip (min (available - skip) size) descending).map value, 0)

def keyUnionEmit (u : KeyUnion) (skip size : Nat) (descending : Bool) : List Nat × Nat :=
  match u.parts with
  | [c] =>
      match c.content with
      | .wide _ => spanEmit (rangeSpan c u.low u.high) id skip size descending
      | .array _ => spanEmit (rangeSpan c u.low u.high) (valueOf u.key) skip size descending
      | .bitmap words => wordsEmit words u.low u.high u.key skip size descending
  | _ =>
      if (skip + size) * u.parts.length ≤ unionMergeUpTo then
        mergedCursorsEmit u skip size descending
      else wordsEmit (keyUnionWords u).1 u.low u.high u.key skip size descending

theorem spanEmit_eq {span : Span} (h1 : span.begin ≤ span.endAt)
    (h2 : span.endAt ≤ span.values.length)
    (value : Nat → Nat) (skip size : Nat) :
    spanEmit span value skip size d = page ((ordered d span.rest).map value) skip size := by
  have h := page_span d h1 h2 skip size
  rw [page_map, ← h]
  unfold spanEmit
  simp only
  split <;> rfl

/-- `keyUnionEmit` writes the page of the key's values. -/
theorem keyUnionEmit_eq (h : u.Gathered) {skip size : Nat} (hz : size = 0 → skip = 0) :
    keyUnionEmit u skip size d = page ((ordered d u.lows).map (valueOf u.key)) skip size := by
  unfold keyUnionEmit
  split
  · rename_i c hp
    have hc := h.readable c (by rw [hp]; simp)
    have hkey := h.key_eq c (by rw [hp]; simp)
    have hlists := h.lists d
    rw [hp] at hlists
    have hlows : ordered d u.lows = ordered d (c.within u.low u.high) := hlists.eq_of_singleton
    cases hk : c.content with
    | array values =>
        obtain ⟨h1, h2, h3⟩ := rangeSpan_spec hc (isBitmap_eq_false_iff.mpr (by rw [hk]; simp)) h.le
          h.high_lt
        have hid : lowAt c = id := by funext v; simp [lowAt, hk]
        rw [hid, List.map_id] at h1
        simp only
        rw [spanEmit_eq h2 h3, hlows, h1]
    | wide values =>
        obtain ⟨h1, h2, h3⟩ := rangeSpan_spec hc (isBitmap_eq_false_iff.mpr (by rw [hk]; simp)) h.le
          h.high_lt
        have hid : lowAt c = lowOf := by funext v; simp [lowAt, hk]
        simp only
        rw [spanEmit_eq h2 h3, hlows, ← h1, hid, ordered_map, List.map_map]
        -- a view's entries are the key's values themselves
        congr 1
        refine List.map_congr_left (fun v hv => ?_)
        have hs := hc.sorted
        rw [hk] at hs
        have hvals : (rangeSpan c u.low u.high).values = values := by rw [rangeSpan, hk]
        rw [mem_ordered, Span.rest, hvals] at hv
        have := hs.2 v (List.mem_of_mem_drop (List.mem_of_mem_take hv))
        rw [Function.comp_apply, id, ← hkey, ← this, valueOf_keyOf_lowOf]
    | bitmap words =>
        simp only
        rw [wordsEmit_eq words u.key d h.high_lt hz, hlows, Container.within, Container.lows, hk,
          filter_eq_below (pairwise_below _ _) (fun a ha => (mem_below.mp ha).1)]
        congr 3
        refine below_congr (fun i hi => ?_)
        rw [mem_below]
        tauto
  · split
    · exact mergedCursorsEmit_eq h hz
    · rw [wordsEmit_eq _ u.key d h.high_lt hz, lows_eq_below_has h]
      congr 3
      refine below_congr (fun i hi => and_congr_right (fun h1 => and_congr_right (fun h2 => ?_)))
      have := has_edgeWord (u.parts.foldl (fun words c => bitsOfPart words c u.low u.high)
        (fun _ => 0)) u.low u.high i
      rw [keyUnionWords, clipAndCount_fst]
      have h3 : u.low / 64 ≤ i / 64 := Nat.div_le_div_right h1
      have h4 : i / 64 ≤ u.high / 64 := Nat.div_le_div_right h2
      tauto

end Arnm.Roaring
