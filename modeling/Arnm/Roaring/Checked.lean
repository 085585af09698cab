import Arnm.Lib.Buffer
import Arnm.Roaring.SetOps
import Arnm.Roaring.WalkRuns

set_option autoImplicit false

/-! # Sources and emitters with their buffers

The part of `roaring_bitmap.c` with buffers on the stack, once more with the buffers: the buffer of
a source, `values` of the word emitter and `lows` of a change to containers have the sizes the
source gives them, and every write into one of them is checked. Such a call has no answer where a
write leaves its buffer, nor where one of its loops does not come to its end; on valid sets it
answers what the call of the model does. -/

namespace Arnm.Roaring

open Listing Words Memory Lending Source

/-! ## Sources -/

namespace Source

/-- `load`; the buffer of a source has `sparseMax` entries. -/
def loadChecked (source : Source) : Option Source :=
  match source.set with
  | none => some { source with current := none }
  | some set =>
      if set.isSparse then
        match source.groupAt set with
        | none => some { source with current := none }
        | some (key, begin, endAt) =>
            let next := if source.descending then begin else endAt
            -- without a buffer the values are shown in place
            if source.buffered then
              (Buffer.putAll ((Buffer.readOut set.values 0 begin endAt).map lowOf)
                (Buffer.empty Nat sparseMax)).map fun buffer =>
                  { source with
                    next := next
                    current := some ⟨0, .array buffer.entries, endAt - begin, key, 0⟩ }
            else
              some { source with
                next := next
                current := some (Bitmap.view false key
                  ((set.values.drop begin).take (endAt - begin))) }
      else some { source with current := source.containerAt set }

/-- `start`, checked. -/
def startChecked (set : Option Bitmap) (min max : Nat) (descending buffered : Bool) :
    Option Source :=
  (placed set min max descending buffered).loadChecked

/-- `advance`, checked. -/
def advanceChecked (source : Source) : Option Source :=
  match source.current, source.set with
  | some _, some set =>
      if set.isSparse then loadChecked { source with position := source.next }
      else if source.descending then loadChecked { source with position := source.position - 1 }
      else loadChecked { source with position := source.position + 1 }
  | _, _ => some source

/-- `source_seek`, checked; none where the rounds did not last. -/
def seekChecked (key : Nat) (descending : Bool) : Nat → Source → Option Source
  | 0, _ => none
  | rounds + 1, source =>
      match source.current with
      | none => some source
      | some c =>
          if keyBefore c.key key descending then
            source.advanceChecked.bind (seekChecked key descending rounds)
          else some source

end Source

/-! ### What they show -/

namespace Source

variable {source : Source} {set : Bitmap} {key begin endAt : Nat}

/-- The group of a walk upwards ends inside the values. -/
theorem groupAt_endAt_le (hf : set.SparseForm) (hd : source.descending = false)
    (h : source.groupAt set = some (key, begin, endAt)) : endAt ≤ set.values.length := by
  unfold groupAt at h
  rw [hd, if_neg (by decide)] at h
  split at h
  · cases h
  · rename_i hpos
    simp only at h
    split at h
    · cases h
    · simp only [Option.some.injEq, Prod.mk.injEq] at h
      obtain ⟨-, -, rfl⟩ := h
      rw [hf.cardinality_eq] at hpos ⊢
      -- the end of the group is searched for among the values behind its beginning
      have hcut := upperBound_cut (hf.sorted.sublist (List.drop_sublist source.position _))
        (valueOf (keyOf (set.values.getD source.position 0)) 0xffff)
      have hle := hcut.1
      rw [List.length_drop] at hle
      simp only [upperBound32]
      omega

/-- A source of a valid set; only a walk upwards copies. -/
structure Sound (source : Source) : Prop where
  valid : ∀ set ∈ source.set, set.Valid
  upwards : source.buffered = true → source.descending = false

theorem Sound.loadChecked (h : source.Sound) : source.loadChecked = some source.load := by
  unfold Source.loadChecked load
  cases hset : source.set with
  | none => rfl
  | some set =>
      simp only
      by_cases hs : set.isSparse = true
      · rw [if_pos hs, if_pos hs]
        have hf := (h.valid set hset).sparseForm hs
        cases hg : source.groupAt set with
        | none => rfl
        | some group =>
            obtain ⟨key, begin, endAt⟩ := group
            simp only
            cases hb : source.buffered with
            | false => rfl
            | true =>
                rw [if_pos rfl]
                have hend := groupAt_endAt_le hf (h.upwards hb) hg
                have hslice : Buffer.readOut set.values 0 begin endAt
                    = (set.values.drop begin).take (endAt - begin) := Buffer.readOut_eq hend
                have hlength : ((set.values.drop begin).take (endAt - begin)).length
                    = endAt - begin := by
                  rw [List.length_take, List.length_drop]
                  omega
                rw [hslice]
                -- a sparse set holds no more than the buffer does
                have hfill : (Buffer.empty Nat sparseMax).Fills
                    (((set.values.drop begin).take (endAt - begin)).map lowOf) _ :=
                  Buffer.putAll_fills <| by
                    have hmax := hf.length_le
                    rw [List.length_map, hlength]
                    exact Buffer.empty_room (by omega)
                refine (hfill.map fun lows => Source.mk (some set) source.minKey source.maxKey
                  source.descending source.position
                  (if source.descending = true then begin else endAt) true
                  (some ⟨0, .array lows, endAt - begin, key, 0⟩)).trans ?_
                rw [Bitmap.view, if_pos rfl, hlength]
      · rw [if_neg hs, if_neg hs]

theorem Sound.advance (h : source.Sound) : source.advance.Sound := by
  obtain ⟨h1, -, -, h4, h5⟩ := advance_fields source
  refine ⟨fun set hset => h.valid set (h1 ▸ hset), fun hb => ?_⟩
  rw [h4]
  exact h.upwards (h5 ▸ hb)

theorem Sound.advanceChecked (h : source.Sound) :
    source.advanceChecked = some source.advance := by
  unfold Source.advanceChecked Source.advance
  cases source.current with
  | none => rfl
  | some c =>
      cases hset : source.set with
      | none => rfl
      | some set =>
          simp only
          -- wherever the source is moved to, it still reads a valid set
          have hmoved : ∀ position, (Source.mk (some set) source.minKey source.maxKey
              source.descending position source.next source.buffered (some c)).Sound :=
            fun position => ⟨fun set' hset' => h.valid set' (hset.trans hset'), h.upwards⟩
          split
          · exact (hmoved _).loadChecked
          · split
            · exact (hmoved _).loadChecked
            · exact (hmoved _).loadChecked

theorem startChecked_eq (hv : set.Valid) (min max : Nat) :
    startChecked (some set) min max false true = some (start (some set) min max false true) := by
  have hsound : (placed (some set) min max false true).Sound := by
    refine ⟨fun set' hset => ?_, fun _ => rfl⟩
    rw [show (placed (some set) min max false true).set = some set from rfl] at hset
    cases hset
    exact hv
  exact hsound.loadChecked

/-- Checked or not, a source is brought to the same key. -/
theorem Sound.seekChecked (h : source.Sound) (rounds : Nat) :
    source.seekChecked key false rounds = seekRounds key false rounds source := by
  -- on the rounds, from any source that is sound
  induction rounds generalizing source with
  | zero => rfl
  | succ rounds ih =>
      rw [Source.seekChecked, seekRounds]
      cases source.current with
      | none => rfl
      | some c =>
          simp only
          split
          · rw [h.advanceChecked, Option.bind_some, ih h.advance]
          · rfl

variable {min max k : Nat}

theorem Reads.sound (h : source.Reads set min max k) (hv : set.Valid) : source.Sound := by
  refine ⟨fun set' hset => ?_, fun _ => h.descending_eq⟩
  rw [h.set_eq] at hset
  cases hset
  exact hv

theorem Reads.seekChecked (h : source.Reads set min max k) (hv : set.Valid) (key : Nat) :
    source.seekChecked key false 0x10001 = some (sourceSeek source key false) := by
  obtain ⟨⟨g, hg, -⟩, -⟩ := h.exact
  rw [(h.sound hv).seekChecked]
  exact Placed.seek ⟨h.descending_eq, g, hg⟩ (by decide)

end Source

/-! ## Emitters -/

variable {σ : Type} (lender : BlockPool σ)

/-- `wordLoop`, written into `values`. -/
def wordLoopChecked (w : Nat) :
    Nat → BitVec 64 → Buffer Nat arrayMax → Option (Buffer Nat arrayMax)
  | 0, word, values => if word = 0#64 then some values else none
  | fuel + 1, word, values =>
    if word = 0#64 then some values
    else
      (values.put (w <<< 6 + word.ctz.toNat)).bind (wordLoopChecked w fuel (word &&& (word - 1#64)))

/-- `emitWords`, its 4096 `values` checked. -/
def emitWordsChecked (out : Bitmap) (key : Nat) (words : Array64) (first last cardinality : Nat)
    (pool : σ) : Option (Built σ) :=
  -- only an array is collected; a bitmap goes into its block word by word
  if 0 < cardinality ∧ cardinality ≤ arrayMax then
    ((List.range' first (last + 1 - first)).foldlM
      (fun values w => wordLoopChecked w 64 (words w) values) (Buffer.empty Nat arrayMax)).map
        fun values => emitArray lender out key values.entries values.entries.length pool
  else some (emitWords lender out key words first last cardinality pool)

/-- `valuesToContainers`, its `2 * sparseMax` `lows` checked. -/
def valuesToContainersChecked : Nat → Bitmap → List Nat → σ → Option (Built σ)
  | _, out, [], pool => some ⟨.success, out, pool⟩
  | 0, _, _ :: _, _ => none
  | fuel + 1, out, value :: values, pool =>
    let key := keyOf value
    let group := ((value :: values).takeWhile fun v => keyOf v = key).map lowOf
    (Buffer.putAll group (Buffer.empty Nat (2 * sparseMax))).bind fun lows =>
      let emitted := emitArray lender out key lows.entries lows.entries.length pool
      if emitted.result = .success then
        valuesToContainersChecked fuel emitted.set
          ((value :: values).dropWhile fun v => keyOf v = key) emitted.pool
      else some emitted

/-- `sparseToContainers`, checked. -/
def sparseToContainersChecked (set : Bitmap) (pool : σ) : Option (Built σ) :=
  let values := set.values.take set.cardinality
  (valuesToContainersChecked lender values.length Bitmap.init values pool).map fun built =>
    if built.result = .success then
      match set.block with
      | some block => ⟨.success, built.set, lender.free block set.directoryLog2 built.pool⟩
      | none => ⟨.success, built.set, built.pool⟩
    else ⟨built.result, set, (free lender built.set built.pool).2⟩

/-- `valuesResult`, checked. -/
def valuesResultChecked (out : Bitmap) (values : List Nat) (count : Nat) (pool : σ) :
    Option (Built σ) :=
  if sparseMax < count then valuesToContainersChecked lender count out (values.take count) pool
  else some (valuesResult lender out values count pool)

/-- `add`, checked. -/
def addChecked (set : Bitmap) (value : Nat) (pool : σ) : Option (Built σ) :=
  if set.cardinality ≠ 0 ∧ value < set.maximum then some ⟨.errorInvalidParam, set, pool⟩
  else if set.cardinality ≠ 0 ∧ value = set.maximum then some ⟨.success, set, pool⟩
  else if set.cardinality = uint32Max then some ⟨.errorResourceExhausted, set, pool⟩
  else if set.isSparse then
    if set.cardinality < sparseMax then some (sparseAdd lender set value pool)
    else
      (sparseToContainersChecked lender set pool).map fun changed =>
        if changed.result = .success then addToContainers lender changed.set value changed.pool
        else changed
  else some (addToContainers lender set value pool)

/-! ### What they append -/

section Emitters

variable {L : BlockPool σ} {s : σ} {out : Bitmap} {key first last cardinality low high : Nat}

theorem wordLoopChecked_fills (w fuel : Nat) {word : BitVec 64} {values : Buffer Nat arrayMax}
    (hfuel : (bits word).length ≤ fuel)
    (h : values.entries.length + (wordLoop w fuel word).length ≤ arrayMax) :
    values.Fills (wordLoop w fuel word) (wordLoopChecked w fuel word values) := by
  induction fuel generalizing word values with
  | zero =>
      have hz : word = 0#64 := bits_eq_nil.mp (List.length_eq_zero_iff.mp (Nat.le_zero.mp hfuel))
      rw [wordLoopChecked, if_pos hz]
      exact Buffer.fills_nil values
  | succ fuel ih =>
      unfold wordLoop at h ⊢
      unfold wordLoopChecked
      -- the lowest bit is written and cleared
      by_cases hz : word = 0#64
      · rw [if_pos hz, if_pos hz]
        exact Buffer.fills_nil values
      · rw [if_neg hz] at h ⊢
        rw [if_neg hz]
        refine Buffer.Fills.cons h fun filled hroom => ih ?_ hroom
        rw [bits_eq_ctz_cons hz, List.length_cons] at hfuel
        rw [and_sub_one hz]
        omega

/-- The words hold as many bits as the emitter is told, so an array has room for them. -/
theorem emitWordsChecked_eq {words : Array64} (hl : last < 1024)
    (hcard : cardinality = (bitsBetween words first last).length) :
    emitWordsChecked L out key words first last cardinality s
      = some (emitWords L out key words first last cardinality s) := by
  unfold emitWordsChecked
  by_cases hsmall : 0 < cardinality ∧ cardinality ≤ arrayMax
  · rw [if_pos hsmall]
    -- word by word, what is written fits as long as all of it does
    have hfill : (Buffer.empty Nat arrayMax).Fills
        ((List.range' first (last + 1 - first)).flatMap fun w => wordLoop w 64 (words w)) _ :=
      Buffer.fills_foldlM
        (fun w _ values hroom => wordLoopChecked_fills w 64 (length_bits_le (words w)) hroom) <| by
          rw [flatMap_wordLoop words first hl, ← hcard]
          exact Buffer.empty_room hsmall.2
    rw [hfill.map fun values => emitArray L out key values values.length s, emitWords,
      if_neg (by omega), if_pos hsmall.2]
  · rw [if_neg hsmall]

theorem valuesToContainersChecked_eq (fuel : Nat) {values : List Nat}
    (hfuel : values.length ≤ fuel) (h : values.length ≤ 2 * sparseMax) (out : Bitmap) (s : σ) :
    valuesToContainersChecked L fuel out values s
      = some (valuesToContainers L fuel out values s) := by
  induction fuel generalizing values out s with
  | zero =>
      obtain rfl : values = [] := List.length_eq_zero_iff.mp (Nat.le_zero.mp hfuel)
      rfl
  | succ fuel ih =>
      cases values with
      | nil => rfl
      | cons value values =>
          rw [valuesToContainersChecked, valuesToContainers]
          simp only
          set group := ((value :: values).takeWhile fun v => keyOf v = keyOf value).map lowOf
            with hgroup
          have hlength : group.length ≤ (value :: values).length := by
            rw [hgroup, List.length_map]
            exact (List.takeWhile_sublist _).length_le
          -- a key has no more values than there are
          have hfill : (Buffer.empty Nat (2 * sparseMax)).Fills group _ :=
            Buffer.putAll_fills (Buffer.empty_room (hlength.trans h))
          obtain ⟨lows, hput, hentries⟩ := hfill
          rw [hput, Option.bind_some, hentries]
          -- the group takes at least the first value, which the fuel is spent on
          have hrest : ((value :: values).dropWhile fun v => keyOf v = keyOf value).length
              ≤ values.length := by
            rw [List.dropWhile_cons_of_pos (by simp)]
            exact (List.dropWhile_sublist _).length_le
          simp only [List.length_cons] at hfuel h
          show (if (emitArray L out (keyOf value) group group.length s).result = .success then _
            else _) = _
          split
          · exact ih (by omega) (by omega) _ _
          · rfl

theorem valuesResultChecked_eq {values : List Nat} {count : Nat} (h : count ≤ 2 * sparseMax)
    (out : Bitmap) (s : σ) :
    valuesResultChecked L out values count s = some (valuesResult L out values count s) := by
  unfold valuesResultChecked
  by_cases hbig : sparseMax < count
  · have htake := List.length_take_le count values
    rw [if_pos hbig, valuesToContainersChecked_eq count htake (htake.trans h), valuesResult,
      if_neg (by omega), if_pos hbig]
  · rw [if_neg hbig]

/-- A sparse set in its full form has half the values `lows` has room for. -/
theorem sparseToContainersChecked_eq {set : Bitmap} (hv : set.Valid) (hs : set.isSparse = true) :
    sparseToContainersChecked L set s = some (sparseToContainers L set s) := by
  have hf := hv.sparseForm hs
  have hmax := hf.length_le
  have hlength : (set.values.take set.cardinality).length ≤ 2 * sparseMax :=
    (List.length_take_le' _ _).trans (by omega)
  unfold sparseToContainersChecked
  simp only
  rw [valuesToContainersChecked_eq _ (Nat.le_refl _) hlength, Option.map_some]
  rfl

theorem addChecked_eq {set : Bitmap} (hv : set.Valid) (value : Nat) (s : σ) :
    addChecked L set value s = some (add L set value s) := by
  unfold addChecked add
  by_cases hbelow : set.cardinality ≠ 0 ∧ value < set.maximum
  · rw [if_pos hbelow, if_pos hbelow]
  rw [if_neg hbelow, if_neg hbelow]
  by_cases hthere : set.cardinality ≠ 0 ∧ value = set.maximum
  · rw [if_pos hthere, if_pos hthere]
  rw [if_neg hthere, if_neg hthere]
  by_cases hfull : set.cardinality = uint32Max
  · rw [if_pos hfull, if_pos hfull]
  rw [if_neg hfull, if_neg hfull]
  by_cases hs : set.isSparse = true
  · rw [if_pos hs, if_pos hs]
    -- a set that is full is turned into containers first
    by_cases hroom : set.cardinality < sparseMax
    · rw [if_pos hroom, if_pos hroom]
    · rw [if_neg hroom, if_neg hroom, sparseToContainersChecked_eq hv hs, Option.map_some]
  · rw [if_neg hs, if_neg hs]

end Emitters

end Arnm.Roaring
