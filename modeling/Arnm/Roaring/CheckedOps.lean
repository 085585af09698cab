import Arnm.Roaring.Checked

set_option autoImplicit false

/-! # The set operations with their buffers

And, or, andnot and a range copied out with `values`, `kept` and `merged` on the stack: as before, a
call has no answer where a write leaves its buffer. What bounds the writes is kept elsewhere, arrays
of at most `arrayMax` values and sparse sets of at most `sparseMax`, and the operations never pass
it. -/

namespace Arnm.Roaring

open Listing Words Memory Lending Source

variable {σ : Type} (lender : BlockPool σ)

/-! ## One key -/

/-- `emitClip`, checked. -/
def emitClipChecked (out : Bitmap) (c : Clip) (pool : σ) : Option (Built σ) :=
  if c.container.isArray then
    some (emitArray lender out c.container.key c.entries (c.endAt - c.begin) pool)
  else
    let (words, cardinality) := clipAndCount c.container.wordsOf c.low c.high
    emitWordsChecked lender out c.container.key words (c.low >>> 6) (c.high >>> 6) cardinality pool

/-- `commonSearched`, written into `values`. -/
def commonSearchedChecked :
    List Nat → List Nat → Buffer Nat arrayMax → Option (Buffer Nat arrayMax)
  | [], _, values => some values
  | _ :: _, [], values => some values
  | x :: xs, y :: ys, values =>
    let left := (y :: ys).drop (lowerBound16 (y :: ys) (ys.length + 1) x)
    if left.head? = some x then (values.put x).bind (commonSearchedChecked xs left)
    else commonSearchedChecked xs left values

/-- `andArrays`, its 4096 `values` checked. -/
def andArraysChecked (out : Bitmap) (a b : Clip) (pool : σ) : Option (Built σ) :=
  let nx := a.endAt - a.begin
  let ny := b.endAt - b.begin
  let (x, y) := if ny < nx then (b.entries, a.entries) else (a.entries, b.entries)
  let values := Buffer.empty Nat arrayMax
  let filled :=
    if min nx ny * 32 < max nx ny then commonSearchedChecked x y values
    else Buffer.common (nx + ny) x y values
  filled.map fun values =>
    emitArray lender out a.container.key values.entries values.entries.length pool

/-- `filterArrayByWords`, its 4096 `values` checked. -/
def filterArrayByWordsChecked (out : Bitmap) (a b : Clip) (keep : Bool) (pool : σ) :
    Option (Built σ) :=
  (Buffer.putWhere (fun x => hasBit b.container.wordsOf x = keep) a.entries
    (Buffer.empty Nat arrayMax)).map fun values =>
      emitArray lender out a.container.key values.entries values.entries.length pool

/-- `combineWords`, checked. -/
def combineWordsChecked (out : Bitmap) (a b : Clip) (op : WordOp) (pool : σ) : Option (Built σ) :=
  let combined : Array64 := fun w => op.apply (a.container.wordsOf w) (b.container.wordsOf w)
  let (words, cardinality) := clipAndCount combined a.low a.high
  emitWordsChecked lender out a.container.key words (a.low >>> 6) (a.high >>> 6) cardinality pool

/-- `wordsWithArray`, checked. -/
def wordsWithArrayChecked (out : Bitmap) (a b : Clip) (set : Bool) (pool : σ) : Option (Built σ) :=
  let changed := b.entries.foldl (if set then setBit else clearBit) a.container.wordsOf
  let (words, cardinality) := clipAndCount changed a.low a.high
  emitWordsChecked lender out a.container.key words (a.low >>> 6) (a.high >>> 6) cardinality pool

/-- `orArrays`, its 4096 `values` checked. -/
def orArraysChecked (out : Bitmap) (a b : Clip) (pool : σ) : Option (Built σ) :=
  let nx := a.endAt - a.begin
  let ny := b.endAt - b.begin
  if arrayMax < nx + ny then
    -- may pass 4096: straight into bits, `values` is never written
    let first := a.low >>> 6
    let last := a.high >>> 6
    let words := b.entries.foldl setBit (a.entries.foldl setBit fun _ => 0#64)
    let cardinality :=
      ((List.range' first (last + 1 - first)).map fun w => popcountll (words w)).sum
    emitWordsChecked lender out a.container.key words first last cardinality pool
  else
    (Buffer.either (nx + ny) a.entries b.entries (Buffer.empty Nat arrayMax)).map fun values =>
      emitArray lender out a.container.key values.entries values.entries.length pool

/-- `andnotArrays`, its 4096 `values` checked. -/
def andnotArraysChecked (out : Bitmap) (a b : Clip) (pool : σ) : Option (Built σ) :=
  (Buffer.kept false a.entries b.entries (Buffer.empty Nat arrayMax)).map fun values =>
    emitArray lender out a.container.key values.entries values.entries.length pool

section Keys

variable {L : BlockPool σ} {s : σ} {out : Bitmap} {key low high : Nat} {a b : Clip}

/-- Words clipped to the range give the emitter their own count. -/
theorem emitWordsChecked_clip (words : Array64) (hh : high < 65536) :
    emitWordsChecked L out key (clipAndCount words low high).1 (low >>> 6) (high >>> 6)
        (clipAndCount words low high).2 s
      = some (emitWords L out key (clipAndCount words low high).1 (low >>> 6) (high >>> 6)
        (clipAndCount words low high).2 s) := by
  refine emitWordsChecked_eq ?_ (clipAndCount_eq_length words hh)
  rw [shiftRight_6]
  omega

theorem emitClipChecked_eq (hh : a.high < 65536) :
    emitClipChecked L out a s = some (emitClip L out a s) := by
  unfold emitClipChecked emitClip
  split
  · rfl
  · exact emitWordsChecked_clip _ hh

theorem combineWordsChecked_eq (op : WordOp) (hh : a.high < 65536) :
    combineWordsChecked L out a b op s = some (combineWords L out a b op s) :=
  emitWordsChecked_clip _ hh

theorem wordsWithArrayChecked_eq (set : Bool) (hh : a.high < 65536) :
    wordsWithArrayChecked L out a b set s = some (wordsWithArray L out a b set s) :=
  emitWordsChecked_clip _ hh

theorem Clip.length_entries_le (c : Clip) :
    c.entries.length ≤ c.container.arrayOf.length ∧ c.entries.length ≤ c.endAt - c.begin := by
  rw [Clip.entries, List.length_take, List.length_drop]
  omega

theorem length_commonSearched_le (xs ys : List Nat) :
    (commonSearched xs ys).length ≤ xs.length := by
  induction xs generalizing ys with
  | nil => rw [commonSearched]
  | cons x xs ih =>
      cases ys with
      | nil =>
          rw [commonSearched]
          exact Nat.zero_le _
      | cons y ys =>
          rw [commonSearched]
          simp only [List.length_cons]
          split
          · exact Nat.succ_le_succ (ih _)
          · exact Nat.le_succ_of_le (ih _)

theorem commonSearchedChecked_fills {xs ys : List Nat} {values : Buffer Nat arrayMax}
    (h : values.entries.length + (commonSearched xs ys).length ≤ arrayMax) :
    values.Fills (commonSearched xs ys) (commonSearchedChecked xs ys values) := by
  induction xs generalizing ys values with
  | nil =>
      rw [commonSearched, commonSearchedChecked]
      exact Buffer.fills_nil values
  | cons x xs ih =>
      -- the heads are searched for one by one, and a hit is written
      cases ys with
      | nil => exact Buffer.fills_nil values
      | cons y ys =>
          rw [commonSearched] at h ⊢
          rw [commonSearchedChecked]
          split
          · rename_i hhit
            rw [if_pos hhit] at h
            exact Buffer.Fills.cons h fun filled hroom => ih hroom
          · rename_i hmiss
            rw [if_neg hmiss] at h
            exact ih h

/-- The values in both arrays are values of the smaller one. -/
theorem andArraysChecked_eq (ha : a.container.arrayOf.length ≤ arrayMax)
    (hb : b.container.arrayOf.length ≤ arrayMax) :
    andArraysChecked L out a b s = some (andArrays L out a b s) := by
  obtain ⟨ha1, ha2⟩ := a.length_entries_le
  obtain ⟨hb1, hb2⟩ := b.length_entries_le
  unfold andArraysChecked andArrays
  simp only
  -- swapped or not, either array is a container's
  set pair := if b.endAt - b.begin < a.endAt - a.begin then (b.entries, a.entries)
    else (a.entries, b.entries) with hpair
  have hfirst : pair.1.length ≤ arrayMax ∧
      pair.1.length + pair.2.length ≤ a.endAt - a.begin + (b.endAt - b.begin) := by
    rw [hpair]
    split
    · exact ⟨hb1.trans hb, by simp only; omega⟩
    · exact ⟨ha1.trans ha, by simp only; omega⟩
  split
  · have hfill : (Buffer.empty Nat arrayMax).Fills (commonSearched pair.1 pair.2) _ :=
      commonSearchedChecked_fills
        (Buffer.empty_room ((length_commonSearched_le _ _).trans hfirst.1))
    exact hfill.map fun values => emitArray L out a.container.key values values.length s
  · have hfill : (Buffer.empty Nat arrayMax).Fills
        (Sorted.common (a.endAt - a.begin + (b.endAt - b.begin)) pair.1 pair.2) _ :=
      Buffer.common_fills _ hfirst.2
        (Buffer.empty_room ((Sorted.length_common_le _ _ _).trans hfirst.1))
    exact hfill.map fun values => emitArray L out a.container.key values values.length s

theorem filterArrayByWordsChecked_eq (keep : Bool) (ha : a.container.arrayOf.length ≤ arrayMax) :
    filterArrayByWordsChecked L out a b keep s = some (filterArrayByWords L out a b keep s) := by
  -- what is filtered is no longer than the array it is filtered from
  have hfill : (Buffer.empty Nat arrayMax).Fills
      (a.entries.filter fun x => hasBit b.container.wordsOf x = keep) _ :=
    Buffer.putWhere_fills ((Nat.zero_add _).trans_le
      ((List.length_filter_le _ _).trans (a.length_entries_le.1.trans ha)))
  exact hfill.map fun values => emitArray L out a.container.key values values.length s

/-- What may pass 4096 goes into bits, so the merge has room. -/
theorem orArraysChecked_eq (hh : a.high < 65536) :
    orArraysChecked L out a b s = some (orArrays L out a b s) := by
  obtain ⟨-, ha⟩ := a.length_entries_le
  obtain ⟨-, hb⟩ := b.length_entries_le
  have hlast : a.high >>> 6 < 1024 := by
    rw [shiftRight_6]
    omega
  unfold orArraysChecked orArrays
  simp only
  by_cases hbig : arrayMax < a.endAt - a.begin + (b.endAt - b.begin)
  · rw [if_pos hbig, if_pos hbig]
    exact emitWordsChecked_eq hlast (sum_popcountll _ _ hlast)
  · rw [if_neg hbig, if_neg hbig]
    have hlength := Sorted.length_either_le (a.endAt - a.begin + (b.endAt - b.begin)) a.entries
      b.entries
    have hfill : (Buffer.empty Nat arrayMax).Fills
        (Sorted.either (a.endAt - a.begin + (b.endAt - b.begin)) a.entries b.entries) _ :=
      Buffer.either_fills _ (by omega) (Buffer.empty_room (by omega))
    exact hfill.map fun values => emitArray L out a.container.key values values.length s

theorem andnotArraysChecked_eq (ha : a.container.arrayOf.length ≤ arrayMax) :
    andnotArraysChecked L out a b s = some (andnotArrays L out a b s) := by
  have hfill : (Buffer.empty Nat arrayMax).Fills (Sorted.kept false a.entries b.entries) _ :=
    Buffer.kept_fills false ((Nat.zero_add _).trans_le
      ((Sorted.length_kept_le _ _ _).trans (a.length_entries_le.1.trans ha)))
  exact hfill.map fun values => emitArray L out a.container.key values values.length s

end Keys

/-! ## Sparse inputs -/

/-- `keptOfKey`, written into `kept` without a branch. -/
def keptOfKeyChecked (keep : Bool) (container : Option Container) (values : List Nat)
    (kept : Buffer Nat sparseMax) : Option (Buffer Nat sparseMax) :=
  match container with
  -- without a container every value is written, and all of them stay or none
  | none => kept.storeWhere (fun _ => false = keep) values
  | some c =>
    match c.content with
    | .bitmap words => kept.storeWhere (fun v => hasBit words (lowOf v) = keep) values
    | _ => keptOfArrayChecked keep values (c.arrayOf.take c.cardinality) kept
where
  keptOfArrayChecked (keep : Bool) :
      List Nat → List Nat → Buffer Nat sparseMax → Option (Buffer Nat sparseMax)
    | [], _, kept => some kept
    | v :: values, array, kept =>
      let array := array.dropWhile (· < lowOf v)
      let has := decide (array.head? = some (lowOf v))
      (kept.putIf (has = keep) v).bind (keptOfArrayChecked keep values array)

/-- `keptOfKeys`, written into `kept`. -/
def keptOfKeysChecked (keep : Bool) :
    Nat → List Nat → List Container → Buffer Nat sparseMax → Option (Buffer Nat sparseMax)
  | _, [], _, kept => some kept
  | 0, _ :: _, _, _ => none
  | fuel + 1, value :: values, containers, kept =>
    let key := keyOf value
    let containers := containers.dropWhile fun c => c.key < key
    let container := containers.head?.filter fun c => c.key = key
    (keptOfKeyChecked keep container ((value :: values).takeWhile fun v => keyOf v = key) kept).bind
      (keptOfKeysChecked keep fuel ((value :: values).dropWhile fun v => keyOf v = key) containers)

/-- `sparseFilter`, its `sparseMax` entries of `kept` checked. -/
def sparseFilterChecked (out sparse other : Bitmap) (keep : Bool) (min max : Nat) (pool : σ) :
    Option (Built σ) :=
  let endAt := upperBound32 sparse.values sparse.cardinality max
  let i := lowerBound32 sparse.values sparse.cardinality min
  let values := (sparse.values.drop i).take (endAt - i)
  let filled :=
    if other.isSparse then
      -- both small and sorted: one walk through each, written under a branch
      let j := if other.cardinality ≠ 0 then lowerBound32 other.values other.cardinality min else 0
      Buffer.kept keep values (other.values.drop j) (Buffer.empty Nat sparseMax)
    else
      let c := match values with
        | [] => 0
        | value :: _ => other.firstContainer (keyOf value)
      keptOfKeysChecked keep values.length values (other.containers.drop c)
        (Buffer.empty Nat sparseMax)
  filled.bind fun kept => valuesResultChecked lender out kept.entries kept.entries.length pool

section Filter

variable {L : BlockPool σ} {s : σ} {out sparse other : Bitmap} {keep : Bool} {values : List Nat}
  {kept : Buffer Nat sparseMax}

theorem length_keptOfArray_le (keep : Bool) (values array : List Nat) :
    (keptOfKey.keptOfArray keep values array).length ≤ values.length := by
  induction values generalizing array with
  | nil => exact Nat.le_refl 0
  | cons v values ih =>
      unfold keptOfKey.keptOfArray
      simp only [List.length_cons]
      split
      · exact Nat.succ_le_succ (ih _)
      · exact Nat.le_succ_of_le (ih _)

theorem length_keptOfKey_le (keep : Bool) (container : Option Container) (values : List Nat) :
    (keptOfKey keep container values).length ≤ values.length := by
  unfold keptOfKey
  split
  · exact List.length_filter_le _ _
  · split
    · exact List.length_filter_le _ _
    · exact length_keptOfArray_le _ _ _

/-- Every value is written, kept or not; room for all of them is enough. -/
theorem keptOfArrayChecked_fills {array : List Nat}
    (h : kept.entries.length + values.length ≤ sparseMax) :
    kept.Fills (keptOfKey.keptOfArray keep values array)
      (keptOfKeyChecked.keptOfArrayChecked keep values array kept) := by
  induction values generalizing array kept with
  | nil => exact Buffer.fills_nil kept
  | cons v values ih =>
      rw [List.length_cons] at h
      unfold keptOfKey.keptOfArray keptOfKeyChecked.keptOfArrayChecked
      simp only
      set left := array.dropWhile (· < lowOf v)
      set has := decide (left.head? = some (lowOf v))
      have hput := Buffer.putIf_fills (b := kept) (by omega) (decide (has = keep)) v
      -- the entry written but not kept leaves the buffer as long as it was
      have hstep : kept.Fills ((if decide (has = keep) = true then [v] else [])
            ++ keptOfKey.keptOfArray keep values left)
          ((kept.putIf (has = keep) v).bind
            (keptOfKeyChecked.keptOfArrayChecked keep values left)) := by
        refine hput.bind fun filled hentries => ih ?_
        have hle : (if decide (has = keep) = true then [v] else []).length ≤ 1 := by split <;> simp
        rw [hentries, List.length_append]
        omega
      by_cases hkeep : has = keep
      · rw [if_pos hkeep]
        rwa [if_pos (decide_eq_true hkeep)] at hstep
      · rw [if_neg hkeep]
        rwa [if_neg (by simpa using hkeep)] at hstep

theorem keptOfKeyChecked_fills (container : Option Container)
    (h : kept.entries.length + values.length ≤ sparseMax) :
    kept.Fills (keptOfKey keep container values) (keptOfKeyChecked keep container values kept) := by
  unfold keptOfKey keptOfKeyChecked
  cases container with
  | none => exact Buffer.storeWhere_fills h
  | some c =>
      dsimp only
      cases c.content with
      | bitmap words => exact Buffer.storeWhere_fills h
      | array array => exact keptOfArrayChecked_fills h
      | wide wide => exact keptOfArrayChecked_fills h

theorem takeWhile_add_dropWhile (values : List Nat) (p : Nat → Bool) :
    (values.takeWhile p).length + (values.dropWhile p).length = values.length := by
  rw [← List.length_append, List.takeWhile_append_dropWhile]

theorem length_keptOfKeys_le (keep : Bool) (fuel : Nat) (values : List Nat)
    (containers : List Container) :
    (keptOfKeys keep fuel values containers).length ≤ values.length := by
  induction fuel generalizing values containers with
  | zero => exact Nat.zero_le _
  | succ fuel ih =>
      cases values with
      | nil => exact Nat.le_refl 0
      | cons value values =>
          rw [keptOfKeys, List.length_append,
            ← takeWhile_add_dropWhile (value :: values) fun v => keyOf v = keyOf value]
          exact Nat.add_le_add (length_keptOfKey_le _ _ _) (ih _ _)

/-- Key by key: what a key keeps takes no more room than its values did. -/
theorem keptOfKeysChecked_fills (fuel : Nat) {containers : List Container}
    (hfuel : values.length ≤ fuel) (h : kept.entries.length + values.length ≤ sparseMax) :
    kept.Fills (keptOfKeys keep fuel values containers)
      (keptOfKeysChecked keep fuel values containers kept) := by
  induction fuel generalizing values containers kept with
  | zero =>
      obtain rfl : values = [] := List.length_eq_zero_iff.mp (Nat.le_zero.mp hfuel)
      exact Buffer.fills_nil kept
  | succ fuel ih =>
      cases values with
      | nil => exact Buffer.fills_nil kept
      | cons value values =>
          rw [keptOfKeys, keptOfKeysChecked]
          set ahead := containers.dropWhile fun c => c.key < keyOf value
          set container := ahead.head?.filter fun c => c.key = keyOf value
          have hparts := takeWhile_add_dropWhile (value :: values) fun v => keyOf v = keyOf value
          -- the first value is of its own key, so the rest is shorter
          have hrest :
              ((value :: values).dropWhile fun v => keyOf v = keyOf value).length ≤ fuel := by
            rw [List.dropWhile_cons_of_pos (by simp)]
            rw [List.length_cons] at hfuel
            exact (List.dropWhile_sublist _).length_le.trans (by omega)
          set group := (value :: values).takeWhile fun v => keyOf v = keyOf value
          have hgroup := length_keptOfKey_le keep container group
          refine (keptOfKeyChecked_fills container (by omega)).bind fun filled hentries => ?_
          apply ih hrest
          rw [hentries, List.length_append]
          omega

/-- The values of a sparse set inside the range are no more than `kept` has entries. -/
theorem sparseFilterChecked_eq (hs : sparse.Valid) (hsparse : sparse.isSparse = true)
    (keep : Bool) (min max : Nat) :
    sparseFilterChecked L out sparse other keep min max s
      = some (sparseFilter L out sparse other keep min max s) := by
  have hf := hs.sparseForm hsparse
  unfold sparseFilterChecked sparseFilter
  simp only
  set values := (sparse.values.drop (lowerBound32 sparse.values sparse.cardinality min)).take
    (upperBound32 sparse.values sparse.cardinality max
      - lowerBound32 sparse.values sparse.cardinality min) with hvalues
  have hlength : values.length ≤ sparseMax := by
    have hmax := hf.length_le
    rw [hvalues, List.length_take, List.length_drop]
    omega
  -- whichever way the values were filtered, they are built from in the same way
  have hdone : ∀ {kept : List Nat} {r : Option (Buffer Nat sparseMax)},
      (Buffer.empty Nat sparseMax).Fills kept r → kept.length ≤ values.length →
      (r.bind fun filled => valuesResultChecked L out filled.entries filled.entries.length s)
        = some (valuesResult L out kept kept.length s) := by
    rintro kept r ⟨filled, rfl, hentries⟩ hkept
    have hentries' : filled.entries = kept := hentries
    rw [Option.bind_some, hentries']
    exact valuesResultChecked_eq (by omega) out s
  by_cases hos : other.isSparse = true
  · rw [if_pos hos, if_pos hos]
    have hkept := Sorted.length_kept_le keep values (other.values.drop
      (if other.cardinality ≠ 0 then lowerBound32 other.values other.cardinality min else 0))
    exact hdone (Buffer.kept_fills keep (Buffer.empty_room (hkept.trans hlength))) hkept
  · rw [if_neg hos, if_neg hos]
    exact hdone (keptOfKeysChecked_fills _ (Nat.le_refl _) (Buffer.empty_room hlength))
      (length_keptOfKeys_le _ _ _ _)

end Filter

/-! ## The operations -/

/-- `andLoop`, checked; none where the steps did not last. -/
def andLoopChecked (min max : Nat) : Nat → Bitmap → Source → Source → σ → Option (Built σ)
  | 0, _, _, _, _ => none
  | steps + 1, out, sa, sb, pool =>
    match sa.current, sb.current with
    | some x, some y =>
      if x.key < y.key then
        sa.advanceChecked.bind fun sa => andLoopChecked min max steps out sa sb pool
      else if y.key < x.key then
        sb.advanceChecked.bind fun sb => andLoopChecked min max steps out sa sb pool
      else
        let (low, high) := containerBounds x.key min max
        let cx := makeClip x low high
        let cy := makeClip y low high
        let built :=
          if x.isArray ∧ y.isArray then andArraysChecked lender out cx cy pool
          else if x.isArray then filterArrayByWordsChecked lender out cx cy true pool
          else if y.isArray then filterArrayByWordsChecked lender out cy cx true pool
          else combineWordsChecked lender out cx cy .and pool
        built.bind fun r =>
          if r.result = .success then
            sa.advanceChecked.bind fun sa => sb.advanceChecked.bind fun sb =>
              andLoopChecked min max steps r.set sa sb r.pool
          else some (finish lender r)
    | _, _ => some ⟨.success, out, pool⟩

/-- `roaringAnd`, checked. -/
def roaringAndChecked (out a b : Bitmap) (min max : Nat) (pool : σ) : Option (Built σ) :=
  if max < min then some ⟨.success, out, pool⟩
  else if a.isSparse ∨ b.isSparse then
    -- the smaller sparse one is read, the other asked
    let readA := a.isSparse && (!b.isSparse || a.cardinality ≤ b.cardinality)
    (sparseFilterChecked lender out (if readA then a else b) (if readA then b else a) true min max
      pool).map (finish lender)
  else
    (startChecked a min max false true).bind fun sa =>
      (startChecked b min max false true).bind fun sb =>
        andLoopChecked lender min max walkSteps out sa sb pool

/-- `orLoop`, checked. -/
def orLoopChecked (min max : Nat) : Nat → Bitmap → Source → Source → σ → Option (Built σ)
  | 0, _, _, _, _ => none
  | steps + 1, out, sa, sb, pool =>
    let onlyA (x : Container) : Option (Built σ) :=
      let (low, high) := containerBounds x.key min max
      (emitClipChecked lender out (makeClip x low high) pool).bind fun r =>
        if r.result = .success then
          sa.advanceChecked.bind fun sa => orLoopChecked min max steps r.set sa sb r.pool
        else some (finish lender r)
    let onlyB (y : Container) : Option (Built σ) :=
      let (low, high) := containerBounds y.key min max
      (emitClipChecked lender out (makeClip y low high) pool).bind fun r =>
        if r.result = .success then
          sb.advanceChecked.bind fun sb => orLoopChecked min max steps r.set sa sb r.pool
        else some (finish lender r)
    match sa.current, sb.current with
    | none, none => some ⟨.success, out, pool⟩
    | some x, none => onlyA x
    | none, some y => onlyB y
    | some x, some y =>
      if x.key < y.key then onlyA x
      else if y.key < x.key then onlyB y
      else
        let (low, high) := containerBounds x.key min max
        let cx := makeClip x low high
        let cy := makeClip y low high
        let built :=
          if x.isArray ∧ y.isArray then orArraysChecked lender out cx cy pool
          else if x.isArray then wordsWithArrayChecked lender out cy cx true pool
          else if y.isArray then wordsWithArrayChecked lender out cx cy true pool
          else combineWordsChecked lender out cx cy .or pool
        built.bind fun r =>
          if r.result = .success then
            sa.advanceChecked.bind fun sa => sb.advanceChecked.bind fun sb =>
              orLoopChecked min max steps r.set sa sb r.pool
          else some (finish lender r)

/-- `roaringOr`, its `2 * sparseMax` entries of `merged` checked. -/
def roaringOrChecked (out a b : Bitmap) (min max : Nat) (pool : σ) : Option (Built σ) :=
  if max < min then some ⟨.success, out, pool⟩
  else if a.isSparse ∧ b.isSparse then
    -- two small sorted arrays: merged in one walk, the rest of one of them behind
    let i := lowerBound32 a.values a.cardinality min
    let j := lowerBound32 b.values b.cardinality min
    let endA := upperBound32 a.values a.cardinality max
    let endB := upperBound32 b.values b.cardinality max
    (Buffer.either (a.cardinality + b.cardinality) ((a.values.drop i).take (endA - i))
      ((b.values.drop j).take (endB - j)) (Buffer.empty Nat (2 * sparseMax))).bind fun merged =>
        (valuesResultChecked lender out merged.entries merged.entries.length pool).map
          (finish lender)
  else
    (startChecked a min max false true).bind fun sa =>
      (startChecked b min max false true).bind fun sb =>
        orLoopChecked lender min max walkSteps out sa sb pool

/-- `andnotLoop`, checked. -/
def andnotLoopChecked (min max : Nat) : Nat → Bitmap → Source → Source → σ → Option (Built σ)
  | 0, _, _, _, _ => none
  | steps + 1, out, sa, sb, pool =>
    match sa.current with
    | none => some ⟨.success, out, pool⟩
    | some x =>
      (sb.seekChecked x.key false 0x10001).bind fun sb =>
        let (low, high) := containerBounds x.key min max
        let cx := makeClip x low high
        let built :=
          match sb.current with
          | none => emitClipChecked lender out cx pool
          | some y =>
            if y.key ≠ x.key then emitClipChecked lender out cx pool
            else
              let cy := makeClip y low high
              if x.isArray ∧ y.isArray then andnotArraysChecked lender out cx cy pool
              else if x.isArray then filterArrayByWordsChecked lender out cx cy false pool
              else if y.isArray then wordsWithArrayChecked lender out cx cy false pool
              else combineWordsChecked lender out cx cy .andnot pool
        built.bind fun r =>
          if r.result = .success then
            sa.advanceChecked.bind fun sa => andnotLoopChecked min max steps r.set sa sb r.pool
          else some (finish lender r)

/-- `roaringAndnot`, checked. -/
def roaringAndnotChecked (out a b : Bitmap) (min max : Nat) (pool : σ) : Option (Built σ) :=
  if max < min then some ⟨.success, out, pool⟩
  else if a.isSparse then
    (sparseFilterChecked lender out a b false min max pool).map (finish lender)
  else
    (startChecked a min max false true).bind fun sa =>
      (startChecked b min max false true).bind fun sb =>
        andnotLoopChecked lender min max walkSteps out sa sb pool

/-- `copyLoop`, checked. -/
def copyLoopChecked (min max : Nat) : Nat → Bitmap → Source → σ → Option (Built σ)
  | 0, _, _, _ => none
  | steps + 1, out, source, pool =>
    match source.current with
    | none => some ⟨.success, out, pool⟩
    | some c =>
      let (low, high) := containerBounds c.key min max
      (emitClipChecked lender out (makeClip c low high) pool).bind fun r =>
        if r.result = .success then
          source.advanceChecked.bind fun source => copyLoopChecked min max steps r.set source r.pool
        else some (finish lender r)

/-- `roaringCopyRange`, checked. -/
def roaringCopyRangeChecked (out a : Bitmap) (min max : Nat) (pool : σ) : Option (Built σ) :=
  if max < min then some ⟨.success, out, pool⟩
  else if a.isSparse then
    if a.cardinality = 0 then some ⟨.success, out, pool⟩
    else
      let begin := lowerBound32 a.values a.cardinality min
      let endAt := upperBound32 a.values a.cardinality max
      (valuesResultChecked lender out (a.values.drop begin) (endAt - begin) pool).map
        (finish lender)
  else
    (startChecked a min max false true).bind fun source =>
      copyLoopChecked lender min max walkSteps out source pool

section Loops

variable {L : BlockPool σ} {a b out : Bitmap} {s : σ} {x y : Container} {min max low high : Nat}

theorem andKeyChecked_eq (hx : x.Plain) (hy : y.Plain) (hh : high < 65536) :
    (if x.isArray ∧ y.isArray then
        andArraysChecked L out (makeClip x low high) (makeClip y low high) s
      else if x.isArray then
        filterArrayByWordsChecked L out (makeClip x low high) (makeClip y low high) true s
      else if y.isArray then
        filterArrayByWordsChecked L out (makeClip y low high) (makeClip x low high) true s
      else combineWordsChecked L out (makeClip x low high) (makeClip y low high) .and s)
      = some (if x.isArray ∧ y.isArray then
          andArrays L out (makeClip x low high) (makeClip y low high) s
        else if x.isArray then
          filterArrayByWords L out (makeClip x low high) (makeClip y low high) true s
        else if y.isArray then
          filterArrayByWords L out (makeClip y low high) (makeClip x low high) true s
        else combineWords L out (makeClip x low high) (makeClip y low high) .and s) := by
  have hxl : (makeClip x low high).container.arrayOf.length ≤ arrayMax := by
    rw [makeClip_container]
    exact hx.length_le
  have hyl : (makeClip y low high).container.arrayOf.length ≤ arrayMax := by
    rw [makeClip_container]
    exact hy.length_le
  -- the four forms of a key; two arrays and a filter need their containers plain
  split_ifs
  · exact andArraysChecked_eq hxl hyl
  · exact filterArrayByWordsChecked_eq true hxl
  · exact filterArrayByWordsChecked_eq true hyl
  · exact combineWordsChecked_eq .and (by rwa [makeClip_high])

theorem orKeyChecked_eq (hh : high < 65536) :
    (if x.isArray ∧ y.isArray then
        orArraysChecked L out (makeClip x low high) (makeClip y low high) s
      else if x.isArray then
        wordsWithArrayChecked L out (makeClip y low high) (makeClip x low high) true s
      else if y.isArray then
        wordsWithArrayChecked L out (makeClip x low high) (makeClip y low high) true s
      else combineWordsChecked L out (makeClip x low high) (makeClip y low high) .or s)
      = some (if x.isArray ∧ y.isArray then
          orArrays L out (makeClip x low high) (makeClip y low high) s
        else if x.isArray then
          wordsWithArray L out (makeClip y low high) (makeClip x low high) true s
        else if y.isArray then
          wordsWithArray L out (makeClip x low high) (makeClip y low high) true s
        else combineWords L out (makeClip x low high) (makeClip y low high) .or s) := by
  -- no form needs more than the words of one key
  split_ifs
  · exact orArraysChecked_eq (by rwa [makeClip_high])
  · exact wordsWithArrayChecked_eq true (by rwa [makeClip_high])
  · exact wordsWithArrayChecked_eq true (by rwa [makeClip_high])
  · exact combineWordsChecked_eq .or (by rwa [makeClip_high])

theorem andnotKeyChecked_eq (hx : x.Plain) (hh : high < 65536) :
    (if x.isArray ∧ y.isArray then
        andnotArraysChecked L out (makeClip x low high) (makeClip y low high) s
      else if x.isArray then
        filterArrayByWordsChecked L out (makeClip x low high) (makeClip y low high) false s
      else if y.isArray then
        wordsWithArrayChecked L out (makeClip x low high) (makeClip y low high) false s
      else combineWordsChecked L out (makeClip x low high) (makeClip y low high) .andnot s)
      = some (if x.isArray ∧ y.isArray then
          andnotArrays L out (makeClip x low high) (makeClip y low high) s
        else if x.isArray then
          filterArrayByWords L out (makeClip x low high) (makeClip y low high) false s
        else if y.isArray then
          wordsWithArray L out (makeClip x low high) (makeClip y low high) false s
        else combineWords L out (makeClip x low high) (makeClip y low high) .andnot s) := by
  have hxl : (makeClip x low high).container.arrayOf.length ≤ arrayMax := by
    rw [makeClip_container]
    exact hx.length_le
  split_ifs
  · exact andnotArraysChecked_eq hxl
  · exact filterArrayByWordsChecked_eq false hxl
  · exact wordsWithArrayChecked_eq false (by rwa [makeClip_high])
  · exact combineWordsChecked_eq .andnot (by rwa [makeClip_high])

/-- What is built for a key agrees, so the checked loop goes on where the loop does. -/
theorem bind_built {built : Option (Built σ)} {r : Built σ} (h : built = some r)
    (next : Bitmap → σ → Option (Built σ)) (next' : Bitmap → σ → Built σ)
    (hnext : ∀ out s, next out s = some (next' out s)) :
    (built.bind fun r => if r.result = .success then next r.set r.pool else some (finish L r))
      = some (if r.result = .success then next' r.set r.pool else finish L r) := by
  rw [h, Option.bind_some]
  split
  · exact hnext _ _
  · rfl

theorem emitClipChecked_key (c : Container) (key : Nat) :
    emitClipChecked L out (makeClip c (containerBounds key min max).1
        (containerBounds key min max).2) s
      = some (emitClip L out (makeClip c (containerBounds key min max).1
        (containerBounds key min max).2) s) := by
  refine emitClipChecked_eq ?_
  rw [makeClip_high]
  exact containerBounds_lt

/-- The checked walk through two sources goes on as long as theirs does. -/
theorem andLoopChecked_eq (ha : a.Valid) (hb : b.Valid) :
    ∀ (steps : Nat) {out : Bitmap} {sa sb : Source} {s : σ} {k k' : Nat},
      sa.left + sb.left < steps → sa.Reads a min max k → sb.Reads b min max k' →
      andLoopChecked L min max steps out sa sb s = some (andLoop L min max steps out sa sb s) := by
  intro steps
  induction steps with
  | zero =>
      intro out sa sb s k k' hsteps
      exact absurd hsteps (Nat.not_lt_zero _)
  | succ steps ih =>
      intro out sa sb s k k' hsteps hsa hsb
      rw [andLoopChecked, andLoop]
      cases hx : sa.current with
      | none => rfl
      | some x =>
          cases hy : sb.current with
          | none => rfl
          | some y =>
              obtain ⟨hxp, -⟩ := hsa.shows ha hx
              obtain ⟨hyp, -⟩ := hsb.shows hb hy
              obtain ⟨hsa', hlefta⟩ := hsa.advance hx
              obtain ⟨hsb', hleftb⟩ := hsb.advance hy
              rw [(hsa.sound ha).advanceChecked, (hsb.sound hb).advanceChecked]
              simp only [Option.bind_some]
              -- one source moves on to the other's key, or both give to the same one
              split
              · exact ih (by omega) hsa' hsb
              split
              · exact ih (by omega) hsa hsb'
              exact bind_built (andKeyChecked_eq hxp hyp containerBounds_lt)
                (fun out s => andLoopChecked L min max steps out sa.advance sb.advance s)
                (fun out s => andLoop L min max steps out sa.advance sb.advance s)
                fun out s => ih (by omega) hsa' hsb'

theorem orLoopChecked_eq (ha : a.Valid) (hb : b.Valid) :
    ∀ (steps : Nat) {out : Bitmap} {sa sb : Source} {s : σ} {k k' : Nat},
      sa.left + sb.left < steps → sa.Reads a min max k → sb.Reads b min max k' →
      orLoopChecked L min max steps out sa sb s = some (orLoop L min max steps out sa sb s) := by
  intro steps
  induction steps with
  | zero =>
      intro out sa sb s k k' hsteps
      exact absurd hsteps (Nat.not_lt_zero _)
  | succ steps ih =>
      intro out sa sb s k k' hsteps hsa hsb
      rw [orLoopChecked, orLoop, (hsa.sound ha).advanceChecked, (hsb.sound hb).advanceChecked]
      simp only [Option.bind_some]
      -- the source that is behind, or the only one left, gives its own container
      cases hx : sa.current with
      | none =>
          cases hy : sb.current with
          | none => rfl
          | some y =>
              obtain ⟨hsb', hleftb⟩ := hsb.advance hy
              exact bind_built (emitClipChecked_key y _)
                (fun out s => orLoopChecked L min max steps out sa sb.advance s)
                (fun out s => orLoop L min max steps out sa sb.advance s)
                fun out s => ih (by omega) hsa hsb'
      | some x =>
          obtain ⟨hsa', hlefta⟩ := hsa.advance hx
          cases hy : sb.current with
          | none =>
              exact bind_built (emitClipChecked_key x _)
                (fun out s => orLoopChecked L min max steps out sa.advance sb s)
                (fun out s => orLoop L min max steps out sa.advance sb s)
                fun out s => ih (by omega) hsa' hsb
          | some y =>
              obtain ⟨hsb', hleftb⟩ := hsb.advance hy
              dsimp only
              split
              · exact bind_built (emitClipChecked_key x _)
                  (fun out s => orLoopChecked L min max steps out sa.advance sb s)
                  (fun out s => orLoop L min max steps out sa.advance sb s)
                  fun out s => ih (by omega) hsa' hsb
              split
              · exact bind_built (emitClipChecked_key y _)
                  (fun out s => orLoopChecked L min max steps out sa sb.advance s)
                  (fun out s => orLoop L min max steps out sa sb.advance s)
                  fun out s => ih (by omega) hsa hsb'
              exact bind_built (orKeyChecked_eq containerBounds_lt)
                (fun out s => orLoopChecked L min max steps out sa.advance sb.advance s)
                (fun out s => orLoop L min max steps out sa.advance sb.advance s)
                fun out s => ih (by omega) hsa' hsb'

theorem andnotLoopChecked_eq (ha : a.Valid) (hb : b.Valid) :
    ∀ (steps : Nat) {out : Bitmap} {sa sb : Source} {s : σ} {k j : Nat}, sa.left < steps →
      sa.Reads a min max k → j ≤ k → sb.Reads b min max j →
      andnotLoopChecked L min max steps out sa sb s
        = some (andnotLoop L min max steps out sa sb s) := by
  intro steps
  induction steps with
  | zero =>
      intro out sa sb s k j hsteps
      exact absurd hsteps (Nat.not_lt_zero _)
  | succ steps ih =>
      intro out sa sb s k j hsteps hsa hj hsb
      rw [andnotLoopChecked, andnotLoop]
      cases hx : sa.current with
      | none => rfl
      | some x =>
          obtain ⟨hxp, hkx, -⟩ := hsa.shows ha hx
          obtain ⟨hsa', hlefta⟩ := hsa.advance hx
          have hseek := hsb.seek (Nat.le_trans hj hkx)
          simp only [hsb.seekChecked hb x.key, Option.bind_some, (hsa.sound ha).advanceChecked]
          -- the second source stays where it was brought to
          refine bind_built ?_
            (fun out s => andnotLoopChecked L min max steps out sa.advance
              (sourceSeek sb x.key false) s)
            (fun out s => andnotLoop L min max steps out sa.advance (sourceSeek sb x.key false) s)
            fun out s => ih (by omega) hsa' (by omega) hseek
          cases (sourceSeek sb x.key false).current with
          | none => exact emitClipChecked_key x _
          | some y =>
              dsimp only
              by_cases hkey : y.key ≠ x.key
              · rw [if_pos hkey, if_pos hkey]
                exact emitClipChecked_key x _
              · rw [if_neg hkey, if_neg hkey]
                exact andnotKeyChecked_eq hxp containerBounds_lt

theorem copyLoopChecked_eq (ha : a.Valid) :
    ∀ (steps : Nat) {out : Bitmap} {source : Source} {s : σ} {k : Nat}, source.left < steps →
      source.Reads a min max k →
      copyLoopChecked L min max steps out source s =
        some (copyLoop L min max steps out source s) := by
  intro steps
  induction steps with
  | zero =>
      intro out source s k hsteps
      exact absurd hsteps (Nat.not_lt_zero _)
  | succ steps ih =>
      intro out source s k hsteps hsource
      rw [copyLoopChecked, copyLoop, (hsource.sound ha).advanceChecked]
      simp only [Option.bind_some]
      -- each container shown takes the source a step on, and the steps last for all
      cases hx : source.current with
      | none => rfl
      | some x =>
          obtain ⟨hsource', hleft⟩ := hsource.advance hx
          exact bind_built (emitClipChecked_key x _)
            (fun out s => copyLoopChecked L min max steps out source.advance s)
            (fun out s => copyLoop L min max steps out source.advance s)
            fun out s => ih (by omega) hsource'

theorem roaringAndChecked_eq (ha : a.Valid) (hb : b.Valid) (out : Bitmap) (min max : Nat) (s : σ) :
    roaringAndChecked L out a b min max s = some (roaringAnd L out a b min max s) := by
  unfold roaringAndChecked roaringAnd
  by_cases hlt : max < min
  · rw [if_pos hlt, if_pos hlt]
  rw [if_neg hlt, if_neg hlt]
  by_cases hsparse : a.isSparse = true ∨ b.isSparse = true
  · rw [if_pos hsparse, if_pos hsparse]
    dsimp only
    by_cases hread : (a.isSparse && (!b.isSparse || decide (a.cardinality ≤ b.cardinality))) = true
    · rw [if_pos hread, if_pos hread]
      rw [Bool.and_eq_true] at hread
      rw [sparseFilterChecked_eq ha hread.1, Option.map_some]
    · -- then the second set is sparse
      have hbs : b.isSparse = true := by
        rcases hsparse with has | hbs
        · by_contra hbs
          rw [Bool.not_eq_true] at hbs
          simp [has, hbs] at hread
        · exact hbs
      rw [if_neg hread, if_neg hread, sparseFilterChecked_eq hb hbs, Option.map_some]
  · rw [if_neg hsparse, if_neg hsparse, startChecked_eq ha, startChecked_eq hb]
    simp only [Option.bind_some]
    exact andLoopChecked_eq ha hb walkSteps (left_add_left_lt _ _) (reads_start ha min max)
      (reads_start hb min max)

/-- Two sparse sets merged have room in `merged`. -/
theorem roaringOrChecked_eq (ha : a.Valid) (hb : b.Valid) (out : Bitmap) (min max : Nat) (s : σ) :
    roaringOrChecked L out a b min max s = some (roaringOr L out a b min max s) := by
  unfold roaringOrChecked roaringOr
  by_cases hlt : max < min
  · rw [if_pos hlt, if_pos hlt]
  rw [if_neg hlt, if_neg hlt]
  by_cases hsparse : a.isSparse = true ∧ b.isSparse = true
  · rw [if_pos hsparse, if_pos hsparse]
    dsimp only
    have hfa := ha.sparseForm hsparse.1
    have hfb := hb.sparseForm hsparse.2
    -- what lies in the range is no more than either set holds
    set xs := (a.values.drop (lowerBound32 a.values a.cardinality min)).take
      (upperBound32 a.values a.cardinality max - lowerBound32 a.values a.cardinality min) with hxs
    set ys := (b.values.drop (lowerBound32 b.values b.cardinality min)).take
      (upperBound32 b.values b.cardinality max - lowerBound32 b.values b.cardinality min) with hys
    have hxl : xs.length ≤ a.values.length := by
      rw [hxs, List.length_take, List.length_drop]
      omega
    have hyl : ys.length ≤ b.values.length := by
      rw [hys, List.length_take, List.length_drop]
      omega
    have hmaxa := hfa.length_le
    have hmaxb := hfb.length_le
    have hlength := Sorted.length_either_le (a.cardinality + b.cardinality) xs ys
    have hfuel : xs.length + ys.length ≤ a.cardinality + b.cardinality := by
      rw [hfa.cardinality_eq, hfb.cardinality_eq]
      omega
    have hfill : (Buffer.empty Nat (2 * sparseMax)).Fills
        (Sorted.either (a.cardinality + b.cardinality) xs ys) _ :=
      Buffer.either_fills _ hfuel (Buffer.empty_room (by omega))
    obtain ⟨merged, hrun, hentries⟩ := hfill
    have hentries' :
        merged.entries = Sorted.either (a.cardinality + b.cardinality) xs ys := hentries
    rw [hrun, Option.bind_some, hentries', valuesResultChecked_eq (by omega), Option.map_some]
  · rw [if_neg hsparse, if_neg hsparse, startChecked_eq ha, startChecked_eq hb]
    simp only [Option.bind_some]
    exact orLoopChecked_eq ha hb walkSteps (left_add_left_lt _ _) (reads_start ha min max)
      (reads_start hb min max)

theorem roaringAndnotChecked_eq (ha : a.Valid) (hb : b.Valid) (out : Bitmap) (min max : Nat)
    (s : σ) : roaringAndnotChecked L out a b min max s =
    some (roaringAndnot L out a b min max s) := by
  unfold roaringAndnotChecked roaringAndnot
  by_cases hlt : max < min
  · rw [if_pos hlt, if_pos hlt]
  rw [if_neg hlt, if_neg hlt]
  by_cases hsparse : a.isSparse = true
  · rw [if_pos hsparse, if_pos hsparse, sparseFilterChecked_eq ha hsparse, Option.map_some]
  · rw [if_neg hsparse, if_neg hsparse, startChecked_eq ha, startChecked_eq hb]
    simp only [Option.bind_some]
    exact andnotLoopChecked_eq ha hb walkSteps (left_lt _) (reads_start ha min max)
      (Nat.le_refl _) (reads_start hb min max)

theorem roaringCopyRangeChecked_eq (ha : a.Valid) (out : Bitmap) (min max : Nat) (s : σ) :
    roaringCopyRangeChecked L out a min max s = some (roaringCopyRange L out a min max s) := by
  unfold roaringCopyRangeChecked roaringCopyRange
  by_cases hlt : max < min
  · rw [if_pos hlt, if_pos hlt]
  rw [if_neg hlt, if_neg hlt]
  by_cases hsparse : a.isSparse = true
  · rw [if_pos hsparse, if_pos hsparse]
    by_cases h0 : a.cardinality = 0
    · rw [if_pos h0, if_pos h0]
    · rw [if_neg h0, if_neg h0]
      dsimp only
      have hf := ha.sparseForm hsparse
      -- the slice is no longer than the set it lies in
      have hend : upperBound32 a.values a.cardinality max ≤ a.values.length := by
        rw [hf.cardinality_eq]
        exact (upperBound_cut hf.sorted max).1
      have hmax := hf.length_le
      rw [valuesResultChecked_eq (by omega), Option.map_some]
  · rw [if_neg hsparse, if_neg hsparse, startChecked_eq ha, Option.bind_some]
    exact copyLoopChecked_eq ha walkSteps (left_lt _) (reads_start ha min max)

end Loops

end Arnm.Roaring
