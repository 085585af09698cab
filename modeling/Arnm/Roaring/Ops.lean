import Arnm.Lib.Sorted
import Arnm.Roaring.Build
import Arnm.Roaring.QueryWalk

set_option autoImplicit false

/-! # Set operations

`roaring_ops.c`: and, or, andnot and a range copied out. Each call appends to an empty set `out`;
two inputs with containers are walked key by key, sparse ones are read as one array. A call that
fails gives back what was built.
-/

namespace Arnm.Roaring

open Words Memory

variable {σ : Type} (lender : BlockPool σ)

/-! ## One key -/

/-- `clip`: a container restricted to `[low, high]`; for an array also the index span inside it. -/
structure Clip where
  container : Container
  low : Nat
  high : Nat
  begin : Nat
  endAt : Nat

/-- `make_clip` -/
def makeClip (container : Container) (low high : Nat) : Clip :=
  match container.content with
  | .array array =>
    { container, low, high
      begin := beginOf array container.cardinality low low
      endAt := endOf array container.cardinality high high }
  | _ => { container, low, high, begin := 0, endAt := 0 }

/-- The entries of the index span. -/
def Clip.entries (c : Clip) : List Nat :=
  (c.container.arrayOf.drop c.begin).take (c.endAt - c.begin)

/-- `emit_clip` -/
def emitClip (out : Bitmap) (c : Clip) (pool : σ) : Built σ :=
  if c.container.isArray then
    emitArray lender out c.container.key c.entries (c.endAt - c.begin) pool
  else
    let (words, cardinality) := clipAndCount c.container.wordsOf c.low c.high
    emitWords lender out c.container.key words (c.low >>> 6) (c.high >>> 6) cardinality pool

/-- The search of `and_arrays`: every value of the small array looked up in what is left of the
large one. -/
def commonSearched : List Nat → List Nat → List Nat
  | [], _ => []
  | _ :: _, [] => []
  | x :: xs, y :: ys =>
    let left := (y :: ys).drop (lowerBound16 (y :: ys) (ys.length + 1) x)
    if left.head? = some x then x :: commonSearched xs left else commonSearched xs left

/-- `and_arrays` -/
def andArrays (out : Bitmap) (a b : Clip) (pool : σ) : Built σ :=
  let nx := a.endAt - a.begin
  let ny := b.endAt - b.begin
  let (x, y) := if ny < nx then (b.entries, a.entries) else (a.entries, b.entries)
  let values :=
    if min nx ny * 32 < max nx ny then commonSearched x y else Sorted.common (nx + ny) x y
  emitArray lender out a.container.key values values.length pool

/-- `(words[low >> 6] >> (low & 63)) & 1` -/
def hasBit (words : Array64) (low : Nat) : Bool := (words (low >>> 6)).getLsbD (low &&& 63)

/-- `filter_array_by_words`: values of array `a` whose bit in bitmap `b` is set (`keep`) or
clear. -/
def filterArrayByWords (out : Bitmap) (a b : Clip) (keep : Bool) (pool : σ) : Built σ :=
  let values := a.entries.filter fun x => hasBit b.container.wordsOf x = keep
  emitArray lender out a.container.key values values.length pool

/-- `word_op` -/
inductive WordOp where
  | and
  | or
  | andnot
  deriving DecidableEq, Repr

/-- One word of a combination. -/
def WordOp.apply : WordOp → BitVec 64 → BitVec 64 → BitVec 64
  | .and, x, y => x &&& y
  | .or, x, y => x ||| y
  | .andnot, x, y => x &&& ~~~y

/-- `combine_words` -/
def combineWords (out : Bitmap) (a b : Clip) (op : WordOp) (pool : σ) : Built σ :=
  let combined : Array64 := fun w => op.apply (a.container.wordsOf w) (b.container.wordsOf w)
  let (words, cardinality) := clipAndCount combined a.low a.high
  emitWords lender out a.container.key words (a.low >>> 6) (a.high >>> 6) cardinality pool

/-- `words_with_array`: bitmap `a` with the values of array `b` set or cleared, within a's
range. -/
def wordsWithArray (out : Bitmap) (a b : Clip) (set : Bool) (pool : σ) : Built σ :=
  let changed := b.entries.foldl (if set then setBit else clearBit) a.container.wordsOf
  let (words, cardinality) := clipAndCount changed a.low a.high
  emitWords lender out a.container.key words (a.low >>> 6) (a.high >>> 6) cardinality pool

/-- `or_arrays`: what may pass 4096 goes straight into bits. -/
def orArrays (out : Bitmap) (a b : Clip) (pool : σ) : Built σ :=
  let nx := a.endAt - a.begin
  let ny := b.endAt - b.begin
  if arrayMax < nx + ny then
    let first := a.low >>> 6
    let last := a.high >>> 6
    let words := b.entries.foldl setBit (a.entries.foldl setBit fun _ => 0#64)
    let cardinality :=
      ((List.range' first (last + 1 - first)).map fun w => popcountll (words w)).sum
    emitWords lender out a.container.key words first last cardinality pool
  else
    let values := Sorted.either (nx + ny) a.entries b.entries
    emitArray lender out a.container.key values values.length pool

/-- `andnot_arrays` -/
def andnotArrays (out : Bitmap) (a b : Clip) (pool : σ) : Built σ :=
  let values := Sorted.kept false a.entries b.entries
  emitArray lender out a.container.key values values.length pool

/-! ## Sparse inputs -/

/-- `container_has` over the values of one key: an array is walked forward across the calls. -/
def keptOfKey (keep : Bool) (container : Option Container) (values : List Nat) : List Nat :=
  match container with
  | none => values.filter fun _ => false = keep
  | some c =>
    match c.content with
    | .bitmap words => values.filter fun v => hasBit words (lowOf v) = keep
    | _ => keptOfArray keep values (c.arrayOf.take c.cardinality)
where
  keptOfArray (keep : Bool) : List Nat → List Nat → List Nat
    | [], _ => []
    | v :: values, array =>
      let array := array.dropWhile (· < lowOf v)
      let has := decide (array.head? = some (lowOf v))
      if has = keep then v :: keptOfArray keep values array else keptOfArray keep values array

/-- The loop of `sparse_filter` over the keys of the values; the containers are the rest of the
other set's, found once per key. -/
def keptOfKeys (keep : Bool) : Nat → List Nat → List Container → List Nat
  | 0, _, _ => []
  | _ + 1, [], _ => []
  | fuel + 1, value :: values, containers =>
    let key := keyOf value
    let containers := containers.dropWhile fun c => c.key < key
    let container := containers.head?.filter fun c => c.key = key
    keptOfKey keep container ((value :: values).takeWhile fun v => keyOf v = key)
      ++ keptOfKeys keep fuel ((value :: values).dropWhile fun v => keyOf v = key) containers

/-- `sparse_filter`: the values of `sparse` in the range that `other` has (`keep`) or has not. -/
def sparseFilter (out sparse other : Bitmap) (keep : Bool) (min max : Nat) (pool : σ) : Built σ :=
  let endAt := upperBound32 sparse.values sparse.cardinality max
  let i := lowerBound32 sparse.values sparse.cardinality min
  let values := (sparse.values.drop i).take (endAt - i)
  let kept :=
    if other.isSparse then
      -- both small and sorted: one walk through each
      let j := if other.cardinality ≠ 0 then lowerBound32 other.values other.cardinality min else 0
      Sorted.kept keep values (other.values.drop j)
    else
      let c := match values with
        | [] => 0
        | value :: _ => other.firstContainer (keyOf value)
      keptOfKeys keep values.length values (other.containers.drop c)
  valuesResult lender out kept kept.length pool

/-! ## The operations -/

/-- `finish`: whatever was built goes back. -/
def finish (r : Built σ) : Built σ :=
  if r.result = .success then r
  else ⟨r.result, (free lender r.set r.pool).1, (free lender r.set r.pool).2⟩

/-- More steps than two walks take; a set has at most `0x10000` keys. -/
def walkSteps : Nat := 0x20001

/-- The loop of `arnm_roaring_and` over the keys both sources have. -/
def andLoop (min max : Nat) : Nat → Bitmap → Source → Source → σ → Built σ
  | 0, out, _, _, pool => ⟨.success, out, pool⟩
  | steps + 1, out, sa, sb, pool =>
    match sa.current, sb.current with
    | some x, some y =>
      if x.key < y.key then andLoop min max steps out sa.advance sb pool
      else if y.key < x.key then andLoop min max steps out sa sb.advance pool
      else
        let (low, high) := containerBounds x.key min max
        let cx := makeClip x low high
        let cy := makeClip y low high
        let r :=
          if x.isArray ∧ y.isArray then andArrays lender out cx cy pool
          else if x.isArray then filterArrayByWords lender out cx cy true pool
          else if y.isArray then filterArrayByWords lender out cy cx true pool
          else combineWords lender out cx cy .and pool
        if r.result = .success then andLoop min max steps r.set sa.advance sb.advance r.pool
        else finish lender r
    | _, _ => ⟨.success, out, pool⟩

/-- `arnm_roaring_and`, behind its checks. -/
def roaringAnd (out a b : Bitmap) (min max : Nat) (pool : σ) : Built σ :=
  if max < min then ⟨.success, out, pool⟩
  else if a.isSparse ∨ b.isSparse then
    -- the smaller sparse one is read, the other asked
    let readA := a.isSparse && (!b.isSparse || a.cardinality ≤ b.cardinality)
    finish lender
      (sparseFilter lender out (if readA then a else b) (if readA then b else a) true min max pool)
  else
    andLoop lender min max walkSteps out (Source.start a min max false true)
      (Source.start b min max false true) pool

/-- The loop of `arnm_roaring_or` over the keys either source has. -/
def orLoop (min max : Nat) : Nat → Bitmap → Source → Source → σ → Built σ
  | 0, out, _, _, pool => ⟨.success, out, pool⟩
  | steps + 1, out, sa, sb, pool =>
    let onlyA (x : Container) : Built σ :=
      let (low, high) := containerBounds x.key min max
      let r := emitClip lender out (makeClip x low high) pool
      if r.result = .success then orLoop min max steps r.set sa.advance sb r.pool
      else finish lender r
    let onlyB (y : Container) : Built σ :=
      let (low, high) := containerBounds y.key min max
      let r := emitClip lender out (makeClip y low high) pool
      if r.result = .success then orLoop min max steps r.set sa sb.advance r.pool
      else finish lender r
    match sa.current, sb.current with
    | none, none => ⟨.success, out, pool⟩
    | some x, none => onlyA x
    | none, some y => onlyB y
    | some x, some y =>
      if x.key < y.key then onlyA x
      else if y.key < x.key then onlyB y
      else
        let (low, high) := containerBounds x.key min max
        let cx := makeClip x low high
        let cy := makeClip y low high
        let r :=
          if x.isArray ∧ y.isArray then orArrays lender out cx cy pool
          else if x.isArray then wordsWithArray lender out cy cx true pool
          else if y.isArray then wordsWithArray lender out cx cy true pool
          else combineWords lender out cx cy .or pool
        if r.result = .success then orLoop min max steps r.set sa.advance sb.advance r.pool
        else finish lender r

/-- `arnm_roaring_or`, behind its checks. -/
def roaringOr (out a b : Bitmap) (min max : Nat) (pool : σ) : Built σ :=
  if max < min then ⟨.success, out, pool⟩
  else if a.isSparse ∧ b.isSparse then
    -- two small sorted arrays: merged in one walk, then sparse or containers by what came out
    let i := lowerBound32 a.values a.cardinality min
    let j := lowerBound32 b.values b.cardinality min
    let endA := upperBound32 a.values a.cardinality max
    let endB := upperBound32 b.values b.cardinality max
    let merged := Sorted.either (a.cardinality + b.cardinality)
      ((a.values.drop i).take (endA - i)) ((b.values.drop j).take (endB - j))
    finish lender (valuesResult lender out merged merged.length pool)
  else
    orLoop lender min max walkSteps out (Source.start a min max false true)
      (Source.start b min max false true) pool

/-- The loop of `arnm_roaring_andnot` over the keys of the first source. -/
def andnotLoop (min max : Nat) : Nat → Bitmap → Source → Source → σ → Built σ
  | 0, out, _, _, pool => ⟨.success, out, pool⟩
  | steps + 1, out, sa, sb, pool =>
    match sa.current with
    | none => ⟨.success, out, pool⟩
    | some x =>
      let sb := sourceSeek sb x.key false
      let (low, high) := containerBounds x.key min max
      let cx := makeClip x low high
      let r :=
        match sb.current with
        | none => emitClip lender out cx pool
        | some y =>
          if y.key ≠ x.key then emitClip lender out cx pool
          else
            let cy := makeClip y low high
            if x.isArray ∧ y.isArray then andnotArrays lender out cx cy pool
            else if x.isArray then filterArrayByWords lender out cx cy false pool
            else if y.isArray then wordsWithArray lender out cx cy false pool
            else combineWords lender out cx cy .andnot pool
      if r.result = .success then andnotLoop min max steps r.set sa.advance sb r.pool
      else finish lender r

/-- `arnm_roaring_andnot`, behind its checks. -/
def roaringAndnot (out a b : Bitmap) (min max : Nat) (pool : σ) : Built σ :=
  if max < min then ⟨.success, out, pool⟩
  else if a.isSparse then finish lender (sparseFilter lender out a b false min max pool)
  else
    andnotLoop lender min max walkSteps out (Source.start a min max false true)
      (Source.start b min max false true) pool

/-- The loop of `arnm_roaring_copy_range`. -/
def copyLoop (min max : Nat) : Nat → Bitmap → Source → σ → Built σ
  | 0, out, _, pool => ⟨.success, out, pool⟩
  | steps + 1, out, source, pool =>
    match source.current with
    | none => ⟨.success, out, pool⟩
    | some c =>
      let (low, high) := containerBounds c.key min max
      let r := emitClip lender out (makeClip c low high) pool
      if r.result = .success then copyLoop min max steps r.set source.advance r.pool
      else finish lender r

/-- `arnm_roaring_copy_range`, behind its checks. -/
def roaringCopyRange (out a : Bitmap) (min max : Nat) (pool : σ) : Built σ :=
  if max < min then ⟨.success, out, pool⟩
  else if a.isSparse then
    if a.cardinality = 0 then ⟨.success, out, pool⟩
    else
      let begin := lowerBound32 a.values a.cardinality min
      let endAt := upperBound32 a.values a.cardinality max
      finish lender (valuesResult lender out (a.values.drop begin) (endAt - begin) pool)
  else copyLoop lender min max walkSteps out (Source.start a min max false true) pool

end Arnm.Roaring
