import Arnm.Lib.Lending
import Arnm.Memory.Arena
import Arnm.Roaring.Bitmap

set_option autoImplicit false

/-! # Building a roaring set

The part of `roaring_bitmap.c` that writes: `add`, the growth of its blocks, the two emitters the
set operations append their containers with, and the change from the sparse form to containers.
The pool is any lender of blocks by exponent; a call leaves its result, the set and the pool
(`Built`).

Blocks are written in place of their old contents: an array's list is written behind its first
`cardinality` entries.
-/

namespace Arnm.Roaring

open Words Memory

/-- The pool as the calls below use it: asked for an exponent it answers a block or refuses, and a
block goes back with its exponent. -/
abbrev BlockPool (σ : Type) := Lending.Lender Refusal σ

/-- What a call that builds leaves. -/
structure Built (σ : Type) where
  result : Result
  set : Bitmap
  pool : σ

/-! ## Blocks -/

/-- `ROARING_BITMAP_LOG2`: 8 KiB, a bitmap container -/
def bitmapLog2 : Nat := 13

/-- `ROARING_ARRAY_LOG2_FIRST`: 16 bytes, an array of 8 values -/
def arrayLog2First : Nat := 4

/-- `ROARING_DIRECTORY_LOG2_FIRST`: 16 bytes, one container entry -/
def directoryLog2First : Nat := 4

/-- `ROARING_SPARSE_LOG2_FIRST`: 16 bytes, four values -/
def sparseLog2First : Nat := 4

/-- `UINT32_MAX` -/
def uint32Max : Nat := 2 ^ 32 - 1

/-- The loop of `log2ForBytes`; the exponents of 32 bit sizes end at 32. -/
def log2From (bytes : Nat) : Nat → Nat → Nat
  | 0, log2 => log2
  | fuel + 1, log2 => if 2 ^ log2 < bytes then log2From bytes fuel (log2 + 1) else log2

/-- Smallest exponent of a block that holds `bytes`, never below the first array block. -/
def log2ForBytes (bytes : Nat) : Nat := log2From bytes 32 arrayLog2First

variable {σ : Type} (lender : BlockPool σ)

/-- `arnm_roaring_free`, for a pool that is not NULL. -/
def free (set : Bitmap) (pool : σ) : Bitmap × σ :=
  if set.isSparse then
    match set.block with
    | some block => (Bitmap.init, lender.free block set.directoryLog2 pool)
    | none => (Bitmap.init, pool)
  else
    let pool := set.containers.foldl (fun pool c => lender.free c.data c.blockLog2 pool) pool
    (Bitmap.init, lender.free (set.block.getD 0) set.directoryLog2 pool)

/-- Appends `container` to the directory, doubling it when full. -/
def pushContainer (set : Bitmap) (container : Container) (pool : σ) : Built σ :=
  let capacity := if set.block.isSome then 2 ^ set.directoryLog2 / 16 else 0
  if set.count = capacity then
    let log2 := if set.block.isSome then set.directoryLog2 + 1 else directoryLog2First
    match lender.alloc log2 pool with
    | (.error refusal, pool) => ⟨refusal.result, set, pool⟩
    | (.ok block, pool) =>
      let pool :=
        match set.block with
        | some old => lender.free old set.directoryLog2 pool
        | none => pool
      ⟨.success, { set with
        block := some block
        directoryLog2 := log2
        containers := set.containers ++ [container] }, pool⟩
  else ⟨.success, { set with containers := set.containers ++ [container] }, pool⟩

/-! ## Result containers -/

/-- `arnm_roaring_emit_array`: the values as one array container of `key`; nothing to append is a
success. -/
def emitArray (out : Bitmap) (key : Nat) (values : List Nat) (count : Nat) (pool : σ) : Built σ :=
  if count = 0 then ⟨.success, out, pool⟩
  else if uint32Max - count < out.cardinality then ⟨.errorResourceExhausted, out, pool⟩
  else
    let log2 := log2ForBytes (count * 2)
    match lender.alloc log2 pool with
    | (.error refusal, pool) => ⟨refusal.result, out, pool⟩
    | (.ok data, pool) =>
      let pushed :=
        pushContainer lender out ⟨data, .array (values.take count), count, key, log2⟩ pool
      if pushed.result = .success then
        ⟨.success, { pushed.set with
          cardinality := pushed.set.cardinality + count
          maximum := valueOf key (values.getD (count - 1) 0) }, pushed.pool⟩
      else ⟨pushed.result, pushed.set, lender.free data log2 pushed.pool⟩

/-- `while (word)`: the values of word `w` that are left in `word`; a word has 64 bits. -/
def wordLoop (w : Nat) : Nat → BitVec 64 → List Nat
  | 0, _ => []
  | fuel + 1, word =>
    if word = 0#64 then []
    else (w <<< 6 + word.ctz.toNat) :: wordLoop w fuel (word &&& (word - 1#64))

/-- `while (!words[top]) { --top; }` -/
def topWord (words : Array64) : Nat → Nat
  | 0 => 0
  | top + 1 => if words (top + 1) = 0#64 then topWord words top else top + 1

/-- `arnm_roaring_emit_words`: the bits of the words `first` to `last` as one container of `key`,
array or bitmap by their count. -/
def emitWords (out : Bitmap) (key : Nat) (words : Array64) (first last cardinality : Nat)
    (pool : σ) : Built σ :=
  if cardinality = 0 then ⟨.success, out, pool⟩
  else if cardinality ≤ arrayMax then
    let values := (List.range' first (last + 1 - first)).flatMap fun w => wordLoop w 64 (words w)
    emitArray lender out key values values.length pool
  else if uint32Max - cardinality < out.cardinality then ⟨.errorResourceExhausted, out, pool⟩
  else
    match lender.alloc bitmapLog2 pool with
    | (.error refusal, pool) => ⟨refusal.result, out, pool⟩
    | (.ok data, pool) =>
      let copied : Array64 := fun w => if first ≤ w ∧ w ≤ last then words w else 0#64
      let pushed :=
        pushContainer lender out ⟨data, .bitmap copied, cardinality, key, bitmapLog2⟩ pool
      if pushed.result = .success then
        let top := topWord words last
        ⟨.success, { pushed.set with
          cardinality := pushed.set.cardinality + cardinality
          maximum := valueOf key (top <<< 6 ||| (63 - (words top).clz.toNat)) }, pushed.pool⟩
      else ⟨pushed.result, pushed.set, lender.free data bitmapLog2 pushed.pool⟩

/-! ## Changing form -/

/-- `arnm_roaring_values_to_containers`: one array container for each key of the sorted values.
The inner loop takes the values of the first one's key. -/
def valuesToContainers : Nat → Bitmap → List Nat → σ → Built σ
  | 0, out, _, pool => ⟨.success, out, pool⟩
  | _ + 1, out, [], pool => ⟨.success, out, pool⟩
  | fuel + 1, out, value :: values, pool =>
    let key := keyOf value
    let lows := ((value :: values).takeWhile fun v => keyOf v = key).map lowOf
    let emitted := emitArray lender out key lows lows.length pool
    if emitted.result = .success then
      valuesToContainers fuel emitted.set ((value :: values).dropWhile fun v => keyOf v = key)
        emitted.pool
    else emitted

/-- `sparse_to_containers` -/
def sparseToContainers (set : Bitmap) (pool : σ) : Built σ :=
  let values := set.values.take set.cardinality
  let built := valuesToContainers lender values.length Bitmap.init values pool
  if built.result = .success then
    match set.block with
    | some block => ⟨.success, built.set, lender.free block set.directoryLog2 built.pool⟩
    | none => ⟨.success, built.set, built.pool⟩
  else ⟨built.result, set, (free lender built.set built.pool).2⟩

/-- `arnm_roaring_values_result`: `out`, empty, as the sparse or container set of the sorted
values. -/
def valuesResult (out : Bitmap) (values : List Nat) (count : Nat) (pool : σ) : Built σ :=
  if count = 0 then ⟨.success, out, pool⟩
  else if sparseMax < count then valuesToContainers lender count out (values.take count) pool
  else
    let log2 := log2ForBytes (count * 4)
    match lender.alloc log2 pool with
    | (.error refusal, pool) => ⟨refusal.result, out, pool⟩
    | (.ok block, pool) =>
      ⟨.success, { out with
        block := some block
        values := values.take count
        directoryLog2 := log2
        cardinality := count
        maximum := values.getD (count - 1) 0 }, pool⟩

/-! ## Adding -/

/-- What a call on the last container leaves. -/
structure Grown (σ : Type) where
  result : Result
  last : Container
  pool : σ

/-- `array_to_bitmap`: a full array of 4096 values becomes a bitmap, `low` set in it as well. -/
def arrayToBitmap (last : Container) (low : Nat) (pool : σ) : Grown σ :=
  match lender.alloc bitmapLog2 pool with
  | (.error refusal, pool) => ⟨refusal.result, last, pool⟩
  | (.ok block, pool) =>
    let words := (last.arrayOf.take last.cardinality).foldl setBit fun _ => 0#64
    ⟨.success, { last with
      data := block
      content := .bitmap (setBit words low)
      blockLog2 := bitmapLog2 }, lender.free last.data last.blockLog2 pool⟩

/-- `array_grow`: a full array below 4096 values moves into a block twice the size. -/
def arrayGrow (last : Container) (pool : σ) : Grown σ :=
  let log2 := last.blockLog2 + 1
  match lender.alloc log2 pool with
  | (.error refusal, pool) => ⟨refusal.result, last, pool⟩
  | (.ok block, pool) =>
    ⟨.success, { last with
      data := block
      content := .array (last.arrayOf.take last.cardinality)
      blockLog2 := log2 }, lender.free last.data last.blockLog2 pool⟩

/-- `sparse_add`: appends to a sparse set below the limit, doubling its block when full. -/
def sparseAdd (set : Bitmap) (value : Nat) (pool : σ) : Built σ :=
  let capacity := if set.block.isSome then 2 ^ set.directoryLog2 / 4 else 0
  let values := set.values.take set.cardinality ++ [value]
  if set.cardinality = capacity then
    let log2 := if set.block.isSome then set.directoryLog2 + 1 else sparseLog2First
    match lender.alloc log2 pool with
    | (.error refusal, pool) => ⟨refusal.result, set, pool⟩
    | (.ok block, pool) =>
      let pool :=
        match set.block with
        | some old => lender.free old set.directoryLog2 pool
        | none => pool
      ⟨.success, { set with
        block := some block
        directoryLog2 := log2
        values := values
        cardinality := set.cardinality + 1
        maximum := value }, pool⟩
  else
    ⟨.success, { set with
      values := values
      cardinality := set.cardinality + 1
      maximum := value }, pool⟩

/-- `add` on the container of the value's key: the bit is set, or the value appended to the array,
which grows or turns into a bitmap when it is full. -/
def appendLow (last : Container) (low : Nat) (pool : σ) : Grown σ :=
  match last.content with
  | .bitmap words =>
    ⟨.success, { last with
      content := .bitmap (setBit words low)
      cardinality := last.cardinality + 1 }, pool⟩
  | _ =>
    let capacity := 2 ^ last.blockLog2 / 2
    if last.cardinality = arrayMax then
      let changed := arrayToBitmap lender last low pool
      if changed.result = .success then
        { changed with last := { changed.last with cardinality := changed.last.cardinality + 1 } }
      else changed
    else
      let grown := if last.cardinality = capacity then arrayGrow lender last pool
        else ⟨.success, last, pool⟩
      if grown.result = .success then
        { grown with last := { grown.last with
          content := .array (grown.last.arrayOf.take grown.last.cardinality ++ [low])
          cardinality := grown.last.cardinality + 1 } }
      else grown

/-- `add` for a key that has no container yet. -/
def appendContainer (set : Bitmap) (key low : Nat) (pool : σ) : Built σ :=
  match lender.alloc arrayLog2First pool with
  | (.error refusal, pool) => ⟨refusal.result, set, pool⟩
  | (.ok data, pool) =>
    let pushed := pushContainer lender set ⟨data, .array [low], 1, key, arrayLog2First⟩ pool
    if pushed.result = .success then pushed
    else ⟨pushed.result, pushed.set, lender.free data arrayLog2First pushed.pool⟩

/-- `add` on a set with containers, up to its last two lines. -/
def appendValue (set : Bitmap) (value : Nat) (pool : σ) : Built σ :=
  let key := keyOf value
  let low := lowOf value
  match set.containers.getLast? with
  | some last =>
    if last.key = key then
      let grown := appendLow lender last low pool
      ⟨grown.result, { set with containers := set.containers.dropLast ++ [grown.last] }, grown.pool⟩
    else appendContainer lender set key low pool
  | none => appendContainer lender set key low pool

/-- `add` on a set with containers. -/
def addToContainers (set : Bitmap) (value : Nat) (pool : σ) : Built σ :=
  let appended := appendValue lender set value pool
  if appended.result = .success then
    { appended with set := { appended.set with
      cardinality := appended.set.cardinality + 1
      maximum := value } }
  else appended

/-- `arnm_roaring_add`, behind its check for NULL. -/
def add (set : Bitmap) (value : Nat) (pool : σ) : Built σ :=
  if set.cardinality ≠ 0 ∧ value < set.maximum then ⟨.errorInvalidParam, set, pool⟩
  else if set.cardinality ≠ 0 ∧ value = set.maximum then ⟨.success, set, pool⟩
  else if set.cardinality = uint32Max then ⟨.errorResourceExhausted, set, pool⟩
  else if set.isSparse then
    if set.cardinality < sparseMax then sparseAdd lender set value pool
    else
      -- one past the limit: containers from here on, the value added to them below
      let changed := sparseToContainers lender set pool
      if changed.result = .success then addToContainers lender changed.set value changed.pool
      else changed
  else addToContainers lender set value pool

/-- Values added one after the other; a refused one is passed over. -/
def addAll (set : Bitmap) (values : List Nat) (pool : σ) : Bitmap × σ :=
  values.foldl (fun s value => ((add lender s.1 value s.2).set, (add lender s.1 value s.2).pool))
    (set, pool)

end Arnm.Roaring
