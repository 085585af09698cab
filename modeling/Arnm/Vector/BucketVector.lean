import Arnm.Lib.Pointers
import Arnm.Memory.Provider

set_option autoImplicit false

/-! # The bucket vector

`bucket_vector.c` and the inline accessors of its header. The elements lie in buckets of
`2 ^ bucketCapacityMaxLog2` elements; the index array, a block of its own, has a pointer for every
bucket. Both are in the memory of the allocator, pointers of eight bytes. The vector itself is
never `NULL` here; the other pointers a call may be given `NULL` for are flags or options, and an
address of `0` is `NULL`. The counters stay far below the sizes of their types, so their
increments are written without a wrap. -/

namespace Arnm.Vector

open Memory

/-- `ARNM_BVEC_MAX_INDEX_CAPACITY` -/
def maxIndexCapacity : Nat := (2 ^ 16 - 1 - 7) / 8

/-- `ARNM_BVEC_DEFAULT_INDEX_GROW_STEP_SIZE` -/
def defaultIndexGrowStepSize : Nat := 8

/-- `arnm_pow2_u16` -/
def pow2U16 (exponent : Nat) : Nat := 2 ^ exponent % 2 ^ 16

/-- `arnm_mul_pow2_u32` -/
def mulPow2U32 (value exponent : Nat) : Nat := value * 2 ^ exponent % 2 ^ 32

/-- `index_bytes`: slots to bytes. -/
def indexBytes (capacity : Nat) : Nat := capacity * 8

/-- `arnm_bvec`, without its allocator. -/
structure BucketVector where
  buckets : Nat
  elementSize : Nat
  bucketCapacity : Nat
  tailIndex : Nat
  tailUsed : Nat
  tail : Nat
  size : Nat
  bucketCapacityMaxLog2 : Nat
  indexGrowStepSize : Nat
  allocatedCount : Nat
  deriving DecidableEq, Repr

namespace BucketVector

variable (v : BucketVector)

/-- `bucket_bytes` of the vector. -/
def bucketBytes : Nat := mulPow2U32 v.elementSize v.bucketCapacityMaxLog2

/-- `bucket_capacity` of the vector: the elements of a full bucket. -/
def perBucket : Nat := pow2U16 v.bucketCapacityMaxLog2

/-- `bucket_mask` -/
def bucketMask : Nat := v.perBucket - 1

/-- `buckets[i]` -/
def slot (m : Bytes) (i : Nat) : Nat := m.word (v.buckets + i * 8)

/-- `bucket_count_allocated` -/
def bucketCountAllocated : Nat := if v.buckets ≠ 0 then v.allocatedCount else 0

/-- `is_state_valid` -/
def isStateValid : Bool :=
  if v.elementSize = 0 ∨ v.bucketCapacityMaxLog2 = 0 then false
  else if v.buckets = 0 then
    v.bucketCountAllocated = 0 ∧ v.bucketCapacity = 0 ∧ v.tailIndex = 0 ∧ v.tail = 0 ∧ v.size = 0
  else if v.bucketCapacity = 0 then false
  else if v.bucketCapacity < v.bucketCountAllocated then false
  else if (if v.tail ≠ 0 then v.bucketCountAllocated ≤ v.tailIndex else v.tailIndex ≠ 0) then false
  else if v.bucketCountAllocated * v.perBucket < v.size then false
  else true

/-! ## Reading -/

/-- `arnm_bvec_get` -/
def get (m : Bytes) (index : Nat) : Nat :=
  let bucketIndex := (index >>> v.bucketCapacityMaxLog2) % 2 ^ 16
  let indexInBucket := index &&& (1 <<< v.bucketCapacityMaxLog2 - 1)
  v.slot m bucketIndex + indexInBucket * v.elementSize

/-- `arnm_bvec_at` -/
def getAt (m : Bytes) (index : Nat) : Nat := if v.size ≤ index then 0 else v.get m index

/-- `arnm_bvec_front` -/
def front (m : Bytes) : Nat := if v.size ≠ 0 then v.slot m 0 else 0

/-- `arnm_bvec_back` -/
def back : Nat := if v.tail ≠ 0 then v.tail + (v.tailUsed - 1) * v.elementSize else 0

/-- `arnm_bvec_bucket_count` -/
def bucketCount : Nat := if v.tail ≠ 0 then v.tailIndex + 1 else 0

/-- `arnm_bvec_bucket_data` -/
def bucketData (m : Bytes) (bucket : Nat) : Nat := v.slot m bucket

/-- `arnm_bvec_bucket_size` -/
def bucketSize (bucket : Nat) : Nat :=
  if bucket = v.tailIndex then v.tailUsed else pow2U16 v.bucketCapacityMaxLog2

/-- `arnm_bvec_copy_to`, with the bytes written from `dst` on. -/
def copyTo (m : Bytes) (dst : Bool) (dstCapacity : Nat) : Result × List UInt8 :=
  if dst = false then (.errorNullPointer, [])
  else if dstCapacity < v.size then (.errorDestinationBufferToSmall, [])
  else
    (.success, (List.range v.bucketCount).flatMap fun bucket =>
      m.read (v.slot m bucket) (v.bucketSize bucket * v.elementSize))

/-- The bytes behind a pointer, as many as an element has. -/
def element (value : Nat → UInt8) : List UInt8 := (List.range v.elementSize).map value

end BucketVector

/-- A vector and its allocator with the memory. -/
structure State (σ : Type) where
  vector : BucketVector
  heap : σ

/-! ## Init and clear -/

/-- `arnm_bvec_init` -/
def init (v : BucketVector) (bucketCapacityLog2 indexGrowStepSize elementSize : Nat) :
    Result × BucketVector :=
  -- the full bucket's element count has to fit the 16 bits it is counted in
  if elementSize = 0 ∨ bucketCapacityLog2 = 0 ∨ 15 < bucketCapacityLog2 ∨
      (2 ^ 32 - 1) >>> bucketCapacityLog2 < elementSize ∨ 2 ^ 16 - 1 < elementSize then
    (.errorInvalidParam, v)
  else
    (.success,
      { buckets := 0
        elementSize := elementSize
        bucketCapacity := 0
        tailIndex := 0
        tailUsed := pow2U16 bucketCapacityLog2
        tail := 0
        size := 0
        bucketCapacityMaxLog2 := bucketCapacityLog2
        indexGrowStepSize :=
          if indexGrowStepSize ≠ 0 then indexGrowStepSize else defaultIndexGrowStepSize
        allocatedCount := 0 })

/-- `arnm_bvec_clear` -/
def BucketVector.clear (v : BucketVector) : BucketVector :=
  { v with tail := 0, tailIndex := 0, tailUsed := v.perBucket, size := 0 }

section Allocator

variable {σ : Type} (allocator : Calls σ)

/-- `buckets[i] = bucket` -/
def putSlot (st : State σ) (i bucket : Nat) : State σ :=
  let m := (allocator.bytes st.heap).putWord (st.vector.buckets + i * 8) bucket
  { st with heap := allocator.write m st.heap }

/-! ## Growing -/

/-- The growth of the index array in `arnm_bvec_reserve` and `arnm_bvec_grow`: the slots past the
old capacity are set to `NULL`. -/
def growIndex (st : State σ) (newCapacity : Nat) : Result × State σ :=
  let v := st.vector
  let oldBytes := indexBytes v.bucketCapacity
  let newBytes := indexBytes newCapacity
  let index := allocator.realloc v.buckets oldBytes newBytes st.heap
  if index.result ≠ .success ∧ index.result ≠ .warningArenaMemoryNotReclaimed then
    (index.result, ⟨{ v with buckets := index.buffer }, index.state⟩)
  else
    let m := (allocator.bytes index.state).fill (index.buffer + oldBytes) (newBytes - oldBytes) 0
    (.success,
      { vector := { v with buckets := index.buffer, bucketCapacity := newCapacity }
        heap := allocator.write m index.state })

/-- A further bucket behind the `bucketCount` there are. -/
def addBucket (st : State σ) (bucketCount : Nat) : Result × State σ :=
  let bucket := allocator.alloc 0 st.vector.bucketBytes st.heap
  if bucket.result ≠ .success then (bucket.result, { st with heap := bucket.state })
  else
    let st := putSlot allocator { st with heap := bucket.state } bucketCount bucket.buffer
    (.success, { st with vector := { st.vector with allocatedCount := bucketCount + 1 } })

/-- The loop of `arnm_bvec_reserve` over the buckets still needed. -/
def addBuckets : Nat → Nat → State σ → Result × State σ
  | 0, _, st => (.success, st)
  | n + 1, bucketCount, st =>
    match addBucket allocator st bucketCount with
    | (.success, st) => addBuckets n (bucketCount + 1) st
    | (result, st) => (result, st)

/-- `arnm_bvec_reserve` -/
def reserve (st : State σ) (elementCount : Nat) : Result × State σ :=
  let v := st.vector
  if elementCount = 0 then (.errorInvalidParam, st)
  else if v.isStateValid = false then (.errorInvalidState, st)
  else if (2 ^ 32 - 1 - v.bucketMask) / v.elementSize < elementCount then
    (.errorArithmeticOverflow, st)
  else
    let needed := (elementCount + v.bucketMask) >>> v.bucketCapacityMaxLog2
    if maxIndexCapacity < needed then (.errorArithmeticOverflow, st)
    else
      let previousBucketCount := v.bucketCountAllocated
      if needed ≤ previousBucketCount then (.success, st)
      else
        let indexed :=
          if v.bucketCapacity < needed then growIndex allocator st needed else (.success, st)
        match indexed with
        | (.success, st) =>
            addBuckets allocator (needed - previousBucketCount) previousBucketCount st
        | (result, st) => (result, st)

/-- The bucket `next` is opened and its first slot handed out. -/
def openBucket (st : State σ) (next : Nat) : Result × Nat × State σ :=
  let tail := st.vector.slot (allocator.bytes st.heap) next
  (.success, tail,
    { st with vector := { st.vector with
        tail := tail, tailIndex := next, tailUsed := 1, size := st.vector.size + 1 } })

/-- `arnm_bvec_grow`, with the slot it hands out. -/
def grow (st : State σ) (outSlot : Bool) : Result × Nat × State σ :=
  let v := st.vector
  if outSlot = false then (.errorNullPointer, 0, st)
  else if v.isStateValid = false then (.errorInvalidState, 0, st)
  else
    let next := v.bucketCount
    let previousBucketCount := v.bucketCountAllocated
    if next < previousBucketCount then openBucket allocator st next
    else
      let indexed :=
        if previousBucketCount = v.bucketCapacity then
          let newCapacity := v.bucketCapacity + v.indexGrowStepSize
          if maxIndexCapacity < newCapacity then (.errorArithmeticOverflow, st)
          else growIndex allocator st newCapacity
        else (.success, st)
      match indexed with
      | (.success, st) =>
        match addBucket allocator st previousBucketCount with
        | (.success, st) => openBucket allocator st next
        | (result, st) => (result, 0, st)
      | (result, st) => (result, 0, st)

/-- `arnm_bvec_emplace`, with the slot it hands out. -/
def emplace (st : State σ) (outSlot : Bool) : Result × Nat × State σ :=
  let v := st.vector
  if outSlot = false then (.errorNullPointer, 0, st)
  else if v.tail ≠ 0 ∧ v.tailUsed < v.perBucket then
    (.success, v.tail + v.tailUsed * v.elementSize,
      { st with vector := { v with tailUsed := v.tailUsed + 1, size := v.size + 1 } })
  else grow allocator st outSlot

/-- `arnm_bvec_push_ptr`; the value is given by the bytes behind the pointer. -/
def pushPtr (st : State σ) (value : Option (Nat → UInt8)) : Result × State σ :=
  match value with
  | none => (.errorNullPointer, st)
  | some value =>
    match emplace allocator st true with
    | (.success, slot, st) =>
      let m := (allocator.bytes st.heap).put slot (st.vector.element value)
      (.success, { st with heap := allocator.write m st.heap })
    | (result, _, st) => (result, st)

/-- `arnm_bvec_pop` -/
def pop (st : State σ) : Result × State σ :=
  let v := st.vector
  if v.size = 0 then (.errorArrayIndexOutOfBounds, st)
  else
    let v := { v with size := v.size - 1, tailUsed := v.tailUsed - 1 }
    if v.tailUsed = 0 then
      let v :=
        if v.size ≠ 0 then
          { v with
            tailIndex := v.tailIndex - 1
            tail := v.slot (allocator.bytes st.heap) (v.tailIndex - 1) }
        else { v with tail := 0, tailIndex := 0 }
      -- the bucket stepped back into is full
      (.success, { st with vector := { v with tailUsed := v.perBucket } })
    else (.success, { st with vector := v })

/-! ## Giving back -/

/-- The loop of `arnm_bvec_shrink` in an arena, newest first, over the `n` buckets above
`usedBefore`; it stops at the first that is not taken back. The count it stops at comes first. -/
def releaseNewestFirst (usedBefore : Nat) : Nat → State σ → Nat × State σ
  | 0, st => (usedBefore, st)
  | n + 1, st =>
    let bucket := st.vector.slot (allocator.bytes st.heap) (usedBefore + n)
    if bucket = 0 then releaseNewestFirst usedBefore n st
    else
      let freed := allocator.free bucket st.vector.bucketBytes st.heap
      if freed.1 ≠ .success then (usedBefore + n + 1, { st with heap := freed.2 })
      else
        releaseNewestFirst usedBefore n
          (putSlot allocator { st with heap := freed.2 } (usedBefore + n) 0)

/-- The loop of `arnm_bvec_shrink` on the host, oldest first, over `n` buckets from `k` on. -/
def releaseOldestFirst : Nat → Nat → State σ → State σ
  | 0, _, st => st
  | n + 1, k, st =>
    let bucket := st.vector.slot (allocator.bytes st.heap) k
    if bucket = 0 then releaseOldestFirst n (k + 1) st
    else
      let freed := allocator.free bucket st.vector.bucketBytes st.heap
      releaseOldestFirst n (k + 1) (putSlot allocator { st with heap := freed.2 } k 0)

/-- What `arnm_bvec_shrink` does with the index array once `count` buckets are left. -/
def shrinkIndex (st : State σ) (count : Nat) : Result × State σ :=
  let v := st.vector
  if count = 0 then
    let freed := allocator.free v.buckets (indexBytes v.bucketCapacity) st.heap
    -- the array leaves the vector only when it really came back
    if freed.1 = .success then
      (.success, ⟨{ v with buckets := 0, bucketCapacity := 0 }, freed.2⟩)
    else (.success, { st with heap := freed.2 })
  else if count = v.bucketCapacity then (.success, st)
  else
    let index :=
      allocator.realloc v.buckets (indexBytes v.bucketCapacity) (indexBytes count) st.heap
    let v := { v with buckets := index.buffer }
    if index.result = .success then (.success, ⟨{ v with bucketCapacity := count }, index.state⟩)
    else if index.result ≠ .warningArenaMemoryNotReclaimed then (index.result, ⟨v, index.state⟩)
    else (.success, ⟨v, index.state⟩)

/-- `arnm_bvec_shrink` -/
def shrink (st : State σ) : Result × State σ :=
  let v := st.vector
  if v.buckets = 0 then (.success, st)
  else if v.isStateValid = false then (.errorInvalidState, st)
  else
    let usedBefore := v.bucketCount
    let allocated := v.bucketCountAllocated
    let (count, st) :=
      if allocator.isArena then releaseNewestFirst allocator usedBefore (allocated - usedBefore) st
      else (usedBefore, releaseOldestFirst allocator (allocated - usedBefore) usedBefore st)
    let st := { st with vector := { st.vector with allocatedCount := count } }
    shrinkIndex allocator st count

/-- The loops of `arnm_bvec_free` over the buckets at the given places. -/
def freeBuckets : List Nat → State σ → State σ
  | [], st => st
  | i :: places, st =>
    let bucket := st.vector.slot (allocator.bytes st.heap) i
    if bucket = 0 then freeBuckets places st
    else
      freeBuckets places
        { st with heap := (allocator.free bucket st.vector.bucketBytes st.heap).2 }

/-- `arnm_bvec_free` -/
def free (st : State σ) : State σ :=
  let v := st.vector
  if v.buckets = 0 ∨ v.elementSize = 0 then st
  else
    let places := List.range v.bucketCountAllocated
    let st := freeBuckets allocator (if allocator.isArena then places.reverse else places) st
    let freed := allocator.free v.buckets (indexBytes v.bucketCapacity) st.heap
    ⟨(init v v.bucketCapacityMaxLog2 v.indexGrowStepSize v.elementSize).2, freed.2⟩

end Allocator

end Arnm.Vector
