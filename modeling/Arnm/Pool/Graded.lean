import Arnm.Lib.Linked
import Arnm.Memory.Arena

set_option autoImplicit false

/-! # The graded block pool

`graded_block_pool.c`: blocks of power of two sizes, cut from arenas that are taken whole from a
chain, and kept on one free list per grade once they were given back. A free block holds the link
to the next one in its first eight bytes, so the lists live in the memory the pool hands out. -/

namespace Arnm.Pool

open Arnm.Memory

/-! ## Exponents -/

/-- `arnm_clz` on 32 bits. -/
def clz32 (value : Nat) : Nat := if value = 0 then 32 else 31 - value.log2

/-- `arnm_log2_power_of_two`: the exponent of the smallest power of two from `value` on. -/
def log2PowerOfTwo (value : Nat) : Nat := if value ≤ 1 then 0 else 32 - clz32 (value - 1)

/-! ## The pool -/

/-- `arnm_graded_block_pool_options` -/
structure PoolOptions where
  minBlockLog2 : Nat
  maxBlockLog2 : Nat
  allocArenaCapacity : Nat
  deriving DecidableEq, Repr

/-- `arnm_graded_block_pool`. `source` is none before init and after release, `current` is none
while it is zeroed; `freeHead` is the head of the free list at each grade's distance from the
smallest. -/
structure GradedBlockPool where
  source : Option Allocator
  lentBytes : Nat
  cachedBytes : Nat
  minLog2 : Nat
  maxLog2 : Nat
  arenaCapacity : Nat
  freeHead : Nat → Nat
  current : Option Arena

/-- A pool with the memory its blocks lie in. `taken` is no part of the program: it lists the
arenas taken from the chain since init or the last reset, the youngest first. -/
structure PoolHeap where
  pool : GradedBlockPool
  bytes : Bytes
  taken : List Nat

/-- `ARNM_GRADED_BLOCK_POOL_MIN_LOG2` and the defaults of the options. -/
def poolMinLog2 : Nat := 3
def poolMaxLog2 : Nat := 31
def poolDefaultMinLog2 : Nat := 4
def poolDefaultMaxLog2 : Nat := 20
def poolDefaultAllocArenaCapacity : Nat := 4

/-- `arnm_graded_block_pool_options_validate`: the answer, and the options as the call leaves
them. -/
def poolOptionsValidate (options : PoolOptions) : Result × PoolOptions :=
  let o := { options with
    minBlockLog2 := if options.minBlockLog2 = 0 then poolDefaultMinLog2 else options.minBlockLog2
    maxBlockLog2 := if options.maxBlockLog2 = 0 then poolDefaultMaxLog2 else options.maxBlockLog2 }
  if o.minBlockLog2 < poolMinLog2 ∨ poolMaxLog2 < o.maxBlockLog2 ∨
      o.maxBlockLog2 < o.minBlockLog2 then
    (.errorInvalidParam, o)
  else
    (.success, { o with
      allocArenaCapacity :=
        if o.allocArenaCapacity = 0 then poolDefaultAllocArenaCapacity
        else o.allocArenaCapacity })

/-- `arnm_graded_block_pool_init`: the capacity of an arena is capped, not refused. -/
def poolInit (host : Host) (options : PoolOptions) : Except Result GradedBlockPool :=
  match poolOptionsValidate options with
  | (.success, o) =>
    let fullCapacity := 2 ^ o.maxBlockLog2 * o.allocArenaCapacity
    let capacity := if maxAllocSize < fullCapacity then maxAllocSize else fullCapacity
    let chainOptions : MultiArenaOptions :=
      { arenaCapacity := capacity, arenaMaxCount := 0, fullRemaining := 2 ^ o.minBlockLog2 - 1,
        bucketSizeLog2 := 0, indexGrowStepSize := 0 }
    match createMultiArena host chainOptions with
    | none => .error .errorOutOfMemory
    | some chain =>
      .ok { source := some (.multiArena chain)
            lentBytes := 0
            cachedBytes := 0
            minLog2 := o.minBlockLog2
            maxLog2 := o.maxBlockLog2
            -- creating the chain resolves its options in place
            arenaCapacity := (multiArenaOptionsValidate chainOptions).2.arenaCapacity
            freeHead := fun _ => 0
            current := none }
  | (result, _) => .error result

/-- `size_to_log2` -/
def sizeToLog2 (pool : GradedBlockPool) (size : Nat) : Except Result Nat :=
  if size = 0 then .error .errorInvalidParam
  else if align8U32 size = 0 then .error .errorArithmeticOverflow
  else if pool.maxLog2 < log2PowerOfTwo (align8U32 size) then .error .errorResourceSizeExceed
  else
    .ok (if log2PowerOfTwo (align8U32 size) < pool.minLog2 then pool.minLog2
         else log2PowerOfTwo (align8U32 size))

/-- The grade an exponent is served in: one below the smallest takes the smallest. -/
def gradeOf (pool : GradedBlockPool) (log2 : Nat) : Nat :=
  if log2 < pool.minLog2 then pool.minLog2 else log2

/-- `arnm_arena_remaining` of the current arena; a zeroed handle has nothing left. -/
def GradedBlockPool.remaining (pool : GradedBlockPool) : Nat :=
  match pool.current with
  | some a => a.remainingBytes
  | none => 0

/-! ## Free lists -/

/-- `push_free`: the block's first bytes take the link to the old head of its grade. -/
def pushFree (block log2 : Nat) (h : PoolHeap) : PoolHeap :=
  { h with
    bytes := h.bytes.store block 8 (h.pool.freeHead (log2 - h.pool.minLog2))
    pool := { h.pool with
      freeHead := Function.update h.pool.freeHead (log2 - h.pool.minLog2) block
      cachedBytes := h.pool.cachedBytes + 2 ^ log2 } }

/-- The part of `arnm_graded_block_pool_alloc_log2` that takes the head of a free list. -/
def popFree (log2 : Nat) (h : PoolHeap) : Answer PoolHeap :=
  ⟨.success, h.pool.freeHead (log2 - h.pool.minLog2),
    { h with
      pool := { h.pool with
        freeHead := Function.update h.pool.freeHead (log2 - h.pool.minLog2)
          (h.bytes.load (h.pool.freeHead (log2 - h.pool.minLog2)) 8)
        cachedBytes := h.pool.cachedBytes - 2 ^ log2
        lentBytes := h.pool.lentBytes + 2 ^ log2 } }⟩

/-! ## Cutting blocks -/

/-- `arnm_alloc` on the current arena. -/
def cutCurrent (bytes : Nat) (h : PoolHeap) : Nat × PoolHeap :=
  match h.pool.current with
  | none => (0, h)
  | some a =>
    let got := arenaAllocAligned 0 (align8U32 bytes) a
    (got.buffer, { h with pool := { h.pool with current := some got.state } })

/-- One piece of the rest of the current arena goes onto its list. -/
def splitPiece (log2 : Nat) (h : PoolHeap) : PoolHeap :=
  pushFree (cutCurrent (2 ^ log2) h).1 log2 (cutCurrent (2 ^ log2) h).2

/-- The inner loop of `split_current`: pieces of one grade while they fit. -/
def splitGrade (log2 : Nat) : Nat → Nat → PoolHeap → Nat × PoolHeap
  | 0, left, h => (left, h)
  | fuel + 1, left, h =>
    if 2 ^ log2 ≤ left then splitGrade log2 fuel (left - 2 ^ log2) (splitPiece log2 h)
    else (left, h)

/-- The outer loop of `split_current`, from the grade `log2` down. -/
def splitFrom : Nat → Nat → PoolHeap → Nat × PoolHeap
  | 0, left, h =>
    if 2 ^ h.pool.minLog2 ≤ left then splitGrade 0 left left h else (left, h)
  | log2 + 1, left, h =>
    if 2 ^ h.pool.minLog2 ≤ left then
      let (left', h') := splitGrade (log2 + 1) left left h
      splitFrom log2 left' h'
    else (left, h)

/-- `split_current` -/
def splitCurrent (h : PoolHeap) : PoolHeap :=
  (splitFrom h.pool.maxLog2 h.pool.remaining h).2

/-- `next_arena`: the chain is asked first, so a refusal leaves the current arena and the lists
as they were. -/
def nextArena (host : Host) (h : PoolHeap) : Result × PoolHeap :=
  match h.pool.source with
  | none => (.errorInvalidState, h)
  | some source =>
    let got := Memory.alloc host 0 h.pool.arenaCapacity source
    let h := { h with pool := { h.pool with source := some got.state } }
    if got.result = .success then
      let h := splitCurrent h
      match initArenaBorrow got.buffer h.pool.arenaCapacity with
      | .ok a =>
        (.success, { h with
          pool := { h.pool with current := some a }, taken := got.buffer :: h.taken })
      | .error _ => (.success, h)
    else (got.result, h)

/-- The end of `arnm_graded_block_pool_alloc_fresh`: a block from the current arena. -/
def cutFresh (log2 : Nat) (h : PoolHeap) : Answer PoolHeap :=
  let (block, h) := cutCurrent (2 ^ log2) h
  ⟨.success, block, { h with pool := { h.pool with lentBytes := h.pool.lentBytes + 2 ^ log2 } }⟩

/-- `arnm_graded_block_pool_alloc_fresh` -/
def allocFresh (host : Host) (buffer log2 : Nat) (h : PoolHeap) : Answer PoolHeap :=
  if h.pool.source.isNone then ⟨.errorNotInitialized, buffer, h⟩
  else if h.pool.remaining < 2 ^ log2 then
    match nextArena host h with
    | (.success, h) =>
      -- the rest of the old arena may have held a block of exactly this grade
      if h.pool.freeHead (log2 - h.pool.minLog2) ≠ 0 then popFree log2 h
      else cutFresh log2 h
    | (result, h) => ⟨result, buffer, h⟩
  else cutFresh log2 h

/-! ## The calls -/

/-- `arnm_graded_block_pool_alloc_log2` -/
def allocLog2 (host : Host) (buffer log2 : Nat) (h : PoolHeap) : Answer PoolHeap :=
  if h.pool.maxLog2 < log2 then ⟨.errorResourceSizeExceed, buffer, h⟩
  else
    let log2 := gradeOf h.pool log2
    if h.pool.freeHead (log2 - h.pool.minLog2) = 0 then allocFresh host buffer log2 h
    else popFree log2 h

/-- `arnm_graded_block_pool_alloc` -/
def alloc (host : Host) (buffer size : Nat) (h : PoolHeap) : Answer PoolHeap :=
  if h.pool.source.isNone then ⟨.errorNotInitialized, buffer, h⟩
  else
    match sizeToLog2 h.pool size with
    | .ok log2 => allocLog2 host buffer log2 h
    | .error result => ⟨result, buffer, h⟩

/-- `arnm_graded_block_pool_free_log2` -/
def freeLog2 (buffer log2 : Nat) (h : PoolHeap) : Result × PoolHeap :=
  if buffer = 0 then (.success, h)
  else if h.pool.maxLog2 < log2 then (.errorResourceSizeExceed, h)
  else
    let log2 := gradeOf h.pool log2
    -- the plainest double free: more coming back than is out
    if h.pool.lentBytes < 2 ^ log2 then (.errorInvalidState, h)
    else
      let h := pushFree buffer log2 h
      (.success, { h with pool := { h.pool with lentBytes := h.pool.lentBytes - 2 ^ log2 } })

/-- `arnm_graded_block_pool_free` -/
def free (buffer size : Nat) (h : PoolHeap) : Result × PoolHeap :=
  if buffer = 0 then (.success, h)
  else if h.pool.source.isNone then (.errorNotInitialized, h)
  else
    match sizeToLog2 h.pool size with
    | .ok log2 => freeLog2 buffer log2 h
    | .error result => (result, h)

/-- `arnm_graded_block_pool_realloc`: always a new block, the old one copied and given back. -/
def realloc (host : Host) (buffer oldSize newSize : Nat) (h : PoolHeap) : Answer PoolHeap :=
  let got := alloc host 0 newSize h
  if got.result = .success then
    if buffer ≠ 0 ∧ oldSize ≠ 0 then
      let copied := { got.state with
        bytes := got.state.bytes.copy got.buffer buffer (min oldSize newSize) }
      let (result, h) := free buffer oldSize copied
      ⟨if result = .success then .success else .warningArenaMemoryNotReclaimed, got.buffer, h⟩
    else ⟨.success, got.buffer, got.state⟩
  else ⟨got.result, buffer, got.state⟩

/-- `arnm_graded_block_pool_reset` -/
def reset (h : PoolHeap) : PoolHeap :=
  { h with
    pool := { h.pool with
      source := h.pool.source.map Allocator.reset
      freeHead := fun _ => 0
      current := none
      lentBytes := 0
      cachedBytes := 0 }
    taken := [] }

/-- A call on the pool with the arguments it is made with. -/
inductive Call where
  | alloc (size : Nat)
  | allocLog2 (log2 : Nat)
  | free (buffer size : Nat)
  | freeLog2 (buffer log2 : Nat)
  | realloc (buffer oldSize newSize : Nat)
  | reset
  deriving DecidableEq, Repr

/-- What a call leaves. -/
def PoolHeap.call (host : Host) (h : PoolHeap) : Call → Answer PoolHeap
  | .alloc size => Pool.alloc host 0 size h
  | .allocLog2 log2 => Pool.allocLog2 host 0 log2 h
  | .free buffer size => ⟨(Pool.free buffer size h).1, 0, (Pool.free buffer size h).2⟩
  | .freeLog2 buffer log2 => ⟨(Pool.freeLog2 buffer log2 h).1, 0, (Pool.freeLog2 buffer log2 h).2⟩
  | .realloc buffer oldSize newSize => Pool.realloc host buffer oldSize newSize h
  | .reset => ⟨.success, 0, Pool.reset h⟩

end Arnm.Pool
