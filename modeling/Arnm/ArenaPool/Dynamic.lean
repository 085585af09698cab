import Arnm.ArenaPool.FreeList
import Arnm.Memory.Recorded

set_option autoImplicit false

/-! # The dynamic arena pool

`dynamic_arena_pool.c`: every arena is one block of the host, its descriptor in front of its
buffer. Free arenas are kept in stock up to a limit. A walk down a list of arenas is given the
number of its nodes; `none` stands for a walk that does not end by then. -/

namespace Arnm.ArenaPool.Dynamic

open Memory

/-- `arnm_dynamic_arena_pool` -/
structure DynamicArenaPool where
  freeHead : Nat
  arenaCapacity : Nat
  acquiredCount : Nat
  spareCount : Nat
  spareLimit : Nat
  deriving DecidableEq, Repr

/-- A pool, the arena descriptors, and the host with the memory. -/
structure State (σ : Type) where
  pool : DynamicArenaPool
  store : Store σ

/-- `sizeof(arnm)` -/
def descriptorSize : Nat := 32

/-- `arena_block_bytes` -/
def arenaBlockBytes (capacity : Nat) : Nat := (descriptorSize + capacity) % 2 ^ 32

/-- `forget_everything` -/
def forgetEverything : DynamicArenaPool := ⟨0, 0, 0, 0, 0⟩

/-- `arnm_dynamic_arena_pool_init` -/
def init (pool : DynamicArenaPool) (arenaCapacity spareLimit : Nat) : Result × DynamicArenaPool :=
  if arenaCapacity = 0 then (.errorInvalidParam, pool)
  else
    let capacity := align8U32 arenaCapacity
    if capacity = 0 then (.errorArithmeticOverflow, pool)
    -- the descriptor rides in front of every buffer
    else if maxAllocSize - descriptorSize < capacity then (.errorArithmeticOverflow, pool)
    else
      (.success,
        { freeHead := 0
          arenaCapacity := capacity
          acquiredCount := 0
          spareCount := 0
          spareLimit := spareLimit })

/-- `arnm_dynamic_arena_pool_available` -/
def DynamicArenaPool.available (pool : DynamicArenaPool) : Nat := pool.spareCount

/-- `arnm_dynamic_arena_pool_reserved` -/
def DynamicArenaPool.reserved (pool : DynamicArenaPool) : Nat :=
  if pool.arenaCapacity = 0 then 0
  else (pool.spareCount + pool.acquiredCount) * arenaBlockBytes pool.arenaCapacity % 2 ^ 64

section Host

variable {σ : Type} (host : Calls σ)

/-- `make_arena`, `0` when the host says no. -/
def makeArena (capacity : Nat) (s : Store σ) : Nat × Store σ :=
  let block := host.alloc 0 (arenaBlockBytes capacity) s.heap
  if block.result ≠ .success then (0, { s with heap := block.state })
  else
    match initArenaBorrow (block.buffer + descriptorSize) capacity with
    | .error _ =>
      (0, { s with heap := (host.free block.buffer (arenaBlockBytes capacity) block.state).2 })
    | .ok a => (block.buffer, { s.describe block.buffer a with heap := block.state })

/-- `destroy_arena` -/
def destroyArena (arena capacity : Nat) (s : Store σ) : Store σ :=
  { s with heap := (host.free arena (arenaBlockBytes capacity) s.heap).2 }

/-- `destroy_free_list` over a list of up to `n` arenas. -/
def destroyFreeList (capacity : Nat) : Nat → Nat → Store σ → Option (Store σ)
  | 0, head, s => if head = 0 then some s else none
  | n + 1, head, s =>
    if head = 0 then some s
    else
      let next := s.nextFree host head
      destroyFreeList capacity n next (destroyArena host head capacity s)

/-- What `arnm_dynamic_arena_pool_reserve` builds aside. -/
structure Aside where
  head : Nat
  tail : Nat
  made : Nat
  deriving DecidableEq, Repr

/-- The loop of `arnm_dynamic_arena_pool_reserve` over `n` further arenas. -/
def buildAside (capacity : Nat) : Nat → Aside → Store σ → Result × Aside × Store σ
  | 0, aside, s => (.success, aside, s)
  | n + 1, aside, s =>
    let arena := makeArena host capacity s
    if arena.1 = 0 then (.errorOutOfMemory, aside, arena.2)
    else
      buildAside capacity n
        { head := arena.1
          tail := if aside.tail = 0 then arena.1 else aside.tail
          made := aside.made + 1 }
        (arena.2.setNextFree host arena.1 aside.head)

/-- `arnm_dynamic_arena_pool_reserve` -/
def reserve (st : State σ) (count : Nat) : Option (Result × State σ) :=
  let pool := st.pool
  if pool.arenaCapacity = 0 then some (.errorNotInitialized, st)
  else if pool.spareLimit < count then some (.errorInvalidParam, st)
  else if count ≤ pool.spareCount then some (.success, st)
  else
    let built := buildAside host pool.arenaCapacity (count - pool.spareCount) ⟨0, 0, 0⟩ st.store
    let aside := built.2.1
    if built.1 ≠ .success then
      (destroyFreeList host pool.arenaCapacity aside.made aside.head built.2.2).map fun s =>
        (.errorOutOfMemory, { st with store := s })
    else
      some (.success,
        { pool := { pool with
            freeHead := aside.head
            spareCount := (pool.spareCount + aside.made) % 2 ^ 32 }
          store := built.2.2.setNextFree host aside.tail pool.freeHead })

/-- `arnm_dynamic_arena_pool_release` -/
def release (st : State σ) : Option (Result × State σ) :=
  if st.pool.acquiredCount ≠ 0 then some (.errorResourceInUse, st)
  else
    (destroyFreeList host st.pool.arenaCapacity st.pool.spareCount st.pool.freeHead st.store).map
      fun s => (.success, { pool := forgetEverything, store := s })

/-- `arnm_dynamic_arena_pool_alloc`, with the arena it hands over. -/
def alloc (st : State σ) (out : Bool) : Result × Nat × State σ :=
  let pool := st.pool
  if out = false then (.errorNullPointer, 0, st)
  else if pool.arenaCapacity = 0 then (.errorNotInitialized, 0, st)
  else if pool.acquiredCount = 2 ^ 32 - 1 then (.errorResourceExhausted, 0, st)
  else if pool.freeHead ≠ 0 then
    (.success, pool.freeHead,
      { st with pool := { pool with
          freeHead := st.store.nextFree host pool.freeHead
          spareCount := pool.spareCount - 1
          acquiredCount := pool.acquiredCount + 1 } })
  else
    let arena := makeArena host pool.arenaCapacity st.store
    if arena.1 = 0 then (.errorOutOfMemory, 0, { st with store := arena.2 })
    else
      (.success, arena.1,
        { pool := { pool with acquiredCount := pool.acquiredCount + 1 }, store := arena.2 })

/-- `arnm_dynamic_arena_pool_free` -/
def free (st : State σ) (arena : Nat) : Result × State σ :=
  let pool := st.pool
  if arena = 0 then (.errorNullPointer, st)
  else if pool.arenaCapacity = 0 then (.errorNotInitialized, st)
  else if pool.acquiredCount = 0 then (.errorInvalidState, st)
  else
    let pool := { pool with acquiredCount := pool.acquiredCount - 1 }
    let s := st.store.reset arena
    if pool.spareCount < pool.spareLimit then
      (.success,
        { pool := { pool with freeHead := arena, spareCount := pool.spareCount + 1 }
          store := s.setNextFree host arena pool.freeHead })
    else (.success, { pool := pool, store := destroyArena host arena pool.arenaCapacity s })

end Host

end Arnm.ArenaPool.Dynamic
