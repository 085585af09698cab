import Arnm.Result
import Arnm.Lib.Region
import Mathlib.Data.List.DropRight

set_option autoImplicit false

/-! # Bump arenas and chains of arenas

The allocator of `memory.c`: a single arena hands out its bytes from the front and takes back
only its newest block; a chain keeps a list of arenas, opens a further one when none has room,
and remembers in `firstOpen` the earliest arena that may still have some.

Addresses are natural numbers and `0` is the null pointer. What the code asks of its host is in
`Host`: the address `malloc` answers, and whether the vector of arenas takes one more. The
handle's third mode, which passes every request on to the host, is not modelled. -/

namespace Arnm.Memory

/-! ## Rounding -/

/-- `ARNM_ALIGN8` -/
def align8 (x : Nat) : Nat := (x + 7) / 8 * 8

/-- `ARNM_MAX_ALLOC_SIZE`, seven less than the largest 32-bit value. -/
def maxAllocSize : Nat := 2 ^ 32 - 1 - 7

/-- Round up to a multiple of eight; `0` for a size that cannot be. -/
def align8U32 (size : Nat) : Nat := if maxAllocSize < size then 0 else align8 size

theorem align8U32_dvd (size : Nat) : 8 ∣ align8U32 size := by
  unfold align8U32 align8
  split <;> omega

theorem align8U32_ne_zero {size : Nat} :
    align8U32 size ≠ 0 ↔ size ≠ 0 ∧ size ≤ maxAllocSize := by
  unfold align8U32 align8
  split <;> omega

/-- Past the overflow check only a size of zero rounds to zero. -/
theorem align8U32_eq_zero_iff {size : Nat} (h : ¬ (size ≠ 0 ∧ align8U32 size = 0)) :
    align8U32 size = 0 ↔ size = 0 := by
  constructor
  · intro hz
    by_contra hne
    exact h ⟨hne, hz⟩
  · rintro rfl
    decide

theorem le_align8U32 {size : Nat} (h : align8U32 size ≠ 0) : size ≤ align8U32 size := by
  have hle := (align8U32_ne_zero.mp h).2
  unfold align8U32 align8
  rw [if_neg (by omega)]
  omega

theorem align8U32_mono {size size' : Nat} (h : align8U32 size' ≠ 0) (hle : size ≤ size') :
    align8U32 size ≤ align8U32 size' := by
  have hle' := (align8U32_ne_zero.mp h).2
  unfold align8U32 align8
  rw [if_neg (by omega), if_neg (by omega)]
  omega

theorem align8U32_le (size : Nat) : align8U32 size ≤ maxAllocSize := by
  unfold align8U32 align8 maxAllocSize
  split <;> omega

theorem align8U32_of_dvd {size : Nat} (h : 8 ∣ size) (hle : size ≤ maxAllocSize) :
    align8U32 size = size := by
  unfold align8U32 align8
  rw [if_neg (by omega)]
  omega

/-- A rounded size is its own rounding. -/
@[simp] theorem align8U32_align8U32 (size : Nat) :
    align8U32 (align8U32 size) = align8U32 size :=
  align8U32_of_dvd (align8U32_dvd size) (align8U32_le size)

/-! ## The handles -/

/-- `ARNM_ALLOC_TYPE_ARENA_OWNED` and `ARNM_ALLOC_TYPE_ARENA_EXTERNAL` -/
inductive ArenaType where
  | owned
  | external
  deriving DecidableEq, Repr

/-- The single arena in `arnm_intern`. -/
structure Arena where
  data : Nat
  lastIndex : Nat
  capacity : Nat
  outOfMemoryCapacity : Nat
  allocationType : ArenaType
  deriving DecidableEq, Repr

/-- `arnm_multi_arena`, its vector of arenas a list with the oldest first. -/
structure MultiArena where
  arenas : List Arena
  arenaCapacity : Nat
  arenaMaxCount : Nat
  fullRemaining : Nat
  firstOpen : Nat
  deriving DecidableEq, Repr

/-- `arnm_intern` in its two arena modes. -/
inductive Allocator where
  | arena (a : Arena)
  | multiArena (m : MultiArena)
  deriving DecidableEq, Repr

/-- An answer that refuses. -/
structure Refusal where
  result : Result
  isError : result.isError = true

/-- What one call learns from outside: the address `malloc` has for a size, `0` for none, and
the refusal of the vector of arenas, if it refuses to grow. -/
structure Host where
  malloc : Nat → Nat
  refusal : Option Refusal

/-- A host that answers one address for every size up to 2048. -/
def Host.answering (addr : Nat) : Host where
  malloc size := if size ≤ 2048 then addr else 0
  refusal := none

/-- What a call leaves: its result, the caller's pointer and the handle. -/
structure Answer (σ : Type) where
  result : Result
  buffer : Nat
  state : σ

/-! ## One arena -/

/-- Bytes still to be had from the arena. -/
def Arena.remainingBytes (a : Arena) : Nat := a.capacity - a.lastIndex

/-- `arnm_arena_is_used_up` -/
def isUsedUp (remaining fullRemaining : Nat) : Bool := remaining ≤ fullRemaining

/-- The block is the newest of the arena: `data + last_index - aligned_size == buffer`, written
without the subtraction. -/
def Arena.isReclaimable (buffer alignedSize : Nat) (a : Arena) : Bool :=
  buffer ≠ 0 && alignedSize ≠ 0 && (a.data + a.lastIndex == buffer + alignedSize)

/-- The request runs past the end; the shortfall is counted, saturating. -/
def accountCapacityExceeded (alignedSize : Nat) (a : Arena) : Bool × Arena :=
  if a.remainingBytes < alignedSize then
    (true, { a with
      outOfMemoryCapacity :=
        if 2 ^ 32 - 1 < a.outOfMemoryCapacity + alignedSize then 2 ^ 32 - 1
        else a.outOfMemoryCapacity + alignedSize })
  else (false, a)

/-- `arena_alloc_aligned` on a single arena. -/
def arenaAllocAligned (buffer alignedSize : Nat) (a : Arena) : Answer Arena :=
  if a.data = 0 then ⟨.errorInvalidState, buffer, a⟩
  else
    match accountCapacityExceeded alignedSize a with
    | (true, a) => ⟨.errorOutOfMemory, buffer, a⟩
    | (false, a) =>
      ⟨.success, a.data + a.lastIndex, { a with lastIndex := a.lastIndex + alignedSize }⟩

/-- `arnm_init_arena` -/
def initArena (host : Host) (capacity : Nat) : Except Result Arena :=
  if capacity = 0 then .error .errorInvalidParam
  else if align8U32 capacity = 0 then .error .errorArithmeticOverflow
  else if host.malloc (align8U32 capacity) = 0 then .error .errorOutOfMemory
  else
    .ok { data := host.malloc (align8U32 capacity)
          lastIndex := 0
          capacity := align8U32 capacity
          outOfMemoryCapacity := 0
          allocationType := .owned }

/-- `arnm_init_arena_borrow`: an unaligned buffer or capacity is rejected, not rounded. -/
def initArenaBorrow (data capacity : Nat) : Except Result Arena :=
  if data = 0 then .error .errorNullPointer
  else if capacity = 0 then .error .errorInvalidParam
  else if align8U32 capacity = 0 then .error .errorArithmeticOverflow
  else if align8U32 capacity ≠ capacity ∨ align8 data ≠ data then .error .errorInvalidParam
  else
    .ok { data := data
          lastIndex := 0
          capacity := align8U32 capacity
          outOfMemoryCapacity := 0
          allocationType := .external }

/-- `arnm_reset` on a single arena. -/
def Arena.reset (a : Arena) : Arena := { a with lastIndex := 0, outOfMemoryCapacity := 0 }

/-- `arnm_release` on a single arena: an owned buffer goes back to the host. -/
def Arena.release (a : Arena) : Arena :=
  Arena.reset { a with
    data := if a.allocationType = .owned then 0 else a.data
    capacity := 0 }

/-- The address falls into the arena's block. -/
def Arena.spans (a : Arena) (buffer : Nat) : Bool :=
  a.data ≠ 0 && a.data ≤ buffer && buffer - a.data < a.capacity

/-! ## A chain of arenas -/

/-- `arnm_multi_arena_options` -/
structure MultiArenaOptions where
  arenaCapacity : Nat
  arenaMaxCount : Nat
  fullRemaining : Nat
  bucketSizeLog2 : Nat
  indexGrowStepSize : Nat
  deriving DecidableEq, Repr

/-- `multi_arena_options_fill_in_defaults` -/
def MultiArenaOptions.fillInDefaults (o : MultiArenaOptions) : MultiArenaOptions :=
  { o with
    arenaCapacity := if o.arenaCapacity = 0 then 2 ^ 10 else o.arenaCapacity
    fullRemaining := if o.fullRemaining = 0 then 64 else o.fullRemaining
    bucketSizeLog2 := if o.bucketSizeLog2 = 0 then 6 else o.bucketSizeLog2
    indexGrowStepSize := if o.indexGrowStepSize = 0 then 8 else o.indexGrowStepSize }

/-- `arnm_multi_arena_options_validate`: the answer, and the options as the call leaves them. -/
def multiArenaOptionsValidate (options : MultiArenaOptions) : Result × MultiArenaOptions :=
  let o := { options.fillInDefaults with
    arenaCapacity := align8U32 options.fillInDefaults.arenaCapacity }
  if o.arenaCapacity = 0 then (.errorArithmeticOverflow, o)
  else if isUsedUp o.arenaCapacity o.fullRemaining then (.errorInvalidState, o)
  else if 15 < o.bucketSizeLog2 then (.errorArithmeticOverflow, o)
  else (.success, o)

/-- `arnm_create_multi_arena`; the host may refuse the descriptor or the vector. -/
def createMultiArena (host : Host) (options : MultiArenaOptions) : Option MultiArena :=
  match multiArenaOptionsValidate options, host.refusal with
  | (.success, o), none =>
    some { arenas := [], arenaCapacity := o.arenaCapacity, arenaMaxCount := o.arenaMaxCount,
           fullRemaining := o.fullRemaining, firstOpen := 0 }
  | _, _ => none

/-- `multi_arena_push` -/
def multiArenaPush (host : Host) (arena : Arena) (m : MultiArena) : Result × MultiArena :=
  match host.refusal with
  | some refusal => (refusal.result, m)
  | none => (.success, { m with arenas := m.arenas ++ [arena] })

/-- The places of a chain in the order `multi_arena_find_owner` visits them: from `first_open` to
the end, then from the front. -/
def MultiArena.ownerOrder (m : MultiArena) : List Nat :=
  let count := m.arenas.length
  let start := if m.firstOpen < count then m.firstOpen else 0
  (List.range count).map fun seen => if count ≤ start + seen then start + seen - count
    else start + seen

/-- `multi_arena_find_owner`: the place and the arena the address falls into. -/
def MultiArena.findOwner (m : MultiArena) (buffer : Nat) : Option (Nat × Arena) :=
  if buffer = 0 then none
  else
    m.ownerOrder.findSome? fun index =>
      (m.arenas[index]?).bind fun a => if a.spans buffer then some (index, a) else none

/-- `multi_arena_reopen`: bytes came back to the arena at `index`. -/
def MultiArena.reopen (m : MultiArena) (index : Nat) : MultiArena :=
  match m.arenas[index]? with
  | some a =>
    if index < m.firstOpen ∧ isUsedUp a.remainingBytes m.fullRemaining = false then
      { m with firstOpen := index }
    else m
  | none => m

/-- The loop of `multi_arena_alloc` over the arenas from place `i` on: the marker afterwards, and
the place of the first arena that is not used up and has room. -/
def scanOpen (fullRemaining alignedSize : Nat) : List Arena → Nat → Nat → Nat × Option Nat
  | [], firstOpen, _ => (firstOpen, none)
  | a :: arenas, firstOpen, i =>
    if isUsedUp a.remainingBytes fullRemaining then
      -- the marker follows only while it leads the scan
      scanOpen fullRemaining alignedSize arenas
        (if i = firstOpen then firstOpen + 1 else firstOpen) (i + 1)
    else if alignedSize ≤ a.remainingBytes then (firstOpen, some i)
    else scanOpen fullRemaining alignedSize arenas firstOpen (i + 1)

/-- `multi_arena_alloc` on a chosen arena of the chain. -/
def MultiArena.allocAt (buffer alignedSize i : Nat) (m : MultiArena) : Answer MultiArena :=
  match m.arenas[i]? with
  | some a =>
    let got := arenaAllocAligned buffer alignedSize a
    ⟨got.result, got.buffer, { m with arenas := m.arenas.set i got.state }⟩
  | none => ⟨.errorInvalidState, buffer, m⟩

/-- `multi_arena_alloc` -/
def multiArenaAlloc (host : Host) (buffer alignedSize : Nat) (m : MultiArena) :
    Answer MultiArena :=
  if alignedSize = 0 then ⟨.errorInvalidParam, buffer, m⟩
  else
    let (firstOpen, found) :=
      scanOpen m.fullRemaining alignedSize (m.arenas.drop m.firstOpen) m.firstOpen m.firstOpen
    let m := { m with firstOpen := firstOpen }
    match found with
    | some i => m.allocAt buffer alignedSize i
    | none =>
      if m.arenaMaxCount ≠ 0 ∧ m.arenaMaxCount ≤ m.arenas.length then
        ⟨.errorResourceExhausted, buffer, m⟩
      else
        match initArena host (max m.arenaCapacity alignedSize) with
        | .error result => ⟨result, buffer, m⟩
        | .ok arena =>
          match multiArenaPush host arena m with
          | (.success, m) => m.allocAt buffer alignedSize (m.arenas.length - 1)
          | (result, m) => ⟨result, buffer, m⟩

/-- `arnm_multi_arena_reserve`: only the vector of arenas grows. -/
def MultiArena.reserve (host : Host) (arenaCount : Nat) (m : MultiArena) : Result :=
  if m.arenaMaxCount ≠ 0 ∧ m.arenaMaxCount < arenaCount then .errorResourceExhausted
  else
    match host.refusal with
    | some refusal => refusal.result
    | none => .success

/-- `arnm_multi_arena_borrow` -/
def MultiArena.borrow (host : Host) (data capacity : Nat) (m : MultiArena) :
    Result × MultiArena :=
  if data = 0 then (.errorNullPointer, m)
  else if m.arenaMaxCount ≠ 0 ∧ m.arenaMaxCount < m.arenas.length + 1 then
    (.errorResourceExhausted, m)
  else
    match initArenaBorrow data capacity with
    | .error result => (result, m)
    | .ok arena => multiArenaPush host arena m

/-- Nothing of the arena is in use, and it is the chain's own. -/
def Arena.canGo (a : Arena) : Bool := a.lastIndex == 0 && a.allocationType != .external

/-- `arnm_multi_arena_shrink`: the youngest arenas go while nothing of them is in use and they
are the chain's own; the marker stays within the chain. -/
def MultiArena.shrink (host : Host) (m : MultiArena) : Result × MultiArena :=
  let arenas := m.arenas.rdropWhile Arena.canGo
  let result := match host.refusal with
    | some refusal => refusal.result
    | none => .success
  (result, { m with arenas := arenas, firstOpen := min m.firstOpen arenas.length })

/-! ## The calls -/

/-- `arnm_reset` -/
def Allocator.reset : Allocator → Allocator
  | .arena a => .arena a.reset
  | .multiArena m => .multiArena { m with arenas := m.arenas.map Arena.reset, firstOpen := 0 }

/-- `arnm_release` -/
def Allocator.release : Allocator → Allocator
  | .arena a => .arena a.release
  | .multiArena m => .multiArena { m with arenas := [], firstOpen := 0 }

/-- `arnm_alloc` on an arena or a chain. -/
def alloc (host : Host) (buffer size : Nat) (memory : Allocator) : Answer Allocator :=
  if size = 0 then ⟨.errorInvalidParam, buffer, memory⟩
  else if align8U32 size = 0 then ⟨.errorArithmeticOverflow, buffer, memory⟩
  else
    match memory with
    | .arena a =>
      let got := arenaAllocAligned buffer (align8U32 size) a
      ⟨got.result, got.buffer, .arena got.state⟩
    | .multiArena m =>
      let got := multiArenaAlloc host buffer (align8U32 size) m
      ⟨got.result, got.buffer, .multiArena got.state⟩

/-- The arena that has to answer for an address, with its place: a single arena answers for every
address. -/
def Allocator.owner : Allocator → Nat → Option (Nat × Arena)
  | .arena a, _ => some (0, a)
  | .multiArena m, buffer => m.findOwner buffer

/-- `last_index` of the arena at place `i` goes back by `bytes`, and the chain's marker is put
right. -/
def Allocator.giveBack (i bytes : Nat) : Allocator → Allocator
  | .arena a => .arena { a with lastIndex := a.lastIndex - bytes }
  | .multiArena m =>
    .multiArena (MultiArena.reopen { m with
      arenas := m.arenas.modify i fun a => { a with lastIndex := a.lastIndex - bytes } } i)

/-- `last_index` of the arena at place `i` goes forward by `bytes`. -/
def Allocator.claim (i bytes : Nat) : Allocator → Allocator
  | .arena a => .arena { a with lastIndex := a.lastIndex + bytes }
  | .multiArena m =>
    .multiArena { m with
      arenas := m.arenas.modify i fun a => { a with lastIndex := a.lastIndex + bytes } }

/-- `arnm_free` -/
def free (buffer size : Nat) (memory : Allocator) : Result × Allocator :=
  if size ≠ 0 ∧ align8U32 size = 0 then (.errorArithmeticOverflow, memory)
  else
    match memory.owner buffer with
    | none =>
      if buffer ≠ 0 then (.errorInvalidParam, memory)
      else (.warningArenaMemoryNotReclaimed, memory)
    | some (i, a) =>
      if a.isReclaimable buffer (align8U32 size) then
        (.success, memory.giveBack i (align8U32 size))
      else (.warningArenaMemoryNotReclaimed, memory)

/-- An allocator and the bytes of the address space it hands out. -/
structure Heap where
  memory : Allocator
  bytes : Bytes

/-- `arnm_realloc` where the block is the newest of the arena `a` at place `i`. -/
def reallocNewest (host : Host) (buffer oldSize oldAligned newAligned i : Nat) (a : Arena)
    (h : Heap) : Answer Heap :=
  if newAligned < oldAligned then
    ⟨.success, buffer, { h with memory := h.memory.giveBack i (oldAligned - newAligned) }⟩
  else if newAligned - oldAligned ≤ a.remainingBytes then
    ⟨.success, buffer, { h with memory := h.memory.claim i (newAligned - oldAligned) }⟩
  else
    match h.memory with
    | .arena a =>
      ⟨.errorOutOfMemory, buffer,
        { h with memory := .arena (accountCapacityExceeded (newAligned - oldAligned) a).2 }⟩
    | .multiArena m =>
      -- a chain has somewhere else to go: fresh block, contents over, old one handed back
      let got := alloc host 0 newAligned (.multiArena m)
      if got.result = .success then
        ⟨.success, got.buffer,
          { memory := got.state.giveBack i oldAligned
            bytes := h.bytes.copy got.buffer buffer oldSize }⟩
      else ⟨got.result, buffer, { h with memory := got.state }⟩

/-- `arnm_realloc` where the block is buried, or there is none yet. -/
def reallocBuried (host : Host) (buffer oldSize oldAligned newAligned : Nat) (h : Heap) :
    Answer Heap :=
  if oldAligned < newAligned then
    let got := alloc host 0 newAligned h.memory
    if got.result = .success then
      ⟨.warningArenaMemoryNotReclaimed, got.buffer,
        { memory := got.state
          bytes := if buffer ≠ 0 ∧ oldSize ≠ 0 then h.bytes.copy got.buffer buffer oldSize
                   else h.bytes }⟩
    else ⟨got.result, buffer, { h with memory := got.state }⟩
  else ⟨.warningArenaMemoryNotReclaimed, buffer, h⟩

/-- `arnm_realloc` -/
def realloc (host : Host) (buffer oldSize newSize : Nat) (h : Heap) : Answer Heap :=
  if (newSize ≠ 0 ∧ align8U32 newSize = 0) ∨ (oldSize ≠ 0 ∧ align8U32 oldSize = 0) then
    ⟨.errorArithmeticOverflow, buffer, h⟩
  else if align8U32 newSize = 0 then
    let (result, memory) := free buffer (align8U32 oldSize) h.memory
    ⟨result, if result = .success then 0 else buffer, { h with memory := memory }⟩
  else if buffer ≠ 0 ∧ oldSize = newSize then ⟨.success, buffer, h⟩
  else
    match h.memory.owner buffer with
    | none =>
      -- a null buffer is no address from elsewhere: it is allocated from scratch
      if buffer ≠ 0 then ⟨.errorInvalidParam, buffer, h⟩
      else reallocBuried host buffer oldSize (align8U32 oldSize) (align8U32 newSize) h
    | some (i, a) =>
      if a.isReclaimable buffer (align8U32 oldSize) then
        reallocNewest host buffer oldSize (align8U32 oldSize) (align8U32 newSize) i a h
      else reallocBuried host buffer oldSize (align8U32 oldSize) (align8U32 newSize) h

/-- `arnm_clone` -/
def clone (host : Host) (buffer src size : Nat) (h : Heap) : Answer Heap :=
  if src = 0 then ⟨.errorNullPointer, buffer, h⟩
  else if size = 0 then ⟨.errorInvalidParam, buffer, h⟩
  else
    let got := alloc host buffer size h.memory
    if got.result = .success then
      ⟨.success, got.buffer,
        { memory := got.state, bytes := h.bytes.copy got.buffer src size }⟩
    else ⟨got.result, got.buffer, { h with memory := got.state }⟩

/-- A call on the allocator with the arguments it is made with. -/
inductive Call where
  | alloc (size : Nat)
  | clone (src size : Nat)
  | free (buffer size : Nat)
  | realloc (buffer oldSize newSize : Nat)
  | reset
  | release
  | reserve (arenaCount : Nat)
  | borrow (data capacity : Nat)
  | shrink
  deriving DecidableEq, Repr

/-- What a call leaves. The calls that only a chain knows answer `errorInvalidState` on a single
arena, a lent buffer of `NULL` `errorNullPointer` before. -/
def Heap.call (host : Host) (h : Heap) : Call → Answer Heap
  | .alloc size =>
    let got := Memory.alloc host 0 size h.memory
    ⟨got.result, got.buffer, { h with memory := got.state }⟩
  | .clone src size => Memory.clone host 0 src size h
  | .free buffer size =>
    let (result, memory) := Memory.free buffer size h.memory
    ⟨result, buffer, { h with memory := memory }⟩
  | .realloc buffer oldSize newSize => Memory.realloc host buffer oldSize newSize h
  | .reset => ⟨.success, 0, { h with memory := h.memory.reset }⟩
  | .release => ⟨.success, 0, { h with memory := h.memory.release }⟩
  | .reserve arenaCount =>
    match h.memory with
    | .arena _ => ⟨.errorInvalidState, 0, h⟩
    | .multiArena m => ⟨m.reserve host arenaCount, 0, h⟩
  | .borrow data capacity =>
    match h.memory with
    | .arena _ => ⟨if data = 0 then .errorNullPointer else .errorInvalidState, 0, h⟩
    | .multiArena m =>
      ⟨(m.borrow host data capacity).1, 0,
        { h with memory := .multiArena (m.borrow host data capacity).2 }⟩
  | .shrink =>
    match h.memory with
    | .arena _ => ⟨.errorInvalidState, 0, h⟩
    | .multiArena m =>
      ⟨(m.shrink host).1, 0, { h with memory := .multiArena (m.shrink host).2 }⟩

end Arnm.Memory
