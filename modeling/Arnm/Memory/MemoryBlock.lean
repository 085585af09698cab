import Arnm.Memory.Others
import Arnm.Memory.Provider

set_option autoImplicit false

/-! # Memory blocks

`memory_block.h` keeps a buffer and the size it goes by in one descriptor. A resize lets the size
follow when the allocator answers success or another address. A buried block that grows within its
last eight bytes is answered with a warning at its old address: it was granted the new size, and
the descriptor keeps the smaller one. In runs without such a growth the descriptor covers what was
granted and the client's bytes are where it wrote them. -/

namespace Arnm.Memory

variable {host : Host} {held : List Block} {h : Heap}

/-! ## What a resize answers -/

/-- A buried block is asked to grow within the bytes its arena reserves for it. -/
def GrowsBuried (memory : Allocator) (buffer size newSize : Nat) : Prop :=
  size < newSize ∧ align8U32 newSize = align8U32 size ∧ memory.isBuried buffer size = true

instance (memory : Allocator) (buffer size newSize : Nat) :
    Decidable (GrowsBuried memory buffer size newSize) := inferInstanceAs (Decidable (_ ∧ _))

/-- A resize of a block held is refused, leaves a buried block where it is, or grants the new size
with a success or at another address. -/
theorem realloc_recorded {buffer oldSize newSize : Nat}
    (hs : Sound h.memory.arenas (⟨buffer, oldSize⟩ :: held))
    (hfresh : Fresh host h.memory.arenas) (hnew : newSize ≠ 0) :
    let r := realloc host buffer oldSize newSize h
    (r.result.isError = true ∧ r.buffer = buffer ∧ r.state.bytes = h.bytes ∧
      Sound r.state.memory.arenas (⟨buffer, oldSize⟩ :: held)) ∨
    (r = ⟨.warningArenaMemoryNotReclaimed, buffer, h⟩ ∧
      (newSize ≤ oldSize ∨ GrowsBuried h.memory buffer oldSize newSize)) ∨
    (r.result.isError = false ∧ (r.result = .success ∨ r.buffer ≠ buffer) ∧
      (r.result ≠ .success → oldSize < newSize) ∧
      Sound r.state.memory.arenas (⟨r.buffer, newSize⟩ :: held)) := by
  intro r
  have hb : (⟨buffer, oldSize⟩ : Block) ∈ (⟨buffer, oldSize⟩ :: held) := List.mem_cons_self
  by_cases herr : r.result.isError = true
  · obtain ⟨hbuf, hbytes⟩ := realloc_refused herr
    have hsound := @realloc_sound _ _ buffer oldSize newSize _ hs hfresh (Or.inr hb)
    rw [ledger_of_isError herr] at hsound
    exact Or.inl ⟨herr, hbuf, hbytes, hsound⟩
  right
  obtain ⟨hn, ⟨hsize, hr⟩ | ⟨i, a, hi, hin, hnewest, hr⟩ | ⟨hburied, hr⟩⟩ :=
    realloc_dispatch hs hb hnew herr
  · right
    rw [show r = _ from hr]
    exact ⟨rfl, Or.inl rfl, fun hno => absurd rfl hno, hsize ▸ hs⟩
  · right
    rcases reallocNewest_sound hs hfresh hb hi hin hnewest hn with ⟨hbad, -⟩ | ⟨hok, hst⟩
    · exact absurd (by rw [← hr] at hbad; exact hbad) herr
    · rw [List.erase_cons_head] at hst
      rw [show r = _ from hr, hok]
      exact ⟨rfl, Or.inl rfl, fun hno => absurd rfl hno, hst⟩
  · rcases reallocBuried_sound buffer oldSize newSize hs hfresh with
      ⟨hbad, -⟩ | ⟨hwarn, hle, hbuf, hst⟩ | ⟨hwarn, hlt, hst⟩
    · exact absurd (by rw [← hr] at hbad; exact hbad) herr
    · left
      rw [← hr] at hwarn hbuf hst
      constructor
      · show r = _
        calc r = ⟨r.result, r.buffer, r.state⟩ := rfl
          _ = ⟨.warningArenaMemoryNotReclaimed, buffer, h⟩ := by rw [hwarn, hbuf, hst]
      · rcases Nat.lt_or_ge oldSize newSize with hlt | hge
        · have hmono := align8U32_mono hn (Nat.le_of_lt hlt)
          exact Or.inr ⟨hlt, Nat.le_antisymm hle hmono, hburied⟩
        · exact Or.inl hge
    · -- the fresh place lies apart from the old one, so the address is another
      right
      rw [← hr] at hwarn hst
      have hapart := (List.pairwise_cons.mp hst.heldApart).1 _ hb
      have hpos : align8U32 oldSize ≠ 0 := hs.size_ne _ hb
      refine ⟨by rw [show r.result = _ from hwarn]; rfl, Or.inr fun hsame => ?_, fun _ => ?_,
        hst.sublist ((List.sublist_cons_self _ _).cons_cons _)⟩
      · have hor : r.buffer + align8U32 newSize ≤ buffer ∨
          buffer + align8U32 oldSize ≤ r.buffer := hapart
        omega
      · by_contra hgt
        have hmono := align8U32_mono hpos (Nat.le_of_not_lt hgt)
        omega

/-- A resize that is no growth of a buried block within its bytes: the size follows a success and
another address, and then the block has it; otherwise the block is left, large enough for what was
asked unless the request was refused. -/
theorem realloc_step {b : Block} {rest : List Block} {newSize : Nat}
    (hs : Sound h.memory.arenas (b :: rest)) (hfresh : Fresh host h.memory.arenas)
    (hnew : newSize ≠ 0) (hgrow : ¬ GrowsBuried h.memory b.addr b.size newSize) :
    let r := realloc host b.addr b.size newSize h
    (r.result.isError = true ∧ r.state.bytes = h.bytes ∧ Sound r.state.memory.arenas (b :: rest)) ∨
    ((r.result = .success ∨ r.result = .warningArenaMemoryNotReclaimed) ∧
      (∀ c ∈ rest, Bytes.AgreeOn h.bytes r.state.bytes c.room) ∧
      (∀ k < min b.size newSize, r.state.bytes (r.buffer + k) = h.bytes (b.addr + k)) ∧
      ((r.result ≠ .success ∧ r.buffer = b.addr ∧ newSize ≤ b.size ∧
          Sound r.state.memory.arenas (b :: rest)) ∨
        ((r.result = .success ∨ r.buffer ≠ b.addr) ∧
          Sound r.state.memory.arenas (⟨r.buffer, newSize⟩ :: rest)))) := by
  intro r
  obtain ⟨hblock, hrest⟩ := (realloc_copiesApart hs hfresh List.mem_cons_self hnew).keeps
    (hs.size_ne b List.mem_cons_self)
  have hkept := fun c hc => hrest c (List.mem_cons_of_mem b hc)
  rcases realloc_recorded hs hfresh hnew with
    ⟨herr, -, hbytes, hst⟩ | ⟨hr, hsize⟩ | ⟨herr, hmoved, -, hst⟩
  · exact Or.inl ⟨herr, hbytes, hst⟩
  · refine Or.inr ⟨?_, hkept, hblock, Or.inl ?_⟩
    · exact Or.inr (congrArg Answer.result hr)
    · rw [show r = _ from hr]
      exact ⟨Result.noConfusion, rfl, hsize.resolve_right hgrow, hs⟩
  · have hno : ¬ (realloc host b.addr b.size newSize h).result.isError = true := by
      rw [herr]
      decide
    obtain ⟨hres, -⟩ := realloc_carried_out hs hfresh List.mem_cons_self hnew hno
    exact Or.inr ⟨hres, hkept, hblock, Or.inr ⟨hmoved, hst⟩⟩

/-- A buried block that grows within its bytes is answered at its old address, with a warning. -/
theorem realloc_of_growsBuried {buffer oldSize newSize : Nat} (host : Host)
    (hs : Sound h.memory.arenas held) (hb : ⟨buffer, oldSize⟩ ∈ held)
    (hgrow : GrowsBuried h.memory buffer oldSize newSize) :
    realloc host buffer oldSize newSize h = ⟨.warningArenaMemoryNotReclaimed, buffer, h⟩ := by
  obtain ⟨hlt, hsame, hburied⟩ := hgrow
  have hold : align8U32 oldSize ≠ 0 := hs.size_ne _ hb
  obtain ⟨i, a, hown, -, -⟩ := hs.owner hb
  simp only at hown
  simp only [Allocator.isBuried, hown, Bool.not_eq_true'] at hburied
  unfold realloc
  rw [if_neg (by omega), if_neg (by omega), if_neg (by omega)]
  simp only [hown, hburied, Bool.false_eq_true, if_false]
  unfold reallocBuried
  rw [if_neg (by omega)]

/-- A resize to nothing takes the newest block back and leaves another one where it is. -/
theorem realloc_zero {buffer oldSize : Nat} (host : Host)
    (hs : Sound h.memory.arenas (⟨buffer, oldSize⟩ :: held)) :
    let r := realloc host buffer oldSize 0 h
    r.state.bytes = h.bytes ∧
      ((r.result = .success ∧ r.buffer = 0 ∧ Sound r.state.memory.arenas held) ∨
        (r.result = .warningArenaMemoryNotReclaimed ∧ r.buffer = buffer ∧ r.state = h)) := by
  intro r
  have hold : align8U32 oldSize ≠ 0 := hs.size_ne _ List.mem_cons_self
  have hr : r = realloc host buffer oldSize 0 h := rfl
  have hz : align8U32 0 = 0 := rfl
  unfold realloc at hr
  rw [if_neg (by omega), if_pos hz] at hr
  have hsame : Sound h.memory.arenas (⟨buffer, align8U32 oldSize⟩ :: held) :=
    hs.resize (align8U32_align8U32 oldSize)
  have hanswers := free_answers hsame
  simp only at hanswers
  generalize free buffer (align8U32 oldSize) h.memory = got at hr hanswers
  obtain ⟨result, memory⟩ := got
  rcases hanswers with ⟨rfl, hst⟩ | ⟨rfl, rfl⟩
  · rw [hr]
    exact ⟨rfl, Or.inl ⟨rfl, rfl, hst⟩⟩
  · rw [hr]
    exact ⟨rfl, Or.inr ⟨rfl, rfl, rfl⟩⟩

/-- A copy is refused, or handed out as a block of its own. -/
theorem clone_answers (buffer src size : Nat) (hs : Sound h.memory.arenas held)
    (hfresh : Fresh host h.memory.arenas) :
    let r := clone host buffer src size h
    (r.result.isError = true ∧ r.buffer = buffer ∧ r.state.bytes = h.bytes ∧
      Sound r.state.memory.arenas held) ∨
    (r.result = .success ∧ r.state.bytes = h.bytes.copy r.buffer src size ∧
      Sound r.state.memory.arenas (⟨r.buffer, size⟩ :: held)) := by
  intro r
  have hr : r = clone host buffer src size h := rfl
  unfold clone at hr
  split at hr
  · rw [hr]
    exact Or.inl ⟨rfl, rfl, rfl, hs⟩
  split at hr
  · rw [hr]
    exact Or.inl ⟨rfl, rfl, rfl, hs⟩
  rcases alloc_sound buffer size hs hfresh with ⟨herr, hbuf, hst⟩ | ⟨hok, hst⟩
  · simp only [if_neg (Result.ne_success_of_isError herr)] at hr
    rw [hr]
    exact Or.inl ⟨herr, hbuf, rfl, hst⟩
  · simp only [if_pos hok] at hr
    rw [hr]
    exact Or.inr ⟨rfl, rfl, hst⟩

/-- An empty descriptor is nothing to free. -/
theorem free_empty (memory : Allocator) :
    free 0 0 memory = (.warningArenaMemoryNotReclaimed, memory) := by
  unfold free
  rw [if_neg (by decide)]
  cases memory with
  | arena a => rfl
  | multiArena m => rfl

theorem realloc_empty (host : Host) (h : Heap) :
    realloc host 0 0 0 h = ⟨.warningArenaMemoryNotReclaimed, 0, h⟩ := by
  have hz : align8U32 0 = 0 := rfl
  unfold realloc
  rw [if_neg (by decide), if_pos hz, hz, free_empty]
  rfl

/-! ## The descriptor -/

/-- `arnm_memory_block` -/
structure MemoryBlock where
  data : Nat
  size : Nat
  deriving DecidableEq, Repr

/-- A zeroed block, which is empty. -/
def MemoryBlock.empty : MemoryBlock := ⟨0, 0⟩

/-- What a call on a block leaves: its result, the descriptor and the heap. -/
structure BlockAnswer where
  result : Result
  block : MemoryBlock
  heap : Heap

/-- `arnm_memory_block_alloc` -/
def memoryBlockAlloc (host : Host) (block : MemoryBlock) (size : Nat) (h : Heap) : BlockAnswer :=
  let got := alloc host block.data size h.memory
  ⟨got.result, ⟨got.buffer, if got.result = .success then size else block.size⟩,
    { h with memory := got.state }⟩

/-- `arnm_memory_block_free`: zeroed only when the bytes really came back. -/
def memoryBlockFree (block : MemoryBlock) (h : Heap) : BlockAnswer :=
  let (result, memory) := free block.data block.size h.memory
  ⟨result, if result = .success then .empty else block, { h with memory := memory }⟩

/-- The size rule of a resize: it follows a success and another address, since the allocation
changed then. -/
def MemoryBlock.recorded (before : MemoryBlock) (newSize : Nat) (got : Answer Heap) : BlockAnswer :=
  ⟨got.result,
    ⟨got.buffer,
      if got.result = .success ∨ before.data ≠ got.buffer then newSize else before.size⟩,
    got.state⟩

/-- `arnm_memory_block_realloc` -/
def memoryBlockRealloc (host : Host) (block : MemoryBlock) (newSize : Nat) (h : Heap) :
    BlockAnswer :=
  block.recorded newSize (realloc host block.data block.size newSize h)

/-- `arnm_memory_block_clone` -/
def memoryBlockClone (host : Host) (dst src : MemoryBlock) (h : Heap) : BlockAnswer :=
  let got := clone host dst.data src.data src.size h
  ⟨got.result, ⟨got.buffer, if got.result = .success then src.size else dst.size⟩, got.state⟩

/-- The blocks a descriptor stands for. -/
def MemoryBlock.blocks (block : MemoryBlock) : List Block :=
  if block.data = 0 then [] else [⟨block.data, block.size⟩]

/-! ## Runs -/

/-- A block between calls: its descriptor, the bytes its client has in it by what was granted, and
what the others hold. -/
structure BlockState where
  heap : Heap
  block : MemoryBlock
  contents : List UInt8
  others : List Block

/-- The bytes the client has after a resize: those that both sizes reach, and the fresh ones it
finds behind them. A refusal and a shrink that was not carried out change nothing. -/
def contentsAfter (contents : List UInt8) (newSize : Nat) (r : BlockAnswer) : List UInt8 :=
  if r.result.isError ∨ (r.result ≠ .success ∧ newSize ≤ contents.length) then contents
  else
    contents.take newSize ++
      r.heap.bytes.read (r.block.data + contents.length) (newSize - contents.length)

namespace BlockState

/-- The state after an answer, with what the client has in the block now. -/
def answered (s : BlockState) (r : BlockAnswer) (contents : List UInt8) : BlockState :=
  ⟨r.heap, r.block, contents, s.others⟩

def alloc (host : Host) (size : Nat) (s : BlockState) : BlockState :=
  let r := memoryBlockAlloc host s.block size s.heap
  s.answered r (if r.result = .success then r.heap.bytes.read r.block.data size else s.contents)

def clone (host : Host) (src : MemoryBlock) (s : BlockState) : BlockState :=
  let r := memoryBlockClone host s.block src s.heap
  s.answered r
    (if r.result = .success then s.heap.bytes.read src.data src.size else s.contents)

def realloc (host : Host) (newSize : Nat) (s : BlockState) : BlockState :=
  let r := memoryBlockRealloc host s.block newSize s.heap
  s.answered r (contentsAfter s.contents newSize r)

def free (s : BlockState) : BlockState :=
  let r := memoryBlockFree s.block s.heap
  s.answered r (if r.result = .success then [] else s.contents)

/-- The client writes into its block. -/
def write (offset : Nat) (values : List UInt8) (s : BlockState) : BlockState :=
  { s with
    heap := { s.heap with bytes := s.heap.bytes.put (s.block.data + offset) values }
    contents := s.contents.take offset ++ values ++ s.contents.drop (offset + values.length) }

/-- The descriptor covers what was granted, and the client's bytes are there. -/
def Intact (s : BlockState) : Prop :=
  s.contents.length ≤ s.block.size ∧
    s.heap.bytes.read s.block.data s.contents.length = s.contents

/-- The resize is no growth of a buried block within its bytes. -/
def Recordable (s : BlockState) (newSize : Nat) : Prop :=
  ¬ GrowsBuried s.heap.memory s.block.data s.block.size newSize

instance (s : BlockState) : Decidable s.Intact := inferInstanceAs (Decidable (_ ∧ _))

end BlockState

/-- The states of a block whose resizes are all allowed: an empty descriptor over an allocator that
others use, allocated or cloned while empty, resized, freed, written within what was granted, with
the others going on in between. -/
inductive BlockRun (Allowed : BlockState → Nat → Prop) : BlockState → Prop where
  | start (s : State) (reached : Reachable s) : BlockRun Allowed ⟨s.heap, .empty, [], s.held⟩
  | alloc (host : Host) (s : BlockState) (size : Nat) (run : BlockRun Allowed s)
      (fresh : Fresh host s.heap.memory.arenas) (empty : s.block = .empty) :
      BlockRun Allowed (s.alloc host size)
  | clone (host : Host) (s : BlockState) (src : MemoryBlock) (run : BlockRun Allowed s)
      (fresh : Fresh host s.heap.memory.arenas) (empty : s.block = .empty) :
      BlockRun Allowed (s.clone host src)
  | realloc (host : Host) (s : BlockState) (newSize : Nat) (run : BlockRun Allowed s)
      (fresh : Fresh host s.heap.memory.arenas) (allowed : Allowed s newSize) :
      BlockRun Allowed (s.realloc host newSize)
  | free (s : BlockState) (run : BlockRun Allowed s) : BlockRun Allowed s.free
  | write (s : BlockState) (offset : Nat) (values : List UInt8) (run : BlockRun Allowed s)
      (inside : offset + values.length ≤ s.contents.length) :
      BlockRun Allowed (s.write offset values)
  | elsewhere (s : BlockState) (heap : Heap) (others : List Block) (run : BlockRun Allowed s)
      (step : Elsewhere s.heap s.others heap others) :
      BlockRun Allowed { s with heap := heap, others := others }

/-! ## What every step keeps -/

/-- The block and those of the others are sound, the descriptor has the size that was granted, and
the client's bytes are there. -/
structure BlockState.Sound (s : BlockState) : Prop where
  sound : Memory.Sound s.heap.memory.arenas (s.block.blocks ++ s.others)
  empty : s.block.data = 0 → s.block = .empty
  size : s.contents.length = s.block.size
  bytes : s.heap.bytes.read s.block.data s.block.size = s.contents

theorem MemoryBlock.blocks_of_ne {block : MemoryBlock} (hne : block.data ≠ 0) :
    block.blocks = [⟨block.data, block.size⟩] := if_neg hne

namespace BlockState.Sound

variable {s : BlockState} (hs : s.Sound)
include hs

theorem intact : s.Intact := ⟨Nat.le_of_eq hs.size, hs.size ▸ hs.bytes⟩

theorem contents_of_empty (hempty : s.block = .empty) : s.contents = [] := by
  have hsize := hs.size
  rw [hempty] at hsize
  exact List.length_eq_zero_iff.mp hsize

theorem others_of_empty (hempty : s.block = .empty) :
    Memory.Sound s.heap.memory.arenas s.others := by
  have hsound := hs.sound
  rw [hempty] at hsound
  exact hsound

omit hs in
/-- The descriptor has a block, and the client the bytes in it. -/
theorem granted {r : BlockAnswer} {contents : List UInt8}
    (hsound : Memory.Sound r.heap.memory.arenas (⟨r.block.data, r.block.size⟩ :: s.others))
    (hbytes : r.heap.bytes.read r.block.data r.block.size = contents) :
    (s.answered r contents).Sound where
  sound := by
    show Memory.Sound r.heap.memory.arenas (r.block.blocks ++ s.others)
    rw [MemoryBlock.blocks_of_ne (hsound.addr_ne List.mem_cons_self)]
    exact hsound
  empty hz := absurd hz (hsound.addr_ne List.mem_cons_self)
  size := by
    show contents.length = r.block.size
    rw [← hbytes, Bytes.length_read]
  bytes := hbytes

/-- The client is left what it had. -/
theorem kept (r : BlockAnswer) (hblock : r.block = s.block)
    (hsound : Memory.Sound r.heap.memory.arenas (s.block.blocks ++ s.others))
    (hbytes : r.heap.bytes = s.heap.bytes) : (s.answered r s.contents).Sound where
  sound := by
    show Memory.Sound r.heap.memory.arenas (r.block.blocks ++ s.others)
    rw [hblock]
    exact hsound
  empty hz := by
    simp only [answered] at hz ⊢
    rw [hblock] at hz ⊢
    exact hs.empty hz
  size := by
    simp only [answered]
    rw [hblock]
    exact hs.size
  bytes := by
    simp only [answered]
    rw [hblock, hbytes]
    exact hs.bytes

theorem alloc {host : Host} (size : Nat) (fresh : Fresh host s.heap.memory.arenas)
    (hempty : s.block = .empty) : (s.alloc host size).Sound := by
  have hothers := hs.others_of_empty hempty
  have hdata : s.block.data = 0 := by rw [hempty]; rfl
  unfold BlockState.alloc memoryBlockAlloc
  simp only [hdata]
  rcases alloc_sound 0 size hothers fresh with ⟨herr, hbuf, hst⟩ | ⟨hok, hst⟩
  · rw [if_neg (Result.ne_success_of_isError herr),
      if_neg (Result.ne_success_of_isError herr), hbuf]
    refine hs.kept _ (by rw [hempty]; rfl) ?_ rfl
    rw [hempty]
    exact hst
  · rw [if_pos hok, if_pos hok]
    exact granted hst rfl

theorem clone {host : Host} (src : MemoryBlock) (fresh : Fresh host s.heap.memory.arenas)
    (hempty : s.block = .empty) : (s.clone host src).Sound := by
  have hothers := hs.others_of_empty hempty
  have hdata : s.block.data = 0 := by rw [hempty]; rfl
  unfold BlockState.clone memoryBlockClone
  simp only [hdata]
  rcases clone_answers 0 src.data src.size hothers fresh with
    ⟨herr, hbuf, hbytes, hst⟩ | ⟨hok, hbytes, hst⟩
  · rw [if_neg (Result.ne_success_of_isError herr),
      if_neg (Result.ne_success_of_isError herr), hbuf]
    refine hs.kept _ (by rw [hempty]; rfl) ?_ hbytes
    rw [hempty]
    exact hst
  · rw [if_pos hok, if_pos hok]
    refine granted hst (List.map_congr_left fun k hk => ?_)
    simp only [hbytes]
    exact Bytes.copy_apply (List.mem_range.mp hk)

theorem free : s.free.Sound := by
  unfold BlockState.free memoryBlockFree
  by_cases hne : s.block.data = 0
  · rw [hs.empty hne]
    simp only [MemoryBlock.empty, free_empty]
    refine hs.kept _ (hs.empty hne).symm ?_ rfl
    exact hs.sound
  · have hsound := hs.sound
    rw [MemoryBlock.blocks_of_ne hne] at hsound
    have hanswers := free_answers hsound
    simp only at hanswers
    generalize Memory.free s.block.data s.block.size s.heap.memory = got at hanswers
    obtain ⟨result, memory⟩ := got
    rcases hanswers with ⟨rfl, hst⟩ | ⟨rfl, rfl⟩
    · exact ⟨hst, fun _ => rfl, rfl, rfl⟩
    · exact hs.kept ⟨.warningArenaMemoryNotReclaimed, s.block, s.heap⟩ rfl hs.sound rfl

theorem write {offset : Nat} {values : List UInt8}
    (inside : offset + values.length ≤ s.contents.length) : (s.write offset values).Sound where
  sound := hs.sound
  empty := hs.empty
  size := by
    show (s.contents.take offset ++ values ++ s.contents.drop (offset + values.length)).length = _
    have hsize := hs.size
    simp only [List.length_append, List.length_take, List.length_drop]
    show _ = s.block.size
    omega
  bytes := by
    show (s.heap.bytes.put (s.block.data + offset) values).read s.block.data s.block.size = _
    rw [Bytes.read_put_part (hs.size ▸ inside), hs.bytes]
    rfl

theorem elsewhere {heap : Heap} {others : List Block}
    (step : Elsewhere s.heap s.others heap others) :
    BlockState.Sound { s with heap := heap, others := others } := by
  obtain ⟨hsound, hkeep⟩ := step.sound hs.sound
  refine ⟨hsound, hs.empty, hs.size, ?_⟩
  rw [← hs.bytes]
  show heap.bytes.read s.block.data s.block.size = _
  by_cases hne : s.block.data = 0
  · rw [hs.empty hne]
    rfl
  · have hmem : (⟨s.block.data, s.block.size⟩ : Block) ∈ s.block.blocks := by
      rw [MemoryBlock.blocks_of_ne hne]
      exact List.mem_singleton_self _
    have hroom := hs.sound.size_ne _ (List.mem_append_left _ hmem)
    refine Bytes.read_congr ((hkeep _ hmem).within ⟨Nat.le_refl _, ?_⟩)
    exact Nat.add_le_add_left (le_align8U32 hroom) _

/-- A resize that leaves the block where it is at its size. -/
theorem realloc_kept {got : Answer Heap} {newSize : Nat} (hbuf : got.buffer = s.block.data)
    (hres : got.result.isError = true ∨
      got.result = .warningArenaMemoryNotReclaimed ∧ newSize ≤ s.block.size)
    (hbytes : got.state.bytes = s.heap.bytes)
    (hsound : Memory.Sound got.state.memory.arenas (s.block.blocks ++ s.others)) :
    let r := s.block.recorded newSize got
    (s.answered r (contentsAfter s.contents newSize r)).Sound := by
  intro r
  have hno : ¬ (got.result = .success ∨ s.block.data ≠ got.buffer) := by
    rintro (hok | hmoved)
    · rcases hres with herr | ⟨hwarn, -⟩
      · exact Result.ne_success_of_isError herr hok
      · rw [hwarn] at hok
        cases hok
    · exact hmoved hbuf.symm
  have hcontents : contentsAfter s.contents newSize r = s.contents := by
    refine if_pos (hres.imp_right fun ⟨hwarn, hle⟩ => ⟨?_, hs.size ▸ hle⟩)
    show got.result ≠ .success
    rw [hwarn]
    decide
  rw [hcontents]
  refine hs.kept r ?_ hsound hbytes
  show MemoryBlock.mk got.buffer _ = s.block
  rw [if_neg hno, hbuf]

/-- A resize that grants the new size. -/
theorem realloc_granted {got : Answer Heap} {newSize : Nat} (herr : got.result.isError = false)
    (hmoved : got.result = .success ∨ got.buffer ≠ s.block.data)
    (hgrown : got.result ≠ .success → s.block.size < newSize)
    (hkeep : ∀ k < min s.block.size newSize,
      got.state.bytes (got.buffer + k) = s.heap.bytes (s.block.data + k))
    (hsound : Memory.Sound got.state.memory.arenas (⟨got.buffer, newSize⟩ :: s.others)) :
    let r := s.block.recorded newSize got
    (s.answered r (contentsAfter s.contents newSize r)).Sound := by
  intro r
  have hblock : r.block = ⟨got.buffer, newSize⟩ := by
    show MemoryBlock.mk got.buffer _ = _
    rw [if_pos (hmoved.imp_right Ne.symm)]
  refine granted (r := r) (hblock ▸ hsound) ?_
  have hcond : ¬ (r.result.isError = true ∨
      (r.result ≠ .success ∧ newSize ≤ s.contents.length)) := by
    rintro (hbad | ⟨hno, hle⟩)
    · exact Bool.false_ne_true (herr.symm.trans hbad)
    · have hlt := hgrown hno
      have hsize := hs.size
      omega
  rw [contentsAfter, if_neg hcond, hblock, hs.size]
  rw [← hs.bytes]
  exact Bytes.read_kept hkeep

omit hs in
/-- A resize to nothing that gave the block back leaves an empty descriptor. -/
theorem released {got : Answer Heap} (hok : got.result = .success) (hbuf : got.buffer = 0)
    (hsound : Memory.Sound got.state.memory.arenas s.others) :
    let r := s.block.recorded 0 got
    (s.answered r (contentsAfter s.contents 0 r)).Sound := by
  intro r
  have hblock : r.block = .empty := by
    show MemoryBlock.mk _ _ = _
    rw [if_pos (Or.inl hok), hbuf]
    rfl
  have hcontents : contentsAfter s.contents 0 r = [] := by
    have hres : r.result = .success := hok
    rw [contentsAfter, hres, if_neg (by simp [Result.isError])]
    simp
  rw [hcontents]
  refine ⟨?_, fun _ => hblock, ?_, ?_⟩
  · show Memory.Sound got.state.memory.arenas (r.block.blocks ++ s.others)
    rw [hblock]
    exact hsound
  · show _ = r.block.size
    rw [hblock]
    rfl
  · show r.heap.bytes.read r.block.data r.block.size = []
    rw [hblock]
    rfl

/-- A resize that is no growth of a buried block within its bytes keeps the invariant. -/
theorem realloc {host : Host} {newSize : Nat} (fresh : Fresh host s.heap.memory.arenas)
    (hgrow : s.Recordable newSize) : (s.realloc host newSize).Sound := by
  have hsound := hs.sound
  by_cases hne : s.block.data = 0
  · -- nothing yet: a block is handed out as with a first allocation
    have hempty := hs.empty hne
    have hothers := hs.others_of_empty hempty
    have hnull : Memory.realloc host s.block.data s.block.size newSize s.heap =
        Memory.realloc host 0 0 newSize s.heap := by rw [hempty]; rfl
    unfold BlockState.realloc memoryBlockRealloc
    rw [hnull]
    by_cases hnew : newSize = 0
    · subst hnew
      rw [realloc_empty]
      exact hs.realloc_kept hne.symm (Or.inr ⟨rfl, Nat.zero_le _⟩) rfl hsound
    · rcases realloc_null hothers fresh hnew with ⟨herr, hbuf, hbytes, hst⟩ | ⟨hwarn, hbytes, hst⟩
      · refine hs.realloc_kept (hbuf.trans hne.symm) (Or.inl herr) hbytes ?_
        rw [hempty]
        exact hst
      · refine hs.realloc_granted (by rw [hwarn]; rfl) (Or.inr ?_) (fun _ => ?_)
          (fun k hk => ?_) hst
        · rw [hne]
          exact hst.addr_ne List.mem_cons_self
        · rw [hempty]
          exact Nat.pos_of_ne_zero hnew
        · rw [hempty] at hk
          exact absurd (Nat.lt_of_lt_of_le hk (Nat.min_le_left _ _)) (Nat.not_lt_zero _)
  · rw [MemoryBlock.blocks_of_ne hne] at hsound
    have hmem : (⟨s.block.data, s.block.size⟩ : Block) ∈
      ⟨s.block.data, s.block.size⟩ :: s.others := List.mem_cons_self
    unfold BlockState.realloc memoryBlockRealloc
    by_cases hnew : newSize = 0
    · subst hnew
      obtain ⟨hbytes, ⟨hok, hbuf, hst⟩ | ⟨hwarn, hbuf, hst⟩⟩ := realloc_zero host hsound
      · -- given back: an empty descriptor again
        exact released hok hbuf hst
      · refine hs.realloc_kept hbuf (Or.inr ⟨hwarn, Nat.zero_le _⟩) hbytes ?_
        rw [hst]
        exact hs.sound
    · have hkeep := ((realloc_copiesApart hsound fresh hmem hnew).keeps
        (hsound.size_ne _ hmem)).1
      rcases realloc_recorded hsound fresh hnew with
        ⟨herr, hbuf, hbytes, hst⟩ | ⟨hr, hsize⟩ | ⟨herr, hmoved, hgrown, hst⟩
      · refine hs.realloc_kept hbuf (Or.inl herr) hbytes ?_
        rw [MemoryBlock.blocks_of_ne hne]
        exact hst
      · rw [hr]
        exact hs.realloc_kept rfl (Or.inr ⟨rfl, hsize.resolve_right hgrow⟩) rfl hs.sound
      · exact hs.realloc_granted herr hmoved hgrown hkeep hst

end BlockState.Sound

/-- Every state of a run without a growth of a buried block within its bytes. -/
theorem BlockRun.sound {s : BlockState} (run : BlockRun BlockState.Recordable s) : s.Sound := by
  induction run with
  | start s reached => exact ⟨reached.sound, fun _ => rfl, rfl, rfl⟩
  | alloc host s size _ fresh empty ih => exact ih.alloc size fresh empty
  | clone host s src _ fresh empty ih => exact ih.clone src fresh empty
  | realloc host s newSize _ fresh allowed ih => exact ih.realloc fresh allowed
  | free s _ ih => exact ih.free
  | write s offset values _ inside ih => exact ih.write inside
  | elsewhere s heap others _ step ih => exact ih.elsewhere step

/-- Without a block a growth that would round to no bytes at all is refused. -/
theorem realloc_overflow {buffer oldSize newSize : Nat} (hnew : newSize ≠ 0)
    (hz : align8U32 newSize = 0) :
    (realloc host buffer oldSize newSize h).result = .errorArithmeticOverflow := by
  unfold realloc
  rw [if_pos (Or.inl ⟨hnew, hz⟩)]

namespace BlockState.Sound

variable {s : BlockState} (hs : s.Sound) {newSize : Nat}
include hs

/-- A growth of a buried block within its bytes is not recorded. -/
theorem size_of_growsBuried (hgrow : ¬ s.Recordable newSize)
    (hok : (memoryBlockRealloc host s.block newSize s.heap).result.isError = false) :
    (memoryBlockRealloc host s.block newSize s.heap).block.size = s.block.size := by
  have hburied := not_not.mp hgrow
  by_cases hne : s.block.data = 0
  · -- an empty descriptor has no bytes to grow within
    obtain ⟨hlt, hsame, -⟩ := hburied
    have hz : align8U32 newSize = 0 := by
      rw [hsame, hs.empty hne]
      rfl
    have hres : (Memory.realloc host s.block.data s.block.size newSize s.heap).result =
        Result.errorArithmeticOverflow := realloc_overflow (by omega) hz
    have hbad : Result.isError .errorArithmeticOverflow = false := by
      rw [← hres]
      exact hok
    cases hbad
  · have hsound := hs.sound
    rw [MemoryBlock.blocks_of_ne hne] at hsound
    have hr := realloc_of_growsBuried host hsound List.mem_cons_self hburied
    unfold memoryBlockRealloc
    rw [hr]
    exact if_neg (by simp)

/-- Any other growth that is carried out is recorded. -/
theorem size_of_recordable (fresh : Fresh host s.heap.memory.arenas)
    (hrec : s.Recordable newSize) (hlt : s.block.size < newSize)
    (hok : (memoryBlockRealloc host s.block newSize s.heap).result.isError = false) :
    (memoryBlockRealloc host s.block newSize s.heap).block.size = newSize := by
  have hsize := (hs.realloc fresh hrec).size
  have hlen := hs.size
  have hcontents : (contentsAfter s.contents newSize
      (memoryBlockRealloc host s.block newSize s.heap)).length = newSize := by
    rw [contentsAfter, if_neg (by rw [hok]; simp; omega), List.length_append, List.length_take,
      Bytes.length_read]
    omega
  calc (memoryBlockRealloc host s.block newSize s.heap).block.size
      = (s.realloc host newSize).contents.length := hsize.symm
    _ = newSize := hcontents

/-- No resize loses a byte that both sizes reach. -/
theorem read_realloc (fresh : Fresh host s.heap.memory.arenas) :
    (memoryBlockRealloc host s.block newSize s.heap).heap.bytes.read
      (memoryBlockRealloc host s.block newSize s.heap).block.data
      (min s.contents.length newSize) = s.contents.take newSize := by
  by_cases hnone : s.block.data = 0 ∨ newSize = 0
  · -- no bytes to keep
    have hzero : min s.contents.length newSize = 0 := by
      rcases hnone with hz | rfl
      · rw [hs.contents_of_empty (hs.empty hz)]
        exact Nat.min_eq_left (Nat.zero_le _)
      · exact Nat.min_eq_right (Nat.zero_le _)
    have hlen : (s.contents.take newSize).length = 0 := by
      rw [List.length_take]
      omega
    rw [hzero, List.length_eq_zero_iff.mp hlen]
    rfl
  · rw [not_or] at hnone
    have hsound := hs.sound
    rw [MemoryBlock.blocks_of_ne hnone.1] at hsound
    have hkeep := ((realloc_copiesApart hsound fresh List.mem_cons_self hnone.2).keeps
      (hsound.size_ne _ List.mem_cons_self)).1
    exact Bytes.read_of_kept hs.intact.2 fun k hk => hkeep k (hs.size ▸ hk)

end BlockState.Sound

/-- In a run without a growth of a buried block within its bytes the descriptor covers what was
granted and the client's bytes are there. From there on a growth that is carried out is recorded
exactly when it is not of that kind, and no resize loses a byte that both sizes reach. -/
theorem memoryBlock_covers {s : BlockState} (run : BlockRun BlockState.Recordable s) :
    s.Intact ∧
    ∀ host newSize, Fresh host s.heap.memory.arenas →
      let r := memoryBlockRealloc host s.block newSize s.heap
      (r.result.isError = false → s.block.size < newSize →
        (newSize ≤ r.block.size ↔ s.Recordable newSize)) ∧
      r.heap.bytes.read r.block.data (min s.contents.length newSize) = s.contents.take newSize := by
  have hs := run.sound
  refine ⟨hs.intact, fun host newSize fresh => ⟨fun hok hlt => ?_, hs.read_realloc fresh⟩⟩
  constructor
  · intro hle
    by_contra hgrow
    have hsize := hs.size_of_growsBuried hgrow hok
    omega
  · intro hrec
    exact Nat.le_of_eq (hs.size_of_recordable fresh hrec hlt hok).symm

/-! ## A block that loses bytes -/

/-- A host that answers no request. -/
def silentHost : Host := ⟨fun _ => 0, none⟩

theorem silentHost_fresh (arenas : List Arena) : Fresh silentHost arenas :=
  fun _ _ hn => absurd rfl hn

/-- A block of nine bytes in a lent arena, buried under a block of the others. -/
def buriedBlock : BlockState :=
  let s := BlockState.alloc silentHost 9 ⟨lentArena 64, .empty, [], []⟩
  let r := s.heap.call silentHost (.alloc 8)
  { s with heap := r.state, others := ledger s.others r (.alloc 8) }

theorem blockRun_buriedBlock (Allowed : BlockState → Nat → Prop) :
    BlockRun Allowed buriedBlock :=
  .elsewhere _ _ _
    (.alloc silentHost _ 9 (.start ⟨lentArena 64, []⟩ (.borrowed 8 64 _ _ (by norm_num) rfl))
      (silentHost_fresh _) rfl)
    (.call silentHost (.alloc 8) (silentHost_fresh _) trivial (by decide))

/-- The bytes the client writes. -/
def samples : List UInt8 := [1, 2, 3, 4, 5, 6, 7, 8, 9, 10, 11, 12]

/-- The block was granted twelve bytes and the client wrote them. -/
def grownBlock : BlockState := (buriedBlock.realloc silentHost 12).write 0 samples

/-- The buried growth from nine to twelve bytes succeeds with the size still nine, and the growth
to twenty-four that follows it loses the last three bytes the client wrote. -/
theorem memoryBlock_covers_not_buried :
    ¬ (∀ s, BlockRun (fun _ _ => True) s → s.Intact) ∧
    (memoryBlockRealloc silentHost buriedBlock.block 12 buriedBlock.heap).result =
      .warningArenaMemoryNotReclaimed ∧
    (memoryBlockRealloc silentHost buriedBlock.block 12 buriedBlock.heap).block.size = 9 ∧
    BlockRun (fun _ _ => True) (grownBlock.realloc silentHost 24) ∧
    grownBlock.contents = samples ∧
    (memoryBlockRealloc silentHost grownBlock.block 24 grownBlock.heap).result =
      .warningArenaMemoryNotReclaimed ∧
    (grownBlock.realloc silentHost 24).heap.bytes.read
      (grownBlock.realloc silentHost 24).block.data 12 = [1, 2, 3, 4, 5, 6, 7, 8, 9, 0, 0, 0] := by
  have hgrown : BlockRun (fun _ _ => True) (buriedBlock.realloc silentHost 12) :=
    .realloc silentHost _ 12 (blockRun_buriedBlock _) (silentHost_fresh _) trivial
  have hlost : BlockRun (fun _ _ => True) (grownBlock.realloc silentHost 24) :=
    .realloc silentHost _ 24 (.write _ 0 samples hgrown (by decide)) (silentHost_fresh _) trivial
  refine ⟨fun hall => absurd (hall _ hgrown) (by decide), by decide, by decide, hlost, by decide,
    by decide, by decide⟩

/-- The same buried block grown to twenty-four bytes at once. -/
theorem memoryBlock_covers_sample :
    buriedBlock.Intact ∧ 24 ≤
      (memoryBlockRealloc silentHost buriedBlock.block 24 buriedBlock.heap).block.size := by
  obtain ⟨hintact, hgrow⟩ := memoryBlock_covers (blockRun_buriedBlock BlockState.Recordable)
  have hrec : buriedBlock.Recordable 24 := by
    unfold BlockState.Recordable
    decide
  exact ⟨hintact, ((hgrow silentHost 24 (silentHost_fresh _)).1 (by decide) (by decide)).mpr hrec⟩

end Arnm.Memory
