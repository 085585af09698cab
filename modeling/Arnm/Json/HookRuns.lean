import Arnm.Json.BlockHooks

set_option autoImplicit false

/-! # Runs of the hooks

A JSON library takes, resizes, fills and disposes of blocks through the hooks while others use the
same arena or chain. The recorded sizes cover what was granted and the payloads are where the
library wrote them, as long as no buried block grows within the bytes its arena reserves for it. -/

namespace Arnm.Json

open Memory

/-- A block lent through the headered hooks: with its header as the header records it, and the
bytes the library has in the payload by what it was granted. -/
structure Lent where
  block : Block
  payload : List UInt8
  deriving DecidableEq, Repr

/-- What the hooks answer for the block. -/
def Lent.pointer (l : Lent) : Nat := l.block.addr + headerSize

/-- The block behind an answer, with what the library has in it. -/
def lentAt (bytes : Bytes) (pointer : Nat) (payload : List UInt8) : Lent :=
  ⟨⟨pointer - headerSize, totalSize bytes (pointer - headerSize)⟩, payload⟩

/-- The payload after a resize: the bytes both sizes reach, and what is found behind them. -/
def resized (bytes : Bytes) (payload : List UInt8) (pointer size : Nat) : List UInt8 :=
  payload.take size ++ bytes.read (pointer + payload.length) (size - payload.length)

/-- A run of bytes with some of them overwritten. -/
def overwritten (contents : List UInt8) (offset : Nat) (values : List UInt8) : List UInt8 :=
  contents.take offset ++ values ++ contents.drop (offset + values.length)

/-- The heap with its context, the lent blocks, the one buffer with the size `json_buffer_context`
keeps for it, and what the others hold. -/
structure HookState where
  heap : Heap
  context : AlcContext
  lent : List Lent
  buffer : MemoryBlock
  contents : List UInt8
  others : List Block

namespace HookState

def blockAlloc (host : Host) (size : Nat) (s : HookState) : HookState :=
  let r := jsonBlockAlloc host size s.context s.heap
  { s with
    heap := r.heap, context := r.context
    lent := if r.pointer = 0 then s.lent
      else lentAt r.heap.bytes r.pointer (r.heap.bytes.read r.pointer size) :: s.lent }

def blockRealloc (host : Host) (l : Lent) (size : Nat) (s : HookState) : HookState :=
  let r := jsonBlockRealloc host l.pointer size s.context s.heap
  { s with
    heap := r.heap, context := r.context
    lent := if r.pointer = 0 then s.lent
      else lentAt r.heap.bytes r.pointer (resized r.heap.bytes l.payload r.pointer size) ::
        s.lent.erase l }

def blockDispose (l : Lent) (s : HookState) : HookState :=
  let r := jsonBlockDispose l.pointer s.context s.heap
  { s with heap := r.2, context := r.1, lent := s.lent.erase l }

def blockWrite (l : Lent) (offset : Nat) (values : List UInt8) (s : HookState) : HookState :=
  { s with
    heap := { s.heap with bytes := s.heap.bytes.put (l.pointer + offset) values }
    lent := ⟨l.block, overwritten l.payload offset values⟩ :: s.lent.erase l }

def bufferAlloc (host : Host) (size : Nat) (s : HookState) : HookState :=
  let r := jsonBufferAlloc host size s.buffer.size s.heap
  if r.pointer = 0 then { s with heap := r.heap, buffer := ⟨s.buffer.data, r.context⟩ }
  else
    { s with
      heap := r.heap, buffer := ⟨r.pointer, r.context⟩
      contents := r.heap.bytes.read r.pointer size }

def bufferRealloc (host : Host) (size : Nat) (s : HookState) : HookState :=
  let r := jsonBufferRealloc host s.buffer.data size s.buffer.size s.heap
  if r.pointer = 0 then { s with heap := r.heap, buffer := ⟨s.buffer.data, r.context⟩ }
  else
    { s with
      heap := r.heap, buffer := ⟨r.pointer, r.context⟩
      contents := resized r.heap.bytes s.contents r.pointer size }

def bufferDispose (s : HookState) : HookState :=
  let r := jsonBufferDispose s.buffer.data s.buffer.size s.heap
  { s with heap := r.2, buffer := ⟨0, r.1⟩, contents := [] }

def bufferWrite (offset : Nat) (values : List UInt8) (s : HookState) : HookState :=
  { s with
    heap := { s.heap with bytes := s.heap.bytes.put (s.buffer.data + offset) values }
    contents := overwritten s.contents offset values }

end HookState

/-- The states of the hooks whose resizes are all allowed: over an allocator that others use, which
go on in between. There is one buffer at a time. -/
inductive HookRun (Allowed : Heap → Block → Nat → Prop) : HookState → Prop where
  | start (s : State) (reached : Reachable s) :
      HookRun Allowed ⟨s.heap, .init, [], .empty, [], s.held⟩
  | blockAlloc (host : Host) (s : HookState) (size : Nat) (run : HookRun Allowed s)
      (fresh : Fresh host s.heap.memory.arenas) : HookRun Allowed (s.blockAlloc host size)
  | blockRealloc (host : Host) (s : HookState) (l : Lent) (size : Nat) (run : HookRun Allowed s)
      (fresh : Fresh host s.heap.memory.arenas) (hl : l ∈ s.lent)
      (allowed : Allowed s.heap l.block (size + headerSize)) :
      HookRun Allowed (s.blockRealloc host l size)
  | blockDispose (s : HookState) (l : Lent) (run : HookRun Allowed s) (hl : l ∈ s.lent) :
      HookRun Allowed (s.blockDispose l)
  | blockWrite (s : HookState) (l : Lent) (offset : Nat) (values : List UInt8)
      (run : HookRun Allowed s) (hl : l ∈ s.lent)
      (inside : offset + values.length ≤ l.payload.length) :
      HookRun Allowed (s.blockWrite l offset values)
  | bufferAlloc (host : Host) (s : HookState) (size : Nat) (run : HookRun Allowed s)
      (fresh : Fresh host s.heap.memory.arenas) (none : s.buffer.data = 0) :
      HookRun Allowed (s.bufferAlloc host size)
  | bufferRealloc (host : Host) (s : HookState) (size : Nat) (run : HookRun Allowed s)
      (fresh : Fresh host s.heap.memory.arenas)
      (allowed : Allowed s.heap ⟨s.buffer.data, s.buffer.size⟩ size) :
      HookRun Allowed (s.bufferRealloc host size)
  | bufferDispose (s : HookState) (run : HookRun Allowed s) : HookRun Allowed s.bufferDispose
  | bufferWrite (s : HookState) (offset : Nat) (values : List UInt8) (run : HookRun Allowed s)
      (inside : offset + values.length ≤ s.contents.length) :
      HookRun Allowed (s.bufferWrite offset values)
  | elsewhere (s : HookState) (heap : Heap) (others : List Block) (run : HookRun Allowed s)
      (step : Elsewhere s.heap s.others heap others) :
      HookRun Allowed { s with heap := heap, others := others }

/-- The resize is no growth of a buried block within its bytes. -/
def Recordable (h : Heap) (b : Block) (newSize : Nat) : Prop :=
  ¬ GrowsBuried h.memory b.addr b.size newSize

/-! ## What every step keeps -/

/-- The recorded size covers header and payload, and the payload is there. -/
structure Lent.Intact (bytes : Bytes) (l : Lent) : Prop where
  headered : Headered bytes l.block
  covers : l.payload.length + headerSize ≤ l.block.size
  bytes : bytes.read l.pointer l.payload.length = l.payload

/-- The size kept for the buffer covers what was granted, and its bytes are there. -/
structure Buffered (bytes : Bytes) (buffer : MemoryBlock) (contents : List UInt8) : Prop where
  covers : contents.length ≤ buffer.size
  bytes : bytes.read buffer.data contents.length = contents
  empty : buffer.data = 0 → contents = []

/-- All blocks taken from the allocator. -/
def HookState.blocks (s : HookState) : List Block :=
  s.lent.map Lent.block ++ (s.buffer.blocks ++ s.others)

structure HookState.Sound (s : HookState) : Prop where
  sound : Memory.Sound s.heap.memory.arenas s.blocks
  lent : ∀ l ∈ s.lent, l.Intact s.heap.bytes
  buffer : Buffered s.heap.bytes s.buffer s.contents

theorem Lent.Intact.congr {bytes bytes' : Bytes} {l : Lent} (hl : l.Intact bytes)
    (hsize : align8U32 l.block.size ≠ 0) (h : Bytes.AgreeOn bytes bytes' l.block.room) :
    l.Intact bytes' := by
  refine ⟨hl.headered.congr hsize h, hl.covers, ?_⟩
  have hcovers := hl.covers
  have hroom := le_align8U32 hsize
  have hkept := Bytes.read_congr (h.within (r := ⟨l.pointer, l.payload.length⟩)
    ⟨Nat.le_add_right _ _, by
      show l.block.addr + headerSize + l.payload.length ≤ l.block.addr + align8U32 l.block.size
      omega⟩)
  exact hkept.trans hl.bytes

theorem Buffered.congr {bytes bytes' : Bytes} {buffer : MemoryBlock} {contents : List UInt8}
    (hb : Buffered bytes buffer contents)
    (h : ∀ b ∈ buffer.blocks, align8U32 b.size ≠ 0 ∧ Bytes.AgreeOn bytes bytes' b.room) :
    Buffered bytes' buffer contents := by
  refine ⟨hb.covers, ?_, hb.empty⟩
  by_cases hne : buffer.data = 0
  · rw [hb.empty hne]
    rfl
  · have hmem : (⟨buffer.data, buffer.size⟩ : Block) ∈ buffer.blocks := by
      rw [MemoryBlock.blocks_of_ne hne]
      exact List.mem_singleton_self _
    obtain ⟨hsize, hag⟩ := h _ hmem
    have hroom : buffer.size ≤ align8U32 buffer.size := le_align8U32 hsize
    have hcovers := hb.covers
    have hkept := Bytes.read_congr (hag.within (r := ⟨buffer.data, contents.length⟩)
      ⟨Nat.le_refl _, by
        show buffer.data + contents.length ≤ buffer.data + align8U32 buffer.size
        omega⟩)
    exact hkept.trans hb.bytes

namespace HookState.Sound

variable {s : HookState} (hs : s.Sound)
include hs

/-- The lent blocks apart from one, with those of the buffer and the others. -/
theorem head {l : Lent} (hl : l ∈ s.lent) :
    Memory.Sound s.heap.memory.arenas
      (l.block :: ((s.lent.erase l).map Lent.block ++ (s.buffer.blocks ++ s.others))) := by
  have hperm :=
    ((List.perm_cons_erase hl).map Lent.block).append_right (s.buffer.blocks ++ s.others)
  exact hs.sound.perm hperm

theorem size_ne {l : Lent} (hl : l ∈ s.lent) : align8U32 l.block.size ≠ 0 :=
  hs.sound.size_ne _ (List.mem_append_left _ (List.mem_map_of_mem hl))

/-- Blocks whose rooms were left alone are as they were. -/
theorem others_kept {bytes' : Bytes} {lent : List Lent} (hsub : ∀ l ∈ lent, l ∈ s.lent)
    (hag : ∀ l ∈ lent, Bytes.AgreeOn s.heap.bytes bytes' l.block.room) :
    ∀ l ∈ lent, l.Intact bytes' :=
  fun l hl => (hs.lent l (hsub l hl)).congr (hs.size_ne (hsub l hl)) (hag l hl)

theorem buffer_kept {bytes' : Bytes}
    (hag : ∀ b ∈ s.buffer.blocks, Bytes.AgreeOn s.heap.bytes bytes' b.room) :
    Buffered bytes' s.buffer s.contents :=
  hs.buffer.congr fun b hb => ⟨hs.sound.size_ne b
    (List.mem_append_right _ (List.mem_append_left _ hb)), hag b hb⟩

theorem blockAlloc {host : Host} (size : Nat) (fresh : Fresh host s.heap.memory.arenas) :
    (s.blockAlloc host size).Sound := by
  have hspec := jsonBlockAlloc_spec size s.context hs.sound fresh
  unfold HookState.blockAlloc
  generalize jsonBlockAlloc host size s.context s.heap = r at hspec
  dsimp only
  rcases hspec with ⟨hp, -, hbytes, hst⟩ | ⟨-, addr, hp, -, hheader, hst, haround⟩
  · rw [if_pos hp]
    exact ⟨hst, hbytes ▸ hs.lent, hbytes ▸ hs.buffer⟩
  · have hlent : lentAt r.heap.bytes r.pointer (r.heap.bytes.read r.pointer size) =
        ⟨⟨addr, size + headerSize⟩, r.heap.bytes.read (addr + headerSize) size⟩ := by
      rw [hp, lentAt, Nat.add_sub_cancel, hheader.recorded]
    have hne : ¬ r.pointer = 0 := by
      rw [hp]
      exact Nat.succ_ne_zero _
    rw [if_neg hne, hlent]
    refine ⟨hst, fun l hl => ?_, hs.buffer_kept fun b hb => ?_⟩
    · rcases List.mem_cons.mp hl with rfl | hl
      · exact ⟨hheader, by simp only [Bytes.length_read]; exact Nat.le_refl _,
          by simp only [Bytes.length_read]; rfl⟩
      · exact hs.others_kept (fun l hl => hl) (fun l hl =>
          haround _ (List.mem_append_left _ (List.mem_map_of_mem hl))) l hl
    · exact haround _ (List.mem_append_right _ (List.mem_append_left _ hb))

theorem blockRealloc {host : Host} {l : Lent} {size : Nat} (hl : l ∈ s.lent)
    (fresh : Fresh host s.heap.memory.arenas)
    (hgrow : Recordable s.heap l.block (size + headerSize)) :
    (s.blockRealloc host l size).Sound := by
  have hintact := hs.lent l hl
  have hspec := jsonBlockRealloc_spec size s.context hintact.headered (hs.head hl)
    fresh hgrow
  unfold HookState.blockRealloc Lent.pointer
  generalize jsonBlockRealloc host (l.block.addr + headerSize) size s.context s.heap = r at hspec
  dsimp only
  rcases hspec with ⟨hp, hbytes, hst⟩ | ⟨-, b', hp, hheader, hres⟩
  · -- refused: the block is lent on as it was
    rw [if_pos hp]
    have hperm := ((List.perm_cons_erase hl).map Lent.block).append_right
      (s.buffer.blocks ++ s.others)
    exact ⟨hst.perm hperm.symm, hbytes ▸ hs.lent, hbytes ▸ hs.buffer⟩
  · have hcovers := hintact.covers
    -- the new block holds what is read back behind its header
    have hlent : lentAt r.heap.bytes r.pointer (resized r.heap.bytes l.payload r.pointer size) =
        ⟨b', r.heap.bytes.read (b'.addr + headerSize) size⟩ := by
      rw [hp, lentAt, Nat.add_sub_cancel, hheader.recorded, resized, ← hintact.bytes,
        Bytes.length_read]
      congr 1
      refine (Bytes.read_kept fun k hk => ?_).symm
      have hkeep := hres.keeps (headerSize + k) (by omega) (Nat.le_add_right _ _)
      rw [Lent.pointer, Nat.add_assoc, Nat.add_assoc]
      exact hkeep
    have hne : ¬ r.pointer = 0 := by
      rw [hp]
      exact Nat.succ_ne_zero _
    rw [if_neg hne, hlent]
    refine ⟨hres.sound, fun l' hl' => ?_, hs.buffer_kept fun b hb => ?_⟩
    · rcases List.mem_cons.mp hl' with rfl | hl'
      · exact ⟨hheader, by simp only [Bytes.length_read]; exact hres.le,
          by simp only [Bytes.length_read]; rfl⟩
      · exact hs.others_kept (fun l hl => List.mem_of_mem_erase hl) (fun l hl =>
          hres.around _ (List.mem_append_left _ (List.mem_map_of_mem hl))) l' hl'
    · exact hres.around _ (List.mem_append_right _ (List.mem_append_left _ hb))

theorem blockDispose {l : Lent} (hl : l ∈ s.lent) : (s.blockDispose l).Sound := by
  have hintact := hs.lent l hl
  have hhead := hs.head hl
  obtain ⟨hbytes, hanswer⟩ := jsonBlockDispose_spec s.context hintact.headered hhead
  have hrest : Memory.Sound (s.blockDispose l).heap.memory.arenas
      ((s.lent.erase l).map Lent.block ++ (s.buffer.blocks ++ s.others)) := by
    rcases hanswer with ⟨-, -, -, hst⟩ | ⟨-, -, hsame⟩
    · exact hst
    · have hkept := hhead.sublist (List.sublist_cons_self _ _)
      rw [← hsame] at hkept
      exact hkept
  have hkeep : (s.blockDispose l).heap.bytes = s.heap.bytes := hbytes
  refine ⟨hrest, fun l' hl' => ?_, ?_⟩
  · rw [hkeep]
    exact hs.lent l' (List.mem_of_mem_erase hl')
  · rw [hkeep]
    exact hs.buffer

/-- A write into a payload. -/
theorem blockWrite {l : Lent} {offset : Nat} {values : List UInt8} (hl : l ∈ s.lent)
    (inside : offset + values.length ≤ l.payload.length) :
    (s.blockWrite l offset values).Sound := by
  have hintact := hs.lent l hl
  have hhead := hs.head hl
  have hcovers := hintact.covers
  have hroom := le_align8U32 (hs.size_ne hl)
  have hplace : Region.Within ⟨l.pointer + offset, values.length⟩ l.block.room := by
    constructor
    · show l.block.addr ≤ l.block.addr + headerSize + offset
      omega
    · show l.block.addr + headerSize + offset + values.length ≤
        l.block.addr + align8U32 l.block.size
      omega
  have haround : ∀ b ∈ (s.lent.erase l).map Lent.block ++ (s.buffer.blocks ++ s.others),
      Bytes.AgreeOn s.heap.bytes (s.heap.bytes.put (l.pointer + offset) values) b.room := by
    intro b hb
    have hapart := (List.pairwise_cons.mp hhead.heldApart).1 b hb
    exact Bytes.put_agreeOn (hapart.within hplace (Region.Within.refl _))
  refine ⟨?_, fun l' hl' => ?_, hs.buffer_kept fun b hb => ?_⟩
  · exact hhead
  · rcases List.mem_cons.mp hl' with rfl | hl'
    · refine ⟨⟨?_, hintact.headered.le⟩, ?_, ?_⟩
      · -- the header lies in front of what was written
        refine Eq.trans (Bytes.load_congr (Bytes.put_agreeOn (Or.inr ?_)))
          hintact.headered.recorded
        show l.block.addr + 4 ≤ l.block.addr + headerSize + offset
        unfold headerSize
        omega
      · show (overwritten l.payload offset values).length + headerSize ≤ l.block.size
        simp only [overwritten, List.length_append, List.length_take, List.length_drop]
        omega
      · have hlen : (overwritten l.payload offset values).length = l.payload.length := by
          simp only [overwritten, List.length_append, List.length_take, List.length_drop]
          omega
        show (s.heap.bytes.put (l.pointer + offset) values).read l.pointer
          (overwritten l.payload offset values).length = overwritten l.payload offset values
        rw [hlen, Bytes.read_put_part inside, hintact.bytes]
        rfl
    · exact hs.others_kept (fun l hl => List.mem_of_mem_erase hl) (fun l hl =>
        haround _ (List.mem_append_left _ (List.mem_map_of_mem hl))) l' hl'
  · exact haround _ (List.mem_append_right _ (List.mem_append_left _ hb))

/-- The buffer goes by another descriptor over a heap that left the lent blocks alone. -/
theorem rebuffered {heap : Heap} {buffer : MemoryBlock} {contents : List UInt8}
    (hsound : Memory.Sound heap.memory.arenas
      (s.lent.map Lent.block ++ (buffer.blocks ++ s.others)))
    (hag : ∀ b ∈ s.lent.map Lent.block, Bytes.AgreeOn s.heap.bytes heap.bytes b.room)
    (hbuffer : Buffered heap.bytes buffer contents) :
    HookState.Sound { s with heap := heap, buffer := buffer, contents := contents } where
  sound := hsound
  lent := hs.others_kept (fun _ hl => hl) fun _ hl => hag _ (List.mem_map_of_mem hl)
  buffer := hbuffer

omit hs in
/-- Without a buffer all blocks are lent ones and those of the others. -/
theorem blocks_of_none (hnone : s.buffer.data = 0) :
    s.blocks = s.lent.map Lent.block ++ s.others := by
  rw [HookState.blocks, MemoryBlock.blocks, if_pos hnone, List.nil_append]

/-- The buffer in front of the other blocks. -/
theorem buffer_head (hne : s.buffer.data ≠ 0) :
    Memory.Sound s.heap.memory.arenas
      (⟨s.buffer.data, s.buffer.size⟩ :: (s.lent.map Lent.block ++ s.others)) := by
  have hsound := hs.sound
  rw [HookState.blocks, MemoryBlock.blocks_of_ne hne] at hsound
  exact hsound.perm List.perm_middle

omit hs in
/-- A block in front of the others is the buffer among them. -/
theorem buffer_back {heap : Heap} {b : Block}
    (hst : Memory.Sound heap.memory.arenas (b :: (s.lent.map Lent.block ++ s.others))) :
    Memory.Sound heap.memory.arenas
      (s.lent.map Lent.block ++ ((MemoryBlock.mk b.addr b.size).blocks ++ s.others)) := by
  rw [MemoryBlock.blocks_of_ne (hst.addr_ne List.mem_cons_self)]
  exact hst.perm List.perm_middle.symm

theorem bufferAlloc {host : Host} (size : Nat) (fresh : Fresh host s.heap.memory.arenas)
    (hnone : s.buffer.data = 0) : (s.bufferAlloc host size).Sound := by
  have hsound := hs.sound
  rw [blocks_of_none hnone] at hsound
  have hspec := jsonBufferAlloc_spec size s.buffer.size hsound fresh
  unfold HookState.bufferAlloc
  generalize jsonBufferAlloc host size s.buffer.size s.heap = r at hspec
  dsimp only
  obtain ⟨hbytes, ⟨hp, hcontext, hst⟩ | ⟨hcontext, hst⟩⟩ := hspec
  · rw [if_pos hp, hcontext]
    have hblocks : Memory.Sound r.heap.memory.arenas
        (s.lent.map Lent.block ++ (s.buffer.blocks ++ s.others)) := by
      rw [MemoryBlock.blocks, if_pos hnone]
      exact hst
    exact hs.rebuffered hblocks (fun b _ => hbytes ▸ Bytes.AgreeOn.refl _ _) (hbytes ▸ hs.buffer)
  · rw [if_neg (hst.addr_ne List.mem_cons_self), hcontext]
    refine hs.rebuffered (buffer_back hst) (fun b _ => hbytes ▸ Bytes.AgreeOn.refl _ _) ?_
    refine ⟨?_, ?_, fun hz => absurd hz (hst.addr_ne List.mem_cons_self)⟩
    · rw [Bytes.length_read]
    · rw [Bytes.length_read]

theorem bufferRealloc {host : Host} {size : Nat} (fresh : Fresh host s.heap.memory.arenas)
    (hgrow : Recordable s.heap ⟨s.buffer.data, s.buffer.size⟩ size) :
    (s.bufferRealloc host size).Sound := by
  by_cases hne : s.buffer.data = 0
  · -- nothing to resize: the hook allocates
    have hempty := hs.buffer.empty hne
    have halloc := hs.bufferAlloc size fresh hne
    have hsame : s.bufferRealloc host size = s.bufferAlloc host size := by
      have hhook : jsonBufferRealloc host s.buffer.data size s.buffer.size s.heap =
          jsonBufferAlloc host size s.buffer.size s.heap := if_pos hne
      unfold HookState.bufferRealloc HookState.bufferAlloc
      rw [hhook, hempty]
      simp only [resized, List.take_nil, List.nil_append, List.length_nil, Nat.add_zero,
        Nat.sub_zero]
    rw [hsame]
    exact halloc
  · have hspec := jsonBufferRealloc_spec size (hs.buffer_head hne) fresh hgrow
    unfold HookState.bufferRealloc
    simp only at hspec
    generalize jsonBufferRealloc host s.buffer.data size s.buffer.size s.heap = r at hspec
    dsimp only
    rcases hspec with ⟨hp, hcontext, hbytes, hst⟩ | ⟨b', hp, hcontext, hres⟩
    · rw [if_pos hp, hcontext]
      exact hs.rebuffered (buffer_back hst) (fun b _ => hbytes ▸ Bytes.AgreeOn.refl _ _)
        (hbytes ▸ hs.buffer)
    · have haddr := hres.sound.addr_ne List.mem_cons_self
      have hcovers := hs.buffer.covers
      rw [hp, if_neg haddr, hcontext]
      refine hs.rebuffered (buffer_back hres.sound)
        (fun b hb => hres.around b (List.mem_append_left _ hb)) ?_
      have hcontents : resized r.heap.bytes s.contents b'.addr size =
          r.heap.bytes.read b'.addr size := by
        rw [resized, ← hs.buffer.bytes, Bytes.length_read]
        refine (Bytes.read_kept fun k hk => ?_).symm
        exact hres.keeps k (by simp only; omega) (Nat.zero_le _)
      rw [hcontents]
      refine ⟨?_, ?_, fun hz => absurd hz haddr⟩
      · rw [Bytes.length_read]
        exact hres.le
      · rw [Bytes.length_read]

theorem bufferDispose : s.bufferDispose.Sound := by
  unfold HookState.bufferDispose
  by_cases hne : s.buffer.data = 0
  · have hhook : jsonBufferDispose s.buffer.data s.buffer.size s.heap =
        (s.buffer.size, s.heap) := if_pos hne
    rw [hhook]
    refine hs.rebuffered ?_ (fun b _ => Bytes.AgreeOn.refl _ _) ⟨Nat.zero_le _, rfl, fun _ => rfl⟩
    have hsound := hs.sound
    rw [blocks_of_none hne] at hsound
    exact hsound
  · have hspec := jsonBufferDispose_spec (hs.buffer_head hne)
    simp only at hspec
    generalize jsonBufferDispose s.buffer.data s.buffer.size s.heap = r at hspec
    obtain ⟨hz, hbytes, hst⟩ := hspec
    dsimp only
    rw [hz]
    exact hs.rebuffered hst (fun b _ => hbytes ▸ Bytes.AgreeOn.refl _ _)
      ⟨Nat.zero_le _, rfl, fun _ => rfl⟩

theorem bufferWrite {offset : Nat} {values : List UInt8}
    (inside : offset + values.length ≤ s.contents.length) :
    (s.bufferWrite offset values).Sound := by
  have hlen : (overwritten s.contents offset values).length = s.contents.length := by
    simp only [overwritten, List.length_append, List.length_take, List.length_drop]
    omega
  have hbuffer : Buffered (s.heap.bytes.put (s.buffer.data + offset) values) s.buffer
      (overwritten s.contents offset values) := by
    refine ⟨hlen ▸ hs.buffer.covers, ?_, fun hz => ?_⟩
    · rw [hlen, Bytes.read_put_part inside, hs.buffer.bytes]
      rfl
    · exact List.length_eq_zero_iff.mp (by rw [hlen, hs.buffer.empty hz]; rfl)
  by_cases hne : s.buffer.data = 0
  · -- nothing is written where there is no buffer
    have hnil : values = [] := by
      rw [hs.buffer.empty hne] at inside
      exact List.length_eq_zero_iff.mp (by simp only [List.length_nil] at inside; omega)
    subst hnil
    refine hs.rebuffered hs.sound (fun b _ x _ => if_neg fun hin => ?_) hbuffer
    simp only [List.length_nil] at hin
    omega
  · have hhead := hs.buffer_head hne
    have hcovers := hs.buffer.covers
    have hroom : s.buffer.size ≤ align8U32 s.buffer.size :=
      le_align8U32 (hhead.size_ne _ List.mem_cons_self)
    refine hs.rebuffered hs.sound (fun b hb => Bytes.put_agreeOn ?_) hbuffer
    have hapart := (List.pairwise_cons.mp hhead.heldApart).1 b (List.mem_append_left _ hb)
    refine hapart.within ⟨Nat.le_add_right _ _, ?_⟩ (Region.Within.refl _)
    show s.buffer.data + offset + values.length ≤ s.buffer.data + align8U32 s.buffer.size
    omega

theorem elsewhere {heap : Heap} {others : List Block}
    (step : Elsewhere s.heap s.others heap others) :
    HookState.Sound { s with heap := heap, others := others } := by
  have hsound := hs.sound
  rw [HookState.blocks, ← List.append_assoc] at hsound
  obtain ⟨hst, hkeep⟩ := step.sound hsound
  refine ⟨?_, hs.others_kept (fun _ hl => hl) fun l hl => ?_, hs.buffer_kept fun b hb => ?_⟩
  · rw [List.append_assoc] at hst
    exact hst
  · exact hkeep _ (List.mem_append_left _ (List.mem_map_of_mem hl))
  · exact hkeep _ (List.mem_append_right _ hb)

end HookState.Sound

/-- Every state of a run without a growth of a buried block within its bytes. -/
theorem HookRun.sound {s : HookState} (run : HookRun Recordable s) : s.Sound := by
  induction run with
  | start s reached =>
      exact ⟨reached.sound, fun l hl => absurd hl List.not_mem_nil,
        ⟨Nat.le_refl _, rfl, fun _ => rfl⟩⟩
  | blockAlloc host s size _ fresh ih => exact ih.blockAlloc size fresh
  | blockRealloc host s l size _ fresh hl allowed ih => exact ih.blockRealloc hl fresh allowed
  | blockDispose s l _ hl ih => exact ih.blockDispose hl
  | blockWrite s l offset values _ hl inside ih => exact ih.blockWrite hl inside
  | bufferAlloc host s size _ fresh none ih => exact ih.bufferAlloc size fresh none
  | bufferRealloc host s size _ fresh allowed ih => exact ih.bufferRealloc fresh allowed
  | bufferDispose s _ ih => exact ih.bufferDispose
  | bufferWrite s offset values _ inside ih => exact ih.bufferWrite inside
  | elsewhere s heap others _ step ih => exact ih.elsewhere step

/-! ## What a library can rely on -/

/-- A lent block that grows buried within its bytes is answered where it is,
its header unchanged. -/
theorem jsonBlockRealloc_of_growsBuried {host : Host} {h : Heap} {b : Block} {size : Nat}
    {rest : List Block} (c : AlcContext) (hb : Headered h.bytes b)
    (hs : Sound h.memory.arenas (b :: rest)) (hgrow : ¬ Recordable h b (size + headerSize)) :
    let r := jsonBlockRealloc host (b.addr + headerSize) size c h
    r.pointer = 0 ∨ r.pointer = b.addr + headerSize ∧ r.heap = h := by
  intro r
  have hr : r = jsonBlockRealloc host (b.addr + headerSize) size c h := rfl
  have hgot := realloc_of_growsBuried host hs List.mem_cons_self (not_not.mp hgrow)
  unfold jsonBlockRealloc at hr
  rw [if_neg (show ¬ b.addr + headerSize = 0 from Nat.succ_ne_zero _)] at hr
  split at hr
  · rw [hr]
    exact Or.inl rfl
  · simp only [Nat.add_sub_cancel, hb.recorded, hgot] at hr
    rw [if_neg (fun hno => hno.2 rfl), if_neg (by simp)] at hr
    rw [hr]
    exact Or.inr ⟨rfl, rfl⟩

theorem jsonBufferRealloc_of_growsBuried {host : Host} {h : Heap} {b : Block} {size : Nat}
    {rest : List Block} (hs : Sound h.memory.arenas (b :: rest)) (hgrow : ¬ Recordable h b size) :
    let r := jsonBufferRealloc host b.addr size b.size h
    r.pointer = 0 ∨ r = ⟨b.addr, b.size, h⟩ := by
  intro r
  have hr : r = jsonBufferRealloc host b.addr size b.size h := rfl
  have hgot := realloc_of_growsBuried host hs List.mem_cons_self (not_not.mp hgrow)
  unfold jsonBufferRealloc at hr
  rw [if_neg (hs.addr_ne List.mem_cons_self)] at hr
  split at hr
  · rw [hr]
    exact Or.inl rfl
  · simp only [hgot] at hr
    rw [if_neg (fun hno => hno.2 rfl), if_neg (by simp)] at hr
    exact Or.inr hr

namespace HookState.Sound

variable {s : HookState} (hs : s.Sound)
include hs

/-- A resize through the headered hooks that is carried out keeps the bytes both sizes reach, and
records a size that covers the new one exactly when it is no growth of a buried block within its
bytes. -/
theorem blockRealloc_answer {host : Host} {l : Lent} {size : Nat} (hl : l ∈ s.lent)
    (fresh : Fresh host s.heap.memory.arenas)
    (hne : (jsonBlockRealloc host l.pointer size s.context s.heap).pointer ≠ 0) :
    let r := jsonBlockRealloc host l.pointer size s.context s.heap
    (size + headerSize ≤ totalSize r.heap.bytes (r.pointer - headerSize) ↔
      Recordable s.heap l.block (size + headerSize)) ∧
    r.heap.bytes.read r.pointer (min l.payload.length size) = l.payload.take size := by
  intro r
  have hintact := hs.lent l hl
  have hcovers := hintact.covers
  -- a buried block that would grow within its bytes keeps its size on record
  by_cases hgrow : Recordable s.heap l.block (size + headerSize)
  · rcases jsonBlockRealloc_spec size s.context hintact.headered (hs.head hl) fresh
      hgrow with ⟨hp, -, -⟩ | ⟨-, b', hp, hheader, hres⟩
    · exact absurd hp hne
    have hp' : r.pointer = b'.addr + headerSize := hp
    rw [hp', Nat.add_sub_cancel]
    constructor
    · refine iff_of_true ?_ hgrow
      rw [show totalSize r.heap.bytes b'.addr = b'.size from hheader.recorded]
      exact hres.le
    · refine Bytes.read_of_kept hintact.bytes fun k hk => ?_
      have hkeep := hres.keeps (headerSize + k) (by omega) (Nat.le_add_right _ _)
      rw [Lent.pointer, Nat.add_assoc, Nat.add_assoc]
      exact hkeep
  · rcases jsonBlockRealloc_of_growsBuried s.context hintact.headered (hs.head hl)
      hgrow with hp | ⟨hp, hheap⟩
    · exact absurd hp hne
    have hp' : r.pointer = l.pointer := hp
    have hheap' : r.heap = s.heap := hheap
    rw [hp', hheap']
    constructor
    · refine iff_of_false ?_ hgrow
      obtain ⟨hlt, -, -⟩ := not_not.mp hgrow
      rw [Lent.pointer, Nat.add_sub_cancel, hintact.headered.recorded]
      exact Nat.not_le.mpr hlt
    · exact Bytes.read_of_kept hintact.bytes fun k _ => rfl

/-- The same through the buffer hooks. -/
theorem bufferRealloc_answer {host : Host} {size : Nat} (hbuf : s.buffer.data ≠ 0)
    (fresh : Fresh host s.heap.memory.arenas)
    (hne : (jsonBufferRealloc host s.buffer.data size s.buffer.size s.heap).pointer ≠ 0) :
    let r := jsonBufferRealloc host s.buffer.data size s.buffer.size s.heap
    (size ≤ r.context ↔ Recordable s.heap ⟨s.buffer.data, s.buffer.size⟩ size) ∧
    r.heap.bytes.read r.pointer (min s.contents.length size) = s.contents.take size := by
  intro r
  have hhead := hs.buffer_head hbuf
  have hcovers := hs.buffer.covers
  by_cases hgrow : Recordable s.heap ⟨s.buffer.data, s.buffer.size⟩ size
  · rcases jsonBufferRealloc_spec size hhead fresh hgrow with
      ⟨hp, -, -⟩ | ⟨b', hp, hcontext, hres⟩
    · exact absurd hp hne
    have hp' : r.pointer = b'.addr := hp
    have hcontext' : r.context = b'.size := hcontext
    rw [hp', hcontext']
    exact ⟨iff_of_true hres.le hgrow, Bytes.read_of_kept hs.buffer.bytes fun k hk =>
      hres.keeps k (by simp only; omega) (Nat.zero_le _)⟩
  · rcases jsonBufferRealloc_of_growsBuried hhead hgrow with hp | hr
    · exact absurd hp hne
    have hr' : r = ⟨s.buffer.data, s.buffer.size, s.heap⟩ := hr
    rw [hr']
    obtain ⟨hlt, -, -⟩ := not_not.mp hgrow
    exact ⟨iff_of_false (Nat.not_le.mpr hlt) hgrow,
      Bytes.read_of_kept hs.buffer.bytes fun k _ => rfl⟩

end HookState.Sound

/-- In a run of the hooks without a growth of a buried block within its bytes every recorded size
covers what was granted and every payload is there. From there on a resize that is carried out
keeps the bytes both sizes reach, and its recorded size covers the new one exactly when it is not
of that kind. -/
theorem hooks_keep_payloads {s : HookState} (run : HookRun Recordable s) :
    (Memory.Sound s.heap.memory.arenas s.blocks ∧ (∀ l ∈ s.lent, l.Intact s.heap.bytes) ∧
      Buffered s.heap.bytes s.buffer s.contents) ∧
    (∀ host l size, l ∈ s.lent → Fresh host s.heap.memory.arenas →
      let r := jsonBlockRealloc host l.pointer size s.context s.heap
      r.pointer ≠ 0 →
      (size + headerSize ≤ totalSize r.heap.bytes (r.pointer - headerSize) ↔
        Recordable s.heap l.block (size + headerSize)) ∧
      r.heap.bytes.read r.pointer (min l.payload.length size) = l.payload.take size) ∧
    (∀ host size, s.buffer.data ≠ 0 → Fresh host s.heap.memory.arenas →
      let r := jsonBufferRealloc host s.buffer.data size s.buffer.size s.heap
      r.pointer ≠ 0 →
      (size ≤ r.context ↔ Recordable s.heap ⟨s.buffer.data, s.buffer.size⟩ size) ∧
      r.heap.bytes.read r.pointer (min s.contents.length size) = s.contents.take size) := by
  have hs := run.sound
  exact ⟨⟨hs.sound, hs.lent, hs.buffer⟩,
    fun host l size hl fresh hne => hs.blockRealloc_answer hl fresh hne,
    fun host size hbuf fresh hne => hs.bufferRealloc_answer hbuf fresh hne⟩

/-! ## A payload that loses bytes -/

/-- A payload of nine bytes in a lent arena, buried under a block of the others. -/
def buriedHook : HookState :=
  let s := HookState.blockAlloc silentHost 9 ⟨lentArena 128, .init, [], .empty, [], []⟩
  let r := s.heap.call silentHost (.alloc 8)
  { s with heap := r.state, others := ledger s.others r (.alloc 8) }

theorem hookRun_buriedHook (Allowed : Heap → Block → Nat → Prop) : HookRun Allowed buriedHook :=
  .elsewhere _ _ _
    (.blockAlloc silentHost _ 9 (.start ⟨lentArena 128, []⟩ (.borrowed 8 128 _ _ (by norm_num) rfl))
      (silentHost_fresh _))
    (.call silentHost (.alloc 8) (silentHost_fresh _) trivial (by decide))

/-- The lent block as the library knows it at first, after the growth to twelve bytes, and once it
has written them. -/
def nineBytes : Lent := ⟨⟨8, 17⟩, List.replicate 9 0⟩
def twelveBytes : Lent := ⟨⟨8, 17⟩, List.replicate 12 0⟩
def twelveWritten : Lent := ⟨⟨8, 17⟩, samples⟩

def grownHook : HookState := buriedHook.blockRealloc silentHost nineBytes 12
def writtenHook : HookState := grownHook.blockWrite twelveBytes 0 samples

/-- The buried growth from nine to twelve bytes succeeds and leaves seventeen bytes recorded where
twenty were granted, and the growth to forty that follows it loses the last three bytes. -/
theorem hooks_keep_payloads_not_buried :
    (jsonBlockRealloc silentHost 16 12 buriedHook.context buriedHook.heap).pointer = 16 ∧
    totalSize grownHook.heap.bytes 8 = 17 ∧
    HookRun (fun _ _ _ => True) writtenHook ∧ writtenHook.lent = [twelveWritten] ∧
    (jsonBlockRealloc silentHost 16 40 writtenHook.context writtenHook.heap).pointer ≠ 0 ∧
    ¬ (let r := jsonBlockRealloc silentHost 16 40 writtenHook.context writtenHook.heap
      r.heap.bytes.read r.pointer 12 = samples) := by
  have hgrown : HookRun (fun _ _ _ => True) grownHook :=
    .blockRealloc silentHost _ nineBytes 12 (hookRun_buriedHook _) (silentHost_fresh _)
      (by decide) trivial
  have hwritten : HookRun (fun _ _ _ => True) writtenHook :=
    .blockWrite _ twelveBytes 0 samples hgrown (by decide) (by decide)
  exact ⟨by decide, by decide, hwritten, by decide, by decide, by decide⟩

/-- The same buried payload grown to forty bytes at once. -/
theorem hooks_keep_payloads_sample :
    48 ≤ totalSize (jsonBlockRealloc silentHost 16 40 buriedHook.context
      buriedHook.heap).heap.bytes
      ((jsonBlockRealloc silentHost 16 40 buriedHook.context buriedHook.heap).pointer - 8) := by
  obtain ⟨-, hblock, -⟩ := hooks_keep_payloads (hookRun_buriedHook Recordable)
  have hrec : Recordable buriedHook.heap nineBytes.block (40 + headerSize) := by
    unfold Recordable
    decide
  exact (hblock silentHost nineBytes 40 (by decide) (silentHost_fresh _) (by decide)).1.mpr hrec

end Arnm.Json
