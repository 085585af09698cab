import Arnm.Memory.MemoryBlock
import Arnm.Lib.Linked

set_option autoImplicit false

/-! # The allocator hooks of the JSON reader and writer

`json_memory.h` hands a JSON library three functions in place of `malloc`, `realloc` and `free`.
The headered hooks keep the size of a block in the eight bytes ahead of it; the buffer hooks keep
the size of their one block beside the allocator. The lemmas say what each hook can answer and
what it leaves of the blocks around. -/

namespace Arnm.Json

open Memory

/-- `sizeof(json_block_header)` -/
def headerSize : Nat := 8

/-- `JSON_BLOCK_MAX_PAYLOAD` -/
def jsonBlockMaxPayload : Nat := maxAllocSize - headerSize

/-- `json_alc_context`; its allocator is the one of the heap. -/
structure AlcContext where
  arenaKeptBytes : Bool
  spanBroken : Bool
  spanSize : Nat
  deriving DecidableEq, Repr

/-- `json_alc_span_reset` -/
def AlcContext.spanReset (c : AlcContext) : AlcContext :=
  { c with spanSize := 0, spanBroken := false }

/-- `json_alc_context_init` -/
def AlcContext.init : AlcContext := ⟨false, false, 0⟩

/-- What a hook leaves: the pointer it answers, its context and the heap. -/
structure HookAnswer (σ : Type) where
  pointer : Nat
  context : σ
  heap : Heap

/-- The `total_size` of the block header at an address. -/
def totalSize (bytes : Bytes) (block : Nat) : Nat := bytes.load block 4

/-- The run counts a reservation as the arena charges for it; a sum that would not fit gives the
run up. -/
def AlcContext.charge (total : Nat) (c : AlcContext) : AlcContext :=
  if 2 ^ 32 - 1 - c.spanSize < align8 total then { c with spanBroken := true }
  else { c with spanSize := c.spanSize + align8 total }

/-- `json_block_alloc` -/
def jsonBlockAlloc (host : Host) (size : Nat) (c : AlcContext) (h : Heap) : HookAnswer AlcContext :=
  if size = 0 ∨ jsonBlockMaxPayload < size then ⟨0, c, h⟩
  else
    let total := size + headerSize
    let got := alloc host 0 total h.memory
    if got.result ≠ .success then ⟨0, c, { h with memory := got.state }⟩
    else
      ⟨got.buffer + headerSize, c.charge total,
        { memory := got.state
          bytes := (h.bytes.store got.buffer 4 total).store (got.buffer + 4) 4 0 }⟩

/-- `json_block_realloc` -/
def jsonBlockRealloc (host : Host) (pointer size : Nat) (c : AlcContext) (h : Heap) :
    HookAnswer AlcContext :=
  if pointer = 0 then jsonBlockAlloc host size c h
  else if size = 0 ∨ jsonBlockMaxPayload < size then ⟨0, c, h⟩
  else
    let block := pointer - headerSize
    let total := size + headerSize
    let got := realloc host block (totalSize h.bytes block) total h
    let c := { c with spanBroken := true }
    if got.result ≠ .success ∧ got.result ≠ .warningArenaMemoryNotReclaimed then
      ⟨0, c, got.state⟩
    else
      -- the recorded size follows the allocation and not the request
      ⟨got.buffer + headerSize, c,
        if got.result = .success ∨ block ≠ got.buffer then
          { got.state with bytes := got.state.bytes.store got.buffer 4 total }
        else got.state⟩

/-- `json_block_dispose` -/
def jsonBlockDispose (pointer : Nat) (c : AlcContext) (h : Heap) : AlcContext × Heap :=
  if pointer = 0 then (c, h)
  else
    let block := pointer - headerSize
    let reserved := totalSize h.bytes block
    let (result, memory) := free block reserved h.memory
    let h := { h with memory := memory }
    if result = .warningArenaMemoryNotReclaimed then ({ c with arenaKeptBytes := true }, h)
    else ({ c with spanSize := c.spanSize - align8 reserved }, h)

/-- `json_buffer_alloc`; the context is the size of the one block. -/
def jsonBufferAlloc (host : Host) (size : Nat) (c : Nat) (h : Heap) : HookAnswer Nat :=
  if size = 0 ∨ maxAllocSize < size then ⟨0, c, h⟩
  else
    let got := alloc host 0 size h.memory
    if got.result ≠ .success then ⟨0, c, { h with memory := got.state }⟩
    else ⟨got.buffer, size, { h with memory := got.state }⟩

/-- `json_buffer_realloc` -/
def jsonBufferRealloc (host : Host) (pointer size : Nat) (c : Nat) (h : Heap) : HookAnswer Nat :=
  if pointer = 0 then jsonBufferAlloc host size c h
  else if size = 0 ∨ maxAllocSize < size then ⟨0, c, h⟩
  else
    let got := realloc host pointer c size h
    if got.result ≠ .success ∧ got.result ≠ .warningArenaMemoryNotReclaimed then
      ⟨0, c, got.state⟩
    else
      ⟨got.buffer, if got.result = .success ∨ pointer ≠ got.buffer then size else c, got.state⟩

/-- `json_buffer_dispose` -/
def jsonBufferDispose (pointer : Nat) (c : Nat) (h : Heap) : Nat × Heap :=
  if pointer = 0 then (c, h) else (0, { h with memory := (free pointer c h.memory).2 })

/-! ## What the hooks answer -/

variable {host : Host} {h : Heap} {rest : List Block}

/-- A block lent through the headered hooks: its header lies ahead of the payload and records the
size the allocator knows. -/
structure Headered (bytes : Bytes) (b : Block) : Prop where
  recorded : totalSize bytes b.addr = b.size
  le : headerSize ≤ b.size

theorem Headered.congr {bytes bytes' : Bytes} {b : Block} (hb : Headered bytes b)
    (hsize : align8U32 b.size ≠ 0) (h : Bytes.AgreeOn bytes bytes' b.room) : Headered bytes' b := by
  refine ⟨?_, hb.le⟩
  rw [← hb.recorded]
  have hle := le_align8U32 hsize
  have hwidth : 8 ≤ b.size := hb.le
  refine Bytes.load_congr (h.within ⟨Nat.le_refl _, ?_⟩)
  show b.addr + 4 ≤ b.addr + align8U32 b.size
  omega

theorem jsonBlockAlloc_spec (size : Nat) (c : AlcContext) (hs : Sound h.memory.arenas rest)
    (hfresh : Fresh host h.memory.arenas) :
    let r := jsonBlockAlloc host size c h
    (r.pointer = 0 ∧ r.context = c ∧ r.heap.bytes = h.bytes ∧
      Sound r.heap.memory.arenas rest) ∨
    (size ≠ 0 ∧ ∃ addr, r.pointer = addr + headerSize ∧ r.context = c.charge (size + headerSize) ∧
      Headered r.heap.bytes ⟨addr, size + headerSize⟩ ∧
      Sound r.heap.memory.arenas (⟨addr, size + headerSize⟩ :: rest) ∧
      ∀ b ∈ rest, Bytes.AgreeOn h.bytes r.heap.bytes b.room) := by
  intro r
  have hr : r = jsonBlockAlloc host size c h := rfl
  unfold jsonBlockAlloc at hr
  split at hr
  · rw [hr]
    exact Or.inl ⟨rfl, rfl, rfl, hs⟩
  rename_i hsize
  rw [not_or, Nat.not_lt] at hsize
  rcases alloc_sound 0 (size + headerSize) hs hfresh with ⟨herr, hbuf, hst⟩ | ⟨hok, hst⟩
  · simp only [if_pos (Result.ne_success_of_isError herr)] at hr
    rw [hr]
    exact Or.inl ⟨rfl, rfl, rfl, hst⟩
  · simp only [if_neg (not_not.mpr hok)] at hr
    right
    generalize (alloc host 0 (size + headerSize) h.memory).buffer = addr at hr hst
    have hroom := le_align8U32 (hst.size_ne _ List.mem_cons_self)
    have htotal : size + headerSize < 256 ^ 4 := by
      have hmax := hsize.2
      unfold jsonBlockMaxPayload maxAllocSize headerSize at hmax
      unfold headerSize
      omega
    refine ⟨hsize.1, addr, by rw [hr], by rw [hr], ⟨?_, Nat.le_add_left _ _⟩, by rw [hr]; exact hst,
      fun b hb => ?_⟩
    · -- the padding behind the size is another four bytes
      rw [hr, totalSize]
      rw [Bytes.load_congr (Bytes.store_agreeOn (Or.inr (Nat.le_refl _)))]
      exact Bytes.load_store htotal
    · have hapart := (List.pairwise_cons.mp hst.heldApart).1 b hb
      rw [hr]
      refine (Bytes.store_agreeOn ?_).trans (Bytes.store_agreeOn ?_)
      · refine hapart.within ⟨Nat.le_refl _, ?_⟩ (Region.Within.refl _)
        simp only [Block.room, Region.stop_mk, headerSize] at hroom ⊢
        omega
      · refine hapart.within ⟨Nat.le_add_right _ _, ?_⟩ (Region.Within.refl _)
        simp only [Block.room, Region.stop_mk, headerSize] at hroom ⊢
        omega

/-- The block left behind by a resize of `b`: it covers the new size, has the bytes that both sizes
reach from `skip` on, and nothing around it changed. -/
structure Resized (h h' : Heap) (rest : List Block) (b b' : Block) (skip total : Nat) : Prop where
  le : total ≤ b'.size
  sound : Sound h'.memory.arenas (b' :: rest)
  keeps : ∀ k < min b.size total, skip ≤ k → h'.bytes (b'.addr + k) = h.bytes (b.addr + k)
  around : ∀ c ∈ rest, Bytes.AgreeOn h.bytes h'.bytes c.room

/-- A resize that is no growth of a buried block within its bytes. The caller writes `store` into
the block, in front of `skip`, when the size is recorded. -/
theorem realloc_resized {b : Block} {total : Nat} (hs : Sound h.memory.arenas (b :: rest))
    (hfresh : Fresh host h.memory.arenas) (hnew : total ≠ 0)
    (hgrow : ¬ GrowsBuried h.memory b.addr b.size total) :
    let got := realloc host b.addr b.size total h
    ((got.result ≠ .success ∧ got.result ≠ .warningArenaMemoryNotReclaimed) ∧
      got.state.bytes = h.bytes ∧ Sound got.state.memory.arenas (b :: rest)) ∨
    (¬ (got.result ≠ .success ∧ got.result ≠ .warningArenaMemoryNotReclaimed) ∧
      ∃ b' : Block, got.buffer = b'.addr ∧
        b'.size = (if got.result = .success ∨ b.addr ≠ got.buffer then total else b.size) ∧
        Resized h got.state rest b b' 0 total) := by
  intro got
  rcases realloc_step hs hfresh hnew hgrow with
    ⟨herr, hbytes, hst⟩ | ⟨hres, haround, hkeep, ⟨hno, hbuf, hle, hst⟩ | ⟨hmoved, hst⟩⟩
  · left
    -- a refusal is no warning either
    refine ⟨⟨Result.ne_success_of_isError herr, fun hwarn => ?_⟩, hbytes, hst⟩
    rw [hwarn] at herr
    cases herr
  · right
    -- kept in place without a success: the size on record stays
    refine ⟨fun ⟨hsucc, hwarn⟩ => hres.elim hsucc hwarn, b, hbuf, ?_, hle, hst, ?_, haround⟩
    · rw [if_neg]
      rintro (hok | hne)
      · exact hno hok
      · exact hne hbuf.symm
    · intro k hk _
      rw [← hkeep k hk]
      exact congrArg (fun x => got.state.bytes (x + k)) hbuf.symm
  · right
    refine ⟨fun ⟨hsucc, hwarn⟩ => hres.elim hsucc hwarn, ⟨got.buffer, total⟩, rfl, ?_,
      Nat.le_refl _, hst, fun k hk _ => hkeep k hk, haround⟩
    exact (if_pos (hmoved.imp_right Ne.symm)).symm

theorem jsonBlockRealloc_spec {b : Block} (size : Nat) (c : AlcContext)
    (hb : Headered h.bytes b) (hs : Sound h.memory.arenas (b :: rest))
    (hfresh : Fresh host h.memory.arenas)
    (hgrow : ¬ GrowsBuried h.memory b.addr b.size (size + headerSize)) :
    let r := jsonBlockRealloc host (b.addr + headerSize) size c h
    (r.pointer = 0 ∧ r.heap.bytes = h.bytes ∧ Sound r.heap.memory.arenas (b :: rest)) ∨
    (size ≠ 0 ∧ ∃ b', r.pointer = b'.addr + headerSize ∧ Headered r.heap.bytes b' ∧
      Resized h r.heap rest b b' headerSize (size + headerSize)) := by
  intro r
  have hr : r = jsonBlockRealloc host (b.addr + headerSize) size c h := rfl
  unfold jsonBlockRealloc at hr
  rw [if_neg (by unfold headerSize; omega)] at hr
  split at hr
  · rw [hr]
    exact Or.inl ⟨rfl, rfl, hs⟩
  rename_i hsize
  rw [not_or, Nat.not_lt] at hsize
  simp only [Nat.add_sub_cancel, hb.recorded] at hr
  have htotal : size + headerSize < 256 ^ 4 := by
    have hmax := hsize.2
    unfold jsonBlockMaxPayload maxAllocSize headerSize at hmax
    unfold headerSize
    omega
  rcases realloc_resized hs hfresh (show size + headerSize ≠ 0 by unfold headerSize; omega) hgrow
    with ⟨hbad, hbytes, hst⟩ | ⟨hok, b', hbuf, hsize', hres⟩
  · rw [if_pos hbad] at hr
    rw [hr]
    exact Or.inl ⟨rfl, hbytes, hst⟩
  rw [if_neg hok] at hr
  right
  refine ⟨hsize.1, b', by rw [hr, ← hbuf], ?_⟩
  have hroom := le_align8U32 (hres.sound.size_ne b' List.mem_cons_self)
  have hwidth : headerSize ≤ b'.size := Nat.le_trans (Nat.le_add_left _ _) hres.le
  split at hr
  · -- the size is recorded
    rename_i hmoved
    rw [if_pos hmoved] at hsize'
    rw [hbuf] at hr
    rw [hr]
    refine ⟨⟨?_, hwidth⟩, hres.le, hres.sound, fun k hk hskip => ?_, fun c hc => ?_⟩
    · rw [hsize']
      exact Bytes.load_store htotal
    · rw [← hres.keeps k hk (Nat.zero_le _)]
      refine Bytes.store_agreeOn (r := ⟨b'.addr + k, 1⟩) (Or.inl ?_) _
        ⟨Nat.le_refl _, by simp only [Region.stop_mk]; omega⟩
      simp only [Region.stop_mk]
      unfold headerSize at hskip
      omega
    · refine (hres.around c hc).trans (Bytes.store_agreeOn ?_)
      have hapart := (List.pairwise_cons.mp hres.sound.heldApart).1 c hc
      refine hapart.within ⟨Nat.le_refl _, ?_⟩ (Region.Within.refl _)
      simp only [Block.room, Region.stop_mk]
      unfold headerSize at hwidth
      omega
  · -- the block stays where it is with its header
    rename_i hkept
    rw [if_neg hkept] at hsize'
    have hmoved : b.addr = b'.addr := by
      by_contra hne
      exact hkept (Or.inr (hbuf ▸ hne))
    rw [hr]
    refine ⟨⟨?_, hwidth⟩, hres.le, hres.sound, fun k hk _ => hres.keeps k hk (Nat.zero_le _),
      hres.around⟩
    have hlen : (4 : Nat) ≤ min b.size (size + headerSize) := by
      have := hb.le
      unfold headerSize at this ⊢
      omega
    rw [hsize', ← hmoved]
    refine (Bytes.load_congr fun x hx => ?_).trans hb.recorded
    obtain ⟨hlo, hhi⟩ := hx
    obtain ⟨k, rfl⟩ := Nat.exists_eq_add_of_le hlo
    simp only [Region.stop_mk] at hhi
    have hkeep := hres.keeps k (by omega) (Nat.zero_le _)
    rw [← hmoved] at hkeep
    exact hkeep

theorem jsonBufferAlloc_spec (size c : Nat) (hs : Sound h.memory.arenas rest)
    (hfresh : Fresh host h.memory.arenas) :
    let r := jsonBufferAlloc host size c h
    r.heap.bytes = h.bytes ∧
    ((r.pointer = 0 ∧ r.context = c ∧ Sound r.heap.memory.arenas rest) ∨
      (r.context = size ∧ Sound r.heap.memory.arenas (⟨r.pointer, size⟩ :: rest))) := by
  intro r
  have hr : r = jsonBufferAlloc host size c h := rfl
  unfold jsonBufferAlloc at hr
  split at hr
  · rw [hr]
    exact ⟨rfl, Or.inl ⟨rfl, rfl, hs⟩⟩
  rcases alloc_sound 0 size hs hfresh with ⟨herr, -, hst⟩ | ⟨hok, hst⟩
  · simp only [if_pos (Result.ne_success_of_isError herr)] at hr
    rw [hr]
    exact ⟨rfl, Or.inl ⟨rfl, rfl, hst⟩⟩
  · simp only [if_neg (not_not.mpr hok)] at hr
    rw [hr]
    exact ⟨rfl, Or.inr ⟨rfl, hst⟩⟩

theorem jsonBufferRealloc_spec {b : Block} (size : Nat) (hs : Sound h.memory.arenas (b :: rest))
    (hfresh : Fresh host h.memory.arenas) (hgrow : ¬ GrowsBuried h.memory b.addr b.size size) :
    let r := jsonBufferRealloc host b.addr size b.size h
    (r.pointer = 0 ∧ r.context = b.size ∧ r.heap.bytes = h.bytes ∧
      Sound r.heap.memory.arenas (b :: rest)) ∨
    (∃ b' : Block, r.pointer = b'.addr ∧ r.context = b'.size ∧
      Resized h r.heap rest b b' 0 size) := by
  intro r
  have hr : r = jsonBufferRealloc host b.addr size b.size h := rfl
  unfold jsonBufferRealloc at hr
  rw [if_neg (hs.addr_ne List.mem_cons_self)] at hr
  split at hr
  · rw [hr]
    exact Or.inl ⟨rfl, rfl, rfl, hs⟩
  rename_i hsize
  rw [not_or] at hsize
  rcases realloc_resized hs hfresh hsize.1 hgrow with
    ⟨hbad, hbytes, hst⟩ | ⟨hok, b', hbuf, hsize', hres⟩
  · simp only [if_pos hbad] at hr
    rw [hr]
    exact Or.inl ⟨rfl, rfl, hbytes, hst⟩
  · simp only [if_neg hok] at hr
    rw [hr]
    exact Or.inr ⟨b', hbuf, hsize'.symm, hres⟩

theorem jsonBlockDispose_spec {b : Block} (c : AlcContext) (hb : Headered h.bytes b)
    (hs : Sound h.memory.arenas (b :: rest)) :
    let r := jsonBlockDispose (b.addr + headerSize) c h
    r.2.bytes = h.bytes ∧
    (((free b.addr b.size h.memory).1 = .success ∧
        r.1 = { c with spanSize := c.spanSize - align8 b.size } ∧
        r.2.memory = (free b.addr b.size h.memory).2 ∧ Sound r.2.memory.arenas rest) ∨
      ((free b.addr b.size h.memory).1 = .warningArenaMemoryNotReclaimed ∧
        r.1 = { c with arenaKeptBytes := true } ∧ r.2 = h)) := by
  intro r
  have hr : r = jsonBlockDispose (b.addr + headerSize) c h := rfl
  unfold jsonBlockDispose at hr
  rw [if_neg (by unfold headerSize; omega)] at hr
  simp only [Nat.add_sub_cancel, hb.recorded] at hr
  have hanswers := free_answers hs
  generalize free b.addr b.size h.memory = got at hr hanswers
  obtain ⟨result, memory⟩ := got
  rcases hanswers with ⟨rfl, hst⟩ | ⟨rfl, rfl⟩
  · rw [hr]
    exact ⟨rfl, Or.inl ⟨rfl, rfl, rfl, hst⟩⟩
  · rw [hr]
    exact ⟨rfl, Or.inr ⟨rfl, rfl, rfl⟩⟩

theorem jsonBufferDispose_spec {b : Block} (hs : Sound h.memory.arenas (b :: rest)) :
    let r := jsonBufferDispose b.addr b.size h
    r.1 = 0 ∧ r.2.bytes = h.bytes ∧ Sound r.2.memory.arenas rest := by
  intro r
  have hr : r = jsonBufferDispose b.addr b.size h := rfl
  unfold jsonBufferDispose at hr
  rw [if_neg (hs.addr_ne List.mem_cons_self)] at hr
  obtain ⟨-, hst⟩ := free_sound hs List.mem_cons_self rfl
  rw [List.erase_cons_head] at hst
  rw [hr]
  exact ⟨rfl, rfl, hst⟩

end Arnm.Json
