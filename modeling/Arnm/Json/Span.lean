import Arnm.Json.HookRuns
import Arnm.Memory.OneArena

set_option autoImplicit false

/-! # Releasing a document in one step

The blocks a JSON writer takes for one document are a run: it starts where the first of them lies
and its context counts what the arena charges for them. `json_alc_release_span` frees the sum from
the start on, and the arena answers success only when its tail is exactly there. Then the run
covers everything from its start to the tail, and nobody else's block lies in it. -/

namespace Arnm.Json

open Memory

/-- `json_alc_release_span`: whether the run came back, with the context and the heap. -/
def jsonAlcReleaseSpan (firstAllocation : Nat) (c : AlcContext) (h : Heap) :
    Bool × AlcContext × Heap :=
  if firstAllocation = 0 ∨ c.spanSize = 0 ∨ c.spanBroken = true then (false, c, h)
  else
    match h.memory with
    | .multiArena _ => (false, c, h)
    | .arena a =>
      let (result, memory) := free (firstAllocation - headerSize) c.spanSize (.arena a)
      if result ≠ .success then (false, c, { h with memory := memory })
      else (true, c.spanReset, { h with memory := memory })

/-- A run between calls: its first block, the other blocks it holds, those that were disposed of
and that the arena kept, and what the others hold; and whether since its start somebody else placed
a block or a block of the run was to be resized. -/
structure SpanState where
  heap : Heap
  context : AlcContext
  first : Block
  run : List Block
  kept : List Block
  others : List Block
  disturbed : Bool

/-- The block behind an answer. -/
def blockAt (bytes : Bytes) (pointer : Nat) : Block :=
  ⟨pointer - headerSize, totalSize bytes (pointer - headerSize)⟩

/-- What the library may write into. -/
def payload (b : Block) : Region := ⟨b.addr + headerSize, b.size - headerSize⟩

namespace SpanState

/-- The blocks of the run that the arena has not taken back. -/
def blocks (s : SpanState) : List Block := s.first :: s.run ++ s.kept

/-- The run once its first block was taken. -/
def opened (others : List Block) (r : HookAnswer AlcContext) : SpanState :=
  ⟨r.heap, r.context, blockAt r.heap.bytes r.pointer, [], [], others, false⟩

def blockAlloc (host : Host) (size : Nat) (s : SpanState) : SpanState :=
  let r := jsonBlockAlloc host size s.context s.heap
  { s with
    heap := r.heap, context := r.context
    run := if r.pointer = 0 then s.run else blockAt r.heap.bytes r.pointer :: s.run }

def blockDispose (b : Block) (s : SpanState) : SpanState :=
  let r := jsonBlockDispose (b.addr + headerSize) s.context s.heap
  { s with
    heap := r.2, context := r.1, run := s.run.erase b
    kept :=
      if (free b.addr b.size s.heap.memory).1 = .warningArenaMemoryNotReclaimed then b :: s.kept
      else s.kept }

/-- A resize of a block of the run. -/
def blockRealloc (host : Host) (b : Block) (size : Nat) (s : SpanState) : SpanState :=
  let r := jsonBlockRealloc host (b.addr + headerSize) size s.context s.heap
  let s' := { s with heap := r.heap, context := r.context, disturbed := true }
  if r.pointer = 0 then s'
  else if b = s.first then { s' with first := blockAt r.heap.bytes r.pointer }
  else { s' with run := blockAt r.heap.bytes r.pointer :: s.run.erase b }

def elsewhere (host : Host) (c : Call) (s : SpanState) : SpanState :=
  let r := s.heap.call host c
  { s with
    heap := r.state, others := ledger s.others r c
    disturbed := s.disturbed || placed c r }

end SpanState

/-- The states of a run on a single arena: a first block is taken with a context that counts
nothing yet, and is held from there on. The others go on in between, and everybody writes into
what is theirs. -/
inductive SpanRun : SpanState → Prop where
  | start (host : Host) (s : State) (a : Arena) (c : AlcContext) (size : Nat)
      (reached : Reachable s) (single : s.heap.memory = .arena a)
      (fresh : Fresh host s.heap.memory.arenas)
      (taken : (jsonBlockAlloc host size c.spanReset s.heap).pointer ≠ 0) :
      SpanRun (SpanState.opened s.held (jsonBlockAlloc host size c.spanReset s.heap))
  | blockAlloc (host : Host) (s : SpanState) (size : Nat) (run : SpanRun s)
      (fresh : Fresh host s.heap.memory.arenas) : SpanRun (s.blockAlloc host size)
  | blockDispose (s : SpanState) (b : Block) (run : SpanRun s) (hb : b ∈ s.run) :
      SpanRun (s.blockDispose b)
  | blockRealloc (host : Host) (s : SpanState) (b : Block) (size : Nat) (run : SpanRun s)
      (fresh : Fresh host s.heap.memory.arenas) (hb : b ∈ s.first :: s.run) :
      SpanRun (s.blockRealloc host b size)
  | elsewhere (host : Host) (s : SpanState) (c : Call) (run : SpanRun s)
      (fresh : Fresh host s.heap.memory.arenas) (honest : Honest ⟨s.heap, s.others⟩ c)
      (keeps : c ≠ .reset) : SpanRun (s.elsewhere host c)
  | write (s : SpanState) (bytes : Bytes) (run : SpanRun s)
      (inside : ∀ x, (∀ b ∈ s.first :: s.run, ¬ (payload b).Has x) →
        (∀ b ∈ s.others, ¬ b.room.Has x) → bytes x = s.heap.bytes x) :
      SpanRun { s with heap := { s.heap with bytes := bytes } }

/-! ## What every step keeps -/

/-- The bytes the arena charges for some blocks. -/
def charged (blocks : List Block) : Nat := ((blocks.map Block.room).map Region.size).sum

/-- What holds of a run that has not been given up. The arena is `a`. -/
structure SpanState.Sound (s : SpanState) (a : Arena) : Prop where
  single : s.heap.memory = .arena a
  capacity : a.capacity ≤ maxAllocSize
  sound : Memory.Sound s.heap.memory.arenas (s.blocks ++ s.others)
  headered : ∀ b ∈ s.first :: s.run, Headered s.heap.bytes b
  above : ∀ b ∈ s.blocks, s.first.addr ≤ b.addr
  counted : s.context.spanSize = charged s.blocks
  unbroken : s.context.spanBroken = false
  undisturbed : s.disturbed = false →
    s.first.addr + s.context.spanSize = a.tail ∧ ∀ b ∈ s.others, b.addr < s.first.addr

namespace SpanState.Sound

variable {s : SpanState} {a : Arena} (hs : s.Sound a)
include hs

/-- Every block lies in front of the tail. -/
theorem stop_le {b : Block} (hb : b ∈ s.blocks ++ s.others) :
    b.addr + align8U32 b.size ≤ a.tail := by
  obtain ⟨i, c, hi, hin⟩ := hs.sound.within b hb
  rw [hs.single, Allocator.arenas, List.getElem?_singleton] at hi
  split at hi
  · rw [← Option.some.inj hi] at hin
    exact hin.2
  · cases hi

omit hs in
theorem first_mem : s.first ∈ s.blocks := List.mem_append_left _ List.mem_cons_self

/-- The blocks of the run lie apart between its start and the tail. -/
theorem within {b : Block} (hb : b ∈ s.blocks) :
    b.room.Within ⟨s.first.addr, a.tail - s.first.addr⟩ := by
  have habove := hs.above b hb
  have hstop := hs.stop_le (List.mem_append_left _ hb)
  refine ⟨habove, ?_⟩
  show b.addr + align8U32 b.size ≤ s.first.addr + (a.tail - s.first.addr)
  omega

theorem apart : Region.AllApart (s.blocks.map Block.room) :=
  List.pairwise_map.mpr (List.pairwise_append.mp hs.sound.heldApart).1

/-- The sum never runs past the tail. -/
theorem spanSize_le : s.first.addr + s.context.spanSize ≤ a.tail := by
  have hle := hs.apart.sum_le (r := ⟨s.first.addr, a.tail - s.first.addr⟩) (by
    intro r hr
    obtain ⟨b, hb, rfl⟩ := List.mem_map.mp hr
    exact hs.within hb)
  have hstop := hs.stop_le (List.mem_append_left _ first_mem)
  rw [hs.counted]
  show s.first.addr + charged s.blocks ≤ a.tail
  have hle' : charged s.blocks ≤ a.tail - s.first.addr := hle
  omega

end SpanState.Sound

/-! ## The context and the arena -/

theorem AlcContext.charge_spanBroken {c : AlcContext} (hc : c.spanBroken = true) (total : Nat) :
    (c.charge total).spanBroken = true := by
  unfold AlcContext.charge
  split
  · rfl
  · exact hc

/-- A run given up stays so. -/
theorem jsonBlockAlloc_spanBroken {c : AlcContext} (hc : c.spanBroken = true) (host : Host)
    (size : Nat) (h : Heap) : (jsonBlockAlloc host size c h).context.spanBroken = true := by
  unfold jsonBlockAlloc
  split
  · exact hc
  · simp only
    split
    · exact hc
    · exact c.charge_spanBroken hc _

theorem jsonBlockDispose_spanBroken {c : AlcContext} (hc : c.spanBroken = true) (pointer : Nat)
    (h : Heap) : (jsonBlockDispose pointer c h).1.spanBroken = true := by
  unfold jsonBlockDispose
  split
  · exact hc
  · simp only
    split <;> exact hc

/-- A resize gives the run up unless its size is refused at once. -/
theorem jsonBlockRealloc_spanBroken (host : Host) {pointer : Nat} (hp : pointer ≠ 0) (size : Nat)
    (c : AlcContext) (h : Heap) :
    (jsonBlockRealloc host pointer size c h).context.spanBroken = true ∨
      jsonBlockRealloc host pointer size c h = ⟨0, c, h⟩ := by
  unfold jsonBlockRealloc
  rw [if_neg hp]
  split
  · exact Or.inr rfl
  · simp only
    split <;> exact Or.inl rfl

/-- On a single arena a block is taken at the tail. -/
theorem jsonBlockAlloc_arena {h : Heap} {a : Arena} (hm : h.memory = .arena a) (host : Host)
    (size : Nat) (c : AlcContext) :
    let r := jsonBlockAlloc host size c h
    (r.pointer = 0 ∧ ∃ total, r.heap.memory = .arena (a.recount total)) ∨
    (r.pointer = a.tail + headerSize ∧
      r.heap.memory = .arena (a.bump (align8U32 (size + headerSize)))) := by
  intro r
  have hr : r = jsonBlockAlloc host size c h := rfl
  unfold jsonBlockAlloc at hr
  split at hr
  · rw [hr]
    exact Or.inl ⟨rfl, a.outOfMemoryCapacity, hm⟩
  · rw [hm] at hr
    rcases alloc_arena host 0 (size + headerSize) a with ⟨herr, total, hst⟩ | ⟨-, hok⟩
    · simp only [if_pos (Result.ne_success_of_isError herr)] at hr
      rw [hr]
      exact Or.inl ⟨rfl, total, hst⟩
    · simp only [hok, ne_eq, not_true_eq_false, if_false] at hr
      rw [hr]
      exact Or.inr ⟨rfl, rfl⟩

theorem blocks_perm {s : SpanState} {b : Block} (hb : b ∈ s.run) :
    s.blocks.Perm (b :: (s.first :: s.run.erase b ++ s.kept)) :=
  (((List.perm_cons_erase hb).append_right s.kept).cons s.first).trans (List.Perm.swap b s.first _)

theorem charged_perm {blocks blocks' : List Block} (h : blocks.Perm blocks') :
    charged blocks = charged blocks' := ((h.map Block.room).map Region.size).sum_eq

theorem charged_cons (b : Block) (blocks : List Block) :
    charged (b :: blocks) = align8U32 b.size + charged blocks := rfl

theorem align8_eq {size : Nat} (h : align8U32 size ≠ 0) : align8 size = align8U32 size := by
  unfold align8U32
  rw [if_neg (Nat.not_lt.mpr (align8U32_ne_zero.mp h).2)]

namespace SpanState.Sound

variable {s : SpanState} {a : Arena} (hs : s.Sound a)
include hs

/-- A block of the run in front of the others. -/
theorem head {b : Block} (hb : b ∈ s.run) :
    Memory.Sound s.heap.memory.arenas
      (b :: (s.first :: s.run.erase b ++ s.kept ++ s.others)) :=
  hs.sound.perm ((blocks_perm hb).append_right s.others)

theorem headered_kept {bytes : Bytes} {blocks : List Block}
    (hsub : ∀ b ∈ blocks, b ∈ s.first :: s.run)
    (hag : ∀ b ∈ blocks, Bytes.AgreeOn s.heap.bytes bytes b.room) :
    ∀ b ∈ blocks, Headered bytes b := by
  intro b hb
  have hmem := hsub b hb
  refine (hs.headered b hmem).congr (hs.sound.size_ne b ?_) (hag b hb)
  exact List.mem_append_left _ (List.mem_append_left _ hmem)

/-- A refused allocation moved at most the counter of the arena. -/
theorem recounted {heap : Heap} {total : Nat} (hm : heap.memory = .arena (a.recount total))
    (hbytes : heap.bytes = s.heap.bytes) : ({ s with heap := heap } : SpanState).Sound
      (a.recount total) where
  single := hm
  capacity := hs.capacity
  sound := by
    have hsound := hs.sound.recount 0 total
    rw [hs.single] at hsound
    rw [show ({ s with heap := heap } : SpanState).heap.memory = .arena (a.recount total) from hm]
    exact hsound
  headered := by
    show ∀ b ∈ s.first :: s.run, Headered heap.bytes b
    rw [hbytes]
    exact hs.headered
  above := hs.above
  counted := hs.counted
  unbroken := hs.unbroken
  undisturbed := hs.undisturbed

theorem data_le : a.data ≤ s.first.addr := by
  obtain ⟨i, c, hi, hin⟩ := hs.sound.within s.first (List.mem_append_left _ first_mem)
  rw [hs.single, Allocator.arenas, List.getElem?_singleton] at hi
  split at hi
  · rw [← Option.some.inj hi] at hin
    exact hin.1
  · cases hi

/-- The sum fits: it never runs past the tail, and the arena is no larger than an allocation may
be. -/
theorem charge_eq {total : Nat} (htotal : align8U32 total ≠ 0)
    (hroom : a.lastIndex + align8U32 total ≤ a.capacity) :
    s.context.charge total =
      { s.context with spanSize := s.context.spanSize + align8U32 total } := by
  have hdata := hs.data_le
  have hle := hs.spanSize_le
  have hcap := hs.capacity
  unfold AlcContext.charge
  rw [align8_eq htotal, if_neg]
  unfold maxAllocSize at hcap
  unfold Arena.tail at hle
  omega

/-- A block of the run is taken at the tail, and counted. -/
theorem blockAlloc {host : Host} (size : Nat) (fresh : Fresh host s.heap.memory.arenas) :
    ∃ a', (s.blockAlloc host size).Sound a' := by
  have hspec := jsonBlockAlloc_spec size s.context hs.sound fresh
  have harena := jsonBlockAlloc_arena hs.single host size s.context
  unfold SpanState.blockAlloc
  generalize jsonBlockAlloc host size s.context s.heap = r at hspec harena
  dsimp only
  rcases hspec with ⟨hp, hcontext, hbytes, hst⟩ | ⟨-, addr, hp, hcontext, hheader, hst, haround⟩
  · obtain ⟨-, total, hm⟩ := harena.resolve_right fun hok => by
      rw [hok.1] at hp
      exact absurd hp (Nat.succ_ne_zero _)
    rw [if_pos hp, hcontext]
    exact ⟨_, hs.recounted hm hbytes⟩
  · have hne : ¬ r.pointer = 0 := by
      rw [hp]
      exact Nat.succ_ne_zero _
    obtain ⟨hp', hm⟩ := harena.resolve_left fun hbad => hne hbad.1
    have haddr : addr = a.tail := Nat.add_right_cancel (hp.symm.trans hp')
    have hblock : blockAt r.heap.bytes r.pointer = ⟨addr, size + headerSize⟩ := by
      rw [hp, blockAt, Nat.add_sub_cancel, hheader.recorded]
    rw [if_neg hne, hblock, hcontext]
    have htotal : align8U32 (size + headerSize) ≠ 0 := hst.size_ne _ List.mem_cons_self
    have ha := hst.arena (a.bump (align8U32 (size + headerSize))) (by
      rw [hm]
      exact List.mem_cons_self)
    rw [hs.charge_eq htotal ha.index_le]
    have hfirst := hs.stop_le (List.mem_append_left _ first_mem)
    refine ⟨a.bump (align8U32 (size + headerSize)), hm, hs.capacity, ?_, fun b hb => ?_,
      fun b hb => ?_, ?_, hs.unbroken, fun hquiet => ?_⟩
    · exact hst.perm (List.Perm.swap _ _ _)
    · -- the new header, or one that was left alone
      rcases List.mem_cons.mp hb with rfl | hb
      · refine hs.headered_kept (fun b hb => hb) (fun b hb => ?_) _ List.mem_cons_self
        exact haround b (List.mem_append_left _ (List.mem_append_left _ hb))
      rcases List.mem_cons.mp hb with rfl | hb
      · exact hheader
      · refine hs.headered_kept (fun b hb => hb) (fun b hb => ?_) _ (List.mem_cons_of_mem _ hb)
        exact haround b (List.mem_append_left _ (List.mem_append_left _ hb))
    · show s.first.addr ≤ b.addr
      rcases List.mem_cons.mp hb with rfl | hb
      · exact Nat.le_refl _
      rcases List.mem_cons.mp hb with rfl | hb
      · rw [haddr]
        exact Nat.le_trans (Nat.le_add_right _ _) hfirst
      · exact hs.above b (List.mem_cons_of_mem _ hb)
    · show s.context.spanSize + align8U32 (size + headerSize) = _
      rw [hs.counted, Nat.add_comm]
      exact charged_perm (List.Perm.swap s.first ⟨addr, size + headerSize⟩ (s.run ++ s.kept))
    · obtain ⟨htail, hbelow⟩ := hs.undisturbed hquiet
      refine ⟨?_, hbelow⟩
      show s.first.addr + (s.context.spanSize + align8U32 (size + headerSize)) =
        a.data + (a.lastIndex + align8U32 (size + headerSize))
      unfold Arena.tail at htail
      omega

/-- A block of the run goes back from the tail and out of the sum, or the arena keeps it and the
sum covers it further on. -/
theorem blockDispose {b : Block} (hb : b ∈ s.run) : ∃ a', (s.blockDispose b).Sound a' := by
  have hhead := hs.head hb
  have hheader := hs.headered b (List.mem_cons_of_mem _ hb)
  have hspec := jsonBlockDispose_spec s.context hheader hhead
  have hperm := blocks_perm hb
  have hsub : ∀ c ∈ s.first :: s.run.erase b, c ∈ s.first :: s.run := fun c hc =>
    (List.mem_cons.mp hc).elim (fun h => h ▸ List.mem_cons_self)
      fun h => List.mem_cons_of_mem _ (List.mem_of_mem_erase h)
  unfold SpanState.blockDispose
  generalize jsonBlockDispose (b.addr + headerSize) s.context s.heap = r at hspec
  dsimp only
  obtain ⟨hbytes, ⟨hok, hcontext, hm, hst⟩ | ⟨hwarn, hcontext, hheap⟩⟩ := hspec
  · -- the block was the tail: its bytes leave the arena and the sum alike
    have hfree := free_arena b.addr b.size a
    rw [hs.single] at hok hm
    rw [hs.single, hok, if_neg Result.noConfusion, hcontext]
    rcases hfree with ⟨-, -, -, htail, hst'⟩ | ⟨hno, -⟩
    swap
    · exact absurd hok hno
    have hsize := hhead.size_ne b List.mem_cons_self
    have hcharged : charged s.blocks =
        align8U32 b.size + charged (s.first :: s.run.erase b ++ s.kept) := charged_perm hperm
    refine ⟨a.rewind (align8U32 b.size), hm.trans hst', hs.capacity, hst, ?_, fun c hc => ?_, ?_,
      hs.unbroken, fun hquiet => ?_⟩
    · exact hs.headered_kept hsub fun c _ => by rw [hbytes]; exact Bytes.AgreeOn.refl _ _
    · exact hs.above c (hperm.symm.subset (List.mem_cons_of_mem b hc))
    · show s.context.spanSize - align8 b.size = charged (s.first :: s.run.erase b ++ s.kept)
      rw [align8_eq hsize, hs.counted, hcharged, Nat.add_sub_cancel_left]
    · obtain ⟨hspan, hbelow⟩ := hs.undisturbed hquiet
      refine ⟨?_, hbelow⟩
      have hdata := hs.data_le
      have habove := hs.above b (hperm.symm.subset List.mem_cons_self)
      have hcounted := hs.counted
      show s.first.addr + (s.context.spanSize - align8 b.size) =
        a.data + (a.lastIndex - align8U32 b.size)
      rw [align8_eq hsize]
      unfold Arena.tail at hspan htail
      omega
  · -- buried: the block passes to those the arena keeps
    have hkept : (s.first :: s.run.erase b ++ b :: s.kept).Perm s.blocks := by
      refine List.Perm.trans ?_ hperm.symm
      exact @List.perm_middle _ _ (s.first :: s.run.erase b) _
    rw [hwarn, if_pos rfl, hcontext, hheap]
    refine ⟨a, hs.single, hs.capacity, ?_, ?_, fun c hc => ?_, ?_, hs.unbroken, hs.undisturbed⟩
    · exact hs.sound.perm (hkept.symm.append_right s.others)
    · exact hs.headered_kept hsub fun c _ => Bytes.AgreeOn.refl _ _
    · exact hs.above c (hkept.subset hc)
    · exact hs.counted.trans (charged_perm hkept).symm

/-- A block of the others ends in front of a run that nobody disturbed. -/
theorem below {b : Block} (hb : b ∈ s.others) (hlt : b.addr < s.first.addr) :
    b.addr + align8U32 b.size ≤ s.first.addr := by
  have hapart := (List.pairwise_append.mp hs.sound.heldApart).2.2 s.first first_mem b hb
  have hor : s.first.addr + align8U32 s.first.size ≤ b.addr ∨
    b.addr + align8U32 b.size ≤ s.first.addr := hapart
  omega

/-- What the others do leaves the run; if they place no block the tail stays. -/
theorem elsewhere {host : Host} {c : Call} (fresh : Fresh host s.heap.memory.arenas)
    (honest : Honest ⟨s.heap, s.others⟩ c) (keeps : c ≠ .reset) :
    ∃ a', (s.elsewhere host c).Sound a' := by
  obtain ⟨hst, hag⟩ := Elsewhere.sound (.call host c fresh honest keeps) hs.sound
  have hrelease : c ≠ .release := by
    rintro rfl
    exact honest
  obtain ⟨a', hm, hdata, hcap⟩ := (hs.single ▸ call_alike host c hrelease s.heap).exists_arena
  have hfirst := hs.stop_le (List.mem_append_left _ first_mem)
  have hpos := hs.sound.size_ne s.first (List.mem_append_left _ first_mem)
  refine ⟨a', hm, hcap ▸ hs.capacity, hst, ?_, hs.above, hs.counted, hs.unbroken,
    fun hquiet => ?_⟩
  · exact hs.headered_kept (fun b hb => hb) fun b hb => hag b (List.mem_append_left _ hb)
  · have hquiet' : (s.disturbed || placed c (s.heap.call host c)) = false := hquiet
    rw [Bool.or_eq_false_iff] at hquiet'
    obtain ⟨hspan, hbelow⟩ := hs.undisturbed hquiet'.1
    obtain ⟨b', hm', -, htail⟩ := call_tail hs.single hs.sound
      (fun b hb => List.mem_append_right _ hb) honest keeps (fun b hb => by
        have := hs.below hb (hbelow b hb)
        omega) hquiet'.2
    have hsame : a' = b' := Allocator.arena.inj (hm.symm.trans hm')
    refine ⟨by rw [hsame, htail]; exact hspan, fun b hb => ?_⟩
    obtain ⟨b₀, hb₀, haddr⟩ := ledger_unplaced honest keeps hquiet'.2 b hb
    rw [← haddr]
    exact hbelow b₀ hb₀

/-- Writes into payloads and into the blocks of the others leave the headers. -/
theorem write {bytes : Bytes}
    (inside : ∀ x, (∀ b ∈ s.first :: s.run, ¬ (payload b).Has x) →
      (∀ b ∈ s.others, ¬ b.room.Has x) → bytes x = s.heap.bytes x) :
    SpanState.Sound { s with heap := { s.heap with bytes := bytes } } a := by
  refine ⟨hs.single, hs.capacity, hs.sound, fun b hb => ?_, hs.above, hs.counted, hs.unbroken,
    hs.undisturbed⟩
  have hheader := hs.headered b hb
  have hmem : b ∈ s.blocks := List.mem_append_left _ hb
  have hroom := le_align8U32 (hs.sound.size_ne b (List.mem_append_left _ hmem))
  have hwidth := hheader.le
  unfold headerSize at hwidth
  have hheadroom : Region.Within ⟨b.addr, 4⟩ b.room := by
    refine ⟨Nat.le_refl _, ?_⟩
    show b.addr + 4 ≤ b.addr + align8U32 b.size
    omega
  have hin : ∀ x, Region.Has ⟨b.addr, 4⟩ x → b.room.Has x := fun x hx => hheadroom.has hx
  refine ⟨(Bytes.load_congr fun x hx => inside x (fun c hc hcx => ?_) fun c hc hcx => ?_).trans
    hheader.recorded, hheader.le⟩
  · have hcle := (hs.headered c hc).le
    have hcroom := le_align8U32 (hs.sound.size_ne c
      (List.mem_append_left _ (List.mem_append_left _ hc)))
    by_cases hbc : b = c
    · -- the payload lies behind the block's own header
      subst hbc
      have hlo : b.addr + headerSize ≤ x := hcx.1
      have hhi : x < b.addr + 4 := hx.2
      unfold headerSize at hlo
      omega
    · have hcmem : c ∈ s.blocks := List.mem_append_left _ hc
      obtain ⟨i, hi⟩ := List.mem_iff_getElem?.mp hmem
      obtain ⟨j, hj⟩ := List.mem_iff_getElem?.mp hcmem
      have hij : i ≠ j := by
        rintro rfl
        exact hbc (Option.some.inj (hi.symm.trans hj))
      have hapart := Region.apart_of_getElem? Block.room
        (List.pairwise_append.mp hs.sound.heldApart).1 hi hj hij
      have hpayload : (payload c).Within c.room := by
        refine ⟨Nat.le_add_right _ _, ?_⟩
        show c.addr + headerSize + (c.size - headerSize) ≤ c.addr + align8U32 c.size
        omega
      exact hapart.not_has (hin x hx) (hpayload.has hcx)
  · have hapart := (List.pairwise_append.mp hs.sound.heldApart).2.2 b hmem c hc
    exact hapart.not_has (hin x hx) hcx

end SpanState.Sound

/-- What holds in every state of a run: it was given up for good, or it is sound. -/
def SpanState.Kept (s : SpanState) : Prop :=
  (s.context.spanBroken = true ∧ s.disturbed = true) ∨ ∃ a, s.Sound a

/-- The state a run starts in. -/
theorem SpanState.Sound.opened {host : Host} {s : State} {a : Arena} {c : AlcContext} {size : Nat}
    (reached : Reachable s) (single : s.heap.memory = .arena a)
    (fresh : Fresh host s.heap.memory.arenas)
    (taken : (jsonBlockAlloc host size c.spanReset s.heap).pointer ≠ 0) :
    ∃ a', (SpanState.opened s.held (jsonBlockAlloc host size c.spanReset s.heap)).Sound a' := by
  have hs := reached.sound
  have hspec := jsonBlockAlloc_spec size c.spanReset hs fresh
  have harena := jsonBlockAlloc_arena single host size c.spanReset
  unfold SpanState.opened
  generalize jsonBlockAlloc host size c.spanReset s.heap = r at hspec harena taken
  obtain ⟨-, addr, hp, hcontext, hheader, hst, -⟩ := hspec.resolve_left fun hbad => taken hbad.1
  obtain ⟨hp', hm⟩ := harena.resolve_left fun hbad => taken hbad.1
  have haddr : addr = a.tail := Nat.add_right_cancel (hp.symm.trans hp')
  have hblock : blockAt r.heap.bytes r.pointer = ⟨addr, size + headerSize⟩ := by
    rw [hp, blockAt, Nat.add_sub_cancel, hheader.recorded]
  have htotal : align8U32 (size + headerSize) ≠ 0 := hst.size_ne _ List.mem_cons_self
  have hcount : c.spanReset.charge (size + headerSize) =
      ⟨c.arenaKeptBytes, false, align8U32 (size + headerSize)⟩ := by
    unfold AlcContext.charge AlcContext.spanReset
    have hmax := align8U32_le (size + headerSize)
    unfold maxAllocSize at hmax
    rw [align8_eq htotal, if_neg (by simp only; omega), Nat.zero_add]
  rw [hblock, hcontext, hcount]
  refine ⟨a.bump (align8U32 (size + headerSize)), hm, reached.capacity_le a single, hst,
    fun b hb => ?_, fun b hb => ?_, ?_, rfl, fun _ => ⟨?_, fun b hb => ?_⟩⟩
  · rw [List.mem_singleton.mp hb]
    exact hheader
  · rw [List.mem_singleton.mp hb]
  · rfl
  · show addr + align8U32 (size + headerSize) = a.data + (a.lastIndex + _)
    rw [haddr, Arena.tail, Nat.add_assoc]
  · -- the others lie in front of the tail
    obtain ⟨i, d, hi, hin⟩ := hs.within b hb
    rw [single, Allocator.arenas, List.getElem?_singleton] at hi
    split at hi
    · have hpos := hs.size_ne b hb
      rw [← Option.some.inj hi] at hin
      have hstop : b.addr + align8U32 b.size ≤ a.data + a.lastIndex := hin.2
      show b.addr < addr
      rw [haddr, Arena.tail]
      omega
    · cases hi

theorem SpanRun.kept {s : SpanState} (run : SpanRun s) : s.Kept := by
  induction run with
  | start host s a c size reached single fresh taken =>
      exact Or.inr (SpanState.Sound.opened reached single fresh taken)
  | blockAlloc host s size _ fresh ih =>
      rcases ih with ⟨hbroken, hdisturbed⟩ | ⟨a, hs⟩
      · exact Or.inl ⟨jsonBlockAlloc_spanBroken hbroken host size s.heap, hdisturbed⟩
      · exact Or.inr (hs.blockAlloc size fresh)
  | blockDispose s b _ hb ih =>
      rcases ih with ⟨hbroken, hdisturbed⟩ | ⟨a, hs⟩
      · exact Or.inl ⟨jsonBlockDispose_spanBroken hbroken _ s.heap, hdisturbed⟩
      · exact Or.inr (hs.blockDispose hb)
  | blockRealloc host s b size _ fresh hb ih =>
      -- the run is given up, or the size was refused at once and nothing happened
      have hp : b.addr + headerSize ≠ 0 := Nat.succ_ne_zero _
      rcases jsonBlockRealloc_spanBroken host hp size s.context s.heap with hbroken | hsame
      · left
        unfold SpanState.blockRealloc
        dsimp only
        split
        · exact ⟨hbroken, rfl⟩
        · split <;> exact ⟨hbroken, rfl⟩
      · have hstate : s.blockRealloc host b size = { s with disturbed := true } := by
          unfold SpanState.blockRealloc
          rw [hsame]
          rfl
        rw [hstate]
        rcases ih with ⟨hbroken, -⟩ | ⟨a, hs⟩
        · exact Or.inl ⟨hbroken, rfl⟩
        · exact Or.inr ⟨a, hs.single, hs.capacity, hs.sound, hs.headered, hs.above, hs.counted,
            hs.unbroken, fun hquiet => by cases hquiet⟩
  | elsewhere host s c _ fresh honest keeps ih =>
      rcases ih with ⟨hbroken, hdisturbed⟩ | ⟨a, hs⟩
      · exact Or.inl ⟨hbroken, by
          show (s.disturbed || _) = true
          rw [hdisturbed, Bool.true_or]⟩
      · exact Or.inr (hs.elsewhere fresh honest keeps)
  | write s bytes _ inside ih =>
      rcases ih with hgone | ⟨a, hs⟩
      · exact Or.inl hgone
      · exact Or.inr ⟨a, hs.write inside⟩

/-! ## The release -/

/-- A release that is refused changes nothing. -/
theorem jsonAlcReleaseSpan_refused {firstAllocation : Nat} {c : AlcContext} {h : Heap}
    (hno : (jsonAlcReleaseSpan firstAllocation c h).1 = false) :
    (jsonAlcReleaseSpan firstAllocation c h).2 = (c, h) := by
  unfold jsonAlcReleaseSpan at hno ⊢
  split
  · rfl
  · rename_i hopen
    rw [if_neg hopen] at hno
    cases hm : h.memory with
    | multiArena m => rfl
    | arena a =>
        simp only [hm] at hno ⊢
        have hfree := free_arena (firstAllocation - headerSize) c.spanSize a
        generalize free (firstAllocation - headerSize) c.spanSize (.arena a) = got at hno hfree
        obtain ⟨result, memory⟩ := got
        rcases hfree with ⟨rfl, -, -, -, -⟩ | ⟨hbad, -, rfl⟩
        · cases hno
        · simp only [if_pos hbad]
          rw [← hm]

/-- On the sound state of a run the release is a free of the sum at the start of the run: it
succeeds exactly when the sum reaches the tail. -/
theorem SpanState.Sound.release_iff {s : SpanState} {a : Arena} (hs : s.Sound a) :
    let r := jsonAlcReleaseSpan (s.first.addr + headerSize) s.context s.heap
    (r.1 = true ↔ s.first.addr + s.context.spanSize = a.tail) ∧
    (r.1 = true → r.2.1 = s.context.spanReset ∧
      r.2.2.memory = .arena (a.rewind s.context.spanSize)) := by
  intro r
  have hr : r = jsonAlcReleaseSpan (s.first.addr + headerSize) s.context s.heap := rfl
  have hmem : s.first ∈ s.blocks ++ s.others :=
    List.mem_append_left _ SpanState.Sound.first_mem
  have hfirst := hs.sound.addr_ne hmem
  have hcounted := hs.counted
  have hpos : s.context.spanSize ≠ 0 := by
    have hsize := hs.sound.size_ne _ hmem
    have hcons := charged_cons s.first (s.run ++ s.kept)
    rw [hcounted, show s.blocks = s.first :: (s.run ++ s.kept) from rfl, hcons]
    omega
  -- the sum is a size the arena can be asked for
  have halign : align8U32 s.context.spanSize = s.context.spanSize := by
    refine align8U32_of_dvd ?_ ?_
    · rw [hcounted]
      refine List.dvd_sum fun n hn => ?_
      obtain ⟨region, hregion, rfl⟩ := List.mem_map.mp hn
      obtain ⟨b, -, rfl⟩ := List.mem_map.mp hregion
      exact align8U32_dvd b.size
    · have hle := hs.spanSize_le
      have hdata := hs.data_le
      have hcap := hs.capacity
      have ha := hs.sound.arena a (by
        rw [hs.single]
        exact List.mem_cons_self)
      have hindex := ha.index_le
      unfold Arena.tail at hle
      omega
  have hopen : ¬ (s.first.addr + headerSize = 0 ∨ s.context.spanSize = 0 ∨
      s.context.spanBroken = true) := by
    rintro (hz | hz | hz)
    · exact absurd hz (Nat.succ_ne_zero _)
    · exact hpos hz
    · rw [hs.unbroken] at hz
      cases hz
  unfold jsonAlcReleaseSpan at hr
  rw [if_neg hopen, hs.single] at hr
  simp only [Nat.add_sub_cancel] at hr
  have hfree := free_arena s.first.addr s.context.spanSize a
  rw [halign] at hfree
  generalize free s.first.addr s.context.spanSize (.arena a) = got at hr hfree
  obtain ⟨result, memory⟩ := got
  rcases hfree with ⟨rfl, -, -, htail, rfl⟩ | ⟨hbad, hno, rfl⟩
  · rw [hr]
    exact ⟨iff_of_true rfl htail.symm, fun _ => ⟨rfl, rfl⟩⟩
  · simp only [if_pos hbad] at hr
    rw [hr]
    refine ⟨iff_of_false (by simp) fun htail => hpos (hno htail.symm hfirst), fun hbad => ?_⟩
    cases hbad

/-- When the sum reaches the tail, the blocks of the run leave out no address from its start on,
and no block of the others has one. -/
theorem SpanState.Sound.tiled {s : SpanState} {a : Arena} (hs : s.Sound a)
    (hspan : s.first.addr + s.context.spanSize = a.tail) {x : Nat} (hlo : s.first.addr ≤ x)
    (hhi : x < a.tail) :
    (∃ b ∈ s.blocks, b.room.Has x) ∧ ∀ b ∈ s.others, ¬ b.room.Has x := by
  have hin : ∀ r ∈ s.blocks.map Block.room, r.Within ⟨s.first.addr, a.tail - s.first.addr⟩ := by
    intro r hr
    obtain ⟨b, hb, rfl⟩ := List.mem_map.mp hr
    exact hs.within hb
  have hfull : ((s.blocks.map Block.room).map Region.size).sum = a.tail - s.first.addr := by
    have hcounted := hs.counted
    unfold charged at hcounted
    omega
  have hhas : Region.Has ⟨s.first.addr, a.tail - s.first.addr⟩ x := by
    refine ⟨hlo, ?_⟩
    show x < s.first.addr + (a.tail - s.first.addr)
    omega
  obtain ⟨r, hr, hrx⟩ := hs.apart.covers hin hfull hhas
  obtain ⟨b, hb, rfl⟩ := List.mem_map.mp hr
  refine ⟨⟨b, hb, hrx⟩, fun c hc hcx => ?_⟩
  exact ((List.pairwise_append.mp hs.sound.heldApart).2.2 b hb c hc).not_has hrx hcx

/-- In every state of a run: if the release reports success, every address from the start of the
run to the tail was in a block of the run and in nobody else's, and the tail is back at the start;
if it reports failure, nothing changed; and it reports success when since the start nobody else
placed a block and no block of the run was to be resized. -/
theorem release_span_exact {s : SpanState} (run : SpanRun s) :
    let r := jsonAlcReleaseSpan (s.first.addr + headerSize) s.context s.heap
    (r.1 = true → ∃ a, s.heap.memory = .arena a ∧
      (∀ x, s.first.addr ≤ x → x < a.tail →
        (∃ b ∈ s.blocks, b.room.Has x) ∧ ∀ b ∈ s.others, ¬ b.room.Has x) ∧
      ∃ a', r.2.2.memory = .arena a' ∧ a'.data = a.data ∧ a'.tail = s.first.addr ∧
        r.2.1 = s.context.spanReset) ∧
    (r.1 = false → r.2 = (s.context, s.heap)) ∧
    (s.disturbed = false → r.1 = true) := by
  intro r
  refine ⟨fun hok => ?_, jsonAlcReleaseSpan_refused, fun hquiet => ?_⟩
  · rcases run.kept with ⟨hbroken, -⟩ | ⟨a, hs⟩
    · -- a run given up is refused
      have hno : r = (false, s.context, s.heap) := by
        show jsonAlcReleaseSpan _ _ _ = _
        unfold jsonAlcReleaseSpan
        rw [if_pos (Or.inr (Or.inr hbroken))]
      rw [hno] at hok
      cases hok
    · obtain ⟨hiff, hafter⟩ := hs.release_iff
      have hspan := hiff.mp hok
      obtain ⟨hcontext, hm⟩ := hafter hok
      refine ⟨a, hs.single, fun x hlo hhi => hs.tiled hspan hlo hhi, _, hm, rfl, ?_, hcontext⟩
      have hdata := hs.data_le
      show a.data + (a.lastIndex - s.context.spanSize) = s.first.addr
      unfold Arena.tail at hspan
      omega
  · rcases run.kept with ⟨-, hdisturbed⟩ | ⟨a, hs⟩
    · rw [hquiet] at hdisturbed
      cases hdisturbed
    · exact hs.release_iff.1.mpr (hs.undisturbed hquiet).1

/-- A lent arena with a block of somebody else. -/
def sampleShared : State := State.call silentHost ⟨lentArena 128, []⟩ (.alloc 20)

/-- A document of three blocks behind it, the second disposed of while it was buried. -/
def sampleSpan : SpanState :=
  ((SpanState.opened sampleShared.held
    (jsonBlockAlloc silentHost 9 AlcContext.init sampleShared.heap)).blockAlloc
      silentHost 5 |>.blockAlloc silentHost 3).blockDispose ⟨56, 13⟩

theorem spanRun_sampleSpan : SpanRun sampleSpan := by
  have hshared : Reachable sampleShared :=
    .call silentHost ⟨lentArena 128, []⟩ (.alloc 20) (.borrowed 8 128 _ _ (by norm_num) rfl)
      (silentHost_fresh _) trivial
  have hstart : SpanRun (SpanState.opened sampleShared.held
      (jsonBlockAlloc silentHost 9 AlcContext.init sampleShared.heap)) :=
    .start silentHost sampleShared _ .init 9 hshared rfl (silentHost_fresh _) (by decide)
  have htwo := hstart.blockAlloc silentHost _ 5 (silentHost_fresh _)
  have hthree := htwo.blockAlloc silentHost _ 3 (silentHost_fresh _)
  exact hthree.blockDispose _ ⟨56, 13⟩ (by decide)

/-- The whole document goes back at once, up to the block in front of it; behind it somebody else
may take another block first, and then nothing goes back. -/
theorem release_span_exact_sample :
    let r := jsonAlcReleaseSpan 40 sampleSpan.context sampleSpan.heap
    let s := sampleSpan.elsewhere silentHost (.alloc 10)
    r.1 = true ∧ (∃ a', r.2.2.memory = .arena a' ∧ a'.tail = 32) ∧
      (∀ x, 32 ≤ x → x < 88 → ∀ b ∈ sampleSpan.others, ¬ b.room.Has x) ∧
      jsonAlcReleaseSpan 40 s.context s.heap = (false, s.context, s.heap) := by
  intro r s
  obtain ⟨hok, -, hquiet⟩ := release_span_exact spanRun_sampleSpan
  have hdone : r.1 = true := hquiet rfl
  obtain ⟨a, hsingle, hcovers, a', hm, -, htail, -⟩ := hok hdone
  obtain rfl : Arena.mk 8 80 128 0 .external = a := Allocator.arena.inj hsingle
  have hrefused : (jsonAlcReleaseSpan 40 s.context s.heap).1 = false := by decide
  have hbehind : SpanRun s :=
    spanRun_sampleSpan.elsewhere silentHost _ (.alloc 10) (silentHost_fresh _) trivial (by decide)
  exact ⟨hdone, ⟨a', hm, htail⟩, fun x hlo hhi => (hcovers x hlo hhi).2,
    Prod.ext hrefused ((release_span_exact hbehind).2.1 hrefused)⟩

end Arnm.Json
