import Arnm.ArenaPool.FreeList

set_option autoImplicit false

/-! # The fixed arena pool

`fixed_arena_pool.c`: one block of the source allocator holds the descriptors of all arenas and
behind them their buffers. The free arenas are strung into a list through their buffers. -/

namespace Arnm.ArenaPool.Fixed

open Memory

/-- `arnm_fixed_arena_pool` -/
structure FixedArenaPool where
  arenas : Nat
  freeHead : Nat
  arenaCapacity : Nat
  arenaCount : Nat
  acquiredCount : Nat
  deriving DecidableEq, Repr

/-- A pool, the arena descriptors, and the source allocator with the memory. -/
structure State (σ : Type) where
  pool : FixedArenaPool
  store : Store σ

/-- `sizeof(arnm)` -/
def descriptorSize : Nat := 32

/-- `buffers_offset` -/
def buffersOffset (arenaCount : Nat) : Nat := arenaCount * descriptorSize

namespace FixedArenaPool

variable (pool : FixedArenaPool)

/-- `block_bytes` -/
def blockBytes : Nat := buffersOffset pool.arenaCount + pool.arenaCount * pool.arenaCapacity

/-- `belongs_to` -/
def belongsTo (arena : Nat) : Bool :=
  if arena < pool.arenas ∨ pool.arenas + pool.arenaCount * descriptorSize ≤ arena then false
  else (arena - pool.arenas) % descriptorSize = 0

/-- `arnm_fixed_arena_pool_available` -/
def available : Nat := pool.arenaCount - pool.acquiredCount

/-- `arnm_fixed_arena_pool_reserved` -/
def reserved : Nat := if pool.arenas = 0 then 0 else pool.blockBytes % 2 ^ 32

end FixedArenaPool

/-- `forget_everything` -/
def forgetEverything : FixedArenaPool := ⟨0, 0, 0, 0, 0⟩

/-- `calculate_total_reserved_memory_size`, in 32-bit arithmetic. -/
def calculateTotalReservedMemorySize (arenaCount alignedArenaCapacity : Nat) : Except Result Nat :=
  let descriptorsSize := descriptorSize * arenaCount % 2 ^ 32
  if (maxAllocSize - descriptorsSize) / arenaCount < alignedArenaCapacity then
    .error .errorArithmeticOverflow
  else .ok ((descriptorSize + alignedArenaCapacity) % 2 ^ 32 * arenaCount % 2 ^ 32)

section Source

variable {σ : Type} (source : Calls σ)

/-- The loop of `arnm_fixed_arena_pool_init`, back to front over the first `i` arenas. -/
def stringArenas (descriptors buffers capacity : Nat) : Nat → Nat → Store σ → Result × Nat × Store σ
  | 0, head, s => (.success, head, s)
  | i + 1, head, s =>
    let arena := descriptors + i * descriptorSize
    match initArenaBorrow (buffers + i * capacity) capacity with
    | .error result => (result, head, s)
    | .ok a =>
      stringArenas descriptors buffers capacity i arena
        ((s.describe arena a).setNextFree source arena head)

/-- `arnm_fixed_arena_pool_init` -/
def init (st : State σ) (arenaCapacity arenaCount : Nat) : Result × State σ :=
  if arenaCapacity = 0 ∨ arenaCount = 0 then (.errorInvalidParam, st)
  else if align8U32 arenaCapacity = 0 then (.errorArithmeticOverflow, st)
  else
    match calculateTotalReservedMemorySize arenaCount (align8U32 arenaCapacity) with
    | .error result => (result, st)
    | .ok total =>
      let block := source.alloc 0 total st.store.heap
      let store := { st.store with heap := block.state }
      if block.result ≠ .success then (block.result, { st with store := store })
      else
        let strung := stringArenas source block.buffer (block.buffer + buffersOffset arenaCount)
          (align8U32 arenaCapacity) arenaCount 0 store
        if strung.1 ≠ .success then
          -- the block goes straight back
          let freed := source.free block.buffer total strung.2.2.heap
          (strung.1, { st with store := { strung.2.2 with heap := freed.2 } })
        else
          (.success,
            { pool :=
                { arenas := block.buffer
                  freeHead := strung.2.1
                  arenaCapacity := align8U32 arenaCapacity
                  arenaCount := arenaCount
                  acquiredCount := 0 }
              store := strung.2.2 })

/-- `arnm_fixed_arena_pool_release` -/
def release (st : State σ) : Result × State σ :=
  if st.pool.acquiredCount ≠ 0 then (.errorResourceInUse, st)
  else if st.pool.arenas = 0 then (.success, { st with pool := forgetEverything })
  else
    match calculateTotalReservedMemorySize st.pool.arenaCount st.pool.arenaCapacity with
    | .error _ => (.errorInvalidState, st)
    | .ok total =>
      let freed := source.free st.pool.arenas total st.store.heap
      (freed.1, { pool := forgetEverything, store := { st.store with heap := freed.2 } })

/-- `arnm_fixed_arena_pool_alloc`, with the arena it hands over. -/
def alloc (st : State σ) (out : Bool) : Result × Nat × State σ :=
  if out = false then (.errorNullPointer, 0, st)
  else if st.pool.arenas = 0 then (.errorNotInitialized, 0, st)
  else if st.pool.freeHead = 0 then (.errorResourceExhausted, 0, st)
  else
    let arena := st.pool.freeHead
    (.success, arena,
      { st with pool := { st.pool with
          freeHead := st.store.nextFree source arena
          acquiredCount := (st.pool.acquiredCount + 1) % 2 ^ 16 } })

/-- `arnm_fixed_arena_pool_free` -/
def free (st : State σ) (arena : Nat) : Result × State σ :=
  if arena = 0 then (.errorNullPointer, st)
  else if st.pool.arenas = 0 then (.errorNotInitialized, st)
  else if st.pool.belongsTo arena = false then (.errorInvalidParam, st)
  else if st.pool.acquiredCount = 0 then (.errorInvalidState, st)
  else
    (.success,
      { pool := { st.pool with
          freeHead := arena
          acquiredCount := st.pool.acquiredCount - 1 }
        store := (st.store.reset arena).setNextFree source arena st.pool.freeHead })

end Source

/-! ## The layout -/

/-- Where the buffer of the arena at an address of the block lies. -/
def bufferOf (block arenaCount capacity : Nat) (arena : Nat) : Nat :=
  block + buffersOffset arenaCount + (arena - block) / descriptorSize * capacity

/-- The arena with a number. -/
def slotOf (block i : Nat) : Nat := block + i * descriptorSize

theorem bufferOf_slotOf (block arenaCount capacity i : Nat) :
    bufferOf block arenaCount capacity (slotOf block i) =
      block + buffersOffset arenaCount + i * capacity := by
  unfold bufferOf slotOf descriptorSize
  rw [Nat.add_sub_cancel_left, Nat.mul_div_cancel _ (by decide)]

theorem slotOf_injective (block : Nat) : Function.Injective (slotOf block) := by
  intro i j hij
  unfold slotOf descriptorSize at hij
  omega

/-- What the 32-bit check lets pass fits, and the size is the exact one. -/
theorem calculateTotal_ok {arenaCount capacity total : Nat} (hpos : 0 < arenaCount)
    (hcount : arenaCount < 2 ^ 16)
    (h : calculateTotalReservedMemorySize arenaCount capacity = .ok total) :
    total = buffersOffset arenaCount + arenaCount * capacity ∧ total ≤ maxAllocSize := by
  unfold calculateTotalReservedMemorySize at h
  dsimp only at h
  split at h
  · cases h
  · rename_i hfits
    have hsmall : descriptorSize * arenaCount < 2 ^ 32 := by
      unfold descriptorSize
      omega
    rw [Nat.mod_eq_of_lt hsmall, Nat.not_lt, Nat.le_div_iff_mul_le hpos] at hfits
    have hsum : (descriptorSize + capacity) * arenaCount ≤ maxAllocSize := by
      rw [Nat.add_mul]
      unfold descriptorSize maxAllocSize at *
      omega
    have hone : descriptorSize + capacity ≤ (descriptorSize + capacity) * arenaCount :=
      Nat.le_mul_of_pos_right _ hpos
    have htotal : (descriptorSize + capacity) * arenaCount < 2 ^ 32 := by
      calc (descriptorSize + capacity) * arenaCount ≤ maxAllocSize := hsum
        _ < 2 ^ 32 := by decide
    rw [Nat.mod_eq_of_lt (Nat.lt_of_le_of_lt hone htotal), Nat.mod_eq_of_lt htotal] at h
    cases h
    refine ⟨?_, hsum⟩
    rw [Nat.add_mul, buffersOffset, Nat.mul_comm descriptorSize, Nat.mul_comm capacity]

theorem calculateTotal_error {arenaCount capacity : Nat} {result : Result}
    (h : calculateTotalReservedMemorySize arenaCount capacity = .error result) :
    result = .errorArithmeticOverflow := by
  unfold calculateTotalReservedMemorySize at h
  dsimp only at h
  split at h
  · cases h
    rfl
  · cases h

/-- And what fits passes the check again. -/
theorem calculateTotal_of_fits {arenaCount capacity : Nat} (hpos : 0 < arenaCount)
    (hcount : arenaCount < 2 ^ 16)
    (hfits : buffersOffset arenaCount + arenaCount * capacity ≤ maxAllocSize) :
    calculateTotalReservedMemorySize arenaCount capacity =
      .ok (buffersOffset arenaCount + arenaCount * capacity) := by
  have hsmall : descriptorSize * arenaCount < 2 ^ 32 := by
    unfold descriptorSize
    omega
  have hpass : ¬ (maxAllocSize - descriptorSize * arenaCount % 2 ^ 32) / arenaCount < capacity := by
    rw [Nat.mod_eq_of_lt hsmall, Nat.not_lt, Nat.le_div_iff_mul_le hpos, Nat.mul_comm capacity]
    unfold buffersOffset at hfits
    rw [Nat.mul_comm arenaCount descriptorSize] at hfits
    omega
  have hok : calculateTotalReservedMemorySize arenaCount capacity =
      .ok ((descriptorSize + capacity) % 2 ^ 32 * arenaCount % 2 ^ 32) := if_neg hpass
  rw [hok, (calculateTotal_ok hpos hcount hok).1]

/-! ## Init -/

variable {σ : Type} {p : Provider σ}

theorem initArenaBorrow_error {data capacity : Nat} {result : Result}
    (h : initArenaBorrow data capacity = .error result) : result.isError = true := by
  unfold initArenaBorrow at h
  split at h
  · cases h
    rfl
  split at h
  · cases h
    rfl
  split at h
  · cases h
    rfl
  split at h
  · cases h
    rfl
  · cases h

/-- The loop strings the arenas up from the last to the first. -/
theorem stringArenas_lends {block arenaCount capacity : Nat} (hne : block ≠ 0)
    (hstop : block + buffersOffset arenaCount ≤ 2 ^ 64)
    {i head : Nat} {s : Store σ} (hi : i ≤ arenaCount)
    (h : Lends p s (bufferOf block arenaCount capacity) capacity head []
      ((List.range' i (arenaCount - i)).map (slotOf block)))
    (hok : (stringArenas p.toCalls block (block + buffersOffset arenaCount) capacity i head s).1 =
      .success) :
    let r := stringArenas p.toCalls block (block + buffersOffset arenaCount) capacity i head s
    Lends p r.2.2 (bufferOf block arenaCount capacity) capacity r.2.1 []
        ((List.range arenaCount).map (slotOf block)) ∧
      ∀ blocks, p.holds s.heap blocks → p.holds r.2.2.heap blocks := by
  induction i generalizing head s with
  | zero =>
      rw [Nat.sub_zero, ← List.range_eq_range'] at h
      exact ⟨h, fun _ hheld => hheld⟩
  | succ i ih =>
      rw [stringArenas] at hok ⊢
      dsimp only at hok ⊢
      cases hinit : initArenaBorrow (block + buffersOffset arenaCount + i * capacity) capacity with
      | error result =>
          rw [hinit] at hok
          exact absurd hok (Result.ne_success_of_isError (initArenaBorrow_error hinit))
      | ok a =>
          rw [hinit] at hok
          have hslot := bufferOf_slotOf block arenaCount capacity i
          have ha : a = fresh (bufferOf block arenaCount capacity (slotOf block i)) capacity := by
            rw [hslot]
            exact initArenaBorrow_ok hinit
          -- the arenas strung up so far are behind this one
          have hother : ∀ b ∈ (List.range' (i + 1) (arenaCount - (i + 1))).map (slotOf block),
              ∃ j, i < j ∧ b = slotOf block j := by
            intro b hb
            obtain ⟨j, hj, rfl⟩ := List.mem_map.mp hb
            exact ⟨j, (List.mem_range'_1.mp hj).1, rfl⟩
          have hdesc : Lends p (s.describe (slotOf block i) a)
              (bufferOf block arenaCount capacity) capacity head []
              ((List.range' (i + 1) (arenaCount - (i + 1))).map (slotOf block)) := by
            have hkeep : ∀ b ∈ (List.range' (i + 1) (arenaCount - (i + 1))).map (slotOf block),
                (s.describe (slotOf block i) a).descriptors b = s.descriptors b := by
              intro b hb
              obtain ⟨j, hj, rfl⟩ := hother b hb
              exact Store.describe_other _ _ fun heq =>
                absurd (slotOf_injective block heq) (Nat.ne_of_gt hj)
            exact
              { h with
                out := fun b hb => absurd hb List.not_mem_nil
                empty := fun b hb => (hkeep b hb).trans (h.empty b hb)
                linked := h.linked_congr hkeep fun _ _ => Bytes.AgreeOn.refl _ _ }
          have hlink := hdesc.link_free (slotOf block i)
            (by rw [Store.describe_same]; exact ha)
            (Nat.ne_of_gt (Nat.add_pos_left (Nat.pos_of_ne_zero hne) _)) (by
              unfold slotOf
              unfold buffersOffset at hstop
              have hmul := Nat.mul_le_mul_right descriptorSize hi
              rw [Nat.succ_mul] at hmul
              unfold descriptorSize at *
              omega) fun b hb => by
              obtain ⟨j, hj, rfl⟩ := hother b hb
              rw [hslot, bufferOf_slotOf]
              exact Region.apart_slots _ _ (Nat.ne_of_lt hj)
          have hrange : slotOf block i ::
              (List.range' (i + 1) (arenaCount - (i + 1))).map (slotOf block) =
              (List.range' i (arenaCount - i)).map (slotOf block) := by
            rw [show arenaCount - i = (arenaCount - (i + 1)) + 1 by omega, List.range'_succ,
              List.map_cons]
          rw [hrange] at hlink
          obtain ⟨hlends, hholds⟩ := ih (Nat.le_of_succ_le hi) hlink hok
          exact ⟨hlends, fun blocks hheld => hholds blocks (p.lawful.holds_write _ hheld)⟩

end Arnm.ArenaPool.Fixed
