import Arnm.Memory.Lifo
import Arnm.Vector.Held

set_option autoImplicit false

/-! # A vector that gives all its memory back

A vector that took its memory with one reserve has its index array below its buckets, and the
buckets one above the other. As long as it only uses what it holds, `arnm_bvec_free` frees these
blocks newest first, and the arenas are as they were before the reserve. -/

namespace Arnm.Vector

open Memory

variable {world : World} {st st' : State (Heap × Nat)} {items : List (List UInt8)} {n : Nat}
  {others : List Block} {before : List Arena}

/-- The arenas the vector has its blocks in. -/
def State.arenas (st : State (Heap × Nat)) : List Arena := st.heap.1.memory.arenas

/-- The blocks of the first `n` buckets, newest first, and that of the index array. -/
def BucketVector.newestFirst (v : BucketVector) (m : Bytes) (n : Nat) : List Block :=
  (v.bucketBlocks m (List.range n)).reverse ++ v.indexBlock

theorem BucketVector.newestFirst_succ (v : BucketVector) (m : Bytes) (n : Nat) :
    v.newestFirst m (n + 1) = v.bucketBlock (v.slot m n) :: v.newestFirst m n := by
  rw [newestFirst, bucketBlocks, List.range_succ, List.map_append, List.reverse_append]
  rfl

/-- Freed newest first, the vector's blocks leave the arenas as they were before. -/
def Stacked (world : World) (before : List Arena) (st : State (Heap × Nat)) (n : Nat) : Prop :=
  Undoes before (st.vector.newestFirst (st.mem (Provider.ofArena world)) n) st.arenas

/-! ## Taking the memory -/

/-- The index array of a vector that had none. -/
theorem growIndex_stacked (hnull : st.vector.buckets = 0) (hcap : st.vector.bucketCapacity = 0)
    {needed : Nat} (hneeded : needed ≠ 0)
    (hok : (growIndex (Provider.ofArena world).toCalls st needed).1 = .success)
    (hne : (growIndex (Provider.ofArena world).toCalls st needed).2.vector.buckets ≠ 0) :
    Stacked world st.arenas (growIndex (Provider.ofArena world).toCalls st needed).2 0 := by
  have hsize : indexBytes needed ≠ 0 := Nat.mul_ne_zero hneeded (by decide)
  unfold Stacked BucketVector.newestFirst
  rw [BucketVector.indexBlock_of_ne hne]
  unfold growIndex at hok ⊢
  simp only [hnull, hcap] at hok ⊢
  unfold State.arenas
  simp only [Provider.ofArena, callsOfArena, show indexBytes 0 = 0 from rfl] at hok ⊢
  by_cases hover : align8U32 (indexBytes needed) = 0
  · have hrefused : realloc (world.host st.heap.2 st.heap.1) 0 0 (indexBytes needed) st.heap.1 =
        ⟨.errorArithmeticOverflow, 0, st.heap.1⟩ := if_pos (Or.inl ⟨hsize, hover⟩)
    rw [hrefused] at hok
    cases hok
  · rw [realloc_null_eq _ _ hover, reallocBuried, if_pos (Nat.pos_of_ne_zero hover)] at hok ⊢
    by_cases hgot : (alloc (world.host st.heap.2 st.heap.1) 0 (align8U32 (indexBytes needed))
        st.heap.1.memory).result = .success
    · simp only [if_pos hgot]
      exact (Undoes.nil _).granted hgot (align8U32_align8U32 _).symm
    · simp only [if_neg hgot] at hok
      rcases alloc_cases (world.host st.heap.2 st.heap.1) 0 (align8U32 (indexBytes needed))
        st.heap.1.memory with ⟨herr, -⟩ | ⟨-, hyes, -⟩ | ⟨-, hyes, -⟩
      · rw [if_pos ⟨hgot, fun hwarn => by rw [hwarn] at herr; cases herr⟩] at hok
        exact absurd hok hgot
      · exact absurd hyes hgot
      · exact absurd hyes hgot

/-- What a bucket that was added leaves. -/
theorem addBucket_eq {σ : Type} {allocator : Calls σ} {st : State σ} {n : Nat}
    (hok : (addBucket allocator st n).1 = .success) :
    let bucket := allocator.alloc 0 st.vector.bucketBytes st.heap
    bucket.result = .success ∧ (addBucket allocator st n).2 =
      ⟨{ st.vector with allocatedCount := n + 1 },
        (putSlot allocator { st with heap := bucket.state } n bucket.buffer).heap⟩ := by
  intro bucket
  have hgot : bucket.result = .success := by
    unfold addBucket at hok
    by_contra hne
    rw [if_pos hne] at hok
    exact hne hok
  exact ⟨hgot, congrArg Prod.snd (if_neg (not_not_intro hgot))⟩

/-- A further bucket lies on top of the others. -/
theorem addBucket_stacked (h : Holding (Provider.ofArena world) st (List.range n) others)
    (hstack : Stacked world before st n)
    (hok : (addBucket (Provider.ofArena world).toCalls st n).1 = .success) :
    Stacked world before (addBucket (Provider.ofArena world).toCalls st n).2 (n + 1) := by
  obtain ⟨hgot, hst⟩ := addBucket_eq hok
  have hroom :
      ((Provider.ofArena world).toCalls.alloc 0 st.vector.bucketBytes st.heap).buffer < 2 ^ 64 := by
    rcases (Provider.ofArena world).lawful.alloc 0 st.vector.bucketBytes h.held with
      ⟨herr, -⟩ | ⟨-, hheld, -⟩
    · exact absurd hgot (Result.ne_success_of_isError herr)
    · have hlast := (Provider.ofArena world).lawful.room hheld _ List.mem_cons_self
      exact Nat.lt_of_lt_of_le (Nat.lt_add_of_pos_right hlast.2.1) hlast.2.2
  -- the slot of the bucket has its address, and the others are as they were
  have hslot := fun i => @slot_putSlot _ (Provider.ofArena world) st n i _ hroom
  have hnew := hslot n
  rw [if_pos rfl] at hnew
  have hblocks := BucketVector.bucketBlocks_congr fun i (hi : i ∈ List.range n) =>
    (hslot i).trans (if_neg (Nat.ne_of_lt (List.mem_range.mp hi)))
  have hbefore : Undoes before (st.vector.newestFirst (st.mem (Provider.ofArena world)) n)
      st.heap.1.memory.arenas := hstack
  have hok' : (alloc (world.host st.heap.2 st.heap.1) 0 st.vector.bucketBytes
      st.heap.1.memory).result = .success := hgot
  have hundoes := hbefore.granted hok' (rfl : align8U32 st.vector.bucketBytes = _)
  have hmem : (addBucket (Provider.ofArena world).toCalls st n).2.mem (Provider.ofArena world) =
      (st.mem (Provider.ofArena world)).putWord (st.vector.buckets + n * 8)
        ((Provider.ofArena world).toCalls.alloc 0 st.vector.bucketBytes st.heap).buffer := by
    rw [hst]
    exact mem_putSlot _ _ _
  have harenas : (addBucket (Provider.ofArena world).toCalls st n).2.arenas =
      (alloc (world.host st.heap.2 st.heap.1) 0 st.vector.bucketBytes
        st.heap.1.memory).state.arenas := by
    rw [hst]
    rfl
  rw [BucketVector.newestFirst, ← hblocks] at hundoes
  rw [Stacked, BucketVector.newestFirst_succ, hmem, harenas, hst]
  have hfirst : BucketVector.bucketBlock { st.vector with allocatedCount := n + 1 }
      (BucketVector.slot { st.vector with allocatedCount := n + 1 } _ n) =
        ⟨_, st.vector.bucketBytes⟩ := congrArg (Block.mk · st.vector.bucketBytes) hnew
  rw [hfirst]
  exact hundoes

/-- The loop of a reserve. -/
theorem addBuckets_stacked (k : Nat) (h : Holding (Provider.ofArena world) st (List.range n) others)
    (hn : n + k ≤ st.vector.bucketCapacity) (hstack : Stacked world before st n)
    (hok : (addBuckets (Provider.ofArena world).toCalls k n st).1 = .success) :
    Stacked world before (addBuckets (Provider.ofArena world).toCalls k n st).2 (n + k) := by
  induction k generalizing n st with
  | zero => exact hstack
  | succ k ih =>
      rw [addBuckets_succ] at hok ⊢
      have hone : (addBucket (Provider.ofArena world).toCalls st n).1 = .success := by
        by_contra hne
        rw [if_neg hne] at hok
        exact hne hok
      rw [if_pos hone] at hok ⊢
      have hnext := addBucket_stacked h hstack hone
      obtain ⟨-, ⟨herr, -⟩ | ⟨-, hvec, hhold⟩⟩ :=
        h.addBucket (show n < st.vector.bucketCapacity by omega)
      · exact absurd hone (Result.ne_success_of_isError herr)
      · have hcap : (addBucket (Provider.ofArena world).toCalls st n).2.vector.bucketCapacity =
            st.vector.bucketCapacity := (congrArg BucketVector.bucketCapacity hvec).trans rfl
        rw [show n + (k + 1) = n + 1 + k by omega]
        exact ih hhold (by omega) hnext hok

/-- A vector that holds nothing takes its memory with one reserve. -/
theorem reserve_stacked (h : Sound (Provider.ofArena world) st items others)
    (hnull : st.vector.buckets = 0) {elementCount : Nat}
    (hok : (reserve (Provider.ofArena world).toCalls st elementCount).1 = .success) :
    Stacked world st.arenas (reserve (Provider.ofArena world).toCalls st elementCount).2
      (reserve (Provider.ofArena world).toCalls st elementCount).2.vector.allocatedCount := by
  obtain ⟨hcap, hcount, -⟩ := h.null hnull
  have hvalid := h.isStateValid
  have hallocated := h.bucketCountAllocated
  have hneeded := le_needed h.params elementCount
  rw [hcount] at hallocated
  unfold reserve at hok ⊢
  dsimp only at hok ⊢
  by_cases hzero : elementCount = 0
  · rw [if_pos hzero] at hok
    cases hok
  rw [if_neg hzero, if_neg (by rw [hvalid]; decide)] at hok ⊢
  by_cases hlimit : (2 ^ 32 - 1 - st.vector.bucketMask) / st.vector.elementSize < elementCount
  · rw [if_pos hlimit] at hok
    cases hok
  rw [if_neg hlimit] at hok ⊢
  generalize (elementCount + st.vector.bucketMask) >>> st.vector.bucketCapacityMaxLog2 = needed
    at hok hneeded ⊢
  by_cases hmax : maxIndexCapacity < needed
  · rw [if_pos hmax] at hok
    cases hok
  have hpos : needed ≠ 0 := by
    rintro rfl
    rw [Nat.zero_mul] at hneeded
    omega
  rw [if_neg hmax, hallocated, if_neg (by omega), if_pos (by omega)] at hok ⊢
  rw [Nat.sub_zero] at hok ⊢
  have hgrow :
      Holding (Provider.ofArena world) (growIndex (Provider.ofArena world).toCalls st needed).2
      (List.range st.vector.allocatedCount) others ∧ _ ∧ _ :=
    h.holding.growIndex (by omega) (Nat.not_lt.mp hmax)
  have hbase := @growIndex_stacked world st hnull hcap needed hpos
  rw [hcount] at hgrow
  obtain ⟨hhold, -, hcase⟩ := hgrow
  generalize growIndex (Provider.ofArena world).toCalls st needed = r at hok hhold hcase hbase ⊢
  obtain ⟨result, st₁⟩ := r
  rcases hcase with ⟨herr, -, -⟩ | ⟨hgood, hvec⟩
  · cases result <;> first | (cases herr; done) | exact Result.noConfusion hok
  · dsimp only at hgood hvec hhold hbase hok ⊢
    rw [hgood] at hok ⊢
    have hcap₁ : st₁.vector.bucketCapacity = needed := congrArg BucketVector.bucketCapacity hvec
    have hcount₁ : st₁.vector.allocatedCount = 0 :=
      (congrArg BucketVector.allocatedCount hvec).trans hcount
    have hne := hhold.buckets_ne (show 0 < st₁.vector.bucketCapacity by omega)
    have hall := addBuckets_stacked needed hhold (by omega) (hbase hgood hne) hok
    rw [addBuckets_counts (Provider.ofArena world).toCalls hcount₁ hok]
    exact hall

/-! ## Using what is held -/

/-- The vector has the blocks it had, and the allocator is as it was but for the bytes. -/
structure Idle (world : World) (st st' : State (Heap × Nat)) : Prop where
  buckets : st'.vector.buckets = st.vector.buckets
  bucketCapacity : st'.vector.bucketCapacity = st.vector.bucketCapacity
  elementSize : st'.vector.elementSize = st.vector.elementSize
  log2 : st'.vector.bucketCapacityMaxLog2 = st.vector.bucketCapacityMaxLog2
  allocatedCount : st'.vector.allocatedCount = st.vector.allocatedCount
  memory : st'.heap.1.memory = st.heap.1.memory
  slot : ∀ i < st.vector.allocatedCount, st'.vector.slot (st'.mem (Provider.ofArena world)) i =
    st.vector.slot (st.mem (Provider.ofArena world)) i

namespace Idle

theorem refl (world : World) (st : State (Heap × Nat)) : Idle world st st :=
  ⟨rfl, rfl, rfl, rfl, rfl, rfl, fun _ _ => rfl⟩

theorem trans {st'' : State (Heap × Nat)} (h : Idle world st st') (h' : Idle world st' st'') :
    Idle world st st'' where
  buckets := h'.buckets.trans h.buckets
  bucketCapacity := h'.bucketCapacity.trans h.bucketCapacity
  elementSize := h'.elementSize.trans h.elementSize
  log2 := h'.log2.trans h.log2
  allocatedCount := h'.allocatedCount.trans h.allocatedCount
  memory := h'.memory.trans h.memory
  slot i hi := (h'.slot i (h.allocatedCount ▸ hi)).trans (h.slot i hi)

/-- Bytes written at the place of an element. -/
theorem put {j : Nat} (hsound : Sound (Provider.ofArena world) st items others)
    (hj : j < items.length) {values : List UInt8} (hlen : values.length = st.vector.elementSize) :
    Idle world st { st with
      heap := (Provider.ofArena world).write ((st.mem (Provider.ofArena world)).put
        (st.vector.place (st.mem (Provider.ofArena world)) j) values) st.heap } := by
  refine ⟨rfl, rfl, rfl, rfl, rfl, rfl, fun i hi => ?_⟩
  apply hsound.holding.slot_of_keeps (hsound.holding.put_index (hsound.bucket_lt hj) hlen)
  exact Nat.lt_of_lt_of_le hi hsound.allocated_le

theorem stacked (h : Idle world st st')
    (hstack : Stacked world before st st.vector.allocatedCount) :
    Stacked world before st' st'.vector.allocatedCount := by
  have hblocks :
      st'.vector.newestFirst (st'.mem (Provider.ofArena world)) st'.vector.allocatedCount =
      st.vector.newestFirst (st.mem (Provider.ofArena world)) st.vector.allocatedCount := by
    have hbytes : st'.vector.bucketBytes = st.vector.bucketBytes := by
      rw [BucketVector.bucketBytes, BucketVector.bucketBytes, h.elementSize, h.log2]
    have hindex : st'.vector.indexBlock = st.vector.indexBlock := by
      rw [BucketVector.indexBlock, BucketVector.indexBlock, h.buckets, h.bucketCapacity]
    have hbuckets : st'.vector.bucketBlocks (st'.mem (Provider.ofArena world))
        (List.range st.vector.allocatedCount) = st.vector.bucketBlocks
          (st.mem (Provider.ofArena world)) (List.range st.vector.allocatedCount) := by
      refine List.map_congr_left fun i hi => ?_
      rw [BucketVector.bucketBlock, BucketVector.bucketBlock,
        h.slot i (List.mem_range.mp hi), hbytes]
    rw [BucketVector.newestFirst, BucketVector.newestFirst, hindex, h.allocatedCount, hbuckets]
  unfold Stacked State.arenas
  rw [hblocks, h.memory]
  exact hstack

end Idle

/-- A call that has what it needs: elements are added only up to the held capacity. -/
def Call.Within (st : State (Heap × Nat)) : Call → Prop
  | .emplace outSlot => outSlot = true → st.vector.size < st.vector.heldCapacity
  | .pushPtr value => value ≠ none → st.vector.size < st.vector.heldCapacity
  | .pop | .clear | .fill _ _ => True
  | .init _ _ _ | .reserve _ | .shrink | .free => False

/-- Every call of a run has what it needs. -/
def WithinHeld (allocator : Calls (Heap × Nat)) : List Call → State (Heap × Nat) → Prop
  | [], _ => True
  | c :: calls, st => c.Within st ∧ WithinHeld allocator calls (st.call allocator c).2

theorem emplace_idle (h : Sound (Provider.ofArena world) st items others)
    (hlt : st.vector.size < st.vector.heldCapacity) :
    Idle world st (emplace (Provider.ofArena world).toCalls st true).2.2 := by
  rw [h.filled.size] at hlt
  unfold emplace
  dsimp only
  rw [if_neg (by decide)]
  by_cases hroom : st.vector.tail ≠ 0 ∧ st.vector.tailUsed < st.vector.perBucket
  · rw [if_pos hroom]
    exact ⟨rfl, rfl, rfl, rfl, rfl, rfl, fun _ _ => rfl⟩
  · rw [if_neg hroom, h.grow_held hroom hlt]
    exact ⟨rfl, rfl, rfl, rfl, rfl, rfl, fun _ _ => rfl⟩

theorem pushPtr_idle (h : Sound (Provider.ofArena world) st items others) (value : Nat → UInt8)
    (hlt : st.vector.size < st.vector.heldCapacity) :
    Idle world st (pushPtr (Provider.ofArena world).toCalls st (some value)).2 := by
  have hidle := emplace_idle h hlt
  obtain ⟨-, hcase⟩ := h.emplace
  rw [pushPtr_eq]
  dsimp only
  rcases hcase with ⟨herr, -⟩ | ⟨hok, hslot, hsound⟩
  · rw [if_pos (Result.ne_success_of_isError herr)]
    exact hidle
  · rw [if_neg (not_not_intro hok)]
    refine hidle.trans ?_
    rw [hslot]
    exact Idle.put hsound (by simp) (by simp [BucketVector.element])

/-- A call that has what it needs asks the allocator for nothing. -/
theorem Call.Within.idle {c : Call} (h : Sound (Provider.ofArena world) st items others)
    (hc : c.Within st) : Idle world st (st.call (Provider.ofArena world).toCalls c).2 := by
  have hcounters : ∀ tail tailIndex tailUsed size, Idle world st { st with
      vector := { st.vector with
        tail := tail, tailIndex := tailIndex, tailUsed := tailUsed, size := size } } :=
    fun _ _ _ _ => ⟨rfl, rfl, rfl, rfl, rfl, rfl, fun _ _ => rfl⟩
  cases c with
  | init bucketCapacityLog2 indexGrowStepSize elementSize => exact hc.elim
  | reserve elementCount => exact hc.elim
  | shrink => exact hc.elim
  | free => exact hc.elim
  | clear => exact hcounters _ _ _ _
  | emplace outSlot =>
      cases outSlot with
      | false => exact Idle.refl world st
      | true => exact emplace_idle h (hc rfl)
  | pushPtr value =>
      cases value with
      | none => exact Idle.refl world st
      | some value => exact pushPtr_idle h value (hc (Option.some_ne_none value))
  | pop =>
      simp only [State.call, Vector.pop]
      split
      · exact Idle.refl world st
      · split
        · split
          · exact hcounters _ _ _ _
          · exact hcounters _ _ _ _
        · exact hcounters _ _ _ _
  | fill index value =>
      simp only [State.call, Vector.fill]
      split
      · rename_i hlt
        rw [h.filled.size] at hlt
        have hlen : (st.vector.element value).length = st.vector.elementSize := by
          simp [BucketVector.element]
        have hidle := Idle.put h hlt hlen
        rw [← h.get_eq_place hlt] at hidle
        exact hidle
      · exact Idle.refl world st

/-- So does a run of such calls. -/
theorem WithinHeld.idle {q : Elements} (h : Represents (Provider.ofArena world) st q)
    {calls : List Call} (hcalls : WithinHeld (Provider.ofArena world).toCalls calls st) :
    Idle world st (st.run (Provider.ofArena world).toCalls calls).2 ∧
      ∃ q', Represents (Provider.ofArena world)
        (st.run (Provider.ofArena world).toCalls calls).2 q' := by
  induction calls generalizing st q with
  | nil => exact ⟨Idle.refl world st, q, h⟩
  | cons c calls ih =>
      obtain ⟨hone, hrest⟩ := hcalls
      obtain ⟨-, others, hsound⟩ := id h
      obtain ⟨q', -, hnext⟩ := h.call c
      obtain ⟨hlater, hend⟩ := ih hnext hrest
      exact ⟨(hone.idle hsound).trans hlater, hend⟩

/-! ## Giving it back -/

/-- The loop of `arnm_bvec_free` frees the blocks of the buckets one after the other. -/
theorem freeBuckets_freeAll (places : List Nat)
    (hne : ∀ i ∈ places, st.vector.slot (st.mem (Provider.ofArena world)) i ≠ 0)
    (rest : List Block) :
    let r := freeBuckets (Provider.ofArena world).toCalls places st
    r.vector = st.vector ∧
      (freeAll rest r.heap.1.memory).2 =
        (freeAll (st.vector.bucketBlocks (st.mem (Provider.ofArena world)) places ++ rest)
          st.heap.1.memory).2 := by
  induction places generalizing st with
  | nil => exact ⟨rfl, rfl⟩
  | cons i places ih =>
      intro r
      have hr : r = freeBuckets (Provider.ofArena world).toCalls (i :: places) st := rfl
      have hfirst : ¬ st.vector.slot ((Provider.ofArena world).bytes st.heap) i = 0 :=
        hne i List.mem_cons_self
      rw [freeBuckets, if_neg hfirst] at hr
      obtain ⟨hvec, hall⟩ := @ih ⟨st.vector, ((Provider.ofArena world).free
        (st.vector.slot (st.mem (Provider.ofArena world)) i) st.vector.bucketBytes st.heap).2⟩
        fun j hj => hne j (List.mem_cons_of_mem _ hj)
      rw [hr]
      exact ⟨hvec, hall⟩

/-- A vector whose blocks are stacked gives everything back. -/
theorem Stacked.free (hstack : Stacked world before st st.vector.allocatedCount)
    (h : Sound (Provider.ofArena world) st items others) (hne : st.vector.buckets ≠ 0) :
    Restored before (Vector.free (Provider.ofArena world).toCalls st).arenas := by
  have hslots : ∀ i ∈ (List.range st.vector.allocatedCount).reverse,
      st.vector.slot (st.mem (Provider.ofArena world)) i ≠ 0 :=
    fun i hi => h.holding.slot_ne (List.mem_reverse.mp hi)
  obtain ⟨-, hall⟩ := freeBuckets_freeAll (List.range st.vector.allocatedCount).reverse hslots
    [⟨st.vector.buckets, indexBytes st.vector.bucketCapacity⟩]
  have happart : Apart st.heap.1.memory.arenas := Memory.Sound.apart h.holding.held
  obtain ⟨-, hback⟩ := hstack st.heap.1.memory happart (.refl _)
  rw [BucketVector.newestFirst, BucketVector.indexBlock_of_ne hne, BucketVector.bucketBlocks,
    ← List.map_reverse, ← BucketVector.bucketBlocks, ← hall] at hback
  unfold Vector.free
  have helem := h.params.element_pos
  rw [if_neg (by omega), h.bucketCountAllocated]
  exact hback

/-- Blocks that are freed newest first are taken back and leave every arena as it was, in whatever
arenas they lie; and so are those of a vector that took its memory with one reserve and used no
more. -/
theorem newestFirst_given_back :
    (∀ (memory : Allocator) (requests : List (Host × Nat)), Apart memory.arenas →
      FreshAlong requests memory →
      let r := allocAll requests [] memory
      let back := freeAll r.1 r.2
      (∀ result ∈ back.1, result = .success) ∧ Restored memory.arenas back.2.arenas) ∧
    ∀ (world : World) (v : BucketVector) (bucketCapacityLog2 indexGrowStepSize elementSize : Nat)
      (s : Heap × Nat) (others : List Block) (elementCount : Nat) (calls : List Call),
      (Provider.ofArena world).holds s others →
      (init v bucketCapacityLog2 indexGrowStepSize elementSize).1 = .success →
      let allocator := (Provider.ofArena world).toCalls
      let reserved := reserve allocator
        ⟨(init v bucketCapacityLog2 indexGrowStepSize elementSize).2, s⟩ elementCount
      reserved.1 = .success → WithinHeld allocator calls reserved.2 →
      Restored s.1.memory.arenas
        (Vector.free allocator (reserved.2.run allocator calls).2).arenas := by
  refine ⟨fun memory requests happart hfresh => freeAll_allocAll happart hfresh, ?_⟩
  intro world v bucketCapacityLog2 indexGrowStepSize elementSize s others elementCount
    calls hheld hinit
    allocator reserved hok hcalls
  obtain ⟨hsound, helem⟩ := init_sound hheld hinit
  have hnull : (init v bucketCapacityLog2 indexGrowStepSize elementSize).2.buckets = 0 := by
    unfold init at hinit ⊢
    split
    · rename_i hparam
      rw [if_pos hparam] at hinit
      cases hinit
    · rfl
  have hstack : Stacked world s.1.memory.arenas reserved.2 reserved.2.vector.allocatedCount :=
    reserve_stacked hsound hnull hok
  have hreserved : Represents (Provider.ofArena world) reserved.2 (.empty elementSize) := by
    obtain ⟨-, hsound', hstay⟩ := hsound.reserve elementCount
    exact ⟨hstay.elementSize.trans helem, others, hsound'⟩
  obtain ⟨hidle, q, -, others', hend⟩ := WithinHeld.idle hreserved hcalls
  have hstack' := hidle.stacked hstack
  by_cases hz : (reserved.2.run allocator calls).2.vector.buckets = 0
  · -- without an index array there is nothing to give back
    have hsame : Vector.free allocator (reserved.2.run allocator calls).2 =
        (reserved.2.run allocator calls).2 := if_pos (Or.inl hz)
    obtain ⟨-, hcount, -⟩ := hend.null hz
    have happart : Apart (reserved.2.run allocator calls).2.heap.1.memory.arenas :=
      Memory.Sound.apart hend.holding.held
    obtain ⟨-, hback⟩ := hstack' _ happart (.refl _)
    rw [hcount, BucketVector.newestFirst, BucketVector.indexBlock, if_pos hz] at hback
    rw [hsame]
    exact hback
  · exact hstack'.free hend hz

/-- A request of 900 bytes, one of 200 that the first arena has no room for, and one of 40 that goes
back to it. -/
def sampleRequests : List (Host × Nat) :=
  [(Host.answering 4096, 900), (Host.answering 8192, 200), (Host.answering 0, 40)]

theorem newestFirst_given_back_sample :
    (allocAll sampleRequests [] (.multiArena ⟨[], 1024, 0, 64, 0⟩)).1 =
        [⟨4096 + 904, 40⟩, ⟨8192, 200⟩, ⟨4096, 900⟩] ∧
    (∀ result ∈ (freeAll (allocAll sampleRequests [] (.multiArena ⟨[], 1024, 0, 64, 0⟩)).1
        (allocAll sampleRequests [] (.multiArena ⟨[], 1024, 0, 64, 0⟩)).2).1, result = .success) ∧
    Restored (lentArena 48).memory.arenas (Vector.free (Provider.ofArena noHost).toCalls
      ((reserve (Provider.ofArena noHost).toCalls sampleVector 4).2.run
        (Provider.ofArena noHost).toCalls
          [.pushPtr (some fun _ => 1), .pop, .emplace true]).2).arenas := by
  have hfresh : FreshAlong sampleRequests (.multiArena ⟨[], 1024, 0, 64, 0⟩) :=
    ⟨Host.answering_fresh (by decide) (by decide) (by decide),
      Host.answering_fresh (by decide) (by decide) (by decide),
      fun n _ hne => absurd (by simp [Host.answering]) hne, trivial⟩
  have happart : Apart (Allocator.multiArena ⟨[], 1024, 0, 64, 0⟩).arenas := List.Pairwise.nil
  refine ⟨by decide +kernel, (newestFirst_given_back.1 _ _ happart hfresh).1, ?_⟩
  refine newestFirst_given_back.2 noHost ⟨0, 0, 0, 0, 0, 0, 0, 0, 0, 0⟩ 1 1 1 _ [] 4 _
    lentArena_48_holds (by decide) (by decide +kernel) ⟨fun _ => ?_, trivial, fun _ => ?_, trivial⟩
  · decide +kernel
  · decide +kernel

end Arnm.Vector
