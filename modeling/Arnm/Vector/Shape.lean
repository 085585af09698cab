import Arnm.Vector.BucketVector

set_option autoImplicit false

/-! # The blocks of a bucket vector

A vector holds the block of its index array and one block for each of its buckets. `Holding` says
which slots of the index array have a bucket: these blocks are held, and the other slots are
`NULL`. Between two calls the occupied slots are those below `allocatedCount` (`Shape`). `Carries`
is what the operations that move or release blocks leave alone: the buckets in use, the pointers to
them and the elements. -/

namespace Arnm.Vector

open Memory

/-- The memory of the allocator. -/
def State.mem {σ : Type} (p : Provider σ) (st : State σ) : Bytes := p.bytes st.heap

namespace BucketVector

/-- The parameters init accepts. -/
structure Params (v : BucketVector) : Prop where
  element_pos : 0 < v.elementSize
  element_lt : v.elementSize < 2 ^ 16
  log2_pos : 0 < v.bucketCapacityMaxLog2
  log2_le : v.bucketCapacityMaxLog2 ≤ 15
  step_pos : 0 < v.indexGrowStepSize
  capacity_le : v.bucketCapacity ≤ maxIndexCapacity

/-- The block of a bucket. -/
def bucketBlock (v : BucketVector) (addr : Nat) : Block := ⟨addr, v.bucketBytes⟩

/-- The block of the index array, if there is one. -/
def indexBlock (v : BucketVector) : List Block :=
  if v.buckets = 0 then [] else [⟨v.buckets, indexBytes v.bucketCapacity⟩]

/-- The blocks of the buckets at the given slots. -/
def bucketBlocks (v : BucketVector) (m : Bytes) (occupied : List Nat) : List Block :=
  occupied.map fun i => v.bucketBlock (v.slot m i)

/-- All blocks of a vector between two calls. -/
def blocks (v : BucketVector) (m : Bytes) : List Block :=
  v.indexBlock ++ v.bucketBlocks m (List.range v.allocatedCount)

variable {v : BucketVector}

theorem perBucket_eq (h : v.Params) : v.perBucket = 2 ^ v.bucketCapacityMaxLog2 := by
  have hle : 2 ^ v.bucketCapacityMaxLog2 ≤ 2 ^ 15 := Nat.pow_le_pow_right (by decide) h.log2_le
  exact Nat.mod_eq_of_lt (by omega)

theorem perBucket_pos (h : v.Params) : 0 < v.perBucket := by
  rw [perBucket_eq h]
  exact Nat.two_pow_pos _

theorem perBucket_le (h : v.Params) : v.perBucket ≤ 2 ^ 15 := by
  rw [perBucket_eq h]
  exact Nat.pow_le_pow_right (by decide) h.log2_le

theorem bucketBytes_eq (h : v.Params) : v.bucketBytes = v.perBucket * v.elementSize := by
  have hmul : v.elementSize * v.perBucket ≤ 2 ^ 16 * 2 ^ 15 :=
    Nat.mul_le_mul (Nat.le_of_lt h.element_lt) (perBucket_le h)
  rw [bucketBytes, mulPow2U32, ← perBucket_eq h, Nat.mul_comm v.perBucket]
  exact Nat.mod_eq_of_lt (by omega)

theorem indexBlock_of_ne (h : v.buckets ≠ 0) :
    v.indexBlock = [⟨v.buckets, indexBytes v.bucketCapacity⟩] := if_neg h

end BucketVector

/-! ## Occupied slots -/

section Holding

variable {σ : Type} {p : Provider σ} {st : State σ} {occupied : List Nat} {others : List Block}

/-- The vector holds the blocks of its index array and of the buckets at the occupied slots, beside
the blocks `others` hold; its other slots are `NULL`. -/
structure Holding (p : Provider σ) (st : State σ) (occupied : List Nat) (others : List Block) :
    Prop where
  params : st.vector.Params
  inside : ∀ i ∈ occupied, i < st.vector.bucketCapacity
  null : st.vector.buckets = 0 → st.vector.bucketCapacity = 0
  held : p.holds st.heap
    (st.vector.indexBlock ++ st.vector.bucketBlocks (st.mem p) occupied ++ others)
  vacant : ∀ i < st.vector.bucketCapacity, i ∉ occupied → st.vector.slot (st.mem p) i = 0

namespace Holding

theorem buckets_ne (h : Holding p st occupied others) {i : Nat}
    (hi : i < st.vector.bucketCapacity) :
    st.vector.buckets ≠ 0 := fun hz => by
  have := h.null hz
  omega

theorem index_mem (hne : st.vector.buckets ≠ 0) :
    (⟨st.vector.buckets, indexBytes st.vector.bucketCapacity⟩ : Block) ∈
      st.vector.indexBlock ++ st.vector.bucketBlocks (st.mem p) occupied ++ others := by
  rw [BucketVector.indexBlock_of_ne hne]
  exact List.mem_append_left _ (List.mem_append_left _ List.mem_cons_self)

theorem bucket_mem {i : Nat} (hi : i ∈ occupied) :
    st.vector.bucketBlock (st.vector.slot (st.mem p) i) ∈
      st.vector.indexBlock ++ st.vector.bucketBlocks (st.mem p) occupied ++ others :=
  List.mem_append_left _ (List.mem_append_right _ (List.mem_map_of_mem hi))

theorem slot_ne (h : Holding p st occupied others) {i : Nat} (hi : i ∈ occupied) :
    st.vector.slot (st.mem p) i ≠ 0 := (p.lawful.room h.held _ (bucket_mem hi)).1

/-- The capacity is positive as soon as there is an index array. -/
theorem capacity_ne (h : Holding p st occupied others) (hne : st.vector.buckets ≠ 0) :
    st.vector.bucketCapacity ≠ 0 := by
  have hpos := (p.lawful.room h.held _ (index_mem hne)).2.1
  simp only [indexBytes] at hpos
  omega

/-- The index array lies apart from every bucket and from what others hold. -/
theorem index_apart (h : Holding p st occupied others) (hne : st.vector.buckets ≠ 0) {b : Block}
    (hb : b ∈ st.vector.bucketBlocks (st.mem p) occupied ++ others) :
    Region.Apart ⟨st.vector.buckets, indexBytes st.vector.bucketCapacity⟩ b.extent := by
  have hapart := p.lawful.apart h.held
  rw [BucketVector.indexBlock_of_ne hne, List.append_assoc, List.singleton_append,
    List.pairwise_cons] at hapart
  exact hapart.1 b hb

/-- The pointer to a bucket lies in the index array. -/
theorem pointer_within {i : Nat} (hi : i < st.vector.bucketCapacity) :
    Region.Within ⟨st.vector.buckets + i * 8, 8⟩
      ⟨st.vector.buckets, indexBytes st.vector.bucketCapacity⟩ := by
  constructor
  · exact Nat.le_add_right _ _
  · simp only [Region.stop_mk, indexBytes]
    omega

theorem pointer_apart (h : Holding p st occupied others) {i : Nat}
    (hi : i < st.vector.bucketCapacity) {b : Block}
    (hb : b ∈ st.vector.bucketBlocks (st.mem p) occupied ++ others) :
    Region.Apart ⟨st.vector.buckets + i * 8, 8⟩ b.extent :=
  (h.index_apart (h.buckets_ne hi) hb).within (pointer_within hi) (Region.Within.refl _)

/-- Two pointers of the index array lie apart. -/
theorem pointers_apart (base : Nat) {i j : Nat} (hij : i ≠ j) :
    Region.Apart ⟨base + i * 8, 8⟩ ⟨base + j * 8, 8⟩ := Region.apart_slots base 8 hij

/-- Two buckets lie apart. -/
theorem bucket_apart (h : Holding p st occupied others) {i j : Nat}
    (hi : i ∈ occupied) (hj : j ∈ occupied) (hij : i ≠ j) :
    Region.Apart (st.vector.bucketBlock (st.vector.slot (st.mem p) i)).extent
      (st.vector.bucketBlock (st.vector.slot (st.mem p) j)).extent := by
  have hapart := (List.pairwise_append.mp (List.pairwise_append.mp (p.lawful.apart h.held)).1).2.1
  rw [BucketVector.bucketBlocks, List.pairwise_map] at hapart
  have hsym : Std.Symm fun a b => Region.Apart
      (st.vector.bucketBlock (st.vector.slot (st.mem p) a)).extent
      (st.vector.bucketBlock (st.vector.slot (st.mem p) b)).extent :=
    ⟨fun _ _ hab => Region.Apart.symm hab⟩
  exact hapart.forall hi hj hij

end Holding

/-! ## What an operation leaves alone -/

/-- The elements of the vector are where they were: the first `n` buckets, the pointers to them and
the counters. -/
structure Carries (p : Provider σ) (st st' : State σ) (n : Nat) : Prop where
  elementSize : st'.vector.elementSize = st.vector.elementSize
  log2 : st'.vector.bucketCapacityMaxLog2 = st.vector.bucketCapacityMaxLog2
  tail : st'.vector.tail = st.vector.tail
  tailIndex : st'.vector.tailIndex = st.vector.tailIndex
  tailUsed : st'.vector.tailUsed = st.vector.tailUsed
  size : st'.vector.size = st.vector.size
  slot : ∀ i < n, st'.vector.slot (st'.mem p) i = st.vector.slot (st.mem p) i
  bytes : ∀ i < n, Bytes.AgreeOn (st.mem p) (st'.mem p)
    (st.vector.bucketBlock (st.vector.slot (st.mem p) i)).extent

namespace Carries

variable {st' st'' : State σ} {n : Nat}

theorem refl (p : Provider σ) (st : State σ) (n : Nat) : Carries p st st n :=
  ⟨rfl, rfl, rfl, rfl, rfl, rfl, fun _ _ => rfl, fun _ _ => Bytes.AgreeOn.refl _ _⟩

theorem bucketBlock (h : Carries p st st' n) (addr : Nat) :
    st'.vector.bucketBlock addr = st.vector.bucketBlock addr := by
  rw [BucketVector.bucketBlock, BucketVector.bucketBlock, BucketVector.bucketBytes,
    BucketVector.bucketBytes, h.elementSize, h.log2]

theorem trans (h : Carries p st st' n) (h' : Carries p st' st'' n) : Carries p st st'' n where
  elementSize := h'.elementSize.trans h.elementSize
  log2 := h'.log2.trans h.log2
  tail := h'.tail.trans h.tail
  tailIndex := h'.tailIndex.trans h.tailIndex
  tailUsed := h'.tailUsed.trans h.tailUsed
  size := h'.size.trans h.size
  slot i hi := (h'.slot i hi).trans (h.slot i hi)
  bytes i hi := by
    have hlater := h'.bytes i hi
    rw [h.slot i hi, h.bucketBlock] at hlater
    exact (h.bytes i hi).trans hlater

theorem mono {k : Nat} (h : Carries p st st' n) (hk : k ≤ n) : Carries p st st' k where
  elementSize := h.elementSize
  log2 := h.log2
  tail := h.tail
  tailIndex := h.tailIndex
  tailUsed := h.tailUsed
  size := h.size
  slot i hi := h.slot i (Nat.lt_of_lt_of_le hi hk)
  bytes i hi := h.bytes i (Nat.lt_of_lt_of_le hi hk)

end Carries

/-! ## One pointer -/

/-- The vector's pointers depend only on the bytes of its index array. -/
theorem BucketVector.slot_congr {v : BucketVector} {m m' : Bytes} {i : Nat}
    (h : Bytes.AgreeOn m m' ⟨v.buckets + i * 8, 8⟩) : v.slot m' i = v.slot m i := Bytes.word_congr h

/-- Bytes that keep the blocks keep the pointers. -/
theorem Holding.slot_of_keeps (h : Holding p st occupied others) {m' : Bytes}
    (hkeep : Keeps (st.vector.indexBlock) (st.mem p) m') {i : Nat}
    (hi : i < st.vector.bucketCapacity) : st.vector.slot m' i = st.vector.slot (st.mem p) i := by
  have hne := h.buckets_ne hi
  rw [BucketVector.indexBlock_of_ne hne] at hkeep
  exact BucketVector.slot_congr
    ((hkeep _ List.mem_cons_self).within (Holding.pointer_within hi))

theorem BucketVector.bucketBlocks_congr {v : BucketVector} {m m' : Bytes}
    (h : ∀ i ∈ occupied, v.slot m' i = v.slot m i) :
    v.bucketBlocks m' occupied = v.bucketBlocks m occupied :=
  List.map_congr_left fun i hi => by rw [h i hi]

/-- The memory after a pointer was set. -/
@[simp] theorem mem_putSlot (st : State σ) (i bucket : Nat) :
    (putSlot p.toCalls st i bucket).mem p =
    (st.mem p).putWord (st.vector.buckets + i * 8) bucket := p.lawful.bytes_write _ _

/-- The pointer that was set, and the others. -/
theorem slot_putSlot (st : State σ) {i j bucket : Nat} (hb : bucket < 2 ^ 64) :
    st.vector.slot ((st.mem p).putWord (st.vector.buckets + i * 8) bucket) j =
      if j = i then bucket else st.vector.slot (st.mem p) j := by
  split
  · rename_i hji
    rw [hji]
    exact Bytes.word_putWord _ _ hb
  · rename_i hji
    exact BucketVector.slot_congr
      (Bytes.putWord_agreeOn (Holding.pointers_apart _ fun hij => hji hij.symm))

/-- A pointer set leaves the buckets alone. -/
theorem Holding.putSlot_agreeOn (h : Holding p st occupied others) {i : Nat} (bucket : Nat)
    (hi : i < st.vector.bucketCapacity) {b : Block}
    (hb : b ∈ st.vector.bucketBlocks (st.mem p) occupied ++ others) :
    Bytes.AgreeOn (st.mem p) ((st.mem p).putWord (st.vector.buckets + i * 8) bucket) b.extent :=
  Bytes.putWord_agreeOn (h.pointer_apart hi hb)

end Holding

end Arnm.Vector
