import Arnm.Vector.Release

set_option autoImplicit false

/-! # The elements of a bucket vector

The element of an index lies at its `place`, in the bucket and at the offset the index is split
into. `Filled` says that the elements are those of a list, and `Sound` is the invariant of the
operations: the vector holds the blocks of `allocatedCount` buckets and is filled. Everything a
client can read off a sound vector is the list (`IsList`). -/

namespace Arnm.Vector

open Memory

namespace BucketVector

variable {v : BucketVector} {m : Bytes}

/-- Where the element of an index lies. -/
def place (v : BucketVector) (m : Bytes) (i : Nat) : Nat :=
  v.slot m (i / v.perBucket) + i % v.perBucket * v.elementSize

theorem get_eq_place (h : v.Params) {i : Nat} (hi : i / v.perBucket < 2 ^ 16) :
    v.get m i = v.place m i := by
  have hbucket : i >>> v.bucketCapacityMaxLog2 % 2 ^ 16 = i / v.perBucket := by
    rw [Nat.shiftRight_eq_div_pow, ← perBucket_eq h, Nat.mod_eq_of_lt hi]
  have hoffset : i &&& ((1 <<< v.bucketCapacityMaxLog2) - 1) = i % v.perBucket := by
    rw [Nat.one_shiftLeft, Nat.and_two_pow_sub_one_eq_mod, ← perBucket_eq h]
  rw [get, place, hbucket, hoffset]

/-- An element lies in its bucket. -/
theorem place_within (h : v.Params) (i : Nat) : Region.Within ⟨v.place m i, v.elementSize⟩
    (v.bucketBlock (v.slot m (i / v.perBucket))).extent := by
  have hlt : i % v.perBucket + 1 ≤ v.perBucket := Nat.mod_lt _ (perBucket_pos h)
  have hmul := Nat.mul_le_mul_right v.elementSize hlt
  rw [Nat.succ_mul] at hmul
  constructor
  · exact Nat.le_add_right _ _
  · simp only [Block.extent, bucketBlock, bucketBytes_eq h, Region.stop_mk, place]
    omega

/-- Two elements of one bucket lie apart. -/
theorem place_apart {i j : Nat} (hij : i ≠ j)
    (hsame : i / v.perBucket = j / v.perBucket) :
    Region.Apart ⟨v.place m i, v.elementSize⟩ ⟨v.place m j, v.elementSize⟩ := by
  have hmod : i % v.perBucket ≠ j % v.perBucket := fun hmod => hij (by
    rw [← Nat.div_add_mod i v.perBucket, ← Nat.div_add_mod j v.perBucket, hsame, hmod])
  unfold place
  rw [hsame]
  exact Region.apart_slots _ _ hmod

/-- An element is at its offset in its bucket. -/
theorem place_of_bucket (h : v.Params) {b k : Nat} (hk : k < v.perBucket) :
    v.place m (b * v.perBucket + k) = v.slot m b + k * v.elementSize := by
  rw [place, Nat.mul_comm b, Nat.mul_add_div (perBucket_pos h), Nat.div_eq_of_lt hk, Nat.add_zero,
    Nat.mul_add_mod, Nat.mod_eq_of_lt hk]

end BucketVector

/-! ## The list -/

/-- The elements of the vector are those of the list, and its counters agree with it. -/
structure Filled (v : BucketVector) (m : Bytes) (items : List (List UInt8)) : Prop where
  size : v.size = items.length
  closed : v.tail = 0 → items = [] ∧ v.tailIndex = 0 ∧ v.tailUsed = v.perBucket
  opened : v.tail ≠ 0 → v.tail = v.slot m v.tailIndex ∧ 0 < v.tailUsed ∧
    v.tailUsed ≤ v.perBucket ∧ v.size = v.tailIndex * v.perBucket + v.tailUsed
  value : ∀ i (hi : i < items.length), m.read (v.place m i) v.elementSize = items[i]

variable {v : BucketVector} {m : Bytes} {items : List (List UInt8)}

namespace Filled

theorem tail_eq_zero_iff (h : Filled v m items) : v.tail = 0 ↔ v.size = 0 := by
  constructor
  · intro hz
    rw [h.size, (h.closed hz).1]
    rfl
  · intro hz
    by_contra hne
    obtain ⟨-, hpos, -, hsize⟩ := h.opened hne
    omega

/-- The buckets in use have room for the elements. -/
theorem size_le (h : Filled v m items) : v.size ≤ v.bucketCount * v.perBucket := by
  by_cases hz : v.tail = 0
  · rw [h.tail_eq_zero_iff.mp hz]
    exact Nat.zero_le _
  · obtain ⟨-, -, hle, hsize⟩ := h.opened hz
    rw [BucketVector.bucketCount, if_pos hz, Nat.succ_mul]
    omega

/-- Every element is in a bucket in use. -/
theorem bucket_lt (h : Filled v m items) {i : Nat} (hi : i < v.size) :
    i / v.perBucket < v.bucketCount :=
  Nat.div_lt_of_lt_mul (Nat.mul_comm _ v.perBucket ▸ Nat.lt_of_lt_of_le hi h.size_le)

/-- The items in the order of their places. -/
theorem items_eq (h : Filled v m items) :
    items = (List.range v.size).map fun i => m.read (v.place m i) v.elementSize := by
  refine List.ext_getElem (by simp [h.size]) fun i hi hi' => ?_
  rw [List.getElem_map, List.getElem_range, h.value i hi]

end Filled

/-- A run of indices cut into buckets of `k` and the rest. -/
theorem map_range_buckets {α : Type} (f : Nat → α) (n k r : Nat) :
    (List.range (n * k + r)).map f =
      ((List.range n).flatMap fun b => (List.range k).map fun j => f (b * k + j)) ++
        (List.range r).map fun j => f (n * k + j) := by
  have hfull : (List.range (n * k)).map f =
      (List.range n).flatMap fun b => (List.range k).map fun j => f (b * k + j) := by
    induction n with
    | zero => simp
    | succ n ih =>
        calc (List.range ((n + 1) * k)).map f
            = (List.range (n * k)).map f ++ (List.range k).map fun j => f (n * k + j) := by
              rw [Nat.succ_mul, List.range_add, List.map_append, List.map_map]
              rfl
          _ = ((List.range n).flatMap fun b => (List.range k).map fun j => f (b * k + j)) ++
                (List.range k).map fun j => f (n * k + j) := by rw [ih]
          _ = (List.range (n + 1)).flatMap fun b => (List.range k).map fun j => f (b * k + j) := by
              rw [List.range_succ, List.flatMap_append, List.flatMap_singleton]
  rw [List.range_add, List.map_append, hfull, List.map_map]
  rfl

/-- The elements bucket by bucket. -/
def BucketVector.elements (v : BucketVector) (m : Bytes) : List (List UInt8) :=
  (List.range v.bucketCount).flatMap fun b => (List.range (v.bucketSize b)).map fun k =>
    m.read (v.bucketData m b + k * v.elementSize) v.elementSize

/-- Iteration over the buckets meets the items in order. -/
theorem Filled.elements (h : Filled v m items) (hp : v.Params) : v.elements m = items := by
  unfold BucketVector.elements
  rw [h.items_eq]
  by_cases hz : v.tail = 0
  · rw [h.tail_eq_zero_iff.mp hz, BucketVector.bucketCount, if_neg (not_not_intro hz)]
    rfl
  · obtain ⟨-, -, hle, hsize⟩ := h.opened hz
    rw [BucketVector.bucketCount, if_pos hz, hsize, map_range_buckets, List.range_succ,
      List.flatMap_append, List.flatMap_singleton]
    refine congrArg₂ (· ++ ·) ?_ ?_
    · refine List.flatMap_congr fun b hb => ?_
      have hb' := List.mem_range.mp hb
      rw [BucketVector.bucketSize, if_neg (by omega)]
      refine List.map_congr_left fun k hk => ?_
      rw [BucketVector.place_of_bucket hp (List.mem_range.mp hk)]
      rfl
    · rw [BucketVector.bucketSize, if_pos rfl]
      refine List.map_congr_left fun k hk => ?_
      have hk' := List.mem_range.mp hk
      rw [BucketVector.place_of_bucket hp (by omega)]
      rfl

theorem Filled.copyTo (h : Filled v m items) (hp : v.Params) (dstCapacity : Nat) :
    v.copyTo m true dstCapacity =
      if dstCapacity < items.length then (.errorDestinationBufferToSmall, [])
      else (.success, items.flatten) := by
  have hitems := h.elements hp
  unfold BucketVector.copyTo
  rw [if_neg (by decide), h.size]
  split
  · rfl
  · rw [← hitems, BucketVector.elements, List.flatten_eq_flatMap, List.flatMap_assoc]
    refine congrArg (Prod.mk _) (List.flatMap_congr fun b _ => ?_)
    rw [Bytes.read_slots, List.flatMap_map]
    rfl

/-! ## The invariant -/

section Sound

variable {σ : Type} {p : Provider σ} {st : State σ} {others : List Block}

/-- The vector holds the blocks of its buckets, and its elements are the items. -/
structure Sound (p : Provider σ) (st : State σ) (items : List (List UInt8)) (others : List Block) :
    Prop where
  holding : Holding p st (List.range st.vector.allocatedCount) others
  filled : Filled st.vector (st.mem p) items
  used : st.vector.bucketCount ≤ st.vector.allocatedCount

namespace Sound

theorem params (h : Sound p st items others) : st.vector.Params := h.holding.params

theorem allocated_le (h : Sound p st items others) :
    st.vector.allocatedCount ≤ st.vector.bucketCapacity := by
  by_contra hlt
  have := h.holding.inside (st.vector.allocatedCount - 1) (List.mem_range.mpr (by omega))
  omega

theorem allocated_lt (h : Sound p st items others) : st.vector.allocatedCount < 2 ^ 16 := by
  have := h.allocated_le
  have := h.params.capacity_le
  unfold maxIndexCapacity at this
  omega

/-- A vector without an index array is empty. -/
theorem null (h : Sound p st items others) (hz : st.vector.buckets = 0) :
    st.vector.bucketCapacity = 0 ∧ st.vector.allocatedCount = 0 ∧ st.vector.tail = 0 := by
  have hcap := h.holding.null hz
  have hle := h.allocated_le
  have hused := h.used
  refine ⟨hcap, by omega, ?_⟩
  by_contra hne
  rw [BucketVector.bucketCount, if_pos hne] at hused
  omega

theorem bucketCountAllocated (h : Sound p st items others) :
    st.vector.bucketCountAllocated = st.vector.allocatedCount := by
  unfold BucketVector.bucketCountAllocated
  split
  · rfl
  · rename_i hz
    exact (h.null (not_not.mp hz)).2.1.symm

/-- The state check holds. -/
theorem isStateValid (h : Sound p st items others) : st.vector.isStateValid = true := by
  have hparams := h.params
  have hused := h.used
  unfold BucketVector.isStateValid
  rw [if_neg (by have := hparams.element_pos; have := hparams.log2_pos; omega),
    h.bucketCountAllocated]
  split
  · rename_i hz
    obtain ⟨hcap, hcount, htail⟩ := h.null hz
    have hsize := h.filled.tail_eq_zero_iff.mp htail
    simp only [hcap, hcount, htail, hsize, (h.filled.closed htail).2.1, and_self, decide_true]
  · rename_i hne
    have hsize : ¬ st.vector.allocatedCount * st.vector.perBucket < st.vector.size := by
      have := h.filled.size_le
      have := Nat.mul_le_mul_right st.vector.perBucket hused
      omega
    have htail : ¬ (if st.vector.tail ≠ 0 then st.vector.allocatedCount ≤ st.vector.tailIndex
        else st.vector.tailIndex ≠ 0) := by
      split
      · rename_i hopen
        rw [BucketVector.bucketCount, if_pos hopen] at hused
        omega
      · rename_i hclosed
        exact not_not_intro (h.filled.closed (not_not.mp hclosed)).2.1
    rw [if_neg (h.holding.capacity_ne hne), if_neg (Nat.not_lt.mpr h.allocated_le), if_neg htail,
      if_neg hsize]

/-- The bucket of an element. -/
theorem bucket_lt (h : Sound p st items others) {i : Nat} (hi : i < items.length) :
    i / st.vector.perBucket < st.vector.allocatedCount :=
  Nat.lt_of_lt_of_le (h.filled.bucket_lt (h.filled.size ▸ hi)) h.used

theorem get_eq_place (h : Sound p st items others) {i : Nat} (hi : i < items.length) :
    st.vector.get (st.mem p) i = st.vector.place (st.mem p) i :=
  BucketVector.get_eq_place h.params (Nat.lt_trans (h.bucket_lt hi) h.allocated_lt)

end Sound

/-! ## What a client reads -/

/-- The element behind an address, none behind `NULL`. -/
def State.elementAt (p : Provider σ) (st : State σ) (addr : Nat) : Option (List UInt8) :=
  if addr = 0 then none else some ((st.mem p).read addr st.vector.elementSize)

/-- What the vector shows are the items, and its index array has the buckets it counts. -/
structure IsList (p : Provider σ) (st : State σ) (items : List (List UInt8)) : Prop where
  size : st.vector.size = items.length
  get : ∀ i (hi : i < items.length),
    (st.mem p).read (st.vector.get (st.mem p) i) st.vector.elementSize = items[i]
  getAt : ∀ i, st.elementAt p (st.vector.getAt (st.mem p) i) = items[i]?
  front : st.elementAt p (st.vector.front (st.mem p)) = items.head?
  back : st.elementAt p st.vector.back = items.getLast?
  elements : st.vector.elements (st.mem p) = items
  copyTo : ∀ dstCapacity, st.vector.copyTo (st.mem p) true dstCapacity =
    if dstCapacity < items.length then (.errorDestinationBufferToSmall, [])
    else (.success, items.flatten)
  occupied : ∀ i < st.vector.allocatedCount, st.vector.slot (st.mem p) i ≠ 0
  vacant : ∀ i < st.vector.bucketCapacity, st.vector.allocatedCount ≤ i →
    st.vector.slot (st.mem p) i = 0
  held : ∃ others, p.holds st.heap (st.vector.blocks (st.mem p) ++ others)
  valid : st.vector.isStateValid = true

namespace Sound

theorem place_ne (h : Sound p st items others) {i : Nat} (hi : i < items.length) :
    st.vector.place (st.mem p) i ≠ 0 := by
  have := h.holding.slot_ne (List.mem_range.mpr (h.bucket_lt hi))
  unfold BucketVector.place
  omega

theorem elementAt_place (h : Sound p st items others) {i : Nat} (hi : i < items.length) :
    st.elementAt p (st.vector.place (st.mem p) i) = some items[i] := by
  rw [State.elementAt, if_neg (h.place_ne hi), h.filled.value i hi]

theorem front (h : Sound p st items others) :
    st.elementAt p (st.vector.front (st.mem p)) = items.head? := by
  unfold BucketVector.front
  split
  · rename_i hne
    have hi : 0 < items.length := by rw [← h.filled.size]; omega
    have hplace : st.vector.slot (st.mem p) 0 = st.vector.place (st.mem p) 0 := by
      rw [BucketVector.place, Nat.zero_div, Nat.zero_mod, Nat.zero_mul, Nat.add_zero]
    rw [hplace, h.elementAt_place hi, List.head?_eq_getElem?, List.getElem?_eq_getElem hi]
  · rename_i hz
    have hnil : items = [] := List.length_eq_zero_iff.mp (h.filled.size ▸ not_not.mp hz)
    rw [hnil]
    rfl

theorem back (h : Sound p st items others) :
    st.elementAt p st.vector.back = items.getLast? := by
  unfold BucketVector.back
  split
  · rename_i hne
    obtain ⟨htail, hpos, hle, hsize⟩ := h.filled.opened hne
    have hi : items.length - 1 < items.length := by rw [← h.filled.size]; omega
    have hplace : st.vector.tail + (st.vector.tailUsed - 1) * st.vector.elementSize =
        st.vector.place (st.mem p) (items.length - 1) := by
      have hlast : items.length - 1 =
          st.vector.tailIndex * st.vector.perBucket + (st.vector.tailUsed - 1) := by
        rw [← h.filled.size]
        omega
      rw [hlast, BucketVector.place_of_bucket h.params (by omega), ← htail]
    rw [hplace, h.elementAt_place hi, List.getLast?_eq_getElem?, List.getElem?_eq_getElem hi]
  · rename_i hz
    have hnil := (h.filled.closed (not_not.mp hz)).1
    rw [hnil]
    rfl

theorem isList (h : Sound p st items others) : IsList p st items where
  size := h.filled.size
  get i hi := by rw [h.get_eq_place hi, h.filled.value i hi]
  getAt i := by
    unfold BucketVector.getAt
    split
    · rename_i hle
      rw [List.getElem?_eq_none (h.filled.size ▸ hle)]
      rfl
    · rename_i hlt
      have hi : i < items.length := by rw [← h.filled.size]; omega
      rw [h.get_eq_place hi, h.elementAt_place hi, List.getElem?_eq_getElem hi]
  front := h.front
  back := h.back
  elements := h.filled.elements h.params
  copyTo := h.filled.copyTo h.params
  occupied i hi := h.holding.slot_ne (List.mem_range.mpr hi)
  vacant i hi hle := h.holding.vacant i hi fun hmem => by
    have := List.mem_range.mp hmem
    omega
  held := ⟨others, h.holding.held⟩
  valid := h.isStateValid

end Sound

end Sound

end Arnm.Vector
