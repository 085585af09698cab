import Arnm.Vector.Runs

set_option autoImplicit false

/-! # The capacity a vector holds

The buckets allocated hold `allocatedCount * perBucket` elements. Up to there an element is added
without the allocator, and a reserve finds nothing to do. Only the overflow check in front of it
still looks at the number asked for: `arnm_bvec_reserve` refuses a number that the sum it computes
has no room for, also when the buckets for it are there. -/

namespace Arnm.Vector

open Memory

variable {σ : Type} {p : Provider σ} {st : State σ} {items : List (List UInt8)}
  {others : List Block}

/-- The elements the allocated buckets hold. -/
def BucketVector.heldCapacity (v : BucketVector) : Nat := v.bucketCountAllocated * v.perBucket

/-- The largest number `arnm_bvec_reserve` does not take for an overflow. -/
def BucketVector.reserveLimit (v : BucketVector) : Nat :=
  (2 ^ 32 - 1 - v.bucketMask) / v.elementSize

/-! ## Reserving what is held -/

/-- What is held needs no further bucket. -/
theorem needed_le {v : BucketVector} (hp : v.Params) {n count : Nat}
    (hle : n ≤ count * v.perBucket) :
    (n + v.bucketMask) >>> v.bucketCapacityMaxLog2 ≤ count := by
  have hpos := BucketVector.perBucket_pos hp
  rw [Nat.shiftRight_eq_div_pow, ← BucketVector.perBucket_eq hp]
  refine Nat.lt_succ_iff.mp (Nat.div_lt_of_lt_mul ?_)
  unfold BucketVector.bucketMask
  rw [Nat.mul_succ, Nat.mul_comm v.perBucket]
  omega

/-- A reserve of no more than is held finds nothing to do, unless its sum overflows. -/
theorem Sound.reserve_held (h : Sound p st items others) {n : Nat} (hn : 0 < n)
    (hle : n ≤ st.vector.heldCapacity) :
    Vector.reserve p.toCalls st n =
      (if st.vector.reserveLimit < n then Result.errorArithmeticOverflow else Result.success,
        st) := by
  have hneeded := needed_le h.params hle
  have hindex :
      ¬ maxIndexCapacity < (n + st.vector.bucketMask) >>> st.vector.bucketCapacityMaxLog2 := by
    have hcap := h.params.capacity_le
    have halloc := h.allocated_le
    rw [h.bucketCountAllocated] at hneeded
    omega
  unfold Vector.reserve
  simp only
  rw [if_neg (by omega), if_neg (by rw [h.isStateValid]; decide)]
  unfold BucketVector.reserveLimit
  by_cases hlimit : (2 ^ 32 - 1 - st.vector.bucketMask) / st.vector.elementSize < n
  · rw [if_pos hlimit, if_pos hlimit]
  · rw [if_neg hlimit, if_neg hlimit, if_neg hindex, if_pos hneeded]

/-- In every state of a run a reserve of no more than is held succeeds and changes nothing exactly
when the number is within the limit of its overflow check. -/
theorem reserve_held_iff (p : Provider σ) (v : BucketVector)
    (bucketCapacityLog2 indexGrowStepSize elementSize : Nat) {s : σ} {others : List Block}
    (hheld : p.holds s others)
    (hok : (init v bucketCapacityLog2 indexGrowStepSize elementSize).1 = .success)
    {steps : List (Step σ)} {st : State σ}
    (hrun : Run p ⟨(init v bucketCapacityLog2 indexGrowStepSize elementSize).2, s⟩ steps st)
    {n : Nat} (hn : 0 < n) (hle : n ≤ st.vector.heldCapacity) :
    reserve p.toCalls st n = (.success, st) ↔ n ≤ st.vector.reserveLimit := by
  obtain ⟨hinit, helem⟩ := init_sound hheld hok
  have hstart : Represents p ⟨(init v bucketCapacityLog2 indexGrowStepSize elementSize).2, s⟩
      (.empty elementSize) := ⟨helem, others, hinit⟩
  obtain ⟨⟨q, -, -, others', hsound⟩, -⟩ := hstart.run hrun
  rw [hsound.reserve_held hn hle]
  by_cases hlimit : st.vector.reserveLimit < n
  · rw [if_pos hlimit]
    exact iff_of_false (fun hsame => by cases congrArg Prod.fst hsame) (Nat.not_le.mpr hlimit)
  · rw [if_neg hlimit]
    exact iff_of_true rfl (Nat.le_of_not_lt hlimit)

/-! ## Growing holds more -/

/-- The vector has the buckets it had, and maybe more. -/
structure Grown (v v' : BucketVector) : Prop where
  log2 : v'.bucketCapacityMaxLog2 = v.bucketCapacityMaxLog2
  count : v.bucketCountAllocated ≤ v'.allocatedCount

namespace Grown

theorem of_same {v v' : BucketVector} (hlog : v'.bucketCapacityMaxLog2 = v.bucketCapacityMaxLog2)
    (hcount : v'.allocatedCount = v.allocatedCount) : Grown v v' := by
  refine ⟨hlog, ?_⟩
  rw [hcount]
  unfold BucketVector.bucketCountAllocated
  split
  · exact Nat.le_refl _
  · exact Nat.zero_le _

/-- A sound vector that has grown holds what it held. -/
theorem heldCapacity_le {v : BucketVector} (hgrown : Grown v st.vector)
    (h : Sound p st items others) : v.heldCapacity ≤ st.vector.heldCapacity := by
  have hper : st.vector.perBucket = v.perBucket := by
    rw [BucketVector.perBucket, BucketVector.perBucket, hgrown.log2]
  unfold BucketVector.heldCapacity
  rw [hper, h.bucketCountAllocated]
  exact Nat.mul_le_mul_right _ hgrown.count

end Grown

theorem growIndex_counts (allocator : Calls σ) (st : State σ) (newCapacity : Nat) :
    (growIndex allocator st newCapacity).2.vector.bucketCapacityMaxLog2 =
        st.vector.bucketCapacityMaxLog2 ∧
      (growIndex allocator st newCapacity).2.vector.allocatedCount = st.vector.allocatedCount := by
  unfold growIndex
  simp only
  split
  · exact ⟨rfl, rfl⟩
  · exact ⟨rfl, rfl⟩

theorem addBucket_counts (allocator : Calls σ) (st : State σ) (n : Nat) :
    (addBucket allocator st n).2.vector.bucketCapacityMaxLog2 = st.vector.bucketCapacityMaxLog2 ∧
      ((addBucket allocator st n).1 ≠ .success ∧
          (addBucket allocator st n).2.vector.allocatedCount = st.vector.allocatedCount ∨
        (addBucket allocator st n).1 = .success ∧
          (addBucket allocator st n).2.vector.allocatedCount = n + 1) := by
  unfold addBucket
  simp only
  split
  · rename_i hne
    exact ⟨rfl, Or.inl ⟨hne, rfl⟩⟩
  · exact ⟨rfl, Or.inr ⟨rfl, rfl⟩⟩

/-- The loop of a reserve that succeeds has added all it was to add. -/
theorem addBuckets_counts (allocator : Calls σ) {k n : Nat} {st : State σ}
    (hcount : st.vector.allocatedCount = n) (hok : (addBuckets allocator k n st).1 = .success) :
    (addBuckets allocator k n st).2.vector.allocatedCount = n + k := by
  induction k generalizing n st with
  | zero => exact hcount
  | succ k ih =>
      rw [addBuckets_succ] at hok ⊢
      rcases (addBucket_counts allocator st n).2 with ⟨hne, -⟩ | ⟨hone, hnext⟩
      · rw [if_neg hne] at hok
        exact absurd hok hne
      · rw [if_pos hone] at hok ⊢
        rw [ih hnext hok]
        omega

/-- The buckets a reserve asks for hold the elements. -/
theorem le_needed {v : BucketVector} (hp : v.Params) (n : Nat) :
    n ≤ ((n + v.bucketMask) >>> v.bucketCapacityMaxLog2) * v.perBucket := by
  have hpos := BucketVector.perBucket_pos hp
  have hdiv := Nat.div_add_mod (n + v.bucketMask) v.perBucket
  have hmod := Nat.mod_lt (n + v.bucketMask) hpos
  rw [Nat.shiftRight_eq_div_pow, ← BucketVector.perBucket_eq hp, Nat.mul_comm]
  unfold BucketVector.bucketMask at hdiv hmod ⊢
  omega

/-- A reserve that succeeds holds what was asked for. -/
theorem Sound.reserve_holds (h : Sound p st items others) {n : Nat}
    (hok : (Vector.reserve p.toCalls st n).1 = .success) :
    n ≤ (Vector.reserve p.toCalls st n).2.vector.heldCapacity := by
  obtain ⟨-, hsound, hstay⟩ := h.reserve n
  unfold BucketVector.heldCapacity
  rw [hsound.bucketCountAllocated, hstay.perBucket]
  -- the buckets that are there are at least those needed
  refine Nat.le_trans (le_needed h.params n) (Nat.mul_le_mul_right _ ?_)
  clear hsound hstay
  unfold Vector.reserve at hok ⊢
  simp only at hok ⊢
  have hvalid : ¬ st.vector.isStateValid = false := by
    rw [h.isStateValid]
    decide
  by_cases hzero : n = 0
  · rw [if_pos hzero] at hok
    cases hok
  rw [if_neg hzero, if_neg hvalid] at hok ⊢
  by_cases hlimit : (2 ^ 32 - 1 - st.vector.bucketMask) / st.vector.elementSize < n
  · rw [if_pos hlimit] at hok
    cases hok
  rw [if_neg hlimit] at hok ⊢
  split at hok
  · cases hok
  rename_i hmax
  rw [if_neg hmax, h.bucketCountAllocated]
  rw [h.bucketCountAllocated] at hok
  split at hok
  · rename_i hle
    rw [if_pos hle]
    exact hle
  rename_i hmore
  rw [if_neg hmore]
  generalize hneed : (n + st.vector.bucketMask) >>> st.vector.bucketCapacityMaxLog2 = needed
    at hok hmore ⊢
  have hadd : ∀ st' : State σ, st'.vector.allocatedCount = st.vector.allocatedCount →
      (addBuckets p.toCalls (needed - st.vector.allocatedCount) st.vector.allocatedCount st').1 =
        .success →
      needed ≤ (addBuckets p.toCalls (needed - st.vector.allocatedCount) st.vector.allocatedCount
        st').2.vector.allocatedCount := by
    intro st' hcount hall
    rw [addBuckets_counts p.toCalls hcount hall]
    omega
  by_cases hcap : st.vector.bucketCapacity < needed
  · rw [if_pos hcap] at hok ⊢
    have hcounts := (growIndex_counts p.toCalls st needed).2
    generalize growIndex p.toCalls st needed = r at hok hcounts ⊢
    obtain ⟨result, st₁⟩ := r
    cases result with
    | success => exact hadd st₁ hcounts hok
    | _ => cases hok
  · rw [if_neg hcap] at hok ⊢
    exact hadd st rfl hok

/-- Adding an element keeps the buckets there are. -/
theorem emplace_grown (allocator : Calls σ) (st : State σ) (outSlot : Bool) :
    Grown st.vector (emplace allocator st outSlot).2.2.vector := by
  have hbucket : ∀ st₁ : State σ,
      st₁.vector.bucketCapacityMaxLog2 = st.vector.bucketCapacityMaxLog2 →
      st₁.vector.allocatedCount = st.vector.allocatedCount →
      Grown st.vector (addBucket allocator st₁ st.vector.bucketCountAllocated).2.vector := by
    intro st₁ hlog hcount
    obtain ⟨hlog', ⟨-, hsame⟩ | ⟨-, hmore⟩⟩ :=
      addBucket_counts allocator st₁ st.vector.bucketCountAllocated
    · exact .of_same (hlog'.trans hlog) (hsame.trans hcount)
    · exact ⟨hlog'.trans hlog, Nat.le_of_lt (Nat.lt_of_lt_of_eq (Nat.lt_succ_self _) hmore.symm)⟩
  unfold emplace
  simp only
  split
  · exact .of_same rfl rfl
  split
  · exact .of_same rfl rfl
  unfold grow
  simp only
  split
  · exact .of_same rfl rfl
  split
  · exact .of_same rfl rfl
  split
  · exact .of_same rfl rfl
  by_cases hslots : st.vector.bucketCountAllocated = st.vector.bucketCapacity
  · rw [if_pos hslots]
    by_cases hmax : maxIndexCapacity < st.vector.bucketCapacity + st.vector.indexGrowStepSize
    · rw [if_pos hmax]
      exact .of_same rfl rfl
    · rw [if_neg hmax]
      obtain ⟨hlog, hcount⟩ := growIndex_counts allocator st
        (st.vector.bucketCapacity + st.vector.indexGrowStepSize)
      generalize growIndex allocator st
        (st.vector.bucketCapacity + st.vector.indexGrowStepSize) = r at hlog hcount ⊢
      obtain ⟨result, st₁⟩ := r
      cases result with
      | success =>
          have hadded := hbucket st₁ hlog hcount
          dsimp only
          generalize addBucket allocator st₁ st.vector.bucketCountAllocated = r at hadded ⊢
          obtain ⟨result, st₂⟩ := r
          cases result with
          | success => exact ⟨hadded.log2, hadded.count⟩
          | _ => exact hadded
      | _ => exact .of_same hlog hcount
  · rw [if_neg hslots]
    have hadded := hbucket st rfl rfl
    dsimp only
    generalize addBucket allocator st st.vector.bucketCountAllocated = r at hadded ⊢
    obtain ⟨result, st₂⟩ := r
    cases result with
    | success => exact ⟨hadded.log2, hadded.count⟩
    | _ => exact hadded

/-- Up to the held capacity the next bucket is one that is held. -/
theorem Sound.grow_held (h : Sound p st items others)
    (hroom : ¬ (st.vector.tail ≠ 0 ∧ st.vector.tailUsed < st.vector.perBucket))
    (hlt : items.length < st.vector.heldCapacity) (other : Calls σ) :
    Vector.grow other st true = Vector.openBucket other st st.vector.bucketCount := by
  have hnext : st.vector.bucketCount < st.vector.bucketCountAllocated := by
    unfold BucketVector.heldCapacity at hlt
    rw [← h.filled.size, h.filled.full hroom] at hlt
    exact Nat.lt_of_mul_lt_mul_right hlt
  unfold Vector.grow
  simp only
  rw [if_neg (by decide), if_neg (by rw [h.isStateValid]; decide), if_pos hnext]

/-- Up to the held capacity an element is added without the allocator, which only lends its
memory. -/
theorem Sound.emplace_held (h : Sound p st items others)
    (hlt : items.length < st.vector.heldCapacity) :
    (Vector.emplace p.toCalls st true).1 = .success ∧
      ∀ other : Calls σ, other.bytes = p.bytes →
        Vector.emplace other st true = Vector.emplace p.toCalls st true := by
  unfold Vector.emplace
  simp only
  rw [if_neg (by decide)]
  by_cases hroom : st.vector.tail ≠ 0 ∧ st.vector.tailUsed < st.vector.perBucket
  · rw [if_pos hroom]
    refine ⟨rfl, fun _ _ => ?_⟩
    rw [if_neg (by decide), if_pos hroom]
  rw [if_neg hroom]
  have hopens := h.grow_held hroom hlt
  rw [hopens]
  refine ⟨rfl, fun other hbytes => ?_⟩
  rw [if_neg (by decide), if_neg hroom, hopens, Vector.openBucket, Vector.openBucket, hbytes]

/-! ## A vector grown past the check -/

/-- A host that has memory behind the arenas there are. -/
def growingHost (h : Heap) : Host where
  malloc size :=
    let addr := align8 (h.memory.arenas.foldr (fun a top => max (a.data + a.capacity) top) 8)
    if addr + size ≤ 2 ^ 64 then addr else 0
  refusal := none

theorem le_top {arenas : List Arena} {a : Arena} (ha : a ∈ arenas) :
    a.data + a.capacity ≤ arenas.foldr (fun a top => max (a.data + a.capacity) top) 8 := by
  induction arenas with
  | nil => exact absurd ha List.not_mem_nil
  | cons b arenas ih =>
      rw [List.foldr_cons]
      rcases List.mem_cons.mp ha with rfl | ha
      · exact Nat.le_max_left _ _
      · exact Nat.le_trans (ih ha) (Nat.le_max_right _ _)

theorem growingHost_fresh (h : Heap) : Fresh (growingHost h) h.memory.arenas := by
  intro n _ hne
  simp only [growingHost] at hne ⊢
  split at hne
  · rename_i hfit
    rw [if_pos hfit]
    refine ⟨?_, hfit, fun a ha => Or.inl ?_⟩
    · exact Nat.dvd_mul_left _ _
    · refine Nat.le_trans (le_top ha) ?_
      show _ ≤ (_ + 7) / 8 * 8
      omega
  · exact absurd rfl hne

/-- A machine with that much memory. -/
def growingWorld : World where
  host _ h := growingHost h
  fresh _ h := growingHost_fresh h
  valid _ _ := fun _ h => by cases h

/-- A vector of elements of 65534 bytes, 32768 to a bucket, over a chain. -/
def largeVector : State (Heap × Nat) :=
  ⟨(init ⟨0, 0, 0, 0, 0, 0, 0, 0, 0, 0⟩ 15 8 65534).2,
    ⟨.multiArena ⟨[], 1024, 0, 64, 0⟩, fun _ => 0⟩, 0⟩

theorem largeVector_holds :
    (Provider.ofArena growingWorld).holds (⟨.multiArena ⟨[], 1024, 0, 64, 0⟩, fun _ => 0⟩, 0) [] :=
  sound_nil

/-- The vector after a reserve of one element more than two buckets hold: three are allocated. -/
def threeBuckets : State (Heap × Nat) :=
  (largeVector.run (Provider.ofArena growingWorld).toCalls [.reserve 65537]).2

/-- Three buckets hold 98304 elements, and a reserve of that many is refused. -/
theorem reserve_held_iff_not_held :
    Run (Provider.ofArena growingWorld) largeVector
      (largeVector.run (Provider.ofArena growingWorld).toCalls [.reserve 65537]).1 threeBuckets ∧
    threeBuckets.vector.heldCapacity = 98304 ∧
    (reserve (Provider.ofArena growingWorld).toCalls threeBuckets 98304).1 =
      .errorArithmeticOverflow := by
  refine ⟨Run.of_calls _ _ _, ?_, ?_⟩
  · decide +kernel
  · decide +kernel

/-- The number that was reserved is within the limit, and reserving it again does nothing. -/
theorem reserve_held_iff_sample :
    reserve (Provider.ofArena growingWorld).toCalls threeBuckets 65537 = (.success, threeBuckets) :=
  (reserve_held_iff (Provider.ofArena growingWorld) ⟨0, 0, 0, 0, 0, 0, 0, 0, 0, 0⟩ 15 8 65534
    largeVector_holds (by decide) (Run.of_calls _ largeVector [.reserve 65537]) (by decide)
    (by decide +kernel)).mpr (by decide +kernel)

end Arnm.Vector
