import Arnm.Vector.Filled

set_option autoImplicit false

/-! # One operation of a bucket vector

Each operation keeps the invariant (`Sound`), and the elements it does not remove or write stay
where they are (`Stays`), with the contents they had. -/

namespace Arnm.Vector

open Memory

variable {σ : Type} {p : Provider σ} {st st' st'' : State σ} {items : List (List UInt8)}
  {others : List Block} {n k : Nat} {written written' : List Nat}

/-! ## Elements that stay -/

/-- The first `n` elements are in the buckets and at the offsets they were, and those that were not
written have the bytes they had. -/
structure Stays (p : Provider σ) (st st' : State σ) (n : Nat) (written : List Nat) : Prop where
  elementSize : st'.vector.elementSize = st.vector.elementSize
  log2 : st'.vector.bucketCapacityMaxLog2 = st.vector.bucketCapacityMaxLog2
  slot : ∀ i < n, st'.vector.slot (st'.mem p) (i / st.vector.perBucket) =
    st.vector.slot (st.mem p) (i / st.vector.perBucket)
  bytes : ∀ i < n, i ∉ written → Bytes.AgreeOn (st.mem p) (st'.mem p)
    ⟨st.vector.place (st.mem p) i, st.vector.elementSize⟩

namespace Stays

theorem refl (p : Provider σ) (st : State σ) (n : Nat) (written : List Nat) :
    Stays p st st n written :=
  ⟨rfl, rfl, fun _ _ => rfl, fun _ _ _ => Bytes.AgreeOn.refl _ _⟩

theorem perBucket (h : Stays p st st' n written) : st'.vector.perBucket = st.vector.perBucket := by
  rw [BucketVector.perBucket, BucketVector.perBucket, h.log2]

theorem place (h : Stays p st st' n written) {i : Nat} (hi : i < n) :
    st'.vector.place (st'.mem p) i = st.vector.place (st.mem p) i := by
  rw [BucketVector.place, BucketVector.place, h.perBucket, h.elementSize, h.slot i hi]

theorem mono (h : Stays p st st' n written) (hk : k ≤ n) : Stays p st st' k written :=
  ⟨h.elementSize, h.log2, fun i hi => h.slot i (Nat.lt_of_lt_of_le hi hk),
    fun i hi => h.bytes i (Nat.lt_of_lt_of_le hi hk)⟩

theorem trans (h : Stays p st st' n written) (h' : Stays p st' st'' n written') :
    Stays p st st'' n (written ++ written') where
  elementSize := h'.elementSize.trans h.elementSize
  log2 := h'.log2.trans h.log2
  slot i hi := by
    have hlater := h'.slot i hi
    rw [h.perBucket] at hlater
    exact hlater.trans (h.slot i hi)
  bytes i hi hout := by
    have hlater := h'.bytes i hi fun hmem => hout (List.mem_append_right _ hmem)
    rw [h.place hi, h.elementSize] at hlater
    exact (h.bytes i hi fun hmem => hout (List.mem_append_left _ hmem)).trans hlater

/-- What is read of an element that stayed. -/
theorem read (h : Stays p st st' n written) {i : Nat} (hi : i < n) (hout : i ∉ written) :
    (st'.mem p).read (st'.vector.place (st'.mem p) i) st'.vector.elementSize =
      (st.mem p).read (st.vector.place (st.mem p) i) st.vector.elementSize := by
  rw [h.place hi, h.elementSize, Bytes.read_congr (h.bytes i hi hout)]

end Stays

/-- Buckets that were carried over keep their elements. -/
theorem Carries.stays (h : Carries p st st' k) (hp : st.vector.Params)
    (hn : n ≤ k * st.vector.perBucket) : Stays p st st' n [] := by
  have hbucket : ∀ i < n, i / st.vector.perBucket < k := fun i hi =>
    Nat.div_lt_of_lt_mul (Nat.mul_comm _ st.vector.perBucket ▸ Nat.lt_of_lt_of_le hi hn)
  exact ⟨h.elementSize, h.log2, fun i hi => h.slot _ (hbucket i hi),
    fun i hi _ => (h.bytes _ (hbucket i hi)).within (BucketVector.place_within hp i)⟩

/-- Elements that stayed are the items there were. -/
theorem Filled.carry (h : Filled st.vector (st.mem p) items) (hp : st.vector.Params)
    (hcarry : Carries p st st' k) (hk : st.vector.bucketCount ≤ k) :
    Filled st'.vector (st'.mem p) items := by
  have hstay : Stays p st st' st.vector.size [] :=
    hcarry.stays hp (Nat.le_trans h.size_le (Nat.mul_le_mul_right _ hk))
  refine ⟨hcarry.size.trans h.size, fun hz => ?_, fun hne => ?_, fun i hi => ?_⟩
  · rw [hcarry.tailIndex, hcarry.tailUsed, hstay.perBucket]
    exact h.closed (hcarry.tail ▸ hz)
  · rw [hcarry.tail] at hne
    have hlast : st.vector.tailIndex < k := by
      rw [BucketVector.bucketCount, if_pos hne] at hk
      omega
    rw [hcarry.tail, hcarry.tailIndex, hcarry.tailUsed, hcarry.size, hcarry.slot _ hlast,
      hstay.perBucket]
    exact h.opened hne
  · rw [hstay.read (h.size ▸ hi) List.not_mem_nil, h.value i hi]

theorem Carries.bucketCount (h : Carries p st st' k) :
    st'.vector.bucketCount = st.vector.bucketCount := by
  rw [BucketVector.bucketCount, BucketVector.bucketCount, h.tail, h.tailIndex]

/-- An operation on blocks that carried the buckets in use over. -/
theorem Sound.carry (h : Sound p st items others) (hcarry : Carries p st st' k)
    (hk : st.vector.bucketCount ≤ k) {others' : List Block}
    (hhold : Holding p st' (List.range st'.vector.allocatedCount) others')
    (hused : st.vector.bucketCount ≤ st'.vector.allocatedCount) :
    Sound p st' items others' ∧ Stays p st st' items.length [] := by
  refine ⟨⟨hhold, h.filled.carry h.params hcarry hk, hcarry.bucketCount ▸ hused⟩, ?_⟩
  rw [← h.filled.size]
  exact hcarry.stays h.params (Nat.le_trans h.filled.size_le (Nat.mul_le_mul_right _ hk))

/-- What others do to the allocator leaves the items. -/
theorem Sound.elsewhere (h : Sound p st items others) {heap : σ} {others' : List Block}
    (hheld : p.holds heap (st.vector.blocks (st.mem p) ++ others'))
    (hkept : Keeps (st.vector.blocks (st.mem p)) (st.mem p) (p.bytes heap)) :
    Sound p { st with heap := heap } items others' ∧
      Stays p st { st with heap := heap } items.length [] := by
  obtain ⟨hhold, hcarry⟩ := h.holding.elsewhere hheld hkept
  exact h.carry hcarry h.used hhold h.used

/-- The blocks do not depend on the counters. -/
theorem Holding.recount {occupied : List Nat} (h : Holding p st occupied others)
    (tailIndex tailUsed tail size allocatedCount : Nat) :
    Holding p { st with vector := { st.vector with
      tailIndex := tailIndex, tailUsed := tailUsed, tail := tail, size := size,
      allocatedCount := allocatedCount } } occupied others :=
  ⟨⟨h.params.element_pos, h.params.element_lt, h.params.log2_pos, h.params.log2_le,
    h.params.step_pos, h.params.capacity_le⟩, h.inside, h.null, h.held, h.vacant⟩

/-! ## Init, clear and free -/

theorem init_sound {v : BucketVector}
    {bucketCapacityLog2 indexGrowStepSize elementSize : Nat} {s : σ}
    (hheld : p.holds s others)
    (hok : (init v bucketCapacityLog2 indexGrowStepSize elementSize).1 = .success) :
    Sound p ⟨(init v bucketCapacityLog2 indexGrowStepSize elementSize).2, s⟩ [] others ∧
      (init v bucketCapacityLog2 indexGrowStepSize elementSize).2.elementSize = elementSize := by
  unfold init at hok ⊢
  split at hok
  · cases hok
  · rename_i hparam
    rw [if_neg hparam]
    rw [not_or, not_or, not_or, not_or] at hparam
    obtain ⟨helem, hlog, hmax, -, hlt⟩ := hparam
    refine ⟨⟨⟨⟨Nat.pos_of_ne_zero helem, by show elementSize < 2 ^ 16; omega,
      Nat.pos_of_ne_zero hlog, Nat.le_of_not_lt hmax, ?_, Nat.zero_le _⟩,
      fun i hi => absurd hi List.not_mem_nil, fun _ => rfl, hheld,
      fun i hi => absurd hi (Nat.not_lt_zero i)⟩,
      ⟨rfl, fun _ => ⟨rfl, rfl, rfl⟩, fun hne => absurd rfl hne,
        fun i hi => absurd hi (Nat.not_lt_zero i)⟩, Nat.le_refl _⟩, rfl⟩
    show 0 < if indexGrowStepSize ≠ 0 then indexGrowStepSize else defaultIndexGrowStepSize
    split
    · rename_i hstep
      exact Nat.pos_of_ne_zero hstep
    · decide

/-- The parameters of a vector are accepted again. -/
theorem init_again {v : BucketVector} (hp : v.Params) :
    (init v v.bucketCapacityMaxLog2 v.indexGrowStepSize v.elementSize).1 = .success := by
  have hroom : v.elementSize ≤ (2 ^ 32 - 1) >>> v.bucketCapacityMaxLog2 := by
    rw [Nat.shiftRight_eq_div_pow, Nat.le_div_iff_mul_le (Nat.two_pow_pos _)]
    have hpow : 2 ^ v.bucketCapacityMaxLog2 ≤ 2 ^ 15 := Nat.pow_le_pow_right (by decide) hp.log2_le
    have hmul := Nat.mul_le_mul (Nat.le_of_lt hp.element_lt) hpow
    omega
  have hok : ¬ (v.elementSize = 0 ∨ v.bucketCapacityMaxLog2 = 0 ∨ 15 < v.bucketCapacityMaxLog2 ∨
      (2 ^ 32 - 1) >>> v.bucketCapacityMaxLog2 < v.elementSize ∨ 2 ^ 16 - 1 < v.elementSize) := by
    have := hp.element_pos
    have := hp.element_lt
    have := hp.log2_pos
    have := hp.log2_le
    omega
  rw [init, if_neg hok]

theorem Sound.clear (h : Sound p st items others) :
    Sound p { st with vector := st.vector.clear } [] others where
  holding := h.holding.recount 0 st.vector.perBucket 0 0 st.vector.allocatedCount
  filled := ⟨rfl, fun _ => ⟨rfl, rfl, rfl⟩, fun hne => absurd rfl hne,
    fun i hi => absurd hi (Nat.not_lt_zero i)⟩
  used := Nat.zero_le _

theorem Sound.free (h : Sound p st items others) :
    let r := free p.toCalls st
    Sound p r [] others ∧ r.vector.elementSize = st.vector.elementSize := by
  intro r
  by_cases hz : st.vector.buckets = 0
  · have hsame : r = st := if_pos (Or.inl hz)
    obtain ⟨-, -, htail⟩ := h.null hz
    obtain ⟨hnil, -⟩ := h.filled.closed htail
    rw [hsame]
    exact ⟨hnil ▸ h, rfl⟩
  · obtain ⟨hheld, hvec⟩ := h.holding.free rfl hz
    have hsound := init_sound hheld (init_again h.params)
    have hr : r = ⟨(init st.vector st.vector.bucketCapacityMaxLog2 st.vector.indexGrowStepSize
        st.vector.elementSize).2, r.heap⟩ := by
      rw [← hvec]
    rw [hr]
    exact hsound

/-! ## Reserve and shrink -/

/-- The slots of the index array are grown where they have to be. -/
theorem Sound.reserve (h : Sound p st items others) (elementCount : Nat) :
    let r := reserve p.toCalls st elementCount
    r.1 ≠ .errorInvalidState ∧ Sound p r.2 items others ∧ Stays p st r.2 items.length [] := by
  intro r
  have hr : r = Vector.reserve p.toCalls st elementCount := rfl
  unfold Vector.reserve at hr
  simp only at hr
  split at hr
  · rw [hr]
    exact ⟨by nofun, h, Stays.refl p st _ _⟩
  rw [if_neg (by rw [h.isStateValid]; decide)] at hr
  split at hr
  · rw [hr]
    exact ⟨by nofun, h, Stays.refl p st _ _⟩
  split at hr
  · rw [hr]
    exact ⟨by nofun, h, Stays.refl p st _ _⟩
  rename_i hmax
  rw [h.bucketCountAllocated] at hr
  set needed := (elementCount + st.vector.bucketMask) >>> st.vector.bucketCapacityMaxLog2
  split at hr
  · rw [hr]
    exact ⟨by nofun, h, Stays.refl p st _ _⟩
  rename_i hneeded
  -- with the slots there, the buckets are added one by one, and each one added stays
  have hadd : ∀ {st' : State σ}, Holding p st' (List.range st.vector.allocatedCount) others →
      Carries p st st' st.vector.allocatedCount → needed ≤ st'.vector.bucketCapacity →
      st'.vector.allocatedCount = st.vector.allocatedCount →
      r = addBuckets p.toCalls (needed - st.vector.allocatedCount) st.vector.allocatedCount st' →
      r.1 ≠ .errorInvalidState ∧ Sound p r.2 items others ∧ Stays p st r.2 items.length [] := by
    intro st' hhold hcarry hcap hcount hr
    obtain ⟨hcarry', n', hle, hvec, hhold', hres⟩ := hhold.addBuckets
      (needed - st.vector.allocatedCount) (by omega) hcount
    rw [← hr] at hcarry' hvec hhold' hres
    have hcount' : r.2.vector.allocatedCount = n' := by rw [hvec]
    refine ⟨?_, h.carry (hcarry.trans hcarry') h.used (hcount'.symm ▸ hhold') ?_⟩
    · rcases hres with ⟨-, hvalid⟩ | ⟨hok, -⟩
      · exact hvalid
      · rw [hok]
        nofun
    · have := h.used
      omega
  by_cases hcap : st.vector.bucketCapacity < needed
  · rw [if_pos hcap] at hr
    obtain ⟨hhold, hcarry, hcase⟩ := h.holding.growIndex hcap (by omega)
    cases hgrown : Vector.growIndex p.toCalls st needed with
    | mk result st₁ =>
        rw [hgrown] at hr hhold hcarry hcase
        rcases hcase with ⟨herr, hvalid, hvec⟩ | ⟨hok, hvec⟩
        · simp only at herr hvalid hvec hcarry hhold
          have hrefused : r = (result, st₁) := by
            rw [hr]
            cases result <;> first | (cases herr; done) | rfl
          rw [hrefused]
          have hcount : st₁.vector.allocatedCount = st.vector.allocatedCount := by rw [hvec]
          exact ⟨hvalid, h.carry hcarry h.used (hcount.symm ▸ hhold) (hcount.symm ▸ h.used)⟩
        · simp only at hok hvec hcarry hhold
          rw [hok] at hr
          refine hadd hhold hcarry ?_ ?_ hr
          · rw [hvec]
          · rw [hvec]
  · rw [if_neg hcap] at hr
    exact hadd h.holding (Carries.refl p st _) (by omega) rfl hr

/-- The buckets above those in use go, as far as the allocator takes them back. -/
theorem Sound.shrink (h : Sound p st items others) :
    let r := shrink p.toCalls st
    r.1 ≠ .errorInvalidState ∧ Sound p r.2 items others ∧ Stays p st r.2 items.length [] := by
  intro r
  have hr : r = Vector.shrink p.toCalls st := rfl
  unfold Vector.shrink at hr
  simp only at hr
  split at hr
  · rw [hr]
    exact ⟨by nofun, h, Stays.refl p st _ _⟩
  rename_i hne
  rw [if_neg (by rw [h.isStateValid]; decide), h.bucketCountAllocated] at hr
  have hused := h.used
  -- however many buckets went, the index array is cut after them
  have hindex : ∀ {st₁ : State σ} {count : Nat}, Holding p st₁ (List.range count) others →
      Carries p st st₁ st.vector.bucketCount → st.vector.bucketCount ≤ count →
      count ≤ st.vector.allocatedCount → st₁.vector = st.vector →
      r = Vector.shrinkIndex p.toCalls
        { st₁ with vector := { st₁.vector with allocatedCount := count } } count →
      r.1 ≠ .errorInvalidState ∧ Sound p r.2 items others ∧ Stays p st r.2 items.length [] := by
    intro st₁ count hhold hcarry hlo hhi hvec hr
    have hhold₁ : Holding p { st₁ with vector := { st₁.vector with allocatedCount := count } }
        (List.range count) others :=
      hhold.recount st₁.vector.tailIndex st₁.vector.tailUsed st₁.vector.tail st₁.vector.size count
    have hcarry₁ : Carries p st { st₁ with vector := { st₁.vector with allocatedCount := count } }
        st.vector.bucketCount :=
      ⟨hcarry.elementSize, hcarry.log2, hcarry.tail, hcarry.tailIndex, hcarry.tailUsed, hcarry.size,
        hcarry.slot, hcarry.bytes⟩
    obtain ⟨hhold', hcarry', hvalid, hvec'⟩ := hhold₁.shrinkIndex (by rw [hvec]; exact hne)
      (by rw [hvec]; exact Nat.le_trans hhi h.allocated_le)
    rw [← hr] at hhold' hcarry' hvalid hvec'
    have hcount : r.2.vector.allocatedCount = count := by rw [hvec']
    exact ⟨hvalid, h.carry (hcarry₁.trans (hcarry'.mono hlo)) (Nat.le_refl _)
      (hcount.symm ▸ hhold') (hcount.symm ▸ hlo)⟩
  have hall : st.vector.bucketCount + (st.vector.allocatedCount - st.vector.bucketCount) =
      st.vector.allocatedCount := by omega
  -- an arena takes back only its tail, so the newest goes first
  by_cases harena : p.isArena = true
  · rw [if_pos harena] at hr
    have hholding : Holding p st (List.range (st.vector.bucketCount +
        (st.vector.allocatedCount - st.vector.bucketCount))) others := hall.symm ▸ h.holding
    obtain ⟨hhold, hcarry, hlo, hhi, hvec⟩ := hholding.releaseNewestFirst
    rw [hall] at hhi
    exact hindex hhold hcarry hlo hhi hvec hr
  · rw [if_neg harena] at hr
    have hrange : List.range st.vector.bucketCount ++ List.range' st.vector.bucketCount
        (st.vector.allocatedCount - st.vector.bucketCount) =
        List.range st.vector.allocatedCount := by
      rw [← hall, List.range_add, List.range'_eq_map_range, hall]
    obtain ⟨hhold, hcarry, hvec⟩ := Holding.releaseOldestFirst (k := st.vector.allocatedCount -
      st.vector.bucketCount) st.vector.bucketCount (Nat.le_refl _) (hrange.symm ▸ h.holding)
    exact hindex hhold hcarry (Nat.le_refl _) hused hvec hr

end Arnm.Vector
