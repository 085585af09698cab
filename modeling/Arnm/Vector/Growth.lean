import Arnm.Vector.Shape

set_option autoImplicit false

/-! # Growing a bucket vector

Each of the two allocations of a growth either is refused and leaves the vector as it was, or adds
its part: more slots of the index array, the old ones with their pointers, or one more bucket. -/

namespace Arnm.Vector

open Memory

variable {σ : Type} {p : Provider σ} {st : State σ} {n : Nat} {others : List Block}

/-- The index array is at a place where its old slots read as before and the further ones are
zero. -/
theorem Holding.reindexed (h : Holding p st (List.range n) others) {heap : σ}
    {buckets newCapacity : Nat}
    (hlt : st.vector.bucketCapacity < newCapacity) (hmax : newCapacity ≤ maxIndexCapacity)
    (hheld : p.holds heap (⟨buckets, indexBytes newCapacity⟩ ::
      (st.vector.bucketBlocks (st.mem p) (List.range n) ++ others)))
    (hcopied : ∀ k < indexBytes st.vector.bucketCapacity,
      p.bytes heap (buckets + k) = st.mem p (st.vector.buckets + k))
    (hkeep : Keeps (st.vector.bucketBlocks (st.mem p) (List.range n) ++ others) (st.mem p)
      (p.bytes heap)) :
    let st' : State σ :=
      { vector := { st.vector with buckets := buckets, bucketCapacity := newCapacity }
        heap := p.write ((p.bytes heap).fill (buckets + indexBytes st.vector.bucketCapacity)
          (indexBytes newCapacity - indexBytes st.vector.bucketCapacity) 0) heap }
    Holding p st' (List.range n) others ∧ Carries p st st' n := by
  intro st'
  have hmem : st'.mem p = (p.bytes heap).fill (buckets + indexBytes st.vector.bucketCapacity)
      (indexBytes newCapacity - indexBytes st.vector.bucketCapacity) 0 := p.lawful.bytes_write _ _
  have hinside : ∀ i < n, i < st.vector.bucketCapacity := fun i hi =>
    h.inside i (List.mem_range.mpr hi)
  have hne : buckets ≠ 0 := (p.lawful.room hheld _ List.mem_cons_self).1
  -- the slots there were
  have hold : ∀ i < st.vector.bucketCapacity,
      st'.vector.slot (st'.mem p) i = st.vector.slot (st.mem p) i := by
    intro i hi
    have hpast : Region.Apart ⟨buckets + indexBytes st.vector.bucketCapacity,
        indexBytes newCapacity - indexBytes st.vector.bucketCapacity⟩ ⟨buckets + i * 8, 8⟩ := by
      refine Or.inr ?_
      simp only [Region.stop_mk, indexBytes]
      omega
    have hread : (p.bytes heap).read (buckets + i * 8) 8 =
        (st.mem p).read (st.vector.buckets + i * 8) 8 :=
      Bytes.read_shift hcopied (by unfold indexBytes; omega)
    show Bytes.word _ _ = Bytes.word _ _
    rw [hmem]
    show Bytes.word _ (buckets + i * 8) = _
    rw [Bytes.word_congr (Bytes.fill_agreeOn hpast), Bytes.word, Bytes.word, hread]
  have hblocks : st'.vector.bucketBlocks (st'.mem p) (List.range n) =
      st.vector.bucketBlocks (st.mem p) (List.range n) :=
    List.map_congr_left fun i hi => by
      rw [hold i (hinside i (List.mem_range.mp hi))]
      rfl
  have hapart := (List.pairwise_cons.mp (p.lawful.apart hheld)).1
  refine ⟨⟨⟨h.params.element_pos, h.params.element_lt, h.params.log2_pos, h.params.log2_le,
      h.params.step_pos, hmax⟩, fun i hi => Nat.lt_trans (h.inside i hi) hlt,
        fun hz => absurd hz hne,
      ?_, fun i hi hvacant => ?_⟩, rfl, rfl, rfl, rfl, rfl, rfl, fun i hi => hold i (hinside i hi),
      fun i hi => ?_⟩
  · rw [hblocks, BucketVector.indexBlock_of_ne hne]
    exact p.lawful.holds_write _ hheld
  · by_cases hlow : i < st.vector.bucketCapacity
    · rw [hold i hlow]
      exact h.vacant i hlow hvacant
    · rw [hmem]
      refine Bytes.word_fill_zero ⟨?_, ?_⟩
      · show buckets + indexBytes st.vector.bucketCapacity ≤ buckets + i * 8
        unfold indexBytes
        omega
      · have hi' : i < newCapacity := hi
        show buckets + i * 8 + 8 ≤ _
        simp only [Region.stop_mk, indexBytes]
        omega
  · rw [hmem]
    have hb : st.vector.bucketBlock (st.vector.slot (st.mem p) i) ∈
        st.vector.bucketBlocks (st.mem p) (List.range n) ++ others :=
      List.mem_append_left _ (List.mem_map_of_mem (List.mem_range.mpr hi))
    refine (hkeep _ hb).trans (Bytes.fill_agreeOn ((hapart _ hb).within ?_ (Region.Within.refl _)))
    constructor
    · exact Nat.le_add_right _ _
    · have hle : indexBytes st.vector.bucketCapacity ≤ indexBytes newCapacity := by
        unfold indexBytes
        omega
      simp only [Block.extent, Region.stop_mk]
      omega

/-- The allocator moved on and the index array was kept. -/
theorem Holding.moved {occupied : List Nat} (h : Holding p st occupied others) {heap : σ}
    {others' : List Block}
    (hheld : p.holds heap (st.vector.indexBlock ++
      st.vector.bucketBlocks (st.mem p) occupied ++ others'))
    (hkeep : Keeps st.vector.indexBlock (st.mem p) (p.bytes heap)) :
    Holding p { st with heap := heap } occupied others' := by
  have hslot : ∀ i < st.vector.bucketCapacity,
      st.vector.slot (p.bytes heap) i = st.vector.slot (st.mem p) i :=
    fun i hi => h.slot_of_keeps hkeep hi
  refine ⟨h.params, h.inside, h.null, ?_, fun i hi hvacant => ?_⟩
  · have hblocks := BucketVector.bucketBlocks_congr (v := st.vector) fun i hi =>
      hslot i (h.inside i hi)
    show p.holds heap (st.vector.indexBlock ++
      st.vector.bucketBlocks (p.bytes heap) occupied ++ others')
    rw [hblocks]
    exact hheld
  · exact (hslot i hi).trans (h.vacant i hi hvacant)

/-- The allocator moved on and the first buckets were kept. -/
theorem Holding.carries {occupied : List Nat} (h : Holding p st occupied others) {heap : σ}
    (hn : ∀ i < n, i < st.vector.bucketCapacity)
    (hkeep : Keeps (st.vector.indexBlock ++ st.vector.bucketBlocks (st.mem p) (List.range n))
      (st.mem p) (p.bytes heap)) : Carries p st { st with heap := heap } n := by
  refine ⟨rfl, rfl, rfl, rfl, rfl, rfl, fun i hi => ?_, fun i hi => ?_⟩
  · exact h.slot_of_keeps (hkeep.subset (List.subset_append_left _ _)) (hn i hi)
  · exact hkeep _ (List.mem_append_right _ (List.mem_map_of_mem (List.mem_range.mpr hi)))

/-- The allocator moved on and everything was kept. -/
theorem Holding.elsewhere (h : Holding p st (List.range n) others) {heap : σ} {others' : List Block}
    (hheld : p.holds heap (st.vector.indexBlock ++
      st.vector.bucketBlocks (st.mem p) (List.range n) ++ others'))
    (hkeep : Keeps (st.vector.indexBlock ++ st.vector.bucketBlocks (st.mem p) (List.range n))
      (st.mem p) (p.bytes heap)) :
    Holding p { st with heap := heap } (List.range n) others' ∧
      Carries p st { st with heap := heap } n :=
  ⟨h.moved hheld (hkeep.subset (List.subset_append_left _ _)),
    h.carries (fun i hi => h.inside i (List.mem_range.mpr hi)) hkeep⟩

/-- A refused growth of the index array leaves the pointer as it was. -/
theorem Holding.growIndex_refused (h : Holding p st (List.range n) others) {newCapacity : Nat}
    (hnew : indexBytes newCapacity ≠ 0)
    (href : p.toCalls.Refused p.holds st.vector.buckets st.heap
      (st.vector.indexBlock ++ st.vector.bucketBlocks (st.mem p) (List.range n) ++ others)
      (p.realloc st.vector.buckets (indexBytes st.vector.bucketCapacity)
        (indexBytes newCapacity) st.heap)) :
    let r := growIndex p.toCalls st newCapacity
    Holding p r.2 (List.range n) others ∧ Carries p st r.2 n ∧
      r.1.isError = true ∧ r.1 ≠ .errorInvalidState ∧ r.2.vector = st.vector := by
  have hvalid := p.lawful.realloc_valid st.vector.buckets (indexBytes st.vector.bucketCapacity)
    (indexBytes newCapacity) hnew h.held
  unfold Vector.growIndex
  obtain ⟨herr, hbuf, hheld, hkeep⟩ := href
  set index := p.realloc st.vector.buckets (indexBytes st.vector.bucketCapacity)
    (indexBytes newCapacity) st.heap
  have hbad : index.result ≠ .success ∧ index.result ≠ .warningArenaMemoryNotReclaimed := by
    constructor <;> intro heq <;> rw [heq] at herr <;> cases herr
  have hsame : (⟨{ st.vector with buckets := index.buffer }, index.state⟩ : State σ) =
      { st with heap := index.state } := by
    rw [hbuf]
  rw [if_pos hbad]
  dsimp only
  rw [hsame]
  obtain ⟨hhold, hcarry⟩ := h.elsewhere hheld (hkeep.subset (List.subset_append_left _ _))
  exact ⟨hhold, hcarry, herr, hvalid, congrArg State.vector hsame⟩

/-- A growth of the index array that the allocator grants, with or without the warning. -/
theorem Holding.growIndex_granted (h : Holding p st (List.range n) others) {newCapacity : Nat}
    (hlt : st.vector.bucketCapacity < newCapacity) (hmax : newCapacity ≤ maxIndexCapacity) :
    let index := p.realloc st.vector.buckets (indexBytes st.vector.bucketCapacity)
      (indexBytes newCapacity) st.heap
    (index.result = .success ∨ index.result = .warningArenaMemoryNotReclaimed) →
    p.holds index.state (⟨index.buffer, indexBytes newCapacity⟩ ::
      (st.vector.bucketBlocks (st.mem p) (List.range n) ++ others)) →
    (∀ k < indexBytes st.vector.bucketCapacity,
      p.bytes index.state (index.buffer + k) = st.mem p (st.vector.buckets + k)) →
    Keeps (st.vector.bucketBlocks (st.mem p) (List.range n) ++ others) (st.mem p)
      (p.bytes index.state) →
    let r := growIndex p.toCalls st newCapacity
    Holding p r.2 (List.range n) others ∧ Carries p st r.2 n ∧
      r.1 = .success ∧ r.2.vector = { st.vector with
        buckets := r.2.vector.buckets, bucketCapacity := newCapacity } := by
  intro index hres hheld hcopied hkeep
  have hgood : ¬ (index.result ≠ .success ∧
      index.result ≠ .warningArenaMemoryNotReclaimed) := by
    rintro ⟨h₁, h₂⟩
    exact hres.elim h₁ h₂
  unfold Vector.growIndex
  simp only
  rw [if_neg hgood]
  obtain ⟨hhold, hcarry⟩ := h.reindexed hlt hmax hheld hcopied hkeep
  exact ⟨hhold, hcarry, rfl, rfl⟩

/-- The growth of the index array: refused without a trace, or carried out with every pointer
kept. -/
theorem Holding.growIndex (h : Holding p st (List.range n) others) {newCapacity : Nat}
    (hlt : st.vector.bucketCapacity < newCapacity) (hmax : newCapacity ≤ maxIndexCapacity) :
    let r := growIndex p.toCalls st newCapacity
    Holding p r.2 (List.range n) others ∧ Carries p st r.2 n ∧
    (r.1.isError = true ∧ r.1 ≠ .errorInvalidState ∧ r.2.vector = st.vector ∨
      r.1 = .success ∧ r.2.vector = { st.vector with
        buckets := r.2.vector.buckets, bucketCapacity := newCapacity }) := by
  intro r
  have hnew : indexBytes newCapacity ≠ 0 := by
    unfold indexBytes
    omega
  have hrefused := h.growIndex_refused hnew
  have hgranted := h.growIndex_granted hlt hmax
  have hheld := h.held
  by_cases hz : st.vector.buckets = 0
  · -- there was no index array
    have hcap := h.null hz
    have hindex : p.realloc st.vector.buckets (indexBytes st.vector.bucketCapacity)
        (indexBytes newCapacity) st.heap = p.realloc 0 0 (indexBytes newCapacity) st.heap := by
      rw [hz, hcap]
      rfl
    have hnone : st.vector.indexBlock = [] := if_pos hz
    rw [hnone, List.nil_append] at hheld hrefused
    rw [hindex] at hrefused hgranted
    rw [hz] at hrefused
    rcases p.lawful.realloc_null (indexBytes newCapacity) hnew hheld with href | ⟨hres, hst, hkeep⟩
    · obtain ⟨hhold, hcarry, hres⟩ := hrefused href
      exact ⟨hhold, hcarry, Or.inl hres⟩
    · obtain ⟨hhold, hcarry, hdone⟩ :=
        hgranted hres hst (by rw [hcap]; intro k hk; simp [indexBytes] at hk) hkeep
      exact ⟨hhold, hcarry, Or.inr hdone⟩
  · rw [BucketVector.indexBlock_of_ne hz, List.append_assoc, List.singleton_append]
      at hheld hrefused
    rcases p.lawful.realloc (indexBytes newCapacity) hnew hheld with
      href | ⟨-, hless, -⟩ | ⟨hres, hst, hcopied, hkeep⟩
    · obtain ⟨hhold, hcarry, hres⟩ := hrefused href
      exact ⟨hhold, hcarry, Or.inl hres⟩
    · unfold indexBytes at hless
      omega
    · obtain ⟨hhold, hcarry, hdone⟩ := hgranted (hres.imp_right And.left) hst
        (fun k hk => hcopied k (by unfold indexBytes at hk ⊢; omega)) hkeep
      exact ⟨hhold, hcarry, Or.inr hdone⟩

/-! ## One more bucket -/

theorem cons_perm_middle {α : Type} (a : α) (x y z : List α) :
    (a :: (x ++ y ++ z)).Perm (x ++ (y ++ [a]) ++ z) := by
  rw [← List.append_assoc x, List.append_assoc (x ++ y), List.singleton_append]
  exact List.perm_middle.symm

/-- The block of a fresh bucket and the pointer to it in the next slot. -/
theorem Holding.placed (h : Holding p st (List.range n) others) {heap : σ} {bucket : Nat}
    (count : Nat) (hn : n < st.vector.bucketCapacity)
    (hheld : p.holds heap (st.vector.bucketBlock bucket :: (st.vector.indexBlock ++
      st.vector.bucketBlocks (st.mem p) (List.range n) ++ others)))
    (hkeep : Keeps
      (st.vector.indexBlock ++ st.vector.bucketBlocks (st.mem p) (List.range n) ++ others)
      (st.mem p) (p.bytes heap)) :
    let st' : State σ :=
      { vector := { st.vector with allocatedCount := count }
        heap := (putSlot p.toCalls { st with heap := heap } n bucket).heap }
    Holding p st' (List.range (n + 1)) others ∧ Carries p st st' n := by
  intro st'
  obtain ⟨hhold, hcarry⟩ := h.elsewhere (p.lawful.forget hheld)
    (hkeep.subset (List.subset_append_left _ _))
  have hmem : st'.mem p = (p.bytes heap).putWord (st.vector.buckets + n * 8) bucket :=
    mem_putSlot { st with heap := heap } n bucket
  have hroom := p.lawful.room hheld _ List.mem_cons_self
  have hb : bucket < 2 ^ 64 := by
    obtain ⟨-, hpos, hstop⟩ := hroom
    simp only [BucketVector.bucketBlock] at hpos hstop
    omega
  have hslot : ∀ j, st'.vector.slot (st'.mem p) j =
      if j = n then bucket else st.vector.slot (p.bytes heap) j := by
    intro j
    rw [hmem]
    exact slot_putSlot { st with heap := heap } hb
  have hold : ∀ j < n, st'.vector.slot (st'.mem p) j = st.vector.slot (st.mem p) j := by
    intro j hj
    rw [hslot j, if_neg (Nat.ne_of_lt hj)]
    exact hcarry.slot j hj
  have hblocks : st'.vector.bucketBlocks (st'.mem p) (List.range (n + 1)) =
      st.vector.bucketBlocks (st.mem p) (List.range n) ++ [st.vector.bucketBlock bucket] := by
    have hsame : ∀ addr, st'.vector.bucketBlock addr = st.vector.bucketBlock addr := fun _ => rfl
    have hmap : st'.vector.bucketBlocks (st'.mem p) (List.range n) =
        st.vector.bucketBlocks (st.mem p) (List.range n) :=
      List.map_congr_left fun i hi => by rw [hold i (List.mem_range.mp hi), hsame]
    calc st'.vector.bucketBlocks (st'.mem p) (List.range (n + 1))
        = st'.vector.bucketBlocks (st'.mem p) (List.range n) ++
            [st'.vector.bucketBlock (st'.vector.slot (st'.mem p) n)] := by
          rw [BucketVector.bucketBlocks, List.range_succ, List.map_append, List.map_singleton]
          rfl
      _ = st.vector.bucketBlocks (st.mem p) (List.range n) ++ [st.vector.bucketBlock bucket] := by
          rw [hmap, hslot n, if_pos rfl, hsame]
  have hinside : ∀ i ∈ List.range (n + 1), i < st.vector.bucketCapacity := fun i hi => by
    have := List.mem_range.mp hi
    omega
  refine ⟨⟨⟨h.params.element_pos, h.params.element_lt, h.params.log2_pos, h.params.log2_le,
      h.params.step_pos, h.params.capacity_le⟩, hinside, h.null, ?_, fun i hi hvacant => ?_⟩,
    rfl, rfl, rfl, rfl, rfl, rfl, hold, fun i hi => ?_⟩
  · rw [hblocks, show st'.vector.indexBlock = st.vector.indexBlock from rfl]
    exact p.lawful.holds_write _ (p.lawful.perm hheld (cons_perm_middle _ _ _ _))
  · have hni : i ≠ n := fun heq => hvacant (List.mem_range.mpr (by omega))
    rw [hslot i, if_neg hni]
    exact hhold.vacant i hi fun hmem => hvacant (List.mem_range.mpr (by
      have := List.mem_range.mp hmem
      omega))
  · rw [hmem]
    refine (hcarry.bytes i hi).trans ?_
    have hlast := hhold.putSlot_agreeOn bucket hn
      (List.mem_append_left others (List.mem_map_of_mem (List.mem_range.mpr hi)))
    rw [hcarry.bucketBlock, hcarry.slot i hi] at hlast
    exact hlast

/-- A further bucket: refused without a trace, or behind the others. -/
theorem Holding.addBucket (h : Holding p st (List.range n) others)
    (hn : n < st.vector.bucketCapacity) :
    let r := addBucket p.toCalls st n
    Carries p st r.2 n ∧
    (r.1.isError = true ∧ r.1 ≠ .errorInvalidState ∧ r.2.vector = st.vector ∧
        Holding p r.2 (List.range n) others ∨
      r.1 = .success ∧ r.2.vector = { st.vector with allocatedCount := n + 1 } ∧
        Holding p r.2 (List.range (n + 1)) others) := by
  intro r
  have hr : r = Vector.addBucket p.toCalls st n := rfl
  unfold Vector.addBucket at hr
  have hvalid := p.lawful.alloc_valid 0 st.vector.bucketBytes h.held
  rcases p.lawful.alloc 0 st.vector.bucketBytes h.held with ⟨herr, -, hheld, hkeep⟩ |
    ⟨hok, hheld, hkeep⟩
  · rw [if_pos (Result.ne_success_of_isError herr)] at hr
    obtain ⟨hhold, hcarry⟩ := h.elsewhere hheld (hkeep.subset (List.subset_append_left _ _))
    rw [hr]
    exact ⟨hcarry, Or.inl ⟨herr, hvalid, rfl, hhold⟩⟩
  · rw [if_neg fun hne => hne hok] at hr
    obtain ⟨hhold, hcarry⟩ := h.placed (n + 1) hn hheld hkeep
    rw [hr]
    exact ⟨hcarry, Or.inr ⟨rfl, rfl, hhold⟩⟩

theorem addBuckets_succ (allocator : Calls σ) (k bucketCount : Nat) (st : State σ) :
    addBuckets allocator (k + 1) bucketCount st =
      if (addBucket allocator st bucketCount).1 = .success then
        addBuckets allocator k (bucketCount + 1) (addBucket allocator st bucketCount).2
      else addBucket allocator st bucketCount := by
  rw [addBuckets]
  cases addBucket allocator st bucketCount with
  | mk result st' => cases result <;> rfl

/-- What the loop of `arnm_bvec_reserve` leaves, refused or not: some of the buckets it wanted. -/
theorem Holding.addBuckets (k : Nat) (h : Holding p st (List.range n) others)
    (hn : n + k ≤ st.vector.bucketCapacity) (hcount : st.vector.allocatedCount = n) :
    let r := addBuckets p.toCalls k n st
    Carries p st r.2 n ∧
    ∃ n', n ≤ n' ∧ r.2.vector = { st.vector with allocatedCount := n' } ∧
      Holding p r.2 (List.range n') others ∧
      (r.1.isError = true ∧ r.1 ≠ .errorInvalidState ∨ r.1 = .success ∧ n' = n + k) := by
  induction k generalizing n st with
  | zero =>
      exact ⟨Carries.refl p st n, n, Nat.le_refl _, by rw [← hcount]; rfl, h, Or.inr ⟨rfl, rfl⟩⟩
  | succ k ih =>
      intro r
      have hr : r = _ := addBuckets_succ p.toCalls k n st
      obtain ⟨hcarry, hcase⟩ := h.addBucket (show n < st.vector.bucketCapacity by omega)
      rcases hcase with ⟨herr, hvalid, hvec, hhold⟩ | ⟨hok, hvec, hhold⟩
      · rw [if_neg (Result.ne_success_of_isError herr)] at hr
        rw [hr]
        exact ⟨hcarry, n, Nat.le_refl _, by rw [hvec, ← hcount], hhold, Or.inl ⟨herr, hvalid⟩⟩
      · rw [if_pos hok] at hr
        have hcap : (Vector.addBucket p.toCalls st n).2.vector.bucketCapacity =
            st.vector.bucketCapacity := by rw [hvec]
        obtain ⟨hcarry', n', hle, hvec', hhold', hres⟩ :=
          ih hhold (by rw [hcap]; omega) (by rw [hvec])
        rw [hr]
        refine ⟨hcarry.trans (hcarry'.mono (Nat.le_succ n)), n', by omega, ?_, hhold', ?_⟩
        · rw [hvec', hvec]
        · exact hres.imp_right fun ⟨hok', hn'⟩ => ⟨hok', by omega⟩

end Arnm.Vector
