import Arnm.Vector.Growth

set_option autoImplicit false

/-! # Giving the blocks of a bucket vector back

Both loops of `arnm_bvec_shrink` release the buckets above those in use, from one end or from the
other; a bucket that an arena does not take back is kept, or forgotten. The index array follows
them, and `arnm_bvec_free` gives everything back. -/

namespace Arnm.Vector

open Memory

variable {σ : Type} {p : Provider σ} {st : State σ} {n : Nat} {others : List Block}
  {occupied : List Nat}

/-! ## One bucket -/

theorem bucketBlocks_perm_erase {v : BucketVector} {m : Bytes} {i : Nat} (hi : i ∈ occupied) :
    (v.bucketBlocks m occupied).Perm
      (v.bucketBlock (v.slot m i) :: v.bucketBlocks m (occupied.erase i)) :=
  (List.perm_cons_erase hi).map _

/-- A bucket was given back, or it is still held; the other blocks are kept. -/
theorem Holding.freed (h : Holding p st occupied others) {i : Nat} (hi : i ∈ occupied) :
    let freed := p.free (st.vector.slot (st.mem p) i) st.vector.bucketBytes st.heap
    (freed.1 = .success ∨ p.holds freed.2 (st.vector.indexBlock ++
      st.vector.bucketBlocks (st.mem p) occupied ++ others)) ∧
    p.holds freed.2 (st.vector.indexBlock ++
      st.vector.bucketBlocks (st.mem p) (occupied.erase i) ++ others) ∧
    Keeps (st.vector.indexBlock ++ st.vector.bucketBlocks (st.mem p) (occupied.erase i) ++ others)
      (st.mem p) (p.bytes freed.2) := by
  intro freed
  have hperm : (st.vector.indexBlock ++ st.vector.bucketBlocks (st.mem p) occupied ++ others).Perm
      (st.vector.bucketBlock (st.vector.slot (st.mem p) i) :: (st.vector.indexBlock ++
        st.vector.bucketBlocks (st.mem p) (occupied.erase i) ++ others)) := by
    rw [List.append_assoc, List.append_assoc]
    refine (((bucketBlocks_perm_erase hi).append_right others).append_left _).trans ?_
    exact List.perm_middle
  obtain ⟨hres, hkeep⟩ := p.lawful.free (p.lawful.perm h.held hperm)
  rcases hres with ⟨hok, hheld⟩ | ⟨-, hheld, -⟩
  · exact ⟨Or.inl hok, hheld, hkeep⟩
  · exact ⟨Or.inr (p.lawful.perm hheld hperm.symm), p.lawful.forget hheld, hkeep⟩

/-- A bucket that was given back leaves its slot `NULL`. -/
theorem Holding.release (h : Holding p st occupied others) (hnodup : occupied.Nodup) {i : Nat}
    (hi : i ∈ occupied) (hn : ∀ j < n, j ∈ occupied.erase i) :
    let st' := putSlot p.toCalls { st with
      heap := (p.free (st.vector.slot (st.mem p) i) st.vector.bucketBytes st.heap).2 } i 0
    Holding p st' (occupied.erase i) others ∧ Carries p st st' n := by
  intro st'
  obtain ⟨-, hheld, hkeep⟩ := h.freed hi
  set heap := (p.free (st.vector.slot (st.mem p) i) st.vector.bucketBytes st.heap).2
  have hcap : ∀ j ∈ occupied.erase i, j < st.vector.bucketCapacity := fun j hj =>
    h.inside j (List.mem_of_mem_erase hj)
  have hindex : Keeps st.vector.indexBlock (st.mem p) (p.bytes heap) :=
    hkeep.subset fun b hb => List.mem_append_left _ (List.mem_append_left _ hb)
  have hmem : st'.mem p = (p.bytes heap).putWord (st.vector.buckets + i * 8) 0 :=
    mem_putSlot { st with heap := heap } i 0
  have hslot : ∀ j < st.vector.bucketCapacity, st'.vector.slot (st'.mem p) j =
      if j = i then 0 else st.vector.slot (st.mem p) j := by
    intro j hj
    rw [hmem, ← h.slot_of_keeps hindex hj]
    exact slot_putSlot { st with heap := heap } (by decide)
  have hother : ∀ j ∈ occupied.erase i,
      st'.vector.slot (st'.mem p) j = st.vector.slot (st.mem p) j := fun j hj => by
    rw [hslot j (hcap j hj), if_neg (hnodup.mem_erase_iff.mp hj).1]
  have hblocks : st'.vector.bucketBlocks (st'.mem p) (occupied.erase i) =
      st.vector.bucketBlocks (st.mem p) (occupied.erase i) :=
    List.map_congr_left fun j hj => by
      rw [hother j hj]
      rfl
  refine ⟨⟨h.params, hcap, h.null, ?_, fun j hj hvacant => ?_⟩,
    rfl, rfl, rfl, rfl, rfl, rfl, fun j hj => hother j (hn j hj), fun j hj => ?_⟩
  · rw [hblocks]
    exact p.lawful.holds_write _ hheld
  · rw [hslot j hj]
    split
    · rfl
    · rename_i hji
      exact h.vacant j hj fun hmem => hvacant (hnodup.mem_erase_iff.mpr ⟨hji, hmem⟩)
  · rw [hmem]
    have hb : st.vector.bucketBlock (st.vector.slot (st.mem p) j) ∈
        st.vector.bucketBlocks (st.mem p) (occupied.erase i) := List.mem_map_of_mem (hn j hj)
    refine (hkeep _ (List.mem_append_left _ (List.mem_append_right _ hb))).trans
      (Bytes.putWord_agreeOn (h.pointer_apart (h.inside i hi) (List.mem_append_left _ ?_)))
    exact List.mem_map_of_mem (List.mem_of_mem_erase (hn j hj))

/-! ## The loops -/

theorem erase_range_last (n : Nat) : (List.range (n + 1)).erase n = List.range n := by
  rw [List.range_succ, List.erase_append_right _ (by simp), List.erase_cons_head, List.append_nil]

/-- Newest first, the buckets above those in use go until one is not taken back. -/
theorem Holding.releaseNewestFirst {used k : Nat}
    (h : Holding p st (List.range (used + k)) others) :
    let r := releaseNewestFirst p.toCalls used k st
    Holding p r.2 (List.range r.1) others ∧ Carries p st r.2 used ∧ used ≤ r.1 ∧ r.1 ≤ used + k ∧
      r.2.vector = st.vector := by
  induction k generalizing st with
  | zero => exact ⟨h, Carries.refl p st used, Nat.le_refl _, Nat.le_refl _, rfl⟩
  | succ k ih =>
      intro r
      have hr : r = Vector.releaseNewestFirst p.toCalls used (k + 1) st := rfl
      have hlast : used + k ∈ List.range (used + (k + 1)) := List.mem_range.mpr (by omega)
      have herase : (List.range (used + (k + 1))).erase (used + k) = List.range (used + k) :=
        erase_range_last (used + k)
      unfold Vector.releaseNewestFirst at hr
      have hslot : st.vector.slot (p.bytes st.heap) (used + k) ≠ 0 := h.slot_ne hlast
      rw [if_neg hslot] at hr
      obtain ⟨hres, -, hkeep⟩ := h.freed hlast
      rw [herase] at hkeep
      by_cases hok : (p.free (st.vector.slot (st.mem p) (used + k)) st.vector.bucketBytes
          st.heap).1 = .success
      · obtain ⟨hhold, hcarry⟩ := h.release (n := used) List.nodup_range hlast fun j hj => by
          rw [herase]
          exact List.mem_range.mpr (by omega)
        rw [herase] at hhold
        obtain ⟨hhold', hcarry', hlo, hhi, hvec⟩ := ih hhold
        have hgo : r = Vector.releaseNewestFirst p.toCalls used k (putSlot p.toCalls { st with
            heap := (p.free (st.vector.slot (st.mem p) (used + k)) st.vector.bucketBytes
              st.heap).2 } (used + k) 0) := by
          rw [hr]
          exact if_neg fun hne => hne hok
        rw [hgo]
        exact ⟨hhold', hcarry.trans hcarry', hlo, by omega, hvec⟩
      · have hheld := hres.resolve_left hok
        have hstop : r = (used + k + 1, { st with
            heap := (p.free (st.vector.slot (st.mem p) (used + k)) st.vector.bucketBytes
              st.heap).2 }) := by
          rw [hr]
          exact if_pos hok
        rw [hstop]
        refine ⟨h.moved hheld ?_, h.carries (fun i hi => h.inside i (List.mem_range.mpr (by omega)))
          ?_, by omega, Nat.le_refl _, rfl⟩
        · exact hkeep.subset fun b hb => List.mem_append_left _ (List.mem_append_left _ hb)
        · refine hkeep.subset fun b hb => List.mem_append_left _ ?_
          rcases List.mem_append.mp hb with hb | hb
          · exact List.mem_append_left _ hb
          · obtain ⟨i, hi, rfl⟩ := List.mem_map.mp hb
            have := List.mem_range.mp hi
            exact List.mem_append_right _ (List.mem_map_of_mem (List.mem_range.mpr (by omega)))

/-- Oldest first, all buckets above those in use go. -/
theorem Holding.releaseOldestFirst {used k : Nat} (k₀ : Nat) (hk : used ≤ k₀)
    (h : Holding p st (List.range used ++ List.range' k₀ k) others) :
    let r := releaseOldestFirst p.toCalls k k₀ st
    Holding p r (List.range used) others ∧ Carries p st r used ∧ r.vector = st.vector := by
  induction k generalizing st k₀ with
  | zero =>
      rw [List.range'_zero, List.append_nil] at h
      exact ⟨h, Carries.refl p st used, rfl⟩
  | succ k ih =>
      intro r
      have hr : r = Vector.releaseOldestFirst p.toCalls (k + 1) k₀ st := rfl
      have hnot : k₀ ∉ List.range used := fun hmem => by
        have := List.mem_range.mp hmem
        omega
      have hfirst : k₀ ∈ List.range used ++ List.range' k₀ (k + 1) :=
        List.mem_append_right _ (by rw [List.range'_succ]; exact List.mem_cons_self)
      have herase : (List.range used ++ List.range' k₀ (k + 1)).erase k₀ =
          List.range used ++ List.range' (k₀ + 1) k := by
        rw [List.erase_append_right _ hnot, List.range'_succ, List.erase_cons_head]
      have hnodup : (List.range used ++ List.range' k₀ (k + 1)).Nodup := by
        refine List.Nodup.append List.nodup_range List.nodup_range' fun j hj hj' => ?_
        have := List.mem_range.mp hj
        have := List.mem_range'_1.mp hj'
        omega
      unfold Vector.releaseOldestFirst at hr
      have hslot : st.vector.slot (p.bytes st.heap) k₀ ≠ 0 := h.slot_ne hfirst
      rw [if_neg hslot] at hr
      obtain ⟨hhold, hcarry⟩ := h.release (n := used) hnodup hfirst fun j hj => by
        rw [herase]
        exact List.mem_append_left _ (List.mem_range.mpr hj)
      rw [herase] at hhold
      obtain ⟨hhold', hcarry', hvec⟩ := ih (k₀ + 1) (by omega) hhold
      rw [hr]
      exact ⟨hhold', hcarry.trans hcarry', hvec⟩

/-! ## The index array -/

/-- The index array keeps the slots of the buckets there are. -/
theorem Holding.tightened (h : Holding p st (List.range n) others) {heap : σ} {buckets : Nat}
    (hn : n ≤ st.vector.bucketCapacity)
    (hheld : p.holds heap (⟨buckets, indexBytes n⟩ ::
      (st.vector.bucketBlocks (st.mem p) (List.range n) ++ others)))
    (hcopied : ∀ k < indexBytes n, p.bytes heap (buckets + k) = st.mem p (st.vector.buckets + k))
    (hkeep : Keeps (st.vector.bucketBlocks (st.mem p) (List.range n) ++ others) (st.mem p)
      (p.bytes heap)) :
    let st' : State σ :=
      ⟨{ st.vector with buckets := buckets, bucketCapacity := n }, heap⟩
    Holding p st' (List.range n) others ∧ Carries p st st' n := by
  intro st'
  have hne : buckets ≠ 0 := (p.lawful.room hheld _ List.mem_cons_self).1
  -- the slots are copied, so each names the bucket it named
  have hold : ∀ i < n, st'.vector.slot (st'.mem p) i = st.vector.slot (st.mem p) i := by
    intro i hi
    have hread : (p.bytes heap).read (buckets + i * 8) 8 =
        (st.mem p).read (st.vector.buckets + i * 8) 8 :=
      Bytes.read_shift hcopied (by unfold indexBytes; omega)
    show Bytes.word _ (buckets + i * 8) = Bytes.word _ _
    rw [Bytes.word, Bytes.word, ← hread]
    rfl
  have hblocks : st'.vector.bucketBlocks (st'.mem p) (List.range n) =
      st.vector.bucketBlocks (st.mem p) (List.range n) :=
    List.map_congr_left fun i hi => by
      rw [hold i (List.mem_range.mp hi)]
      rfl
  refine ⟨⟨⟨h.params.element_pos, h.params.element_lt, h.params.log2_pos, h.params.log2_le,
      h.params.step_pos, Nat.le_trans hn h.params.capacity_le⟩, fun i hi => List.mem_range.mp hi,
      fun hz => absurd hz hne, ?_, fun i hi hvacant => absurd (List.mem_range.mpr hi) hvacant⟩,
    rfl, rfl, rfl, rfl, rfl, rfl, hold, fun i hi => ?_⟩
  · rw [hblocks, BucketVector.indexBlock_of_ne hne]
    exact hheld
  · exact hkeep _ (List.mem_append_left _ (List.mem_map_of_mem (List.mem_range.mpr hi)))

/-- With no bucket left the index array goes back, and stays where it cannot. -/
theorem Holding.dropIndex (h : Holding p st (List.range 0) others) (hne : st.vector.buckets ≠ 0) :
    let r := shrinkIndex p.toCalls st 0
    Holding p r.2 (List.range 0) others ∧ Carries p st r.2 0 ∧ r.1 ≠ .errorInvalidState ∧
      r.2.vector = { st.vector with
        buckets := r.2.vector.buckets, bucketCapacity := r.2.vector.bucketCapacity } := by
  intro r
  have hr : r = Vector.shrinkIndex p.toCalls st 0 := rfl
  unfold Vector.shrinkIndex at hr
  rw [if_pos rfl] at hr
  have hone := BucketVector.indexBlock_of_ne hne
  have hnone : ∀ (v : BucketVector) (m : Bytes), v.bucketBlocks m (List.range 0) = [] :=
    fun _ _ => rfl
  have hheld := h.held
  rw [hone, List.append_assoc, List.singleton_append, hnone, List.nil_append] at hheld
  obtain ⟨⟨hok, hst⟩ | ⟨hwarn, hst, hindex⟩, -⟩ := p.lawful.free hheld
  · rw [if_pos hok] at hr
    rw [hr]
    refine ⟨⟨⟨h.params.element_pos, h.params.element_lt, h.params.log2_pos, h.params.log2_le,
      h.params.step_pos, Nat.zero_le _⟩, fun i hi => absurd hi List.not_mem_nil, fun _ => rfl, hst,
      fun i hi => absurd hi (Nat.not_lt_zero i)⟩,
      ⟨rfl, rfl, rfl, rfl, rfl, rfl, fun i hi => absurd hi (Nat.not_lt_zero i),
        fun i hi => absurd hi (Nat.not_lt_zero i)⟩, by nofun, rfl⟩
  · rw [if_neg fun hok => by rw [hwarn] at hok; cases hok] at hr
    rw [hr]
    have hkept : p.holds (p.free st.vector.buckets (indexBytes st.vector.bucketCapacity) st.heap).2
        (st.vector.indexBlock ++ st.vector.bucketBlocks (st.mem p) (List.range 0) ++ others) := by
      rw [hone]
      exact hst
    rw [← hone] at hindex
    refine ⟨h.moved hkept hindex, h.carries (fun i hi => absurd hi (Nat.not_lt_zero i)) ?_,
      by nofun, rfl⟩
    rw [hnone, List.append_nil]
    exact hindex

/-- What `arnm_bvec_shrink` does with the index array leaves the buckets there are. -/
theorem Holding.shrinkIndex (h : Holding p st (List.range n) others) (hne : st.vector.buckets ≠ 0)
    (hn : n ≤ st.vector.bucketCapacity) :
    let r := shrinkIndex p.toCalls st n
    Holding p r.2 (List.range n) others ∧ Carries p st r.2 n ∧ r.1 ≠ .errorInvalidState ∧
      r.2.vector = { st.vector with
        buckets := r.2.vector.buckets, bucketCapacity := r.2.vector.bucketCapacity } := by
  intro r
  have hr : r = Vector.shrinkIndex p.toCalls st n := rfl
  unfold Vector.shrinkIndex at hr
  have hone := BucketVector.indexBlock_of_ne hne
  have hheld := h.held
  rw [hone, List.append_assoc, List.singleton_append] at hheld
  by_cases hz : n = 0
  · subst hz
    exact h.dropIndex hne
  rw [if_neg hz] at hr
  by_cases hsame : n = st.vector.bucketCapacity
  · rw [if_pos hsame] at hr
    rw [hr]
    exact ⟨h, Carries.refl p st n, by nofun, rfl⟩
  rw [if_neg hsame] at hr
  have hnew : indexBytes n ≠ 0 := by
    unfold indexBytes
    omega
  have hvalid := p.lawful.realloc_valid st.vector.buckets (indexBytes st.vector.bucketCapacity)
    (indexBytes n) hnew h.held
  -- a block that stays where it is leaves the vector as it was
  have hstay : ∀ {index : Answer σ}, index.buffer = st.vector.buckets →
      p.holds index.state (⟨st.vector.buckets, indexBytes st.vector.bucketCapacity⟩ ::
        (st.vector.bucketBlocks (st.mem p) (List.range n) ++ others)) →
      Keeps (⟨st.vector.buckets, indexBytes st.vector.bucketCapacity⟩ ::
        (st.vector.bucketBlocks (st.mem p) (List.range n) ++ others)) (st.mem p)
        (p.bytes index.state) →
      (⟨{ st.vector with buckets := index.buffer }, index.state⟩ : State σ) =
          { st with heap := index.state } ∧
        Holding p { st with heap := index.state } (List.range n) others ∧
        Carries p st { st with heap := index.state } n := by
    intro index hbuf hheap hkeep
    rw [hbuf]
    refine ⟨rfl, h.elsewhere ?_ ?_⟩
    · rw [hone, List.append_assoc, List.singleton_append]
      exact hheap
    · rw [hone, List.singleton_append]
      exact hkeep.subset (List.cons_subset_cons _ (List.subset_append_left _ _))
  rcases p.lawful.realloc (indexBytes n) hnew hheld with
    ⟨herr, hbuf, hst, hkeep⟩ | ⟨hwarn, -, hbuf, hst, hkeep⟩ | ⟨hres, hst, hcopied, hkeep⟩
  · have hbad : ∀ result : Result, result.isError = false →
        (p.realloc st.vector.buckets (indexBytes st.vector.bucketCapacity) (indexBytes n)
          st.heap).result ≠ result := fun result hresult heq => by
      rw [heq, hresult] at herr
      cases herr
    rw [if_neg (hbad _ rfl), if_pos (hbad _ rfl)] at hr
    obtain ⟨hsame', hhold, hcarry⟩ := hstay hbuf hst hkeep
    rw [hr, hsame']
    exact ⟨hhold, hcarry, hvalid, rfl⟩
  · have hnot : (p.realloc st.vector.buckets (indexBytes st.vector.bucketCapacity) (indexBytes n)
        st.heap).result ≠ .success := fun hok => by
      rw [hwarn] at hok
      cases hok
    rw [if_neg hnot, if_neg (not_not_intro hwarn)] at hr
    obtain ⟨hsame', hhold, hcarry⟩ := hstay hbuf hst hkeep
    rw [hr, hsame']
    exact ⟨hhold, hcarry, by nofun, rfl⟩
  · have hok := hres.resolve_right fun hgrown => by
      have := hgrown.2
      unfold indexBytes at this
      omega
    rw [if_pos hok] at hr
    obtain ⟨hhold, hcarry⟩ := h.tightened hn hst
      (fun k hk => hcopied k (by unfold indexBytes at hk ⊢; omega)) hkeep
    rw [hr]
    exact ⟨hhold, hcarry, by nofun, rfl⟩

/-! ## Everything -/

/-- The loops of `arnm_bvec_free` leave the index array and what others hold. -/
theorem freeBuckets_holds (places : List Nat) (hne : st.vector.buckets ≠ 0)
    (hin : ∀ i ∈ places, i < st.vector.bucketCapacity)
    (hheld : p.holds st.heap (st.vector.bucketBlocks (st.mem p) places ++
      (st.vector.indexBlock ++ others))) :
    let r := freeBuckets p.toCalls places st
    p.holds r.heap (st.vector.indexBlock ++ others) ∧ r.vector = st.vector := by
  induction places generalizing st with
  | nil => exact ⟨hheld, rfl⟩
  | cons i places ih =>
      intro r
      have hr : r = Vector.freeBuckets p.toCalls (i :: places) st := rfl
      unfold Vector.freeBuckets at hr
      have hslot : st.vector.slot (p.bytes st.heap) i ≠ 0 :=
        (p.lawful.room hheld _ List.mem_cons_self).1
      rw [if_neg hslot] at hr
      obtain ⟨hres, hkeep⟩ := p.lawful.free
        (show p.holds st.heap (st.vector.bucketBlock (st.vector.slot (st.mem p) i) ::
          (st.vector.bucketBlocks (st.mem p) places ++
            (st.vector.indexBlock ++ others))) from hheld)
      -- a bucket that is not taken back is forgotten
      have hrest := hres.elim And.right fun hwarn => p.lawful.forget hwarn.2.1
      have hslots : ∀ j ∈ places, st.vector.slot
          (p.bytes (p.free (st.vector.slot (st.mem p) i) st.vector.bucketBytes st.heap).2) j =
          st.vector.slot (st.mem p) j := by
        intro j hj
        have hindex := hkeep _ (List.mem_append_right _ (List.mem_append_left others
          (BucketVector.indexBlock_of_ne hne ▸ List.mem_cons_self)))
        exact BucketVector.slot_congr
          (hindex.within (Holding.pointer_within (hin j (List.mem_cons_of_mem _ hj))))
      rw [← BucketVector.bucketBlocks_congr hslots] at hrest
      obtain ⟨hheld', hvec⟩ := @ih { st with heap :=
        (p.free (st.vector.slot (st.mem p) i) st.vector.bucketBytes st.heap).2 } hne
        (fun j hj => hin j (List.mem_cons_of_mem _ hj)) hrest
      rw [hr]
      exact ⟨hheld', hvec⟩

/-- After `arnm_bvec_free` the vector holds nothing. -/
theorem Holding.free (h : Holding p st (List.range n) others)
    (hcount : st.vector.allocatedCount = n) (hne : st.vector.buckets ≠ 0) :
    let r := free p.toCalls st
    p.holds r.heap others ∧ r.vector = (init st.vector st.vector.bucketCapacityMaxLog2
      st.vector.indexGrowStepSize st.vector.elementSize).2 := by
  intro r
  have hr : r = Vector.free p.toCalls st := rfl
  unfold Vector.free at hr
  have hallocated : st.vector.bucketCountAllocated = n := by
    rw [BucketVector.bucketCountAllocated, if_pos hne, hcount]
  have helem := h.params.element_pos
  rw [if_neg (by omega), hallocated] at hr
  set places := if p.isArena then (List.range n).reverse else List.range n with hplaces
  have hperm : (List.range n).Perm places := by
    rw [hplaces]
    split
    · exact (List.reverse_perm _).symm
    · exact List.Perm.refl _
  have hheld : p.holds st.heap (st.vector.bucketBlocks (st.mem p) places ++
      (st.vector.indexBlock ++ others)) := by
    refine p.lawful.perm h.held ?_
    rw [← List.append_assoc]
    exact (List.perm_append_comm.trans ((hperm.map _).append_right _)).append_right others
  obtain ⟨hindex, hvec⟩ := freeBuckets_holds places hne
    (fun i hi => h.inside i (hperm.mem_iff.mpr hi)) hheld
  rw [BucketVector.indexBlock_of_ne hne, List.singleton_append] at hindex
  obtain ⟨hres, -⟩ := p.lawful.free hindex
  rw [hr]
  exact ⟨hres.elim And.right fun hwarn => p.lawful.forget hwarn.2.1, rfl⟩

end Arnm.Vector
