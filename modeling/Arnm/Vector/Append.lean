import Arnm.Vector.Steps

set_option autoImplicit false

/-! # Adding, writing and removing elements

`arnm_bvec_emplace` hands out the place of one more element, in the open bucket or in the next
one, which may have to be allocated first. A write into one place leaves the elements in the other
places, and `arnm_bvec_pop` steps back over the last. -/

namespace Arnm.Vector

open Memory

variable {σ : Type} {p : Provider σ} {st st' : State σ} {items : List (List UInt8)}
  {others : List Block} {v : BucketVector} {m : Bytes}

/-! ## One more element -/

/-- The counters moved on by one element; what lies at its place is the last item. -/
theorem Filled.append (h : Filled v m items) {tailIndex tailUsed tail : Nat} (hne : tail ≠ 0)
    (htail : tail = v.slot m tailIndex) (hpos : 0 < tailUsed) (hle : tailUsed ≤ v.perBucket)
    (hsize : v.size + 1 = tailIndex * v.perBucket + tailUsed) :
    Filled { v with tailIndex := tailIndex, tailUsed := tailUsed, tail := tail, size := v.size + 1 }
      m (items ++ [m.read (v.place m items.length) v.elementSize]) := by
  refine ⟨?_, fun hz => absurd hz hne, fun _ => ⟨htail, hpos, hle, hsize⟩, fun i hi => ?_⟩
  · rw [List.length_append, List.length_singleton, ← h.size]
  · by_cases hlt : i < items.length
    · rw [List.getElem_append_left hlt]
      exact h.value i hlt
    · rw [List.length_append, List.length_singleton] at hi
      have hlast : i = items.length := by omega
      subst hlast
      rw [List.getElem_concat_length rfl]
      rfl

/-- A slot was handed out at the place of one more element, or the request was refused and
everything is as it was. -/
def Appends (p : Provider σ) (st : State σ) (items : List (List UInt8)) (others : List Block)
    (r : Result × Nat × State σ) : Prop :=
  Stays p st r.2.2 items.length [] ∧
  (r.1.isError = true ∧ r.1 ≠ .errorInvalidState ∧ Sound p r.2.2 items others ∨
    r.1 = .success ∧ r.2.1 = r.2.2.vector.place (r.2.2.mem p) items.length ∧
      Sound p r.2.2 (items ++ [(r.2.2.mem p).read (r.2.2.vector.place (r.2.2.mem p) items.length)
        r.2.2.vector.elementSize]) others)

theorem Appends.after {r : Result × Nat × State σ} (h : Appends p st' items others r)
    (hstay : Stays p st st' items.length []) : Appends p st items others r :=
  ⟨hstay.trans h.1, h.2⟩

/-- The counters of a vector are moved on by one element. -/
theorem Sound.append (h : Sound p st items others) (tailIndex tailUsed : Nat) {tail : Nat}
    (hne : tail ≠ 0)
    (htail : tail = st.vector.slot (st.mem p) tailIndex) (hpos : 0 < tailUsed)
    (hle : tailUsed ≤ st.vector.perBucket)
    (hsize : st.vector.size + 1 = tailIndex * st.vector.perBucket + tailUsed)
    (hlast : tailIndex < st.vector.allocatedCount) :
    Appends p st items others (.success, st.vector.place (st.mem p) items.length,
      { st with vector := { st.vector with
        tailIndex := tailIndex, tailUsed := tailUsed, tail := tail,
        size := st.vector.size + 1 } }) := by
  refine ⟨⟨rfl, rfl, fun _ _ => rfl, fun _ _ _ => Bytes.AgreeOn.refl _ _⟩, Or.inr ⟨rfl, rfl,
    h.holding.recount _ _ _ _ _, h.filled.append hne htail hpos hle hsize, ?_⟩⟩
  unfold BucketVector.bucketCount
  rw [if_pos hne]
  exact hlast

/-- The next bucket is opened when the ones in use are full. -/
theorem Sound.openBucket (h : Sound p st items others)
    (hfull : st.vector.size = st.vector.bucketCount * st.vector.perBucket)
    (hnext : st.vector.bucketCount < st.vector.allocatedCount) :
    Appends p st items others (openBucket p.toCalls st st.vector.bucketCount) := by
  have hplace : st.vector.place (st.mem p) items.length =
      st.vector.slot (st.mem p) st.vector.bucketCount := by
    have hat := BucketVector.place_of_bucket (m := st.mem p) h.params
      (b := st.vector.bucketCount) (BucketVector.perBucket_pos h.params)
    rw [Nat.add_zero, Nat.zero_mul, Nat.add_zero] at hat
    rw [← h.filled.size, hfull, hat]
  have happ := h.append st.vector.bucketCount 1
    (h.holding.slot_ne (List.mem_range.mpr hnext)) rfl Nat.zero_lt_one
    (BucketVector.perBucket_pos h.params) (by rw [hfull]) hnext
  rw [hplace] at happ
  exact happ

/-- A further bucket is allocated and opened. -/
theorem Sound.growBucket (h : Sound p st items others)
    (hfull : st.vector.size = st.vector.bucketCount * st.vector.perBucket)
    (hcount : st.vector.allocatedCount = st.vector.bucketCount)
    (hroom : st.vector.allocatedCount < st.vector.bucketCapacity) :
    Appends p st items others
      (match addBucket p.toCalls st st.vector.allocatedCount with
      | (.success, st₁) => Vector.openBucket p.toCalls st₁ st.vector.bucketCount
      | (result, st₁) => (result, 0, st₁)) := by
  obtain ⟨hcarry, hcase⟩ := h.holding.addBucket hroom
  cases hadd : Vector.addBucket p.toCalls st st.vector.allocatedCount with
  | mk result st₁ =>
      rw [hadd] at hcarry hcase
      simp only at hcarry hcase
      rcases hcase with ⟨herr, hvalid, hvec, hhold⟩ | ⟨hok, hvec, hhold⟩
      · have hcount₁ : st₁.vector.allocatedCount = st.vector.allocatedCount := by rw [hvec]
        obtain ⟨hsound, hstay⟩ :=
          h.carry hcarry h.used (hcount₁.symm ▸ hhold) (hcount₁.symm ▸ h.used)
        have hrefused : (match (result, st₁) with
            | (.success, st₁) => Vector.openBucket p.toCalls st₁ st.vector.bucketCount
            | (result, st₁) => (result, 0, st₁)) = (result, 0, st₁) := by
          cases result <;> first | (cases herr; done) | rfl
        rw [hrefused]
        exact ⟨hstay, Or.inl ⟨herr, hvalid, hsound⟩⟩
      · have hcount₁ : st₁.vector.allocatedCount = st.vector.allocatedCount + 1 := by rw [hvec]
        obtain ⟨hsound, hstay⟩ := h.carry hcarry h.used (hcount₁.symm ▸ hhold)
          (hcount₁.symm ▸ Nat.le_succ_of_le h.used)
        have hper : st₁.vector.perBucket = st.vector.perBucket := hstay.perBucket
        have hopen := hsound.openBucket
          (by rw [hcarry.size, hcarry.bucketCount, hper, hfull])
          (by rw [hcarry.bucketCount, hcount₁, hcount]; exact Nat.lt_succ_self _)
        rw [hcarry.bucketCount] at hopen
        rw [hok]
        exact hopen.after hstay

/-- The next bucket, with a larger index array where there is no slot for it. -/
theorem Sound.grow (h : Sound p st items others)
    (hfull : st.vector.size = st.vector.bucketCount * st.vector.perBucket) :
    Appends p st items others (grow p.toCalls st true) := by
  unfold Vector.grow
  simp only
  rw [if_neg (by decide), if_neg (by rw [h.isStateValid]; decide), h.bucketCountAllocated]
  split
  · rename_i hnext
    exact h.openBucket hfull hnext
  rename_i hnext
  have hcount : st.vector.allocatedCount = st.vector.bucketCount :=
    Nat.le_antisymm (Nat.le_of_not_lt hnext) h.used
  by_cases hslots : st.vector.allocatedCount = st.vector.bucketCapacity
  · rw [if_pos hslots]
    by_cases hmax : maxIndexCapacity < st.vector.bucketCapacity + st.vector.indexGrowStepSize
    · rw [if_pos hmax]
      exact ⟨Stays.refl p st _ _, Or.inl ⟨rfl, by nofun, h⟩⟩
    rw [if_neg hmax]
    obtain ⟨hhold, hcarry, hcase⟩ := h.holding.growIndex
      (Nat.lt_add_of_pos_right h.params.step_pos) (Nat.le_of_not_lt hmax)
    cases hgrown : Vector.growIndex p.toCalls st
        (st.vector.bucketCapacity + st.vector.indexGrowStepSize) with
    | mk result st₁ =>
        rw [hgrown] at hhold hcarry hcase
        simp only at hhold hcarry hcase
        rcases hcase with ⟨herr, hvalid, hvec⟩ | ⟨hok, hvec⟩
        · have hcount₁ : st₁.vector.allocatedCount = st.vector.allocatedCount := by rw [hvec]
          obtain ⟨hsound, hstay⟩ := h.carry hcarry h.used (hcount₁.symm ▸ hhold)
            (hcount₁.symm ▸ h.used)
          cases result <;> first | (cases herr; done) | exact ⟨hstay, Or.inl ⟨rfl, hvalid, hsound⟩⟩
        · have hcount₁ : st₁.vector.allocatedCount = st.vector.allocatedCount := by rw [hvec]
          obtain ⟨hsound, hstay⟩ := h.carry hcarry h.used (hcount₁.symm ▸ hhold)
            (hcount₁.symm ▸ h.used)
          have hcap : st₁.vector.bucketCapacity =
              st.vector.bucketCapacity + st.vector.indexGrowStepSize := by rw [hvec]
          have hstep := h.params.step_pos
          have hbucket := hsound.growBucket
            (by rw [hcarry.size, hcarry.bucketCount, hstay.perBucket, hfull])
            (by rw [hcarry.bucketCount, hcount₁, hcount]) (by rw [hcount₁, hcap]; omega)
          rw [hcount₁, hcarry.bucketCount] at hbucket
          rw [hok]
          exact hbucket.after hstay
  · rw [if_neg hslots]
    exact h.growBucket hfull hcount (Nat.lt_of_le_of_ne h.allocated_le hslots)

/-- Without room in the last bucket all buckets in use are full. -/
theorem Filled.full {v : BucketVector} {m : Bytes} (h : Filled v m items)
    (hroom : ¬ (v.tail ≠ 0 ∧ v.tailUsed < v.perBucket)) :
    v.size = v.bucketCount * v.perBucket := by
  by_cases hz : v.tail = 0
  · rw [h.tail_eq_zero_iff.mp hz, BucketVector.bucketCount, if_neg (not_not_intro hz), Nat.zero_mul]
  · obtain ⟨-, -, hle, hsize⟩ := h.opened hz
    have hused : v.tailUsed = v.perBucket := by
      by_contra hne
      exact hroom ⟨hz, by omega⟩
    rw [BucketVector.bucketCount, if_pos hz, Nat.succ_mul, hsize, hused]

/-- `arnm_bvec_emplace` hands out the place of one more element, or is refused. -/
theorem Sound.emplace (h : Sound p st items others) :
    Appends p st items others (emplace p.toCalls st true) := by
  unfold Vector.emplace
  simp only
  rw [if_neg (by decide)]
  split
  · rename_i hroom
    obtain ⟨hne, hlt⟩ := hroom
    obtain ⟨htail, hpos, -, hsize⟩ := h.filled.opened hne
    have hplace : st.vector.place (st.mem p) items.length =
        st.vector.tail + st.vector.tailUsed * st.vector.elementSize := by
      rw [← h.filled.size, hsize, BucketVector.place_of_bucket h.params hlt, ← htail]
    have hlast : st.vector.tailIndex < st.vector.allocatedCount := by
      have hused := h.used
      rw [BucketVector.bucketCount, if_pos hne] at hused
      omega
    rw [← hplace]
    exact h.append _ _ hne htail (Nat.succ_pos _) hlt (by omega) hlast
  · rename_i hroom
    exact h.grow (h.filled.full hroom)

/-! ## A write -/

/-- Bytes written at the place of an element leave the pointers alone. -/
theorem Holding.put_index {n : Nat} (h : Holding p st (List.range n) others) {j : Nat}
    (hj : j / st.vector.perBucket < n) {values : List UInt8}
    (hlen : values.length = st.vector.elementSize) :
    Keeps st.vector.indexBlock (st.mem p)
      ((st.mem p).put (st.vector.place (st.mem p) j) values) := by
  have hne := h.buckets_ne (h.inside _ (List.mem_range.mpr hj))
  rw [BucketVector.indexBlock_of_ne hne]
  intro b hb
  rw [List.mem_singleton.mp hb]
  refine Bytes.put_agreeOn ?_
  rw [hlen]
  exact (h.index_apart hne (List.mem_append_left _
    (List.mem_map_of_mem (List.mem_range.mpr hj)))).symm.within
    (BucketVector.place_within h.params j) (Region.Within.refl _)

/-- Bytes written at the place of an element. -/
theorem Holding.put {n : Nat} (h : Holding p st (List.range n) others) {j : Nat}
    (hj : j / st.vector.perBucket < n) {values : List UInt8}
    (hlen : values.length = st.vector.elementSize) :
    let st' : State σ :=
      { st with heap := p.write ((st.mem p).put (st.vector.place (st.mem p) j) values) st.heap }
    Holding p st' (List.range n) others ∧
      Stays p st st' (n * st.vector.perBucket) [j] ∧
      (st'.mem p).read (st.vector.place (st.mem p) j) st.vector.elementSize = values := by
  intro st'
  have hmem : st'.mem p = (st.mem p).put (st.vector.place (st.mem p) j) values :=
    p.lawful.bytes_write _ _
  have hwithin := BucketVector.place_within (m := st.mem p) h.params j
  have hkeep : Keeps st.vector.indexBlock (st.mem p) (st'.mem p) := hmem ▸ h.put_index hj hlen
  have hbucket : ∀ i < n * st.vector.perBucket, i / st.vector.perBucket < n := fun i hi =>
    Nat.div_lt_of_lt_mul (Nat.mul_comm n _ ▸ hi)
  refine ⟨h.moved (p.lawful.holds_write _ h.held) hkeep, ⟨rfl, rfl, fun i hi =>
    h.slot_of_keeps hkeep (h.inside _ (List.mem_range.mpr (hbucket i hi))), fun i hi hij => ?_⟩, ?_⟩
  · have hne : j ≠ i := fun heq => hij (heq ▸ List.mem_singleton_self _)
    rw [hmem]
    refine Bytes.put_agreeOn ?_
    rw [hlen]
    by_cases hsame : j / st.vector.perBucket = i / st.vector.perBucket
    · exact BucketVector.place_apart hne hsame
    · exact (h.bucket_apart (List.mem_range.mpr hj)
        (List.mem_range.mpr (hbucket i hi)) hsame).within
        hwithin (BucketVector.place_within h.params i)
  · rw [hmem, ← hlen]
    exact Bytes.read_put _ _ _

/-- The client writes an element through its pointer. -/
theorem Sound.put (h : Sound p st items others) {j : Nat} (hj : j < items.length)
    {values : List UInt8} (hlen : values.length = st.vector.elementSize) :
    let st' : State σ :=
      { st with heap := p.write ((st.mem p).put (st.vector.place (st.mem p) j) values) st.heap }
    Sound p st' (items.set j values) others ∧ Stays p st st' items.length [j] := by
  intro st'
  obtain ⟨hhold, hstay, hread⟩ := h.holding.put (h.bucket_lt hj) hlen
  have hle : items.length ≤ st.vector.allocatedCount * st.vector.perBucket := by
    rw [← h.filled.size]
    exact Nat.le_trans h.filled.size_le (Nat.mul_le_mul_right _ h.used)
  have hstay' : Stays p st st' items.length [j] := hstay.mono hle
  refine ⟨⟨hhold, ⟨?_, fun hz => ?_, fun hne => ?_, fun i hi => ?_⟩, h.used⟩, hstay'⟩
  · rw [List.length_set]
    exact h.filled.size
  · obtain ⟨hnil, hcounters⟩ := h.filled.closed hz
    rw [hnil] at hj
    exact absurd hj (Nat.not_lt_zero j)
  · obtain ⟨htail, hpos, hfull, hsize⟩ := h.filled.opened hne
    have hslot : st'.vector.slot (st'.mem p) st.vector.tailIndex =
        st.vector.slot (st.mem p) st.vector.tailIndex := by
      have hlast : st.vector.size - 1 < items.length := by rw [← h.filled.size]; omega
      have hdiv : (st.vector.size - 1) / st.vector.perBucket = st.vector.tailIndex := by
        have hcut : st.vector.size - 1 =
            st.vector.perBucket * st.vector.tailIndex + (st.vector.tailUsed - 1) := by
          rw [Nat.mul_comm]
          omega
        rw [hcut, Nat.mul_add_div (BucketVector.perBucket_pos h.params),
          Nat.div_eq_of_lt (by omega), Nat.add_zero]
      have := hstay'.slot _ hlast
      rwa [hdiv] at this
    exact ⟨htail.trans hslot.symm, hpos, hfull, hsize⟩
  · rw [List.length_set] at hi
    by_cases hij : i = j
    · subst hij
      rw [List.getElem_set_self, hstay'.place hj]
      exact hread
    · rw [List.getElem_set_ne (Ne.symm hij), hstay'.read hi
        (fun hmem => hij (List.mem_singleton.mp hmem))]
      exact h.filled.value i hi

/-- `arnm_bvec_push_ptr` is `arnm_bvec_emplace` and a write. -/
theorem pushPtr_eq (allocator : Calls σ) (st : State σ) (value : Nat → UInt8) :
    pushPtr allocator st (some value) =
      let r := emplace allocator st true
      if r.1 ≠ .success then (r.1, r.2.2)
      else
        let m := (allocator.bytes r.2.2.heap).put r.2.1 (r.2.2.vector.element value)
        (.success, ⟨r.2.2.vector, allocator.write m r.2.2.heap⟩) := by
  rw [Vector.pushPtr]
  cases emplace allocator st true with
  | mk result answer => cases result <;> rfl

/-- `arnm_bvec_push_ptr` adds the value, or is refused. -/
theorem Sound.pushPtr (h : Sound p st items others) (value : Nat → UInt8) :
    let r := pushPtr p.toCalls st (some value)
    Stays p st r.2 items.length [] ∧
    (r.1.isError = true ∧ r.1 ≠ .errorInvalidState ∧ Sound p r.2 items others ∨
      r.1 = .success ∧ Sound p r.2 (items ++ [st.vector.element value]) others) := by
  intro r
  have hr : r = _ := pushPtr_eq p.toCalls st value
  simp only at hr
  obtain ⟨hstay, ⟨herr, hvalid, hsound⟩ | ⟨hok, hslot, hsound⟩⟩ := h.emplace
  · rw [if_pos (Result.ne_success_of_isError herr)] at hr
    rw [hr]
    exact ⟨hstay, Or.inl ⟨herr, hvalid, hsound⟩⟩
  · set st₁ := (Vector.emplace p.toCalls st true).2.2
    rw [if_neg (not_not_intro hok), hslot] at hr
    have helem : st₁.vector.element value = st.vector.element value := by
      rw [BucketVector.element, BucketVector.element, hstay.elementSize]
    have hlen : (st₁.vector.element value).length = st₁.vector.elementSize := by
      simp [BucketVector.element]
    have hlast : items.length < (items ++ [(st₁.mem p).read (st₁.vector.place (st₁.mem p)
        items.length) st₁.vector.elementSize]).length := by simp
    obtain ⟨hput, hkept⟩ := hsound.put hlast hlen
    rw [List.set_append_right _ _ (Nat.le_refl _), Nat.sub_self, List.set_cons_zero, helem] at hput
    rw [helem] at hkept hr
    rw [hr]
    have hbefore : Stays p st₁ _ items.length [] :=
      ⟨hkept.elementSize, hkept.log2, (hkept.mono (Nat.le_of_lt hlast)).slot, fun i hi _ =>
        hkept.bytes i (Nat.lt_trans hi hlast) fun hmem => by
          rw [List.mem_singleton.mp hmem] at hi
          exact Nat.lt_irrefl _ hi⟩
    exact ⟨hstay.trans hbefore, Or.inr ⟨rfl, hput⟩⟩

/-! ## One element fewer -/

/-- The counters moved back by one element. -/
theorem Filled.dropLast (h : Filled v m items)
    {tailIndex tailUsed tail : Nat}
    (hclosed : tail = 0 → v.size = 1 ∧ tailIndex = 0 ∧ tailUsed = v.perBucket)
    (hopened : tail ≠ 0 → tail = v.slot m tailIndex ∧ 0 < tailUsed ∧ tailUsed ≤ v.perBucket ∧
      v.size - 1 = tailIndex * v.perBucket + tailUsed) :
    Filled { v with tailIndex := tailIndex, tailUsed := tailUsed, tail := tail, size := v.size - 1 }
      m items.dropLast := by
  refine ⟨?_, fun hz => ?_, hopened, fun i hi => ?_⟩
  · rw [List.length_dropLast, ← h.size]
  · obtain ⟨hone, hindex, hused⟩ := hclosed hz
    refine ⟨List.length_eq_zero_iff.mp ?_, hindex, hused⟩
    rw [List.length_dropLast, ← h.size, hone]
  · rw [List.getElem_dropLast]
    rw [List.length_dropLast] at hi
    exact h.value i (by omega)

/-- `arnm_bvec_pop` removes the last element. -/
theorem Sound.pop (h : Sound p st items others) (hne : items ≠ []) :
    let r := pop p.toCalls st
    r.1 = .success ∧ Sound p r.2 items.dropLast others ∧ ∀ n, Stays p st r.2 n [] := by
  intro r
  have hlen := List.length_pos_iff.mpr hne
  have hpos : st.vector.size ≠ 0 := by
    rw [h.filled.size]
    omega
  have hopen : st.vector.tail ≠ 0 := fun hz => hpos (h.filled.tail_eq_zero_iff.mp hz)
  obtain ⟨htail, hused, hfull, hsize⟩ := h.filled.opened hopen
  have hcount := h.used
  rw [BucketVector.bucketCount, if_pos hopen] at hcount
  have hper := BucketVector.perBucket_pos h.params
  -- the counters after the step, whichever bucket they are in
  have hstep : ∀ {tailIndex tailUsed tail : Nat},
      (tail = 0 → st.vector.size = 1 ∧ tailIndex = 0 ∧ tailUsed = st.vector.perBucket) →
      (tail ≠ 0 → tail = st.vector.slot (st.mem p) tailIndex ∧ 0 < tailUsed ∧
        tailUsed ≤ st.vector.perBucket ∧
        st.vector.size - 1 = tailIndex * st.vector.perBucket + tailUsed) →
      tailIndex ≤ st.vector.tailIndex →
      r = (.success, { st with vector := { st.vector with
        tailIndex := tailIndex, tailUsed := tailUsed, tail := tail,
        size := st.vector.size - 1 } }) →
      r.1 = .success ∧ Sound p r.2 items.dropLast others ∧ ∀ n, Stays p st r.2 n [] := by
    intro tailIndex tailUsed tail hclosed hopened hindex hr
    rw [hr]
    refine ⟨rfl, ⟨h.holding.recount _ _ _ _ _, h.filled.dropLast hclosed hopened, ?_⟩,
      fun n => ⟨rfl, rfl, fun _ _ => rfl, fun _ _ _ => Bytes.AgreeOn.refl _ _⟩⟩
    unfold BucketVector.bucketCount
    simp only
    split <;> omega
  have hr : r = Vector.pop p.toCalls st := rfl
  unfold Vector.pop at hr
  simp only at hr
  rw [if_neg hpos] at hr
  by_cases hlast : st.vector.tailUsed - 1 = 0
  · rw [if_pos hlast] at hr
    by_cases hmore : st.vector.size - 1 ≠ 0
    · rw [if_pos hmore] at hr
      -- back into the bucket before, which is full
      have hprev : st.vector.tailIndex ≠ 0 := fun hz => by
        rw [hz, Nat.zero_mul] at hsize
        omega
      have hback : st.vector.tailIndex - 1 < st.vector.allocatedCount := by omega
      have hslot := h.holding.slot_ne (List.mem_range.mpr hback)
      refine hstep (fun hz => absurd hz hslot) (fun _ => ⟨rfl, hper, Nat.le_refl _, ?_⟩)
        (Nat.sub_le _ _) hr
      have hsucc := Nat.succ_mul (st.vector.tailIndex - 1) st.vector.perBucket
      rw [Nat.succ_eq_add_one, Nat.sub_add_cancel (Nat.pos_of_ne_zero hprev)] at hsucc
      omega
    · rw [if_neg hmore] at hr
      refine hstep (fun _ => ⟨by omega, rfl, rfl⟩) (fun hc => absurd rfl hc) (Nat.zero_le _) hr
  · rw [if_neg hlast] at hr
    exact hstep (fun hz => absurd hz hopen) (fun _ => ⟨htail, by omega, by omega, by omega⟩)
      (Nat.le_refl _) hr

end Arnm.Vector
