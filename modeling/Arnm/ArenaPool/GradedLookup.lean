import Arnm.ArenaPool.GradedRuns

set_option autoImplicit false

/-! # The lookups of a graded arena pool

What the mask and the bit counts answer, against what a walk over the grades answers: the first
grade that carries a size, and the slot whose grade has a capacity. -/

namespace Arnm.ArenaPool.Graded

open Memory Search

/-- `arnm_graded_arena_pool_capacity_for` -/
def capacityFor (pool : GradedArenaPool) (size : BitVec 32) : Nat :=
  if pool.ladder = 0 ∨ size = 0#32 then 0
  else
    let index := gradeForSize pool size
    if index < pool.gradeCount then (pool.grades index).arenaCapacity else 0

/-- The first grade whose capacity reaches the size, the number of the grades where none does. -/
def linearScan (pool : GradedArenaPool) (size : BitVec 32) : Nat :=
  (List.range pool.gradeCount).findIdx fun i => decide (size.toNat ≤ (pool.grades i).arenaCapacity)

/-- The scan over the ladder that stops at the first grade that carries the size. -/
theorem linearScan_eq_length_iff (pool : GradedArenaPool) (size : BitVec 32) :
    linearScan pool size = pool.gradeCount ↔
      ∀ i < pool.gradeCount, (pool.grades i).arenaCapacity < size.toNat := by
  unfold linearScan
  conv_lhs => rhs; rw [← List.length_range (n := pool.gradeCount)]
  rw [List.findIdx_eq_length]
  constructor
  · intro h i hi
    exact Nat.lt_of_not_le (of_decide_eq_false (h i (List.mem_range.mpr hi)))
  · intro h i hi
    exact decide_eq_false (Nat.not_le.mpr (h i (List.mem_range.mp hi)))

/-- A capacity is found where the slot has it, whatever the mask says. -/
theorem capacity_of_gradeForCapacity {pool : GradedArenaPool} {capacity : BitVec 32}
    (h : gradeForCapacity pool capacity < pool.gradeCount) :
    (pool.grades (gradeForCapacity pool capacity)).arenaCapacity = capacity.toNat := by
  unfold gradeForCapacity at h ⊢
  split at h
  · exact absurd h (Nat.lt_irrefl _)
  rename_i hpower
  rw [if_neg hpower]
  dsimp only at h ⊢
  split at h
  · exact absurd h (Nat.lt_irrefl _)
  rename_i hslot
  rw [if_neg hslot]
  rw [not_or, not_not] at hslot
  exact hslot.2

theorem gradeForCapacity_le (pool : GradedArenaPool) (capacity : BitVec 32) :
    gradeForCapacity pool capacity ≤ pool.gradeCount := by
  unfold gradeForCapacity
  split
  · exact Nat.le_refl _
  dsimp only
  split
  · exact Nat.le_refl _
  · rename_i hslot
    rw [not_or, not_le] at hslot
    exact Nat.le_of_lt hslot.1

namespace Ladder

variable {pool : GradedArenaPool} {exponents : List Nat}

theorem capacities (h : Ladder pool exponents) :
    (List.range pool.gradeCount).map (fun i => (pool.grades i).arenaCapacity) =
      exponents.map (2 ^ ·) := by
  apply List.ext_getElem
  · rw [List.length_map, List.length_map, List.length_range, h.count]
  · intro i hi hi'
    rw [List.getElem_map, List.getElem_map, List.getElem_range]
    rw [List.length_map] at hi'
    exact h.capacity (List.getElem?_eq_getElem hi')

/-- The count of the grades the mask drops is where the scan stops. -/
theorem gradeForSize_eq_linearScan (h : Ladder pool exponents) {size : BitVec 32}
    (hne : size ≠ 0#32) : gradeForSize pool size = linearScan pool size := by
  have hcarries : (fun e => decide (size.toNat ≤ 2 ^ e)) =
      fun e => decide (¬ e < Nat.clog 2 size.toNat) := by
    funext e
    rw [decide_eq_decide, not_lt, Nat.clog_le_iff_le_pow (by decide)]
  calc gradeForSize pool size
      = exponents.findIdx (fun e => decide (¬ e < Nat.clog 2 size.toNat)) :=
        (h.gradeForSize_cut hne).findIdx.symm
    _ = exponents.findIdx (fun e => decide (size.toNat ≤ 2 ^ e)) := by rw [hcarries]
    _ = (exponents.map (2 ^ ·)).findIdx (fun c => decide (size.toNat ≤ c)) := by
        rw [List.findIdx_map]
        rfl
    _ = linearScan pool size := by
        rw [← h.capacities, List.findIdx_map]
        rfl

theorem gradeForCapacity_iff (h : Ladder pool exponents) (capacity : BitVec 32) {i : Nat}
    (hi : i < pool.gradeCount) :
    gradeForCapacity pool capacity = i ↔ (pool.grades i).arenaCapacity = capacity.toNat := by
  constructor
  · rintro rfl
    exact capacity_of_gradeForCapacity hi
  · intro hcap
    have hself := h.gradeForCapacity_grade hi
    rw [hcap, BitVec.ofNat_toNat, BitVec.setWidth_eq] at hself
    exact hself

end Ladder

/-- What the lookups of a pool answer, for the sizes its init was given. -/
structure Lookups (pool : GradedArenaPool) (sizes : List (BitVec 32)) : Prop where
  /-- The slots hold the sizes in their order. -/
  slots : (List.range pool.gradeCount).map (fun i => (pool.grades i).arenaCapacity) =
    sizes.map BitVec.toNat
  /-- A size, which the callers made sure is not 0, gets the grade the scan gets. -/
  bySize : ∀ size, size ≠ 0#32 → gradeForSize pool size = linearScan pool size
  /-- It is refused exactly where no grade carries it. -/
  refused : ∀ size, size ≠ 0#32 →
    (gradeForSize pool size = pool.gradeCount ↔ ∀ capacity ∈ sizes, capacity < size)
  /-- A capacity is found at the slot that holds it and nowhere else. -/
  byCapacity : ∀ (capacity : BitVec 32) (i : Nat), i < pool.gradeCount →
    (gradeForCapacity pool capacity = i ↔ sizes[i]? = some capacity)
  /-- It is not found exactly where the ladder does not have it. -/
  absent : ∀ capacity : BitVec 32, gradeForCapacity pool capacity = pool.gradeCount ↔
    capacity ∉ sizes

namespace Ladder

variable {pool : GradedArenaPool} {exponents : List Nat} {sizes : List (BitVec 32)}

theorem slots_eq (h : Ladder pool exponents)
    (hsizes : sizes.map BitVec.toNat = exponents.map (2 ^ ·)) :
    (List.range pool.gradeCount).map (fun i => (pool.grades i).arenaCapacity) =
      sizes.map BitVec.toNat := h.capacities.trans hsizes.symm

theorem gradeCount_eq (h : Ladder pool exponents)
    (hsizes : sizes.map BitVec.toNat = exponents.map (2 ^ ·)) : pool.gradeCount = sizes.length := by
  have hlen := congrArg List.length (h.slots_eq hsizes)
  rwa [List.length_map, List.length_map, List.length_range] at hlen

/-- A size of the ladder stands at a slot of the pool. -/
theorem lt_gradeCount (h : Ladder pool exponents)
    (hsizes : sizes.map BitVec.toNat = exponents.map (2 ^ ·)) {i : Nat} {capacity : BitVec 32}
    (hi : sizes[i]? = some capacity) : i < pool.gradeCount := by
  rw [h.gradeCount_eq hsizes]
  exact (List.getElem?_eq_some_iff.mp hi).1

theorem arenaCapacity_iff (h : Ladder pool exponents)
    (hsizes : sizes.map BitVec.toNat = exponents.map (2 ^ ·)) {i : Nat} (capacity : BitVec 32)
    (hi : i < pool.gradeCount) :
    (pool.grades i).arenaCapacity = capacity.toNat ↔ sizes[i]? = some capacity := by
  have hlt : i < sizes.length := h.gradeCount_eq hsizes ▸ hi
  have hentry := congrArg (fun l => l[i]?) (h.slots_eq hsizes)
  rw [List.getElem?_map, List.getElem?_map, List.getElem?_range hi,
    List.getElem?_eq_getElem hlt] at hentry
  have hcap : (pool.grades i).arenaCapacity = (sizes[i]).toNat := Option.some_inj.mp hentry
  rw [List.getElem?_eq_getElem hlt, Option.some_inj, hcap]
  exact BitVec.toNat_inj

theorem gradeForCapacity_iff_getElem? (h : Ladder pool exponents)
    (hsizes : sizes.map BitVec.toNat = exponents.map (2 ^ ·)) (capacity : BitVec 32) {i : Nat}
    (hi : i < pool.gradeCount) :
    gradeForCapacity pool capacity = i ↔ sizes[i]? = some capacity := by
  rw [h.gradeForCapacity_iff capacity hi, h.arenaCapacity_iff hsizes capacity hi]

/-- No grade carries a size above all of the ladder. -/
theorem linearScan_refuses_iff (h : Ladder pool exponents)
    (hsizes : sizes.map BitVec.toNat = exponents.map (2 ^ ·)) (size : BitVec 32) :
    linearScan pool size = pool.gradeCount ↔ ∀ capacity ∈ sizes, capacity < size := by
  rw [linearScan_eq_length_iff]
  constructor
  · intro hall capacity hmem
    obtain ⟨i, hi⟩ := List.mem_iff_getElem?.mp hmem
    have hlt := h.lt_gradeCount hsizes hi
    have hcap := hall i hlt
    rwa [(h.arenaCapacity_iff hsizes capacity hlt).mpr hi] at hcap
  · intro hall i hi
    have hlt : i < sizes.length := h.gradeCount_eq hsizes ▸ hi
    have hentry := List.getElem?_eq_getElem hlt
    rw [(h.arenaCapacity_iff hsizes _ hi).mpr hentry]
    exact hall _ (List.mem_of_getElem? hentry)

theorem gradeForCapacity_absent_iff (h : Ladder pool exponents)
    (hsizes : sizes.map BitVec.toNat = exponents.map (2 ^ ·)) (capacity : BitVec 32) :
    gradeForCapacity pool capacity = pool.gradeCount ↔ capacity ∉ sizes := by
  constructor
  · -- a size of the ladder is found at its slot
    intro hend hmem
    obtain ⟨i, hi⟩ := List.mem_iff_getElem?.mp hmem
    have hlt := h.lt_gradeCount hsizes hi
    rw [(h.gradeForCapacity_iff_getElem? hsizes capacity hlt).mpr hi] at hend
    exact absurd hlt (Nat.not_lt.mpr hend.ge)
  · -- what is found is at a slot, and so in the ladder
    intro hnot
    apply Nat.le_antisymm (gradeForCapacity_le pool capacity)
    apply Nat.le_of_not_lt
    intro hlt
    apply hnot
    exact List.mem_of_getElem? ((h.gradeForCapacity_iff_getElem? hsizes capacity hlt).mp rfl)

/-- A ladder of the sizes answers both lookups as a walk over it does. -/
theorem lookups (h : Ladder pool exponents)
    (hsizes : sizes.map BitVec.toNat = exponents.map (2 ^ ·)) : Lookups pool sizes where
  slots := h.slots_eq hsizes
  bySize := fun _ hne => h.gradeForSize_eq_linearScan hne
  refused := by
    intro size hne
    rw [h.gradeForSize_eq_linearScan hne]
    exact h.linearScan_refuses_iff hsizes size
  byCapacity := fun capacity _ hi => h.gradeForCapacity_iff_getElem? hsizes capacity hi
  absent := h.gradeForCapacity_absent_iff hsizes

end Ladder

/-- The capacity promised for a size is that of the grade the scan finds. -/
theorem Lookups.capacityFor {pool : GradedArenaPool} {sizes : List (BitVec 32)}
    (h : Lookups pool sizes) (hladder : pool.ladder ≠ 0) {size : BitVec 32} (hne : size ≠ 0#32) :
    Graded.capacityFor pool size =
      if linearScan pool size < pool.gradeCount then
        (pool.grades (linearScan pool size)).arenaCapacity
      else 0 := by
  unfold Graded.capacityFor
  rw [if_neg (not_or.mpr ⟨hladder, hne⟩)]
  dsimp only
  rw [h.bySize size hne]

variable {σ : Type}

/-- For every list of sizes that init accepts, over any host, and in every state of every run of the
pool, the lookups answer as a walk over the grades does. -/
theorem graded_lookups_exact (sizes : List (BitVec 32)) (sparePerGrade : Nat) :
    (∀ (host : Calls σ) (st : State σ), (init host st sizes sparePerGrade).1 = .success →
      Lookups (init host st sizes sparePerGrade).2.pool sizes) ∧
    ∀ (p : Provider σ) (pool : GradedArenaPool) (descriptors : Nat → Arena) (heap : σ)
      (others : List Block) (st : State (σ × List Block)) (lent : Nat → List Nat),
      sparePerGrade < 2 ^ 32 → p.holds heap others →
      (init p.recorded.toCalls ⟨pool, descriptors, heap, []⟩ sizes sparePerGrade).1 = .success →
      Run p (init p.recorded.toCalls ⟨pool, descriptors, heap, []⟩ sizes sparePerGrade).2 st lent →
      Lookups st.pool sizes := by
  constructor
  · intro host st hok
    obtain ⟨exponents, hsizes, hladder⟩ := init_ladder hok
    exact hladder.lookups hsizes
  · intro p pool descriptors heap others st lent hlimit hheld hok hrun
    obtain ⟨exponents, hsizes, hstart⟩ := init_sound hlimit hheld hok
    obtain ⟨spare, others', hsound⟩ := hrun.sound ⟨others, hstart⟩
    exact hsound.ladder.lookups hsizes

/-- The lookups of the pool of 8, 16 and 64, just made and after an arena for 10 bytes was taken. -/
theorem graded_lookups_sample :
    Lookups sampleGraded.pool [8#32, 16#32, 64#32] ∧
    Lookups (alloc (Provider.ofArena noHost).recorded.toCalls sampleGraded 10#32 true).2.2.pool
      [8#32, 16#32, 64#32] := by
  have hheld : (Provider.ofArena noHost).holds (lentArena 256, 0) [] :=
    lentArena_sound (by decide) (by decide) (by decide)
  have hstart : Run (Provider.ofArena noHost) sampleGraded sampleGraded fun _ => [] := .start
  have htaken := hstart.taken 10#32 1 80 (by decide +kernel) (by decide +kernel) (by decide +kernel)
  constructor
  · exact (graded_lookups_exact [8#32, 16#32, 64#32] 1).1 (Provider.ofArena noHost).recorded.toCalls
      ⟨⟨0, fun _ => Dynamic.forgetEverything, 0, 0#32⟩, fun _ => fresh 0 0, (lentArena 256, 0), []⟩
      (by decide +kernel)
  · exact (graded_lookups_exact [8#32, 16#32, 64#32] 1).2 (Provider.ofArena noHost)
      ⟨0, fun _ => Dynamic.forgetEverything, 0, 0#32⟩ (fun _ => fresh 0 0) (lentArena 256, 0) [] _ _
      (by decide) hheld (by decide +kernel) htaken

end Arnm.ArenaPool.Graded
