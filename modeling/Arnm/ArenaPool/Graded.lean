import Arnm.ArenaPool.Stock
import Arnm.Lib.Masks

set_option autoImplicit false

/-! # The graded arena pool

`graded_arena_pool.c`: a ladder of dynamic pools, their capacities ascending powers of two, and a
mask with one bit for each. Both lookups count the bits of the mask below a position: the rounded
size on the way out, the capacity of the arena on the way back. -/

namespace Arnm.ArenaPool.Graded

open Memory Masks Search

/-- `arnm_ceil_power_of_two` -/
def ceilPowerOfTwo (value : BitVec 32) : BitVec 32 :=
  let value := value - 1#32
  let value := value ||| value >>> 1
  let value := value ||| value >>> 2
  let value := value ||| value >>> 4
  let value := value ||| value >>> 8
  let value := value ||| value >>> 16
  value + 1#32

/-- `arnm_is_power_of_two` -/
def isPowerOfTwo (size : BitVec 32) : Bool := size != 0#32 && size &&& (size - 1#32) == 0#32

/-- `ARNM_GRADED_MIN_SIZE` -/
def gradedMinSize : BitVec 32 := 8#32

/-- `ARNM_GRADED_MAX_SIZE` -/
def gradedMaxSize : BitVec 32 := 2147483648#32

/-- `ARNM_GRADED_MAX_GRADE_COUNT` -/
def gradedMaxGradeCount : Nat := 29

/-- `arnm_graded_arena_pool`, with the grades of the array at `ladder` by their indices. -/
structure GradedArenaPool where
  ladder : Nat
  grades : Nat → Dynamic.DynamicArenaPool
  gradeCount : Nat
  gradeBits : BitVec 32

/-- A pool, the arena descriptors, and the host with the memory. -/
structure State (σ : Type) where
  pool : GradedArenaPool
  store : Store σ

/-- `sizeof(arnm_dynamic_arena_pool)` -/
def gradeSize : Nat := 24

/-- `grades_bytes` -/
def gradesBytes (gradeCount : Nat) : Nat := gradeSize * gradeCount % 2 ^ 32

/-- `grade_for_size` -/
def gradeForSize (pool : GradedArenaPool) (size : BitVec 32) : Nat :=
  if gradedMaxSize < size then pool.gradeCount
  else
    let atOrAbove := pool.gradeBits &&& ~~~(ceilPowerOfTwo size - 1#32)
    if atOrAbove = 0#32 then pool.gradeCount
    else (pool.gradeBits &&& ~~~atOrAbove).cpop.toNat

/-- `grade_for_capacity` -/
def gradeForCapacity (pool : GradedArenaPool) (capacity : BitVec 32) : Nat :=
  if isPowerOfTwo capacity = false then pool.gradeCount
  else
    let slot := (pool.gradeBits &&& (capacity - 1#32)).cpop.toNat
    if pool.gradeCount ≤ slot ∨ (pool.grades slot).arenaCapacity ≠ capacity.toNat then
      pool.gradeCount
    else slot

/-- The loop of `arnm_graded_arena_pool_init` over the sizes; the mask, or what is wrong. -/
def judgeSizes : List (BitVec 32) → BitVec 32 → BitVec 32 → Except Result (BitVec 32)
  | [], _, gradeBits => .ok gradeBits
  | capacity :: sizes, previous, gradeBits =>
    if isPowerOfTwo capacity = false then .error .errorInvalidParam
    else if capacity < gradedMinSize ∨ gradedMaxSize < capacity then .error .errorInvalidParam
    -- the mask could not tell equal grades apart
    else if capacity ≤ previous then .error .errorInvalidParam
    else judgeSizes sizes capacity (gradeBits ||| 1#32 <<< capacity.ctz.toNat)

/-- The grades of a ladder just made. -/
def initGrades (sizes : List (BitVec 32)) (sparePerGrade : Nat)
    (grades : Nat → Dynamic.DynamicArenaPool) (i : Nat) : Dynamic.DynamicArenaPool :=
  match sizes[i]? with
  | some capacity => (Dynamic.init (grades i) capacity.toNat sparePerGrade).2
  | none => grades i

section Host

variable {σ : Type} (host : Calls σ)

/-- `arnm_graded_arena_pool_init` -/
def init (st : State σ) (sizes : List (BitVec 32)) (sparePerGrade : Nat) : Result × State σ :=
  let gradeCount := sizes.length
  if gradeCount = 0 then (.errorInvalidParam, st)
  else if gradedMaxGradeCount < gradeCount then (.errorInvalidParam, st)
  else
    match judgeSizes sizes 0#32 0#32 with
    | .error result => (result, st)
    | .ok gradeBits =>
      let block := host.alloc 0 (gradesBytes gradeCount) st.store.heap
      let store := { st.store with heap := block.state }
      if block.result ≠ .success then (block.result, { st with store := store })
      else
        (.success,
          { pool :=
              { ladder := block.buffer
                grades := initGrades sizes sparePerGrade st.pool.grades
                gradeCount := gradeCount
                gradeBits := gradeBits }
            store := store })

/-- One grade of the ladder and the store. -/
def State.grade (st : State σ) (index : Nat) : Dynamic.State σ := ⟨st.pool.grades index, st.store⟩

/-- A grade of the ladder and the store after a call. -/
def State.setGrade (st : State σ) (index : Nat) (grade : Dynamic.State σ) : State σ where
  pool := { st.pool with grades := Function.update st.pool.grades index grade.pool }
  store := grade.store

/-- `arnm_graded_arena_pool_alloc`, with the arena it hands over. -/
def alloc (st : State σ) (size : BitVec 32) (out : Bool) : Result × Nat × State σ :=
  if out = false then (.errorNullPointer, 0, st)
  else if st.pool.ladder = 0 then (.errorNotInitialized, 0, st)
  else if size = 0#32 then (.errorInvalidParam, 0, st)
  else
    let index := gradeForSize st.pool size
    if st.pool.gradeCount ≤ index then (.errorResourceSizeExceed, 0, st)
    else
      let r := Dynamic.alloc host (st.grade index) out
      (r.1, r.2.1, st.setGrade index r.2.2)

/-- `arnm_graded_arena_pool_free` -/
def free (st : State σ) (arena : Nat) : Result × State σ :=
  if arena = 0 then (.errorNullPointer, st)
  else if st.pool.ladder = 0 then (.errorNotInitialized, st)
  -- the descriptors are those of single arenas
  else
    let index := gradeForCapacity st.pool (BitVec.ofNat 32 (st.store.descriptors arena).capacity)
    if st.pool.gradeCount ≤ index then (.errorInvalidParam, st)
    else
      let r := Dynamic.free host (st.grade index) arena
      (r.1, st.setGrade index r.2)

end Host

/-! ## Powers of two -/

theorem isPowerOfTwo_iff {size : BitVec 32} :
    isPowerOfTwo size = true ↔ ∃ e < 32, size.toNat = 2 ^ e := by
  have hbits : isPowerOfTwo size = true ↔ size.toNat ≠ 0 ∧ size.toNat &&& (size.toNat - 1) = 0 := by
    unfold isPowerOfTwo
    rw [Bool.and_eq_true, bne_iff_ne, beq_iff_eq]
    refine and_congr (by rw [Ne, ← BitVec.toNat_inj]; rfl) ?_
    rw [← BitVec.toNat_inj, BitVec.toNat_and]
    by_cases hz : size = 0#32
    · rw [hz]
      decide
    · have hone : 1#32 ≤ size := by
        rw [BitVec.le_def]
        exact Nat.pos_of_ne_zero fun h => hz (BitVec.eq_of_toNat_eq h)
      rw [BitVec.toNat_sub_of_le hone]
      rfl
  rw [hbits, Nat.ne_zero_and_sub_one_eq_zero_iff_isPowerOfTwo]
  constructor
  · rintro ⟨e, he⟩
    exact ⟨e, (Nat.pow_lt_pow_iff_right (by decide)).mp (he ▸ size.isLt), he⟩
  · rintro ⟨e, -, he⟩
    exact ⟨e, he⟩

theorem getLsbD_of_toNat_eq {size : BitVec 32} {e : Nat} (he : size.toNat = 2 ^ e) (i : Nat) :
    size.getLsbD i = decide (e = i) := by
  rw [BitVec.getLsbD, he, Nat.testBit_two_pow]

/-- The bit scan of a power of two gives its exponent. -/
theorem ctz_of_toNat_eq {size : BitVec 32} {e : Nat} (he : size.toNat = 2 ^ e) :
    size.ctz.toNat = e := by
  have hne : size ≠ 0#32 := by
    rintro rfl
    exact absurd he.symm (Nat.pow_pos (by decide)).ne'
  have hbit := BitVec.getLsbD_true_ctz_of_ne_zero hne
  rw [getLsbD_of_toNat_eq he, decide_eq_true_eq] at hbit
  exact hbit.symm

/-- The bits of the mask below a power of two. -/
theorem getLsbD_sub_one {size : BitVec 32} {e : Nat} (he : size.toNat = 2 ^ e) (i : Nat) :
    (size - 1#32).getLsbD i = decide (i < e) := by
  have hone : 1#32 ≤ size := by
    rw [BitVec.le_def, he]
    exact Nat.one_le_two_pow
  rw [BitVec.getLsbD, BitVec.toNat_sub_of_le hone, he]
  exact Nat.testBit_two_pow_sub_one e i

/-- The rounded size less one has all bits below the power of two that carries the size. -/
theorem getLsbD_ceil_sub_one {size : BitVec 32} (hne : size ≠ 0#32) (i : Nat) :
    (ceilPowerOfTwo size - 1#32).getLsbD i = decide (i < Nat.clog 2 size.toNat) := by
  have hspread : (ceilPowerOfTwo size - 1#32).getLsbD i = true ↔
      ∃ j, i ≤ j ∧ j < i + 2 * (2 * (2 * (2 * (2 * 1)))) ∧ (size - 1#32).getLsbD j = true := by
    unfold ceilPowerOfTwo
    rw [BitVec.add_sub_cancel]
    refine getLsbD_or_shiftRight (getLsbD_or_shiftRight (getLsbD_or_shiftRight
      (getLsbD_or_shiftRight (getLsbD_or_shiftRight fun i => ?_)))) i
    constructor
    · exact fun hi => ⟨i, Nat.le_refl _, Nat.lt_succ_self _, hi⟩
    · rintro ⟨j, hlo, hhi, hj⟩
      rwa [show i = j by omega]
  have hone : 1#32 ≤ size := by
    rw [BitVec.le_def]
    exact Nat.pos_of_ne_zero fun h => hne (BitVec.eq_of_toNat_eq h)
  have hpos : 0 < size.toNat := hone
  have hwide : (∃ j, i ≤ j ∧ j < i + 2 * (2 * (2 * (2 * (2 * 1)))) ∧
      (size - 1#32).getLsbD j = true) ↔ ∃ j, i ≤ j ∧ (size - 1#32).getLsbD j = true := by
    constructor
    · rintro ⟨j, hlo, -, hj⟩
      exact ⟨j, hlo, hj⟩
    · rintro ⟨j, hlo, hj⟩
      have hlt := BitVec.lt_of_getLsbD hj
      exact ⟨j, hlo, by omega, hj⟩
  rw [Bool.eq_iff_iff, hspread, hwide, decide_eq_true_eq, Nat.lt_clog_iff_pow_lt (by decide)]
  rw [← not_iff_not, ← lt_two_pow_iff, BitVec.toNat_sub_of_le hone]
  show size.toNat - 1 < 2 ^ i ↔ _
  omega

/-! ## The ladder and its lookups -/

/-- The grades are the powers of two at the exponents, ascending, and the mask marks these. -/
structure Ladder (pool : GradedArenaPool) (exponents : List Nat) : Prop where
  ascending : exponents.Pairwise (· < ·)
  within : ∀ e ∈ exponents, 3 ≤ e ∧ e < 32
  marks : Marks pool.gradeBits exponents
  count : pool.gradeCount = exponents.length
  capacity : ∀ {i e}, exponents[i]? = some e → (pool.grades i).arenaCapacity = 2 ^ e

namespace Ladder

variable {pool : GradedArenaPool} {exponents : List Nat}

/-- The lookup by size cuts the ladder at the first grade that carries the size. -/
theorem gradeForSize_cut (h : Ladder pool exponents) {size : BitVec 32} (hne : size ≠ 0#32) :
    Cut (· < Nat.clog 2 size.toNat) exponents (gradeForSize pool size) := by
  obtain ⟨r, hcut⟩ := exists_cut h.ascending (Nat.clog 2 size.toNat)
  suffices heq : gradeForSize pool size = r by
    rw [heq]
    exact hcut
  -- where no grade carries the size the cut is at the end
  have hnone : (∀ e ∈ exponents, e < Nat.clog 2 size.toNat) → r = pool.gradeCount := by
    intro hall
    rw [h.count, hcut.length, List.filter_eq_self.mpr fun e he => decide_eq_true (hall e he)]
  unfold gradeForSize
  by_cases hbig : gradedMaxSize < size
  · rw [if_pos hbig]
    refine (hnone fun e he => ?_).symm
    rw [Nat.lt_clog_iff_pow_lt (by decide)]
    have hle : 2 ^ e ≤ 2 ^ 31 :=
      Nat.pow_le_pow_right (by decide) (Nat.le_of_lt_succ (h.within e he).2)
    exact Nat.lt_of_le_of_lt hle hbig
  rw [if_neg hbig]
  dsimp only
  have hbit : ∀ i, (pool.gradeBits &&& ~~~(ceilPowerOfTwo size - 1#32)).getLsbD i =
      (pool.gradeBits.getLsbD i && !decide (i < Nat.clog 2 size.toNat)) := by
    intro i
    rw [BitVec.getLsbD_and, BitVec.getLsbD_not, getLsbD_ceil_sub_one hne]
    by_cases hi : i < 32
    · simp [hi]
    · simp [BitVec.getLsbD_of_ge pool.gradeBits i (Nat.le_of_not_lt hi)]
  by_cases hz : pool.gradeBits &&& ~~~(ceilPowerOfTwo size - 1#32) = 0#32
  · rw [if_pos hz]
    refine (hnone fun e he => ?_).symm
    have hzero := hbit e
    rw [hz, (h.marks e).mpr he, BitVec.getLsbD_zero, Bool.true_and] at hzero
    simpa using hzero.symm
  · rw [if_neg hz]
    refine h.marks.rank h.ascending hcut fun i => ?_
    rw [BitVec.getLsbD_and, BitVec.getLsbD_not, hbit]
    by_cases hi : i < 32
    · cases pool.gradeBits.getLsbD i <;> simp [hi]
    · simp [BitVec.getLsbD_of_ge pool.gradeBits i (Nat.le_of_not_lt hi)]

/-- The lookup by size finds a grade that carries it, and the ones before do not. -/
theorem gradeForSize_spec (h : Ladder pool exponents) {size : BitVec 32} (hne : size ≠ 0#32)
    (hlt : gradeForSize pool size < pool.gradeCount) :
    size.toNat ≤ (pool.grades (gradeForSize pool size)).arenaCapacity ∧
      ∀ i < gradeForSize pool size, (pool.grades i).arenaCapacity < size.toNat := by
  obtain ⟨-, hbefore, hbehind⟩ := h.gradeForSize_cut hne
  generalize gradeForSize pool size = r at hbefore hbehind hlt ⊢
  rw [h.count] at hlt
  refine ⟨?_, fun i hi => ?_⟩
  · rw [h.capacity (List.getElem?_eq_getElem hlt), ← Nat.clog_le_iff_le_pow (by decide)]
    refine Nat.le_of_not_lt (hbehind _ ?_)
    rw [List.drop_eq_getElem_cons hlt]
    exact List.mem_cons_self
  · rw [h.capacity (List.getElem?_eq_getElem (Nat.lt_trans hi hlt)),
      ← Nat.lt_clog_iff_pow_lt (by decide)]
    exact hbefore _ (List.mem_take_iff_getElem.mpr ⟨i, by omega, rfl⟩)

/-- The lookup by capacity finds each grade. -/
theorem gradeForCapacity_grade (h : Ladder pool exponents) {i : Nat} (hi : i < pool.gradeCount) :
    gradeForCapacity pool (BitVec.ofNat 32 (pool.grades i).arenaCapacity) = i := by
  have hlt : i < exponents.length := h.count ▸ hi
  have hget := List.getElem?_eq_getElem hlt
  have hcap := h.capacity hget
  have hexp := (h.within _ (List.getElem_mem hlt)).2
  have hnat : (BitVec.ofNat 32 (pool.grades i).arenaCapacity).toNat = 2 ^ exponents[i] := by
    rw [hcap, BitVec.toNat_ofNat, Nat.mod_eq_of_lt (Nat.pow_lt_pow_right (by decide) hexp)]
  unfold gradeForCapacity
  rw [if_neg (by rw [isPowerOfTwo_iff.mpr ⟨_, hexp, hnat⟩]; decide)]
  have hslot :
      (pool.gradeBits &&& (BitVec.ofNat 32 (pool.grades i).arenaCapacity - 1#32)).cpop.toNat
      = i := by
    refine h.marks.rank h.ascending (cut_self h.ascending hget) fun k => ?_
    rw [BitVec.getLsbD_and, getLsbD_sub_one hnat]
  dsimp only
  rw [hslot, if_neg]
  rw [hnat, hcap, not_or, not_le, not_not]
  exact ⟨hi, rfl⟩

end Ladder

end Arnm.ArenaPool.Graded
