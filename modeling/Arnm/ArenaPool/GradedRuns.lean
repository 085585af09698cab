import Arnm.ArenaPool.DynamicRuns
import Arnm.ArenaPool.Graded

set_option autoImplicit false

/-! # Runs of a graded arena pool

Arenas are asked for by size and returned without a word on where they came from. The runs keep the
arenas that are out by the grade they were taken from; in every state of a run the pool is in order
(`InOrder`), and the grade recomputed for an arena is the one it is kept under. -/

namespace Arnm.ArenaPool.Graded

open Memory ArenaPool.Dynamic

variable {σ : Type} {p : Provider σ} {st : State (σ × List Block)} {lent spare : Nat → List Nat}
  {exponents : List Nat} {others : List Block}

/-- The states of a pool and, for each grade, the arenas of it that are out. -/
inductive Run (p : Provider σ) (start : State (σ × List Block)) :
    State (σ × List Block) → (Nat → List Nat) → Prop where
  | start : Run p start start fun _ => []
  | alloc {st : State (σ × List Block)} {lent : Nat → List Nat} (size : BitVec 32) (out : Bool)
      (run : Run p start st lent) :
      Run p start (alloc p.recorded.toCalls st size out).2.2
        (if (alloc p.recorded.toCalls st size out).1 = .success then
          Function.update lent (gradeForSize st.pool size)
            ((alloc p.recorded.toCalls st size out).2.1 :: lent (gradeForSize st.pool size))
          else lent)
  | free {st : State (σ × List Block)} {lent : Nat → List Nat} {grade arena : Nat}
      (run : Run p start st lent) (has : arena ∈ lent grade) :
      Run p start (free p.recorded.toCalls st arena).2
        (Function.update lent grade ((lent grade).erase arena))
  | reserve {st : State (σ × List Block)} {lent : Nat → List Nat} {grade : Nat}
      {r : Result × Dynamic.State (σ × List Block)} (count : Nat) (run : Run p start st lent)
      (has : grade < st.pool.gradeCount)
      (returns : Dynamic.reserve p.recorded.toCalls (st.grade grade) count = some r) :
      Run p start (st.setGrade grade r.2) lent
  | use {st : State (σ × List Block)} {lent : Nat → List Nat} {grade arena : Nat} (host : Host)
      {c : Call} (run : Run p start st lent) (has : arena ∈ lent grade) (kept : c ≠ .release) :
      Run p start { st with store := st.store.use p.recorded.toCalls host arena c } lent
  | write {st : State (σ × List Block)} {lent : Nat → List Nat} {grade arena : Nat} {m : Bytes}
      (run : Run p start st lent) (has : arena ∈ lent grade)
      (within : (st.store.descriptors arena).Confined (p.recorded.bytes st.store.heap) m) :
      Run p start { st with store := st.store.write p.recorded.toCalls m } lent
  | elsewhere {st : State (σ × List Block)} {lent : Nat → List Nat} {s : Store (σ × List Block)}
      {others : List Block} (run : Run p start st lent)
      (kept : Frame p st.store s st.store.heap.2) (record : s.heap.2 = st.store.heap.2)
      (held : p.recorded.holds s.heap (st.store.heap.2 ++ others)) :
      Run p start { st with store := s } lent

/-! ## The invariant -/

/-- The block with the array of the grades. -/
def GradedArenaPool.ladderBlock (pool : GradedArenaPool) : Block :=
  ⟨pool.ladder, gradesBytes pool.gradeCount⟩

/-- The blocks of the arenas of one grade. -/
def gradeBlocks (pool : GradedArenaPool) (lent spare : Nat → List Nat) (grade : Nat) : List Block :=
  arenaBlocks (pool.grades grade).arenaCapacity (lent grade ++ spare grade)

/-- The blocks of the arenas of all grades. -/
def allBlocks (pool : GradedArenaPool) (lent spare : Nat → List Nat) : List Block :=
  (List.range pool.gradeCount).flatMap (gradeBlocks pool lent spare)

/-- The blocks of the arenas of all grades but one. -/
def otherBlocks (pool : GradedArenaPool) (lent spare : Nat → List Nat) (grade : Nat) : List Block :=
  ((List.range pool.gradeCount).erase grade).flatMap (gradeBlocks pool lent spare)

/-- A ladder whose grades are stocks, with the blocks for all of it. -/
structure Sound (p : Provider σ) (st : State (σ × List Block)) (exponents : List Nat)
    (lent spare : Nat → List Nat) (others : List Block) : Prop where
  ladder : Ladder st.pool exponents
  ladder_ne : st.pool.ladder ≠ 0
  stocks : ∀ grade < st.pool.gradeCount, ∃ others made,
    Stock p (st.grade grade) (lent grade) (spare grade) others made
  none : ∀ grade, st.pool.gradeCount ≤ grade → lent grade = []
  held : p.recorded.holds st.store.heap
    (allBlocks st.pool lent spare ++ st.pool.ladderBlock :: others)
  made : st.store.heap.2.Perm (allBlocks st.pool lent spare ++ [st.pool.ladderBlock])

/-- All blocks are those of one grade and those of the others. -/
theorem allBlocks_perm (pool : GradedArenaPool) (lent spare : Nat → List Nat) {grade : Nat}
    (h : grade < pool.gradeCount) :
    (allBlocks pool lent spare).Perm
      (gradeBlocks pool lent spare grade ++ otherBlocks pool lent spare grade) :=
  (List.perm_cons_erase (List.mem_range.mpr h)).flatMap_right _

/-- The blocks of the other grades stay those they were. -/
theorem otherBlocks_setGrade (st : State (σ × List Block)) (lent spare : Nat → List Nat)
    (grade : Nat)
    (next : Dynamic.State (σ × List Block)) (lent' spare' : List Nat) :
    otherBlocks (st.setGrade grade next).pool (Function.update lent grade lent')
      (Function.update spare grade spare') grade = otherBlocks st.pool lent spare grade := by
  refine List.flatMap_congr fun i hi => ?_
  have hne : i ≠ grade := by
    rintro rfl
    exact List.nodup_range.not_mem_erase hi
  unfold gradeBlocks State.setGrade
  dsimp only
  rw [Function.update_of_ne hne, Function.update_of_ne hne, Function.update_of_ne hne]

theorem gradeBlocks_setGrade (st : State (σ × List Block)) (lent spare : Nat → List Nat)
    (grade : Nat)
    (next : Dynamic.State (σ × List Block)) (lent' spare' : List Nat) :
    gradeBlocks (st.setGrade grade next).pool (Function.update lent grade lent')
      (Function.update spare grade spare') grade =
      arenaBlocks next.pool.arenaCapacity (lent' ++ spare') := by
  unfold gradeBlocks State.setGrade
  dsimp only
  rw [Function.update_self, Function.update_self, Function.update_self]

theorem grade_setGrade_same (st : State (σ × List Block)) (grade : Nat)
    (next : Dynamic.State (σ × List Block)) : (st.setGrade grade next).grade grade = next := by
  unfold State.grade State.setGrade
  dsimp only
  rw [Function.update_self]

theorem grade_setGrade_other (st : State (σ × List Block)) {grade i : Nat} (hne : i ≠ grade)
    (next : Dynamic.State (σ × List Block)) :
    (st.setGrade grade next).grade i = ⟨st.pool.grades i, next.store⟩ := by
  unfold State.grade State.setGrade
  dsimp only
  rw [Function.update_of_ne hne]

/-- The capacities stay, and so does the ladder. -/
theorem Ladder.setGrade (h : Ladder st.pool exponents) {grade : Nat}
    {next : Dynamic.State (σ × List Block)} (hsize : SameSize (st.pool.grades grade) next.pool) :
    Ladder (st.setGrade grade next).pool exponents := by
  refine ⟨h.ascending, h.within, h.marks, h.count, fun {i e} hi => ?_⟩
  show (Function.update st.pool.grades grade next.pool i).arenaCapacity = 2 ^ e
  by_cases hne : i = grade
  · rw [hne, Function.update_self, hsize.1, ← hne]
    exact h.capacity hi
  · rw [Function.update_of_ne hne]
    exact h.capacity hi

namespace Sound

/-- One grade, with the blocks of all others around it. -/
theorem stock (h : Sound p st exponents lent spare others) {grade : Nat}
    (hg : grade < st.pool.gradeCount) :
    Stock p (st.grade grade) (lent grade) (spare grade)
      (otherBlocks st.pool lent spare grade ++ st.pool.ladderBlock :: others)
      (otherBlocks st.pool lent spare grade ++ [st.pool.ladderBlock]) := by
  obtain ⟨others', made', hstock⟩ := h.stocks grade hg
  have hperm := allBlocks_perm st.pool lent spare hg
  have hheld := p.recorded.lawful.perm h.held (hperm.append_right _)
  have hmade := h.made.trans (hperm.append_right _)
  rw [List.append_assoc] at hheld hmade
  exact hstock.frame (Frame.refl _ _ _) hheld hmade

/-- One grade moves on and leaves the blocks of the others alone. -/
theorem setGrade (h : Sound p st exponents lent spare others) {grade : Nat}
    (hg : grade < st.pool.gradeCount) {next : Dynamic.State (σ × List Block)}
    {lent' spare' : List Nat}
    (hnext : Stock p next lent' spare'
      (otherBlocks st.pool lent spare grade ++ st.pool.ladderBlock :: others)
      (otherBlocks st.pool lent spare grade ++ [st.pool.ladderBlock]))
    (hframe : Frame p st.store next.store
      (otherBlocks st.pool lent spare grade ++ st.pool.ladderBlock :: others))
    (hsize : SameSize (st.pool.grades grade) next.pool) :
    Sound p (st.setGrade grade next) exponents (Function.update lent grade lent')
      (Function.update spare grade spare') others := by
  have hperm := allBlocks_perm (st.setGrade grade next).pool (Function.update lent grade lent')
    (Function.update spare grade spare') hg
  rw [otherBlocks_setGrade, gradeBlocks_setGrade] at hperm
  have hheld : p.recorded.holds next.store.heap
      (allBlocks (st.setGrade grade next).pool (Function.update lent grade lent')
        (Function.update spare grade spare') ++ st.pool.ladderBlock :: others) := by
    refine p.recorded.lawful.perm hnext.owned.held ?_
    rw [← List.append_assoc]
    exact hperm.symm.append_right _
  have hmade : next.store.heap.2.Perm
      (allBlocks (st.setGrade grade next).pool (Function.update lent grade lent')
        (Function.update spare grade spare') ++ [st.pool.ladderBlock]) := by
    refine hnext.owned.made.trans ?_
    rw [← List.append_assoc]
    exact hperm.symm.append_right _
  refine ⟨h.ladder.setGrade hsize, h.ladder_ne, fun i hi => ?_, fun i hi => ?_, hheld, hmade⟩
  · by_cases hne : i = grade
    · rw [hne, grade_setGrade_same, Function.update_self, Function.update_self]
      exact ⟨_, _, hnext⟩
    · -- another grade: its blocks are among those left alone
      obtain ⟨others', made', hstock⟩ := h.stocks i hi
      rw [grade_setGrade_other st hne, Function.update_of_ne hne, Function.update_of_ne hne]
      have hsub : gradeBlocks st.pool lent spare i ⊆
          otherBlocks st.pool lent spare grade ++ st.pool.ladderBlock :: others := fun b hb =>
        List.mem_append_left _ (List.mem_flatMap.mpr
          ⟨i, (List.mem_erase_of_ne hne).mpr (List.mem_range.mpr hi), hb⟩)
      have hblocks : gradeBlocks (st.setGrade grade next).pool (Function.update lent grade lent')
          (Function.update spare grade spare') i = gradeBlocks st.pool lent spare i := by
        unfold gradeBlocks State.setGrade
        dsimp only
        rw [Function.update_of_ne hne, Function.update_of_ne hne, Function.update_of_ne hne]
      have hown := allBlocks_perm (st.setGrade grade next).pool (Function.update lent grade lent')
        (Function.update spare grade spare') hi
      rw [hblocks] at hown
      have hheld' := p.recorded.lawful.perm hheld (hown.append_right _)
      have hmade' := hmade.trans (hown.append_right _)
      rw [List.append_assoc] at hheld' hmade'
      exact ⟨_, _, hstock.frame (hframe.subset hsub) hheld' hmade'⟩
  · have hne : i ≠ grade := by
      rintro rfl
      exact absurd hg (Nat.not_lt.mpr hi)
    rw [Function.update_of_ne hne]
    exact h.none i hi

/-- A grade whose pool is the same after a call of a borrower. -/
theorem setStore (h : Sound p st exponents lent spare others) {grade : Nat}
    (hg : grade < st.pool.gradeCount) {s : Store (σ × List Block)}
    (hnext : Stock p ⟨st.pool.grades grade, s⟩ (lent grade) (spare grade)
      (otherBlocks st.pool lent spare grade ++ st.pool.ladderBlock :: others)
      (otherBlocks st.pool lent spare grade ++ [st.pool.ladderBlock]))
    (hframe : Frame p st.store s
      (otherBlocks st.pool lent spare grade ++ st.pool.ladderBlock :: others)) :
    Sound p { st with store := s } exponents lent spare others := by
  have hset := h.setGrade hg hnext hframe ⟨rfl, rfl⟩
  unfold State.setGrade at hset
  dsimp only at hset
  rw [Function.update_eq_self, Function.update_eq_self, Function.update_eq_self] at hset
  exact hset

theorem grade_lt (h : Sound p st exponents lent spare others) {grade arena : Nat}
    (ha : arena ∈ lent grade) : grade < st.pool.gradeCount := by
  by_contra hge
  rw [h.none grade (Nat.le_of_not_lt hge)] at ha
  cases ha

/-- What an allocation does: it is refused, or an empty arena of a grade that carries the size comes
out. -/
theorem alloc (h : Sound p st exponents lent spare others) (size : BitVec 32) :
    let r := Graded.alloc p.recorded.toCalls st size true
    let grade := gradeForSize st.pool size
    (r.1 ≠ .success ∧ Sound p r.2.2 exponents lent spare others ∨
      r.1 = .success ∧ size ≠ 0#32 ∧ grade < st.pool.gradeCount ∧ r.2.1 ∉ lent grade ∧
        r.2.2.store.descriptors r.2.1 =
          fresh (bufferAt r.2.1) (st.pool.grades grade).arenaCapacity ∧
        ∃ spare', Sound p r.2.2 exponents (Function.update lent grade (r.2.1 :: lent grade))
          (Function.update spare grade spare') others) := by
  intro r grade
  have hr : r = Graded.alloc p.recorded.toCalls st size true := rfl
  unfold Graded.alloc at hr
  rw [if_neg (by decide), if_neg h.ladder_ne] at hr
  by_cases hz : size = 0#32
  · rw [if_pos hz] at hr
    rw [hr]
    exact Or.inl ⟨(fun hok => nomatch hok), h⟩
  rw [if_neg hz] at hr
  dsimp only at hr
  by_cases hlast : st.pool.gradeCount ≤ grade
  · rw [if_pos hlast] at hr
    rw [hr]
    exact Or.inl ⟨(fun hok => nomatch hok), h⟩
  rw [if_neg hlast] at hr
  have hg : grade < st.pool.gradeCount := Nat.lt_of_not_le hlast
  obtain ⟨hframe, hsize, hcase⟩ := (h.stock hg).alloc
  -- what happens in the block of one grade is outside those of the others
  have hframe' := hframe.subset (List.subset_append_right _ _)
  rw [hr]
  rcases hcase with ⟨herr, -, hstock⟩ | ⟨hok, hnew, hfresh, spare', hstock⟩
  · have hset := h.setGrade hg hstock hframe' hsize
    rw [Function.update_eq_self, Function.update_eq_self] at hset
    exact Or.inl ⟨herr, hset⟩
  · exact Or.inr ⟨hok, hz, hg, hnew, hfresh, spare', h.setGrade hg hstock hframe' hsize⟩

/-- The grade recomputed for an arena is the one it was taken from. -/
theorem gradeForCapacity (h : Sound p st exponents lent spare others) {grade arena : Nat}
    (ha : arena ∈ lent grade) :
    (st.store.descriptors arena).capacity = (st.pool.grades grade).arenaCapacity ∧
      Graded.gradeForCapacity st.pool
        (BitVec.ofNat 32 (st.store.descriptors arena).capacity) = grade := by
  have hg := h.grade_lt ha
  have hcap : (st.store.descriptors arena).capacity = (st.pool.grades grade).arenaCapacity :=
    ((h.stock hg).owned.lends.out arena ha).capacity
  refine ⟨hcap, ?_⟩
  rw [hcap]
  exact h.ladder.gradeForCapacity_grade hg

/-- An arena that comes back goes to its grade. -/
theorem free (h : Sound p st exponents lent spare others) {grade arena : Nat}
    (ha : arena ∈ lent grade) :
    (Graded.free p.recorded.toCalls st arena).1 = .success ∧
      (Graded.free p.recorded.toCalls st arena).2 =
        st.setGrade grade (Dynamic.free p.recorded.toCalls (st.grade grade) arena).2 ∧
      ∃ spare', Sound p (Graded.free p.recorded.toCalls st arena).2 exponents
        (Function.update lent grade ((lent grade).erase arena))
        (Function.update spare grade spare') others := by
  have hg := h.grade_lt ha
  have hstock := h.stock hg
  have hne := (hstock.owned.lends.addr arena (List.mem_append_left _ ha)).1
  have hfree : Graded.free p.recorded.toCalls st arena =
      ((Dynamic.free p.recorded.toCalls (st.grade grade) arena).1,
        st.setGrade grade (Dynamic.free p.recorded.toCalls (st.grade grade) arena).2) := by
    unfold Graded.free
    rw [if_neg hne, if_neg h.ladder_ne]
    dsimp only
    rw [(h.gradeForCapacity ha).2, if_neg (Nat.not_le.mpr hg)]
  obtain ⟨hframe, hsize, hok, spare', hnext⟩ := hstock.free ha
  rw [hfree]
  exact ⟨hok, rfl, spare', h.setGrade hg hnext hframe hsize⟩

theorem reserve (h : Sound p st exponents lent spare others) {grade : Nat}
    (hg : grade < st.pool.gradeCount) (count : Nat) :
    ∃ r, Dynamic.reserve p.recorded.toCalls (st.grade grade) count = some r ∧
      ∃ spare', Sound p (st.setGrade grade r.2) exponents lent
        (Function.update spare grade spare') others := by
  obtain ⟨r, hr, hframe, hsize, hcase⟩ := (h.stock hg).reserve count
  have hframe' := hframe.subset (List.subset_append_right _ _)
  refine ⟨r, hr, ?_⟩
  rcases hcase with ⟨-, spare', hstock, -⟩ | ⟨-, -, hstock⟩
  · have hset := h.setGrade hg hstock hframe' hsize
    rw [Function.update_eq_self grade lent] at hset
    exact ⟨spare', hset⟩
  · have hset := h.setGrade hg hstock hframe' hsize
    rw [Function.update_eq_self grade lent] at hset
    exact ⟨spare grade, hset⟩

theorem use (h : Sound p st exponents lent spare others) {grade arena : Nat}
    (host : Host) {c : Call}
    (kept : c ≠ .release) (ha : arena ∈ lent grade) :
    Sound p { st with store := st.store.use p.recorded.toCalls host arena c } exponents lent spare
      others := by
  have hstock := h.stock (h.grade_lt ha)
  exact h.setStore (h.grade_lt ha) (hstock.use host kept ha)
    ((hstock.owned.use ha host kept).2.subset (List.subset_append_right _ _))

theorem write (h : Sound p st exponents lent spare others) {grade arena : Nat} {m : Bytes}
    (ha : arena ∈ lent grade)
    (hin : (st.store.descriptors arena).Confined (p.recorded.bytes st.store.heap) m) :
    Sound p { st with store := st.store.write p.recorded.toCalls m } exponents lent spare
      others := by
  have hstock := h.stock (h.grade_lt ha)
  exact h.setStore (h.grade_lt ha) (hstock.write ha hin)
    ((hstock.owned.write ha hin).2.subset (List.subset_append_right _ _))

theorem elsewhere (h : Sound p st exponents lent spare others) {s : Store (σ × List Block)}
    {others' : List Block} (hframe : Frame p st.store s st.store.heap.2)
    (hrecord : s.heap.2 = st.store.heap.2)
    (hheld : p.recorded.holds s.heap (st.store.heap.2 ++ others')) :
    Sound p { st with store := s } exponents lent spare others' := by
  have hheld' : p.recorded.holds s.heap
      (allBlocks st.pool lent spare ++ st.pool.ladderBlock :: others') := by
    refine p.recorded.lawful.perm hheld ?_
    rw [← List.singleton_append, ← List.append_assoc]
    exact h.made.append_right _
  have hmade : s.heap.2.Perm (allBlocks st.pool lent spare ++ [st.pool.ladderBlock]) :=
    hrecord ▸ h.made
  refine ⟨h.ladder, h.ladder_ne, fun i hi => ?_, h.none, hheld', hmade⟩
  obtain ⟨others₀, made₀, hstock⟩ := h.stocks i hi
  have hown := allBlocks_perm st.pool lent spare hi
  have hgrade := p.recorded.lawful.perm hheld' (hown.append_right _)
  have hgrade' := hmade.trans (hown.append_right _)
  rw [List.append_assoc] at hgrade hgrade'
  refine ⟨_, _, hstock.frame (hframe.subset ?_) hgrade hgrade'⟩
  -- the blocks of the grade are in the record
  intro b hb
  refine h.made.mem_iff.mpr (List.mem_append_left _ (hown.mem_iff.mpr ?_))
  exact List.mem_append_left _ hb

/-- All arenas differ: their blocks are held at once. -/
theorem nodup (h : Sound p st exponents lent spare others) :
    ((List.range st.pool.gradeCount).flatMap fun i => lent i ++ spare i).Nodup := by
  have hkeys := nodup_addr_of_holds (p.recorded.lawful.perm h.held List.perm_append_comm)
  have haddr : (allBlocks st.pool lent spare).map Block.addr =
      (List.range st.pool.gradeCount).flatMap fun i => lent i ++ spare i := by
    unfold allBlocks gradeBlocks arenaBlocks arenaBlock
    rw [List.map_flatMap]
    refine List.flatMap_congr fun i _ => ?_
    rw [List.map_map]
    exact List.map_id _
  rw [List.map_append, haddr] at hkeys
  exact (List.nodup_append.mp hkeys).2.1

/-- An arena is out of one grade only. -/
theorem eq_of_mem (h : Sound p st exponents lent spare others) {i j arena : Nat}
    (hi : arena ∈ lent i) (hj : arena ∈ lent j) : i = j := by
  by_contra hne
  have hpair := (List.nodup_flatMap.mp h.nodup).2
  have hsymm : Std.Symm (Function.onFun List.Disjoint fun i => lent i ++ spare i) :=
    ⟨fun _ _ hdisj => List.Disjoint.symm hdisj⟩
  have hdisj := hpair.forall (List.mem_range.mpr (h.grade_lt hi))
    (List.mem_range.mpr (h.grade_lt hj)) hne
  refine hdisj (a := arena) ?_ ?_
  · exact List.mem_append_left _ hi
  · exact List.mem_append_left _ hj

end Sound

/-! ## A ladder just made -/

/-- The sizes that pass are ascending powers of two, and the mask gets a bit for each. -/
theorem judgeSizes_ok {sizes : List (BitVec 32)} {previous gradeBits gradeBits' : BitVec 32}
    {done : List Nat} (hmarks : Masks.Marks gradeBits done) (hdone : done.Pairwise (· < ·))
    (hwithin : ∀ e ∈ done, 3 ≤ e ∧ e < 32) (hprevious : ∀ e ∈ done, 2 ^ e ≤ previous.toNat)
    (hok : judgeSizes sizes previous gradeBits = .ok gradeBits') :
    ∃ more, sizes.map BitVec.toNat = more.map (2 ^ ·) ∧ Masks.Marks gradeBits' (done ++ more) ∧
      (done ++ more).Pairwise (· < ·) ∧ ∀ e ∈ done ++ more, 3 ≤ e ∧ e < 32 := by
  induction sizes generalizing previous gradeBits done with
  | nil =>
      cases hok
      refine ⟨[], rfl, ?_⟩
      rw [List.append_nil]
      exact ⟨hmarks, hdone, hwithin⟩
  | cons capacity sizes ih =>
      rw [judgeSizes] at hok
      split at hok
      · cases hok
      rename_i hpower
      split at hok
      · cases hok
      rename_i hrange
      split at hok
      · cases hok
      rename_i hascending
      -- a size that passes is a power above the last one, and its bit is above all there are
      obtain ⟨e, he, hcap⟩ := isPowerOfTwo_iff.mp (Bool.of_not_eq_false hpower)
      rw [BitVec.le_def, not_le, hcap] at hascending
      rw [not_or, BitVec.not_lt, BitVec.le_def, hcap] at hrange
      have height : 2 ^ 3 ≤ 2 ^ e := hrange.1
      have hmin : 3 ≤ e := (Nat.pow_le_pow_iff_right (by decide)).mp height
      rw [ctz_of_toNat_eq hcap] at hok
      obtain ⟨more, hsizes, hmarks', hpair, hwithin'⟩ := ih (hmarks.insert he)
        (List.pairwise_append.mpr ⟨hdone, List.pairwise_singleton _ _, fun d hd c hc => by
          rw [List.mem_singleton.mp hc]
          exact (Nat.pow_lt_pow_iff_right (by decide)).mp
            (Nat.lt_of_le_of_lt (hprevious d hd) hascending)⟩)
        (fun d hd => by
          rcases List.mem_append.mp hd with hd | hd
          · exact hwithin d hd
          · rw [List.mem_singleton.mp hd]
            exact ⟨hmin, he⟩)
        (fun d hd => by
          rw [hcap]
          rcases List.mem_append.mp hd with hd | hd
          · exact Nat.le_of_lt (Nat.lt_of_le_of_lt (hprevious d hd) hascending)
          · rw [List.mem_singleton.mp hd])
        hok
      rw [List.append_assoc, List.singleton_append] at hmarks' hpair hwithin'
      refine ⟨e :: more, ?_, hmarks', hpair, hwithin'⟩
      rw [List.map_cons, List.map_cons, hcap, hsizes]

theorem judgeSizes_error {sizes : List (BitVec 32)} {previous gradeBits : BitVec 32}
    {result : Result}
    (h : judgeSizes sizes previous gradeBits = .error result) : result = .errorInvalidParam := by
  induction sizes generalizing previous gradeBits with
  | nil => cases h
  | cons capacity sizes ih =>
      rw [judgeSizes] at h
      split at h
      · cases h
        rfl
      split at h
      · cases h
        rfl
      split at h
      · cases h
        rfl
      · exact ih h

/-- No grade of the ladder is refused, and none is rounded. -/
theorem init_grade_ok (pool : DynamicArenaPool) (spareLimit : Nat) {e : Nat} (hmin : 3 ≤ e)
    (hmax : e < 32) :
    (Dynamic.init pool (2 ^ e) spareLimit).1 = .success ∧
      (Dynamic.init pool (2 ^ e) spareLimit).2.arenaCapacity = 2 ^ e := by
  have hpow : 2 ^ e ≤ 2 ^ 31 := Nat.pow_le_pow_right (by decide) (Nat.le_of_lt_succ hmax)
  have hpos : 0 < 2 ^ e := Nat.pow_pos (by decide)
  have halign : align8U32 (2 ^ e) = 2 ^ e :=
    align8U32_of_dvd (pow_dvd_pow 2 hmin) (by unfold maxAllocSize; omega)
  unfold Dynamic.init
  dsimp only
  rw [if_neg hpos.ne', halign, if_neg hpos.ne', if_neg]
  · exact ⟨rfl, rfl⟩
  · unfold maxAllocSize Dynamic.descriptorSize
    omega

/-- An init that succeeds judged the sizes, got the block of the ladder and made the grades. -/
theorem init_success {host : Calls σ} {st : State σ} {sizes : List (BitVec 32)}
    {sparePerGrade : Nat}
    (hok : (init host st sizes sparePerGrade).1 = .success) :
    ∃ gradeBits, judgeSizes sizes 0#32 0#32 = .ok gradeBits ∧
      (host.alloc 0 (gradesBytes sizes.length) st.store.heap).result = .success ∧
      (init host st sizes sparePerGrade).2 =
        { pool :=
            { ladder := (host.alloc 0 (gradesBytes sizes.length) st.store.heap).buffer
              grades := initGrades sizes sparePerGrade st.pool.grades
              gradeCount := sizes.length
              gradeBits := gradeBits }
          store :=
            { st.store with
              heap := (host.alloc 0 (gradesBytes sizes.length) st.store.heap).state } } := by
  unfold init at hok ⊢
  dsimp only at hok ⊢
  -- each check that refuses would have been the answer
  split at hok
  · cases hok
  rename_i hcount
  rw [if_neg hcount]
  split at hok
  · cases hok
  rename_i hmax
  rw [if_neg hmax]
  cases hjudge : judgeSizes sizes 0#32 0#32 with
  | error result =>
      rw [hjudge] at hok
      rw [judgeSizes_error hjudge] at hok
      cases hok
  | ok gradeBits =>
      rw [hjudge] at hok
      dsimp only at hok ⊢
      by_cases hblock : (host.alloc 0 (gradesBytes sizes.length) st.store.heap).result = .success
      · rw [if_neg (not_not_intro hblock)]
        exact ⟨gradeBits, rfl, hblock, rfl⟩
      · rw [if_pos hblock] at hok
        exact absurd hok hblock

/-- A grade of a ladder just made is a dynamic pool of its size. -/
theorem initGrades_apply {sizes : List (BitVec 32)} {exponents : List Nat}
    (hsizes : sizes.map BitVec.toNat = exponents.map (2 ^ ·)) (sparePerGrade : Nat)
    (grades : Nat → DynamicArenaPool) {i e : Nat} (hi : exponents[i]? = some e) :
    initGrades sizes sparePerGrade grades i =
      (Dynamic.init (grades i) (2 ^ e) sparePerGrade).2 := by
  have hsize : (sizes.map BitVec.toNat)[i]? = some (2 ^ e) := by
    rw [hsizes, List.getElem?_map, hi]
    rfl
  rw [List.getElem?_map, Option.map_eq_some_iff] at hsize
  obtain ⟨capacity, hget, hcap⟩ := hsize
  unfold initGrades
  rw [hget]
  dsimp only
  rw [hcap]

/-- An init that succeeds leaves a ladder of the sizes it was given. -/
theorem init_ladder {host : Calls σ} {st : State σ} {sizes : List (BitVec 32)} {sparePerGrade : Nat}
    (hok : (init host st sizes sparePerGrade).1 = .success) :
    ∃ exponents, sizes.map BitVec.toNat = exponents.map (2 ^ ·) ∧
      Ladder (init host st sizes sparePerGrade).2.pool exponents := by
  obtain ⟨gradeBits, hjudge, -, hinit⟩ := init_success hok
  obtain ⟨exponents, hsizes, hmarks, hpair, hwithin⟩ := judgeSizes_ok Masks.Marks.nil
    List.Pairwise.nil (fun e he => absurd he List.not_mem_nil)
    (fun e he => absurd he List.not_mem_nil) hjudge
  rw [List.nil_append] at hmarks hpair hwithin
  have hlength : sizes.length = exponents.length := by
    have hlen := congrArg List.length hsizes
    rwa [List.length_map, List.length_map] at hlen
  rw [hinit]
  refine ⟨exponents, hsizes, hpair, hwithin, hmarks, hlength, fun {i e} hi => ?_⟩
  obtain ⟨hmin, hlt⟩ := hwithin e (List.mem_of_getElem? hi)
  dsimp only
  rw [initGrades_apply hsizes sparePerGrade st.pool.grades hi]
  exact (init_grade_ok (st.pool.grades i) sparePerGrade hmin hlt).2

/-- An init that succeeds leaves a sound pool without arenas. -/
theorem init_sound {pool : GradedArenaPool} {descriptors : Nat → Arena} {heap : σ}
    {sizes : List (BitVec 32)} {sparePerGrade : Nat} (hlimit : sparePerGrade < 2 ^ 32)
    (hheld : p.holds heap others)
    (hok : (init p.recorded.toCalls ⟨pool, descriptors, heap, []⟩ sizes sparePerGrade).1 =
      .success) :
    ∃ exponents, sizes.map BitVec.toNat = exponents.map (2 ^ ·) ∧
      Sound p (init p.recorded.toCalls ⟨pool, descriptors, heap, []⟩ sizes sparePerGrade).2
        exponents (fun _ => []) (fun _ => []) others := by
  obtain ⟨exponents, hsizes, hladder⟩ := init_ladder hok
  obtain ⟨gradeBits, -, hblock, hinit⟩ := init_success hok
  refine ⟨exponents, hsizes, ?_⟩
  have hgot := p.recorded.lawful.alloc (s := (heap, [])) 0 (gradesBytes sizes.length) hheld
  have hrecord := recorded_alloc p 0 (gradesBytes sizes.length) (heap, [])
  rw [hinit] at hladder ⊢
  dsimp only at hblock hladder ⊢
  generalize p.recorded.alloc 0 (gradesBytes sizes.length) (heap, []) = block
    at hblock hladder hgot hrecord ⊢
  rcases hgot with ⟨herr, -⟩ | ⟨hsuccess, hheld', -⟩
  · exact absurd hblock (Result.ne_success_of_isError herr)
  rw [if_pos hsuccess] at hrecord
  have hlast : allBlocks ⟨block.buffer, initGrades sizes sparePerGrade pool.grades, sizes.length,
      gradeBits⟩ (fun _ => []) (fun _ => []) = [] :=
    List.flatMap_eq_nil_iff.mpr fun _ _ => rfl
  refine ⟨hladder, (p.recorded.lawful.room hheld' _ List.mem_cons_self).1, fun i hi => ?_,
    fun _ _ => rfl, ?_, ?_⟩
  · -- each grade is a dynamic pool just made
    have hi' : i < exponents.length := hladder.count ▸ hi
    have hget := List.getElem?_eq_getElem hi'
    obtain ⟨hmin, hlt⟩ := hladder.within _ (List.getElem_mem hi')
    obtain ⟨hstart, -⟩ := init_grade_ok (pool.grades i) sparePerGrade hmin hlt
    unfold State.grade
    dsimp only
    rw [initGrades_apply hsizes sparePerGrade pool.grades hget]
    exact ⟨_, _, (init_stock hlimit hheld' (List.Perm.refl _) hstart).1⟩
  · dsimp only
    rw [hlast]
    exact hheld'
  · dsimp only
    rw [hlast, hrecord]
    exact List.Perm.refl _

/-! ## Runs -/

/-- Every state of a run is sound. -/
theorem Run.sound {start : State (σ × List Block)} (hrun : Run p start st lent)
    (hstart : ∃ others, Sound p start exponents (fun _ => []) (fun _ => []) others) :
    ∃ spare others, Sound p st exponents lent spare others := by
  induction hrun with
  | start =>
      obtain ⟨others, hstart⟩ := hstart
      exact ⟨_, others, hstart⟩
  | @alloc st lent size out _ ih =>
      obtain ⟨spare, others, hs⟩ := ih
      cases out with
      | false =>
          have hrefused : Graded.alloc p.recorded.toCalls st size false =
              (.errorNullPointer, 0, st) := rfl
          rw [hrefused, if_neg fun hok => by cases hok]
          exact ⟨spare, others, hs⟩
      | true =>
          rcases hs.alloc size with ⟨herr, hnext⟩ | ⟨hok, -, -, -, -, spare', hnext⟩
          · rw [if_neg herr]
            exact ⟨spare, others, hnext⟩
          · rw [if_pos hok]
            exact ⟨_, others, hnext⟩
  | free _ has ih =>
      obtain ⟨spare, others, hs⟩ := ih
      obtain ⟨-, -, spare', hnext⟩ := hs.free has
      exact ⟨_, others, hnext⟩
  | reserve count _ has returns ih =>
      obtain ⟨spare, others, hs⟩ := ih
      obtain ⟨r, hr, spare', hnext⟩ := hs.reserve has count
      cases hr.symm.trans returns
      exact ⟨_, others, hnext⟩
  | use host _ has kept ih =>
      obtain ⟨spare, others, hs⟩ := ih
      exact ⟨spare, others, hs.use host kept has⟩
  | write _ has within ih =>
      obtain ⟨spare, others, hs⟩ := ih
      exact ⟨spare, others, hs.write has within⟩
  | elsewhere _ kept record held ih =>
      obtain ⟨spare, others, hs⟩ := ih
      exact ⟨spare, _, hs.elsewhere kept record held⟩

theorem Run.taken {start : State (σ × List Block)} (run : Run p start st lent) (size : BitVec 32)
    (grade arena : Nat) (hok : (Graded.alloc p.recorded.toCalls st size true).1 = .success)
    (hgrade : gradeForSize st.pool size = grade)
    (harena : (Graded.alloc p.recorded.toCalls st size true).2.1 = arena) :
    Run p start (Graded.alloc p.recorded.toCalls st size true).2.2
      (Function.update lent grade (arena :: lent grade)) := by
  have hnext := run.alloc size true
  rw [if_pos hok, harena, hgrade] at hnext
  exact hnext

/-- What a client can rely on. -/
structure InOrder (p : Provider σ) (st : State (σ × List Block))
    (lent : Nat → List Nat) : Prop where
  /-- Each grade counts the arenas in stock and those that are out. These and the ladder are all the
  pool made and did not destroy, each once. -/
  counted : ∃ spare : Nat → List Nat,
    (∀ i < st.pool.gradeCount,
      Walk (st.store.nextFree p.recorded.toCalls) (st.pool.grades i).freeHead (spare i) ∧
      (st.pool.grades i).spareCount = (spare i).length ∧
      (st.pool.grades i).spareCount ≤ (st.pool.grades i).spareLimit ∧
      (st.pool.grades i).acquiredCount = (lent i).length) ∧
    ((List.range st.pool.gradeCount).flatMap fun i => lent i ++ spare i).Nodup ∧
    st.store.heap.2.Perm (st.pool.ladderBlock ::
      (List.range st.pool.gradeCount).flatMap fun i =>
        arenaBlocks (st.pool.grades i).arenaCapacity (lent i ++ spare i))
  /-- What is lent for a size was not out, is empty, and carries the size. -/
  lends : ∀ size, (alloc p.recorded.toCalls st size true).1 = .success →
    let arena := (alloc p.recorded.toCalls st size true).2.1
    let grade := gradeForSize st.pool size
    grade < st.pool.gradeCount ∧ (∀ i, arena ∉ lent i) ∧
      size.toNat ≤ (st.pool.grades grade).arenaCapacity ∧
      (alloc p.recorded.toCalls st size true).2.2.store.descriptors arena =
        fresh (bufferAt arena) (st.pool.grades grade).arenaCapacity
  /-- Every arena that is out still has the capacity of its grade, and goes back to that grade. -/
  rejoins : ∀ grade, ∀ arena ∈ lent grade, grade < st.pool.gradeCount ∧
    (st.store.descriptors arena).capacity = (st.pool.grades grade).arenaCapacity ∧
    (free p.recorded.toCalls st arena).1 = .success ∧
    (free p.recorded.toCalls st arena).2 =
      st.setGrade grade (Dynamic.free p.recorded.toCalls (st.grade grade) arena).2

theorem Sound.inOrder (h : Sound p st exponents lent spare others) : InOrder p st lent := by
  refine ⟨⟨spare, fun i hi => ?_, h.nodup, ?_⟩, fun size hok => ?_, fun grade arena ha => ?_⟩
  · have hstock := h.stock hi
    exact ⟨hstock.owned.lends.linked, hstock.spare_eq, hstock.spare_eq.trans_le hstock.le_limit,
      hstock.acquired⟩
  · exact h.made.trans List.perm_append_comm
  · rcases h.alloc size with ⟨herr, -⟩ | ⟨-, hne, hg, hnew, hfresh, spare', hnext⟩
    · exact absurd hok herr
    refine ⟨hg, fun i hin => ?_, (h.ladder.gradeForSize_spec hne hg).1, hfresh⟩
    -- the arena is among those of its grade now, and these are all different
    by_cases hi : i = gradeForSize st.pool size
    · rw [hi] at hin
      exact hnew hin
    · have hthere : (Graded.alloc p.recorded.toCalls st size true).2.1 ∈
          Function.update lent (gradeForSize st.pool size)
            ((Graded.alloc p.recorded.toCalls st size true).2.1 :: lent (gradeForSize st.pool size))
            (gradeForSize st.pool size) := by
        rw [Function.update_self]
        exact List.mem_cons_self
      refine hi (hnext.eq_of_mem ?_ hthere)
      rw [Function.update_of_ne hi]
      exact hin
  · obtain ⟨hok, hnext, -⟩ := h.free ha
    exact ⟨h.grade_lt ha, (h.gradeForCapacity ha).1, hok, hnext⟩

/-- In every state of every run of a dynamic pool, and of a graded pool, that init accepted the pool
is in order. -/
theorem arena_pools_in_order (p : Provider σ) :
    (∀ (pool : DynamicArenaPool) (descriptors : Nat → Arena) (heap : σ) (others : List Block)
      (arenaCapacity spareLimit : Nat) (st : Dynamic.State (σ × List Block)) (lent : List Nat),
      spareLimit < 2 ^ 32 → p.holds heap others →
      (Dynamic.init pool arenaCapacity spareLimit).1 = .success →
      Dynamic.Run p
        ⟨(Dynamic.init pool arenaCapacity spareLimit).2, descriptors, heap, []⟩ st lent →
      Dynamic.InOrder p st lent) ∧
    ∀ (pool : GradedArenaPool) (descriptors : Nat → Arena) (heap : σ) (others : List Block)
      (sizes : List (BitVec 32)) (sparePerGrade : Nat) (st : State (σ × List Block))
      (lent : Nat → List Nat),
      sparePerGrade < 2 ^ 32 → p.holds heap others →
      (init p.recorded.toCalls ⟨pool, descriptors, heap, []⟩ sizes sparePerGrade).1 = .success →
      Run p (init p.recorded.toCalls ⟨pool, descriptors, heap, []⟩ sizes sparePerGrade).2 st lent →
      InOrder p st lent := by
  constructor
  · intro pool descriptors heap others arenaCapacity spareLimit st lent hlimit hheld hok hrun
    exact (hrun.sound (Dynamic.init_sound hlimit hheld hok)).inOrder
  · intro pool descriptors heap others sizes sparePerGrade st lent hlimit hheld hok hrun
    obtain ⟨exponents, -, hstart⟩ := init_sound hlimit hheld hok
    obtain ⟨spare, others', hsound⟩ := hrun.sound ⟨others, hstart⟩
    exact hsound.inOrder

/-- A dynamic pool of arenas of 8 bytes, over a host that is an arena. -/
def sampleDynamic : Dynamic.State ((Heap × Nat) × List Block) :=
  ⟨(Dynamic.init Dynamic.forgetEverything 8 8).2, fun _ => fresh 0 0, (lentArena 256, 0), []⟩

/-- A graded pool over the same host. -/
def sampleGraded : State ((Heap × Nat) × List Block) :=
  (init (Provider.ofArena noHost).recorded.toCalls
    ⟨⟨0, fun _ => Dynamic.forgetEverything, 0, 0#32⟩, fun _ => fresh 0 0, (lentArena 256, 0), []⟩
    [8#32, 16#32, 64#32] 1).2

/-- An arena for 10 bytes and one for 60 were taken from it. -/
def sampleTaken : State ((Heap × Nat) × List Block) :=
  (alloc (Provider.ofArena noHost).recorded.toCalls
    (alloc (Provider.ofArena noHost).recorded.toCalls sampleGraded 10#32 true).2.2 60#32 true).2.2

/-- A dynamic pool cannot reserve eight arenas and destroys those it made; two it can, and one of
these is taken. A graded pool of 8, 16 and 64 refuses a second arena for 60 bytes. -/
theorem arena_pools_in_order_sample :
    (∃ r r', Dynamic.reserve (Provider.ofArena noHost).recorded.toCalls sampleDynamic 8 = some r ∧
      r.1 = .errorOutOfMemory ∧ r.2.store.heap.2 = [] ∧
      Dynamic.reserve (Provider.ofArena noHost).recorded.toCalls r.2 2 = some r' ∧
      Dynamic.InOrder (Provider.ofArena noHost)
        (Dynamic.alloc (Provider.ofArena noHost).recorded.toCalls r'.2 true).2.2 [48]) ∧
    (alloc (Provider.ofArena noHost).recorded.toCalls sampleTaken 60#32 true).1 =
        .errorOutOfMemory ∧
      InOrder (Provider.ofArena noHost)
        (alloc (Provider.ofArena noHost).recorded.toCalls sampleTaken 60#32 true).2.2
        (Function.update (Function.update (fun _ => []) 1 [80]) 2 [128]) := by
  have hheld : (Provider.ofArena noHost).holds (lentArena 256, 0) [] :=
    lentArena_sound (by decide) (by decide) (by decide)
  constructor
  · have hreserves : ((Dynamic.reserve (Provider.ofArena noHost).recorded.toCalls sampleDynamic
        8).bind fun r =>
        (Dynamic.reserve (Provider.ofArena noHost).recorded.toCalls r.2 2).map fun r' =>
          ((r.1, r.2.store.heap.2),
            ((Dynamic.alloc (Provider.ofArena noHost).recorded.toCalls r'.2 true).1,
              (Dynamic.alloc (Provider.ofArena noHost).recorded.toCalls r'.2 true).2.1))) =
        some ((.errorOutOfMemory, []), (.success, 48)) := by
      decide +kernel
    obtain ⟨r, hr, hreserves⟩ := Option.bind_eq_some_iff.mp hreserves
    obtain ⟨r', hr', hreserves⟩ := Option.map_eq_some_iff.mp hreserves
    simp only [Prod.mk.injEq] at hreserves
    obtain ⟨⟨hrefused, hgone⟩, htakes, harena⟩ := hreserves
    have hstart : Dynamic.Run (Provider.ofArena noHost) sampleDynamic sampleDynamic [] := .start
    have htaken := ((hstart.reserve 8 hr).reserve 2 hr').taken 48 htakes harena
    refine ⟨r, r', hr, hrefused, hgone, hr', ?_⟩
    exact (arena_pools_in_order (Provider.ofArena noHost)).1 Dynamic.forgetEverything
      (fun _ => fresh 0 0) (lentArena 256, 0) [] 8 8 _ _ (by decide) hheld (by decide) htaken
  · have hstart : Run (Provider.ofArena noHost) sampleGraded sampleGraded fun _ => [] := .start
    have hone := hstart.taken 10#32 1 80 (by decide +kernel) (by decide +kernel)
      (by decide +kernel)
    have htwo : Run (Provider.ofArena noHost) sampleGraded sampleTaken
        (Function.update (Function.update (fun _ => []) 1 [80]) 2 [128]) :=
      hone.taken 60#32 2 128 (by decide +kernel) (by decide +kernel) (by decide +kernel)
    have hrefused : (alloc (Provider.ofArena noHost).recorded.toCalls sampleTaken 60#32 true).1 =
        .errorOutOfMemory := by
      decide +kernel
    have hthree := htwo.alloc 60#32 true
    rw [hrefused, if_neg (by decide)] at hthree
    exact ⟨hrefused, (arena_pools_in_order (Provider.ofArena noHost)).2
      ⟨0, fun _ => Dynamic.forgetEverything, 0, 0#32⟩ (fun _ => fresh 0 0)
      (lentArena 256, 0) [] [8#32, 16#32, 64#32] 1 _ _ (by decide) hheld (by decide +kernel) hthree⟩

end Arnm.ArenaPool.Graded
