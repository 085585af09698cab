import Arnm.ArenaPool.GradedRuns

set_option autoImplicit false

/-! # The life of a graded arena pool

Between an init and a release lies a run of the pool; behind a release it can be initialised again.
In every state of such a life `arnm_graded_arena_pool_reserved` is what the host is still owed, and
a release is refused exactly while an arena is out; otherwise the host gets everything back. -/

namespace Arnm.ArenaPool.Graded

open Memory ArenaPool.Dynamic

/-- `forget_everything` -/
def forgetEverything (pool : GradedArenaPool) : GradedArenaPool :=
  { pool with ladder := 0, gradeCount := 0, gradeBits := 0#32 }

/-- `arnm_graded_arena_pool_reserved` -/
def GradedArenaPool.reserved (pool : GradedArenaPool) : Nat :=
  if pool.ladder = 0 then 0
  else
    (List.range pool.gradeCount).foldl (fun total i => (total + (pool.grades i).reserved) % 2 ^ 64)
      (gradesBytes pool.gradeCount)

section Host

variable {σ : Type} (host : Calls σ)

/-- The loop of `arnm_graded_arena_pool_release` that takes the grades down. -/
def releaseGrades : List Nat → State σ → Option (State σ)
  | [], st => some st
  | i :: rest, st =>
    (Dynamic.release host (st.grade i)).bind fun r => releaseGrades rest (st.setGrade i r.2)

/-- `arnm_graded_arena_pool_release` -/
def release (st : State σ) : Option (Result × State σ) :=
  if st.pool.ladder = 0 then some (.success, { st with pool := forgetEverything st.pool })
  else if (List.range st.pool.gradeCount).any fun i => (st.pool.grades i).acquiredCount != 0 then
    some (.errorResourceInUse, st)
  else
    (releaseGrades host (List.range st.pool.gradeCount) st).map fun down =>
      let freed := host.free st.pool.ladder (gradesBytes st.pool.gradeCount) down.store.heap
      (freed.1,
        { pool := forgetEverything down.pool, store := { down.store with heap := freed.2 } })

end Host

variable {σ : Type} {p : Provider σ} {st : State (σ × List Block)} {lent spare : Nat → List Nat}
  {exponents : List Nat} {others : List Block}

/-! ## Taking the grades down -/

/-- The grades go down one by one: each gives the blocks of its arenas back and leaves all others
alone. -/
theorem releaseGrades_spec {rest made : List Block} :
    ∀ (grades : List Nat) (st : State (σ × List Block)), grades.Nodup →
      (∀ i ∈ grades, ∃ others made, Stock p (st.grade i) [] (spare i) others made) →
      p.recorded.holds st.store.heap
        (grades.flatMap (gradeBlocks st.pool (fun _ => []) spare) ++ rest) →
      st.store.heap.2.Perm (grades.flatMap (gradeBlocks st.pool (fun _ => []) spare) ++ made) →
      ∃ down, releaseGrades p.recorded.toCalls grades st = some down ∧
        p.recorded.holds down.store.heap rest ∧ down.store.heap.2.Perm made
  | [], st, _, _, hheld, hmade => ⟨st, rfl, hheld, hmade⟩
  | i :: grades, st, hnodup, hstocks, hheld, hmade => by
      obtain ⟨hi, hnodup⟩ := List.nodup_cons.mp hnodup
      obtain ⟨others, made', hstock⟩ := hstocks i List.mem_cons_self
      rw [List.flatMap_cons, List.append_assoc] at hheld hmade
      have hfull := hstock.frame (Frame.refl p st.store _) hheld hmade
      rcases hfull.release with ⟨hne, -⟩ | ⟨-, s, hdown, hheld', hmade', hframe⟩
      · exact absurd rfl hne
      have hfirst : Dynamic.release p.recorded.toCalls (st.grade i) =
          some (.success, ⟨Dynamic.forgetEverything, s⟩) := hdown
      -- the grades that follow are what they were
      have hsame : ∀ j ∈ grades, (st.setGrade i ⟨Dynamic.forgetEverything, s⟩).grade j =
          ⟨st.pool.grades j, s⟩ := by
        intro j hj
        apply grade_setGrade_other
        rintro rfl
        exact hi hj
      have hblocks : grades.flatMap (gradeBlocks
          (st.setGrade i ⟨Dynamic.forgetEverything, s⟩).pool (fun _ => []) spare) =
          grades.flatMap (gradeBlocks st.pool (fun _ => []) spare) := by
        apply List.flatMap_congr
        intro j hj
        have hgrade := congrArg Dynamic.State.pool (hsame j hj)
        unfold gradeBlocks
        rw [show (st.setGrade i ⟨Dynamic.forgetEverything, s⟩).pool.grades j = _ from hgrade]
      have hnext : ∀ j ∈ grades, ∃ others made,
          Stock p ((st.setGrade i ⟨Dynamic.forgetEverything, s⟩).grade j) [] (spare j) others
            made := by
        intro j hj
        obtain ⟨others₀, made₀, hother⟩ := hstocks j (List.mem_cons_of_mem i hj)
        have hown := (List.perm_cons_erase hj).flatMap_right
          (gradeBlocks st.pool (fun _ => []) spare)
        have hgrade := p.recorded.lawful.perm hheld' (hown.append_right _)
        have hgrade' := hmade'.trans (hown.append_right _)
        rw [List.flatMap_cons, List.append_assoc] at hgrade hgrade'
        rw [hsame j hj]
        refine ⟨_, _, hother.frame (hframe.subset ?_) hgrade hgrade'⟩
        intro b hb
        exact List.mem_append_left _ (List.mem_flatMap.mpr ⟨j, hj, hb⟩)
      rw [← hblocks] at hheld' hmade'
      obtain ⟨down, hrest, hresult⟩ := releaseGrades_spec grades
        (st.setGrade i ⟨Dynamic.forgetEverything, s⟩) hnodup hnext hheld' hmade'
      refine ⟨down, ?_, hresult⟩
      rw [releaseGrades, hfirst, Option.bind_some]
      exact hrest

namespace Sound

/-- A grade counts an arena exactly when one of it is out. -/
theorem any_acquired (h : Sound p st exponents lent spare others) :
    ((List.range st.pool.gradeCount).any fun i => (st.pool.grades i).acquiredCount != 0) = true ↔
      ∃ i, lent i ≠ [] := by
  rw [List.any_eq_true]
  constructor
  · rintro ⟨i, hi, hcount⟩
    have hstock := h.stock (List.mem_range.mp hi)
    refine ⟨i, fun hnil => ?_⟩
    have hacquired : (st.pool.grades i).acquiredCount = (lent i).length := hstock.acquired
    rw [hacquired, hnil] at hcount
    cases hcount
  · rintro ⟨i, hne⟩
    obtain ⟨arena, harena⟩ := List.exists_mem_of_ne_nil _ hne
    have hi := h.grade_lt harena
    refine ⟨i, List.mem_range.mpr hi, ?_⟩
    have hacquired : (st.pool.grades i).acquiredCount = (lent i).length := (h.stock hi).acquired
    rw [hacquired, bne_iff_ne]
    exact fun hlen => hne (List.length_eq_zero_iff.mp hlen)

/-- A release is refused while an arena is out; otherwise all blocks go back. -/
theorem release (h : Sound p st exponents lent spare others) :
    (∃ i, lent i ≠ []) ∧ Graded.release p.recorded.toCalls st = some (.errorResourceInUse, st) ∨
    (∀ i, lent i = []) ∧ ∃ r, Graded.release p.recorded.toCalls st = some r ∧
      (r.1 = .success ∧ p.holds r.2.store.heap.1 others ∨
        r.1 = .warningArenaMemoryNotReclaimed ∧
          p.holds r.2.store.heap.1 (st.pool.ladderBlock :: others)) ∧
      r.2.pool.ladder = 0 ∧ r.2.store.heap.2 = [] := by
  unfold Graded.release
  rw [if_neg h.ladder_ne]
  by_cases hout : ∃ i, lent i ≠ []
  · rw [if_pos (h.any_acquired.mpr hout)]
    exact Or.inl ⟨hout, rfl⟩
  right
  rw [if_neg (fun hany => hout (h.any_acquired.mp hany))]
  rw [not_exists] at hout
  have hnone : ∀ i, lent i = [] := fun i => not_not.mp (hout i)
  have hlent : lent = fun _ => [] := funext hnone
  refine ⟨hnone, ?_⟩
  have hheld := h.held
  have hmade := h.made
  rw [hlent] at hheld hmade
  have hstocks : ∀ i ∈ List.range st.pool.gradeCount, ∃ others made,
      Stock p (st.grade i) [] (spare i) others made := by
    intro i hi
    obtain ⟨others', made', hstock⟩ := h.stocks i (List.mem_range.mp hi)
    rw [hnone i] at hstock
    exact ⟨others', made', hstock⟩
  obtain ⟨down, hdown, hback, hrecord⟩ :=
    releaseGrades_spec (List.range st.pool.gradeCount) st List.nodup_range hstocks hheld hmade
  rw [hdown]
  refine ⟨_, rfl, ?_, rfl, ?_⟩
  · exact (p.recorded.lawful.free hback).1.imp_right fun hwarn => ⟨hwarn.1, hwarn.2.1⟩
  · have herase := hrecord.erase st.pool.ladderBlock
    rw [List.erase_cons_head] at herase
    exact herase.eq_nil

end Sound

/-! ## What the host is owed -/

/-- What a client holds at once fits in the address space. -/
theorem sum_held_lt {s : σ} {blocks : List Block} (h : p.holds s blocks) :
    (blocks.map Block.size).sum < 2 ^ 64 := by
  have hapart : Region.AllApart (blocks.map Block.extent) :=
    List.pairwise_map.mpr (p.lawful.apart h)
  -- no block starts at the null address
  have hin : ∀ r ∈ blocks.map Block.extent, r.Within ⟨1, 2 ^ 64 - 1⟩ := by
    intro r hr
    obtain ⟨b, hb, rfl⟩ := List.mem_map.mp hr
    have hroom := p.lawful.room h b hb
    exact ⟨Nat.one_le_iff_ne_zero.mpr hroom.1, hroom.2.2⟩
  have hsum := hapart.sum_le hin
  rw [List.map_map] at hsum
  exact Nat.lt_of_le_of_lt hsum (by decide)

/-- A sum that stays below the width is the same with the overflow cut off at each step. -/
theorem foldl_add_mod {f : Nat → Nat} {width : Nat} :
    ∀ (l : List Nat) (total : Nat), total + (l.map f).sum < width →
      l.foldl (fun total i => (total + f i) % width) total = total + (l.map f).sum
  | [], total, _ => rfl
  | i :: l, total, h => by
      rw [List.map_cons, List.sum_cons, ← Nat.add_assoc] at h ⊢
      rw [List.foldl_cons, Nat.mod_eq_of_lt (by omega), foldl_add_mod l _ h]

theorem sum_flatMap (f : Nat → List Nat) (l : List Nat) :
    (l.flatMap f).sum = (l.map fun i => (f i).sum).sum := by
  induction l with
  | nil => rfl
  | cons i l ih => rw [List.flatMap_cons, List.sum_append, ih, List.map_cons, List.sum_cons]

/-- What a dynamic pool reports is what its arenas take of the host. -/
theorem reserved_of_stock {st : Dynamic.State (σ × List Block)} {lent spare : List Nat}
    {others made : List Block} (h : Stock p st lent spare others made) :
    st.pool.reserved =
      ((arenaBlocks st.pool.arenaCapacity (lent ++ spare)).map Block.size).sum := by
  have hsize : (arenaBlocks st.pool.arenaCapacity (lent ++ spare)).map Block.size =
      List.replicate (lent ++ spare).length (descriptorSize + st.pool.arenaCapacity) := by
    rw [arenaBlocks, List.map_map, List.eq_replicate_iff]
    refine ⟨by rw [List.length_map], List.forall_mem_map.mpr fun a _ => rfl⟩
  -- the blocks are held, so the product does not overflow
  have hlt := sum_held_lt (p := p.recorded) h.owned.held
  rw [List.map_append, List.sum_append] at hlt
  have hproduct : (st.pool.spareCount + st.pool.acquiredCount) *
      arenaBlockBytes st.pool.arenaCapacity =
        ((arenaBlocks st.pool.arenaCapacity (lent ++ spare)).map Block.size).sum := by
    calc (st.pool.spareCount + st.pool.acquiredCount) * arenaBlockBytes st.pool.arenaCapacity
        = (spare.length + lent.length) * (descriptorSize + st.pool.arenaCapacity) := by
          rw [arenaBlockBytes_eq h.owned.fits, h.spare_eq, h.acquired]
      _ = (List.replicate (lent ++ spare).length (descriptorSize + st.pool.arenaCapacity)).sum := by
          rw [List.sum_replicate, smul_eq_mul, List.length_append, Nat.add_comm]
      _ = ((arenaBlocks st.pool.arenaCapacity (lent ++ spare)).map Block.size).sum := by rw [hsize]
  rw [DynamicArenaPool.reserved, if_neg h.capacity_ne, hproduct, Nat.mod_eq_of_lt (by omega)]

namespace Sound

/-- What the pool reports is what the host handed out to it and has not got back. -/
theorem reserved (h : Sound p st exponents lent spare others) :
    st.pool.reserved = (st.store.heap.2.map Block.size).sum := by
  have hgrade : ∀ i ∈ List.range st.pool.gradeCount,
      (st.pool.grades i).reserved = ((gradeBlocks st.pool lent spare i).map Block.size).sum := by
    intro i hi
    exact reserved_of_stock (h.stock (List.mem_range.mp hi))
  have hall : ((allBlocks st.pool lent spare).map Block.size).sum =
      ((List.range st.pool.gradeCount).map fun i => (st.pool.grades i).reserved).sum := by
    rw [List.map_congr_left hgrade, allBlocks, List.map_flatMap, sum_flatMap]
  have hrecord : (st.store.heap.2.map Block.size).sum =
      gradesBytes st.pool.gradeCount +
        ((List.range st.pool.gradeCount).map fun i => (st.pool.grades i).reserved).sum := by
    rw [(h.made.map Block.size).sum_eq, List.map_append, List.sum_append, hall, Nat.add_comm]
    rfl
  -- all of it is held at once, so the sum does not overflow
  have hlt := sum_held_lt (p := p.recorded) (p.recorded.lawful.perm h.held List.perm_middle)
  rw [List.map_cons, List.sum_cons, List.map_append, List.sum_append, hall] at hlt
  have hladder : st.pool.ladderBlock.size = gradesBytes st.pool.gradeCount := rfl
  rw [GradedArenaPool.reserved, if_neg h.ladder_ne, foldl_add_mod _ _ (by omega), hrecord]

end Sound

/-! ## Lives -/

/-- Inits, runs and releases of one pool, one behind the other; while it has nothing, others may do
with the host what they like. -/
inductive Life (p : Provider σ) : State (σ × List Block) → (Nat → List Nat) → Prop where
  | start {pool : GradedArenaPool} {descriptors : Nat → Arena} {heap : σ} {others : List Block}
      (zeroed : pool.ladder = 0) (held : p.holds heap others) :
      Life p ⟨pool, descriptors, heap, []⟩ fun _ => []
  | refused {st : State (σ × List Block)} (sizes : List (BitVec 32)) (sparePerGrade : Nat)
      (life : Life p st fun _ => []) (zeroed : st.pool.ladder = 0)
      (no : (init p.recorded.toCalls st sizes sparePerGrade).1 ≠ .success) :
      Life p (init p.recorded.toCalls st sizes sparePerGrade).2 fun _ => []
  | run {st st' : State (σ × List Block)} {lent : Nat → List Nat} (sizes : List (BitVec 32))
      {sparePerGrade : Nat} (limit : sparePerGrade < 2 ^ 32) (life : Life p st fun _ => [])
      (zeroed : st.pool.ladder = 0)
      (made : (init p.recorded.toCalls st sizes sparePerGrade).1 = .success)
      (run : Run p (init p.recorded.toCalls st sizes sparePerGrade).2 st' lent) : Life p st' lent
  | release {st : State (σ × List Block)} {lent : Nat → List Nat}
      {r : Result × State (σ × List Block)} (life : Life p st lent)
      (returns : release p.recorded.toCalls st = some r) : Life p r.2 lent
  | elsewhere {st : State (σ × List Block)} {s : Store (σ × List Block)} {others : List Block}
      (life : Life p st fun _ => []) (zeroed : st.pool.ladder = 0) (record : s.heap.2 = [])
      (held : p.holds s.heap.1 others) : Life p { st with store := s } fun _ => []

/-- A pool that has nothing. -/
structure Bare (p : Provider σ) (st : State (σ × List Block)) (lent : Nat → List Nat) : Prop where
  zeroed : st.pool.ladder = 0
  none : ∀ i, lent i = []
  record : st.store.heap.2 = []
  held : ∃ others, p.holds st.store.heap.1 others

/-- A refused init leaves a pool that has nothing. -/
theorem Bare.refused (h : Bare p st lent) {sizes : List (BitVec 32)} {sparePerGrade : Nat}
    (hno : (init p.recorded.toCalls st sizes sparePerGrade).1 ≠ .success) :
    Bare p (init p.recorded.toCalls st sizes sparePerGrade).2 lent := by
  unfold init at hno ⊢
  dsimp only at hno ⊢
  split
  · exact h
  split
  · exact h
  cases hjudge : judgeSizes sizes 0#32 0#32 with
  | error result => exact h
  | ok gradeBits =>
      rw [if_neg ‹_›, if_neg ‹_›, hjudge] at hno
      dsimp only at hno ⊢
      obtain ⟨others, hheld⟩ := h.held
      have hgot := p.recorded.lawful.alloc (s := st.store.heap) 0 (gradesBytes sizes.length) hheld
      have hrecord := recorded_alloc p 0 (gradesBytes sizes.length) st.store.heap
      generalize p.recorded.alloc 0 (gradesBytes sizes.length) st.store.heap = block
        at hno hgot hrecord ⊢
      by_cases hok : block.result = .success
      · rw [if_neg (not_not_intro hok)] at hno
        exact absurd rfl hno
      · rw [if_pos hok]
        rw [if_neg hok] at hrecord
        rcases hgot with ⟨-, -, hheld', -⟩ | ⟨hsuccess, -⟩
        · exact ⟨h.zeroed, h.none, hrecord.trans h.record, others, hheld'⟩
        · exact absurd hsuccess hok

/-- In every state of a life the pool has nothing, or is sound. -/
theorem Life.sound (life : Life p st lent) :
    Bare p st lent ∨ ∃ exponents spare others, Sound p st exponents lent spare others := by
  induction life with
  | start zeroed held => exact Or.inl ⟨zeroed, fun _ => rfl, rfl, _, held⟩
  | refused sizes sparePerGrade life zeroed no ih =>
      rcases ih with hbare | ⟨exponents, spare, others, hsound⟩
      · exact Or.inl (hbare.refused no)
      · exact absurd zeroed hsound.ladder_ne
  | @run st st' lent sizes sparePerGrade limit life zeroed made run ih =>
      rcases ih with hbare | ⟨exponents, spare, others, hsound⟩
      · obtain ⟨others, hheld⟩ := hbare.held
        obtain ⟨pool, descriptors, heap, record⟩ := st
        have hrecord : record = [] := hbare.record
        subst hrecord
        obtain ⟨exponents, -, hstart⟩ := init_sound limit hheld made
        obtain ⟨spare, others', hsound⟩ := run.sound ⟨others, hstart⟩
        exact Or.inr ⟨exponents, spare, others', hsound⟩
      · exact absurd zeroed hsound.ladder_ne
  | @release st lent r life returns ih =>
      rcases ih with hbare | ⟨exponents, spare, others, hsound⟩
      · -- nothing to release
        have hnothing : Graded.release p.recorded.toCalls st =
            some (.success, { st with pool := forgetEverything st.pool }) := by
          rw [Graded.release, if_pos hbare.zeroed]
        cases hnothing.symm.trans returns
        exact Or.inl ⟨rfl, hbare.none, hbare.record, hbare.held⟩
      · rcases hsound.release with ⟨-, hr⟩ | ⟨hnone, r', hr, hheld, hzero, hrecord⟩
        · cases hr.symm.trans returns
          exact Or.inr ⟨exponents, spare, others, hsound⟩
        · cases hr.symm.trans returns
          refine Or.inl ⟨hzero, hnone, hrecord, ?_⟩
          exact hheld.elim (fun hok => ⟨_, hok.2⟩) fun hwarn => ⟨_, hwarn.2⟩
  | elsewhere life zeroed record held ih => exact Or.inl ⟨zeroed, fun _ => rfl, record, _, held⟩

/-- What the owner of a pool can rely on. -/
structure Settled (p : Provider σ) (st : State (σ × List Block))
    (lent : Nat → List Nat) : Prop where
  /-- The pool reports what the host handed out to it and has not got back. -/
  reserved : st.pool.reserved = (st.store.heap.2.map Block.size).sum
  /-- A release is refused exactly while an arena is out, and then nothing has changed; otherwise
  the host has everything back. -/
  release : ∃ r, release p.recorded.toCalls st = some r ∧
    ((∃ i, lent i ≠ []) ∧ r = (.errorResourceInUse, st) ∨
      (∀ i, lent i = []) ∧ (r.1 = .success ∨ r.1 = .warningArenaMemoryNotReclaimed) ∧
        r.2.store.heap.2 = [] ∧ r.2.pool.ladder = 0)

theorem Life.settled (life : Life p st lent) : Settled p st lent := by
  rcases life.sound with hbare | ⟨exponents, spare, others, hsound⟩
  · constructor
    · rw [GradedArenaPool.reserved, if_pos hbare.zeroed, hbare.record]
      rfl
    · refine ⟨_, if_pos hbare.zeroed, Or.inr ⟨hbare.none, Or.inl rfl, hbare.record, rfl⟩⟩
  · refine ⟨hsound.reserved, ?_⟩
    rcases hsound.release with ⟨hout, hr⟩ | ⟨hnone, r, hr, hheld, hzero, hrecord⟩
    · exact ⟨_, hr, Or.inl ⟨hout, rfl⟩⟩
    · refine ⟨r, hr, Or.inr ⟨hnone, ?_, hrecord, hzero⟩⟩
      exact hheld.imp And.left And.left

/-- What a dynamic pool reports, released or not. -/
theorem dynamic_reserved {st : Dynamic.State (σ × List Block)} {lent : List Nat}
    (h : Dynamic.Sound p st lent) : st.pool.reserved = (st.store.heap.2.map Block.size).sum := by
  obtain ⟨others, ⟨spare, hstock⟩ | ⟨-, hreleased⟩⟩ := h
  · have hmade := hstock.owned.made
    rw [List.append_nil] at hmade
    rw [reserved_of_stock hstock, (hmade.map Block.size).sum_eq]
  · rw [hreleased.forgotten, hreleased.made.eq_nil]
    rfl

/-- In every state of every run of a dynamic pool it reports what the host is owed; and so does a
graded pool in every state of its life, which a release ends exactly while no arena is out. -/
theorem arena_pools_settled (p : Provider σ) :
    (∀ (pool : DynamicArenaPool) (descriptors : Nat → Arena) (heap : σ) (others : List Block)
      (arenaCapacity spareLimit : Nat) (st : Dynamic.State (σ × List Block)) (lent : List Nat),
      spareLimit < 2 ^ 32 → p.holds heap others →
      (Dynamic.init pool arenaCapacity spareLimit).1 = .success →
      Dynamic.Run p
        ⟨(Dynamic.init pool arenaCapacity spareLimit).2, descriptors, heap, []⟩ st lent →
      st.pool.reserved = (st.store.heap.2.map Block.size).sum) ∧
    ∀ (st : State (σ × List Block)) (lent : Nat → List Nat), Life p st lent →
      Settled p st lent := by
  constructor
  · intro pool descriptors heap others arenaCapacity spareLimit st lent hlimit hheld hok hrun
    exact dynamic_reserved (hrun.sound (Dynamic.init_sound hlimit hheld hok))
  · intro st lent life
    exact life.settled

/-- A dynamic pool reports the arena that is out. A graded pool is not released while an arena is
out, and gives everything back once it is in stock again. -/
theorem arena_pools_settled_sample :
    (Dynamic.alloc (Provider.ofArena noHost).recorded.toCalls sampleDynamic
      true).2.2.pool.reserved = 40 ∧
    let st := (alloc (Provider.ofArena noHost).recorded.toCalls sampleGraded 10#32 true).2.2
    st.pool.reserved = 120 ∧
      release (Provider.ofArena noHost).recorded.toCalls st = some (.errorResourceInUse, st) ∧
      ∃ r, release (Provider.ofArena noHost).recorded.toCalls
          (free (Provider.ofArena noHost).recorded.toCalls st 80).2 = some r ∧
        r.2.store.heap.2 = [] := by
  have hheld : (Provider.ofArena noHost).holds (lentArena 256, 0) [] :=
    lentArena_sound (by decide) (by decide) (by decide)
  constructor
  · have hstart : Dynamic.Run (Provider.ofArena noHost) sampleDynamic sampleDynamic [] := .start
    exact ((arena_pools_settled (Provider.ofArena noHost)).1 Dynamic.forgetEverything
      (fun _ => fresh 0 0) (lentArena 256, 0) [] 8 8 _ _ (by decide) hheld (by decide)
      (hstart.alloc true)).trans (by decide +kernel)
  · intro st
    have hstart : Run (Provider.ofArena noHost) sampleGraded sampleGraded fun _ => [] := .start
    have hout := hstart.taken 10#32 1 80 (by decide +kernel) (by decide +kernel)
      (by decide +kernel)
    have hback := hout.free (show 80 ∈ Function.update (fun _ => []) 1 [80] 1 by decide)
    have settled := (arena_pools_settled (Provider.ofArena noHost)).2
    obtain ⟨hreserved, r, hr, ⟨-, rfl⟩ | ⟨hnone, -⟩⟩ :=
      settled st _ (.run [8#32, 16#32, 64#32] (by decide) (.start rfl hheld) rfl
        (by decide +kernel) hout)
    · obtain ⟨-, r', hr', ⟨⟨i, hi⟩, -⟩ | ⟨-, -, hgone, -⟩⟩ :=
        settled _ _ (.run [8#32, 16#32, 64#32] (by decide) (.start rfl hheld) rfl
          (by decide +kernel) hback)
      · refine absurd ?_ hi
        by_cases h1 : i = 1
        · subst h1
          decide
        · rw [Function.update_of_ne h1, Function.update_of_ne h1]
      · exact ⟨hreserved.trans (by decide +kernel), hr, r', hr', hgone⟩
    · exact absurd (hnone 1) (by decide)

end Arnm.ArenaPool.Graded
