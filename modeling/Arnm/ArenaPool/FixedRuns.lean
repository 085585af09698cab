import Arnm.ArenaPool.Fixed

set_option autoImplicit false

/-! # Runs of a fixed arena pool

Borrowers take arenas from the pool, use them in any way short of releasing them, and return each
once; others use the source allocator. In every state of such a run the pool is in order
(`InOrder`): lent and free arenas are all there are, and each that comes out is empty. -/

namespace Arnm.ArenaPool.Fixed

open Memory

variable {σ : Type}

/-- The addresses of the pool's arenas. -/
def FixedArenaPool.slots (pool : FixedArenaPool) : List Nat :=
  (List.range pool.arenaCount).map (slotOf pool.arenas)

/-- Where the buffer of an arena of the pool lies. -/
def FixedArenaPool.bufferOf (pool : FixedArenaPool) : Nat → Nat :=
  Fixed.bufferOf pool.arenas pool.arenaCount pool.arenaCapacity

/-- The block of the pool. -/
def FixedArenaPool.block (pool : FixedArenaPool) : Block := ⟨pool.arenas, pool.blockBytes⟩

/-- A pool after init and the arenas that are out. A borrower returns arenas it has, and what it
does to an arena stays within the arena's buffer; others leave the pool's block alone. -/
inductive Run (p : Provider σ) (start : State σ) : State σ → List Nat → Prop where
  | start : Run p start start []
  | alloc {st : State σ} {lent : List Nat} (out : Bool) (run : Run p start st lent) :
      Run p start (alloc p.toCalls st out).2.2
        (if (alloc p.toCalls st out).1 = .success then (alloc p.toCalls st out).2.1 :: lent
          else lent)
  | free {st : State σ} {lent : List Nat} {arena : Nat} (run : Run p start st lent)
      (has : arena ∈ lent) : Run p start (free p.toCalls st arena).2 (lent.erase arena)
  | use {st : State σ} {lent : List Nat} {arena : Nat} (host : Host) {c : Call}
      (run : Run p start st lent) (has : arena ∈ lent) (kept : c ≠ .release) :
      Run p start { st with store := st.store.use p.toCalls host arena c } lent
  | write {st : State σ} {lent : List Nat} {arena : Nat} {m : Bytes} (run : Run p start st lent)
      (has : arena ∈ lent)
      (within : (st.store.descriptors arena).Confined (p.bytes st.store.heap) m) :
      Run p start { st with store := st.store.write p.toCalls m } lent
  | elsewhere {st : State σ} {lent : List Nat} {heap : σ} {others : List Block}
      (run : Run p start st lent) (held : p.holds heap (st.pool.block :: others))
      (kept : Keeps [st.pool.block] (p.bytes st.store.heap) (p.bytes heap)) :
      Run p start { st with store := { st.store with heap := heap } } lent

/-! ## The invariant -/

/-- The pool has its block, its counters are right, and its arenas are lent or free. -/
structure Sound (p : Provider σ) (st : State σ) (lent : List Nat) : Prop where
  arenas_ne : st.pool.arenas ≠ 0
  count_pos : 0 < st.pool.arenaCount
  count_lt : st.pool.arenaCount < 2 ^ 16
  fits : st.pool.blockBytes ≤ maxAllocSize
  held : ∃ others, p.holds st.store.heap (st.pool.block :: others)
  acquired : st.pool.acquiredCount = lent.length
  lends : ∃ free,
    Lends p st.store st.pool.bufferOf st.pool.arenaCapacity st.pool.freeHead lent free ∧
    (lent ++ free).Perm st.pool.slots

/-- An init that succeeds leaves a sound pool with every arena free. -/
theorem init_sound {p : Provider σ} {st : State σ} {arenaCapacity arenaCount : Nat}
    {others : List Block} (hcount : arenaCount < 2 ^ 16) (hheld : p.holds st.store.heap others)
    (hok : (init p.toCalls st arenaCapacity arenaCount).1 = .success) :
    Sound p (init p.toCalls st arenaCapacity arenaCount).2 [] ∧
      (init p.toCalls st arenaCapacity arenaCount).2.pool.arenaCount = arenaCount ∧
      (init p.toCalls st arenaCapacity arenaCount).2.pool.arenaCapacity =
        align8U32 arenaCapacity := by
  unfold init at hok ⊢
  split at hok
  · cases hok
  rename_i hparam
  rw [not_or] at hparam
  rw [if_neg (not_or.mpr hparam)]
  split at hok
  · cases hok
  rename_i haligned
  rw [if_neg haligned]
  cases htotal : calculateTotalReservedMemorySize arenaCount (align8U32 arenaCapacity) with
  | error result =>
      rw [htotal] at hok
      rw [calculateTotal_error htotal] at hok
      cases hok
  | ok total =>
      rw [htotal] at hok
      dsimp only at hok ⊢
      have hpos : 0 < arenaCount := Nat.pos_of_ne_zero hparam.2
      obtain ⟨htotal', hfits⟩ := calculateTotal_ok hpos hcount htotal
      have hgot := p.lawful.alloc 0 total hheld
      generalize p.alloc 0 total st.store.heap = block at hok hgot ⊢
      rcases hgot with ⟨herr, -⟩ | ⟨hsuccess, hheld', -⟩
      · rw [if_pos (Result.ne_success_of_isError herr)] at hok
        exact absurd hok (Result.ne_success_of_isError herr)
      rw [if_neg (not_not_intro hsuccess)] at hok ⊢
      obtain ⟨hne, -, hstop⟩ := p.lawful.room hheld' _ List.mem_cons_self
      dsimp only at hne hstop
      have hcap : 8 ≤ align8U32 arenaCapacity :=
        Nat.le_of_dvd (Nat.pos_of_ne_zero haligned) (align8U32_dvd _)
      -- before the first round no arena is on the list, and none has to be apart from another
      have hbare : Lends p { st.store with heap := block.state }
          (Fixed.bufferOf block.buffer arenaCount (align8U32 arenaCapacity))
          (align8U32 arenaCapacity) 0 []
          ((List.range' arenaCount (arenaCount - arenaCount)).map (slotOf block.buffer)) := by
        rw [Nat.sub_self]
        exact .nil p _ _ hcap
      have hloop := stringArenas_lends hne (by omega) (Nat.le_refl arenaCount) hbare
      generalize stringArenas p.toCalls block.buffer (block.buffer + buffersOffset arenaCount)
        (align8U32 arenaCapacity) arenaCount 0 { st.store with heap := block.state } = strung
        at hok hloop ⊢
      by_cases hstrung : strung.1 = .success
      · rw [if_neg (not_not_intro hstrung)]
        obtain ⟨hlends, hholds⟩ := hloop hstrung
        refine ⟨⟨hne, hpos, hcount, ?_, ⟨others, ?_⟩, rfl, ⟨_, hlends, List.Perm.refl _⟩⟩, rfl, rfl⟩
        · rw [htotal'] at hfits
          exact hfits
        · have hblock := hholds _ hheld'
          rw [htotal'] at hblock
          exact hblock
      · rw [if_pos hstrung] at hok
        exact absurd hok hstrung

/-! ## What each step keeps -/

theorem mem_slots {pool : FixedArenaPool} {arena : Nat} :
    arena ∈ pool.slots ↔ ∃ i < pool.arenaCount, slotOf pool.arenas i = arena := by
  simp [FixedArenaPool.slots]

theorem length_slots (pool : FixedArenaPool) : pool.slots.length = pool.arenaCount := by
  simp [FixedArenaPool.slots]

/-- The arenas of a pool belong to it. -/
theorem belongsTo_of_mem {pool : FixedArenaPool} {arena : Nat} (h : arena ∈ pool.slots) :
    pool.belongsTo arena = true := by
  obtain ⟨i, hi, rfl⟩ := mem_slots.mp h
  unfold FixedArenaPool.belongsTo slotOf
  have hmul := Nat.mul_le_mul_right descriptorSize hi
  rw [Nat.succ_mul] at hmul
  rw [if_neg (by unfold descriptorSize at *; omega), Nat.add_sub_cancel_left, Nat.mul_mod_left]
  exact decide_eq_true rfl

/-- A buffer lies inside the block, behind all descriptors. -/
theorem buffer_within {pool : FixedArenaPool} {arena : Nat} (h : arena ∈ pool.slots) :
    Region.Within ⟨pool.bufferOf arena, pool.arenaCapacity⟩
      ⟨pool.arenas + buffersOffset pool.arenaCount, pool.arenaCount * pool.arenaCapacity⟩ := by
  obtain ⟨i, hi, rfl⟩ := mem_slots.mp h
  have hmul := Nat.mul_le_mul_right pool.arenaCapacity hi
  rw [Nat.succ_mul] at hmul
  unfold FixedArenaPool.bufferOf
  rw [bufferOf_slotOf]
  refine ⟨Nat.le_add_right _ _, ?_⟩
  simp only [Region.stop_mk]
  omega

variable {p : Provider σ} {st : State σ} {lent : List Nat}

namespace Sound

variable (h : Sound p st lent)
include h

/-- The store moves on under the pool. -/
theorem withStore {s : Store σ}
    (hlends : ∀ free, Lends p st.store st.pool.bufferOf st.pool.arenaCapacity st.pool.freeHead lent
      free → (lent ++ free).Perm st.pool.slots →
      Lends p s st.pool.bufferOf st.pool.arenaCapacity st.pool.freeHead lent free)
    (hheld : ∃ others, p.holds s.heap (st.pool.block :: others)) :
    Sound p { st with store := s } lent := by
  obtain ⟨free, hfree, hperm⟩ := h.lends
  exact ⟨h.arenas_ne, h.count_pos, h.count_lt, h.fits, hheld, h.acquired, free,
    hlends free hfree hperm, hperm⟩

/-- An allocation is refused when all arenas are out; otherwise an empty one comes out. -/
theorem alloc :
    lent.length = st.pool.arenaCount ∧
      Fixed.alloc p.toCalls st true = (.errorResourceExhausted, 0, st) ∨
    lent.length < st.pool.arenaCount ∧ ∃ arena,
      (Fixed.alloc p.toCalls st true).1 = .success ∧
      (Fixed.alloc p.toCalls st true).2.1 = arena ∧ arena ∈ st.pool.slots ∧ arena ∉ lent ∧
      (Fixed.alloc p.toCalls st true).2.2.store.descriptors arena =
        fresh (st.pool.bufferOf arena) st.pool.arenaCapacity ∧
      Sound p (Fixed.alloc p.toCalls st true).2.2 (arena :: lent) := by
  obtain ⟨free, hlends, hperm⟩ := h.lends
  have hlen := hperm.length_eq
  rw [List.length_append, length_slots] at hlen
  unfold Fixed.alloc
  rw [if_neg (by decide), if_neg h.arenas_ne]
  by_cases hz : st.pool.freeHead = 0
  · rw [if_pos hz]
    left
    rw [hlends.linked.head_eq_zero_iff.mp hz, List.length_nil] at hlen
    exact ⟨hlen, rfl⟩
  · rw [if_neg hz]
    right
    -- the head of the list comes out, and the rest stays linked
    obtain ⟨rest, rfl, hlent⟩ := hlends.lend hz
    rw [List.length_cons] at hlen
    refine ⟨by omega, st.pool.freeHead, rfl, rfl, ?_, ?_, hlends.empty _ List.mem_cons_self, ?_⟩
    · exact hperm.subset (List.mem_append_right _ List.mem_cons_self)
    · exact fun hin => hlends.ne_of_mem hin List.mem_cons_self rfl
    · refine ⟨h.arenas_ne, h.count_pos, h.count_lt, h.fits, h.held, ?_, rest, hlent, ?_⟩
      · have hlt := h.count_lt
        show (st.pool.acquiredCount + 1) % 2 ^ 16 = _
        rw [h.acquired, List.length_cons, Nat.mod_eq_of_lt (by omega)]
      · exact List.perm_middle.symm.trans hperm

/-- A lent arena comes back. -/
theorem free {arena : Nat} (ha : arena ∈ lent) :
    (Fixed.free p.toCalls st arena).1 = .success ∧
      Sound p (Fixed.free p.toCalls st arena).2 (lent.erase arena) := by
  obtain ⟨free, hlends, hperm⟩ := h.lends
  have hslot := hperm.subset (List.mem_append_left _ ha)
  have hpos := List.length_pos_of_mem ha
  unfold Fixed.free
  rw [if_neg (hlends.addr _ (List.mem_append_left _ ha)).1, if_neg h.arenas_ne,
    if_neg (by rw [belongsTo_of_mem hslot]; decide), if_neg (by rw [h.acquired]; omega)]
  refine ⟨rfl, h.arenas_ne, h.count_pos, h.count_lt, h.fits, ?_, ?_, _, hlends.giveBack ha, ?_⟩
  · obtain ⟨others, hheld⟩ := h.held
    exact ⟨others, p.lawful.holds_write _ hheld⟩
  · show st.pool.acquiredCount - 1 = _
    rw [h.acquired, List.length_erase_of_mem ha]
  · calc lent.erase arena ++ arena :: free
        |>.Perm (arena :: (lent.erase arena ++ free)) := List.perm_middle
      _ |>.Perm (lent ++ free) := (List.perm_cons_erase ha).symm.append_right free
      _ |>.Perm st.pool.slots := hperm

theorem use {arena : Nat} (host : Host) {c : Call} (kept : c ≠ .release) (ha : arena ∈ lent) :
    Sound p { st with store := st.store.use p.toCalls host arena c } lent := by
  refine h.withStore (fun free hlends _ => hlends.use host kept ha) ?_
  obtain ⟨others, hheld⟩ := h.held
  refine ⟨others, ?_⟩
  unfold Store.use
  dsimp only
  split
  · exact p.lawful.holds_write _ hheld
  · exact hheld

theorem write {arena : Nat} {m : Bytes} (ha : arena ∈ lent)
    (hin : (st.store.descriptors arena).Confined (p.bytes st.store.heap) m) :
    Sound p { st with store := st.store.write p.toCalls m } lent := by
  refine h.withStore (fun free hlends _ => hlends.write ha hin) ?_
  obtain ⟨others, hheld⟩ := h.held
  exact ⟨others, p.lawful.holds_write _ hheld⟩

theorem elsewhere {heap : σ} {others : List Block}
    (hheld : p.holds heap (st.pool.block :: others))
    (hkept : Keeps [st.pool.block] (p.bytes st.store.heap) (p.bytes heap)) :
    Sound p { st with store := { st.store with heap := heap } } lent := by
  refine h.withStore (fun free hlends hperm => hlends.elsewhere fun a ha => ?_) ⟨others, hheld⟩
  -- the links lie in the buffers, and these in the block
  refine (hkept _ List.mem_cons_self).within ((hlends.link_within a).trans ?_)
  obtain ⟨hlo, hhi⟩ := buffer_within (hperm.subset (List.mem_append_right _ ha))
  refine ⟨Nat.le_trans (Nat.le_add_right _ _) hlo, Nat.le_trans hhi ?_⟩
  show _ ≤ st.pool.arenas + (buffersOffset st.pool.arenaCount + _)
  simp only [Region.stop_mk]
  omega

/-- A release is refused while an arena is out, and then changes nothing. -/
theorem release :
    lent ≠ [] ∧ Fixed.release p.toCalls st = (.errorResourceInUse, st) ∨
    lent = [] ∧ (Fixed.release p.toCalls st).1.isError = false := by
  unfold Fixed.release
  rw [h.acquired]
  by_cases hnil : lent = []
  · right
    rw [if_neg (by rw [hnil]; decide), if_neg h.arenas_ne,
      calculateTotal_of_fits h.count_pos h.count_lt h.fits]
    refine ⟨hnil, ?_⟩
    obtain ⟨others, hheld⟩ := h.held
    obtain ⟨hfreed, -⟩ := p.lawful.free hheld
    show (p.free st.pool.block.addr st.pool.block.size st.store.heap).1.isError = false
    rcases hfreed with ⟨hok, -⟩ | ⟨hwarn, -⟩
    · rw [hok]
      rfl
    · rw [hwarn]
      rfl
  · rw [if_pos fun hlen => hnil (List.length_eq_zero_iff.mp hlen)]
    exact Or.inl ⟨hnil, rfl⟩

end Sound

/-! ## Runs -/

/-- The pool has the block and the arenas it was made with. -/
def SamePool (st₀ st : State σ) : Prop :=
  st.pool.arenas = st₀.pool.arenas ∧ st.pool.arenaCapacity = st₀.pool.arenaCapacity ∧
    st.pool.arenaCount = st₀.pool.arenaCount

theorem alloc_samePool (source : Calls σ) (st : State σ) (out : Bool) :
    SamePool st (alloc source st out).2.2 := by
  unfold alloc
  split
  · exact ⟨rfl, rfl, rfl⟩
  split
  · exact ⟨rfl, rfl, rfl⟩
  split <;> exact ⟨rfl, rfl, rfl⟩

theorem free_samePool (source : Calls σ) (st : State σ) (arena : Nat) :
    SamePool st (free source st arena).2 := by
  unfold free
  split
  · exact ⟨rfl, rfl, rfl⟩
  split
  · exact ⟨rfl, rfl, rfl⟩
  split
  · exact ⟨rfl, rfl, rfl⟩
  split <;> exact ⟨rfl, rfl, rfl⟩

theorem SamePool.trans {st₀ st₁ st₂ : State σ} (h : SamePool st₀ st₁) (k : SamePool st₁ st₂) :
    SamePool st₀ st₂ := ⟨k.1.trans h.1, k.2.1.trans h.2.1, k.2.2.trans h.2.2⟩

/-- Every state of a run is sound. -/
theorem Run.sound {start : State σ} (hrun : Run p start st lent) (hstart : Sound p start []) :
    Sound p st lent ∧ SamePool start st := by
  induction hrun with
  | start => exact ⟨hstart, rfl, rfl, rfl⟩
  | @alloc st lent out _ ih =>
      obtain ⟨hs, hsame⟩ := ih
      refine ⟨?_, hsame.trans (alloc_samePool _ _ _)⟩
      cases out with
      | false =>
          have hrefused : Fixed.alloc p.toCalls st false = (.errorNullPointer, 0, st) := rfl
          rw [hrefused, if_neg fun hok => by cases hok]
          exact hs
      | true =>
          rcases hs.alloc with ⟨-, hfull⟩ | ⟨-, arena, hok, rfl, -, -, -, hnext⟩
          · rw [hfull, if_neg fun hok => by cases hok]
            exact hs
          · rw [if_pos hok]
            exact hnext
  | free _ has ih => exact ⟨(ih.1.free has).2, ih.2.trans (free_samePool _ _ _)⟩
  | use host _ has kept ih => exact ⟨ih.1.use host kept has, ih.2⟩
  | write _ has within ih => exact ⟨ih.1.write has within, ih.2⟩
  | elsewhere _ held kept ih => exact ⟨ih.1.elsewhere held kept, ih.2⟩

/-- What a client can rely on. -/
structure InOrder (p : Provider σ) (st : State σ) (lent : List Nat) : Prop where
  /-- The arenas that are out and those on the free list are all there are, each once. -/
  partition : ∃ free, Walk (st.store.nextFree p.toCalls) st.pool.freeHead free ∧
    (lent ++ free).Perm st.pool.slots ∧
    free.length = st.pool.arenaCount - st.pool.acquiredCount
  distinct : st.pool.slots.Nodup
  /-- The buffers lie apart, in the block and behind the descriptors. -/
  apart : Region.AllApart
    (st.pool.slots.map fun a => ⟨st.pool.bufferOf a, st.pool.arenaCapacity⟩)
  within : ∀ a ∈ st.pool.slots, Region.Within ⟨st.pool.bufferOf a, st.pool.arenaCapacity⟩
      st.pool.block.extent ∧
    ∀ b ∈ st.pool.slots, b + descriptorSize ≤ st.pool.bufferOf a
  own : ∀ a ∈ st.pool.slots, (st.store.descriptors a).data = st.pool.bufferOf a ∧
    (st.store.descriptors a).capacity = st.pool.arenaCapacity
  /-- An allocation is refused exactly when all arenas are out. -/
  exhausted : (alloc p.toCalls st true).1 ≠ .success ↔ lent.length = st.pool.arenaCount
  /-- What is lent was not out, and is empty. -/
  lends : (alloc p.toCalls st true).1 = .success →
    (alloc p.toCalls st true).2.1 ∈ st.pool.slots ∧ (alloc p.toCalls st true).2.1 ∉ lent ∧
    (alloc p.toCalls st true).2.2.store.descriptors (alloc p.toCalls st true).2.1 =
      fresh (st.pool.bufferOf (alloc p.toCalls st true).2.1) st.pool.arenaCapacity
  /-- A release is refused exactly while an arena is out, and changes nothing then. -/
  release : (release p.toCalls st).1.isError = true ↔ lent ≠ []
  refused : lent ≠ [] → Fixed.release p.toCalls st = (.errorResourceInUse, st)

theorem Sound.inOrder (h : Sound p st lent) : InOrder p st lent := by
  obtain ⟨free, hlends, hperm⟩ := h.lends
  have hlen := hperm.length_eq
  rw [List.length_append, length_slots] at hlen
  have halloc := h.alloc
  have hrelease := h.release
  -- the list, the arenas and their buffers as they lie, then what each call answers
  refine ⟨⟨free, hlends.linked, hperm, ?_⟩, ?_, ?_, fun a ha => ⟨?_, fun b hb => ?_⟩,
    fun a ha => ?_,
    ?_, fun hok => ?_, ?_, fun hne => ?_⟩
  · rw [h.acquired]
    omega
  · exact hperm.nodup_iff.mp hlends.nodup
  · rw [Region.AllApart, List.pairwise_map]
    exact (Region.pairwise_apart_perm
      (fun a => ⟨st.pool.bufferOf a, st.pool.arenaCapacity⟩) hperm).mp hlends.apart
  · obtain ⟨hlo, hhi⟩ := buffer_within ha
    refine ⟨Nat.le_trans (Nat.le_add_right _ _) hlo, Nat.le_trans hhi ?_⟩
    show _ ≤ st.pool.arenas + (buffersOffset st.pool.arenaCount + _)
    simp only [Region.stop_mk]
    omega
  · obtain ⟨i, hi, rfl⟩ := mem_slots.mp hb
    refine Nat.le_trans ?_ (buffer_within ha).1
    have hmul := Nat.mul_le_mul_right descriptorSize hi
    rw [Nat.succ_mul] at hmul
    show slotOf _ i + _ ≤ st.pool.arenas + st.pool.arenaCount * descriptorSize
    unfold slotOf
    omega
  · rcases List.mem_append.mp (hperm.mem_iff.mpr ha) with ha | ha
    · obtain ⟨hdata, hcap, -⟩ := hlends.out a ha
      exact ⟨hdata, hcap⟩
    · rw [hlends.empty a ha]
      exact ⟨rfl, rfl⟩
  · rcases halloc with ⟨hfull, hres⟩ | ⟨hlt, arena, hok, -⟩
    · rw [hres]
      exact iff_of_true (fun hok => by cases hok) hfull
    · exact iff_of_false (not_not_intro hok) (Nat.ne_of_lt hlt)
  · rcases halloc with ⟨-, hres⟩ | ⟨-, arena, -, rfl, hslot, hnew, hempty, -⟩
    · rw [hres] at hok
      cases hok
    · exact ⟨hslot, hnew, hempty⟩
  · rcases hrelease with ⟨hne, hres⟩ | ⟨hnil, hres⟩
    · rw [hres]
      exact iff_of_true rfl hne
    · exact iff_of_false (by rw [hres]; decide) (not_not_intro hnil)
  · exact (hrelease.resolve_right fun hnil => hne hnil.1).2

/-- In every state of every run of a pool that init accepted the pool is in order. -/
theorem fixed_pool_in_order (p : Provider σ) (st₀ : State σ) (arenaCapacity arenaCount : Nat)
    (hcount : arenaCount < 2 ^ 16) {others : List Block} (hheld : p.holds st₀.store.heap others)
    (hok : (init p.toCalls st₀ arenaCapacity arenaCount).1 = .success)
    (hrun : Run p (init p.toCalls st₀ arenaCapacity arenaCount).2 st lent) :
    st.pool.arenaCount = arenaCount ∧ st.pool.arenaCapacity = align8U32 arenaCapacity ∧
      InOrder p st lent := by
  obtain ⟨hinit, hnumber, hsize⟩ := init_sound hcount hheld hok
  obtain ⟨hsound, -, hcapacity, hnumber'⟩ := hrun.sound hinit
  exact ⟨hnumber'.trans hnumber, hcapacity.trans hsize, hsound.inOrder⟩

theorem Run.taken {start : State σ} (run : Run p start st lent) (arena : Nat)
    (hok : (Fixed.alloc p.toCalls st true).1 = .success)
    (harena : (Fixed.alloc p.toCalls st true).2.1 = arena) :
    Run p start (Fixed.alloc p.toCalls st true).2.2 (arena :: lent) := by
  have hnext := run.alloc true
  rw [if_pos hok, harena] at hnext
  exact hnext

/-- An arena with room for a pool of two arenas of 16 bytes. -/
def sampleSource : State (Heap × Nat) := ⟨forgetEverything, fun _ => fresh 0 0, lentArena 96, 0⟩

/-- The pool made in it. -/
def samplePool : State (Heap × Nat) := (init (Provider.ofArena noHost).toCalls sampleSource 10 2).2

/-- The first arena is taken and used, then the second is taken, and the first comes back. -/
def sampleState : State (Heap × Nat) :=
  let calls := (Provider.ofArena noHost).toCalls
  let st := (alloc calls samplePool true).2.2
  let st := { st with store := st.store.use calls (Host.answering 0) 8 (.alloc 8) }
  (free calls (alloc calls st true).2.2 8).2

theorem lentArena_96_holds : (Provider.ofArena noHost).holds sampleSource.store.heap [] :=
  lentArena_sound (by decide) (by decide) (by decide)

/-- The borrower of the first arena used it; the arena that comes out next is the same one. -/
theorem fixed_pool_in_order_sample :
    InOrder (Provider.ofArena noHost) sampleState [40] ∧
      (alloc (Provider.ofArena noHost).toCalls sampleState true).2.1 = 8 := by
  have hstart : Run (Provider.ofArena noHost) samplePool samplePool [] := .start
  have hfirst := hstart.taken 8 (by decide +kernel) (by decide +kernel)
  have hused := hfirst.use (Host.answering 0) (c := .alloc 8) List.mem_cons_self (by decide)
  have hsecond := hused.taken 40 (by decide +kernel) (by decide +kernel)
  have hback := hsecond.free (show 8 ∈ [40, 8] by decide)
  exact ⟨(fixed_pool_in_order (Provider.ofArena noHost) sampleSource 10 2 (by decide)
    lentArena_96_holds (by decide +kernel) hback).2.2, by decide +kernel⟩

end Arnm.ArenaPool.Fixed
