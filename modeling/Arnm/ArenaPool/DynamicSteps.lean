import Arnm.ArenaPool.Dynamic

set_option autoImplicit false

/-! # One operation of a dynamic arena pool

A sound pool (`Sound`) holds one block of the host for each arena it lent and each it keeps in
stock, and the record of the host has these blocks and no other of the pool's. What an operation
does leaves the blocks of everyone else alone (`Frame`). While a reserve builds its arenas aside
they count as lent; a refusal gives them all back, and otherwise they are hung in front of the
stock. -/

namespace Arnm.ArenaPool.Dynamic

open Memory

variable {σ : Type} {p : Provider σ} {s s' : Store (σ × List Block)}
  {others made blocks : List Block}
  {capacity : Nat}

/-- The block of an arena. -/
def arenaBlock (capacity arena : Nat) : Block := ⟨arena, descriptorSize + capacity⟩

/-- Where the buffer of an arena lies. -/
def bufferAt (arena : Nat) : Nat := arena + descriptorSize

theorem arenaBlockBytes_eq (h : descriptorSize + capacity ≤ maxAllocSize) :
    arenaBlockBytes capacity = descriptorSize + capacity :=
  Nat.mod_eq_of_lt (Nat.lt_of_le_of_lt h (by decide))

/-- The blocks of the others and their descriptors are what they were. -/
structure Frame (p : Provider σ) (s s' : Store (σ × List Block)) (others : List Block) : Prop where
  kept : Keeps others (p.recorded.bytes s.heap) (p.recorded.bytes s'.heap)
  descriptors : ∀ b ∈ others, s'.descriptors b.addr = s.descriptors b.addr

namespace Frame

theorem refl (p : Provider σ) (s : Store (σ × List Block)) (others : List Block) :
    Frame p s s others := ⟨Keeps.refl _ _, fun _ _ => rfl⟩

theorem trans {s'' : Store (σ × List Block)} (h : Frame p s s' others)
    (k : Frame p s' s'' others) : Frame p s s'' others :=
  ⟨h.kept.trans k.kept, fun b hb => (k.descriptors b hb).trans (h.descriptors b hb)⟩

theorem subset {others' : List Block} (h : Frame p s s' others) (hsub : others' ⊆ others) :
    Frame p s s' others' := ⟨h.kept.subset hsub, fun b hb => h.descriptors b (hsub hb)⟩

end Frame

/-- Two blocks held at once have different addresses. -/
theorem addr_ne_of_holds {q : Provider (σ × List Block)} {heap : σ × List Block} {b c : Block}
    (h : q.holds heap (b :: blocks)) (hc : c ∈ blocks) : c.addr ≠ b.addr := by
  intro heq
  have hapart := (List.pairwise_cons.mp (q.lawful.apart h)).1 c hc
  have hb := (q.lawful.room h b List.mem_cons_self).2.1
  have hc' := (q.lawful.room h c (List.mem_cons_of_mem _ hc)).2.1
  unfold Block.extent Region.Apart at hapart
  simp only [Region.stop_mk] at hapart
  omega

/-- Blocks held at once have different addresses. -/
theorem nodup_addr_of_holds {q : Provider (σ × List Block)} {heap : σ × List Block}
    (h : q.holds heap blocks) : (blocks.map Block.addr).Nodup := by
  induction blocks with
  | nil => exact List.nodup_nil
  | cons b blocks ih =>
      refine List.nodup_cons.mpr ⟨fun hin => ?_, ih (q.lawful.forget h)⟩
      obtain ⟨c, hc, heq⟩ := List.mem_map.mp hin
      exact addr_ne_of_holds h hc heq

/-! ## An arena made, an arena destroyed -/

/-- The host refused and everything is as it was, or a fresh arena has its block. -/
theorem makeArena_spec (hfits : descriptorSize + capacity ≤ maxAllocSize)
    (h : p.recorded.holds s.heap blocks) :
    let r := makeArena p.recorded.toCalls capacity s
    Frame p s r.2 blocks ∧
    (r.1 = 0 ∧ p.recorded.holds r.2.heap blocks ∧ r.2.heap.2 = s.heap.2 ∨
      r.1 ≠ 0 ∧ p.recorded.holds r.2.heap (arenaBlock capacity r.1 :: blocks) ∧
        r.2.heap.2 = arenaBlock capacity r.1 :: s.heap.2 ∧
        r.2.descriptors r.1 = fresh (bufferAt r.1) capacity) := by
  intro r
  have hr : r = makeArena p.recorded.toCalls capacity s := rfl
  unfold makeArena at hr
  rw [arenaBlockBytes_eq hfits] at hr
  have hrecord := recorded_alloc p 0 (descriptorSize + capacity) s.heap
  have hgot := p.recorded.lawful.alloc 0 (descriptorSize + capacity) h
  generalize p.recorded.alloc 0 (descriptorSize + capacity) s.heap = block at hr hrecord hgot
  rcases hgot with ⟨herr, -, hheld, hkeep⟩ | ⟨hok, hheld, hkeep⟩
  · have hne := Result.ne_success_of_isError herr
    rw [if_neg hne] at hrecord
    rw [if_pos hne] at hr
    rw [hr]
    exact ⟨⟨hkeep, fun _ _ => rfl⟩, Or.inl ⟨rfl, hheld, hrecord⟩⟩
  rw [if_pos hok] at hrecord
  rw [if_neg (not_not_intro hok)] at hr
  have hpos := (p.recorded.lawful.room hheld _ List.mem_cons_self).1
  cases hinit : initArenaBorrow (block.buffer + descriptorSize) capacity with
  | error result =>
      rw [hinit] at hr
      -- the block goes back to the host; one it keeps is forgotten all the same
      have hfreed := p.recorded.lawful.free hheld
      have hcleared := recorded_free p block.buffer (descriptorSize + capacity) block.state
      rw [hrecord, List.erase_cons_head] at hcleared
      rw [hr]
      refine ⟨⟨hkeep.trans hfreed.2, fun _ _ => rfl⟩, Or.inl ⟨rfl, ?_, hcleared⟩⟩
      exact hfreed.1.elim And.right fun hwarn => p.recorded.lawful.forget hwarn.2.1
  | ok a =>
      rw [hinit] at hr
      rw [hr]
      refine ⟨⟨hkeep, fun b hb => ?_⟩, Or.inr ⟨hpos, hheld, hrecord, ?_⟩⟩
      · exact Store.describe_other s a (addr_ne_of_holds hheld hb)
      · show (s.describe block.buffer a).descriptors block.buffer = _
        rw [Store.describe_same]
        exact initArenaBorrow_ok hinit

theorem destroyArena_spec {arena : Nat} (hfits : descriptorSize + capacity ≤ maxAllocSize)
    (h : p.recorded.holds s.heap (arenaBlock capacity arena :: blocks)) :
    let r := destroyArena p.recorded.toCalls arena capacity s
    Frame p s r blocks ∧ p.recorded.holds r.heap blocks ∧ r.descriptors = s.descriptors ∧
      r.heap.2 = s.heap.2.erase (arenaBlock capacity arena) := by
  intro r
  have hr : r = destroyArena p.recorded.toCalls arena capacity s := rfl
  unfold destroyArena at hr
  rw [arenaBlockBytes_eq hfits] at hr
  obtain ⟨hfreed, hkeep⟩ := p.recorded.lawful.free h
  rw [hr]
  refine ⟨⟨hkeep, fun _ _ => rfl⟩, ?_, rfl, rfl⟩
  exact hfreed.elim And.right fun hwarn => p.recorded.lawful.forget hwarn.2.1

/-! ## The arenas of a pool and their blocks -/

/-- The blocks of some arenas. -/
def arenaBlocks (capacity : Nat) (arenas : List Nat) : List Block :=
  arenas.map (arenaBlock capacity)

theorem mem_arenaBlocks {arenas : List Nat} {a : Nat} (h : a ∈ arenas) :
    arenaBlock capacity a ∈ arenaBlocks capacity arenas := List.mem_map_of_mem h

/-- The arenas lent and those in stock, with a block of the host for each; the record has these
and `made`. -/
structure Owned (p : Provider σ) (capacity head : Nat) (s : Store (σ × List Block))
    (lent spare : List Nat) (others made : List Block) : Prop where
  lends : Lends p.recorded s bufferAt capacity head lent spare
  fits : descriptorSize + capacity ≤ maxAllocSize
  held : p.recorded.holds s.heap (arenaBlocks capacity (lent ++ spare) ++ others)
  made : s.heap.2.Perm (arenaBlocks capacity (lent ++ spare) ++ made)

variable {head : Nat} {lent spare : List Nat}

theorem arenaBlocks_append (arenas arenas' : List Nat) :
    arenaBlocks capacity (arenas ++ arenas') =
      arenaBlocks capacity arenas ++ arenaBlocks capacity arenas' := List.map_append

/-- The blocks of fewer arenas. -/
theorem blocks_subset (l : List Nat) :
    arenaBlocks capacity (lent ++ spare) ++ others ⊆
      arenaBlocks capacity (l ++ lent ++ spare) ++ others := by
  rw [List.append_assoc l lent spare, arenaBlocks_append l, List.append_assoc]
  exact List.subset_append_right _ _

/-- The block of an arena that is one of the first. -/
theorem mem_blocks {l : List Nat} {a : Nat} (h : a ∈ l) :
    arenaBlock capacity a ∈ arenaBlocks capacity (l ++ lent ++ spare) ++ others :=
  List.mem_append_left _ (mem_arenaBlocks (List.mem_append_left _ (List.mem_append_left _ h)))

/-- A link lies in the block of its arena. -/
theorem link_within_block (hroom : 8 ≤ capacity) (a : Nat) :
    Region.Within (link bufferAt a) (arenaBlock capacity a).extent := by
  refine ⟨Nat.le_add_right _ _, ?_⟩
  show a + descriptorSize + 8 ≤ a + (descriptorSize + capacity)
  omega

theorem buffer_within_block (capacity a : Nat) :
    Region.Within ⟨bufferAt a, capacity⟩ (arenaBlock capacity a).extent := by
  refine ⟨Nat.le_add_right _ _, ?_⟩
  show a + descriptorSize + capacity ≤ a + (descriptorSize + capacity)
  omega

namespace Owned

variable {a : Nat}

/-- What leaves the blocks of the arenas alone leaves the pool. -/
theorem lends_of_frame (h : Owned p capacity head s lent spare others made)
    (hframe : Frame p s s' (arenaBlocks capacity (lent ++ spare))) :
    Lends p.recorded s' bufferAt capacity head lent spare :=
  h.lends.frame (fun _ ha => hframe.descriptors _ (mem_arenaBlocks ha)) fun a ha =>
    (hframe.kept _ (mem_arenaBlocks (List.mem_append_right _ ha))).within
      (link_within_block h.lends.room a)

/-- The block of one lent arena in front of all others. -/
theorem held_cons (h : Owned p capacity head s lent spare others made) (ha : a ∈ lent) :
    p.recorded.holds s.heap
      (arenaBlock capacity a :: (arenaBlocks capacity (lent.erase a ++ spare) ++ others)) :=
  p.recorded.lawful.perm h.held
    ((((List.perm_cons_erase ha).append_right spare).map (arenaBlock capacity)).append_right others)

theorem made_cons (h : Owned p capacity head s lent spare others made) (ha : a ∈ lent) :
    s.heap.2.Perm
      (arenaBlock capacity a :: (arenaBlocks capacity (lent.erase a ++ spare) ++ made)) :=
  h.made.trans
    ((((List.perm_cons_erase ha).append_right spare).map (arenaBlock capacity)).append_right made)

/-- A write into the block of a lent arena leaves all other blocks alone. -/
theorem frame_setNextFree (h : Owned p capacity head s lent spare others made) (ha : a ∈ lent)
    (next : Nat) :
    Frame p s (s.setNextFree p.recorded.toCalls a next)
      (arenaBlocks capacity (lent.erase a ++ spare) ++ others) := by
  refine ⟨fun b hb => ?_, fun _ _ => rfl⟩
  have hslot : s.linkSlot a = bufferAt a := (h.lends.out a ha).data
  have hapart := (List.pairwise_cons.mp (p.recorded.lawful.apart (h.held_cons ha))).1 b hb
  unfold Store.setNextFree
  rw [p.recorded.lawful.bytes_write, hslot]
  exact Bytes.store_agreeOn
    (hapart.within (link_within_block h.lends.room a) (Region.Within.refl _))

theorem frame_describe (h : Owned p capacity head s lent spare others made) (ha : a ∈ lent)
    (b : Arena) :
    Frame p s (s.describe a b) (arenaBlocks capacity (lent.erase a ++ spare) ++ others) :=
  ⟨Keeps.refl _ _, fun _ hc => Store.describe_other _ _ (addr_ne_of_holds (h.held_cons ha) hc)⟩

/-- The first arena in stock is lent. -/
theorem lend (h : Owned p capacity head s lent spare others made) (hne : head ≠ 0) :
    ∃ rest, spare = head :: rest ∧
      Owned p capacity (s.nextFree p.recorded.toCalls head) s (head :: lent) rest others made := by
  obtain ⟨rest, rfl, hlends⟩ := h.lends.lend hne
  have hperm : (arenaBlocks capacity (lent ++ head :: rest)).Perm
      (arenaBlocks capacity (head :: lent ++ rest)) := List.perm_middle.map _
  exact ⟨rest, rfl, hlends, h.fits, p.recorded.lawful.perm h.held (hperm.append_right _),
    h.made.trans (hperm.append_right _)⟩

/-- A lent arena is emptied. -/
theorem reset (h : Owned p capacity head s lent spare others made) (ha : a ∈ lent) :
    Owned p capacity head (s.reset a) lent spare others made :=
  ⟨h.lends.describe (by
    rw [reset_eq_fresh (h.lends.out a ha)]
    exact ⟨rfl, rfl, rfl, Nat.zero_le _⟩) ha, h.fits, h.held, h.made⟩

/-- A lent arena comes back into the stock. -/
theorem giveBack (h : Owned p capacity head s lent spare others made) (ha : a ∈ lent) :
    let s' := (s.reset a).setNextFree p.recorded.toCalls a head
    Owned p capacity a s' (lent.erase a) (a :: spare) others made ∧ Frame p s s' others := by
  have hperm : (arenaBlocks capacity (lent ++ spare)).Perm
      (arenaBlocks capacity (lent.erase a ++ a :: spare)) :=
    (((List.perm_cons_erase ha).append_right spare).trans List.perm_middle.symm).map _
  refine ⟨⟨h.lends.giveBack ha, h.fits, ?_, ?_⟩, ?_⟩
  · exact p.recorded.lawful.holds_write _ (p.recorded.lawful.perm h.held (hperm.append_right _))
  · exact h.made.trans (hperm.append_right _)
  · exact ((h.frame_describe ha _).trans ((h.reset ha).frame_setNextFree ha head)).subset
      (List.subset_append_right _ _)

/-- The host is asked for a further arena. -/
theorem make (h : Owned p capacity head s lent spare others made) :
    let r := makeArena p.recorded.toCalls capacity s
    Frame p s r.2 (arenaBlocks capacity (lent ++ spare) ++ others) ∧
    (r.1 = 0 ∧ Owned p capacity head r.2 lent spare others made ∨
      r.1 ≠ 0 ∧ Owned p capacity head r.2 (r.1 :: lent) spare others made ∧
        r.2.descriptors r.1 = fresh (bufferAt r.1) capacity) := by
  intro r
  obtain ⟨hframe, hcase⟩ := makeArena_spec h.fits h.held
  have hlends := h.lends_of_frame (hframe.subset (List.subset_append_left _ _))
  refine ⟨hframe, ?_⟩
  rcases hcase with ⟨hz, hheld, hrecord⟩ | ⟨hne, hheld, hrecord, hfresh⟩
  · exact Or.inl ⟨hz, hlends, h.fits, hheld, hrecord ▸ h.made⟩
  · obtain ⟨-, hpos, hstop⟩ := p.recorded.lawful.room hheld _ List.mem_cons_self
    refine Or.inr ⟨hne, ⟨hlends.adopt _ hfresh hne ?_ fun b hb => ?_, h.fits, hheld, ?_⟩, hfresh⟩
    · -- the block ends within the address space, so its start lies there too
      have hpos' : 0 < descriptorSize + capacity := hpos
      have hstop' : r.1 + (descriptorSize + capacity) ≤ 2 ^ 64 := hstop
      omega
    · have hapart := (List.pairwise_cons.mp (p.recorded.lawful.apart hheld)).1 _
        (List.mem_append_left _ (mem_arenaBlocks hb))
      exact hapart.within (buffer_within_block _ _) (buffer_within_block _ _)
    · show r.2.heap.2.Perm _
      rw [hrecord]
      exact h.made.cons _

/-- A lent arena goes back to the host. -/
theorem destroy (h : Owned p capacity head s lent spare others made) (ha : a ∈ lent) :
    let s' := destroyArena p.recorded.toCalls a capacity s
    Owned p capacity head s' (lent.erase a) spare others made ∧
      Frame p s s' (arenaBlocks capacity (lent.erase a ++ spare) ++ others) := by
  obtain ⟨hframe, hheld, hdesc, hrecord⟩ := destroyArena_spec h.fits (h.held_cons ha)
  refine ⟨⟨?_, h.fits, hheld, ?_⟩, hframe⟩
  · have hleft : Owned p capacity head s (lent.erase a) spare (arenaBlock capacity a :: others)
        (arenaBlock capacity a :: made) :=
      ⟨h.lends.drop, h.fits, p.recorded.lawful.perm (h.held_cons ha) List.perm_middle.symm,
        (h.made_cons ha).trans List.perm_middle.symm⟩
    exact hleft.lends_of_frame (hframe.subset (List.subset_append_left _ _))
  · rw [hrecord]
    have herased := (h.made_cons ha).erase (arenaBlock capacity a)
    rw [List.erase_cons_head] at herased
    exact herased

/-- The link of a lent arena is written. -/
theorem setLink (h : Owned p capacity head s lent spare others made) (ha : a ∈ lent) (next : Nat) :
    Owned p capacity head (s.setNextFree p.recorded.toCalls a next) lent spare others made :=
  ⟨h.lends.setLink ha next, h.fits, p.recorded.lawful.holds_write _ h.held, h.made⟩

/-- A borrower writes into the buffer of a lent arena. -/
theorem write (h : Owned p capacity head s lent spare others made) (ha : a ∈ lent) {m : Bytes}
    (hin : (s.descriptors a).Confined (p.recorded.bytes s.heap) m) :
    Owned p capacity head (s.write p.recorded.toCalls m) lent spare others made ∧
      Frame p s (s.write p.recorded.toCalls m)
        (arenaBlocks capacity (lent.erase a ++ spare) ++ others) := by
  refine ⟨⟨h.lends.write ha hin, h.fits, p.recorded.lawful.holds_write _ h.held, h.made⟩,
    fun b hb => ?_, fun _ _ => rfl⟩
  have hapart := (List.pairwise_cons.mp (p.recorded.lawful.apart (h.held_cons ha))).1 b hb
  obtain ⟨hdata, hcap, -⟩ := h.lends.out a ha
  show Bytes.AgreeOn _ (p.recorded.bytes (p.recorded.write m s.heap)) _
  rw [p.recorded.lawful.bytes_write]
  refine hin.agreeOn ?_
  rw [Arena.region, hdata, hcap]
  exact hapart.within (buffer_within_block _ _) (Region.Within.refl _)

/-- A borrower makes a call on a lent arena. -/
theorem use (h : Owned p capacity head s lent spare others made) (ha : a ∈ lent) (host : Host)
    {c : Call} (kept : c ≠ .release) :
    Owned p capacity head (s.use p.recorded.toCalls host a c) lent spare others made ∧
      Frame p s (s.use p.recorded.toCalls host a c)
        (arenaBlocks capacity (lent.erase a ++ spare) ++ others) := by
  obtain ⟨-, -, -, hle⟩ := h.lends.out a ha
  obtain ⟨b, hb, -, hin⟩ := call_reuses host kept hle (p.recorded.bytes s.heap)
  have huse : s.use p.recorded.toCalls host a c = (s.write p.recorded.toCalls
      (Heap.call host ⟨.arena (s.descriptors a), p.recorded.bytes s.heap⟩ c).state.bytes).describe
        a b := by
    unfold Store.use
    simp only [hb]
    rfl
  have hlends := h.lends.use host kept ha
  obtain ⟨hwritten, hframe⟩ := h.write ha hin
  rw [huse] at hlends ⊢
  exact ⟨⟨hlends, h.fits, hwritten.held, h.made⟩, hframe.trans (hwritten.frame_describe ha b)⟩

/-- The stock is taken off the list. -/
theorem unshelve (h : Owned p capacity head s lent spare others made) :
    Owned p capacity 0 s (spare ++ lent) [] others made := by
  have hperm : (arenaBlocks capacity (lent ++ spare)).Perm
      (arenaBlocks capacity (spare ++ lent ++ [])) := by
    rw [List.append_nil]
    exact List.perm_append_comm.map _
  exact ⟨h.lends.unshelve, h.fits, p.recorded.lawful.perm h.held (hperm.append_right _),
    h.made.trans (hperm.append_right _)⟩

end Owned

theorem descriptors_of_frame {a : Nat} (hframe : Frame p s s' blocks)
    (ha : arenaBlock capacity a ∈ blocks) : s'.descriptors a = s.descriptors a :=
  hframe.descriptors _ ha

/-- The link of an arena whose block is left alone. -/
theorem nextFree_of_frame (hroom : 8 ≤ capacity) {a : Nat} (hframe : Frame p s s' blocks)
    (ha : arenaBlock capacity a ∈ blocks) (hempty : s.descriptors a = fresh (bufferAt a) capacity) :
    s'.nextFree p.recorded.toCalls a = s.nextFree p.recorded.toCalls a := by
  refine nextFree_congr (hframe.descriptors _ ha) ((hframe.kept _ ha).within ?_)
  rw [Store.linkSlot, hempty]
  exact link_within_block hroom a

/-- A list of lent arenas goes back to the host, each link read before its arena goes. -/
theorem destroyFreeList_spec {l : List Nat} {n front : Nat} (hn : l.length ≤ n)
    (h : Owned p capacity head s (l ++ lent) spare others made)
    (hchain : Walk (s.nextFree p.recorded.toCalls) front l)
    (hempty : ∀ a ∈ l, s.descriptors a = fresh (bufferAt a) capacity) :
    ∃ s', destroyFreeList p.recorded.toCalls capacity n front s = some s' ∧
      Owned p capacity head s' lent spare others made ∧
      Frame p s s' (arenaBlocks capacity (lent ++ spare) ++ others) := by
  induction l generalizing n front s with
  | nil =>
      cases hchain
      refine ⟨s, ?_, h, Frame.refl _ _ _⟩
      cases n <;> exact if_pos rfl
  | cons a l ih =>
      obtain ⟨n, rfl⟩ :=
        Nat.exists_eq_succ_of_ne_zero (show n ≠ 0 by rw [List.length_cons] at hn; omega)
      cases hchain with
      | cons hne hrest =>
          obtain ⟨hdestroyed, hframe⟩ := h.destroy List.mem_cons_self
          rw [List.cons_append, List.erase_cons_head] at hdestroyed hframe
          have hrest' := hrest.congr fun b hb => nextFree_of_frame h.lends.room hframe
            (mem_blocks hb) (hempty b (List.mem_cons_of_mem _ hb))
          obtain ⟨s', hs', howned, hframe'⟩ := ih (Nat.le_of_succ_le_succ hn) hdestroyed hrest'
            fun b hb => by
              rw [descriptors_of_frame hframe (mem_blocks hb)]
              exact hempty b (List.mem_cons_of_mem _ hb)
          refine ⟨s', ?_, howned, (hframe.subset (blocks_subset l)).trans hframe'⟩
          rw [destroyFreeList, if_neg hne]
          exact hs'

/-! ## Arenas built aside -/

/-- The arenas built aside form a list of their own, the first one made at its end. -/
structure Chain (p : Provider σ) (capacity : Nat) (s : Store (σ × List Block)) (aside : Aside)
    (l : List Nat) : Prop where
  linked : Walk (s.nextFree p.recorded.toCalls) aside.head l
  empty : ∀ a ∈ l, s.descriptors a = fresh (bufferAt a) capacity
  made : aside.made = l.length
  tail : aside.tail = l.getLast?.getD 0

theorem Chain.nil (p : Provider σ) (capacity : Nat) (s : Store (σ × List Block)) :
    Chain p capacity s ⟨0, 0, 0⟩ [] :=
  ⟨.nil, fun _ ha => absurd ha List.not_mem_nil, rfl, rfl⟩

/-- What leaves the blocks of the arenas alone leaves the list. -/
theorem Chain.frame {aside : Aside} {l : List Nat} (h : Chain p capacity s aside l)
    (hroom : 8 ≤ capacity) (hframe : Frame p s s' blocks)
    (hin : ∀ a ∈ l, arenaBlock capacity a ∈ blocks) : Chain p capacity s' aside l := by
  refine ⟨?_, fun a ha => ?_, h.made, h.tail⟩
  · exact h.linked.congr fun a ha => nextFree_of_frame hroom hframe (hin a ha) (h.empty a ha)
  · rw [descriptors_of_frame hframe (hin a ha)]
    exact h.empty a ha

theorem Chain.head_lt {aside : Aside} {l : List Nat} (hchain : Chain p capacity s aside l)
    (h : Owned p capacity head s (l ++ lent) spare others made) : aside.head < 256 ^ 8 := by
  by_cases hz : aside.head = 0
  · rw [hz]
    decide
  · obtain ⟨rest, rfl, -⟩ := hchain.linked.pop hz
    exact (h.lends.addr _ (List.mem_append_left _ List.mem_cons_self)).2

/-- The tail is set once, by the first arena. -/
theorem Chain.tail_cons {aside : Aside} {l : List Nat} (h : Chain p capacity s aside l)
    {a : Nat} :
    (if aside.tail = 0 then a else aside.tail) = (a :: l).getLast?.getD 0 := by
  rw [h.tail]
  cases l with
  | nil => rfl
  | cons b l =>
      have hlast : (b :: l).getLast?.getD 0 = (b :: l).getLast (List.cons_ne_nil _ _) := by
        rw [List.getLast?_eq_some_getLast (List.cons_ne_nil _ _)]
        rfl
      rw [List.getLast?_cons_cons, hlast, if_neg]
      exact h.linked.ne_zero (List.getLast_mem _)

/-- The loop of a reserve makes `n` arenas, or fewer where the host refuses. -/
theorem buildAside_spec {n : Nat} {aside : Aside} {l : List Nat}
    (h : Owned p capacity head s (l ++ lent) spare others made)
    (hchain : Chain p capacity s aside l) :
    let r := buildAside p.recorded.toCalls capacity n aside s
    ∃ l', Owned p capacity head r.2.2 (l' ++ lent) spare others made ∧
      Chain p capacity r.2.2 r.2.1 l' ∧
      Frame p s r.2.2 (arenaBlocks capacity (lent ++ spare) ++ others) ∧
      (r.1 = .success ∧ l'.length = l.length + n ∨
        r.1 ≠ .success ∧ l'.length < l.length + n) := by
  induction n generalizing aside l s with
  | zero => exact ⟨l, h, hchain, Frame.refl _ _ _, Or.inl ⟨rfl, rfl⟩⟩
  | succ n ih =>
      intro r
      obtain ⟨hframe, hcase⟩ := h.make
      rcases hcase with ⟨hz, howned⟩ | ⟨hne, howned, hfresh⟩
      · -- refused: what was made so far is handed back to the caller
        have hr : r = (.errorOutOfMemory, aside, (makeArena p.recorded.toCalls capacity s).2) :=
          if_pos hz
        rw [hr]
        refine ⟨l, howned, ?_, hframe.subset (blocks_subset l), ?_⟩
        · exact hchain.frame h.lends.room hframe fun b hb => mem_blocks hb
        · exact Or.inr ⟨(fun hok => nomatch hok), Nat.lt_add_of_pos_right (Nat.succ_pos n)⟩
      · have hr : r = buildAside p.recorded.toCalls capacity n _ _ := if_neg hne
        generalize makeArena p.recorded.toCalls capacity s = arena at hframe hne howned hfresh hr
        have hlink := howned.frame_setNextFree List.mem_cons_self aside.head
        rw [List.erase_cons_head] at hlink
        have hboth := hframe.trans hlink
        have hlinked :
            Owned p capacity head (arena.2.setNextFree p.recorded.toCalls arena.1 aside.head)
            (arena.1 :: l ++ lent) spare others made :=
          howned.setLink List.mem_cons_self aside.head
        have hnext : Chain p capacity (arena.2.setNextFree p.recorded.toCalls arena.1 aside.head)
            ⟨arena.1, if aside.tail = 0 then arena.1 else aside.tail, aside.made + 1⟩
            (arena.1 :: l) := by
          have hkept := hchain.frame h.lends.room hboth fun b hb => mem_blocks hb
          refine ⟨.cons hne ?_, fun b hb => ?_, ?_, hchain.tail_cons⟩
          · rw [nextFree_setNextFree _ _ _ (hchain.head_lt h)]
            exact hkept.linked
          · rcases List.mem_cons.mp hb with rfl | hb
            · exact hfresh
            · exact hkept.empty b hb
          · rw [List.length_cons, hchain.made]
        obtain ⟨l', howned', hchain', hframe', hlength⟩ := ih hlinked hnext
        rw [← hr] at howned' hchain' hframe' hlength
        rw [List.length_cons] at hlength
        refine ⟨l', howned', hchain', (hboth.subset (blocks_subset l)).trans hframe', ?_⟩
        exact hlength.imp (And.imp_right fun h => by omega) (And.imp_right fun h => by omega)

/-- The arenas built aside are hung in front of the stock. -/
theorem Owned.hang {aside : Aside} {l : List Nat}
    (h : Owned p capacity head s (l ++ lent) spare others made)
    (hchain : Chain p capacity s aside l) (hne : l ≠ []) :
    let s' := s.setNextFree p.recorded.toCalls aside.tail head
    Owned p capacity aside.head s' lent (l ++ spare) others made ∧
      Frame p s s' (arenaBlocks capacity (lent ++ spare) ++ others) := by
  -- the tail is the last arena of the list
  obtain ⟨front, a, rfl⟩ : ∃ front a, l = front ++ [a] :=
    ⟨l.dropLast, l.getLast hne, (List.dropLast_append_getLast hne).symm⟩
  have htail : aside.tail = a := by
    rw [hchain.tail, List.getLast?_append]
    rfl
  rw [htail]
  have hmid : front ++ [a] ++ lent = front ++ a :: lent := by
    rw [List.append_assoc, List.singleton_append]
  have hmid' : front ++ [a] ++ spare = front ++ a :: spare := by
    rw [List.append_assoc, List.singleton_append]
  have hlends : Lends p.recorded s bufferAt capacity head (front ++ a :: lent) spare :=
    hmid ▸ h.lends
  have hperm : (arenaBlocks capacity (front ++ [a] ++ lent ++ spare)).Perm
      (arenaBlocks capacity (lent ++ (front ++ [a] ++ spare))) := by
    rw [List.append_assoc _ lent spare]
    exact List.perm_append_comm_assoc _ _ _ |>.map _
  refine ⟨⟨hmid' ▸ hlends.hang hchain.linked hchain.empty, h.fits, ?_, ?_⟩, ?_⟩
  · exact p.recorded.lawful.holds_write _
      (p.recorded.lawful.perm h.held (hperm.append_right _))
  · exact h.made.trans (hperm.append_right _)
  · have ha : a ∈ front ++ [a] ++ lent :=
      List.mem_append_left _ (List.mem_append_right _ List.mem_cons_self)
    refine (h.frame_setNextFree ha head).subset ?_
    -- the arena with the link is none of those lent or in stock
    have hnodup := (List.nodup_append.mp h.lends.nodup).1
    intro b hb
    rcases List.mem_append.mp hb with hb | hb
    · obtain ⟨c, hc, rfl⟩ := List.mem_map.mp hb
      refine List.mem_append_left _ (mem_arenaBlocks ?_)
      rcases List.mem_append.mp hc with hc | hc
      · refine List.mem_append_left _ ((hnodup.mem_erase_iff).mpr ⟨?_, List.mem_append_right _ hc⟩)
        rintro rfl
        exact (List.nodup_append.mp hnodup).2.2 _ (List.mem_append_right _ List.mem_cons_self) _ hc
          rfl
      · exact List.mem_append_right _ hc
    · exact List.mem_append_right _ hb

end Arnm.ArenaPool.Dynamic
