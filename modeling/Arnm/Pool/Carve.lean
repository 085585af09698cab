import Arnm.Memory.Client
import Arnm.Pool.Graded

set_option autoImplicit false

/-! # How a pool lays out its blocks

Two halves of what holds of a pool. `Laid` is about places: the blocks lie in the arenas taken
from the chain, apart from each other and from the uncut rest of the current arena. `Listed` is
about the links in the free blocks: for each grade they string together the free blocks of that
grade. Cutting a block, taking the next arena, putting a block on a list and taking one off keep
both. -/

namespace Arnm.Pool

open Arnm.Memory

/-- A block of the pool with its grade. -/
structure PoolBlock where
  addr : Nat
  log2 : Nat
  deriving DecidableEq, Repr

/-- The bytes of the block. -/
def PoolBlock.room (b : PoolBlock) : Region := ⟨b.addr, 2 ^ b.log2⟩

/-- The blocks taken from the chain: whole arenas. -/
def takenBlocks (capacity : Nat) (taken : List Nat) : List Block :=
  taken.map fun base => ⟨base, capacity⟩

/-- The uncut rest of the current arena. -/
def GradedBlockPool.rest (pool : GradedBlockPool) : List Region :=
  match pool.current with
  | some a => [⟨a.data + a.lastIndex, a.remainingBytes⟩]
  | none => []

/-- The current arena is the youngest one taken, cut up to a multiple of the smallest grade. -/
def OnYoungest (pool : GradedBlockPool) : List Nat → Prop
  | [] => pool.current = none
  | base :: _ => ∃ a, pool.current = some a ∧ a.data = base ∧ a.capacity = pool.arenaCapacity ∧
      a.lastIndex ≤ a.capacity ∧ 2 ^ pool.minLog2 ∣ a.lastIndex

/-- The places of a pool's blocks. -/
structure Laid (pool : GradedBlockPool) (taken : List Nat) (blocks : List PoolBlock) : Prop where
  min_le : 3 ≤ pool.minLog2
  le_max : pool.minLog2 ≤ pool.maxLog2
  max_le : pool.maxLog2 ≤ 31
  capacity_dvd : 8 ∣ pool.arenaCapacity
  capacity_le : pool.arenaCapacity ≤ maxAllocSize
  le_capacity : 2 ^ pool.maxLog2 ≤ pool.arenaCapacity
  source : ∃ m, pool.source = some (.multiArena m) ∧
    Sound m.arenas (takenBlocks pool.arenaCapacity taken)
  current : OnYoungest pool taken
  grade : ∀ b ∈ blocks, pool.minLog2 ≤ b.log2 ∧ b.log2 ≤ pool.maxLog2
  addr_dvd : ∀ b ∈ blocks, 8 ∣ b.addr
  within : ∀ b ∈ blocks, ∃ base ∈ taken, b.room.Within ⟨base, pool.arenaCapacity⟩
  apart : Region.AllApart (pool.rest ++ blocks.map PoolBlock.room)

theorem eight_dvd_two_pow {n : Nat} (h : 3 ≤ n) : 8 ∣ 2 ^ n := by
  have h8 : (2 : Nat) ^ 3 ∣ 2 ^ n := pow_dvd_pow 2 h
  simpa using h8

theorem eight_le_two_pow {n : Nat} (h : 3 ≤ n) : 8 ≤ 2 ^ n :=
  Nat.le_of_dvd (Nat.two_pow_pos n) (eight_dvd_two_pow h)

theorem two_pow_le_maxAllocSize {n : Nat} (h : n ≤ 31) : 2 ^ n ≤ maxAllocSize := by
  calc 2 ^ n ≤ 2 ^ 31 := Nat.pow_le_pow_right (by decide) h
    _ ≤ maxAllocSize := by decide

namespace Laid

variable {pool : GradedBlockPool} {taken : List Nat} {blocks : List PoolBlock}

theorem perm {blocks' : List PoolBlock} (h : Laid pool taken blocks) (hp : blocks.Perm blocks') :
    Laid pool taken blocks' :=
  { h with
    grade := fun b hb => h.grade b (hp.mem_iff.mpr hb)
    addr_dvd := fun b hb => h.addr_dvd b (hp.mem_iff.mpr hb)
    within := fun b hb => h.within b (hp.mem_iff.mpr hb)
    apart := h.apart.perm ((hp.map _).append_left _) }

/-- The places do not depend on the lists and the counters. -/
theorem recount (h : Laid pool taken blocks) (freeHead : Nat → Nat) (lent cached : Nat) :
    Laid { pool with freeHead := freeHead, lentBytes := lent, cachedBytes := cached }
      taken blocks :=
  ⟨h.min_le, h.le_max, h.max_le, h.capacity_dvd, h.capacity_le, h.le_capacity, h.source,
    h.current, h.grade, h.addr_dvd, h.within, h.apart⟩

theorem capacity_ne (h : Laid pool taken blocks) : pool.arenaCapacity ≠ 0 := by
  have := Nat.two_pow_pos pool.maxLog2
  have := h.le_capacity
  omega

/-- An arena has room for a block of any grade. -/
theorem two_pow_le_capacity (h : Laid pool taken blocks) {log2 : Nat}
    (hmax : log2 ≤ pool.maxLog2) : 2 ^ log2 ≤ pool.arenaCapacity := by
  calc 2 ^ log2 ≤ 2 ^ pool.maxLog2 := Nat.pow_le_pow_right (by decide) hmax
    _ ≤ pool.arenaCapacity := h.le_capacity

theorem align_capacity (h : Laid pool taken blocks) :
    align8U32 pool.arenaCapacity = pool.arenaCapacity :=
  align8U32_of_dvd h.capacity_dvd h.capacity_le

/-- The bytes of an arena taken from the chain lie in one of the chain's arenas. -/
theorem base_within (h : Laid pool taken blocks) {m : MultiArena}
    (hm : Sound m.arenas (takenBlocks pool.arenaCapacity taken)) {base : Nat}
    (hb : base ∈ taken) :
    8 ∣ base ∧ base ≠ 0 ∧ base + pool.arenaCapacity ≤ 2 ^ 64 ∧
      ∃ (i : Nat) (a : Arena), m.arenas[i]? = some a ∧
        Region.Within ⟨base, pool.arenaCapacity⟩ a.used := by
  have hmem : ⟨base, pool.arenaCapacity⟩ ∈ takenBlocks pool.arenaCapacity taken :=
    List.mem_map.mpr ⟨base, hb, rfl⟩
  obtain ⟨i, a, hi, hin⟩ := hm.within _ hmem
  have hs := hm.arena a (List.mem_of_getElem? hi)
  rw [Block.room, h.align_capacity] at hin
  have hhi : base + pool.arenaCapacity ≤ a.data + a.lastIndex := hin.2
  have := hs.index_le
  have := hs.stop_le
  exact ⟨hm.addr_dvd _ hmem, hm.addr_ne hmem, by omega, i, a, hi, hin⟩

/-- Where a block can be. -/
theorem addr_bounds (h : Laid pool taken blocks) {b : PoolBlock} (hb : b ∈ blocks) :
    b.addr ≠ 0 ∧ b.addr < 256 ^ 8 := by
  obtain ⟨m, -, hm⟩ := h.source
  obtain ⟨base, hbase, hlo, hhi⟩ := h.within b hb
  obtain ⟨-, hne, hstop, -⟩ := h.base_within hm hbase
  have hpos := Nat.two_pow_pos b.log2
  simp only [PoolBlock.room, Region.stop_mk] at hlo hhi
  omega

/-- The link of a block lies within it. -/
theorem link_within (h : Laid pool taken blocks) {b : PoolBlock} (hb : b ∈ blocks) :
    (Linked.link b.addr).Within b.room := by
  have hle := eight_le_two_pow (Nat.le_trans h.min_le (h.grade b hb).1)
  exact ⟨Nat.le_refl _, by simp only [Linked.link, PoolBlock.room, Region.stop_mk]; omega⟩

/-- The first block lies apart from the others. -/
theorem head_apart {x : PoolBlock} (h : Laid pool taken (x :: blocks)) {b : PoolBlock}
    (hb : b ∈ blocks) : x.room.Apart b.room := by
  have hall := (List.pairwise_append.mp h.apart).2.1
  exact (List.pairwise_cons.mp hall).1 _ (List.mem_map_of_mem hb)

/-- A block is cut from the current arena. -/
theorem cut (h : Laid pool taken blocks) {a : Arena} {log2 : Nat} (ha : pool.current = some a)
    (hmin : pool.minLog2 ≤ log2) (hmax : log2 ≤ pool.maxLog2)
    (hroom : 2 ^ log2 ≤ a.remainingBytes) :
    Laid { pool with current := some (a.bump (2 ^ log2)) } taken
      (⟨a.data + a.lastIndex, log2⟩ :: blocks) := by
  obtain ⟨m, -, hm⟩ := h.source
  have hcur := h.current
  cases taken with
  | nil =>
      rw [OnYoungest, ha] at hcur
      cases hcur
  | cons base older =>
      obtain ⟨a', ha', hdata, hcap, hle, hdvd⟩ := hcur
      rw [ha, Option.some.injEq] at ha'
      subst ha'
      obtain ⟨hbase, -, -, -⟩ := h.base_within hm List.mem_cons_self
      have hsmall : 2 ^ pool.minLog2 ∣ 2 ^ log2 := pow_dvd_pow 2 hmin
      unfold Arena.remainingBytes at hroom
      refine { h with current := ?_, grade := ?_, addr_dvd := ?_, within := ?_, apart := ?_ }
      · refine ⟨_, rfl, hdata, hcap, ?_, (Nat.dvd_add_right hdvd).mpr hsmall⟩
        simp only [Arena.bump_lastIndex, Arena.bump_capacity]
        omega
      · intro b hb
        rcases List.mem_cons.mp hb with rfl | hb
        · exact ⟨hmin, hmax⟩
        · exact h.grade b hb
      · intro b hb
        rcases List.mem_cons.mp hb with rfl | hb
        · rw [hdata]
          exact (Nat.dvd_add_right hbase).mpr
            (Nat.dvd_trans (eight_dvd_two_pow h.min_le) hdvd)
        · exact h.addr_dvd b hb
      · intro b hb
        rcases List.mem_cons.mp hb with rfl | hb
        · refine ⟨base, List.mem_cons_self, ?_⟩
          simp only [Region.Within, PoolBlock.room, Region.stop_mk]
          omega
        · exact h.within b hb
      · have hrest : pool.rest =
            [⟨a.data + a.lastIndex, 2 ^ log2 + (a.bump (2 ^ log2)).remainingBytes⟩] := by
          simp only [GradedBlockPool.rest, ha, Arena.remainingBytes, Arena.bump_lastIndex,
            Arena.bump_capacity, List.cons.injEq, Region.mk.injEq, true_and, and_true]
          omega
        -- the piece is the front of the rest, which lay apart from every block
        have hcut := h.apart
        rw [hrest] at hcut
        refine (Region.AllApart.cut hcut).perm ?_
        have hnew : GradedBlockPool.rest { pool with current := some (a.bump (2 ^ log2)) } =
            [⟨a.data + a.lastIndex + 2 ^ log2, (a.bump (2 ^ log2)).remainingBytes⟩] := by
          simp only [GradedBlockPool.rest, Arena.bump_data, Arena.bump_lastIndex, Nat.add_assoc]
        rw [hnew]
        exact List.Perm.swap _ _ _

/-- The chain hands out what it has; what was taken before stays. -/
theorem withSource (h : Laid pool taken blocks) {m : MultiArena}
    (hm : Sound m.arenas (takenBlocks pool.arenaCapacity taken)) :
    Laid { pool with source := some (.multiArena m) } taken blocks :=
  { h with source := ⟨m, rfl, hm⟩ }

/-- The next arena is taken from the chain whole. -/
theorem next (h : Laid pool taken blocks) {m : MultiArena} {base : Nat}
    (hsource : pool.source = some (.multiArena m))
    (hm : Sound m.arenas (takenBlocks pool.arenaCapacity (base :: taken))) :
    Laid { pool with current := some ⟨base, 0, pool.arenaCapacity, 0, .external⟩ }
      (base :: taken) blocks :=
  { h with
    source := ⟨m, hsource, hm⟩
    current := ⟨_, rfl, rfl, rfl, Nat.zero_le _, Nat.dvd_zero _⟩
    within := fun b hb =>
      have ⟨older, holder, hin⟩ := h.within b hb
      ⟨older, List.mem_cons_of_mem _ holder, hin⟩
    apart := by
      refine Region.allApart_cons.mpr ⟨fun r hr => ?_, (List.pairwise_append.mp h.apart).2.1⟩
      obtain ⟨b, hb, rfl⟩ := List.mem_map.mp hr
      obtain ⟨older, holder, hin⟩ := h.within b hb
      have hapart := (List.pairwise_cons.mp hm.heldApart).1 ⟨older, pool.arenaCapacity⟩
        (List.mem_map.mpr ⟨older, holder, rfl⟩)
      rw [Block.room, Block.room, h.align_capacity] at hapart
      refine hapart.within ⟨Nat.le_refl _, ?_⟩ hin
      simp [Arena.remainingBytes] }

end Laid

/-! ## The free lists -/

/-- For each grade the links string together the free blocks of the grade. -/
def Listed (minLog2 : Nat) (freeHead : Nat → Nat) (bytes : Bytes)
    (cached : List PoolBlock) : Prop :=
  ∀ i, Linked bytes (freeHead i)
    ((cached.filter fun b => b.log2 = minLog2 + i).map PoolBlock.addr)

namespace Listed

variable {minLog2 : Nat} {freeHead : Nat → Nat} {bytes : Bytes} {cached : List PoolBlock}

/-- The lists do not notice what is written apart from the links of the free blocks. -/
theorem congr {bytes' : Bytes} (h : Listed minLog2 freeHead bytes cached)
    (hag : ∀ b ∈ cached, Bytes.AgreeOn bytes bytes' (Linked.link b.addr)) :
    Listed minLog2 freeHead bytes' cached := by
  intro i
  refine (h i).congr fun a ha => ?_
  obtain ⟨b, hb, rfl⟩ := List.mem_map.mp ha
  exact hag b (List.mem_filter.mp hb).1

/-- The head of a list is no address past the memory. -/
theorem head_lt (h : Listed minLog2 freeHead bytes cached)
    (hlt : ∀ b ∈ cached, b.addr < 256 ^ 8) (i : Nat) :
    freeHead i < 256 ^ 8 := by
  by_cases hz : freeHead i = 0
  · rw [hz]
    norm_num
  · obtain ⟨rest, hlist, -⟩ := (h i).pop hz
    have hmem : freeHead i ∈
        (cached.filter fun b => b.log2 = minLog2 + i).map PoolBlock.addr :=
      hlist ▸ List.mem_cons_self
    obtain ⟨b, hb, haddr⟩ := List.mem_map.mp hmem
    exact haddr ▸ hlt b (List.mem_filter.mp hb).1

/-- A block goes onto the list of its grade. -/
theorem push {x : PoolBlock} (h : Listed minLog2 freeHead bytes cached) (hne : x.addr ≠ 0)
    (hmin : minLog2 ≤ x.log2) (hlt : ∀ b ∈ cached, b.addr < 256 ^ 8)
    (hapart : ∀ b ∈ cached, (Linked.link x.addr).Apart (Linked.link b.addr)) :
    Listed minLog2 (Function.update freeHead (x.log2 - minLog2) x.addr)
      (bytes.store x.addr 8 (freeHead (x.log2 - minLog2))) (x :: cached) := by
  intro i
  by_cases hi : i = x.log2 - minLog2
  · subst hi
    have hgrade : x.log2 = minLog2 + (x.log2 - minLog2) := by omega
    rw [Function.update_self, List.filter_cons_of_pos (by simpa using hgrade), List.map_cons]
    refine (h _).push hne (h.head_lt hlt _) fun a ha => ?_
    obtain ⟨b, hb, rfl⟩ := List.mem_map.mp ha
    exact hapart b (List.mem_filter.mp hb).1
  · have hgrade : ¬ x.log2 = minLog2 + i := by omega
    rw [Function.update_of_ne hi, List.filter_cons_of_neg (by simpa using hgrade)]
    exact h.congr (fun b hb => Bytes.store_agreeOn (hapart b hb)) i

/-- The head of a list is a free block of the grade, and comes off it. -/
theorem pop {log2 : Nat} (h : Listed minLog2 freeHead bytes cached) (hmin : minLog2 ≤ log2)
    (hne : freeHead (log2 - minLog2) ≠ 0) :
    ⟨freeHead (log2 - minLog2), log2⟩ ∈ cached ∧
      Listed minLog2
        (Function.update freeHead (log2 - minLog2)
          (bytes.load (freeHead (log2 - minLog2)) 8))
        bytes (cached.erase ⟨freeHead (log2 - minLog2), log2⟩) := by
  obtain ⟨rest, hlist, hrest⟩ := (h (log2 - minLog2)).pop hne
  obtain ⟨x, xs, hfilter, haddr, htail⟩ := List.map_eq_cons_iff.mp hlist
  have hx : x ∈ cached.filter fun b => b.log2 = minLog2 + (log2 - minLog2) :=
    hfilter ▸ List.mem_cons_self
  obtain ⟨hmem, hgrade⟩ := List.mem_filter.mp hx
  have hlog2 : x.log2 = log2 := by
    have := of_decide_eq_true hgrade
    omega
  have hxe : x = ⟨freeHead (log2 - minLog2), log2⟩ := by
    rw [← haddr, ← hlog2]
  refine ⟨hxe ▸ hmem, fun i => ?_⟩
  rw [← hxe, ← List.erase_filter]
  by_cases hi : i = log2 - minLog2
  · subst hi
    rw [Function.update_self, hfilter, List.erase_cons_head, htail]
    exact hrest
  · rw [Function.update_of_ne hi, List.erase_of_not_mem]
    · exact h i
    · intro hin
      have := of_decide_eq_true (List.mem_filter.mp hin).2
      omega

end Listed

end Arnm.Pool
