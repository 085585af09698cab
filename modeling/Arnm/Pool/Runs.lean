import Arnm.Pool.Steps

set_option autoImplicit false

/-! # Runs of a pool's client

The states of a pool under a client that gives back only blocks it holds, by a size or an exponent
of the block's grade, and writes only into them. The ledger holds in all of them. -/

namespace Arnm.Pool

open Arnm.Memory

/-- A pool with its memory, and the blocks held from it. -/
structure State where
  heap : PoolHeap
  held : List PoolBlock

/-- The grade of a size; `0` for a size the pool refuses. -/
def sizeGrade (pool : GradedBlockPool) (size : Nat) : Nat := (sizeToLog2 pool size).toOption.getD 0

/-- The client holds the block and passes a size of its grade. -/
def HoldsSize (s : State) (buffer size : Nat) : Prop :=
  ∃ log2, sizeToLog2 s.heap.pool size = .ok log2 ∧ ⟨buffer, log2⟩ ∈ s.held

/-- The client gives back only blocks it holds, or none. -/
def Honest (s : State) : Call → Prop
  | .free buffer size => buffer = 0 ∨ HoldsSize s buffer size
  | .freeLog2 buffer log2 => buffer = 0 ∨ ⟨buffer, gradeOf s.heap.pool log2⟩ ∈ s.held
  | .realloc buffer oldSize _ => buffer = 0 ∨ HoldsSize s buffer oldSize
  | _ => True

/-- The blocks the client holds after a call was answered. -/
def ledger (s : State) (r : Answer PoolHeap) : Call → List PoolBlock
  | .alloc size =>
    if r.result = .success then ⟨r.buffer, sizeGrade s.heap.pool size⟩ :: s.held else s.held
  | .allocLog2 log2 =>
    if r.result = .success then ⟨r.buffer, gradeOf s.heap.pool log2⟩ :: s.held else s.held
  | .free buffer size =>
    if r.result = .success then s.held.erase ⟨buffer, sizeGrade s.heap.pool size⟩ else s.held
  | .freeLog2 buffer log2 =>
    if r.result = .success then s.held.erase ⟨buffer, gradeOf s.heap.pool log2⟩ else s.held
  | .realloc buffer oldSize newSize =>
    if r.result.isError then s.held
    else ⟨r.buffer, sizeGrade s.heap.pool newSize⟩ ::
      s.held.erase ⟨buffer, sizeGrade s.heap.pool oldSize⟩
  | .reset => []

/-- The state after a call. -/
def State.call (host : Host) (s : State) (c : Call) : State :=
  { heap := (s.heap.call host c).state, held := ledger s (s.heap.call host c) c }

/-- The states of a pool: it is set up with options it accepts, then its client calls it and
writes into the blocks it holds. The host may refuse whenever it is asked. -/
inductive Reachable : State → Prop where
  | init (host : Host) (options : PoolOptions) (pool : GradedBlockPool) (bytes : Bytes)
      (made : poolInit host options = .ok pool) : Reachable ⟨⟨pool, bytes, []⟩, []⟩
  | call (host : Host) (s : State) (c : Call) (reached : Reachable s)
      (fresh : PoolFresh host s.heap) (honest : Honest s c) : Reachable (s.call host c)
  | write (s : State) (bytes : Bytes) (reached : Reachable s)
      (inside : ∀ x, (∀ b ∈ s.held, ¬ b.room.Has x) → bytes x = s.heap.bytes x) :
      Reachable { s with heap := { s.heap with bytes := bytes } }

/-! ## A new pool -/

/-- Options a pool accepts name grades from 2^3 to 2^31 and an arena of at least one block. -/
theorem poolOptionsValidate_success {options o : PoolOptions}
    (h : poolOptionsValidate options = (.success, o)) :
    3 ≤ o.minBlockLog2 ∧ o.minBlockLog2 ≤ o.maxBlockLog2 ∧ o.maxBlockLog2 ≤ 31 ∧
      o.allocArenaCapacity ≠ 0 := by
  unfold poolOptionsValidate at h
  simp only at h
  generalize (if options.minBlockLog2 = 0 then poolDefaultMinLog2 else options.minBlockLog2) = a
    at h
  generalize (if options.maxBlockLog2 = 0 then poolDefaultMaxLog2 else options.maxBlockLog2) = b
    at h
  split at h
  · cases h
  · rename_i hok
    rw [Prod.mk.injEq] at h
    obtain ⟨-, rfl⟩ := h
    simp only [poolMinLog2, poolMaxLog2, not_or] at hok ⊢
    refine ⟨by omega, by omega, by omega, ?_⟩
    unfold poolDefaultAllocArenaCapacity
    split <;> omega

/-- A chain resolves its options and starts with no arena. -/
theorem createMultiArena_some {host : Host} {options : MultiArenaOptions} {m : MultiArena}
    (h : createMultiArena host options = some m) : m.arenas = [] := by
  unfold createMultiArena at h
  split at h
  · cases h
    rfl
  · cases h

theorem multiArenaOptionsValidate_capacity {options : MultiArenaOptions}
    (hne : options.arenaCapacity ≠ 0) (hdvd : 8 ∣ options.arenaCapacity)
    (hle : options.arenaCapacity ≤ maxAllocSize) :
    (multiArenaOptionsValidate options).2.arenaCapacity = options.arenaCapacity := by
  have halign := align8U32_of_dvd hdvd hle
  have hkept : (multiArenaOptionsValidate options).2.arenaCapacity =
      align8U32 options.fillInDefaults.arenaCapacity := by
    unfold multiArenaOptionsValidate
    simp only
    split
    · rfl
    · split
      · rfl
      · split <;> rfl
  rw [hkept, MultiArenaOptions.fillInDefaults, if_neg hne, halign]

/-- A new pool has no blocks. -/
theorem poolInit_ledger {host : Host} {options : PoolOptions} {pool : GradedBlockPool}
    (made : poolInit host options = .ok pool) (bytes : Bytes) :
    Ledger ⟨pool, bytes, []⟩ [] [] := by
  unfold poolInit at made
  split at made
  · rename_i o hvalid
    obtain ⟨hmin, hle, hmax, hcount⟩ := poolOptionsValidate_success hvalid
    simp only at made
    split at made
    · cases made
    · rename_i chain hchain
      rw [Except.ok.injEq] at made
      subst made
      have hdvd : 8 ∣ 2 ^ o.maxBlockLog2 := eight_dvd_two_pow (by omega)
      have hpow : 2 ^ o.maxBlockLog2 ≤ 2 ^ 31 := Nat.pow_le_pow_right (by norm_num) hmax
      have hone : 2 ^ o.maxBlockLog2 ≤ 2 ^ o.maxBlockLog2 * o.allocArenaCapacity :=
        Nat.le_mul_of_pos_right _ (Nat.pos_of_ne_zero hcount)
      have hpos := Nat.two_pow_pos o.maxBlockLog2
      have hmul : 8 ∣ 2 ^ o.maxBlockLog2 * o.allocArenaCapacity := Dvd.dvd.mul_right hdvd _
      generalize hcapacity : (if maxAllocSize < 2 ^ o.maxBlockLog2 * o.allocArenaCapacity then
        maxAllocSize else 2 ^ o.maxBlockLog2 * o.allocArenaCapacity) = capacity
      -- capped or not, an arena has room for a block of the largest grade
      have hcap : 8 ∣ capacity ∧ capacity ≤ maxAllocSize ∧ 2 ^ o.maxBlockLog2 ≤ capacity := by
        rw [← hcapacity]
        split
        · exact ⟨by decide, Nat.le_refl _, Nat.le_trans hpow (by decide)⟩
        · exact ⟨hmul, by omega, hone⟩
      rw [multiArenaOptionsValidate_capacity (by simp only; omega) hcap.1 hcap.2.1]
      refine ⟨⟨hmin, hle, hmax, hcap.1, hcap.2.1, hcap.2.2, ⟨chain, rfl, ?_⟩, rfl, ?_, ?_, ?_, ?_⟩,
        fun i => Linked.nil, rfl, rfl, ?_⟩
      · rw [createMultiArena_some hchain]
        exact sound_nil
      · exact fun b hb => absurd hb List.not_mem_nil
      · exact fun b hb => absurd hb List.not_mem_nil
      · exact fun b hb => absurd hb List.not_mem_nil
      · exact List.Pairwise.nil
      · simp [GradedBlockPool.remaining]
  · cases made

/-! ## Runs -/

theorem sizeGrade_of_ok {pool : GradedBlockPool} {size log2 : Nat}
    (h : sizeToLog2 pool size = .ok log2) : sizeGrade pool size = log2 := by
  rw [sizeGrade, h]
  rfl

/-- No block is held at the null address. -/
theorem Ledger.erase_null {h : PoolHeap} {lent cached : List PoolBlock} (hl : Ledger h lent cached)
    (log2 : Nat) : lent.erase ⟨0, log2⟩ = lent :=
  List.erase_of_not_mem fun hb => (hl.laid.addr_bounds (List.mem_append_left cached hb)).1 rfl

/-- One call of an honest client keeps a ledger. -/
theorem call_ledger {host : Host} {s : State} (c : Call) {cached : List PoolBlock}
    (hl : Ledger s.heap s.held cached) (hfresh : PoolFresh host s.heap) (honest : Honest s c) :
    ∃ cached', Ledger (s.call host c).heap (s.call host c).held cached' := by
  cases c with
  | alloc size =>
      show ∃ cached', Ledger (alloc host 0 size s.heap).state
        (if (alloc host 0 size s.heap).result = .success then
          ⟨(alloc host 0 size s.heap).buffer, sizeGrade s.heap.pool size⟩ :: s.held
          else s.held) cached'
      rcases hl.alloc hfresh 0 size with ⟨herr, -, hl'⟩ | ⟨hok, -, log2, hsize, hl'⟩
      · rw [if_neg (Result.ne_success_of_isError herr)]
        exact ⟨cached, hl'⟩
      · rw [if_pos hok, sizeGrade_of_ok hsize]
        exact hl'
  | allocLog2 log2 =>
      show ∃ cached', Ledger (allocLog2 host 0 log2 s.heap).state
        (if (allocLog2 host 0 log2 s.heap).result = .success then
          ⟨(allocLog2 host 0 log2 s.heap).buffer, gradeOf s.heap.pool log2⟩ :: s.held
          else s.held) cached'
      rcases hl.allocLog2 hfresh 0 log2 with ⟨herr, -, hl'⟩ | ⟨hok, -, hl'⟩
      · rw [if_neg (Result.ne_success_of_isError herr)]
        exact ⟨cached, hl'⟩
      · rw [if_pos hok]
        exact hl'
  | free buffer size =>
      show ∃ cached', Ledger (free buffer size s.heap).2
        (if (free buffer size s.heap).1 = .success then
          s.held.erase ⟨buffer, sizeGrade s.heap.pool size⟩ else s.held) cached'
      rcases honest with rfl | ⟨log2, hsize, hb⟩
      · have hnone : free 0 size s.heap = (.success, s.heap) := if_pos rfl
        rw [hnone, if_pos rfl, hl.erase_null]
        exact ⟨cached, hl⟩
      · obtain ⟨hok, -, hl'⟩ := hl.free hsize hb
        rw [if_pos hok, sizeGrade_of_ok hsize]
        exact ⟨_, hl'⟩
  | freeLog2 buffer log2 =>
      show ∃ cached', Ledger (freeLog2 buffer log2 s.heap).2
        (if (freeLog2 buffer log2 s.heap).1 = .success then
          s.held.erase ⟨buffer, gradeOf s.heap.pool log2⟩ else s.held) cached'
      rcases honest with rfl | hb
      · have hnone : freeLog2 0 log2 s.heap = (.success, s.heap) := if_pos rfl
        rw [hnone, if_pos rfl, hl.erase_null]
        exact ⟨cached, hl⟩
      · obtain ⟨hok, -, hl'⟩ := hl.freeLog2 hb
        rw [if_pos hok]
        exact ⟨_, hl'⟩
  | realloc buffer oldSize newSize =>
      show ∃ cached', Ledger (realloc host buffer oldSize newSize s.heap).state
        (if (realloc host buffer oldSize newSize s.heap).result.isError then s.held
          else ⟨(realloc host buffer oldSize newSize s.heap).buffer,
              sizeGrade s.heap.pool newSize⟩ ::
            s.held.erase ⟨buffer, sizeGrade s.heap.pool oldSize⟩) cached'
      have hold : buffer ≠ 0 →
          sizeToLog2 s.heap.pool oldSize = .ok (sizeGrade s.heap.pool oldSize) ∧
            ⟨buffer, sizeGrade s.heap.pool oldSize⟩ ∈ s.held := by
        intro hz
        obtain ⟨log2, hsize, hb⟩ := honest.resolve_left hz
        rw [sizeGrade_of_ok hsize]
        exact ⟨hsize, hb⟩
      rcases hl.realloc hfresh hold with ⟨herr, hl'⟩ | ⟨hok, log2, hsize, hl'⟩
      · rw [if_pos herr]
        exact ⟨cached, hl'⟩
      · rw [if_neg (by rw [hok]; decide), sizeGrade_of_ok hsize]
        by_cases hz : buffer = 0
        · subst hz
          rw [hl.erase_null]
          rw [if_pos rfl] at hl'
          exact hl'
        · rw [if_neg hz] at hl'
          exact hl'
  | reset => exact ⟨[], hl.reset⟩

/-- Every state of a run has a ledger. -/
theorem Reachable.ledger {s : State} (hr : Reachable s) :
    ∃ cached, Ledger s.heap s.held cached := by
  induction hr with
  | init host options pool bytes made => exact ⟨[], poolInit_ledger made bytes⟩
  | call host s c _ fresh honest ih =>
      obtain ⟨cached, hl⟩ := ih
      exact call_ledger c hl fresh honest
  | write s bytes _ inside ih =>
      obtain ⟨cached, hl⟩ := ih
      exact ⟨cached, hl.write bytes inside⟩

/-- Each free list holds the addresses of the free blocks of its grade. -/
def ListsHold (h : PoolHeap) (cached : List PoolBlock) : Prop :=
  ∀ i, Linked h.bytes (h.pool.freeHead i)
    ((cached.filter fun b => b.log2 = h.pool.minLog2 + i).map PoolBlock.addr)

/-- A block of the pool lies in exactly one arena of the chain. -/
theorem Laid.in_one_arena {pool : GradedBlockPool} {taken : List Nat} {blocks : List PoolBlock}
    (h : Laid pool taken blocks) {b : PoolBlock} (hb : b ∈ blocks) :
    ∃ m, pool.source = some (.multiArena m) ∧
      ∃! i : Nat, ∃ a : Arena, m.arenas[i]? = some a ∧ b.room.Within a.used := by
  obtain ⟨m, hm, hs⟩ := h.source
  obtain ⟨base, hbase, hin⟩ := h.within b hb
  obtain ⟨-, -, -, i, a, hi, hbin⟩ := h.base_within hs hbase
  refine ⟨m, hm, i, ⟨a, hi, hin.trans hbin⟩, ?_⟩
  rintro j ⟨c, hj, hc⟩
  by_contra hij
  have hapart := Region.apart_of_getElem? Arena.region hs.apart hj hi hij
  exact hapart.not_within (Nat.two_pow_pos b.log2)
    (hc.trans (hs.region_within (List.mem_of_getElem? hj)))
    ((hin.trans hbin).trans (hs.region_within (List.mem_of_getElem? hi)))

/-- Blocks that lie apart start at different addresses. -/
theorem Laid.nodup_addr {pool : GradedBlockPool} {taken : List Nat} {blocks : List PoolBlock}
    (h : Laid pool taken blocks) : (blocks.map PoolBlock.addr).Nodup := by
  have hall := (List.pairwise_append.mp h.apart).2.1
  rw [List.Nodup, List.pairwise_map]
  refine (List.pairwise_map.mp hall).imp fun {b c} hbc heq => ?_
  have hb := Nat.two_pow_pos b.log2
  have hc := Nat.two_pow_pos c.log2
  simp only [Region.Apart, PoolBlock.room, Region.stop_mk] at hbc
  omega

/-- In every state of a run the blocks lent, the blocks on the free lists and the uncut rest of
the current arena lie apart from each other; every block starts aligned and has exactly the bytes
of its grade, inside one arena of the chain; and no block occurs twice among those lent and those
on the lists. -/
theorem blocks_lie_apart_on_lists {s : State} (hr : Reachable s) :
    ∃ cached, ListsHold s.heap cached ∧
      Region.AllApart (s.heap.pool.rest ++ (s.held ++ cached).map PoolBlock.room) ∧
      (∀ b ∈ s.held ++ cached, s.heap.pool.minLog2 ≤ b.log2 ∧ b.log2 ≤ s.heap.pool.maxLog2 ∧
        8 ∣ b.addr ∧ b.room.size = 2 ^ b.log2 ∧
        ∃ m, s.heap.pool.source = some (.multiArena m) ∧
          ∃! i : Nat, ∃ a : Arena, m.arenas[i]? = some a ∧ b.room.Within a.used) ∧
      ((s.held ++ cached).map PoolBlock.addr).Nodup := by
  obtain ⟨cached, hl⟩ := hr.ledger
  refine ⟨cached, hl.listed, hl.laid.apart, fun b hb => ?_, hl.laid.nodup_addr⟩
  obtain ⟨hmin, hmax⟩ := hl.laid.grade b hb
  exact ⟨hmin, hmax, hl.laid.addr_dvd b hb, rfl, hl.laid.in_one_arena hb⟩

/-- In every state of a run the counters are the bytes of the blocks lent and of the blocks on the
lists, and together with the rest of the current arena and what the arenas before it left over
they are the arenas taken; a call that fails leaves the counters, the lists and the current arena
as they were. -/
theorem counters_add_up {s : State} (hr : Reachable s) :
    s.heap.pool.lentBytes = weight s.held ∧
    (∃ cached, ListsHold s.heap cached ∧
      (∀ b ∈ cached, s.heap.pool.minLog2 ≤ b.log2 ∧ b.log2 ≤ s.heap.pool.maxLog2) ∧
      s.heap.pool.cachedBytes = weight cached) ∧
    s.heap.pool.lentBytes + s.heap.pool.cachedBytes + s.heap.pool.remaining +
      (s.heap.taken.length - 1) * (s.heap.pool.arenaCapacity % 2 ^ s.heap.pool.minLog2) =
        s.heap.taken.length * s.heap.pool.arenaCapacity ∧
    ∀ host c, (s.heap.call host c).result.isError = true →
      let pool := (s.heap.call host c).state.pool
      pool.lentBytes = s.heap.pool.lentBytes ∧ pool.cachedBytes = s.heap.pool.cachedBytes ∧
      pool.freeHead = s.heap.pool.freeHead ∧ pool.current = s.heap.pool.current ∧
      (s.heap.call host c).state.bytes = s.heap.bytes ∧
      (s.heap.call host c).state.taken = s.heap.taken := by
  obtain ⟨cached, hl⟩ := hr.ledger
  refine ⟨hl.lentBytes, ⟨cached, hl.listed, fun b hb => ?_, hl.cachedBytes⟩, hl.total,
    fun host c herr => ?_⟩
  · exact hl.laid.grade b (List.mem_append_right _ hb)
  · obtain ⟨source, hsame⟩ := call_refused herr
    rw [hsame]
    exact ⟨rfl, rfl, rfl, rfl, rfl, rfl⟩

/-- A pool of the grades 16 and 32 over arenas of 64 bytes. -/
def samplePool : GradedBlockPool where
  source := some (.multiArena ⟨[], 64, 0, 15, 0⟩)
  lentBytes := 0
  cachedBytes := 0
  minLog2 := 4
  maxLog2 := 5
  arenaCapacity := 64
  freeHead := fun _ => 0
  current := none

/-- A host that gives nothing gives nothing that lies in an arena. -/
theorem poolFresh_silent (h : PoolHeap) : PoolFresh (Host.answering 0) h :=
  fun _ _ _ _ hne => absurd (by simp [Host.answering]) hne

/-- Two blocks taken, and the first given back. -/
def sampleState : State :=
  ((State.call (Host.answering 4096) ⟨⟨samplePool, fun _ => 0, []⟩, []⟩ (.alloc 20)).call
    (Host.answering 0) (.allocLog2 3)).call (Host.answering 0) (.free 4096 20)

theorem reachable_sampleState : Reachable sampleState := by
  have hinit : Reachable ⟨⟨samplePool, fun _ => 0, []⟩, []⟩ :=
    .init (Host.answering 0) ⟨4, 5, 2⟩ samplePool (fun _ => 0) rfl
  have hfresh : PoolFresh (Host.answering 4096) ⟨samplePool, fun _ => 0, []⟩ := by
    rintro m ⟨rfl⟩
    exact Host.answering_fresh (by decide) (by decide) fun a ha => absurd ha List.not_mem_nil
  have h₁ := hinit.call _ _ (.alloc 20) hfresh trivial
  have h₂ := h₁.call _ _ (.allocLog2 3) (poolFresh_silent _) trivial
  exact h₂.call _ _ (.free 4096 20) (poolFresh_silent _) (Or.inr ⟨5, rfl, by decide⟩)

/-- A third block fills the arena, and a fourth is cut from another one. -/
def twoArenas : State :=
  (sampleState.call (Host.answering 0) (.alloc 16)).call (Host.answering 8192) (.alloc 16)

theorem reachable_twoArenas : Reachable twoArenas := by
  have hfull := reachable_sampleState.call _ _ (.alloc 16) (poolFresh_silent _) trivial
  refine hfull.call _ _ (.alloc 16) ?_ trivial
  rintro m ⟨rfl⟩
  exact Host.answering_fresh (by decide) (by decide) (by decide +kernel)

theorem blocks_lie_apart_on_lists_sample :
    twoArenas.held = [⟨8192, 4⟩, ⟨4144, 4⟩, ⟨4128, 4⟩] ∧
      ∃ cached, ListsHold twoArenas.heap cached ∧
        Region.AllApart ((twoArenas.held ++ cached).map PoolBlock.room) := by
  obtain ⟨cached, hlists, happart, -⟩ := blocks_lie_apart_on_lists reachable_twoArenas
  exact ⟨by decide +kernel, cached, hlists, (List.pairwise_append.mp happart).2.1⟩

/-- Of the two arenas 48 bytes are lent, 32 are on the lists and 48 are not cut yet. -/
theorem counters_add_up_sample :
    twoArenas.heap.pool.lentBytes = 48 ∧ twoArenas.heap.pool.cachedBytes = 32 ∧
      twoArenas.heap.pool.remaining = 48 ∧
      (twoArenas.heap.call (Host.answering 0) (.allocLog2 6)).state.pool.freeHead =
        twoArenas.heap.pool.freeHead := by
  obtain ⟨hlent, -, htotal, hrefused⟩ := counters_add_up reachable_twoArenas
  have hheld : weight twoArenas.held = 48 := by decide +kernel
  have hremaining : twoArenas.heap.pool.remaining = 48 := by decide +kernel
  have harenas : twoArenas.heap.taken.length = 2 := by decide +kernel
  have hcapacity : twoArenas.heap.pool.arenaCapacity = 64 ∧ twoArenas.heap.pool.minLog2 = 4 := by
    decide +kernel
  rw [harenas, hcapacity.1, hcapacity.2, hlent, hheld, hremaining] at htotal
  refine ⟨hlent.trans hheld, by omega, hremaining, ?_⟩
  exact (hrefused (Host.answering 0) (.allocLog2 6) (by decide +kernel)).2.2.1

end Arnm.Pool
