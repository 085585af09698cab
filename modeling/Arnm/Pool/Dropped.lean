import Arnm.Pool.Runs

set_option autoImplicit false

/-! # The results a pool drops

Three calls of the pool on its current arena have no branch for a refusal: the piece `split_current`
cuts, the borrow of `next_arena` and the block `arnm_graded_block_pool_alloc_fresh` cuts. Here the
calls are written out with the loops of `split_current` as they stand, and keep what is dropped. -/

namespace Arnm.Pool

open Arnm.Memory

/-- A call whose result the pool drops, with that result. -/
inductive Dropped where
  | piece (log2 : Nat) (result : Result)
  | borrow (result : Result)
  | block (log2 : Nat) (result : Result)
  deriving DecidableEq, Repr

def Dropped.result : Dropped → Result
  | .piece _ result => result
  | .borrow result => result
  | .block _ result => result

/-- The grade of a piece `split_current` cut. -/
def Dropped.pieceGrade : Dropped → Option Nat
  | .piece log2 _ => some log2
  | _ => none

/-- A pool within a call, and what was dropped so far. -/
structure Traced where
  heap : PoolHeap
  dropped : List Dropped

section Loops

variable (host : Host)

/-- What `arnm_alloc` on the current arena answers. A zeroed handle passes the request on to
`malloc`, which may refuse. -/
def cutResult (bytes : Nat) (h : PoolHeap) : Result :=
  match h.pool.current with
  | none => .errorOutOfMemory
  | some a => (Memory.alloc host 0 bytes (.arena a)).result

/-- `while (left >= bytes)` in `split_current`; none where the fuel did not last. -/
def splitWhile (log2 : Nat) : Nat → Nat → Traced → Option (Nat × Traced)
  | 0, _, _ => none
  | fuel + 1, left, t =>
    if 2 ^ log2 ≤ left then
      splitWhile log2 fuel (left - 2 ^ log2)
        ⟨splitPiece log2 t.heap, t.dropped ++ [.piece log2 (cutResult host (2 ^ log2) t.heap)]⟩
    else some (left, t)

/-- The outer loop of `split_current`, its counter eight bits wide. -/
def splitLoop : Nat → Nat → Nat → Traced → Option Traced
  | 0, _, _, _ => none
  | fuel + 1, log2, left, t =>
    if 2 ^ t.heap.pool.minLog2 ≤ left then
      match splitWhile host log2 fuel left t with
      | none => none
      | some (left, t) => splitLoop fuel ((log2 + 255) % 256) left t
    else some t

/-- `split_current` -/
def tracedSplit (fuel : Nat) (h : PoolHeap) : Option Traced :=
  splitLoop host fuel h.pool.maxLog2 h.pool.remaining ⟨h, []⟩

/-- `next_arena` -/
def tracedNext (fuel : Nat) (h : PoolHeap) : Option (Result × Traced) :=
  match h.pool.source with
  | none => some (.errorInvalidState, ⟨h, []⟩)
  | some source =>
    let got := Memory.alloc host 0 h.pool.arenaCapacity source
    let h := { h with pool := { h.pool with source := some got.state } }
    if got.result = .success then
      match tracedSplit host fuel h with
      | none => none
      | some t =>
        match initArenaBorrow got.buffer t.heap.pool.arenaCapacity with
        | .ok a =>
          some (.success,
            ⟨{ t.heap with
                pool := { t.heap.pool with current := some a }
                taken := got.buffer :: t.heap.taken }, t.dropped ++ [.borrow .success]⟩)
        | .error result => some (.success, ⟨t.heap, t.dropped ++ [.borrow result]⟩)
    else some (got.result, ⟨h, []⟩)

/-- `arnm_graded_block_pool_alloc_fresh` -/
def tracedFresh (fuel buffer log2 : Nat) (h : PoolHeap) : Option (Answer PoolHeap × List Dropped) :=
  if h.pool.source.isNone then some (⟨.errorNotInitialized, buffer, h⟩, [])
  else if h.pool.remaining < 2 ^ log2 then
    match tracedNext host fuel h with
    | none => none
    | some (.success, t) =>
      if t.heap.pool.freeHead (log2 - t.heap.pool.minLog2) ≠ 0 then
        some (popFree log2 t.heap, t.dropped)
      else
        some (cutFresh log2 t.heap,
          t.dropped ++ [.block log2 (cutResult host (2 ^ log2) t.heap)])
    | some (result, t) => some (⟨result, buffer, t.heap⟩, t.dropped)
  else some (cutFresh log2 h, [.block log2 (cutResult host (2 ^ log2) h)])

/-- `arnm_graded_block_pool_alloc_log2` -/
def tracedLog2 (fuel buffer log2 : Nat) (h : PoolHeap) : Option (Answer PoolHeap × List Dropped) :=
  if h.pool.maxLog2 < log2 then some (⟨.errorResourceSizeExceed, buffer, h⟩, [])
  else
    let log2 := gradeOf h.pool log2
    if h.pool.freeHead (log2 - h.pool.minLog2) = 0 then tracedFresh host fuel buffer log2 h
    else some (popFree log2 h, [])

/-- `arnm_graded_block_pool_alloc` -/
def tracedAlloc (fuel buffer size : Nat) (h : PoolHeap) : Option (Answer PoolHeap × List Dropped) :=
  if h.pool.source.isNone then some (⟨.errorNotInitialized, buffer, h⟩, [])
  else
    match sizeToLog2 h.pool size with
    | .ok log2 => tracedLog2 host fuel buffer log2 h
    | .error result => some (⟨result, buffer, h⟩, [])

/-- `arnm_graded_block_pool_realloc` behind its call of `arnm_graded_block_pool_alloc`. -/
def reallocInto (buffer oldSize newSize : Nat) (got : Answer PoolHeap) : Answer PoolHeap :=
  if got.result = .success then
    if buffer ≠ 0 ∧ oldSize ≠ 0 then
      let copied := { got.state with
        bytes := got.state.bytes.copy got.buffer buffer (min oldSize newSize) }
      let (result, h) := free buffer oldSize copied
      ⟨if result = .success then .success else .warningArenaMemoryNotReclaimed, got.buffer, h⟩
    else ⟨.success, got.buffer, got.state⟩
  else ⟨got.result, buffer, got.state⟩

/-- What a call leaves, and what it dropped. -/
def PoolHeap.tracedCall (fuel : Nat) (h : PoolHeap) : Call → Option (Answer PoolHeap × List Dropped)
  | .alloc size => tracedAlloc host fuel 0 size h
  | .allocLog2 log2 => tracedLog2 host fuel 0 log2 h
  | .realloc buffer oldSize newSize =>
    match tracedAlloc host fuel 0 newSize h with
    | none => none
    | some (got, dropped) => some (reallocInto buffer oldSize newSize got, dropped)
  | c => some (h.call host c, [])

end Loops

/-! ## What is dropped -/

/-- All calls went through, and the pieces are of smaller and smaller grades. -/
structure Fine (minLog2 maxLog2 : Nat) (dropped : List Dropped) : Prop where
  success : ∀ d ∈ dropped, d.result = .success
  descending : (dropped.filterMap Dropped.pieceGrade).Pairwise (· > ·)
  within : ∀ log2 ∈ dropped.filterMap Dropped.pieceGrade, minLog2 ≤ log2 ∧ log2 ≤ maxLog2

theorem Fine.nil (minLog2 maxLog2 : Nat) : Fine minLog2 maxLog2 [] :=
  ⟨fun _ hd => absurd hd List.not_mem_nil, List.Pairwise.nil,
    fun _ hd => absurd hd List.not_mem_nil⟩

/-- A call that cuts no piece goes through as well. -/
theorem Fine.push {minLog2 maxLog2 : Nat} {dropped : List Dropped}
    (h : Fine minLog2 maxLog2 dropped)
    {d : Dropped} (hnot : d.pieceGrade = none) (hok : d.result = .success) :
    Fine minLog2 maxLog2 (dropped ++ [d]) := by
  have hsame : (dropped ++ [d]).filterMap Dropped.pieceGrade =
      dropped.filterMap Dropped.pieceGrade := by
    rw [List.filterMap_append, List.filterMap_cons_none hnot, List.filterMap_nil, List.append_nil]
  refine ⟨fun d' hd' => ?_, hsame ▸ h.descending, hsame ▸ h.within⟩
  rcases List.mem_append.mp hd' with hd' | hd'
  · exact h.success d' hd'
  · rw [List.mem_singleton.mp hd']
    exact hok

/-- The pieces of one split, by their grades. -/
def pieces (grades : List Nat) : List Dropped := grades.map fun log2 => .piece log2 .success

theorem pieces_fine {minLog2 maxLog2 : Nat} {grades : List Nat} (hdesc : grades.Pairwise (· > ·))
    (hwithin : ∀ log2 ∈ grades, minLog2 ≤ log2 ∧ log2 ≤ maxLog2) :
    Fine minLog2 maxLog2 (pieces grades) := by
  have hgrades : (pieces grades).filterMap Dropped.pieceGrade = grades := by
    unfold pieces
    rw [List.filterMap_map]
    exact List.filterMap_some
  refine ⟨fun d hd => ?_, hgrades.symm ▸ hdesc, hgrades.symm ▸ hwithin⟩
  obtain ⟨log2, -, rfl⟩ := List.mem_map.mp hd
  rfl

/-- What the inner loop cuts of one grade, where there is no room for two. -/
def cutOf (log2 left : Nat) : List Nat := if 2 ^ log2 ≤ left then [log2] else []

theorem eq_of_mem_cutOf {log2 left g : Nat} (h : g ∈ cutOf log2 left) : g = log2 := by
  unfold cutOf at h
  split at h
  · exact List.mem_singleton.mp h
  · cases h

/-- A grade in front of smaller ones keeps the order. -/
theorem pairwise_cutOf_append {log2 left : Nat} {grades : List Nat}
    (h : grades.Pairwise (· > ·)) (hlt : ∀ g ∈ grades, g < log2) :
    (cutOf log2 left ++ grades).Pairwise (· > ·) := by
  refine List.pairwise_append.mpr ⟨?_, h, fun g hg g' hg' => ?_⟩
  · unfold cutOf
    split
    · exact List.pairwise_singleton _ _
    · exact List.Pairwise.nil
  · rw [eq_of_mem_cutOf hg]
    exact hlt g' hg'

/-! ## The loops -/

/-- An inner loop that starts below its grade does nothing. -/
theorem splitGrade_of_lt {log2 left : Nat} (fuel : Nat) (h : PoolHeap) (hlt : left < 2 ^ log2) :
    splitGrade log2 fuel left h = (left, h) := by
  cases fuel with
  | zero => rfl
  | succ fuel =>
      unfold splitGrade
      rw [if_neg (Nat.not_le.mpr hlt)]

theorem splitWhile_of_lt (host : Host) {log2 left : Nat} (fuel : Nat) (t : Traced)
    (hlt : left < 2 ^ log2) : splitWhile host log2 (fuel + 1) left t = some (left, t) := by
  unfold splitWhile
  rw [if_neg (Nat.not_le.mpr hlt)]

theorem splitLoop_of_lt (host : Host) {log2 left : Nat} (fuel : Nat) (t : Traced)
    (hlt : left < 2 ^ t.heap.pool.minLog2) : splitLoop host (fuel + 1) log2 left t = some t := by
  unfold splitLoop
  rw [if_neg (Nat.not_le.mpr hlt)]

theorem append_pieces_nil (dropped : List Dropped) : dropped ++ pieces [] = dropped :=
  List.append_nil dropped

namespace Ledger

variable {host : Host} {h : PoolHeap} {lent cached : List PoolBlock}

/-- The current arena does not refuse what it has room for. -/
theorem cutResult (hl : Ledger h lent cached) {log2 : Nat} (hmin : h.pool.minLog2 ≤ log2)
    (hmax : log2 ≤ h.pool.maxLog2) (hroom : 2 ^ log2 ≤ h.pool.remaining) :
    cutResult host (2 ^ log2) h = .success := by
  obtain ⟨a, ha, hd, hrem⟩ := hl.current_of_room (Nat.two_pow_pos log2).ne' hroom
  -- a grade is aligned as it is, so the arena is asked for no more than that
  have hgrade := Nat.le_trans hl.laid.min_le hmin
  have hle := two_pow_le_maxAllocSize (Nat.le_trans hmax hl.laid.max_le)
  have halign := align8U32_of_dvd (eight_dvd_two_pow hgrade) hle
  unfold Pool.cutResult Memory.alloc
  rw [ha]
  dsimp only
  rw [if_neg (Nat.two_pow_pos log2).ne', halign, if_neg (Nat.two_pow_pos log2).ne']
  rcases arenaAllocAligned_cases 0 (2 ^ log2) a with ⟨-, -, hwhy, -⟩ | ⟨-, -, hok⟩
  · omega
  · rw [hok]

/-- The inner loop cuts one piece where a piece fits, for there is no room for two. -/
theorem splitWhile (hl : Ledger h lent cached) (host : Host) {log2 left : Nat} (fuel : Nat)
    (hmin : h.pool.minLog2 ≤ log2) (hmax : log2 ≤ h.pool.maxLog2) (hleft : left = h.pool.remaining)
    (hlt : left < 2 ^ (log2 + 1)) (dropped : List Dropped) :
    Pool.splitWhile host log2 (fuel + 2) left ⟨h, dropped⟩ =
      some ((Pool.splitGrade log2 left left h).1, ⟨(Pool.splitGrade log2 left left h).2,
        dropped ++ pieces (cutOf log2 left)⟩) := by
  unfold cutOf
  by_cases hroom : 2 ^ log2 ≤ left
  · have hrest : left - 2 ^ log2 < 2 ^ log2 := by
      rw [Nat.pow_succ] at hlt
      omega
    have hgrade : Pool.splitGrade log2 left left h = (left - 2 ^ log2, Pool.splitPiece log2 h) := by
      obtain ⟨n, rfl⟩ : ∃ n, left = n + 1 := ⟨left - 1, by omega⟩
      rw [Pool.splitGrade, if_pos hroom]
      exact splitGrade_of_lt n _ hrest
    rw [Pool.splitWhile, if_pos hroom, splitWhile_of_lt host fuel _ hrest, hgrade, if_pos hroom,
      hl.cutResult hmin hmax (hleft ▸ hroom)]
    rfl
  · have hlow := Nat.lt_of_not_le hroom
    rw [splitWhile_of_lt host (fuel + 1) _ hlow, splitGrade_of_lt left h hlow, if_neg hroom,
      append_pieces_nil]

/-- The outer loop ends before its counter passes zero, and cuts what the model cuts. -/
theorem splitLoop (hl : Ledger h lent cached) (host : Host) (log2 : Nat) {left fuel : Nat}
    (hmax : log2 ≤ h.pool.maxLog2) (hleft : left = h.pool.remaining) (hlt : left < 2 ^ (log2 + 1))
    (hmin : h.pool.minLog2 ≤ log2 ∨ left < 2 ^ h.pool.minLog2) (hfuel : log2 + 3 ≤ fuel)
    (dropped : List Dropped) :
    ∃ grades : List Nat, Pool.splitLoop host fuel log2 left ⟨h, dropped⟩ =
        some ⟨(Pool.splitFrom log2 left h).2, dropped ++ pieces grades⟩ ∧
      grades.Pairwise (· > ·) ∧ ∀ g ∈ grades, h.pool.minLog2 ≤ g ∧ g ≤ log2 := by
  obtain ⟨rounds, rfl⟩ : ∃ rounds, fuel = rounds + 3 := ⟨fuel - 3, by omega⟩
  induction log2 generalizing left h cached dropped rounds with
  | zero =>
      -- the smallest grade is 3 or more: the loop ends before its counter would wrap
      have hthree := hl.laid.min_le
      have hstop : left < 2 ^ h.pool.minLog2 := by omega
      refine ⟨[], ?_, List.Pairwise.nil, fun g hg => absurd hg List.not_mem_nil⟩
      rw [splitLoop_of_lt host _ _ hstop, Pool.splitFrom, if_neg (Nat.not_le.mpr hstop),
        append_pieces_nil]
  | succ log2 ih =>
      by_cases hroom : 2 ^ h.pool.minLog2 ≤ left
      · have hgrade : h.pool.minLog2 ≤ log2 + 1 := by omega
        have htop := hl.laid.max_le
        have hwrap : (log2 + 1 + 255) % 256 = log2 := by omega
        obtain ⟨cached', hl', hshape, heq, hless⟩ :=
          hl.splitGrade left left hgrade hmax hleft (Nat.le_refl _)
        -- below the smallest grade nothing is left to cut
        have hnext : h.pool.minLog2 ≤ log2 ∨
            (Pool.splitGrade (log2 + 1) left left h).1 < 2 ^ h.pool.minLog2 := by
          rcases Nat.lt_or_ge log2 h.pool.minLog2 with hlow | hge
          · have hgrade' : log2 + 1 = h.pool.minLog2 := by omega
            exact Or.inr (hgrade' ▸ hless)
          · exact Or.inl hge
        obtain ⟨rounds, rfl⟩ : ∃ n, rounds = n + 1 := ⟨rounds - 1, by omega⟩
        obtain ⟨grades, hrun, hdesc, hwithin⟩ := ih hl' (by rw [hshape.maxLog2]; omega) heq hless
          (by rw [hshape.minLog2]; exact hnext) (dropped ++ pieces (cutOf (log2 + 1) left))
          rounds (by omega)
        rw [hshape.minLog2] at hwithin
        refine ⟨cutOf (log2 + 1) left ++ grades, ?_, ?_, ?_⟩
        · rw [Pool.splitLoop, if_pos hroom,
            hl.splitWhile host (rounds + 1) hgrade hmax hleft hlt dropped]
          dsimp only
          rw [hwrap, hrun, Pool.splitFrom, if_pos hroom]
          unfold pieces
          rw [List.map_append, List.append_assoc]
        · exact pairwise_cutOf_append hdesc fun g hg => Nat.lt_succ_of_le (hwithin g hg).2
        · intro g hg
          rcases List.mem_append.mp hg with hg | hg
          · rw [eq_of_mem_cutOf hg]
            exact ⟨hgrade, Nat.le_refl _⟩
          · obtain ⟨hlo, hhi⟩ := hwithin g hg
            exact ⟨hlo, Nat.le_succ_of_le hhi⟩
      · refine ⟨[], ?_, List.Pairwise.nil, fun g hg => absurd hg List.not_mem_nil⟩
        rw [splitLoop_of_lt host _ _ (Nat.lt_of_not_le hroom), Pool.splitFrom, if_neg hroom,
          append_pieces_nil]

/-- A split of less than a block of the largest grade ends, and is the model's. -/
theorem tracedSplit (hl : Ledger h lent cached) (host : Host) {fuel : Nat}
    (hfuel : h.pool.maxLog2 + 3 ≤ fuel) (hlt : h.pool.remaining < 2 ^ (h.pool.maxLog2 + 1)) :
    ∃ dropped, Pool.tracedSplit host fuel h = some ⟨Pool.splitCurrent h, dropped⟩ ∧
      Fine h.pool.minLog2 h.pool.maxLog2 dropped := by
  obtain ⟨grades, hrun, hdesc, hwithin⟩ := hl.splitLoop host h.pool.maxLog2
    (Nat.le_refl _) rfl hlt (Or.inl hl.laid.le_max) hfuel []
  exact ⟨pieces grades, hrun, pieces_fine hdesc hwithin⟩

/-- The next arena is borrowed as it comes from the chain. -/
theorem tracedNext (hl : Ledger h lent cached) (hfresh : PoolFresh host h) {fuel : Nat}
    (hfuel : h.pool.maxLog2 + 3 ≤ fuel) (hlt : h.pool.remaining < 2 ^ (h.pool.maxLog2 + 1)) :
    ∃ dropped, Pool.tracedNext host fuel h =
        some ((Pool.nextArena host h).1, ⟨(Pool.nextArena host h).2, dropped⟩) ∧
      Fine h.pool.minLog2 h.pool.maxLog2 dropped := by
  obtain ⟨m, m', hm, hst, hkept, hanswer⟩ := hl.askChain hfresh
  unfold Pool.tracedNext Pool.nextArena
  rw [hm]
  dsimp only
  rcases hanswer with herr | ⟨hok, -, hborrow⟩
  · rw [if_neg (Result.ne_success_of_isError herr), if_neg (Result.ne_success_of_isError herr)]
    exact ⟨[], rfl, Fine.nil _ _⟩
  · rw [if_pos hok, if_pos hok, hst]
    -- what is left of the old arena is split before the new one takes its place
    have hl' := hl.withSource hkept
    obtain ⟨cached', -, hshape, -⟩ := hl'.splitCurrent
    obtain ⟨dropped, hsplit, hfine⟩ := hl'.tracedSplit host hfuel hlt
    rw [hsplit]
    dsimp only
    rw [hshape.arenaCapacity, hborrow]
    exact ⟨dropped ++ [.borrow .success], rfl, hfine.push rfl rfl⟩

/-- Whatever the pool drops within `arnm_graded_block_pool_alloc_fresh` is a success. -/
theorem tracedFresh (hl : Ledger h lent cached) (hfresh : PoolFresh host h) (buffer : Nat)
    {log2 fuel : Nat} (hmin : h.pool.minLog2 ≤ log2) (hmax : log2 ≤ h.pool.maxLog2)
    (hfuel : h.pool.maxLog2 + 3 ≤ fuel) :
    ∃ dropped, Pool.tracedFresh host fuel buffer log2 h =
        some (Pool.allocFresh host buffer log2 h, dropped) ∧
      Fine h.pool.minLog2 h.pool.maxLog2 dropped := by
  unfold Pool.tracedFresh Pool.allocFresh
  by_cases hnone : h.pool.source.isNone = true
  · rw [if_pos hnone, if_pos hnone]
    exact ⟨[], rfl, Fine.nil _ _⟩
  rw [if_neg hnone, if_neg hnone]
  by_cases hroom : h.pool.remaining < 2 ^ log2
  · rw [if_pos hroom, if_pos hroom]
    have hlt : h.pool.remaining < 2 ^ (h.pool.maxLog2 + 1) := by
      calc h.pool.remaining < 2 ^ log2 := hroom
        _ ≤ 2 ^ (h.pool.maxLog2 + 1) := Nat.pow_le_pow_right (by decide) (Nat.le_succ_of_le hmax)
    obtain ⟨dropped, hnext, hfine⟩ := hl.tracedNext hfresh hfuel hlt
    rw [hnext]
    have hcases := hl.nextArena hfresh
    generalize Pool.nextArena host h = next at hcases ⊢
    obtain ⟨result, h'⟩ := next
    dsimp only at hcases ⊢
    rcases hcases with ⟨herr, -⟩ | ⟨rfl, ⟨hmin', hmax'⟩, hrem, cached', hl'⟩
    · cases result <;> first | (cases herr; done) | exact ⟨dropped, rfl, hfine⟩
    · dsimp only
      by_cases hhead : h'.pool.freeHead (log2 - h'.pool.minLog2) = 0
      · rw [if_neg (not_not_intro hhead), if_neg (not_not_intro hhead)]
        -- the new arena holds a block of the largest grade
        have hfits : 2 ^ log2 ≤ h'.pool.remaining := by
          rw [hrem]
          exact hl.laid.two_pow_le_capacity hmax
        exact ⟨_, rfl, hfine.push rfl
          (hl'.cutResult (hmin'.trans_le hmin) (hmax.trans_eq hmax'.symm) hfits)⟩
      · rw [if_pos hhead, if_pos hhead]
        exact ⟨dropped, rfl, hfine⟩
  · rw [if_neg hroom, if_neg hroom]
    refine ⟨[.block log2 (Pool.cutResult host (2 ^ log2) h)], rfl, ?_⟩
    exact (Fine.nil _ _).push rfl (hl.cutResult hmin hmax (Nat.le_of_not_lt hroom))

theorem tracedLog2 (hl : Ledger h lent cached) (hfresh : PoolFresh host h) (buffer log2 : Nat)
    {fuel : Nat} (hfuel : h.pool.maxLog2 + 3 ≤ fuel) :
    ∃ dropped, Pool.tracedLog2 host fuel buffer log2 h =
        some (Pool.allocLog2 host buffer log2 h, dropped) ∧
      Fine h.pool.minLog2 h.pool.maxLog2 dropped := by
  unfold Pool.tracedLog2 Pool.allocLog2
  by_cases hbig : h.pool.maxLog2 < log2
  · rw [if_pos hbig, if_pos hbig]
    exact ⟨[], rfl, Fine.nil _ _⟩
  rw [if_neg hbig, if_neg hbig]
  dsimp only
  by_cases hhead : h.pool.freeHead (gradeOf h.pool log2 - h.pool.minLog2) = 0
  · rw [if_pos hhead, if_pos hhead]
    have hle := hl.laid.le_max
    have hgrade : h.pool.minLog2 ≤ gradeOf h.pool log2 ∧ gradeOf h.pool log2 ≤ h.pool.maxLog2 := by
      unfold gradeOf
      split <;> omega
    exact hl.tracedFresh hfresh buffer hgrade.1 hgrade.2 hfuel
  · rw [if_neg hhead, if_neg hhead]
    exact ⟨[], rfl, Fine.nil _ _⟩

theorem tracedAlloc (hl : Ledger h lent cached) (hfresh : PoolFresh host h) (buffer size : Nat)
    {fuel : Nat} (hfuel : h.pool.maxLog2 + 3 ≤ fuel) :
    ∃ dropped, Pool.tracedAlloc host fuel buffer size h =
        some (Pool.alloc host buffer size h, dropped) ∧
      Fine h.pool.minLog2 h.pool.maxLog2 dropped := by
  unfold Pool.tracedAlloc Pool.alloc
  by_cases hnone : h.pool.source.isNone = true
  · rw [if_pos hnone, if_pos hnone]
    exact ⟨[], rfl, Fine.nil _ _⟩
  rw [if_neg hnone, if_neg hnone]
  cases sizeToLog2 h.pool size with
  | error result => exact ⟨[], rfl, Fine.nil _ _⟩
  | ok log2 => exact hl.tracedLog2 hfresh buffer log2 hfuel

/-- A call of the pool is the model's, and drops no refusal. -/
theorem tracedCall (hl : Ledger h lent cached) (hfresh : PoolFresh host h) (c : Call) {fuel : Nat}
    (hfuel : h.pool.maxLog2 + 3 ≤ fuel) :
    ∃ dropped, h.tracedCall host fuel c = some (h.call host c, dropped) ∧
      Fine h.pool.minLog2 h.pool.maxLog2 dropped := by
  cases c with
  | alloc size => exact hl.tracedAlloc hfresh 0 size hfuel
  | allocLog2 log2 => exact hl.tracedLog2 hfresh 0 log2 hfuel
  | realloc buffer oldSize newSize =>
      obtain ⟨dropped, hrun, hfine⟩ := hl.tracedAlloc hfresh 0 newSize hfuel
      refine ⟨dropped, ?_, hfine⟩
      unfold PoolHeap.tracedCall
      dsimp only
      rw [hrun]
      rfl
  | free buffer size => exact ⟨[], rfl, Fine.nil _ _⟩
  | freeLog2 buffer log2 => exact ⟨[], rfl, Fine.nil _ _⟩
  | reset => exact ⟨[], rfl, Fine.nil _ _⟩

end Ledger

/-- In every state of a run, of a pool set up with any options it accepts, a call runs to its end
with all the results it drops successes, cuts at most one piece of each grade, the largest first,
and after `next_arena` the current arena has room for a block of every grade. -/
theorem dropped_results_succeed {s : State} (hr : Reachable s) {host : Host}
    (hfresh : PoolFresh host s.heap) :
    (∀ c, ∃ rounds, ∀ fuel, rounds ≤ fuel → ∃ dropped,
      s.heap.tracedCall host fuel c = some (s.heap.call host c, dropped) ∧
      Fine s.heap.pool.minLog2 s.heap.pool.maxLog2 dropped) ∧
    (∀ buffer log2, s.heap.pool.minLog2 ≤ log2 → log2 ≤ s.heap.pool.maxLog2 →
      ∃ rounds, ∀ fuel, rounds ≤ fuel → ∃ dropped,
        tracedFresh host fuel buffer log2 s.heap =
          some (allocFresh host buffer log2 s.heap, dropped) ∧
        Fine s.heap.pool.minLog2 s.heap.pool.maxLog2 dropped) ∧
    ((nextArena host s.heap).1 = .success →
      ∀ log2 ≤ s.heap.pool.maxLog2, 2 ^ log2 ≤ (nextArena host s.heap).2.pool.remaining) := by
  obtain ⟨cached, hl⟩ := hr.ledger
  refine ⟨fun c => ⟨s.heap.pool.maxLog2 + 3, fun fuel hfuel => hl.tracedCall hfresh c hfuel⟩,
    fun buffer log2 hmin hmax => ⟨s.heap.pool.maxLog2 + 3,
      fun fuel hfuel => hl.tracedFresh hfresh buffer hmin hmax hfuel⟩, fun hok log2 hmax => ?_⟩
  rcases hl.nextArena hfresh with ⟨herr, -⟩ | ⟨-, -, hrem, -⟩
  · exact absurd hok (Result.ne_success_of_isError herr)
  · rw [hrem]
    exact hl.laid.two_pow_le_capacity hmax

/-- The block that was given back taken again: 16 bytes are left of the arena, and no list has a
block of 32. -/
def spentState : State := sampleState.call (Host.answering 0) (.allocLog2 5)

example : (spentState.heap.tracedCall (Host.answering 8192) 8 (.allocLog2 5)).map Prod.snd =
    some [.piece 4 .success, .borrow .success, .block 5 .success] := by decide +kernel

/-- A block of 32 bytes is asked for then. -/
theorem dropped_results_succeed_sample :
    ∃ rounds, ∀ fuel, rounds ≤ fuel → ∃ dropped,
      spentState.heap.tracedCall (Host.answering 8192) fuel (.allocLog2 5) =
          some (spentState.heap.call (Host.answering 8192) (.allocLog2 5), dropped) ∧
        Fine 4 5 dropped := by
  have hr : Reachable spentState :=
    reachable_sampleState.call _ _ (.allocLog2 5) (poolFresh_silent _) trivial
  have hfresh : PoolFresh (Host.answering 8192) spentState.heap := by
    rintro m ⟨rfl⟩
    exact Host.answering_fresh (by decide) (by decide) (by decide +kernel)
  exact (dropped_results_succeed hr hfresh).1 (.allocLog2 5)

end Arnm.Pool
