import Arnm.Pool.Ledger

set_option autoImplicit false

/-! # The calls of a pool on its ledger

A call that is refused changes nothing but the chain behind the pool; one that is carried out moves
blocks between the current arena, the lists and the client, and the ledger follows. -/

namespace Arnm.Pool

open Arnm.Memory

/-- The buffers the host answers lie apart from the arenas of the pool's chain. -/
def PoolFresh (host : Host) (h : PoolHeap) : Prop :=
  ∀ m, h.pool.source = some (.multiArena m) → Fresh host m.arenas

/-- Nothing of the pool has changed but the chain behind it. -/
def Refused (h h' : PoolHeap) : Prop :=
  ∃ source, h' = { h with pool := { h.pool with source := source } }

/-- The grades of the pool are the same. -/
def SameGrades (h h' : PoolHeap) : Prop :=
  h'.pool.minLog2 = h.pool.minLog2 ∧ h'.pool.maxLog2 = h.pool.maxLog2

theorem Refused.refl (h : PoolHeap) : Refused h h := ⟨h.pool.source, rfl⟩

theorem SameGrades.trans {h₁ h₂ h₃ : PoolHeap} (k : SameGrades h₂ h₃) (h : SameGrades h₁ h₂) :
    SameGrades h₁ h₃ := ⟨k.1.trans h.1, k.2.trans h.2⟩

theorem cutFresh_grades (log2 : Nat) (h : PoolHeap) : SameGrades h (cutFresh log2 h).state := by
  unfold cutFresh cutCurrent
  cases h.pool.current with
  | none => exact ⟨rfl, rfl⟩
  | some a => exact ⟨rfl, rfl⟩

/-! ## Refusals -/

section Refusals

variable {host : Host} {h : PoolHeap}

theorem nextArena_refused (herr : (nextArena host h).1.isError = true) :
    Refused h (nextArena host h).2 := by
  unfold nextArena at herr ⊢
  split
  · exact Refused.refl h
  · rename_i source hsource
    simp only [hsource] at herr
    by_cases hok : (Memory.alloc host 0 h.pool.arenaCapacity source).result = .success
    · simp only [if_pos hok] at herr
      split at herr <;> cases herr
    · simp only [if_neg hok]
      exact ⟨_, rfl⟩

theorem allocFresh_refused {buffer log2 : Nat}
    (herr : (allocFresh host buffer log2 h).result.isError = true) :
    Refused h (allocFresh host buffer log2 h).state := by
  unfold allocFresh at herr ⊢
  split
  · exact Refused.refl h
  · rename_i hsome
    rw [if_neg hsome] at herr
    split
    · rename_i hroom
      rw [if_pos hroom] at herr
      have hnext := @nextArena_refused host h
      split
      · rename_i heq
        simp only [heq] at herr
        split at herr <;> cases herr
      · rename_i result h' hne heq
        simp only [heq] at herr hnext ⊢
        exact hnext herr
    · rename_i hroom
      rw [if_neg hroom] at herr
      cases herr

theorem allocLog2_refused {buffer log2 : Nat}
    (herr : (allocLog2 host buffer log2 h).result.isError = true) :
    Refused h (allocLog2 host buffer log2 h).state := by
  unfold allocLog2 at herr ⊢
  split
  · exact Refused.refl h
  · rename_i hsmall
    rw [if_neg hsmall] at herr
    simp only at herr ⊢
    split
    · rename_i hhead
      rw [if_pos hhead] at herr
      exact allocFresh_refused herr
    · rename_i hhead
      rw [if_neg hhead] at herr
      cases herr

theorem alloc_refused {buffer size : Nat}
    (herr : (alloc host buffer size h).result.isError = true) :
    Refused h (alloc host buffer size h).state := by
  unfold alloc at herr ⊢
  split
  · exact Refused.refl h
  · rename_i hsome
    rw [if_neg hsome] at herr
    cases hsize : sizeToLog2 h.pool size with
    | error result => exact Refused.refl h
    | ok log2 =>
        simp only [hsize] at herr ⊢
        exact allocLog2_refused herr

theorem freeLog2_refused {buffer log2 : Nat} (herr : (freeLog2 buffer log2 h).1.isError = true) :
    (freeLog2 buffer log2 h).2 = h := by
  unfold freeLog2 at herr ⊢
  split
  · rfl
  · rename_i hne
    rw [if_neg hne] at herr
    split
    · rfl
    · rename_i hsmall
      rw [if_neg hsmall] at herr
      simp only at herr ⊢
      split
      · rfl
      · rename_i hout
        rw [if_neg hout] at herr
        cases herr

theorem free_refused {buffer size : Nat} (herr : (free buffer size h).1.isError = true) :
    (free buffer size h).2 = h := by
  unfold free at herr ⊢
  split
  · rfl
  · rename_i hne
    rw [if_neg hne] at herr
    split
    · rfl
    · rename_i hsome
      rw [if_neg hsome] at herr
      cases hsize : sizeToLog2 h.pool size with
      | error result => rfl
      | ok log2 =>
          simp only [hsize] at herr ⊢
          exact freeLog2_refused herr

theorem realloc_refused {buffer oldSize newSize : Nat}
    (herr : (realloc host buffer oldSize newSize h).result.isError = true) :
    Refused h (realloc host buffer oldSize newSize h).state := by
  unfold realloc at herr ⊢
  by_cases hok : (alloc host 0 newSize h).result = .success
  · simp only [if_pos hok] at herr
    split at herr
    · simp only at herr
      split at herr <;> cases herr
    · cases herr
  · simp only [if_neg hok] at herr ⊢
    exact alloc_refused herr

/-- A call that fails leaves the counters, the lists and the current arena as they were. -/
theorem call_refused {c : Call} (herr : (h.call host c).result.isError = true) :
    Refused h (h.call host c).state := by
  cases c with
  | alloc size => exact alloc_refused herr
  | allocLog2 log2 => exact allocLog2_refused herr
  | free buffer size =>
      have hsame : (h.call host (.free buffer size)).state = h := free_refused herr
      rw [hsame]
      exact Refused.refl h
  | freeLog2 buffer log2 =>
      have hsame : (h.call host (.freeLog2 buffer log2)).state = h := freeLog2_refused herr
      rw [hsame]
      exact Refused.refl h
  | realloc buffer oldSize newSize => exact realloc_refused herr
  | reset => cases herr

end Refusals

/-! ## Sizes and grades -/

theorem gradeOf_of_le {pool : GradedBlockPool} {log2 : Nat} (h : pool.minLog2 ≤ log2) :
    gradeOf pool log2 = log2 := if_neg (Nat.not_lt.mpr h)

theorem le_log2PowerOfTwo {value : Nat} (h : value < 2 ^ 32) :
    value ≤ 2 ^ log2PowerOfTwo value := by
  unfold log2PowerOfTwo clz32
  split
  · simpa using ‹value ≤ 1›
  · have hne : ¬ value - 1 = 0 := by omega
    have hlog : (value - 1).log2 < 32 := (Nat.log2_lt hne).mpr (by omega)
    have hlt := Nat.lt_log2_self (n := value - 1)
    rw [if_neg hne, show 32 - (31 - (value - 1).log2) = (value - 1).log2 + 1 by omega]
    omega

/-- A size that has a grade is one of the pool's and fits a block of the grade. -/
theorem sizeToLog2_ok {pool : GradedBlockPool} {size log2 : Nat}
    (h : sizeToLog2 pool size = .ok log2) (hle : pool.minLog2 ≤ pool.maxLog2) :
    size ≠ 0 ∧ pool.minLog2 ≤ log2 ∧ log2 ≤ pool.maxLog2 ∧ size ≤ 2 ^ log2 := by
  unfold sizeToLog2 at h
  split at h
  · cases h
  · split at h
    · cases h
    · split at h
      · cases h
      · rename_i hne hover hbig
        rw [Except.ok.injEq] at h
        have hround := le_align8U32 hover
        have hlt : align8U32 size < 2 ^ 32 := by
          have := align8U32_le size
          unfold maxAllocSize at this
          omega
        have hpow := le_log2PowerOfTwo hlt
        refine ⟨hne, ?_, ?_, ?_⟩
        · split at h <;> omega
        · split at h <;> omega
        · split at h
          · rename_i hsmall
            have hmono : 2 ^ log2PowerOfTwo (align8U32 size) ≤ 2 ^ pool.minLog2 :=
              Nat.pow_le_pow_right (by norm_num) (Nat.le_of_lt hsmall)
            subst h
            omega
          · subst h
            omega

theorem sizeToLog2_error {pool : GradedBlockPool} {size : Nat} {result : Result}
    (h : sizeToLog2 pool size = .error result) : result.isError = true := by
  unfold sizeToLog2 at h
  split at h
  · cases h; rfl
  · split at h
    · cases h; rfl
    · split at h
      · cases h; rfl
      · cases h

/-- Pools of the same grades serve a size alike. -/
theorem sizeToLog2_congr {h h' : PoolHeap} (hg : SameGrades h h') (size : Nat) :
    sizeToLog2 h'.pool size = sizeToLog2 h.pool size := by
  unfold sizeToLog2
  rw [hg.1, hg.2]

namespace Ledger

variable {host : Host} {h : PoolHeap} {lent cached : List PoolBlock}

theorem perm {lent' : List PoolBlock} (hl : Ledger h lent cached) (hp : lent.Perm lent') :
    Ledger h lent' cached :=
  ⟨hl.laid.perm (hp.append_right cached), hl.listed, hl.lentBytes.trans (weight_perm hp),
    hl.cachedBytes, hl.total⟩

/-! ## Taking -/

/-- The head of a list is handed out. -/
theorem popFree (hl : Ledger h lent cached) {log2 : Nat} (hmin : h.pool.minLog2 ≤ log2)
    (hne : h.pool.freeHead (log2 - h.pool.minLog2) ≠ 0) :
    ∃ cached', Ledger (popFree log2 h).state (⟨(popFree log2 h).buffer, log2⟩ :: lent) cached' := by
  obtain ⟨hmem, hlisted⟩ := hl.listed.pop hmin hne
  have hweight := weight_erase hmem
  have hcached := hl.cachedBytes
  have htotal := hl.total
  simp only at hweight
  refine ⟨cached.erase ⟨h.pool.freeHead (log2 - h.pool.minLog2), log2⟩, ?_, hlisted, ?_, ?_, ?_⟩
  · refine (hl.laid.perm ?_).recount _ _ _
    exact ((List.perm_cons_erase hmem).append_left lent).trans List.perm_middle
  · simp only [Pool.popFree, weight_cons, hl.lentBytes]
    omega
  · simp only [Pool.popFree]
    omega
  · simp only [Pool.popFree, GradedBlockPool.remaining] at htotal ⊢
    omega

/-- With less left than the smallest grade, the next arena of the chain becomes the current one. -/
theorem enter (hl : Ledger h lent cached) (hlt : h.pool.remaining < 2 ^ h.pool.minLog2)
    {m : MultiArena} {base : Nat} (hsource : h.pool.source = some (.multiArena m))
    (hs : Sound m.arenas (takenBlocks h.pool.arenaCapacity (base :: h.taken))) :
    Ledger { h with
        pool := { h.pool with current := some ⟨base, 0, h.pool.arenaCapacity, 0, .external⟩ }
        taken := base :: h.taken } lent cached := by
  refine ⟨hl.laid.next hsource hs, hl.listed, hl.lentBytes, hl.cachedBytes, ?_⟩
  have htotal := hl.total
  have hmod := hl.remaining_mod
  simp only [GradedBlockPool.remaining, Arena.remainingBytes, List.length_cons,
    Nat.add_sub_cancel, Nat.sub_zero, Nat.add_mul, Nat.one_mul]
  cases hlist : h.taken with
  | nil =>
      simp only [hlist, List.length_nil, Nat.zero_mul, Nat.zero_sub] at htotal ⊢
      omega
  | cons base older =>
      have hleft := hmod (hlist ▸ List.cons_ne_nil base older)
      rw [Nat.mod_eq_of_lt hlt] at hleft
      simp only [hlist, List.length_cons, Nat.add_sub_cancel, Nat.add_mul, Nat.one_mul]
        at htotal ⊢
      omega

/-- The chain behind the pool moves on and keeps what it has handed out. -/
theorem withSource (hl : Ledger h lent cached) {m : MultiArena}
    (hm : Sound m.arenas (takenBlocks h.pool.arenaCapacity h.taken)) :
    Ledger { h with pool := { h.pool with source := some (.multiArena m) } } lent cached :=
  ⟨hl.laid.withSource hm, hl.listed, hl.lentBytes, hl.cachedBytes, hl.total⟩

/-- What the chain answers when it is asked for an arena: a refusal, or a block that can be
borrowed as it is. -/
theorem askChain (hl : Ledger h lent cached) (hfresh : PoolFresh host h) :
    ∃ m m', h.pool.source = some (.multiArena m) ∧
      (Memory.alloc host 0 h.pool.arenaCapacity (.multiArena m)).state = .multiArena m' ∧
      Sound m'.arenas (takenBlocks h.pool.arenaCapacity h.taken) ∧
      let got := Memory.alloc host 0 h.pool.arenaCapacity (.multiArena m)
      (got.result.isError = true ∨
        got.result = .success ∧
          Sound m'.arenas (takenBlocks h.pool.arenaCapacity (got.buffer :: h.taken)) ∧
          initArenaBorrow got.buffer h.pool.arenaCapacity =
            .ok ⟨got.buffer, 0, h.pool.arenaCapacity, 0, .external⟩) := by
  obtain ⟨m, hm, hs⟩ := hl.laid.source
  obtain ⟨m', hst⟩ := alloc_multiArena host 0 h.pool.arenaCapacity m
  have hchain : Sound (Allocator.multiArena m).arenas (takenBlocks h.pool.arenaCapacity h.taken) :=
    hs
  rcases alloc_sound 0 h.pool.arenaCapacity hchain (hfresh m hm) with
    ⟨herr, -, hs'⟩ | ⟨hok, hs'⟩
  · rw [hst] at hs'
    exact ⟨m, m', hm, hst, hs', Or.inl herr⟩
  · rw [hst] at hs'
    have hborrow := initArenaBorrow_eq (hs'.addr_ne List.mem_cons_self)
      (hs'.addr_dvd _ List.mem_cons_self) hl.laid.capacity_dvd hl.laid.capacity_ne
      hl.laid.capacity_le
    exact ⟨m, m', hm, hst, hs'.sublist (List.sublist_cons_self _ _), Or.inr ⟨hok, hs', hborrow⟩⟩

/-- `next_arena` is refused, or the pool stands at the start of a fresh arena and the old one's
rest is on the lists. -/
theorem nextArena (hl : Ledger h lent cached) (hfresh : PoolFresh host h) :
    ((nextArena host h).1.isError = true ∧
      Ledger (nextArena host h).2 lent cached) ∨
    ((nextArena host h).1 = .success ∧
      SameGrades h (nextArena host h).2 ∧
      (nextArena host h).2.pool.remaining = h.pool.arenaCapacity ∧
      ∃ cached', Ledger (nextArena host h).2 lent cached') := by
  obtain ⟨m, m', hm, hst, hkept, hanswer⟩ := hl.askChain hfresh
  unfold Pool.nextArena
  simp only [hm]
  rcases hanswer with herr | ⟨hok, hs', hborrow⟩
  · left
    rw [if_neg (Result.ne_success_of_isError herr), hst]
    exact ⟨herr, hl.withSource hkept⟩
  · right
    rw [if_pos hok, hst]
    -- the chain has handed out the arena; the pool still works on the old one
    obtain ⟨cached', hsplit, hshape, hlt⟩ := (hl.withSource hkept).splitCurrent
    generalize Pool.splitCurrent _ = h₁ at hsplit hshape hlt ⊢
    obtain ⟨hsource, hmin, hmax, hcap, htaken⟩ := hshape
    simp only at hsource hmin hmax hcap htaken hlt
    rw [← hmin] at hlt
    generalize Memory.alloc host 0 h.pool.arenaCapacity (Allocator.multiArena m) = got at *
    have hblocks :
        Sound m'.arenas (takenBlocks h₁.pool.arenaCapacity (got.buffer :: h₁.taken)) := by
      rw [hcap, htaken]
      exact hs'
    rw [← hcap] at hborrow
    simp only [hborrow]
    exact ⟨trivial, ⟨hmin, hmax⟩, hcap, cached', hsplit.enter hlt hsource hblocks⟩

/-- `arnm_graded_block_pool_alloc_fresh` is refused, or hands out a block of the grade. -/
theorem allocFresh (hl : Ledger h lent cached) (hfresh : PoolFresh host h) (buffer : Nat)
    {log2 : Nat} (hmin : h.pool.minLog2 ≤ log2) (hmax : log2 ≤ h.pool.maxLog2) :
    ((allocFresh host buffer log2 h).result.isError = true ∧
      (allocFresh host buffer log2 h).buffer = buffer ∧
      Ledger (allocFresh host buffer log2 h).state lent cached) ∨
    ((allocFresh host buffer log2 h).result = .success ∧
      SameGrades h (allocFresh host buffer log2 h).state ∧
        ∃ cached', Ledger (allocFresh host buffer log2 h).state
        (⟨(allocFresh host buffer log2 h).buffer, log2⟩ :: lent) cached') := by
  obtain ⟨m, hm, -⟩ := hl.laid.source
  have hsome : ¬ h.pool.source.isNone = true := by simp [hm]
  unfold Pool.allocFresh
  rw [if_neg hsome]
  by_cases hroom : h.pool.remaining < 2 ^ log2
  · rw [if_pos hroom]
    rcases hl.nextArena hfresh with ⟨herr, hl'⟩ | ⟨hok, hgrades, hrem, cached', hl'⟩
    · left
      split
      · rename_i heq
        rw [heq] at herr
        cases herr
      · rename_i heq
        rw [heq] at herr hl'
        exact ⟨herr, rfl, hl'⟩
    · right
      split
      · rename_i h' heq
        rw [heq] at hgrades hrem hl'
        simp only at hrem hl'
        obtain ⟨hmin', hmax'⟩ := id hgrades
        simp only at hmin' hmax'
        -- the split of the old rest may have put a block of the grade on its list
        by_cases hhead : h'.pool.freeHead (log2 - h'.pool.minLog2) = 0
        · rw [if_neg (not_not.mpr hhead)]
          have hfits : 2 ^ log2 ≤ h'.pool.remaining := by
            rw [hrem]
            exact hl.laid.two_pow_le_capacity hmax
          obtain ⟨hcut, hl''⟩ := hl'.cutFresh (hmin' ▸ hmin) (hmax' ▸ hmax) hfits
          exact ⟨hcut, (cutFresh_grades log2 h').trans hgrades, cached', hl''⟩
        · rw [if_pos hhead]
          exact ⟨rfl, hgrades, hl'.popFree (hmin' ▸ hmin) hhead⟩
      · rename_i hne heq
        rw [heq] at hok
        exact absurd hok hne
  · rw [if_neg hroom]
    right
    obtain ⟨hcut, hl'⟩ := hl.cutFresh hmin hmax (by omega)
    exact ⟨hcut, cutFresh_grades log2 h, cached, hl'⟩

/-- `arnm_graded_block_pool_alloc_log2` is refused, or hands out a block of the grade. -/
theorem allocLog2 (hl : Ledger h lent cached) (hfresh : PoolFresh host h) (buffer log2 : Nat) :
    ((allocLog2 host buffer log2 h).result.isError = true ∧
      (allocLog2 host buffer log2 h).buffer = buffer ∧
      Ledger (allocLog2 host buffer log2 h).state lent cached) ∨
    ((allocLog2 host buffer log2 h).result = .success ∧
      SameGrades h (allocLog2 host buffer log2 h).state ∧
        ∃ cached', Ledger (allocLog2 host buffer log2 h).state
        (⟨(allocLog2 host buffer log2 h).buffer, gradeOf h.pool log2⟩ :: lent) cached') := by
  unfold Pool.allocLog2
  by_cases hbig : h.pool.maxLog2 < log2
  · rw [if_pos hbig]
    exact Or.inl ⟨rfl, rfl, hl⟩
  · rw [if_neg hbig]
    have hmin : h.pool.minLog2 ≤ gradeOf h.pool log2 := by
      unfold gradeOf
      split <;> omega
    have hmax : gradeOf h.pool log2 ≤ h.pool.maxLog2 := by
      have := hl.laid.le_max
      unfold gradeOf
      split <;> omega
    simp only
    by_cases hhead : h.pool.freeHead (gradeOf h.pool log2 - h.pool.minLog2) = 0
    · rw [if_pos hhead]
      exact hl.allocFresh hfresh buffer hmin hmax
    · rw [if_neg hhead]
      exact Or.inr ⟨rfl, ⟨rfl, rfl⟩, hl.popFree hmin hhead⟩

/-- `arnm_graded_block_pool_alloc` is refused, or hands out a block of the size's grade. -/
theorem alloc (hl : Ledger h lent cached) (hfresh : PoolFresh host h) (buffer size : Nat) :
    ((alloc host buffer size h).result.isError = true ∧
      (alloc host buffer size h).buffer = buffer ∧
      Ledger (alloc host buffer size h).state lent cached) ∨
    ((alloc host buffer size h).result = .success ∧
      SameGrades h (alloc host buffer size h).state ∧
      ∃ log2, sizeToLog2 h.pool size = .ok log2 ∧ ∃ cached',
        Ledger (alloc host buffer size h).state
          (⟨(alloc host buffer size h).buffer, log2⟩ :: lent) cached') := by
  obtain ⟨m, hm, -⟩ := hl.laid.source
  unfold Pool.alloc
  rw [if_neg (by simp [hm])]
  cases hsize : sizeToLog2 h.pool size with
  | error result =>
      exact Or.inl ⟨sizeToLog2_error hsize, rfl, hl⟩
  | ok log2 =>
      simp only
      have hmin := (sizeToLog2_ok hsize hl.laid.le_max).2.1
      refine (hl.allocLog2 hfresh buffer log2).imp_right ?_
      rintro ⟨hok, hgrades, cached', hl'⟩
      rw [gradeOf_of_le hmin] at hl'
      exact ⟨hok, hgrades, log2, rfl, cached', hl'⟩

/-! ## Giving back -/

/-- A block lent goes onto the list of its grade. -/
theorem freeLog2 (hl : Ledger h lent cached) {buffer log2 : Nat}
    (hb : ⟨buffer, gradeOf h.pool log2⟩ ∈ lent) :
    (freeLog2 buffer log2 h).1 = .success ∧ SameGrades h (freeLog2 buffer log2 h).2 ∧
      Ledger (freeLog2 buffer log2 h).2 (lent.erase ⟨buffer, gradeOf h.pool log2⟩)
        (⟨buffer, gradeOf h.pool log2⟩ :: cached) := by
  have hin : (⟨buffer, gradeOf h.pool log2⟩ : PoolBlock) ∈ lent ++ cached :=
    List.mem_append_left _ hb
  obtain ⟨hne, hlt⟩ := hl.laid.addr_bounds hin
  obtain ⟨hmin, hmax⟩ := hl.laid.grade _ hin
  have hweight := weight_erase hb
  have hlent := hl.lentBytes
  have hcached := hl.cachedBytes
  have htotal := hl.total
  simp only at hne hlt hmin hmax hweight
  -- a block lent is of a grade of the pool, so the request cannot be above the largest
  have hsmall : ¬ h.pool.maxLog2 < log2 := by
    unfold gradeOf at hmax
    have := hl.laid.le_max
    split at hmax <;> omega
  unfold Pool.freeLog2
  rw [if_neg hne, if_neg hsmall]
  simp only
  rw [if_neg (by omega)]
  refine ⟨rfl, ⟨rfl, rfl⟩, ?_, ?_, ?_, ?_, ?_⟩
  · refine (hl.laid.perm ?_).recount _ _ _
    exact ((List.perm_cons_erase hb).append_right cached).trans List.perm_middle.symm
  · refine hl.listed.push hne hmin (fun b hb' => ?_) fun b hb' => hl.link_apart hb hb'
    exact (hl.laid.addr_bounds (List.mem_append_right _ hb')).2
  · simp only [pushFree]
    omega
  · simp only [pushFree, weight_cons]
    omega
  · simp only [pushFree, GradedBlockPool.remaining] at htotal ⊢
    omega

theorem free (hl : Ledger h lent cached) {buffer size log2 : Nat}
    (hsize : sizeToLog2 h.pool size = .ok log2) (hb : ⟨buffer, log2⟩ ∈ lent) :
    (free buffer size h).1 = .success ∧ SameGrades h (free buffer size h).2 ∧
      Ledger (free buffer size h).2 (lent.erase ⟨buffer, log2⟩) (⟨buffer, log2⟩ :: cached) := by
  obtain ⟨m, hm, -⟩ := hl.laid.source
  have hne := (hl.laid.addr_bounds (List.mem_append_left cached hb)).1
  have hmin := (sizeToLog2_ok hsize hl.laid.le_max).2.1
  unfold Pool.free
  rw [if_neg hne, if_neg (by simp [hm]), hsize]
  rw [← gradeOf_of_le hmin] at hb
  have hfree := hl.freeLog2 hb
  rw [gradeOf_of_le hmin] at hfree
  exact hfree

/-! ## Writing -/

/-- The client may write into its blocks: the free lists lie elsewhere. -/
theorem write (hl : Ledger h lent cached) (bytes : Bytes)
    (hout : ∀ x, (∀ b ∈ lent, ¬ b.room.Has x) → bytes x = h.bytes x) :
    Ledger { h with bytes := bytes } lent cached := by
  refine ⟨hl.laid, ?_, hl.lentBytes, hl.cachedBytes, hl.total⟩
  refine hl.listed.congr fun c hc x hx => hout x fun b hb hbx => ?_
  have hall := (List.pairwise_append.mp hl.laid.apart).2.1
  rw [List.map_append] at hall
  have hapart := (List.pairwise_append.mp hall).2.2 _ (List.mem_map_of_mem hb) _
    (List.mem_map_of_mem hc)
  exact hapart.not_has hbx
    ((hl.laid.link_within (List.mem_append_right _ hc)).has hx)

/-! ## Moving, and starting over -/

/-- `arnm_graded_block_pool_realloc` is refused, or hands out a block of the new size's grade and
takes the old one back. -/
theorem realloc (hl : Ledger h lent cached) (hfresh : PoolFresh host h)
    {buffer oldSize newSize log2 : Nat}
    (hold : buffer ≠ 0 → sizeToLog2 h.pool oldSize = .ok log2 ∧ ⟨buffer, log2⟩ ∈ lent) :
    ((realloc host buffer oldSize newSize h).result.isError = true ∧
      Ledger (realloc host buffer oldSize newSize h).state lent cached) ∨
    ((realloc host buffer oldSize newSize h).result = .success ∧
      ∃ log2', sizeToLog2 h.pool newSize = .ok log2' ∧ ∃ cached',
        Ledger (realloc host buffer oldSize newSize h).state
          (⟨(realloc host buffer oldSize newSize h).buffer, log2'⟩ ::
            if buffer = 0 then lent else lent.erase ⟨buffer, log2⟩) cached') := by
  unfold Pool.realloc
  rcases hl.alloc hfresh 0 newSize with
    ⟨herr, -, hl'⟩ | ⟨hok, hgrades, log2', hsize, cached', hl'⟩
  · left
    rw [if_neg (Result.ne_success_of_isError herr)]
    exact ⟨herr, hl'⟩
  · right
    simp only [if_pos hok]
    generalize Pool.alloc host 0 newSize h = got at *
    by_cases hz : buffer = 0
    · rw [if_neg (by simp [hz])]
      simp only [if_pos hz]
      exact ⟨trivial, log2', hsize, cached', hl'⟩
    · obtain ⟨holdsize, hb⟩ := hold hz
      have hne := (sizeToLog2_ok holdsize hl.laid.le_max).1
      rw [if_pos ⟨hz, hne⟩, if_neg hz]
      have hfit := (sizeToLog2_ok hsize hl.laid.le_max).2.2.2
      -- the copy stays within the new block
      have hcopied := hl'.write (got.state.bytes.copy got.buffer buffer (min oldSize newSize))
        fun x hx => by
          have hnew := hx _ List.mem_cons_self
          have hout : ¬ (got.buffer ≤ x ∧ x < got.buffer + min oldSize newSize) := by
            rintro ⟨hlo, hhi⟩
            refine hnew ⟨hlo, ?_⟩
            simp only [PoolBlock.room, Region.stop_mk]
            omega
          simp only [Bytes.copy, if_neg hout]
      have hsame : sizeToLog2 got.state.pool oldSize = .ok log2 := by
        rw [sizeToLog2_congr hgrades, holdsize]
      have hmem : (⟨buffer, log2⟩ : PoolBlock) ∈ ⟨got.buffer, log2'⟩ :: lent :=
        List.mem_cons_of_mem _ hb
      obtain ⟨hfreed, -, hl''⟩ := hcopied.free hsame hmem
      rw [hfreed, if_pos rfl]
      refine ⟨rfl, log2', hsize, _, hl''.perm ?_⟩
      refine (List.perm_cons ⟨buffer, log2⟩).mp ?_
      exact (List.perm_cons_erase hmem).symm.trans
        (((List.perm_cons_erase hb).cons _).trans (List.Perm.swap _ _ _))

/-- `arnm_graded_block_pool_reset` takes back everything. -/
theorem reset (hl : Ledger h lent cached) : Ledger (reset h) [] [] := by
  obtain ⟨m, hm, hs⟩ := hl.laid.source
  have hreset := hs.reset
  refine ⟨?_, fun i => ?_, rfl, rfl, ?_⟩
  · exact
      { hl.laid with
        source := ⟨_, by rw [Pool.reset, hm]; rfl, hreset⟩
        current := rfl
        grade := fun b hb => absurd hb List.not_mem_nil
        addr_dvd := fun b hb => absurd hb List.not_mem_nil
        within := fun b hb => absurd hb List.not_mem_nil
        apart := List.Pairwise.nil }
  · exact Linked.nil
  · simp [Pool.reset, GradedBlockPool.remaining]

end Ledger

end Arnm.Pool
