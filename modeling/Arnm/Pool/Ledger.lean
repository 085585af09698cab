import Arnm.Pool.Carve

set_option autoImplicit false

/-! # The ledger of a pool

`Ledger h lent cached` says that the pool `h` has handed out the blocks `lent` and keeps the blocks
`cached` on its free lists: the blocks are laid out in the arenas taken, the lists are linked up,
and the counters add up to the arenas taken. One lemma for each step of the pool. -/

namespace Arnm.Pool

open Arnm.Memory

/-- The bytes of the blocks, counted in whole grades. -/
def weight (blocks : List PoolBlock) : Nat := (blocks.map fun b => 2 ^ b.log2).sum

@[simp] theorem weight_nil : weight [] = 0 := rfl

@[simp] theorem weight_cons (b : PoolBlock) (blocks : List PoolBlock) :
    weight (b :: blocks) = 2 ^ b.log2 + weight blocks := rfl

theorem weight_perm {blocks blocks' : List PoolBlock} (h : blocks.Perm blocks') :
    weight blocks = weight blocks' := (h.map _).sum_eq

theorem weight_erase {blocks : List PoolBlock} {b : PoolBlock} (hb : b ∈ blocks) :
    weight blocks = 2 ^ b.log2 + weight (blocks.erase b) :=
  weight_perm (List.perm_cons_erase hb)

/-- What holds of a pool, the blocks it has lent and the blocks it keeps. -/
structure Ledger (h : PoolHeap) (lent cached : List PoolBlock) : Prop where
  laid : Laid h.pool h.taken (lent ++ cached)
  listed : Listed h.pool.minLog2 h.pool.freeHead h.bytes cached
  lentBytes : h.pool.lentBytes = weight lent
  cachedBytes : h.pool.cachedBytes = weight cached
  total : h.pool.lentBytes + h.pool.cachedBytes + h.pool.remaining +
    (h.taken.length - 1) * (h.pool.arenaCapacity % 2 ^ h.pool.minLog2) =
      h.taken.length * h.pool.arenaCapacity

/-- The parts of a pool that cutting blocks does not touch. -/
structure SameShape (h h' : PoolHeap) : Prop where
  source : h'.pool.source = h.pool.source
  minLog2 : h'.pool.minLog2 = h.pool.minLog2
  maxLog2 : h'.pool.maxLog2 = h.pool.maxLog2
  arenaCapacity : h'.pool.arenaCapacity = h.pool.arenaCapacity
  taken : h'.taken = h.taken

theorem SameShape.refl (h : PoolHeap) : SameShape h h := ⟨rfl, rfl, rfl, rfl, rfl⟩

theorem SameShape.trans {h₁ h₂ h₃ : PoolHeap} (h : SameShape h₁ h₂) (k : SameShape h₂ h₃) :
    SameShape h₁ h₃ :=
  ⟨k.source.trans h.source, k.minLog2.trans h.minLog2, k.maxLog2.trans h.maxLog2,
    k.arenaCapacity.trans h.arenaCapacity, k.taken.trans h.taken⟩

/-! ## Cutting -/

/-- The current arena hands out its next bytes. -/
theorem cutCurrent_eq {h : PoolHeap} {a : Arena} {log2 : Nat} (ha : h.pool.current = some a)
    (hd : a.data ≠ 0) (hmin : 3 ≤ log2) (hmax : log2 ≤ 31) (hroom : 2 ^ log2 ≤ a.remainingBytes) :
    cutCurrent (2 ^ log2) h = (a.data + a.lastIndex,
      { h with pool := { h.pool with current := some (a.bump (2 ^ log2)) } }) := by
  have hle := two_pow_le_maxAllocSize hmax
  have halign := align8U32_of_dvd (eight_dvd_two_pow hmin) hle
  unfold cutCurrent
  rw [ha]
  simp only [halign]
  rcases arenaAllocAligned_cases 0 (2 ^ log2) a with ⟨-, -, hwhy, -⟩ | ⟨-, -, hok⟩
  · omega
  · rw [hok]

namespace Ledger

variable {h : PoolHeap} {lent cached : List PoolBlock}

/-- A pool that has room left has a current arena, over a buffer that is there. -/
theorem current_of_room (hl : Ledger h lent cached) {n : Nat} (hn : n ≠ 0)
    (hroom : n ≤ h.pool.remaining) :
    ∃ a, h.pool.current = some a ∧ a.data ≠ 0 ∧ a.remainingBytes = h.pool.remaining := by
  have hcur := hl.laid.current
  cases htaken : h.taken with
  | nil =>
      rw [htaken, OnYoungest] at hcur
      rw [GradedBlockPool.remaining, hcur] at hroom
      exact absurd (Nat.le_zero.mp hroom) hn
  | cons base older =>
      rw [htaken] at hcur
      obtain ⟨a, ha, hdata, -⟩ := hcur
      obtain ⟨m, -, hm⟩ := hl.laid.source
      obtain ⟨-, hne, -⟩ := hl.laid.base_within hm (htaken ▸ List.mem_cons_self)
      exact ⟨a, ha, hdata ▸ hne, by rw [GradedBlockPool.remaining, ha]⟩

/-- What is left of an arena is what its capacity leaves over, but for whole grades. -/
theorem remaining_mod (hl : Ledger h lent cached) (hne : h.taken ≠ []) :
    h.pool.remaining % 2 ^ h.pool.minLog2 = h.pool.arenaCapacity % 2 ^ h.pool.minLog2 := by
  have hcur := hl.laid.current
  cases htaken : h.taken with
  | nil => exact absurd htaken hne
  | cons base older =>
      rw [htaken] at hcur
      obtain ⟨a, ha, -, hcap, hle, k, hk⟩ := hcur
      rw [GradedBlockPool.remaining, ha, ← hcap]
      simp only [Arena.remainingBytes]
      have hsplit : a.capacity = (a.capacity - a.lastIndex) + 2 ^ h.pool.minLog2 * k := by omega
      conv_rhs => rw [hsplit, Nat.add_mul_mod_self_left]

/-- The lists' blocks lie apart from the first bytes of a block lent, and can be pointed at. -/
theorem link_apart (hl : Ledger h lent cached) {x b : PoolBlock} (hx : x ∈ lent)
    (hb : b ∈ cached) : (Linked.link x.addr).Apart (Linked.link b.addr) := by
  have hall := (List.pairwise_append.mp hl.laid.apart).2.1
  rw [List.map_append] at hall
  have hapart := (List.pairwise_append.mp hall).2.2 _ (List.mem_map_of_mem hx) _
    (List.mem_map_of_mem hb)
  exact hapart.within (hl.laid.link_within (List.mem_append_left _ hx))
    (hl.laid.link_within (List.mem_append_right _ hb))

/-- A block is cut from the current arena and handed out. -/
theorem cutFresh (hl : Ledger h lent cached) {log2 : Nat} (hmin : h.pool.minLog2 ≤ log2)
    (hmax : log2 ≤ h.pool.maxLog2) (hroom : 2 ^ log2 ≤ h.pool.remaining) :
    (cutFresh log2 h).result = .success ∧
      Ledger (cutFresh log2 h).state (⟨(cutFresh log2 h).buffer, log2⟩ :: lent) cached := by
  obtain ⟨a, ha, hd, hrem⟩ := hl.current_of_room (Nat.two_pow_pos log2).ne' hroom
  rw [← hrem] at hroom
  have hcut := cutCurrent_eq ha hd (Nat.le_trans hl.laid.min_le hmin)
    (Nat.le_trans hmax hl.laid.max_le) hroom
  unfold Pool.cutFresh
  rw [hcut]
  refine ⟨rfl, (hl.laid.cut ha hmin hmax hroom).recount _ _ _, hl.listed, ?_, hl.cachedBytes, ?_⟩
  · simp only [weight_cons, hl.lentBytes]
    omega
  · have htotal := hl.total
    have hleft := Arena.remainingBytes_bump hroom
    rw [← hrem] at htotal
    simp only [GradedBlockPool.remaining]
    omega

/-- A piece of the current arena's rest goes onto its list. -/
theorem splitPiece (hl : Ledger h lent cached) {log2 : Nat} (hmin : h.pool.minLog2 ≤ log2)
    (hmax : log2 ≤ h.pool.maxLog2) (hroom : 2 ^ log2 ≤ h.pool.remaining) :
    ∃ piece, Ledger (splitPiece log2 h) lent (piece :: cached) ∧
      SameShape h (splitPiece log2 h) ∧
      (splitPiece log2 h).pool.remaining = h.pool.remaining - 2 ^ log2 := by
  obtain ⟨a, ha, hd, hrem⟩ := hl.current_of_room (Nat.two_pow_pos log2).ne' hroom
  rw [← hrem] at hroom
  have hcut := cutCurrent_eq ha hd (Nat.le_trans hl.laid.min_le hmin)
    (Nat.le_trans hmax hl.laid.max_le) hroom
  have hlaid := hl.laid.cut ha hmin hmax hroom
  have hleft := Arena.remainingBytes_bump hroom
  refine ⟨⟨a.data + a.lastIndex, log2⟩, ?_, ?_, ?_⟩
  · unfold Pool.splitPiece pushFree
    rw [hcut]
    have hpiece := hlaid.addr_bounds List.mem_cons_self
    refine ⟨(hlaid.perm List.perm_middle.symm).recount _ _ _, ?_, hl.lentBytes, ?_, ?_⟩
    · -- the link is written into the piece itself, apart from all other blocks
      refine hl.listed.push hpiece.1 hmin (fun b hb => ?_) fun b hb => ?_
      · exact (hl.laid.addr_bounds (List.mem_append_right _ hb)).2
      · have hin : b ∈ lent ++ cached := List.mem_append_right _ hb
        exact (hlaid.head_apart hin).within (hlaid.link_within List.mem_cons_self)
          (hlaid.link_within (List.mem_cons_of_mem _ hin))
    · simp only [weight_cons, hl.cachedBytes]
      omega
    · have htotal := hl.total
      rw [← hrem] at htotal
      simp only [GradedBlockPool.remaining]
      omega
  · unfold Pool.splitPiece pushFree
    rw [hcut]
    exact ⟨rfl, rfl, rfl, rfl, rfl⟩
  · unfold Pool.splitPiece pushFree
    rw [hcut, ← hrem, hleft, Nat.add_sub_cancel_left]
    rfl

/-- The inner loop of the split leaves less than a block of the grade. -/
theorem splitGrade {log2 : Nat} (fuel left : Nat) (hl : Ledger h lent cached)
    (hmin : h.pool.minLog2 ≤ log2) (hmax : log2 ≤ h.pool.maxLog2) (hleft : left = h.pool.remaining)
    (hfuel : left ≤ fuel) :
    ∃ cached', Ledger (splitGrade log2 fuel left h).2 lent cached' ∧
      SameShape h (splitGrade log2 fuel left h).2 ∧
      (splitGrade log2 fuel left h).1 = (splitGrade log2 fuel left h).2.pool.remaining ∧
      (splitGrade log2 fuel left h).1 < 2 ^ log2 := by
  induction fuel generalizing left h cached with
  | zero =>
      have hpos := Nat.two_pow_pos log2
      exact ⟨cached, hl, SameShape.refl h, hleft, by simp only [Pool.splitGrade]; omega⟩
  | succ fuel ih =>
      unfold Pool.splitGrade
      by_cases hroom : 2 ^ log2 ≤ left
      · rw [if_pos hroom]
        have hpos := Nat.two_pow_pos log2
        obtain ⟨piece, hpiece, hshape, hrem⟩ := hl.splitPiece hmin hmax (hleft ▸ hroom)
        obtain ⟨cached', hl', hshape', heq, hlt⟩ := ih (left - 2 ^ log2) hpiece
          (by rw [hshape.minLog2]; exact hmin) (by rw [hshape.maxLog2]; exact hmax)
          (by rw [hrem, hleft]) (by omega)
        exact ⟨cached', hl', hshape.trans hshape', heq, hlt⟩
      · rw [if_neg hroom]
        exact ⟨cached, hl, SameShape.refl h, hleft, by omega⟩

/-- The outer loop of the split leaves less than a block of the smallest grade. -/
theorem splitFrom (log2 left : Nat) (hl : Ledger h lent cached) (hmax : log2 ≤ h.pool.maxLog2)
    (hleft : left = h.pool.remaining)
    (hmin : h.pool.minLog2 ≤ log2 ∨ left < 2 ^ h.pool.minLog2) :
    ∃ cached', Ledger (splitFrom log2 left h).2 lent cached' ∧
      SameShape h (splitFrom log2 left h).2 ∧
      (splitFrom log2 left h).2.pool.remaining < 2 ^ h.pool.minLog2 := by
  induction log2 generalizing left h cached with
  | zero =>
      have hpos := hl.laid.min_le
      have hstop : ¬ 2 ^ h.pool.minLog2 ≤ left := by omega
      unfold Pool.splitFrom
      rw [if_neg hstop]
      exact ⟨cached, hl, SameShape.refl h, by simp only; omega⟩
  | succ log2 ih =>
      unfold Pool.splitFrom
      by_cases hroom : 2 ^ h.pool.minLog2 ≤ left
      · rw [if_pos hroom]
        have hgrade : h.pool.minLog2 ≤ log2 + 1 := by omega
        obtain ⟨cached', hl', hshape, heq, hlt⟩ :=
          hl.splitGrade left left hgrade hmax hleft (Nat.le_refl _)
        -- one grade further down, or nothing left for any grade
        have hnext : h.pool.minLog2 ≤ log2 ∨
            (Pool.splitGrade (log2 + 1) left left h).1 < 2 ^ h.pool.minLog2 := by
          rcases Nat.lt_or_ge log2 h.pool.minLog2 with hlow | hge
          · have hgrade' : log2 + 1 = h.pool.minLog2 := by omega
            exact Or.inr (hgrade' ▸ hlt)
          · exact Or.inl hge
        obtain ⟨cached'', hl'', hshape', hlt'⟩ := ih (Pool.splitGrade (log2 + 1) left left h).1 hl'
          (by rw [hshape.maxLog2]; omega) heq (by rw [hshape.minLog2]; exact hnext)
        exact ⟨cached'', hl'', hshape.trans hshape', hshape.minLog2 ▸ hlt'⟩
      · rw [if_neg hroom]
        exact ⟨cached, hl, SameShape.refl h, by simp only; omega⟩

theorem splitCurrent (hl : Ledger h lent cached) :
    ∃ cached', Ledger (splitCurrent h) lent cached' ∧ SameShape h (splitCurrent h) ∧
      (splitCurrent h).pool.remaining < 2 ^ h.pool.minLog2 :=
  hl.splitFrom _ _ (Nat.le_refl _) rfl (Or.inl hl.laid.le_max)

end Ledger

end Arnm.Pool
