import Arnm.ArenaPool.DynamicSteps

set_option autoImplicit false

/-! # The operations of a dynamic arena pool

`Stock` is a pool whose counters count the arenas lent and those in stock. Each operation keeps it
and leaves all other blocks of the host alone; an operation that is refused leaves the pool as it
was. -/

namespace Arnm.ArenaPool.Dynamic

open Memory

variable {σ : Type} {p : Provider σ} {st : State (σ × List Block)} {others made : List Block}
  {lent spare : List Nat}

/-- An initialised pool with the arenas it lent and those it keeps in stock. -/
structure Stock (p : Provider σ) (st : State (σ × List Block)) (lent spare : List Nat)
    (others made : List Block) : Prop where
  owned : Owned p st.pool.arenaCapacity st.pool.freeHead st.store lent spare others made
  spare_eq : st.pool.spareCount = spare.length
  le_limit : spare.length ≤ st.pool.spareLimit
  limit_lt : st.pool.spareLimit < 2 ^ 32
  acquired : st.pool.acquiredCount = lent.length
  acquired_lt : lent.length < 2 ^ 32

/-- The pool is of the size and has the limit it was made with. -/
def SameSize (pool pool' : DynamicArenaPool) : Prop :=
  pool'.arenaCapacity = pool.arenaCapacity ∧ pool'.spareLimit = pool.spareLimit

/-- A pool just made has no arenas. -/
theorem init_stock {pool : DynamicArenaPool} {s : Store (σ × List Block)}
    {arenaCapacity spareLimit : Nat} (hlimit : spareLimit < 2 ^ 32)
    (hheld : p.recorded.holds s.heap others) (hmade : s.heap.2.Perm made)
    (hok : (init pool arenaCapacity spareLimit).1 = .success) :
    Stock p ⟨(init pool arenaCapacity spareLimit).2, s⟩ [] [] others made ∧
      (init pool arenaCapacity spareLimit).2.arenaCapacity = align8U32 arenaCapacity ∧
      (init pool arenaCapacity spareLimit).2.spareLimit = spareLimit := by
  unfold init at hok ⊢
  split at hok
  · cases hok
  rename_i hparam
  rw [if_neg hparam]
  dsimp only at hok ⊢
  split at hok
  · cases hok
  rename_i haligned
  rw [if_neg haligned]
  split at hok
  · cases hok
  rename_i hfits
  rw [if_neg hfits]
  have hroom : 8 ≤ align8U32 arenaCapacity :=
    Nat.le_of_dvd (Nat.pos_of_ne_zero haligned) (align8U32_dvd _)
  have htotal : descriptorSize + align8U32 arenaCapacity ≤ maxAllocSize := by
    unfold descriptorSize maxAllocSize at *
    omega
  exact ⟨⟨⟨.nil _ _ _ hroom, htotal, hheld, hmade⟩, rfl, Nat.zero_le _, hlimit, rfl, by decide⟩,
    rfl, rfl⟩

namespace Stock

theorem capacity_ne (h : Stock p st lent spare others made) : st.pool.arenaCapacity ≠ 0 := by
  have hroom := h.owned.lends.room
  omega

/-- The store moves on and leaves the pool's arenas alone. -/
theorem frame {s : Store (σ × List Block)} {others' made' : List Block}
    (h : Stock p st lent spare others made)
    (hframe : Frame p st.store s (arenaBlocks st.pool.arenaCapacity (lent ++ spare)))
    (hheld : p.recorded.holds s.heap
      (arenaBlocks st.pool.arenaCapacity (lent ++ spare) ++ others'))
    (hmade : s.heap.2.Perm (arenaBlocks st.pool.arenaCapacity (lent ++ spare) ++ made')) :
    Stock p { st with store := s } lent spare others' made' :=
  ⟨⟨h.owned.lends_of_frame hframe, h.owned.fits, hheld, hmade⟩, h.spare_eq, h.le_limit, h.limit_lt,
    h.acquired, h.acquired_lt⟩

/-- An arena comes out of the stock or is made; a refusal leaves the pool as it was. -/
theorem alloc (h : Stock p st lent spare others made) :
    let r := Dynamic.alloc p.recorded.toCalls st true
    Frame p st.store r.2.2.store (arenaBlocks st.pool.arenaCapacity (lent ++ spare) ++ others) ∧
    SameSize st.pool r.2.2.pool ∧
    (r.1 ≠ .success ∧ r.2.2.pool = st.pool ∧ Stock p r.2.2 lent spare others made ∨
      r.1 = .success ∧ r.2.1 ∉ lent ∧
        r.2.2.store.descriptors r.2.1 = fresh (bufferAt r.2.1) st.pool.arenaCapacity ∧
        ∃ spare', Stock p r.2.2 (r.2.1 :: lent) spare' others made) := by
  intro r
  have hr : r = Dynamic.alloc p.recorded.toCalls st true := rfl
  unfold Dynamic.alloc at hr
  rw [if_neg (by decide)] at hr
  dsimp only at hr
  rw [if_neg h.capacity_ne] at hr
  by_cases hfull : st.pool.acquiredCount = 2 ^ 32 - 1
  · rw [if_pos hfull] at hr
    rw [hr]
    exact ⟨Frame.refl _ _ _, ⟨rfl, rfl⟩, Or.inl ⟨(fun hok => nomatch hok), rfl, h⟩⟩
  rw [if_neg hfull] at hr
  have hlt : lent.length + 1 < 2 ^ 32 := by
    have hacquired := h.acquired
    have hacquired' := h.acquired_lt
    omega
  -- an arena in stock is taken first; the host is asked for one only without
  by_cases hhead : st.pool.freeHead ≠ 0
  · rw [if_pos hhead] at hr
    obtain ⟨rest, rfl, howned⟩ := h.owned.lend hhead
    rw [hr]
    refine ⟨Frame.refl _ _ _, ⟨rfl, rfl⟩, Or.inr ⟨rfl, ?_, ?_, rest, howned, ?_, ?_, h.limit_lt, ?_,
      hlt⟩⟩
    · exact fun hin => h.owned.lends.ne_of_mem hin List.mem_cons_self rfl
    · exact h.owned.lends.empty _ List.mem_cons_self
    · show st.pool.spareCount - 1 = rest.length
      rw [h.spare_eq, List.length_cons, Nat.add_sub_cancel]
    · exact Nat.le_of_succ_le h.le_limit
    · show st.pool.acquiredCount + 1 = _
      rw [h.acquired, List.length_cons]
  · rw [if_neg hhead] at hr
    obtain ⟨hframe, hcase⟩ := h.owned.make
    generalize makeArena p.recorded.toCalls st.pool.arenaCapacity st.store = arena
      at hframe hcase hr
    rcases hcase with ⟨hz, howned⟩ | ⟨hne, howned, hfresh⟩
    · rw [if_pos hz] at hr
      rw [hr]
      exact ⟨hframe, ⟨rfl, rfl⟩, Or.inl ⟨(fun hok => nomatch hok), rfl, howned, h.spare_eq,
        h.le_limit, h.limit_lt, h.acquired, h.acquired_lt⟩⟩
    · rw [if_neg hne] at hr
      rw [hr]
      refine ⟨hframe, ⟨rfl, rfl⟩, Or.inr ⟨rfl, ?_, hfresh, spare, howned, h.spare_eq, h.le_limit,
        h.limit_lt, ?_, hlt⟩⟩
      · have hnodup := howned.lends.nodup
        exact fun hin => (List.nodup_cons.mp hnodup).1 (List.mem_append_left _ hin)
      · show st.pool.acquiredCount + 1 = _
        rw [h.acquired, List.length_cons]

/-- A lent arena comes back into the stock, or goes to the host where the stock is full. -/
theorem free {arena : Nat} (h : Stock p st lent spare others made) (ha : arena ∈ lent) :
    let r := Dynamic.free p.recorded.toCalls st arena
    Frame p st.store r.2.store others ∧ SameSize st.pool r.2.pool ∧ r.1 = .success ∧
      ∃ spare', Stock p r.2 (lent.erase arena) spare' others made := by
  intro r
  have hr : r = Dynamic.free p.recorded.toCalls st arena := rfl
  have hpos := List.length_pos_of_mem ha
  have hne : st.pool.acquiredCount ≠ 0 := by
    rw [h.acquired]
    omega
  have hcount : st.pool.acquiredCount - 1 = (lent.erase arena).length := by
    rw [h.acquired, List.length_erase_of_mem ha]
  have hcount_lt : (lent.erase arena).length < 2 ^ 32 :=
    Nat.lt_of_le_of_lt List.erase_sublist.length_le h.acquired_lt
  unfold Dynamic.free at hr
  dsimp only at hr
  rw [if_neg (h.owned.lends.addr _ (List.mem_append_left _ ha)).1, if_neg h.capacity_ne,
    if_neg hne] at hr
  have hlimit := h.le_limit
  have hlimit_lt := h.limit_lt
  -- with the stock full the arena is reset and goes back to the host
  by_cases hroom : st.pool.spareCount < st.pool.spareLimit
  · rw [if_pos hroom] at hr
    obtain ⟨howned, hframe⟩ := h.owned.giveBack ha
    rw [hr]
    rw [h.spare_eq] at hroom
    refine ⟨hframe, ⟨rfl, rfl⟩, rfl, arena :: spare, howned, ?_, ?_, hlimit_lt, hcount, hcount_lt⟩
    · show st.pool.spareCount + 1 = _
      rw [h.spare_eq, List.length_cons]
    · rw [List.length_cons]
      exact hroom
  · rw [if_neg hroom] at hr
    obtain ⟨howned, hframe⟩ := (h.owned.reset ha).destroy ha
    have hframe' := (h.owned.frame_describe ha _).trans hframe
    rw [hr]
    exact ⟨hframe'.subset (List.subset_append_right _ _), ⟨rfl, rfl⟩, rfl, spare, howned,
      h.spare_eq, hlimit, hlimit_lt, hcount, hcount_lt⟩

/-- A reserve makes all arenas that are missing, or none. -/
theorem reserve (h : Stock p st lent spare others made) (count : Nat) :
    ∃ r, Dynamic.reserve p.recorded.toCalls st count = some r ∧
      Frame p st.store r.2.store (arenaBlocks st.pool.arenaCapacity (lent ++ spare) ++ others) ∧
      SameSize st.pool r.2.pool ∧
      (r.1 = .success ∧ (∃ spare', Stock p r.2 lent spare' others made ∧
          spare'.length = max spare.length count) ∨
        r.1 ≠ .success ∧ r.2.pool = st.pool ∧ Stock p r.2 lent spare others made) := by
  unfold Dynamic.reserve
  dsimp only
  rw [if_neg h.capacity_ne]
  by_cases hlimit : st.pool.spareLimit < count
  · rw [if_pos hlimit]
    exact ⟨_, rfl, Frame.refl _ _ _, ⟨rfl, rfl⟩, Or.inr ⟨(fun hok => nomatch hok), rfl, h⟩⟩
  rw [if_neg hlimit]
  by_cases hcount : count ≤ st.pool.spareCount
  · rw [if_pos hcount]
    rw [h.spare_eq] at hcount
    exact ⟨_, rfl, Frame.refl _ _ _, ⟨rfl, rfl⟩, Or.inl ⟨rfl, spare, h,
      (Nat.max_eq_left hcount).symm⟩⟩
  rw [if_neg hcount]
  have hlimit_lt := h.limit_lt
  rw [h.spare_eq] at hcount ⊢
  obtain ⟨l, howned, hchain, hframe, hlength⟩ :=
    buildAside_spec (n := count - spare.length) (l := []) h.owned (Chain.nil _ _ _)
  rw [List.length_nil, Nat.zero_add] at hlength
  generalize buildAside p.recorded.toCalls st.pool.arenaCapacity (count - spare.length) ⟨0, 0, 0⟩
    st.store = built at howned hchain hframe hlength ⊢
  rcases hlength with ⟨hok, hlength⟩ | ⟨herr, -⟩
  · -- all were made and are hung in front of the stock
    rw [if_neg (not_not_intro hok)]
    have hne : l ≠ [] := fun hnil => by
      rw [hnil, List.length_nil] at hlength
      omega
    obtain ⟨hhung, hframe'⟩ := howned.hang hchain hne
    have htotal : (spare.length + built.2.1.made) % 2 ^ 32 = (l ++ spare).length := by
      rw [hchain.made, List.length_append, Nat.mod_eq_of_lt (by omega), Nat.add_comm]
    refine ⟨_, rfl, hframe.trans hframe', ⟨rfl, rfl⟩, Or.inl ⟨rfl, l ++ spare,
      ⟨hhung, htotal, ?_, hlimit_lt, h.acquired, h.acquired_lt⟩, ?_⟩⟩
    · rw [List.length_append]
      show l.length + spare.length ≤ st.pool.spareLimit
      omega
    · rw [List.length_append, hlength]
      omega
  · -- the host refused one, and those made before it go back
    rw [if_pos herr]
    obtain ⟨s, hs, hback, hframe'⟩ :=
      destroyFreeList_spec (Nat.le_of_eq hchain.made.symm) howned hchain.linked hchain.empty
    rw [hs]
    exact ⟨_, rfl, hframe.trans hframe', ⟨rfl, rfl⟩, Or.inr ⟨(fun hok => nomatch hok), rfl, hback,
      h.spare_eq, h.le_limit, hlimit_lt, h.acquired, h.acquired_lt⟩⟩

/-- A release is refused while an arena is out; otherwise nothing of the pool remains. -/
theorem release (h : Stock p st lent spare others made) :
    lent ≠ [] ∧ Dynamic.release p.recorded.toCalls st = some (.errorResourceInUse, st) ∨
    lent = [] ∧ ∃ s, Dynamic.release p.recorded.toCalls st =
        some (.success, ⟨forgetEverything, s⟩) ∧
      p.recorded.holds s.heap others ∧ s.heap.2.Perm made ∧ Frame p st.store s others := by
  unfold Dynamic.release
  by_cases hnil : lent = []
  · right
    subst hnil
    rw [if_neg (by rw [h.acquired]; exact not_not_intro rfl)]
    have hfree := h.owned.unshelve
    obtain ⟨s, hs, hback, hframe⟩ := destroyFreeList_spec (Nat.le_of_eq h.spare_eq.symm) hfree
      h.owned.lends.linked h.owned.lends.empty
    rw [hs]
    exact ⟨rfl, s, rfl, hback.held, hback.made, hframe⟩
  · rw [if_pos]
    · exact Or.inl ⟨hnil, rfl⟩
    · rw [h.acquired]
      exact fun hlen => hnil (List.length_eq_zero_iff.mp hlen)

/-! ## What borrowers do -/

theorem use {arena : Nat} (h : Stock p st lent spare others made) (host : Host) {c : Call}
    (kept : c ≠ .release) (ha : arena ∈ lent) :
    Stock p { st with store := st.store.use p.recorded.toCalls host arena c } lent spare others
      made :=
  ⟨(h.owned.use ha host kept).1, h.spare_eq, h.le_limit, h.limit_lt, h.acquired, h.acquired_lt⟩

theorem write {arena : Nat} {m : Bytes} (h : Stock p st lent spare others made) (ha : arena ∈ lent)
    (hin : (st.store.descriptors arena).Confined (p.recorded.bytes st.store.heap) m) :
    Stock p { st with store := st.store.write p.recorded.toCalls m } lent spare others made :=
  ⟨(h.owned.write ha hin).1, h.spare_eq, h.le_limit, h.limit_lt, h.acquired, h.acquired_lt⟩

end Stock

end Arnm.ArenaPool.Dynamic
