import Arnm.ArenaPool.Stock

set_option autoImplicit false

/-! # Runs of a dynamic arena pool

The client reserves, takes arenas, returns each once and releases the pool; borrowers use their
arenas in any way short of releasing them; others use the host. The host keeps a record of the
blocks the pool asked it for and did not give back. In every state of such a run the pool is in
order (`InOrder`). -/

namespace Arnm.ArenaPool.Dynamic

open Memory

variable {σ : Type} {p : Provider σ} {st : State (σ × List Block)} {lent : List Nat}

/-- The states of a pool and the arenas that are out. -/
inductive Run (p : Provider σ) (start : State (σ × List Block)) :
    State (σ × List Block) → List Nat → Prop where
  | start : Run p start start []
  | reserve {st : State (σ × List Block)} {lent : List Nat} {r : Result × State (σ × List Block)}
      (count : Nat) (run : Run p start st lent)
      (returns : reserve p.recorded.toCalls st count = some r) : Run p start r.2 lent
  | alloc {st : State (σ × List Block)} {lent : List Nat} (out : Bool) (run : Run p start st lent) :
      Run p start (alloc p.recorded.toCalls st out).2.2
        (if (alloc p.recorded.toCalls st out).1 = .success then
          (alloc p.recorded.toCalls st out).2.1 :: lent else lent)
  | free {st : State (σ × List Block)} {lent : List Nat} {arena : Nat} (run : Run p start st lent)
      (has : arena ∈ lent) : Run p start (free p.recorded.toCalls st arena).2 (lent.erase arena)
  | release {st : State (σ × List Block)} {lent : List Nat} {r : Result × State (σ × List Block)}
      (run : Run p start st lent) (returns : release p.recorded.toCalls st = some r) :
      Run p start r.2 lent
  | use {st : State (σ × List Block)} {lent : List Nat} {arena : Nat} (host : Host) {c : Call}
      (run : Run p start st lent) (has : arena ∈ lent) (kept : c ≠ .release) :
      Run p start { st with store := st.store.use p.recorded.toCalls host arena c } lent
  | write {st : State (σ × List Block)} {lent : List Nat} {arena : Nat} {m : Bytes}
      (run : Run p start st lent) (has : arena ∈ lent)
      (within : (st.store.descriptors arena).Confined (p.recorded.bytes st.store.heap) m) :
      Run p start { st with store := st.store.write p.recorded.toCalls m } lent
  | elsewhere {st : State (σ × List Block)} {lent : List Nat} {s : Store (σ × List Block)}
      {others : List Block} (run : Run p start st lent)
      (kept : Frame p st.store s st.store.heap.2) (record : s.heap.2 = st.store.heap.2)
      (held : p.recorded.holds s.heap (st.store.heap.2 ++ others)) :
      Run p start { st with store := s } lent

/-! ## The invariant -/

/-- A pool that was released has nothing. -/
structure Released (p : Provider σ) (st : State (σ × List Block)) (others made : List Block) :
    Prop where
  forgotten : st.pool = forgetEverything
  held : p.recorded.holds st.store.heap others
  made : st.store.heap.2.Perm made

/-- A pool with its stock, or one that was released. -/
def Sound (p : Provider σ) (st : State (σ × List Block)) (lent : List Nat) : Prop :=
  ∃ others, (∃ spare, Stock p st lent spare others []) ∨ lent = [] ∧ Released p st others []

/-- Nothing of the pool or of the arenas it has changed. -/
structure Unchanged (p : Provider σ) (st st' : State (σ × List Block)) : Prop where
  pool : st'.pool = st.pool
  record : st'.store.heap.2.Perm st.store.heap.2
  frame : Frame p st.store st'.store st.store.heap.2

theorem Unchanged.refl (p : Provider σ) (st : State (σ × List Block)) : Unchanged p st st :=
  ⟨rfl, List.Perm.refl _, Frame.refl _ _ _⟩

namespace Released

variable {others made : List Block}

theorem reserve (h : Released p st others made) (count : Nat) :
    Dynamic.reserve p.recorded.toCalls st count = some (.errorNotInitialized, st) := by
  unfold Dynamic.reserve
  rw [h.forgotten]
  rfl

theorem alloc (h : Released p st others made) (out : Bool) :
    (Dynamic.alloc p.recorded.toCalls st out).1 ≠ .success ∧
      (Dynamic.alloc p.recorded.toCalls st out).2.2 = st := by
  unfold Dynamic.alloc
  rw [h.forgotten]
  cases out
  · exact ⟨(fun hok => nomatch hok), rfl⟩
  · exact ⟨(fun hok => nomatch hok), rfl⟩

theorem release (h : Released p st others made) :
    Dynamic.release p.recorded.toCalls st = some (.success, st) := by
  obtain ⟨pool, store⟩ := st
  obtain ⟨rfl, -, -⟩ := h
  rfl

end Released

namespace Sound

/-- The next states of a pool are sound again. -/
theorem reserve (h : Sound p st lent) (count : Nat) :
    ∃ r, Dynamic.reserve p.recorded.toCalls st count = some r ∧ Sound p r.2 lent ∧
      (r.1 = .success ∧ r.2.pool.spareCount = max st.pool.spareCount count ∨
        r.1 ≠ .success ∧ Unchanged p st r.2) := by
  obtain ⟨others, ⟨spare, h⟩ | ⟨hnil, h⟩⟩ := h
  · obtain ⟨r, hr, hframe, -, hcase⟩ := h.reserve count
    refine ⟨r, hr, ?_⟩
    rcases hcase with ⟨hok, spare', hstock, hlength⟩ | ⟨herr, hpool, hstock⟩
    · refine ⟨⟨others, Or.inl ⟨spare', hstock⟩⟩, Or.inl ⟨hok, ?_⟩⟩
      rw [hstock.spare_eq, hlength, h.spare_eq]
    · refine ⟨⟨others, Or.inl ⟨spare, hstock⟩⟩, Or.inr ⟨herr, hpool, ?_, ?_⟩⟩
      · have hmade := hstock.owned.made
        rw [hpool] at hmade
        exact hmade.trans h.owned.made.symm
      · refine hframe.subset fun b hb => List.mem_append_left _ ?_
        have hmem := h.owned.made.mem_iff.mp hb
        rwa [List.append_nil] at hmem
  · refine ⟨_, h.reserve count, ⟨others, Or.inr ⟨hnil, h⟩⟩, Or.inr ⟨?_, Unchanged.refl _ _⟩⟩
    exact fun hok => nomatch hok

theorem alloc (h : Sound p st lent) :
    let r := Dynamic.alloc p.recorded.toCalls st true
    (r.1 ≠ .success ∧ Sound p r.2.2 lent ∧ r.2.2.pool = st.pool ∨
      r.1 = .success ∧ Sound p r.2.2 (r.2.1 :: lent) ∧ r.2.1 ∉ lent ∧
        r.2.2.store.descriptors r.2.1 = fresh (bufferAt r.2.1) st.pool.arenaCapacity) := by
  intro r
  obtain ⟨others, ⟨spare, h⟩ | ⟨hnil, h⟩⟩ := h
  · obtain ⟨-, -, hcase⟩ := h.alloc
    rcases hcase with ⟨herr, hpool, hstock⟩ | ⟨hok, hnew, hfresh, spare', hstock⟩
    · exact Or.inl ⟨herr, ⟨others, Or.inl ⟨spare, hstock⟩⟩, hpool⟩
    · exact Or.inr ⟨hok, ⟨others, Or.inl ⟨spare', hstock⟩⟩, hnew, hfresh⟩
  · obtain ⟨herr, hst⟩ := h.alloc true
    refine Or.inl ⟨herr, ?_, congrArg State.pool hst⟩
    show Sound p (Dynamic.alloc p.recorded.toCalls st true).2.2 lent
    rw [hst]
    exact ⟨others, Or.inr ⟨hnil, h⟩⟩

theorem free {arena : Nat} (h : Sound p st lent) (ha : arena ∈ lent) :
    (Dynamic.free p.recorded.toCalls st arena).1 = .success ∧
      Sound p (Dynamic.free p.recorded.toCalls st arena).2 (lent.erase arena) := by
  obtain ⟨others, ⟨spare, h⟩ | ⟨rfl, h⟩⟩ := h
  · obtain ⟨-, -, hok, spare', hstock⟩ := h.free ha
    exact ⟨hok, others, Or.inl ⟨spare', hstock⟩⟩
  · cases ha

theorem release (h : Sound p st lent) :
    ∃ r, Dynamic.release p.recorded.toCalls st = some r ∧ Sound p r.2 lent ∧
      (lent ≠ [] ∧ r = (.errorResourceInUse, st) ∨
        lent = [] ∧ r.1 = .success ∧ r.2.pool = forgetEverything ∧ r.2.store.heap.2 = []) := by
  obtain ⟨others, ⟨spare, h⟩ | ⟨hnil, h⟩⟩ := h
  · rcases h.release with ⟨hne, hr⟩ | ⟨hnil, s, hr, hheld, hmade, -⟩
    · exact ⟨_, hr, ⟨others, Or.inl ⟨spare, h⟩⟩, Or.inl ⟨hne, rfl⟩⟩
    · exact ⟨_, hr, ⟨others, Or.inr ⟨hnil, rfl, hheld, hmade⟩⟩,
        Or.inr ⟨hnil, rfl, rfl, hmade.eq_nil⟩⟩
  · exact ⟨_, h.release, ⟨others, Or.inr ⟨hnil, h⟩⟩,
      Or.inr ⟨hnil, rfl, h.forgotten, h.made.eq_nil⟩⟩

theorem use {arena : Nat} (h : Sound p st lent) (host : Host) {c : Call} (kept : c ≠ .release)
    (ha : arena ∈ lent) :
    Sound p { st with store := st.store.use p.recorded.toCalls host arena c } lent := by
  obtain ⟨others, ⟨spare, h⟩ | ⟨rfl, h⟩⟩ := h
  · exact ⟨others, Or.inl ⟨spare, h.use host kept ha⟩⟩
  · cases ha

theorem write {arena : Nat} {m : Bytes} (h : Sound p st lent) (ha : arena ∈ lent)
    (hin : (st.store.descriptors arena).Confined (p.recorded.bytes st.store.heap) m) :
    Sound p { st with store := st.store.write p.recorded.toCalls m } lent := by
  obtain ⟨others, ⟨spare, h⟩ | ⟨rfl, h⟩⟩ := h
  · exact ⟨others, Or.inl ⟨spare, h.write ha hin⟩⟩
  · cases ha

theorem elsewhere {s : Store (σ × List Block)} {others' : List Block} (h : Sound p st lent)
    (hframe : Frame p st.store s st.store.heap.2) (hrecord : s.heap.2 = st.store.heap.2)
    (hheld : p.recorded.holds s.heap (st.store.heap.2 ++ others')) :
    Sound p { st with store := s } lent := by
  obtain ⟨others, ⟨spare, h⟩ | ⟨hnil, h⟩⟩ := h
  · -- the record has the blocks of the pool's arenas
    have hmade := h.owned.made
    rw [List.append_nil] at hmade
    refine ⟨others', Or.inl ⟨spare, h.frame (hframe.subset hmade.symm.subset) ?_ ?_⟩⟩
    · exact p.recorded.lawful.perm hheld (hmade.append_right _)
    · rw [hrecord]
      exact h.owned.made
  · refine ⟨others', Or.inr ⟨hnil, h.forgotten, ?_, hrecord ▸ h.made⟩⟩
    have hnone := h.made.eq_nil
    rw [hnone] at hheld
    exact hheld

end Sound

/-! ## Runs -/

/-- Every state of a run is sound. -/
theorem Run.sound {start : State (σ × List Block)} (hrun : Run p start st lent)
    (hstart : Sound p start []) : Sound p st lent := by
  induction hrun with
  | start => exact hstart
  | reserve count _ returns ih =>
      obtain ⟨r, hr, hsound, -⟩ := ih.reserve count
      cases hr.symm.trans returns
      exact hsound
  | @alloc st lent out _ ih =>
      cases out with
      | false =>
          have hrefused : Dynamic.alloc p.recorded.toCalls st false = (.errorNullPointer, 0, st) :=
            rfl
          rw [hrefused, if_neg fun hok => by cases hok]
          exact ih
      | true =>
          rcases ih.alloc with ⟨herr, hsound, -⟩ | ⟨hok, hsound, -⟩
          · rw [if_neg herr]
            exact hsound
          · rw [if_pos hok]
            exact hsound
  | free _ has ih => exact (ih.free has).2
  | release _ returns ih =>
      obtain ⟨r, hr, hsound, -⟩ := ih.release
      cases hr.symm.trans returns
      exact hsound
  | use host _ has kept ih => exact ih.use host kept has
  | write _ has within ih => exact ih.write has within
  | elsewhere _ kept record held ih => exact ih.elsewhere kept record held

theorem Run.taken {start : State (σ × List Block)} (run : Run p start st lent) (arena : Nat)
    (hok : (Dynamic.alloc p.recorded.toCalls st true).1 = .success)
    (harena : (Dynamic.alloc p.recorded.toCalls st true).2.1 = arena) :
    Run p start (Dynamic.alloc p.recorded.toCalls st true).2.2 (arena :: lent) := by
  have hnext := run.alloc true
  rw [if_pos hok, harena] at hnext
  exact hnext

/-- What a client can rely on. -/
structure InOrder (p : Provider σ) (st : State (σ × List Block)) (lent : List Nat) : Prop where
  /-- The pool counts the arenas in stock and those that are out. These are all it made and did not
  destroy, each once. -/
  counted : ∃ spare, Walk (st.store.nextFree p.recorded.toCalls) st.pool.freeHead spare ∧
    st.pool.spareCount = spare.length ∧ st.pool.spareCount ≤ st.pool.spareLimit ∧
    st.pool.acquiredCount = lent.length ∧ (lent ++ spare).Nodup ∧
    st.store.heap.2.Perm (arenaBlocks st.pool.arenaCapacity (lent ++ spare))
  /-- A reserve makes all arenas that are missing, or leaves the pool as it was. -/
  reserve : ∀ count, ∃ r, reserve p.recorded.toCalls st count = some r ∧
    (r.1 = .success ∧ r.2.pool.spareCount = max st.pool.spareCount count ∨
      r.1 ≠ .success ∧ Unchanged p st r.2)
  /-- What is lent was not out, and is empty. -/
  lends : (alloc p.recorded.toCalls st true).1 = .success →
    (alloc p.recorded.toCalls st true).2.1 ∉ lent ∧
    (alloc p.recorded.toCalls st true).2.2.store.descriptors
        (alloc p.recorded.toCalls st true).2.1 =
      fresh (bufferAt (alloc p.recorded.toCalls st true).2.1) st.pool.arenaCapacity
  takesBack : ∀ a ∈ lent, (free p.recorded.toCalls st a).1 = .success
  /-- A release is refused exactly while an arena is out; otherwise all arenas are destroyed. -/
  release : ∃ r, release p.recorded.toCalls st = some r ∧
    (lent ≠ [] ∧ r = (.errorResourceInUse, st) ∨
      lent = [] ∧ r.1 = .success ∧ r.2.store.heap.2 = [])

theorem Sound.inOrder (h : Sound p st lent) : InOrder p st lent := by
  refine ⟨?_, fun count => ?_, fun hok => ?_, fun a ha => (h.free ha).1, ?_⟩
  · obtain ⟨others, ⟨spare, h⟩ | ⟨rfl, h⟩⟩ := h
    · have hmade := h.owned.made
      rw [List.append_nil] at hmade
      exact ⟨spare, h.owned.lends.linked, h.spare_eq, h.spare_eq.trans_le h.le_limit,
        h.acquired, h.owned.lends.nodup, hmade⟩
    · rw [h.forgotten]
      exact ⟨[], .nil, rfl, Nat.le_refl _, rfl, List.nodup_nil, h.made⟩
  · obtain ⟨r, hr, -, hcase⟩ := h.reserve count
    exact ⟨r, hr, hcase⟩
  · rcases h.alloc with ⟨herr, -⟩ | ⟨-, -, hnew, hfresh⟩
    · exact absurd hok herr
    · exact ⟨hnew, hfresh⟩
  · obtain ⟨r, hr, -, hcase⟩ := h.release
    exact ⟨r, hr, hcase.imp_right fun hnil => ⟨hnil.1, hnil.2.1, hnil.2.2.2⟩⟩

/-- A pool just made over a host with a fresh record. -/
theorem init_sound {pool : DynamicArenaPool} {descriptors : Nat → Arena} {heap : σ}
    {others : List Block} {arenaCapacity spareLimit : Nat} (hlimit : spareLimit < 2 ^ 32)
    (hheld : p.holds heap others) (hok : (init pool arenaCapacity spareLimit).1 = .success) :
    Sound p ⟨(init pool arenaCapacity spareLimit).2, descriptors, heap, []⟩ [] :=
  ⟨others, Or.inl ⟨[], (init_stock (s := ⟨descriptors, heap, []⟩) hlimit hheld (List.Perm.refl _)
    hok).1⟩⟩

end Arnm.ArenaPool.Dynamic
