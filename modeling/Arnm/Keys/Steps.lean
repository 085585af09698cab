import Arnm.Keys.Table

set_option autoImplicit false

/-! # One operation of a key map

A sound map (`Sound`) holds the block of its table beside those of its key vector, its keys are
those of a list, the key of an id at that place, and its table is indexed by them or not there yet.
Every operation keeps this, also where the allocator refuses in the middle of an insert: the table
may have grown by then, but no key was added. -/

namespace Arnm.Keys

open Memory Arnm.Vector Probing

/-! ## The load limit -/

theorem loadLimit_mono {a b : Nat} (h : a ≤ b) : loadLimit a ≤ loadLimit b := by
  unfold loadLimit
  omega

theorem loadLimit_lt {c : Nat} (hc : 3 ≤ c) : loadLimit (2 ^ c) < 2 ^ c := by
  have hpow : 2 ^ 3 ≤ 2 ^ c := Nat.pow_le_pow_right (by decide) hc
  unfold loadLimit
  omega

/-- A doubled table has room for one more key. -/
theorem loadLimit_double {c : Nat} (hc : 3 ≤ c) : loadLimit (2 ^ c) < loadLimit (2 ^ (c + 1)) := by
  have hpow : 2 ^ 3 ≤ 2 ^ c := Nat.pow_le_pow_right (by decide) hc
  unfold loadLimit
  rw [Nat.pow_succ]
  omega

/-- The load limit is three quarters of the slots. -/
theorem four_mul_loadLimit {c : Nat} (hc : 3 ≤ c) : 4 * loadLimit (2 ^ c) = 3 * 2 ^ c := by
  obtain ⟨d, rfl⟩ := Nat.exists_eq_add_of_le hc
  unfold loadLimit
  rw [Nat.pow_add]
  omega

/-- The loop of `capacity_for` ends at a power of two within the bounds that has the room. -/
theorem capacityFor_spec {keyCount : Nat} (h : keyCount ≤ maxKeys) :
    ∃ c, 3 ≤ c ∧ c ≤ 28 ∧ capacityFor keyCount = 2 ^ c ∧ keyCount ≤ loadLimit (2 ^ c) := by
  have hloop : ∀ fuel c, 3 ≤ c → c + fuel = 28 → ∃ c', 3 ≤ c' ∧ c' ≤ 28 ∧
      capacityFrom keyCount fuel (2 ^ c) = 2 ^ c' ∧ keyCount ≤ loadLimit (2 ^ c') := by
    intro fuel
    induction fuel with
    | zero =>
        intro c hc hsum
        have hmax : c = 28 := by omega
        subst hmax
        exact ⟨28, by decide, Nat.le_refl _, rfl, h⟩
    | succ fuel ih =>
        intro c hc hsum
        rw [capacityFrom]
        split
        · rw [← Nat.pow_succ]
          exact ih (c + 1) (by omega) (by omega)
        · rename_i hroom
          exact ⟨c, hc, by omega, rfl, Nat.le_of_not_lt hroom⟩
  exact hloop 25 3 (Nat.le_refl _) rfl

/-! ## The invariant -/

/-- The block of the table, if there is one. -/
def KeyMap.tableBlock (map : KeyMap) : List Block :=
  if map.slots = 0 then [] else [⟨map.slots, slotBytes map.capacity⟩]

/-- A map without a table, and without keys. -/
structure Bare (map : KeyMap) (keys : List (List UInt8)) : Prop where
  slots : map.slots = 0
  capacity : map.capacity = 0
  table : map.table = []
  keys : keys = []

/-- A map with a table of `2 ^ c` slots, filled with the slots of its keys up to the load limit. -/
structure Tabled (hashes : Hashes) (map : KeyMap) (keys : List (List UInt8)) (c : Nat) : Prop where
  slots_ne : map.slots ≠ 0
  capacity : map.capacity = 2 ^ c
  log2_ge : 3 ≤ c
  log2_le : c ≤ 28
  load : keys.length ≤ loadLimit (2 ^ c)
  indexed : Indexed (map.slotHash hashes) c map.table keys

theorem Tabled.withKeys {hashes : Hashes} {map : KeyMap} {keys : List (List UInt8)} {c : Nat}
    (h : Tabled hashes map keys c) (vector : BucketVector) :
    Tabled hashes { map with keys := vector } keys c :=
  ⟨h.slots_ne, h.capacity, h.log2_ge, h.log2_le, h.load, h.indexed⟩

variable {σ : Type} {hashes : Hashes} {p : Provider σ} {st : State σ} {keys : List (List UInt8)}
  {others : List Block} {c : Nat}

/-- The map holds its blocks, and the key of every id is the one at that place of the list. -/
structure Sound (hashes : Hashes) (p : Provider σ) (st : State σ) (keys : List (List UInt8))
    (others : List Block) : Prop where
  vector : Vector.Sound p st.keys keys (st.map.tableBlock ++ others)
  distinct : keys.Nodup
  table : Bare st.map keys ∨ ∃ c, Tabled hashes st.map keys c

namespace Tabled

variable {map : KeyMap} (h : Tabled hashes map keys c)
include h

theorem capacity_ne : map.capacity ≠ 0 := by
  rw [h.capacity]
  exact (Nat.two_pow_pos c).ne'

theorem length_lt : keys.length < 2 ^ c := Nat.lt_of_le_of_lt h.load (loadLimit_lt h.log2_ge)

/-- No id is that of a free slot. -/
theorem length_lt_emptyId : keys.length < emptyId := by
  have hpow : 2 ^ c ≤ 2 ^ 28 := Nat.pow_le_pow_right (by decide) h.log2_le
  have hlt := h.length_lt
  unfold emptyId
  omega

end Tabled

namespace Sound

theorem size (h : Sound hashes p st keys others) : st.map.size = keys.length :=
  h.vector.filled.size

theorem elementSize_ne (h : Sound hashes p st keys others) : st.map.keys.elementSize ≠ 0 :=
  h.vector.params.element_pos.ne'

theorem reads (h : Sound hashes p st keys others) : Reads st.map (p.bytes st.heap) keys :=
  ⟨h.vector.isList.get, h.distinct⟩

/-- Keys have the size the map was opened for. -/
theorem whole (h : Sound hashes p st keys others) {id : Nat} (hid : id < keys.length) :
    keys[id].length = st.map.keys.elementSize := by
  rw [← h.vector.isList.get id hid]
  exact Bytes.length_read _ _ _

theorem tabled (h : Sound hashes p st keys others) (hcap : st.map.capacity ≠ 0) :
    ∃ c, Tabled hashes st.map keys c := h.table.resolve_left fun hbare => hcap hbare.capacity

theorem bare (h : Sound hashes p st keys others) (hcap : st.map.capacity = 0) :
    Bare st.map keys := h.table.resolve_right fun ⟨_, htable⟩ => htable.capacity_ne hcap

theorem held (h : Sound hashes p st keys others) :
    p.holds st.heap (st.map.keys.blocks (p.bytes st.heap) ++ (st.map.tableBlock ++ others)) :=
  h.vector.holding.held

/-- The key vector moved on with the same keys in it. -/
theorem withKeys (h : Sound hashes p st keys others) {vector : Vector.State σ}
    (hvector : Vector.Sound p vector keys (st.map.tableBlock ++ others)) :
    Sound hashes p (st.withKeys vector) keys others :=
  ⟨hvector, h.distinct, h.table.imp
    (fun hbare => ⟨hbare.slots, hbare.capacity, hbare.table, hbare.keys⟩)
    fun ⟨c, htable⟩ => ⟨c, htable.withKeys _⟩⟩

end Sound

/-! ## Init, clear and free -/

theorem initMap_sound (hashes : Hashes) {map : KeyMap} {keySize keysBucketLog2 hashK0 hashK1 : Nat}
    {hash : HashKind}
    {s : σ} (hheld : p.holds s others)
    (hok : (initMap map keySize keysBucketLog2 hash hashK0 hashK1).1 = .success) :
    Sound hashes p ⟨(initMap map keySize keysBucketLog2 hash hashK0 hashK1).2, s⟩ [] others ∧
      (initMap map keySize keysBucketLog2 hash hashK0 hashK1).2.keys.elementSize = keySize := by
  unfold initMap at hok ⊢
  simp only at hok ⊢
  split at hok
  · rename_i hne
    exact absurd hok hne
  · rename_i hinit
    rw [if_neg hinit]
    obtain ⟨hvector, helem⟩ := init_sound (v := map.keys) hheld (not_not.mp hinit)
    exact ⟨⟨hvector, List.nodup_nil, Or.inl ⟨rfl, rfl, rfl, rfl⟩⟩, helem⟩

theorem Sound.clear (h : Sound hashes p st keys others) :
    Sound hashes p { st with map := st.map.clear } [] others := by
  refine ⟨h.vector.clear, List.nodup_nil, h.table.imp (fun hbare => ?_) fun ⟨c, htable⟩ => ⟨c, ?_⟩⟩
  · refine ⟨hbare.slots, hbare.capacity, ?_, rfl⟩
    simp only [KeyMap.clear, hbare.slots, ne_eq, not_true_eq_false, if_false]
    exact hbare.table
  · refine ⟨htable.slots_ne, htable.capacity, htable.log2_ge, htable.log2_le, Nat.zero_le _, ?_⟩
    simp only [KeyMap.clear, if_pos htable.slots_ne, htable.capacity]
    exact indexed_blank _ c

/-- The block of the table is given back, or forgotten. -/
theorem freed_holds {slots size : Nat} {s : σ} {blocks : List Block}
    (hheld : p.holds s (⟨slots, size⟩ :: blocks)) :
    p.holds (p.free slots size s).2 blocks ∧
      Keeps blocks (p.bytes s) (p.bytes (p.free slots size s).2) := by
  obtain ⟨hres, hkeep⟩ := p.lawful.free hheld
  exact ⟨hres.elim And.right fun hwarn => p.lawful.forget hwarn.2.1, hkeep⟩

theorem append_perm_cons {α : Type} (x y : List α) (b : α) :
    (x ++ ([b] ++ y)).Perm (b :: (x ++ y)) :=
  List.perm_middle

theorem Sound.free (h : Sound hashes p st keys others) :
    let r := free p.toCalls st
    Sound hashes p r [] others ∧ r.map.keys.elementSize = st.map.keys.elementSize := by
  intro r
  have hvector : ∀ {heap : σ}, heap = (if st.map.slots ≠ 0 then
        (p.free st.map.slots (slotBytes st.map.capacity) st.heap).2 else st.heap) →
      Vector.Sound p ⟨st.map.keys, heap⟩ keys others := by
    rintro heap rfl
    by_cases hslots : st.map.slots = 0
    · rw [if_neg (not_not_intro hslots)]
      have hvector := h.vector
      rw [KeyMap.tableBlock, if_pos hslots, List.nil_append] at hvector
      exact hvector
    · rw [if_pos hslots]
      have hheld := h.held
      rw [KeyMap.tableBlock, if_neg hslots] at hheld
      obtain ⟨hrest, hkeep⟩ := freed_holds (p.lawful.perm hheld (append_perm_cons _ _ _))
      exact (h.vector.elsewhere hrest (hkeep.subset (List.subset_append_left _ _))).1
  obtain ⟨hfree, helem⟩ := (hvector rfl).free
  exact ⟨⟨hfree, List.nodup_nil, Or.inl ⟨rfl, rfl, rfl, rfl⟩⟩, helem⟩

/-! ## A larger table -/

/-- The slots of the old table all find a place in a larger one. -/
theorem Sound.refill (h : Sound hashes p st keys others) {c' : Nat} (hroom : keys.length < 2 ^ c') :
    ∃ table, Probing.refill Slot.isFree Slot.hash (2 ^ c' - 1) st.map.table
        (List.replicate (2 ^ c') Slot.blank) = some table ∧
      Indexed (st.map.slotHash hashes) c' table keys := by
  rcases h.table with hbare | ⟨c, htable⟩
  · rw [hbare.table, hbare.keys]
    exact ⟨_, rfl, indexed_blank _ c'⟩
  · exact htable.indexed.rebuilt hroom

/-- `rebuild` is refused and the map is as it was, or the keys have a larger table. -/
theorem Sound.rebuild (h : Sound hashes p st keys others) {c' : Nat} (hge : 3 ≤ c') (hle : c' ≤ 28)
    (hload : keys.length ≤ loadLimit (2 ^ c')) :
    ∃ r, rebuild p.toCalls st (2 ^ c') = some r ∧ Sound hashes p r.2 keys others ∧
      r.2.map.keys = st.map.keys ∧
      r.2.map.slotHash hashes = st.map.slotHash hashes ∧
      (r.1.isError = true ∧ r.2.map = st.map ∨
        r.1 = .success ∧ Tabled hashes r.2.map keys c') := by
  unfold Keys.rebuild
  simp only
  rcases p.lawful.alloc 0 (slotBytes (2 ^ c')) h.held with ⟨herr, -, hheld, hkeep⟩ |
    ⟨hok, hheld, hkeep⟩
  · rw [if_pos (Result.ne_success_of_isError herr)]
    have hvector := (h.vector.elsewhere hheld (hkeep.subset (List.subset_append_left _ _))).1
    exact ⟨_, rfl, ⟨hvector, h.distinct, h.table⟩, rfl, rfl, Or.inl ⟨herr, rfl⟩⟩
  · rw [if_neg (not_not_intro hok)]
    obtain ⟨table, hrefill, hindexed⟩ := h.refill (Nat.lt_of_le_of_lt hload (loadLimit_lt hge))
    rw [hrefill, Option.map_some]
    set block := p.alloc 0 (slotBytes (2 ^ c')) st.heap
    have hne : block.buffer ≠ 0 := (p.lawful.room hheld _ List.mem_cons_self).1
    -- the old table goes, the new one stays beside the keys
    have hvector : ∀ {heap : σ}, heap = (if st.map.slots ≠ 0 then
          (p.free st.map.slots (slotBytes st.map.capacity) block.state).2 else block.state) →
        Vector.Sound p ⟨st.map.keys, heap⟩ keys (⟨block.buffer, slotBytes (2 ^ c')⟩ :: others) := by
      rintro heap rfl
      by_cases hslots : st.map.slots = 0
      · rw [if_neg (not_not_intro hslots)]
        rw [KeyMap.tableBlock, if_pos hslots, List.nil_append] at hheld hkeep
        exact (h.vector.elsewhere (p.lawful.perm hheld List.perm_middle.symm)
          (hkeep.subset (List.subset_append_left _ _))).1
      · rw [if_pos hslots]
        rw [KeyMap.tableBlock, if_neg hslots] at hheld hkeep
        obtain ⟨hrest, hkeep'⟩ := freed_holds (p.lawful.perm hheld
          (((append_perm_cons _ _ _).cons _).trans (List.Perm.swap _ _ _)))
        refine (h.vector.elsewhere (p.lawful.perm hrest List.perm_middle.symm)
          ((hkeep.subset (List.subset_append_left _ _)).trans (hkeep'.subset ?_))).1
        exact List.Subset.trans (List.subset_append_left _ _) (List.subset_cons_self _ _)
    have htabled : Tabled hashes { st.map with
        slots := block.buffer, table := table, capacity := 2 ^ c' } keys c' :=
      ⟨hne, rfl, hge, hle, hload, hindexed⟩
    refine ⟨_, rfl, ⟨?_, h.distinct, Or.inr ⟨c', htabled⟩⟩, rfl, rfl, Or.inr ⟨rfl, htabled⟩⟩
    have hblock : ({ st.map with slots := block.buffer, table := table, capacity := 2 ^ c' } :
        KeyMap).tableBlock = [⟨block.buffer, slotBytes (2 ^ c')⟩] := if_neg hne
    simp only [hblock]
    exact hvector rfl

/-- `arnm_key_map_reserve` adds no key and takes none. -/
theorem Sound.reserve (h : Sound hashes p st keys others) (keyCount : Nat) :
    ∃ r, reserve p.toCalls st keyCount = some r ∧ Sound hashes p r.2 keys others ∧
      r.2.map.keys.elementSize = st.map.keys.elementSize := by
  unfold Keys.reserve
  split
  · exact ⟨_, rfl, h, rfl⟩
  rw [if_neg h.elementSize_ne]
  split
  · exact ⟨_, rfl, h, rfl⟩
  rename_i hmax
  obtain ⟨-, hvector, hstay⟩ := h.vector.reserve keyCount
  have hsound := h.withKeys hvector
  simp only
  split
  · exact ⟨_, rfl, hsound, hstay.elementSize⟩
  split
  · exact ⟨_, rfl, hsound, hstay.elementSize⟩
  · rename_i hmore
    obtain ⟨c', hge, hle, hcap, hroom⟩ := capacityFor_spec (Nat.le_of_not_lt hmax)
    rw [hcap] at hmore ⊢
    have hload : keys.length ≤ loadLimit (2 ^ c') := by
      rcases h.table with hbare | ⟨c, htable⟩
      · rw [hbare.keys]
        exact Nat.zero_le _
      · refine Nat.le_trans htable.load (loadLimit_mono ?_)
        rw [← htable.capacity]
        exact Nat.le_of_lt (Nat.lt_of_not_le hmore)
    obtain ⟨r, hr, hsound', hkeys, -⟩ := hsound.rebuild hge hle hload
    exact ⟨r, hr, hsound', by rw [hkeys]; exact hstay.elementSize⟩

end Arnm.Keys
