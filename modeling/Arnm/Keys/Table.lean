import Arnm.Keys.KeyMap

set_option autoImplicit false

/-! # The slots of a key map

`Indexed` says that the slots with an id are those of the keys, each with the folded hash of its
key, and that each lies behind its home with no free slot between. A probe for a key then ends at
the key's slot or at the first free slot from its home on (`Vacant`), which is where the key's slot
may be put. -/

namespace Arnm.Keys

open Memory Arnm.Vector Probing

/-- The slots of the keys, in the order of their ids. -/
def slotsOf (slotHash : List UInt8 → Nat) (keys : List (List UInt8)) : List Slot :=
  keys.zipIdx.map fun key => ⟨slotHash key.1, key.2⟩

/-- The table has the slots of the keys, each where a probe finds it. -/
structure Indexed (slotHash : List UInt8 → Nat) (c : Nat) (table : List Slot)
    (keys : List (List UInt8)) : Prop where
  clustered : Clustered Slot.isFree Slot.hash c table
  entries : (entries Slot.isFree table).Perm (slotsOf slotHash keys)

/-- The first free slot from the home of a hash on. -/
structure Vacant (c : Nat) (table : List Slot) (hash index : Nat) : Prop where
  free : freeAt Slot.isFree table index = true
  first : ∃ k < 2 ^ c, index = (hash + k) % 2 ^ c ∧
    ∀ i < k, Occupied Slot.isFree table ((hash + i) % 2 ^ c)

variable {slotHash : List UInt8 → Nat} {c : Nat} {table : List Slot} {keys : List (List UInt8)}

theorem mem_slotsOf {s : Slot} :
    s ∈ slotsOf slotHash keys ↔ ∃ h : s.id < keys.length, s.hash = slotHash keys[s.id] := by
  unfold slotsOf
  constructor
  · intro hs
    obtain ⟨⟨key, id⟩, hmem, rfl⟩ := List.mem_map.mp hs
    obtain ⟨hid, hkey⟩ := List.getElem?_eq_some_iff.mp (List.mem_zipIdx_iff_getElem?.mp hmem)
    simp only at hid hkey
    exact ⟨hid, by rw [hkey]⟩
  · rintro ⟨hid, hhash⟩
    refine List.mem_map.mpr ⟨(keys[s.id], s.id), ?_, ?_⟩
    · rw [List.mem_zipIdx_iff_getElem?]
      exact List.getElem?_eq_getElem hid
    · rw [← hhash]

theorem length_slotsOf : (slotsOf slotHash keys).length = keys.length := by
  rw [slotsOf, List.length_map, List.length_zipIdx]

theorem slotsOf_append (key : List UInt8) :
    slotsOf slotHash (keys ++ [key]) = slotsOf slotHash keys ++ [⟨slotHash key, keys.length⟩] := by
  rw [slotsOf, List.zipIdx_append, List.map_append, slotsOf, Nat.zero_add]
  rfl

/-- No two of them have the same id. -/
theorem slotsOf_ids : ((slotsOf slotHash keys).map Slot.id).Nodup := by
  have hids : (slotsOf slotHash keys).map Slot.id = List.range keys.length := by
    rw [List.range_eq_range', ← List.zipIdx_map_snd 0 keys, slotsOf, List.map_map]
    rfl
  rw [hids]
  exact List.nodup_range

/-- A table of free slots. -/
theorem indexed_blank (slotHash : List UInt8 → Nat) (c : Nat) :
    Indexed slotHash c (List.replicate (2 ^ c) Slot.blank) [] := by
  refine ⟨clustered_replicate Slot.hash rfl, ?_⟩
  rw [entries_replicate _ rfl]
  exact List.Perm.refl _

namespace Indexed

variable (h : Indexed slotHash c table keys)
include h

theorem length_entries : (Probing.entries Slot.isFree table).length = keys.length := by
  rw [h.entries.length_eq, length_slotsOf]

/-- A slot that is not free is the slot of a key. -/
theorem of_occupied {pos : Nat} {s : Slot} (hget : table[pos]? = some s)
    (hocc : s.isFree = false) : ∃ hid : s.id < keys.length, s.hash = slotHash keys[s.id] := by
  refine mem_slotsOf.mp (h.entries.mem_iff.mp (List.mem_filter.mpr ⟨List.mem_of_getElem? hget, ?_⟩))
  rw [hocc]
  rfl

/-- Every key has a slot. -/
theorem exists_slot {id : Nat} (hid : id < keys.length) :
    ∃ pos : Nat, table[pos]? = some ⟨slotHash keys[id], id⟩ ∧
      (⟨slotHash keys[id], id⟩ : Slot).isFree = false := by
  have hslot : (⟨slotHash keys[id], id⟩ : Slot) ∈ slotsOf slotHash keys :=
    mem_slotsOf.mpr ⟨hid, rfl⟩
  obtain ⟨hmem, hocc⟩ := List.mem_filter.mp (h.entries.mem_iff.mpr hslot)
  obtain ⟨pos, hget⟩ := List.mem_iff_getElem?.mp hmem
  exact ⟨pos, hget, by simpa using hocc⟩

/-- No key has two slots. -/
theorem slot_unique {pos pos' : Nat} {s s' : Slot} (hget : table[pos]? = some s)
    (hget' : table[pos']? = some s') (hocc : s.isFree = false) (hocc' : s'.isFree = false)
    (hid : s.id = s'.id) : pos = pos' := by
  have hnodup : ((Probing.entries Slot.isFree table).map Slot.id).Nodup :=
    (h.entries.map Slot.id).nodup_iff.mpr slotsOf_ids
  exact entries_inj Slot.id hnodup hget hget' hocc hocc' hid

/-- A slot for one more key, put into the first free slot from its home on. -/
theorem insert {key : List UInt8} {index : Nat} (hv : Vacant c table (slotHash key) index)
    (hcount : keys.length < emptyId) :
    Indexed slotHash c (table.set index ⟨slotHash key, keys.length⟩) (keys ++ [key]) := by
  obtain ⟨hfree, k, hk, rfl, hbefore⟩ := hv
  have hs : (⟨slotHash key, keys.length⟩ : Slot).isFree = false :=
    decide_eq_false (Nat.ne_of_lt hcount)
  refine ⟨h.clustered.insert (s := ⟨slotHash key, keys.length⟩) hk hs hbefore, ?_⟩
  rw [slotsOf_append]
  exact (entries_set hfree hs).trans
    ((h.entries.cons _).trans (List.perm_append_singleton _ _).symm)

/-- A larger table takes the slots of the old one. -/
theorem rebuilt {c' : Nat} (hroom : keys.length < 2 ^ c') :
    ∃ table', refill Slot.isFree Slot.hash (2 ^ c' - 1) table
        (List.replicate (2 ^ c') Slot.blank) = some table' ∧
      Indexed slotHash c' table' keys := by
  have hnone : Probing.entries Slot.isFree (List.replicate (2 ^ c') Slot.blank) = [] :=
    entries_replicate _ rfl
  obtain ⟨table', hrefill, hclustered, hperm⟩ :=
    (clustered_replicate (c := c') Slot.hash (s := Slot.blank) rfl).refill table (by
      rw [hnone, h.length_entries]
      exact hroom)
  rw [hnone, List.append_nil] at hperm
  exact ⟨table', hrefill, hclustered, hperm.trans h.entries⟩

/-- The first free slot from a home on is found. -/
theorem seek_vacant (hash : Nat) (hroom : keys.length < 2 ^ c) {stop : Nat → Bool}
    (hstop : ∀ i < 2 ^ c, stop i = freeAt Slot.isFree table i) :
    ∃ index, seek stop (2 ^ c - 1) (2 ^ c) (hash &&& (2 ^ c - 1)) = some index ∧
      Vacant c table hash index := by
  obtain ⟨k, hk, hseek, hfree, hbefore⟩ := h.clustered.seek_free hash
    (h.length_entries.symm ▸ hroom) hstop
  rw [← Nat.and_two_pow_sub_one_eq_mod] at hseek
  exact ⟨_, hseek, hfree, k, hk, rfl, hbefore⟩

end Indexed

/-! ## The probe -/

/-- The keys are where the map reads them, and no two are the same. -/
structure Reads (map : KeyMap) (m : Bytes) (keys : List (List UInt8)) : Prop where
  read : ∀ id (hid : id < keys.length), m.read (map.keys.get m id) map.keys.elementSize = keys[id]
  distinct : keys.Nodup

variable {map : KeyMap} {m : Bytes}

theorem slotAt_of_get {pos : Nat} {s : Slot} (hget : map.table[pos]? = some s) :
    map.slotAt pos = s := by
  rw [KeyMap.slotAt, List.getD_eq_getElem?_getD, hget, Option.getD_some]

/-- The walk is ended by a free slot, or by the slot of the key. -/
theorem stops_iff (h : Indexed slotHash c map.table keys) (hr : Reads map m keys)
    {key : List UInt8} (hlen : key.length = map.keys.elementSize) {pos : Nat} {s : Slot}
    (hget : map.table[pos]? = some s) :
    map.stops m key (slotHash key) pos = true ↔
      s.isFree = true ∨ ∃ hid : s.id < keys.length, keys[s.id] = key := by
  unfold KeyMap.stops
  rw [slotAt_of_get hget]
  simp only [decide_eq_true_eq]
  rw [Slot.isFree, decide_eq_true_eq]
  by_cases hfree : s.id = emptyId
  · simp only [hfree, true_or]
  · obtain ⟨hid, hhash⟩ := h.of_occupied hget (decide_eq_false hfree)
    rw [hhash, hlen, hr.read _ hid]
    constructor
    · rintro (hc | ⟨-, hkey⟩)
      · exact absurd hc hfree
      · exact Or.inr ⟨hid, hkey⟩
    · rintro (hc | ⟨hid', hkey⟩)
      · exact absurd hc hfree
      · exact Or.inr ⟨congrArg slotHash hkey, hkey⟩

/-- A probe for a key of the map ends at its slot. -/
theorem probe_known (h : Indexed slotHash c map.table keys) (hr : Reads map m keys)
    (hcap : map.capacity = 2 ^ c) {id : Nat} (hid : id < keys.length)
    (hlen : keys[id].length = map.keys.elementSize) :
    ∃ pos, map.probe m keys[id] (slotHash keys[id]) = some pos ∧
      map.table[pos]? = some ⟨slotHash keys[id], id⟩ := by
  obtain ⟨pos, hget, hocc⟩ := h.exists_slot hid
  refine ⟨pos, ?_, hget⟩
  unfold KeyMap.probe
  simp only
  rw [hcap, Nat.and_two_pow_sub_one_eq_mod]
  refine h.clustered.seek_entry hget hocc ?_ fun i hi hstop => ?_
  · exact (stops_iff h hr hlen hget).mpr (Or.inr ⟨hid, rfl⟩)
  · obtain ⟨s', hget', hocc'⟩ := hi
    rcases (stops_iff h hr hlen hget').mp hstop with hfree | ⟨hid', hkey⟩
    · rw [hocc'] at hfree
      cases hfree
    · exact h.slot_unique hget' hget hocc' hocc ((hr.distinct.getElem_inj_iff).mp hkey)

/-- A probe for a key that is not in the map ends at the first free slot from its home on. -/
theorem probe_absent (h : Indexed slotHash c map.table keys) (hr : Reads map m keys)
    (hcap : map.capacity = 2 ^ c) (hroom : keys.length < 2 ^ c) {key : List UInt8}
    (hlen : key.length = map.keys.elementSize) (hnew : key ∉ keys) :
    ∃ index, map.probe m key (slotHash key) = some index ∧
      Vacant c map.table (slotHash key) index := by
  unfold KeyMap.probe
  rw [hcap]
  refine h.seek_vacant (slotHash key) hroom fun i hi => ?_
  obtain ⟨s, hget⟩ : ∃ s, map.table[i]? = some s :=
    ⟨_, List.getElem?_eq_getElem (h.clustered.length.symm ▸ hi)⟩
  rw [Bool.eq_iff_iff, stops_iff h hr hlen hget, freeAt_iff, hget]
  constructor
  · rintro (hfree | ⟨hid, hkey⟩)
    · exact ⟨_, rfl, hfree⟩
    · exact absurd (hkey ▸ List.getElem_mem hid) hnew
  · rintro ⟨s', hs, hfree⟩
    cases hs
    exact Or.inl hfree

end Arnm.Keys
