import Arnm.Keys.Runs

set_option autoImplicit false

/-! # The table of a key map in every state

Whatever the run, the table is well placed (`WellPlaced`): this is what keeps every walk over it
short of a round and every key within reach of a probe. -/

namespace Arnm.Keys

open Memory Arnm.Vector Probing

variable {σ : Type} {hashes : Hashes} {p : Provider σ} {st : State σ} {q : Dictionary}

/-- The home of a hash in the table. -/
def KeyMap.home (map : KeyMap) (hash : Nat) : Nat := hash &&& (map.capacity - 1)

/-- The bytes of the key of an id. -/
def State.keyAt (p : Provider σ) (st : State σ) (id : Nat) : List UInt8 :=
  (p.bytes st.heap).read (st.map.key (p.bytes st.heap) id) st.map.keys.elementSize

/-- The table is in order: every key has one slot, with its folded hash, behind its home with no
free slot between; at most three quarters of the slots are taken; and a probe for any key ends at
the key's slot or, when there is none, at a free one. -/
structure WellPlaced (hashes : Hashes) (p : Provider σ) (st : State σ) : Prop where
  capacity : st.map.capacity = 0 ∨
    ∃ c, st.map.capacity = 2 ^ c ∧ minCapacity ≤ 2 ^ c ∧ 2 ^ c ≤ maxCapacity
  length : st.map.table.length = st.map.capacity
  slot : ∀ id < st.map.size, ∃ pos < st.map.capacity,
    st.map.slotAt pos = ⟨st.map.slotHash hashes (st.keyAt p id), id⟩ ∧
    ∀ pos' < st.map.capacity, (st.map.slotAt pos').id = id → pos' = pos
  reach : ∀ pos < st.map.capacity, (st.map.slotAt pos).id ≠ emptyId → ∃ k < st.map.capacity,
    pos = (st.map.home (st.map.slotAt pos).hash + k) % st.map.capacity ∧
    ∀ i < k, (st.map.slotAt
      ((st.map.home (st.map.slotAt pos).hash + i) % st.map.capacity)).id ≠ emptyId
  load : 4 * (st.map.table.countP fun slot => slot.id ≠ emptyId) ≤ 3 * st.map.capacity
  probe : st.map.capacity ≠ 0 → ∀ bytes : List UInt8, bytes.length = st.map.keys.elementSize →
    ∃ pos < st.map.capacity,
      st.map.probe (p.bytes st.heap) bytes (st.map.slotHash hashes bytes) = some pos ∧
      ((st.map.slotAt pos).id < st.map.size ∧ st.keyAt p (st.map.slotAt pos).id = bytes ∨
        (st.map.slotAt pos).id = emptyId ∧ ∀ id < st.map.size, st.keyAt p id ≠ bytes)

theorem Sound.keyAt {keys : List (List UInt8)} {others : List Block}
    (h : Sound hashes p st keys others) {id : Nat} (hid : id < keys.length) :
    st.keyAt p id = keys[id] := h.reads.read id hid

/-- A map without a table has nothing out of place. -/
theorem Sound.wellPlaced_bare {keys : List (List UInt8)} {others : List Block}
    (h : Sound hashes p st keys others) (hbare : Bare st.map keys) : WellPlaced hashes p st where
  capacity := Or.inl hbare.capacity
  length := by rw [hbare.table, hbare.capacity]; rfl
  slot id hid := by
    rw [h.size, hbare.keys] at hid
    exact absurd hid (Nat.not_lt_zero id)
  reach pos hpos := by
    rw [hbare.capacity] at hpos
    exact absurd hpos (Nat.not_lt_zero pos)
  load := by
    rw [hbare.table]
    exact Nat.zero_le _
  probe hcap := absurd hbare.capacity hcap

theorem Sound.wellPlaced_tabled {keys : List (List UInt8)} {others : List Block} {c : Nat}
    (h : Sound hashes p st keys others) (htable : Tabled hashes st.map keys c) :
    WellPlaced hashes p st := by
  have hcap := htable.capacity
  have hlen : st.map.table.length = 2 ^ c := htable.indexed.clustered.length
  have hget : ∀ pos < 2 ^ c, st.map.table[pos]? = some (st.map.slotAt pos) := fun pos hpos => by
    rw [KeyMap.slotAt, List.getD_eq_getElem?_getD, List.getElem?_eq_getElem (hlen ▸ hpos),
      Option.getD_some]
  have hfull : ∀ s : Slot, s.isFree = false ↔ s.id ≠ emptyId := fun s => decide_eq_false_iff_not
  have hplace : ∀ start, start % 2 ^ c < 2 ^ c := fun start => Nat.mod_lt _ (Nat.two_pow_pos c)
  have hhome : ∀ hash i, (st.map.home hash + i) % 2 ^ c = (hash + i) % 2 ^ c := fun hash i => by
    rw [KeyMap.home, hcap, Nat.and_two_pow_sub_one_eq_mod, Nat.mod_add_mod]
  -- the size, one slot for each key, no gap on its way, the load, and where a probe ends
  refine ⟨Or.inr ⟨c, hcap, ?_, ?_⟩, hlen.trans hcap.symm, fun id hid => ?_, fun pos hpos hocc => ?_,
    ?_, fun _ bytes hbytes => ?_⟩
  · exact (Nat.pow_le_pow_right (by decide) htable.log2_ge : 2 ^ 3 ≤ 2 ^ c)
  · exact (Nat.pow_le_pow_right (by decide) htable.log2_le : 2 ^ c ≤ 2 ^ 28)
  · rw [h.size] at hid
    obtain ⟨pos, hslot, hocc⟩ := htable.indexed.exists_slot hid
    have hpos := htable.indexed.clustered.pos_lt hslot
    rw [hcap, h.keyAt hid]
    refine ⟨pos, hpos, slotAt_of_get hslot, fun pos' hpos' heq => ?_⟩
    have hne := htable.length_lt_emptyId
    exact htable.indexed.slot_unique (hget pos' hpos') hslot ((hfull _).mpr (by omega)) hocc heq
  · rw [hcap] at hpos ⊢
    obtain ⟨k, hk, hwhere, hbefore⟩ := htable.indexed.clustered.reach pos _ (hget pos hpos)
      ((hfull _).mpr hocc)
    refine ⟨k, hk, by rw [hhome]; exact hwhere, fun i hi => ?_⟩
    obtain ⟨s, hs, hs'⟩ := hbefore i hi
    rw [hhome, slotAt_of_get hs]
    exact (hfull s).mp hs'
  · have hcount : (st.map.table.countP fun slot => slot.id ≠ emptyId) = keys.length := by
      rw [← htable.indexed.length_entries, entries, List.countP_eq_length_filter]
      refine congrArg List.length (List.filter_congr fun s _ => ?_)
      rw [Slot.isFree, ← decide_not]
    rw [hcount, hcap, ← four_mul_loadLimit htable.log2_ge]
    exact Nat.mul_le_mul_left 4 htable.load
  · obtain ⟨pos, hprobe, hknown, habsent⟩ := h.probe htable hbytes
    by_cases hmem : bytes ∈ keys
    · have hid := List.idxOf_lt_length_iff.mpr hmem
      obtain ⟨pos', hprobe', hslot⟩ := probe_known htable.indexed h.reads hcap hid (h.whole hid)
      rw [List.getElem_idxOf hid, hprobe] at hprobe'
      cases hprobe'
      rw [hcap, h.size]
      refine ⟨pos, htable.indexed.clustered.pos_lt hslot, hprobe, Or.inl ?_⟩
      rw [hknown hmem]
      exact ⟨hid, (h.keyAt hid).trans (List.getElem_idxOf hid)⟩
    · obtain ⟨hfree, hvacant⟩ := habsent hmem
      obtain ⟨k, -, hpos, -⟩ := hvacant.first
      rw [hcap, h.size]
      refine ⟨pos, hpos ▸ hplace _, hprobe, Or.inr ⟨hfree, fun id hid heq => ?_⟩⟩
      rw [h.keyAt hid] at heq
      exact hmem (heq ▸ List.getElem_mem hid)

theorem Represents.wellPlaced (h : Represents hashes p st q) : WellPlaced hashes p st := by
  obtain ⟨-, others, hsound⟩ := h
  rcases hsound.table with hbare | ⟨c, htable⟩
  · exact hsound.wellPlaced_bare hbare
  · exact hsound.wellPlaced_tabled htable

/-- In every state of a run the table is in order, and the next call, refused or not, returns and
leaves it so. -/
theorem table_well_placed (hashes : Hashes) (p : Provider σ) (map : KeyMap)
    (keySize keysBucketLog2 : Nat) (hash : HashKind) (hashK0 hashK1 : Nat) {s : σ}
    {others : List Block} (hheld : p.holds s others)
    (hok : (initMap map keySize keysBucketLog2 hash hashK0 hashK1).1 = .success)
    {steps : List (Step σ)} {st : State σ}
    (hrun : Run hashes p ⟨(initMap map keySize keysBucketLog2 hash hashK0 hashK1).2, s⟩ steps st) :
    WellPlaced hashes p st ∧
      ∀ c, ∃ reply st', st.call p.toCalls hashes c = some (reply, st') ∧
        WellPlaced hashes p st' := by
  obtain ⟨hinit, helem⟩ := initMap_sound hashes hheld hok
  have hstart : Represents hashes p
      ⟨(initMap map keySize keysBucketLog2 hash hashK0 hashK1).2, s⟩ (.empty keySize) :=
    ⟨helem, others, hinit⟩
  obtain ⟨q, -, hq⟩ := hstart.run hrun
  refine ⟨hq.wellPlaced, fun c => ?_⟩
  obtain ⟨reply, st', q', hcall, -, hq'⟩ := hq.call c
  exact ⟨reply, st', hcall, hq'.wellPlaced⟩

/-- The table of the sample is in order after its last call. -/
theorem table_well_placed_sample :
    ∃ steps st, sampleMap.run (Provider.ofArena noHost).toCalls collidingHashes sampleCalls =
        some (steps, st) ∧ st.map.capacity = 8 ∧
      WellPlaced collidingHashes (Provider.ofArena noHost) st := by
  have hruns : (sampleMap.run (Provider.ofArena noHost).toCalls collidingHashes sampleCalls).map
      (fun r => r.2.map.capacity) = some 8 := by decide +kernel
  obtain ⟨⟨steps, st⟩, hrun, hcapacity⟩ := Option.map_eq_some_iff.mp hruns
  exact ⟨steps, st, hrun, hcapacity, (table_well_placed collidingHashes (Provider.ofArena noHost)
    ⟨0, [], ⟨0, 0, 0, 0, 0, 0, 0, 0, 0, 0⟩, 0, 0, 0, .fast⟩ 1 1 .fast 0 0 lentArena_200_holds
    (by decide) (Run.of_calls hrun)).1⟩

end Arnm.Keys
