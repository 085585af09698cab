import Arnm.Keys.Steps

set_option autoImplicit false

/-! # Lookups and inserts

A lookup of a known key ends at its slot and changes nothing. An insert of an absent key goes
through up to three allocations, the larger table and the two of the key vector; whichever is
refused, no key was added. The generated calls do the same for the key size they were made for. -/

namespace Arnm.Keys

open Memory Arnm.Vector Probing

variable {σ : Type} {hashes : Hashes} {p : Provider σ} {st : State σ} {keys : List (List UInt8)}
  {others : List Block} {c : Nat}

/-! ## Room for one more key -/

/-- The map has a table, room in it for one more key, and the slot is the one for its hash. -/
def Ready (hashes : Hashes) (map : KeyMap) (keys : List (List UInt8)) (hash index : Nat) : Prop :=
  ∃ c, Tabled hashes map keys c ∧ keys.length < loadLimit (2 ^ c) ∧ Vacant c map.table hash index

theorem Sound.rebuildFor (h : Sound hashes p st keys others) (hash index c' : Nat)
    (hge : 3 ≤ c') (hle : c' ≤ 28) (hroom : keys.length < loadLimit (2 ^ c')) :
    ∃ r, rebuildFor p.toCalls st (2 ^ c') hash index = some r ∧
      Sound hashes p r.2.2 keys others ∧ r.2.2.map.keys = st.map.keys ∧
      r.2.2.map.slotHash hashes = st.map.slotHash hashes ∧
      (r.1.isError = true ∨ r.1 = .success ∧ Ready hashes r.2.2.map keys hash r.2.1) := by
  obtain ⟨⟨result, st'⟩, hr, hsound, hkeys, hhash, hcase⟩ :=
    h.rebuild hge hle (Nat.le_of_lt hroom)
  rw [Keys.rebuildFor, hr, Option.bind_some]
  simp only at hsound hkeys hhash hcase ⊢
  rcases hcase with ⟨herr, -⟩ | ⟨hok, htable⟩
  · rw [if_pos (Result.ne_success_of_isError herr)]
    exact ⟨_, rfl, hsound, hkeys, hhash, Or.inl herr⟩
  · rw [if_neg (not_not_intro hok)]
    obtain ⟨index', hseek, hvacant⟩ := htable.indexed.seek_vacant hash htable.length_lt
      fun _ _ => rfl
    rw [htable.capacity, hseek]
    exact ⟨_, rfl, hsound, hkeys, hhash, Or.inr ⟨rfl, c', htable, hroom, hvacant⟩⟩

/-- The table grows at the load limit; without that the slot of the probe stays the right one. -/
theorem Sound.makeRoom (h : Sound hashes p st keys others) {hash index : Nat}
    (hvacant : ∀ c, Tabled hashes st.map keys c → Vacant c st.map.table hash index) :
    ∃ r, makeRoom p.toCalls st hash index = some r ∧
      Sound hashes p r.2.2 keys others ∧ r.2.2.map.keys = st.map.keys ∧
      r.2.2.map.slotHash hashes = st.map.slotHash hashes ∧
      (r.1.isError = true ∨ r.1 = .success ∧ Ready hashes r.2.2.map keys hash r.2.1) := by
  unfold Keys.makeRoom
  rw [h.size]
  -- the first table has eight slots
  by_cases hcap : st.map.capacity = 0
  · have hbare := h.bare hcap
    rw [if_pos (by rw [hcap]; exact Nat.zero_le _), if_neg (by rw [hcap]; decide),
      if_neg (not_not_intro hcap)]
    refine h.rebuildFor hash index 3 (by decide) (by decide) ?_
    rw [hbare.keys]
    decide
  · obtain ⟨c, htable⟩ := h.tabled hcap
    -- at the load limit the slots are doubled, up to the largest table
    by_cases hfull : loadLimit st.map.capacity ≤ keys.length
    · rw [if_pos hfull]
      by_cases hmax : maxCapacity ≤ st.map.capacity
      · rw [if_pos hmax]
        exact ⟨_, rfl, h, rfl, rfl, Or.inl rfl⟩
      · rw [if_neg hmax, if_pos hcap]
        rw [htable.capacity] at hmax hfull ⊢
        simp only
        rw [← Nat.pow_succ]
        have hlt : c < 28 := by
          by_contra hge
          exact hmax (Nat.pow_le_pow_right (by decide) (Nat.le_of_not_lt hge))
        have hlen := Nat.le_antisymm htable.load hfull
        refine h.rebuildFor hash index (c + 1) (Nat.le_succ_of_le htable.log2_ge) hlt ?_
        rw [hlen]
        exact loadLimit_double htable.log2_ge
    · rw [if_neg hfull]
      rw [htable.capacity] at hfull
      exact ⟨_, rfl, h, rfl, rfl,
        Or.inr ⟨rfl, c, htable, Nat.lt_of_not_le hfull, hvacant c htable⟩⟩

/-! ## One more key -/

/-- The key and its slot were added, or the bucket for the key was refused. -/
theorem Sound.storeKey (h : Sound hashes p st keys others) {key : Nat → UInt8} {index : Nat}
    (hnew : KeyMap.keyBytes st.map.keys.elementSize key ∉ keys)
    (hready : Ready hashes st.map keys
      (st.map.slotHash hashes (KeyMap.keyBytes st.map.keys.elementSize key)) index) :
    let r := storeKey p.toCalls st key
      (st.map.slotHash hashes (KeyMap.keyBytes st.map.keys.elementSize key)) index
    r.2.2.map.keys.elementSize = st.map.keys.elementSize ∧
    (r.1.isError = true ∧ r.2.1 = none ∧ Sound hashes p r.2.2 keys others ∨
      r.1 = .success ∧ r.2.1 = some keys.length ∧
        Sound hashes p r.2.2 (keys ++ [KeyMap.keyBytes st.map.keys.elementSize key]) others) := by
  intro r
  obtain ⟨c, htable, hroom, hvacant⟩ := hready
  set bytes := KeyMap.keyBytes st.map.keys.elementSize key
  set hash := st.map.slotHash hashes bytes
  have hr : r = Keys.storeKey p.toCalls st key hash index := rfl
  unfold Keys.storeKey at hr
  -- the bucket vector pushes what the source emplaces and then copies
  have hpush := pushPtr_eq p.toCalls st.keys key
  obtain ⟨hstay, hcase⟩ := h.vector.pushPtr key
  have hemplaced := h.vector.emplace.1.elementSize
  simp only at hpush hr
  set stored := Vector.emplace p.toCalls st.keys true
  by_cases hok : stored.1 = .success
  · rw [if_neg (not_not_intro hok)] at hpush hr
    rw [hpush] at hstay hcase
    rcases hcase with ⟨herr, -⟩ | ⟨-, hvector⟩
    · cases herr
    have hsize : st.map.size = keys.length := h.size
    rw [hr]
    refine ⟨hemplaced, Or.inr ⟨rfl, by rw [hsize], hvector, ?_, Or.inr ⟨c, ?_⟩⟩⟩
    · exact List.nodup_append.mpr ⟨h.distinct, List.nodup_singleton _, fun x hx y hy heq => by
        rw [List.mem_singleton.mp hy] at heq
        exact hnew (heq ▸ hx)⟩
    · refine ⟨htable.slots_ne, htable.capacity, htable.log2_ge, htable.log2_le, ?_, ?_⟩
      · rw [List.length_append, List.length_singleton]
        exact hroom
      · have hinsert := htable.indexed.insert hvacant htable.length_lt_emptyId
        rw [← hsize] at hinsert
        exact hinsert
  · rw [if_pos hok] at hpush hr
    rw [hpush] at hstay hcase
    rcases hcase with ⟨herr, -, hvector⟩ | ⟨hsuccess, -⟩
    · rw [hr]
      exact ⟨hstay.elementSize, Or.inl ⟨herr, rfl, h.withKeys hvector⟩⟩
    · exact absurd hsuccess hok

/-- `insert_absent` adds the key, or is refused somewhere on the way and adds nothing. -/
theorem Sound.insertAbsent (h : Sound hashes p st keys others) {key : Nat → UInt8} {index : Nat}
    (hnew : KeyMap.keyBytes st.map.keys.elementSize key ∉ keys)
    (hvacant : ∀ c, Tabled hashes st.map keys c → Vacant c st.map.table
      (st.map.slotHash hashes (KeyMap.keyBytes st.map.keys.elementSize key)) index) :
    ∃ r, insertAbsent p.toCalls st key
        (st.map.slotHash hashes (KeyMap.keyBytes st.map.keys.elementSize key)) index = some r ∧
      r.2.2.map.keys.elementSize = st.map.keys.elementSize ∧
      (r.1.isError = true ∧ r.2.1 = none ∧ Sound hashes p r.2.2 keys others ∨
        r.1 = .success ∧ r.2.1 = some keys.length ∧
          Sound hashes p r.2.2 (keys ++ [KeyMap.keyBytes st.map.keys.elementSize key]) others) := by
  obtain ⟨r, hr, hsound, hkeys, hhash, hcase⟩ := h.makeRoom hvacant
  unfold Keys.insertAbsent
  rw [hr, Option.map_some]
  refine ⟨_, rfl, ?_⟩
  rcases hcase with herr | ⟨hok, hready⟩
  · simp only
    rw [if_pos (Result.ne_success_of_isError herr)]
    exact ⟨by rw [hkeys], Or.inl ⟨herr, rfl, hsound⟩⟩
  · simp only
    rw [if_neg (not_not_intro hok)]
    rw [← hhash, ← hkeys] at hready ⊢
    rw [← hkeys] at hnew
    exact hsound.storeKey hnew hready

/-- The checks of `arnm_key_map_insert_absent` pass where a probe ended. -/
theorem Sound.insertAbsentChecked (h : Sound hashes p st keys others) (allocator : Calls σ)
    (key : Nat → UInt8) {hash index : Nat} (hvacant : ∀ c, Tabled hashes st.map keys c →
      Vacant c st.map.table hash index) :
    insertAbsentChecked allocator st (some key) hash index true =
      Keys.insertAbsent allocator st key hash index := by
  have hpass : ¬ (st.map.capacity ≠ 0 ∧ st.map.size < loadLimit st.map.capacity ∧
      (st.map.capacity ≤ index ∨ (st.map.slotAt index).id ≠ emptyId)) := by
    rintro ⟨hcap, -, hbad⟩
    obtain ⟨c, htable⟩ := h.tabled hcap
    obtain ⟨s, hget, hfree⟩ := freeAt_iff.mp (hvacant c htable).free
    rcases hbad with hout | hfull
    · have hlt := htable.indexed.clustered.pos_lt hget
      rw [htable.capacity] at hout
      omega
    · rw [slotAt_of_get hget] at hfull
      exact hfull (of_decide_eq_true hfree)
  rw [Keys.insertAbsentChecked, if_neg (by decide), if_neg h.elementSize_ne, if_neg hpass]

/-! ## Lookups -/

theorem length_keyBytes (keySize : Nat) (key : Nat → UInt8) :
    (KeyMap.keyBytes keySize key).length = keySize := by
  simp [KeyMap.keyBytes]

/-- A probe for the bytes of a key ends at the key's slot or, when it is absent, where it goes. -/
theorem Sound.probe (h : Sound hashes p st keys others) (htable : Tabled hashes st.map keys c)
    {bytes : List UInt8} (hlen : bytes.length = st.map.keys.elementSize) :
    ∃ pos, st.map.probe (p.bytes st.heap) bytes (st.map.slotHash hashes bytes) = some pos ∧
      (bytes ∈ keys → st.map.slotAt pos = ⟨st.map.slotHash hashes bytes, keys.idxOf bytes⟩) ∧
      (bytes ∉ keys → (st.map.slotAt pos).id = emptyId ∧
        Vacant c st.map.table (st.map.slotHash hashes bytes) pos) := by
  by_cases hmem : bytes ∈ keys
  · have hid := List.idxOf_lt_length_iff.mpr hmem
    have hkey : keys[keys.idxOf bytes] = bytes := List.getElem_idxOf hid
    obtain ⟨pos, hprobe, hget⟩ :=
      probe_known htable.indexed h.reads htable.capacity hid (h.whole hid)
    rw [hkey] at hprobe hget
    exact ⟨pos, hprobe, fun _ => slotAt_of_get hget, fun hnew => absurd hmem hnew⟩
  · obtain ⟨pos, hprobe, hvacant⟩ := probe_absent htable.indexed h.reads htable.capacity
      htable.length_lt hlen hmem
    obtain ⟨s, hget, hfree⟩ := freeAt_iff.mp hvacant.free
    refine ⟨pos, hprobe, fun hin => absurd hin hmem, fun _ => ⟨?_, hvacant⟩⟩
    rw [slotAt_of_get hget]
    exact of_decide_eq_true hfree

/-- The outcome of an insert: the key is known and nothing changed, it was added under the next
id, or it was refused. -/
def Inserts (hashes : Hashes) (p : Provider σ) (st : State σ) (keys : List (List UInt8))
    (others : List Block) (bytes : List UInt8) (outInserted : Bool) (r : Reply × State σ) : Prop :=
  r.2.map.keys.elementSize = st.map.keys.elementSize ∧
  (bytes ∈ keys ∧ r = known st (keys.idxOf bytes) outInserted ∨
    bytes ∉ keys ∧
      r.1 = .done .success (some keys.length) (if outInserted then some true else none) ∧
      Sound hashes p r.2 (keys ++ [bytes]) others ∨
    bytes ∉ keys ∧ (∃ result : Result, result.isError = true ∧ r.1 = .done result none none) ∧
      Sound hashes p r.2 keys others)

theorem Sound.inserts (h : Sound hashes p st keys others) {key : Nat → UInt8} {index : Nat}
    (outInserted : Bool)
    (hnew : KeyMap.keyBytes st.map.keys.elementSize key ∉ keys)
    (hvacant : ∀ c, Tabled hashes st.map keys c → Vacant c st.map.table
      (st.map.slotHash hashes (KeyMap.keyBytes st.map.keys.elementSize key)) index) :
    ∃ r, (Keys.insertAbsent p.toCalls st key
        (st.map.slotHash hashes (KeyMap.keyBytes st.map.keys.elementSize key)) index).map
        (inserting outInserted) = some r ∧
      Inserts hashes p st keys others
        (KeyMap.keyBytes st.map.keys.elementSize key) outInserted r := by
  obtain ⟨r, hr, helem, hcase⟩ := h.insertAbsent hnew hvacant
  rw [hr, Option.map_some]
  refine ⟨_, rfl, helem, Or.inr ?_⟩
  rcases hcase with ⟨herr, hid, hsound⟩ | ⟨hok, hid, hsound⟩
  · refine Or.inr ⟨hnew, ⟨r.1, herr, ?_⟩, hsound⟩
    rw [inserting, hid, if_neg fun hok => by rw [hok.1] at herr; cases herr]
  · refine Or.inl ⟨hnew, ?_, hsound⟩
    rw [inserting, hid, hok]
    simp only [true_and]

/-- `arnm_key_map_get_or_insert` -/
theorem Sound.getOrInsert (h : Sound hashes p st keys others) (key : Nat → UInt8)
    (outInserted : Bool) :
    ∃ r, getOrInsert p.toCalls hashes st (some key) true outInserted = some r ∧
      Inserts hashes p st keys others
        (KeyMap.keyBytes st.map.keys.elementSize key) outInserted r := by
  unfold Keys.getOrInsert
  simp only
  rw [if_neg (by decide), if_neg h.elementSize_ne]
  by_cases hcap : st.map.capacity = 0
  · have hbare := h.bare hcap
    rw [if_neg (not_not_intro hcap)]
    refine h.inserts outInserted (by rw [hbare.keys]; exact List.not_mem_nil) fun c htable => ?_
    exact absurd hcap htable.capacity_ne
  · obtain ⟨c, htable⟩ := h.tabled hcap
    rw [if_pos hcap]
    obtain ⟨pos, hprobe, hknown, habsent⟩ := h.probe htable
      (length_keyBytes st.map.keys.elementSize key)
    rw [hprobe, Option.bind_some]
    by_cases hmem : KeyMap.keyBytes st.map.keys.elementSize key ∈ keys
    · have hid := List.idxOf_lt_length_iff.mpr hmem
      have hne := htable.length_lt_emptyId
      rw [hknown hmem, if_pos (by simp only; omega)]
      exact ⟨_, rfl, rfl, Or.inl ⟨hmem, rfl⟩⟩
    · obtain ⟨hfree, hvacant⟩ := habsent hmem
      rw [if_neg (not_not_intro hfree)]
      refine h.inserts outInserted hmem fun c' htable' => ?_
      have hc : c' = c := Nat.pow_right_injective (Nat.le_refl 2)
        (htable'.capacity.symm.trans htable.capacity)
      rw [hc]
      exact hvacant

/-- The generated call does what the library's does, over any allocator of the same memory. -/
theorem Sound.typedGetOrInsert (h : Sound hashes p st keys others) {allocator : Calls σ}
    (hbytes : allocator.bytes = p.bytes) (key : Option (Nat → UInt8)) (outId outInserted : Bool) :
    typedGetOrInsert allocator hashes st.map.keys.elementSize st key outId outInserted =
      Keys.getOrInsert allocator hashes st key outId outInserted := by
  cases key with
  | none => rfl
  | some key =>
      unfold Keys.typedGetOrInsert Keys.getOrInsert
      rw [hbytes]
      simp only
      cases outId with
      | false => rfl
      | true =>
          rw [if_neg (show ¬ true = false by decide), if_neg (not_not_intro rfl),
            if_neg (show ¬ true = false by decide), if_neg h.elementSize_ne]
          by_cases hcap : st.map.capacity = 0
          · rw [if_neg (not_not_intro hcap), if_neg (not_not_intro hcap),
              h.insertAbsentChecked allocator key fun c htable => absurd hcap htable.capacity_ne]
          · obtain ⟨c, htable⟩ := h.tabled hcap
            rw [if_pos hcap, if_pos hcap]
            obtain ⟨pos, hprobe, hknown, habsent⟩ := h.probe htable
              (length_keyBytes st.map.keys.elementSize key)
            rw [hprobe, Option.bind_some, Option.bind_some]
            -- the slot is free exactly where the key is new
            by_cases hfree : (st.map.slotAt pos).id = emptyId
            · have hmem : KeyMap.keyBytes st.map.keys.elementSize key ∉ keys := fun hmem => by
                have hid := List.idxOf_lt_length_iff.mpr hmem
                have hne := htable.length_lt_emptyId
                rw [hknown hmem] at hfree
                simp only at hfree
                omega
              rw [if_neg (not_not_intro hfree), if_neg (not_not_intro hfree),
                h.insertAbsentChecked allocator key fun c' htable' => ?_]
              have hc : c' = c := Nat.pow_right_injective (Nat.le_refl 2)
                (htable'.capacity.symm.trans htable.capacity)
              rw [hc]
              exact (habsent hmem).2
            · rw [if_pos hfree, if_pos hfree]

/-- `arnm_key_map_find` -/
theorem Sound.find (h : Sound hashes p st keys others) (key : Nat → UInt8) (outId : Bool) :
    find p.toCalls hashes st (some key) outId =
      if KeyMap.keyBytes st.map.keys.elementSize key ∈ keys then
        some (.found true (if outId then
          some (keys.idxOf (KeyMap.keyBytes st.map.keys.elementSize key)) else none))
      else some (.found false none) := by
  unfold Keys.find
  simp only
  by_cases hcap : st.map.capacity = 0
  · have hbare := h.bare hcap
    rw [if_pos hcap, if_neg (by rw [hbare.keys]; exact List.not_mem_nil)]
  · obtain ⟨c, htable⟩ := h.tabled hcap
    rw [if_neg hcap]
    obtain ⟨pos, hprobe, hknown, habsent⟩ := h.probe htable
      (length_keyBytes st.map.keys.elementSize key)
    rw [hprobe, Option.map_some]
    by_cases hmem : KeyMap.keyBytes st.map.keys.elementSize key ∈ keys
    · have hid := List.idxOf_lt_length_iff.mpr hmem
      have hne := htable.length_lt_emptyId
      rw [if_pos hmem, hknown hmem]
      simp only
      rw [if_neg (by omega)]
    · rw [if_neg hmem]
      rw [if_pos (habsent hmem).1]

/-- The generated call finds what the library's does. -/
theorem typedFind_eq (allocator : Calls σ) (st : State σ) (key : Option (Nat → UInt8))
    (outId : Bool) :
    typedFind allocator hashes st.map.keys.elementSize st key outId =
      Keys.find allocator hashes st key outId := by
  cases key with
  | none => rfl
  | some key =>
      unfold typedFind Keys.find
      simp only [ne_eq, not_true_eq_false, or_false]

end Arnm.Keys
