import Arnm.Lib.Probing
import Arnm.Vector.Runs

set_option autoImplicit false

/-! # The key map

`key_map.c`, the inline lookup of its header and the calls `ARNM_KEY_MAP_DEFINE` generates. The
keys lie in a bucket vector, one per id, in the memory of the allocator. The table of slots is a
block of its own that nothing else writes; its slots are kept as a list. The two hash functions are
parameters. A walk over the table takes at most as many steps as there are slots, since it would
only repeat itself after that; `none` stands for a walk that does not end. -/

namespace Arnm.Keys

open Memory Arnm.Vector

/-- `ARNM_KEY_MAP_MAX_CAPACITY` -/
def maxCapacity : Nat := 2 ^ 28

/-- `ARNM_KEY_MAP_MAX_KEYS` -/
def maxKeys : Nat := maxCapacity - maxCapacity / 4

/-- `ARNM_KEY_MAP_EMPTY_ID` -/
def emptyId : Nat := 2 ^ 32 - 1

/-- `MIN_CAPACITY` -/
def minCapacity : Nat := 8

/-- `arnm_key_map_slot` -/
structure Slot where
  hash : Nat
  id : Nat
  deriving DecidableEq, Repr

/-- The slot is free. -/
def Slot.isFree (s : Slot) : Bool := s.id = emptyId

/-- A slot with all bits set. -/
def Slot.blank : Slot := ⟨2 ^ 32 - 1, 2 ^ 32 - 1⟩

/-- `arnm_key_map_hash` -/
inductive HashKind where
  | fast
  | siphash13
  deriving DecidableEq, Repr

/-- `arnm_hash_fast` and `arnm_hash_siphash13` -/
structure Hashes where
  fast : List UInt8 → Nat
  siphash13 : List UInt8 → Nat → Nat → Nat

/-- `arnm_key_map`, with the slots of its table. -/
structure KeyMap where
  slots : Nat
  table : List Slot
  keys : BucketVector
  hashK0 : Nat
  hashK1 : Nat
  capacity : Nat
  hash : HashKind

/-- A map and its allocator with the memory. -/
structure State (σ : Type) where
  map : KeyMap
  heap : σ

/-- The key vector with the allocator. -/
def State.keys {σ : Type} (st : State σ) : Vector.State σ := ⟨st.map.keys, st.heap⟩

/-- The map with another state of its key vector. -/
def State.withKeys {σ : Type} (st : State σ) (keys : Vector.State σ) : State σ :=
  ⟨{ st.map with keys := keys.vector }, keys.heap⟩

/-- The bytes of a table. -/
def slotBytes (capacity : Nat) : Nat := capacity * 8 % 2 ^ 32

/-- `load_limit` -/
def loadLimit (capacity : Nat) : Nat := capacity - capacity / 4

/-- The loop of `capacity_for` from a capacity on. -/
def capacityFrom (keyCount : Nat) : Nat → Nat → Nat
  | 0, capacity => capacity
  | fuel + 1, capacity =>
    if loadLimit capacity < keyCount then capacityFrom keyCount fuel (capacity * 2) else capacity

/-- `capacity_for`; 25 doublings lead to the largest capacity. -/
def capacityFor (keyCount : Nat) : Nat := capacityFrom keyCount 25 minCapacity

namespace KeyMap

variable (map : KeyMap)

/-- `slots[index]` -/
def slotAt (index : Nat) : Slot := map.table.getD index Slot.blank

/-- `arnm_key_map_size` -/
def size : Nat := map.keys.size

/-- `arnm_key_map_key` -/
def key (m : Bytes) (id : Nat) : Nat := map.keys.get m id

/-- The bytes of a key behind a pointer. -/
def keyBytes (keySize : Nat) (key : Nat → UInt8) : List UInt8 := (List.range keySize).map key

/-- `arnm_key_map_slot_hash` -/
def slotHash (hashes : Hashes) (key : List UInt8) : Nat :=
  let hash :=
    match map.hash with
    | .siphash13 => hashes.siphash13 key map.hashK0 map.hashK1
    | .fast => hashes.fast key
  (hash ^^^ hash >>> 32) % 2 ^ 32

/-- What ends the walk of `arnm_key_map_probe` at a slot. -/
def stops (m : Bytes) (key : List UInt8) (hash index : Nat) : Bool :=
  let slot := map.slotAt index
  slot.id = emptyId ∨ slot.hash = hash ∧ m.read (map.keys.get m slot.id) key.length = key

/-- `arnm_key_map_probe` -/
def probe (m : Bytes) (key : List UInt8) (hash : Nat) : Option Nat :=
  let mask := map.capacity - 1
  Probing.seek (map.stops m key hash) mask map.capacity (hash &&& mask)

end KeyMap

/-! ## Init and clear -/

/-- `init_map` -/
def initMap (map : KeyMap) (keySize keysBucketLog2 : Nat) (hash : HashKind) (hashK0 hashK1 : Nat) :
    Result × KeyMap :=
  let keys := Vector.init map.keys keysBucketLog2 0 keySize
  if keys.1 ≠ .success then (keys.1, map)
  else
    (.success,
      { slots := 0
        table := []
        keys := keys.2
        hashK0 := hashK0
        hashK1 := hashK1
        capacity := 0
        hash := hash })

/-- `arnm_key_map_init` -/
def init (map : KeyMap) (keySize keysBucketLog2 : Nat) : Result × KeyMap :=
  initMap map keySize keysBucketLog2 .fast 0 0

/-- `arnm_key_map_init_keyed` -/
def initKeyed (map : KeyMap) (keySize keysBucketLog2 hashK0 hashK1 : Nat) : Result × KeyMap :=
  initMap map keySize keysBucketLog2 .siphash13 hashK0 hashK1

/-- `arnm_key_map_clear` -/
def KeyMap.clear (map : KeyMap) : KeyMap :=
  { map with
    table := if map.slots ≠ 0 then List.replicate map.capacity Slot.blank else map.table
    keys := map.keys.clear }

section Allocator

variable {σ : Type} (allocator : Calls σ)

/-- `arnm_key_map_free` -/
def free (st : State σ) : State σ :=
  let map := st.map
  let heap :=
    if map.slots ≠ 0 then (allocator.free map.slots (slotBytes map.capacity) st.heap).2
    else st.heap
  let keys := Vector.free allocator ⟨map.keys, heap⟩
  ⟨{ map with slots := 0, table := [], capacity := 0, keys := keys.vector }, keys.heap⟩

/-! ## The table -/

/-- `rebuild` -/
def rebuild (st : State σ) (capacity : Nat) : Option (Result × State σ) :=
  let map := st.map
  let block := allocator.alloc 0 (slotBytes capacity) st.heap
  if block.result ≠ .success then some (block.result, { st with heap := block.state })
  else
    let blank := List.replicate capacity Slot.blank
    (Probing.refill Slot.isFree Slot.hash (capacity - 1) map.table blank).map fun table =>
      let heap :=
        if map.slots ≠ 0 then
          (allocator.free map.slots (slotBytes map.capacity) block.state).2
        else block.state
      (.success, ⟨{ map with slots := block.buffer, table := table, capacity := capacity }, heap⟩)

/-- `arnm_key_map_reserve` -/
def reserve (st : State σ) (keyCount : Nat) : Option (Result × State σ) :=
  if keyCount = 0 then some (.errorInvalidParam, st)
  else if st.map.keys.elementSize = 0 then some (.errorInvalidState, st)
  else if maxKeys < keyCount then some (.errorArithmeticOverflow, st)
  else
    let keys := Vector.reserve allocator st.keys keyCount
    let st := st.withKeys keys.2
    if keys.1 ≠ .success then some (keys.1, st)
    else if capacityFor keyCount ≤ st.map.capacity then some (.success, st)
    else rebuild allocator st (capacityFor keyCount)

/-! ## Keys -/

/-- The table is rebuilt, and the slot for the hash looked for again. -/
def rebuildFor (st : State σ) (capacity hash index : Nat) : Option (Result × Nat × State σ) :=
  (rebuild allocator st capacity).bind fun (result, st) =>
    if result ≠ .success then some (result, index, st)
    else
      let mask := st.map.capacity - 1
      (Probing.seek (Probing.freeAt Slot.isFree st.map.table) mask st.map.capacity
        (hash &&& mask)).map fun index => (.success, index, st)

/-- The table grows where the load limit is reached. -/
def makeRoom (st : State σ) (hash index : Nat) : Option (Result × Nat × State σ) :=
  if loadLimit st.map.capacity ≤ st.map.size then
    if maxCapacity ≤ st.map.capacity then some (.errorArithmeticOverflow, index, st)
    else
      let capacity := if st.map.capacity ≠ 0 then st.map.capacity * 2 else minCapacity
      rebuildFor allocator st capacity hash index
  else some (.success, index, st)

/-- The key goes into the key vector, and then its id into the slot. -/
def storeKey (st : State σ) (key : Nat → UInt8) (hash index : Nat) :
    Result × Option Nat × State σ :=
  let count := st.map.size
  let stored := Vector.emplace allocator st.keys true
  if stored.1 ≠ .success then (stored.1, none, st.withKeys stored.2.2)
  else
    let st := st.withKeys stored.2.2
    let m := (allocator.bytes st.heap).put stored.2.1 (st.map.keys.element key)
    (.success, some count,
      ⟨{ st.map with table := st.map.table.set index ⟨hash, count⟩ }, allocator.write m st.heap⟩)

/-- `insert_absent`, with the id it hands out. -/
def insertAbsent (st : State σ) (key : Nat → UInt8) (hash index : Nat) :
    Option (Result × Option Nat × State σ) :=
  (makeRoom allocator st hash index).map fun (result, index, st) =>
    if result ≠ .success then (result, none, st) else storeKey allocator st key hash index

/-- `arnm_key_map_insert_absent` -/
def insertAbsentChecked (st : State σ) (key : Option (Nat → UInt8)) (hash slotIndex : Nat)
    (outId : Bool) : Option (Result × Option Nat × State σ) :=
  match key with
  | none => some (.errorNullPointer, none, st)
  | some key =>
    if outId = false then some (.errorNullPointer, none, st)
    else if st.map.keys.elementSize = 0 then some (.errorInvalidState, none, st)
    else if st.map.capacity ≠ 0 ∧ st.map.size < loadLimit st.map.capacity ∧
        (st.map.capacity ≤ slotIndex ∨ (st.map.slotAt slotIndex).id ≠ emptyId) then
      some (.errorInvalidParam, none, st)
    else insertAbsent allocator st key hash slotIndex

/-- What a call answers: a result with the outputs it wrote, or whether a key was found. -/
inductive Reply where
  | done (result : Result) (id : Option Nat) (inserted : Option Bool)
  | found (answer : Bool) (id : Option Nat)
  deriving DecidableEq, Repr

/-- The answer to an insert of an absent key. -/
def inserting (outInserted : Bool) (r : Result × Option Nat × State σ) : Reply × State σ :=
  (.done r.1 r.2.1 (if r.1 = .success ∧ outInserted then some true else none), r.2.2)

/-- The answer to an insert of a known key. -/
def known (st : State σ) (id : Nat) (outInserted : Bool) : Reply × State σ :=
  (.done .success (some id) (if outInserted then some false else none), st)

variable (hashes : Hashes)

/-- `arnm_key_map_get_or_insert` -/
def getOrInsert (st : State σ) (key : Option (Nat → UInt8)) (outId outInserted : Bool) :
    Option (Reply × State σ) :=
  match key with
  | none => some (.done .errorNullPointer none none, st)
  | some key =>
    if outId = false then some (.done .errorNullPointer none none, st)
    else
      let keySize := st.map.keys.elementSize
      if keySize = 0 then some (.done .errorInvalidState none none, st)
      else
        let bytes := KeyMap.keyBytes keySize key
        let hash := st.map.slotHash hashes bytes
        if st.map.capacity ≠ 0 then
          (st.map.probe (allocator.bytes st.heap) bytes hash).bind fun index =>
            let slot := st.map.slotAt index
            if slot.id ≠ emptyId then some (known st slot.id outInserted)
            else (insertAbsent allocator st key hash index).map (inserting outInserted)
        else (insertAbsent allocator st key hash 0).map (inserting outInserted)

/-- `arnm_key_map_find` -/
def find (st : State σ) (key : Option (Nat → UInt8)) (outId : Bool) : Option Reply :=
  match key with
  | none => some (.found false none)
  | some key =>
    if st.map.capacity = 0 then some (.found false none)
    else
      let bytes := KeyMap.keyBytes st.map.keys.elementSize key
      (st.map.probe (allocator.bytes st.heap) bytes (st.map.slotHash hashes bytes)).map fun index =>
        let slot := st.map.slotAt index
        if slot.id = emptyId then .found false none
        else .found true (if outId then some slot.id else none)

/-! ## The generated calls -/

/-- `name##_get_or_insert` for keys of `keySize` bytes -/
def typedGetOrInsert (keySize : Nat) (st : State σ) (key : Option (Nat → UInt8))
    (outId outInserted : Bool) : Option (Reply × State σ) :=
  match key with
  | none => some (.done .errorNullPointer none none, st)
  | some key =>
    if outId = false then some (.done .errorNullPointer none none, st)
    else if keySize ≠ st.map.keys.elementSize then some (.done .errorInvalidState none none, st)
    else
      let bytes := KeyMap.keyBytes keySize key
      let hash := st.map.slotHash hashes bytes
      if st.map.capacity ≠ 0 then
        (st.map.probe (allocator.bytes st.heap) bytes hash).bind fun index =>
          let slot := st.map.slotAt index
          if slot.id ≠ emptyId then some (known st slot.id outInserted)
          else
            (insertAbsentChecked allocator st (some key) hash index outId).map
              (inserting outInserted)
      else (insertAbsentChecked allocator st (some key) hash 0 outId).map (inserting outInserted)

/-- `name##_find` for keys of `keySize` bytes -/
def typedFind (keySize : Nat) (st : State σ) (key : Option (Nat → UInt8)) (outId : Bool) :
    Option Reply :=
  match key with
  | none => some (.found false none)
  | some key =>
    if st.map.capacity = 0 ∨ keySize ≠ st.map.keys.elementSize then some (.found false none)
    else
      let bytes := KeyMap.keyBytes keySize key
      (st.map.probe (allocator.bytes st.heap) bytes (st.map.slotHash hashes bytes)).map fun index =>
        let slot := st.map.slotAt index
        if slot.id = emptyId then .found false none
        else .found true (if outId then some slot.id else none)

end Allocator

end Arnm.Keys
