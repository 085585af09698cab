import Arnm.Memory.Provider

set_option autoImplicit false

/-! # The fixed ring

`fixed_ring.c` and the inline accessors of its header: a block of `capacity` slots, the slot of
the front, and the number of elements. The two indices and their sum are 32-bit numbers. The ring
itself is never `NULL` here; the other pointers a call may be given `NULL` for are flags or
options, and an address of `0` is `NULL`. -/

namespace Arnm.Ring

open Memory

/-- `arnm_fixed_ring` -/
structure FixedRing where
  slots : Nat
  capacity : Nat
  head : Nat
  size : Nat
  elementSize : Nat
  deriving DecidableEq, Repr

namespace FixedRing

/-- `block_bytes` -/
def blockBytes (ring : FixedRing) : Nat := ring.capacity * ring.elementSize % 2 ^ 32

/-- `forget_everything` -/
def forgetEverything : FixedRing := ⟨0, 0, 0, 0, 0⟩

/-! ## Reading -/

/-- The slot of an index from the front: `head + index`, brought back once. -/
def slotOf (ring : FixedRing) (index : Nat) : Nat :=
  let slot := (ring.head + index) % 2 ^ 32
  if ring.capacity ≤ slot then slot - ring.capacity else slot

/-- `arnm_fixed_ring_get` -/
def get (ring : FixedRing) (index : Nat) : Nat :=
  ring.slots + ring.slotOf index * ring.elementSize

/-- `arnm_fixed_ring_at` -/
def getAt (ring : FixedRing) (index : Nat) : Nat := if ring.size ≤ index then 0 else ring.get index

/-- `arnm_fixed_ring_front` -/
def front (ring : FixedRing) : Nat := if ring.size ≠ 0 then ring.get 0 else 0

/-- `arnm_fixed_ring_back` -/
def back (ring : FixedRing) : Nat := if ring.size ≠ 0 then ring.get (ring.size - 1) else 0

/-- `arnm_fixed_ring_reserved` -/
def reserved (ring : FixedRing) : Nat := if ring.slots = 0 then 0 else ring.blockBytes

/-! ## Writing -/

/-- `arnm_fixed_ring_clear` -/
def clear (ring : FixedRing) : FixedRing := { ring with head := 0, size := 0 }

/-- `arnm_fixed_ring_emplace`, with the slot it hands out. -/
def emplace (ring : FixedRing) (outSlot : Bool) : Result × Nat × FixedRing :=
  if outSlot = false then (.errorNullPointer, 0, ring)
  else if ring.slots = 0 then (.errorNotInitialized, 0, ring)
  else if ring.size = ring.capacity then (.errorResourceExhausted, 0, ring)
  else (.success, ring.get ring.size, { ring with size := (ring.size + 1) % 2 ^ 32 })

/-- `arnm_fixed_ring_pop` -/
def pop (ring : FixedRing) : Result × FixedRing :=
  if ring.size = 0 then (.errorArrayIndexOutOfBounds, ring)
  else
    let head := (ring.head + 1) % 2 ^ 32
    (.success, { ring with
      head := if head = ring.capacity then 0 else head
      size := ring.size - 1 })

/-- The bytes behind a pointer, as many as an element has. -/
def element (ring : FixedRing) (value : Nat → UInt8) : List UInt8 :=
  (List.range ring.elementSize).map value

end FixedRing

/-- A ring and the memory its block lies in. -/
structure State where
  ring : FixedRing
  bytes : Bytes

/-- `arnm_fixed_ring_push_ptr`; the value is given by the bytes behind the pointer. -/
def State.pushPtr (st : State) (value : Option (Nat → UInt8)) : Result × State :=
  match value with
  | none => (.errorNullPointer, st)
  | some value =>
    match st.ring.emplace true with
    | (.success, slot, ring) => (.success, ⟨ring, st.bytes.put slot (st.ring.element value)⟩)
    | (result, _, _) => (result, st)

/-- `arnm_fixed_ring_pop_copy`, with the bytes copied to `dst`. -/
def State.popCopy (st : State) (dst : Bool) : Result × List UInt8 × State :=
  if dst = false then (.errorNullPointer, [], st)
  else if st.ring.size = 0 then (.errorArrayIndexOutOfBounds, [], st)
  else
    (st.ring.pop.1, st.bytes.read (st.ring.get 0) st.ring.elementSize,
      { st with ring := st.ring.pop.2 })

/-- `arnm_fixed_ring_copy_to`, with the bytes written from `dst` on. -/
def State.copyTo (st : State) (dst : Bool) (dstCapacity : Nat) : Result × List UInt8 :=
  let ring := st.ring
  if dst = false then (.errorNullPointer, [])
  else if dstCapacity < ring.size then (.errorDestinationBufferToSmall, [])
  else if ring.size = 0 then (.success, [])
  else
    -- from the front to the end of the block, and the remainder from the start of it
    let toEnd := ring.capacity - ring.head
    let firstRun := if ring.size < toEnd then ring.size else toEnd
    let first := st.bytes.read (ring.slots + ring.head * ring.elementSize)
      (firstRun * ring.elementSize)
    if firstRun < ring.size then
      (.success, first ++ st.bytes.read ring.slots ((ring.size - firstRun) * ring.elementSize))
    else (.success, first)

/-! ## The block -/

section Allocator

variable {σ : Type}

/-- `arnm_fixed_ring_init` -/
def init (allocator : Calls σ) (ring : FixedRing) (capacity elementSize : Nat) (s : σ) :
    Result × FixedRing × σ :=
  if capacity = 0 ∨ elementSize = 0 ∨ 2 ^ 16 - 1 < elementSize then (.errorInvalidParam, ring, s)
  else if maxAllocSize / elementSize < capacity then (.errorArithmeticOverflow, ring, s)
  else
    let got := allocator.alloc 0 (capacity * elementSize % 2 ^ 32) s
    if got.result = .success then
      (.success,
        { slots := got.buffer, capacity := capacity, head := 0, size := 0,
          elementSize := elementSize },
        got.state)
    else (got.result, ring, got.state)

/-- `arnm_fixed_ring_free` -/
def free (allocator : Calls σ) (ring : FixedRing) (s : σ) : Result × FixedRing × σ :=
  if ring.slots = 0 then (.success, FixedRing.forgetEverything, s)
  else
    let freed := allocator.free ring.slots ring.blockBytes s
    (freed.1, FixedRing.forgetEverything, freed.2)

end Allocator

/-! ## Calls between init and free -/

/-- A call with its arguments; `fill` is the client writing an element through the pointer the
ring has for it. -/
inductive Call where
  | emplace (outSlot : Bool)
  | pushPtr (value : Option (Nat → UInt8))
  | pop
  | popCopy (dst : Bool)
  | clear
  | fill (index : Nat) (value : Nat → UInt8)

/-- What a call answers: its result, the slot handed out, the bytes copied out. -/
structure Reply where
  result : Result
  slot : Nat
  out : List UInt8
  deriving DecidableEq, Repr

def State.call (st : State) : Call → Reply × State
  | .emplace outSlot =>
    let (result, slot, ring) := st.ring.emplace outSlot
    (⟨result, slot, []⟩, { st with ring := ring })
  | .pushPtr value =>
    let (result, st) := st.pushPtr value
    (⟨result, 0, []⟩, st)
  | .pop =>
    let (result, ring) := st.ring.pop
    (⟨result, 0, []⟩, { st with ring := ring })
  | .popCopy dst =>
    let (result, out, st) := st.popCopy dst
    (⟨result, 0, out⟩, st)
  | .clear => (⟨.success, 0, []⟩, { st with ring := st.ring.clear })
  | .fill index value =>
    if st.ring.getAt index = 0 then (⟨.success, 0, []⟩, st)
    else
      (⟨.success, 0, []⟩,
        { st with bytes := st.bytes.put (st.ring.getAt index) (st.ring.element value) })

/-- The answers of a run, and the state it ends in. -/
def State.run (st : State) : List Call → List Reply × State
  | [] => ([], st)
  | c :: calls =>
    let (reply, st) := st.call c
    let (replies, st) := st.run calls
    (reply :: replies, st)

/-- A call that fails changes nothing. -/
theorem State.call_failed {st : State} {c : Call} (h : (st.call c).1.result ≠ .success) :
    (st.call c).2 = st := by
  cases c with
  | emplace outSlot =>
      simp only [State.call, FixedRing.emplace] at h ⊢
      split
      · rfl
      · split
        · rfl
        · split
          · rfl
          · rename_i h₁ h₂ h₃
            rw [if_neg h₁, if_neg h₂, if_neg h₃] at h
            exact absurd rfl h
  | pushPtr value =>
      cases value with
      | none => rfl
      | some value =>
          simp only [State.call, State.pushPtr] at h ⊢
          split
          · rename_i slot ring he
            simp only [he] at h
            exact absurd rfl h
          · rfl
  | pop =>
      simp only [State.call, FixedRing.pop] at h ⊢
      split
      · rfl
      · rename_i hne
        rw [if_neg hne] at h
        exact absurd rfl h
  | popCopy dst =>
      simp only [State.call, State.popCopy] at h ⊢
      split
      · rfl
      · split
        · rfl
        · rename_i h₁ h₂
          rw [if_neg h₁, if_neg h₂, FixedRing.pop, if_neg h₂] at h
          exact absurd rfl h
  | clear => exact absurd rfl h
  | fill index value =>
      simp only [State.call] at h ⊢
      split
      · rfl
      · rename_i hne
        rw [if_neg hne] at h
        exact absurd rfl h

end Arnm.Ring
