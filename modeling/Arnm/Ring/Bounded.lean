import Arnm.Lib.Queue
import Arnm.Ring.FixedRing

set_option autoImplicit false

/-! # The ring is a bounded queue

`Serves` is what a bounded queue answers to the calls of a ring. The ring answers the same as long
as it claims no slot whose index lies `2 ^ 32` or more behind slot 0: there `head + index` wraps
past the number type before it is brought back, and the slot handed out is another element's. A
ring of at most `2 ^ 31` slots never gets there. -/

namespace Arnm.Ring

open Memory Circle

/-! ## What a queue answers -/

/-- The element behind a pointer. -/
def bytesBehind (value : Nat → UInt8) (elementSize : Nat) : List UInt8 :=
  (List.range elementSize).map value

/-- A bounded queue of elements of `elementSize` bytes answers a call. What a claimed slot holds
before the client writes it is not said. -/
inductive Serves {limit : Nat} (elementSize : Nat) (q : Fifo (List UInt8) limit) :
    Call → Reply → Fifo (List UInt8) limit → Prop where
  | emplace (room : q.items.length < limit) (left : List UInt8) (slot : Nat) :
      Serves elementSize q (.emplace true) ⟨.success, slot, []⟩ (q.enter room left)
  | emplaceFull (full : q.items.length = limit) :
      Serves elementSize q (.emplace true) ⟨.errorResourceExhausted, 0, []⟩ q
  | emplaceNull : Serves elementSize q (.emplace false) ⟨.errorNullPointer, 0, []⟩ q
  | push (room : q.items.length < limit) (value : Nat → UInt8) :
      Serves elementSize q (.pushPtr (some value)) ⟨.success, 0, []⟩
        (q.enter room (bytesBehind value elementSize))
  | pushFull (full : q.items.length = limit) (value : Nat → UInt8) :
      Serves elementSize q (.pushPtr (some value)) ⟨.errorResourceExhausted, 0, []⟩ q
  | pushNull : Serves elementSize q (.pushPtr none) ⟨.errorNullPointer, 0, []⟩ q
  | pop (some : q.items ≠ []) : Serves elementSize q .pop ⟨.success, 0, []⟩ (q.leave some)
  | popEmpty (none : q.items = []) :
      Serves elementSize q .pop ⟨.errorArrayIndexOutOfBounds, 0, []⟩ q
  | popCopy (some : q.items ≠ []) :
      Serves elementSize q (.popCopy true) ⟨.success, 0, q.items.head some⟩ (q.leave some)
  | popCopyEmpty (none : q.items = []) :
      Serves elementSize q (.popCopy true) ⟨.errorArrayIndexOutOfBounds, 0, []⟩ q
  | popCopyNull : Serves elementSize q (.popCopy false) ⟨.errorNullPointer, 0, []⟩ q
  | clear : Serves elementSize q .clear ⟨.success, 0, []⟩ q.clear
  | fill (index : Nat) (value : Nat → UInt8) :
      Serves elementSize q (.fill index value) ⟨.success, 0, []⟩
        (q.rewrite index (bytesBehind value elementSize))

/-- A bounded queue answers the calls of a run. -/
inductive ServesRun {limit : Nat} (elementSize : Nat) :
    Fifo (List UInt8) limit → List Call → List Reply → Fifo (List UInt8) limit → Prop where
  | nil (q : Fifo (List UInt8) limit) : ServesRun elementSize q [] [] q
  | cons {q q' q'' : Fifo (List UInt8) limit} {c : Call} {reply : Reply} {calls : List Call}
      {replies : List Reply} (one : Serves elementSize q c reply q')
      (rest : ServesRun elementSize q' calls replies q'') :
      ServesRun elementSize q (c :: calls) (reply :: replies) q''

/-- The element behind an address, none behind `NULL`. -/
def State.elementAt (st : State) (addr : Nat) : Option (List UInt8) :=
  if addr = 0 then none else some (st.bytes.read addr st.ring.elementSize)

/-- What the ring shows are the items of the queue, each in a slot of its own. -/
structure IsQueue (st : State) {limit : Nat} (q : Fifo (List UInt8) limit) : Prop where
  size : st.ring.size = q.items.length
  get : ∀ i (h : i < q.items.length),
    st.bytes.read (st.ring.get i) st.ring.elementSize = q.items[i]
  getAt : ∀ i, st.elementAt (st.ring.getAt i) = q.items[i]?
  front : st.elementAt st.ring.front = q.items.head?
  back : st.elementAt st.ring.back = q.items.getLast?
  copyTo : ∀ dstCapacity, st.copyTo true dstCapacity =
    if dstCapacity < q.items.length then (.errorDestinationBufferToSmall, [])
    else (.success, q.items.flatten)
  slot_lt : ∀ i < q.items.length, st.ring.slotOf i < st.ring.capacity
  slot_inj : ∀ i < q.items.length, ∀ j < q.items.length,
    st.ring.slotOf i = st.ring.slotOf j → i = j

/-! ## The condition -/

/-- Where the call claims a slot, the slot's index does not run past 32 bits. -/
def Fits (st : State) : Call → Prop
  | .emplace true => st.ring.size < st.ring.capacity → st.ring.head + st.ring.size < 2 ^ 32
  | .pushPtr (some _) => st.ring.size < st.ring.capacity → st.ring.head + st.ring.size < 2 ^ 32
  | _ => True

/-- Every call of the run is made in a state it fits. -/
def FitsRun : State → List Call → Prop
  | _, [] => True
  | st, c :: calls => Fits st c ∧ FitsRun (st.call c).2 calls

instance (st : State) : (c : Call) → Decidable (Fits st c)
  | .emplace true => inferInstanceAs (Decidable (_ → _))
  | .pushPtr (some _) => inferInstanceAs (Decidable (_ → _))
  | .emplace false => isTrue trivial
  | .pushPtr none => isTrue trivial
  | .pop => isTrue trivial
  | .popCopy _ => isTrue trivial
  | .clear => isTrue trivial
  | .fill _ _ => isTrue trivial

instance : (st : State) → (calls : List Call) → Decidable (FitsRun st calls)
  | _, [] => isTrue trivial
  | st, c :: calls =>
    have : Decidable (FitsRun (st.call c).2 calls) := instDecidableFitsRun (st.call c).2 calls
    inferInstanceAs (Decidable (_ ∧ _))

/-! ## The invariant -/

/-- The ring has claimed the slots of the queue's items, none of them past 32 bits, and they hold
these items. -/
structure Sound {limit : Nat} (elementSize : Nat) (st : State) (q : Fifo (List UInt8) limit) :
    Prop where
  slots_ne : st.ring.slots ≠ 0
  capacity : st.ring.capacity = limit
  element : st.ring.elementSize = elementSize
  limit_lt : limit < 2 ^ 32
  head_lt : st.ring.head < limit
  reach : st.ring.head + st.ring.size ≤ 2 ^ 32
  size : st.ring.size = q.items.length
  value : ∀ i (h : i < q.items.length), st.bytes.read
    (st.ring.slots + place limit st.ring.head i * elementSize) elementSize = q.items[i]

variable {limit elementSize : Nat} {st : State} {q : Fifo (List UInt8) limit}

/-- An index that does not run past 32 bits is brought back to its place. -/
theorem slotOf_eq_place {ring : FixedRing} {i : Nat} (h : ring.head + i < 2 ^ 32) :
    ring.slotOf i = place ring.capacity ring.head i := by
  simp only [FixedRing.slotOf, place, Nat.mod_eq_of_lt h]
  split <;> split <;> omega

namespace Sound

theorem size_le (h : Sound elementSize st q) : st.ring.size ≤ limit :=
  h.size ▸ q.length_items_le

/-- The slot of every element, and of the next one if there is room for it. -/
theorem slotOf (h : Sound elementSize st q) {i : Nat} (hi : st.ring.head + i < 2 ^ 32) :
    st.ring.slotOf i = place limit st.ring.head i := by
  rw [slotOf_eq_place hi, h.capacity]

theorem get (h : Sound elementSize st q) {i : Nat} (hi : st.ring.head + i < 2 ^ 32) :
    st.ring.get i = st.ring.slots + place limit st.ring.head i * elementSize := by
  rw [FixedRing.get, h.slotOf hi, h.element]

theorem reach_of_lt (h : Sound elementSize st q) {i : Nat} (hi : i < q.items.length) :
    st.ring.head + i < 2 ^ 32 := by
  have := h.reach
  have := h.size
  omega

theorem get_ne (h : Sound elementSize st q) (i : Nat) : st.ring.get i ≠ 0 := by
  have := h.slots_ne
  unfold FixedRing.get
  omega

theorem elementAt_get (h : Sound elementSize st q) {i : Nat} (hi : i < q.items.length) :
    st.elementAt (st.ring.get i) = some q.items[i] := by
  rw [State.elementAt, if_neg (h.get_ne i), h.get (h.reach_of_lt hi), h.element, h.value i hi]

/-- The items in the order of their places. -/
theorem items_eq (h : Sound elementSize st q) : q.items = (List.range q.items.length).map fun i =>
    st.bytes.read (st.ring.slots + place limit st.ring.head i * elementSize) elementSize := by
  refine List.ext_getElem (by simp) fun i hi hi' => ?_
  rw [List.getElem_map, List.getElem_range, h.value i hi]

/-- The elements up to the end of the block and those from its start are all, in order. -/
theorem flatten_items (h : Sound elementSize st q) {first : Nat} (hle : first ≤ st.ring.size)
    (hend : st.ring.head + first ≤ limit)
    (hrest : first < st.ring.size → st.ring.head + first = limit) :
    q.items.flatten =
      st.bytes.read (st.ring.slots + st.ring.head * elementSize) (first * elementSize) ++
        st.bytes.read st.ring.slots ((st.ring.size - first) * elementSize) := by
  have hlen : q.items.length = first + (st.ring.size - first) := by
    rw [← h.size]
    omega
  rw [Bytes.read_slots, Bytes.read_slots]
  rw [h.items_eq, ← List.flatMap_def, hlen, List.range_add, List.flatMap_append, List.flatMap_map]
  congr 1
  · refine List.flatMap_congr fun i hi => ?_
    have hlt := List.mem_range.mp hi
    rw [place, if_pos (by omega), Nat.add_mul, Nat.add_assoc]
  · refine List.flatMap_congr fun i hi => ?_
    have hlt := List.mem_range.mp hi
    have hstart := hrest (by omega)
    have hplace : place limit st.ring.head (first + i) = i := by
      rw [place, if_neg (by omega)]
      omega
    rw [hplace]

theorem copyTo (h : Sound elementSize st q) (dstCapacity : Nat) :
    st.copyTo true dstCapacity =
      if dstCapacity < q.items.length then (.errorDestinationBufferToSmall, [])
      else (.success, q.items.flatten) := by
  unfold State.copyTo
  rw [if_neg (by decide), ← h.size]
  split
  · rfl
  · split
    · rename_i hz
      have hnil : q.items = [] := List.length_eq_zero_iff.mp (h.size ▸ hz)
      rw [hnil]
      rfl
    · have hlt := h.head_lt
      rw [h.capacity, h.element]
      simp only
      by_cases hend : st.ring.size < limit - st.ring.head
      · rw [if_pos hend, if_neg (Nat.lt_irrefl _),
          h.flatten_items (Nat.le_refl _) (by omega) fun hc => absurd hc (Nat.lt_irrefl _)]
        simp
      · rw [if_neg hend]
        rw [h.flatten_items (show limit - st.ring.head ≤ st.ring.size by omega)
          (by omega) (by omega)]
        split
        · rfl
        · rename_i hall
          have hzero : st.ring.size - (limit - st.ring.head) = 0 := by omega
          rw [hzero]
          simp

theorem isQueue (h : Sound elementSize st q) : IsQueue st q where
  size := h.size
  get i hi := by rw [h.get (h.reach_of_lt hi), h.element, h.value i hi]
  getAt i := by
    unfold FixedRing.getAt
    split
    · rename_i hle
      rw [List.getElem?_eq_none (h.size ▸ hle)]
      rfl
    · rename_i hlt
      have hi : i < q.items.length := by rw [← h.size]; omega
      rw [h.elementAt_get hi, List.getElem?_eq_getElem hi]
  front := by
    unfold FixedRing.front
    split
    · rename_i hne
      have hi : 0 < q.items.length := by rw [← h.size]; omega
      rw [h.elementAt_get hi, List.head?_eq_getElem?, List.getElem?_eq_getElem hi]
    · rename_i hz
      have hnil : q.items = [] := List.length_eq_zero_iff.mp (by rw [← h.size]; omega)
      rw [hnil]
      rfl
  back := by
    unfold FixedRing.back
    split
    · rename_i hne
      have hi : st.ring.size - 1 < q.items.length := by rw [← h.size]; omega
      rw [h.elementAt_get hi, List.getLast?_eq_getElem?, ← h.size, List.getElem?_eq_getElem hi]
    · rename_i hz
      have hnil : q.items = [] := List.length_eq_zero_iff.mp (by rw [← h.size]; omega)
      rw [hnil]
      rfl
  copyTo := h.copyTo
  slot_lt i hi := by
    rw [h.slotOf (h.reach_of_lt hi), h.capacity]
    exact place_lt h.head_lt (Nat.lt_of_lt_of_le hi q.length_items_le)
  slot_inj i hi j hj heq := by
    -- two entries within one turn of the ring have two slots
    rw [h.slotOf (h.reach_of_lt hi), h.slotOf (h.reach_of_lt hj)] at heq
    exact place_inj (Nat.lt_of_lt_of_le hi q.length_items_le)
      (Nat.lt_of_lt_of_le hj q.length_items_le) heq

/-! ## One call -/

/-- A slot is claimed at the back, the other elements kept. -/
theorem enter (h : Sound elementSize st q) (room : q.items.length < limit)
    (hfit : st.ring.head + st.ring.size < 2 ^ 32) {bytes : Bytes} {x : List UInt8}
    (hnew : bytes.read (st.ring.get st.ring.size) elementSize = x)
    (hold : ∀ i < st.ring.size, bytes.read (st.ring.get i) elementSize =
      st.bytes.read (st.ring.get i) elementSize) :
    Sound elementSize ⟨{ st.ring with size := (st.ring.size + 1) % 2 ^ 32 }, bytes⟩
      (q.enter room x) := by
  have hroom : st.ring.size < limit := h.size ▸ room
  have hlimit := h.limit_lt
  have hsize : (st.ring.size + 1) % 2 ^ 32 = st.ring.size + 1 := Nat.mod_eq_of_lt (by omega)
  refine ⟨h.slots_ne, h.capacity, h.element, h.limit_lt, h.head_lt, ?_, ?_, fun i hi => ?_⟩
  · show st.ring.head + (st.ring.size + 1) % 2 ^ 32 ≤ 2 ^ 32
    omega
  · show (st.ring.size + 1) % 2 ^ 32 = _
    rw [hsize, q.items_enter room x, List.length_append, List.length_singleton, h.size]
  · simp only [q.items_enter room x]
    rw [q.items_enter room x, List.length_append, List.length_singleton] at hi
    rw [← h.get (show st.ring.head + i < 2 ^ 32 by have := h.size; omega)]
    by_cases hlt : i < q.items.length
    · rw [hold i (h.size ▸ hlt), List.getElem_append_left hlt, h.get (h.reach_of_lt hlt),
        h.value i hlt]
    · have hlast : i = q.items.length := by omega
      subst hlast
      rw [List.getElem_concat_length rfl, ← h.size, hnew]

/-- The element at the front goes. -/
theorem leave (h : Sound elementSize st q) (some : q.items ≠ []) :
    Sound elementSize { st with ring := st.ring.pop.2 } (q.leave some) := by
  have hpos : 0 < st.ring.size := h.size ▸ List.length_pos_iff.mpr some
  have hne : ¬ st.ring.size = 0 := by omega
  have hlimit := h.limit_lt
  have hlt := h.head_lt
  have hmod : (st.ring.head + 1) % 2 ^ 32 = st.ring.head + 1 := Nat.mod_eq_of_lt (by omega)
  have hpop : st.ring.pop.2 =
      { st.ring with head := next limit st.ring.head, size := st.ring.size - 1 } := by
    rw [FixedRing.pop, if_neg hne]
    simp only [hmod, h.capacity, next]
  rw [hpop]
  refine ⟨h.slots_ne, h.capacity, h.element, h.limit_lt, next_lt hlt, ?_, ?_, fun i hi => ?_⟩
  · have := h.reach
    show next limit st.ring.head + (st.ring.size - 1) ≤ 2 ^ 32
    unfold next
    split <;> omega
  · rw [q.items_leave some, List.length_tail, ← h.size]
  · simp only [q.items_leave some]
    rw [q.items_leave some, List.length_tail] at hi
    have hle := q.length_items_le
    rw [place_next (by omega), h.value (i + 1) (by omega), List.getElem_tail]

theorem clear (h : Sound elementSize st q) :
    Sound elementSize { st with ring := st.ring.clear } q.clear where
  slots_ne := h.slots_ne
  capacity := h.capacity
  element := h.element
  limit_lt := h.limit_lt
  head_lt := Nat.zero_lt_of_lt h.head_lt
  reach := Nat.zero_le _
  size := by rw [q.items_clear]; rfl
  value i hi := by
    rw [q.items_clear] at hi
    exact absurd hi (Nat.not_lt_zero i)

/-- A write into one slot leaves the elements in the others. -/
theorem put_keeps (h : Sound elementSize st q) {i j : Nat} (value : Nat → UInt8)
    (hi : st.ring.head + i < 2 ^ 32) (hj : st.ring.head + j < 2 ^ 32) (hil : i < limit)
    (hjl : j < limit) (hne : i ≠ j) :
    (st.bytes.put (st.ring.get j) (bytesBehind value elementSize)).read
      (st.ring.get i) elementSize =
      st.bytes.read (st.ring.get i) elementSize := by
  refine Bytes.read_congr (Bytes.put_agreeOn ?_)
  rw [h.get hi, h.get hj, bytesBehind, List.length_map, List.length_range]
  exact Region.apart_slots _ _ fun hplace => hne (place_inj hjl hil hplace).symm

theorem read_put_bytesBehind (m : Bytes) (addr : Nat) (value : Nat → UInt8) :
    (m.put addr (bytesBehind value elementSize)).read addr elementSize =
      bytesBehind value elementSize := by
  have hread := m.read_put addr (bytesBehind value elementSize)
  rwa [bytesBehind, List.length_map, List.length_range, ← bytesBehind] at hread

/-- The client writes an element where it waits. -/
theorem fill (h : Sound elementSize st q) (index : Nat) (value : Nat → UInt8)
    (hne : st.ring.getAt index ≠ 0) :
    Sound elementSize
      { st with bytes := st.bytes.put (st.ring.getAt index) (st.ring.element value) }
      (q.rewrite index (bytesBehind value elementSize)) := by
  have hlt : index < q.items.length := by
    unfold FixedRing.getAt at hne
    rw [← h.size]
    split at hne
    · exact absurd rfl hne
    · omega
  have hgetAt : st.ring.getAt index = st.ring.get index := if_neg (by rw [h.size]; omega)
  have hle := q.length_items_le
  rw [hgetAt, show st.ring.element value = bytesBehind value elementSize by
    rw [FixedRing.element, h.element, bytesBehind]]
  refine ⟨h.slots_ne, h.capacity, h.element, h.limit_lt, h.head_lt, h.reach, ?_, fun i hi => ?_⟩
  · rw [q.items_rewrite, List.length_set, ← h.size]
  · simp only [q.items_rewrite]
    rw [q.items_rewrite, List.length_set] at hi
    rw [List.getElem_set, ← h.get (h.reach_of_lt hi)]
    split
    · rename_i heq
      subst heq
      exact read_put_bytesBehind _ _ value
    · rename_i hother
      rw [h.put_keeps value (h.reach_of_lt hi) (h.reach_of_lt hlt) (by omega) (by omega)
        fun heq => hother heq.symm, h.get (h.reach_of_lt hi), h.value i hi]

theorem congr {q' : Fifo (List UInt8) limit} (h : Sound elementSize st q)
    (hitems : q'.items = q.items) : Sound elementSize st q' where
  slots_ne := h.slots_ne
  capacity := h.capacity
  element := h.element
  limit_lt := h.limit_lt
  head_lt := h.head_lt
  reach := h.reach
  size := by rw [hitems, h.size]
  value i hi := by
    simp only [hitems]
    exact h.value i (hitems ▸ hi)

/-- Where there is room, `arnm_fixed_ring_emplace` hands out the slot behind the last element. -/
theorem emplace_of_room (h : Sound elementSize st q) (room : st.ring.size < st.ring.capacity) :
    st.ring.emplace true = (.success, st.ring.get st.ring.size,
      { st.ring with size := (st.ring.size + 1) % 2 ^ 32 }) := by
  rw [FixedRing.emplace, if_neg (by decide), if_neg h.slots_ne, if_neg (Nat.ne_of_lt room)]

theorem emplace_of_full (h : Sound elementSize st q) (full : ¬ st.ring.size < st.ring.capacity) :
    st.ring.emplace true = (.errorResourceExhausted, 0, st.ring) ∧ q.items.length = limit := by
  have hle := h.size_le
  have heq : st.ring.size = st.ring.capacity := by
    rw [h.capacity] at full ⊢
    omega
  rw [FixedRing.emplace, if_neg (by decide), if_neg h.slots_ne, if_pos heq]
  exact ⟨rfl, by rw [← h.size, heq, h.capacity]⟩

theorem length_lt (h : Sound elementSize st q) (hlt : st.ring.size < st.ring.capacity) :
    q.items.length < limit := by
  rw [h.capacity] at hlt
  exact h.size ▸ hlt

theorem items_eq_nil_iff (h : Sound elementSize st q) : q.items = [] ↔ st.ring.size = 0 := by
  rw [h.size, List.length_eq_zero_iff]

/-- A value pushed is the newest element, and the others are as they were. -/
theorem pushPtr (h : Sound elementSize st q) (value : Nat → UInt8)
    (hfit : Fits st (.pushPtr (some value))) :
    ∃ q', Serves elementSize q (.pushPtr (some value)) (st.call (.pushPtr (some value))).1 q' ∧
      Sound elementSize (st.call (.pushPtr (some value))).2 q' := by
  simp only [State.call, State.pushPtr]
  by_cases hlt : st.ring.size < st.ring.capacity
  · rw [h.emplace_of_room hlt]
    have hlimit : st.ring.size < limit := h.capacity ▸ hlt
    have hvalue : ∀ ring : FixedRing, ring.elementSize = st.ring.elementSize →
        ring.element value = bytesBehind value elementSize := by
      intro ring hsame
      rw [FixedRing.element, hsame, h.element, bytesBehind]
    have hroom := h.length_lt hlt
    refine ⟨_, .push hroom value, h.enter hroom (hfit hlt) ?_ fun i hi => ?_⟩
    · rw [hvalue _ rfl]
      exact read_put_bytesBehind _ _ value
    · rw [hvalue _ rfl]
      have hfit := hfit hlt
      exact h.put_keeps value (by omega) hfit (by omega) hlimit (Nat.ne_of_lt hi)
  · obtain ⟨hfull, hlen⟩ := h.emplace_of_full hlt
    rw [hfull]
    exact ⟨q, .pushFull hlen value, h⟩

/-- The oldest element is copied out and leaves. -/
theorem popCopy (h : Sound elementSize st q) :
    ∃ q', Serves elementSize q (.popCopy true) (st.call (.popCopy true)).1 q' ∧
      Sound elementSize (st.call (.popCopy true)).2 q' := by
  simp only [State.call, State.popCopy, if_neg (show ¬ true = false by decide)]
  by_cases hz : st.ring.size = 0
  · rw [if_pos hz]
    exact ⟨q, .popCopyEmpty (h.items_eq_nil_iff.mpr hz), h⟩
  · rw [if_neg hz]
    have hne := h.items_eq_nil_iff.not.mpr hz
    have hleave := h.leave hne
    have hok : st.ring.pop.1 = .success := by rw [FixedRing.pop, if_neg hz]
    have hfront : st.bytes.read (st.ring.get 0) st.ring.elementSize = q.items.head hne := by
      rw [List.head_eq_getElem]
      exact h.isQueue.get 0 (List.length_pos_iff.mpr hne)
    rw [hok, hfront]
    exact ⟨_, .popCopy hne, hleave⟩

/-- A call the ring is fit for is answered as the queue answers it. -/
theorem call (h : Sound elementSize st q) {c : Call} (hfit : Fits st c) :
    ∃ q', Serves elementSize q c (st.call c).1 q' ∧ Sound elementSize (st.call c).2 q' := by
  cases c with
  | emplace outSlot =>
      cases outSlot with
      | false => exact ⟨q, .emplaceNull, h⟩
      | true =>
          simp only [State.call]
          by_cases hlt : st.ring.size < st.ring.capacity
          · have hroom := h.length_lt hlt
            rw [h.emplace_of_room hlt]
            exact ⟨_, .emplace hroom (st.bytes.read (st.ring.get st.ring.size) elementSize) _,
              h.enter hroom (hfit hlt) rfl fun _ _ => rfl⟩
          · obtain ⟨hfull, hlen⟩ := h.emplace_of_full hlt
            rw [hfull]
            exact ⟨q, .emplaceFull hlen, h⟩
  | pushPtr value =>
      cases value with
      | none => exact ⟨q, .pushNull, h⟩
      | some value => exact h.pushPtr value hfit
  | pop =>
      simp only [State.call]
      by_cases hz : st.ring.size = 0
      · rw [FixedRing.pop, if_pos hz]
        exact ⟨q, .popEmpty (h.items_eq_nil_iff.mpr hz), h⟩
      · have hne := h.items_eq_nil_iff.not.mpr hz
        have hleave := h.leave hne
        have hok : st.ring.pop.1 = .success := by rw [FixedRing.pop, if_neg hz]
        rw [hok]
        exact ⟨_, .pop hne, hleave⟩
  | popCopy dst =>
      cases dst with
      | false => exact ⟨q, .popCopyNull, h⟩
      | true => exact h.popCopy
  | clear => exact ⟨q.clear, .clear, h.clear⟩
  | fill index value =>
      refine ⟨q.rewrite index (bytesBehind value elementSize), ?_, ?_⟩
      · simp only [State.call]
        split <;> exact .fill index value
      · simp only [State.call]
        split
        · rename_i hnull
          -- no element has this index
          have hge : q.items.length ≤ index := by
            by_contra hlt
            have hget : st.ring.getAt index = st.ring.get index := if_neg (by rw [h.size]; omega)
            exact h.get_ne index (hget ▸ hnull)
          exact h.congr (by rw [q.items_rewrite, List.set_eq_of_length_le hge])
        · rename_i hne
          exact h.fill index value hne

/-- So is every call of a run the ring is fit for. -/
theorem run {calls : List Call} (h : Sound elementSize st q) (hfit : FitsRun st calls) :
    ∃ q', ServesRun elementSize q calls (st.run calls).1 q' ∧
      Sound elementSize (st.run calls).2 q' := by
  induction calls generalizing st q with
  | nil => exact ⟨q, .nil q, h⟩
  | cons c calls ih =>
      obtain ⟨q₁, hone, h₁⟩ := h.call hfit.1
      obtain ⟨q₂, hrest, h₂⟩ := ih h₁ hfit.2
      exact ⟨q₂, .cons hone hrest, h₂⟩

/-- A slot claimed past 32 bits is one that an element has. -/
theorem slot_taken (h : Sound elementSize st q) (room : st.ring.size < st.ring.capacity)
    (hpast : ¬ st.ring.head + st.ring.size < 2 ^ 32) :
    ∃ i < st.ring.size, st.ring.slotOf i = st.ring.slotOf st.ring.size := by
  have hreach := h.reach
  have hlt := h.head_lt
  have hlimit := h.limit_lt
  rw [h.capacity] at room
  -- the sum is 2 ^ 32: the claimed slot is slot 0, which the wrapped part of the queue starts with
  refine ⟨limit - st.ring.head, by omega, ?_⟩
  rw [h.slotOf (by omega), place, if_neg (by omega), FixedRing.slotOf, h.capacity]
  have hzero : (st.ring.head + st.ring.size) % 2 ^ 32 = 0 := by
    have hsum : st.ring.head + st.ring.size = 2 ^ 32 := by omega
    rw [hsum, Nat.mod_self]
  rw [hzero, if_neg (by omega)]
  omega

end Sound

/-! ## Runs from init -/

/-- Every answer of the run, and the state it ends in, are those of a bounded queue; what fails
there changes nothing. -/
def BehavesAsQueue (st : State) (capacity elementSize : Nat) (calls : List Call) : Prop :=
  ∃ q : Fifo (List UInt8) capacity, ServesRun elementSize .empty calls (st.run calls).1 q ∧
    IsQueue (st.run calls).2 q ∧
    ∀ c, ((st.run calls).2.call c).1.result ≠ .success →
      ((st.run calls).2.call c).2 = (st.run calls).2

/-- The ring and the memory that init leaves. -/
def started {σ : Type} (p : Provider σ) (ring : FixedRing) (capacity elementSize : Nat) (s : σ) :
    State :=
  let made := init p.toCalls ring capacity elementSize s
  ⟨made.2.1, p.bytes made.2.2⟩

theorem started_sound {σ : Type} {p : Provider σ} (ring : FixedRing) {capacity elementSize : Nat}
    {s : σ} {others : List Block} (hheld : p.holds s others)
    (hok : (init p.toCalls ring capacity elementSize s).1 = .success) :
    Sound elementSize (started p ring capacity elementSize s)
      (.empty : Fifo (List UInt8) capacity) := by
  unfold started
  unfold init at hok ⊢
  split at hok
  · cases hok
  · rename_i hparam
    rw [if_neg hparam]
    push Not at hparam
    obtain ⟨hcap, helem, -⟩ := hparam
    split at hok
    · cases hok
    · rename_i hover
      rw [if_neg hover]
      have hlimit : capacity < 2 ^ 32 := by
        calc capacity ≤ maxAllocSize / elementSize := Nat.le_of_not_lt hover
          _ ≤ maxAllocSize := Nat.div_le_self _ _
          _ < 2 ^ 32 := by decide
      rcases p.lawful.alloc 0 (capacity * elementSize % 2 ^ 32) hheld with ⟨herr, -⟩ |
        ⟨hgot, hst, -⟩
      · simp only at hok
        rw [if_neg fun hgot => by rw [hgot] at herr; cases herr] at hok
        have hgot : (p.alloc 0 (capacity * elementSize % 2 ^ 32) s).result = .success := hok
        rw [hgot] at herr
        cases herr
      · simp only [if_pos hgot]
        exact ⟨(p.lawful.room hst _ List.mem_cons_self).1, rfl, rfl, hlimit,
          Nat.pos_of_ne_zero hcap,
          Nat.zero_le _, rfl, fun i hi => absurd hi (Nat.not_lt_zero i)⟩

theorem State.run_append (st : State) (calls calls' : List Call) :
    st.run (calls ++ calls') =
      ((st.run calls).1 ++ ((st.run calls).2.run calls').1, ((st.run calls).2.run calls').2) := by
  induction calls generalizing st with
  | nil => rfl
  | cons c calls ih =>
      simp only [List.cons_append, State.run]
      rw [ih]

theorem fitsRun_append {st : State} {calls calls' : List Call} :
    FitsRun st (calls ++ calls') ↔ FitsRun st calls ∧ FitsRun (st.run calls).2 calls' := by
  induction calls generalizing st with
  | nil => simp [FitsRun, State.run]
  | cons c calls ih =>
      simp only [List.cons_append, FitsRun, State.run, ih, and_assoc]

/-- A call that does not fit leaves two elements in one slot. -/
theorem Sound.not_isQueue {c : Call} (h : Sound elementSize st q) (hunfit : ¬ Fits st c)
    {q' : Fifo (List UInt8) limit} : ¬ IsQueue (st.call c).2 q' := by
  have hclaims : st.ring.size < st.ring.capacity ∧ ¬ st.ring.head + st.ring.size < 2 ^ 32 ∧
      (st.call c).2.ring = { st.ring with size := (st.ring.size + 1) % 2 ^ 32 } := by
    unfold Fits at hunfit
    split at hunfit
    · simp only [Classical.not_imp] at hunfit
      refine ⟨hunfit.1, hunfit.2, ?_⟩
      simp only [State.call, h.emplace_of_room hunfit.1]
    · simp only [Classical.not_imp] at hunfit
      refine ⟨hunfit.1, hunfit.2, ?_⟩
      simp only [State.call, State.pushPtr, h.emplace_of_room hunfit.1]
    · exact absurd trivial hunfit
  obtain ⟨hroom, hpast, hring⟩ := hclaims
  obtain ⟨i, hi, hsame⟩ := h.slot_taken hroom hpast
  intro hq
  have hlimit := h.limit_lt
  rw [h.capacity] at hroom
  have hsize := hq.size
  rw [hring] at hsize
  simp only [Nat.mod_eq_of_lt (show st.ring.size + 1 < 2 ^ 32 by omega)] at hsize
  have heq := hq.slot_inj i (by omega) st.ring.size (by omega)
  rw [hring] at heq
  exact absurd (heq hsame) (Nat.ne_of_lt hi)

/-- From a ring that init accepted, a run and every part of it a run starts with behave as those
of a bounded queue exactly when no call of the run claims a slot past 32 bits. -/
theorem ring_is_queue {σ : Type} (p : Provider σ) (ring : FixedRing) (capacity elementSize : Nat)
    {s : σ} {others : List Block} (hheld : p.holds s others)
    (hok : (init p.toCalls ring capacity elementSize s).1 = .success) (calls : List Call) :
    (∀ begun, begun <+: calls →
      BehavesAsQueue (started p ring capacity elementSize s) capacity elementSize begun) ↔
    FitsRun (started p ring capacity elementSize s) calls := by
  have hsound := started_sound ring hheld hok
  constructor
  · induction calls using List.reverseRecOn with
    | nil => exact fun _ => trivial
    | append_singleton calls c ih =>
        intro hall
        have hfits := ih fun begun hpre => hall begun (hpre.trans (List.prefix_append _ _))
        refine fitsRun_append.mpr ⟨hfits, ?_, trivial⟩
        by_contra hunfit
        obtain ⟨q, -, hq⟩ := hsound.run hfits
        obtain ⟨q', -, hqueue, -⟩ := hall _ (List.prefix_refl _)
        rw [State.run_append] at hqueue
        exact hq.not_isQueue hunfit hqueue
  · rintro hfits begun ⟨rest, rfl⟩
    obtain ⟨q, hserves, hq⟩ := hsound.run (fitsRun_append.mp hfits).1
    exact ⟨q, hserves, hq.isQueue, fun c hne => State.call_failed hne⟩

/-- Pushes and pops around the end of a small ring. -/
def sampleCalls : List Call :=
  [.pushPtr (some fun _ => 1), .pushPtr (some fun _ => 2), .pop, .pushPtr (some fun _ => 3),
    .emplace true, .pushPtr (some fun _ => 4), .popCopy true]

/-- A ring of three slots that wraps, is refused a fourth element and shows its oldest. -/
theorem ring_is_queue_sample :
    ((started (Provider.ofArena noHost) FixedRing.forgetEverything 3 1 (lentArena 16, 0)).run
      sampleCalls).1.map Reply.result =
        [.success, .success, .success, .success, .success, .errorResourceExhausted, .success] ∧
    BehavesAsQueue (started (Provider.ofArena noHost) FixedRing.forgetEverything 3 1
      (lentArena 16, 0)) 3 1 sampleCalls :=
  ⟨by decide +kernel,
    (ring_is_queue (Provider.ofArena noHost) FixedRing.forgetEverything 3 1
      (lentArena_sound (by decide) (by decide) (by decide)) (by decide) sampleCalls).mpr
      (by decide +kernel) _ (List.prefix_refl _)⟩

/-- A ring of at most `2 ^ 31` slots behaves as a queue on every run. -/
theorem small_ring_is_queue {σ : Type} (p : Provider σ) (ring : FixedRing)
    (capacity elementSize : Nat) {s : σ} {others : List Block} (hheld : p.holds s others)
    (hok : (init p.toCalls ring capacity elementSize s).1 = .success) (hsmall : capacity ≤ 2 ^ 31)
    (calls : List Call) :
    BehavesAsQueue (started p ring capacity elementSize s) capacity elementSize calls := by
  have hfits : ∀ {st : State} {q : Fifo (List UInt8) capacity} (calls : List Call),
      Sound elementSize st q → FitsRun st calls := by
    intro st q calls
    induction calls generalizing st q with
    | nil => exact fun _ => trivial
    | cons c calls ih =>
        intro h
        have hfit : Fits st c := by
          have hlt := h.head_lt
          have hle := h.size_le
          unfold Fits
          split
          · omega
          · omega
          · exact trivial
        obtain ⟨q', -, h'⟩ := h.call hfit
        exact ⟨hfit, ih h'⟩
  have hsound := started_sound ring hheld hok
  obtain ⟨q, hserves, hq⟩ := hsound.run (hfits calls hsound)
  exact ⟨q, hserves, hq.isQueue, fun c hne => State.call_failed hne⟩

/-! ## A ring that is no queue -/

/-- A value pushed and popped again, `n` times. -/
def cycles (n : Nat) : List Call :=
  (List.replicate n [Call.pushPtr (some fun _ => 0), .pop]).flatten

/-- `n` values pushed. -/
def pushes (n : Nat) : List Call := List.replicate n (Call.pushPtr (some fun _ => 0))

theorem call_pushPtr_ring (value : Nat → UInt8) (hslots : st.ring.slots ≠ 0)
    (hroom : st.ring.size < st.ring.capacity) (hcap : st.ring.capacity < 2 ^ 32) :
    (st.call (.pushPtr (some value))).2.ring = { st.ring with size := st.ring.size + 1 } := by
  have hmod : (st.ring.size + 1) % 2 ^ 32 = st.ring.size + 1 := Nat.mod_eq_of_lt (by omega)
  simp only [State.call, State.pushPtr, FixedRing.emplace, if_neg (show ¬ true = false by decide),
    if_neg hslots, if_neg (Nat.ne_of_lt hroom), hmod]

theorem run_pushes_ring (n : Nat) (hslots : st.ring.slots ≠ 0)
    (hroom : st.ring.size + n ≤ st.ring.capacity) (hcap : st.ring.capacity < 2 ^ 32) :
    (st.run (pushes n)).2.ring = { st.ring with size := st.ring.size + n } := by
  unfold pushes
  induction n generalizing st with
  | zero => rfl
  | succ n ih =>
      have hone := call_pushPtr_ring (fun _ => 0) hslots (by omega) hcap
      rw [List.replicate_succ, State.run, ih]
      · rw [hone]
        simp only [Nat.add_assoc, Nat.add_comm 1 n]
      · rw [hone]
        exact hslots
      · rw [hone]
        simp only
        omega
      · rw [hone]
        exact hcap

/-- The front of an empty ring moves on with every cycle. -/
theorem run_cycles_ring (n : Nat) (hslots : st.ring.slots ≠ 0) (hsize : st.ring.size = 0)
    (hroom : st.ring.head + n < st.ring.capacity) (hcap : st.ring.capacity < 2 ^ 32) :
    (st.run (cycles n)).2.ring = { st.ring with head := st.ring.head + n } := by
  unfold cycles
  induction n generalizing st with
  | zero => rfl
  | succ n ih =>
      have hone := call_pushPtr_ring (fun _ => 0) hslots (by omega) hcap
      have hpair : (st.run [.pushPtr (some fun _ => 0), .pop]).2.ring =
          { st.ring with head := st.ring.head + 1 } := by
        have hmod : (st.ring.head + 1) % 2 ^ 32 = st.ring.head + 1 := Nat.mod_eq_of_lt (by omega)
        simp only [State.run, State.call.eq_3, FixedRing.pop, hone]
        rw [if_neg (by omega), hmod, if_neg (by omega), hsize]
      rw [List.replicate_succ, List.flatten_cons, State.run_append, ih]
      · rw [hpair]
        simp only [Nat.add_assoc, Nat.add_comm 1 n]
      · rw [hpair]
        exact hslots
      · rw [hpair]
        exact hsize
      · rw [hpair]
        simp only
        omega
      · rw [hpair]
        exact hcap

/-- Once the front has moved `n` slots and `m` elements are in, two of them share a slot as soon as
two indices are brought to one. -/
theorem not_isQueue_of_slots {slots capacity n m i j : Nat}
    (hring : st.ring = ⟨slots, capacity, 0, 0, elementSize⟩) (hslots : slots ≠ 0)
    (hcap : capacity < 2 ^ 32) (hn : n < capacity) (hm : m ≤ capacity) (hi : i < m) (hj : j < m)
    (hij : i ≠ j) (hsame : FixedRing.slotOf ⟨slots, capacity, n, m, elementSize⟩ i =
      FixedRing.slotOf ⟨slots, capacity, n, m, elementSize⟩ j) :
    ¬ IsQueue (st.run (cycles n ++ pushes m)).2 q := by
  have hcycled : (st.run (cycles n)).2.ring = ⟨slots, capacity, n, 0, elementSize⟩ := by
    rw [run_cycles_ring n (hring ▸ hslots) (hring ▸ rfl) (by rw [hring]; simpa using hn)
      (hring ▸ hcap), hring]
    simp only [Nat.zero_add]
  have hpushed : ((st.run (cycles n)).2.run (pushes m)).2.ring =
      ⟨slots, capacity, n, m, elementSize⟩ := by
    rw [run_pushes_ring m (hcycled ▸ hslots) (by rw [hcycled]; simpa using hm) (hcycled ▸ hcap),
      hcycled]
    simp only [Nat.zero_add]
  rw [State.run_append]
  intro hq
  have hsize := hq.size
  have hinj := hq.slot_inj i
  simp only [hpushed] at hsize hinj
  rw [← hsize] at hinj
  exact hij (hinj hi j hj hsame)

/-- A ring of as many one-byte slots as init accepts: when its front has moved to slot `2 ^ 31`
and it takes `2 ^ 31 + 1` elements, the last is put where the one of index `2 ^ 31 - 8` waits. -/
theorem large_ring_is_no_queue :
    (init (callsOfArena noHost) FixedRing.forgetEverything maxAllocSize 1
      (lentArena maxAllocSize, 0)).1 = .success ∧
    ¬ BehavesAsQueue (started (Provider.ofArena noHost) FixedRing.forgetEverything maxAllocSize 1
        (lentArena maxAllocSize, 0)) maxAllocSize 1
      (cycles (2 ^ 31) ++ pushes (2 ^ 31 + 1)) := by
  have hstarted : (started (Provider.ofArena noHost) FixedRing.forgetEverything maxAllocSize 1
      (lentArena maxAllocSize, 0)).ring = ⟨8, maxAllocSize, 0, 0, 1⟩ := by decide
  have hslots : ∀ n : Nat, n = 2 ^ 31 →
      FixedRing.slotOf ⟨8, maxAllocSize, n, n + 1, 1⟩ (n - 8) =
        FixedRing.slotOf ⟨8, maxAllocSize, n, n + 1, 1⟩ n := by
    rintro n rfl
    decide
  have hmax : maxAllocSize = 2 ^ 32 - 8 := rfl
  refine ⟨by decide, fun ⟨q, _, hq, _⟩ => ?_⟩
  exact not_isQueue_of_slots hstarted (by decide) (by omega) (by omega) (by omega)
    (show 2 ^ 31 - 8 < 2 ^ 31 + 1 by omega) (show 2 ^ 31 < 2 ^ 31 + 1 by omega) (by omega)
    (hslots _ rfl) hq

end Arnm.Ring
