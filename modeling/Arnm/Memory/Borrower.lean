import Arnm.Memory.OneArena

set_option autoImplicit false

/-! # A single arena in other hands

Whoever has a single arena makes any calls on it, with any arguments. Short of a release the arena
stays one over its buffer (`Arena.Reused`), and no byte outside the buffer changes
(`Arena.Confined`). -/

namespace Arnm.Memory

variable {host : Host} {a b : Arena} {m m' : Bytes}

/-- An arena over the same buffer, used up to some place of it. -/
structure Arena.Reused (a b : Arena) : Prop where
  data : b.data = a.data
  capacity : b.capacity = a.capacity
  allocationType : b.allocationType = a.allocationType
  index_le : b.lastIndex ≤ b.capacity

/-- Bytes outside the arena's buffer are what they were. -/
def Arena.Confined (a : Arena) (m m' : Bytes) : Prop := ∀ x, ¬ a.region.Has x → m' x = m x

namespace Arena

theorem Confined.refl (a : Arena) (m : Bytes) : a.Confined m m := fun _ _ => rfl

/-- Regions apart from the buffer do not notice. -/
theorem Confined.agreeOn (h : a.Confined m m') {r : Region} (hr : a.region.Apart r) :
    Bytes.AgreeOn m m' r := fun x hx => h x fun hin => hr.not_has hin hx

/-- A copy to the tail of an arena with the room for it. -/
theorem confined_copy {src n : Nat} (hle : a.lastIndex ≤ a.capacity) (hn : n ≤ a.remainingBytes) :
    a.Confined m (m.copy a.tail src n) := by
  intro x hx
  unfold Bytes.copy
  refine if_neg fun hin => hx ⟨Nat.le_trans (Nat.le_add_right _ _) hin.1, ?_⟩
  have hstop := hin.2
  unfold tail at hstop
  unfold remainingBytes at hn
  show x < a.data + a.capacity
  omega

theorem Reused.moved {n : Nat} (hn : n ≤ a.capacity) : a.Reused { a with lastIndex := n } :=
  ⟨rfl, rfl, rfl, hn⟩

theorem Reused.recount (hle : a.lastIndex ≤ a.capacity) (total : Nat) :
    a.Reused (a.recount total) :=
  ⟨rfl, rfl, rfl, hle⟩

end Arena

/-- What a call leaves of a single arena: one over the same buffer, and the bytes around it. -/
def Allocator.Reuses (a : Arena) (m : Bytes) (h : Heap) : Prop :=
  ∃ b, h.memory = .arena b ∧ a.Reused b ∧ a.Confined m h.bytes

namespace Allocator.Reuses

theorem alloc (hle : a.lastIndex ≤ a.capacity) (host : Host) (buffer size : Nat) (m : Bytes) :
    Allocator.Reuses a m ⟨(Memory.alloc host buffer size (.arena a)).state, m⟩ := by
  rcases alloc_arena host buffer size a with ⟨-, total, hst⟩ | ⟨hroom, hok⟩
  · exact ⟨_, hst, .recount hle total, .refl _ _⟩
  · refine ⟨_, congrArg Answer.state hok, .moved ?_, .refl _ _⟩
    unfold Arena.remainingBytes at hroom
    omega

/-- An allocation that succeeds and a copy into the fresh block. -/
theorem allocCopy (hle : a.lastIndex ≤ a.capacity) {buffer size src n : Nat}
    (hok : (Memory.alloc host buffer size (.arena a)).result = .success)
    (hn : n ≤ align8U32 size) (m : Bytes) :
    Allocator.Reuses a m ⟨(Memory.alloc host buffer size (.arena a)).state,
      m.copy (Memory.alloc host buffer size (.arena a)).buffer src n⟩ := by
  rcases alloc_arena host buffer size a with ⟨herr, -⟩ | ⟨hroom, hgot⟩
  · exact absurd hok (Result.ne_success_of_isError herr)
  · rw [hgot]
    refine ⟨_, rfl, .moved ?_, Arena.confined_copy hle (Nat.le_trans hn hroom)⟩
    unfold Arena.remainingBytes at hroom
    omega

theorem free (hle : a.lastIndex ≤ a.capacity) (buffer size : Nat) (m : Bytes) :
    Allocator.Reuses a m ⟨(Memory.free buffer size (.arena a)).2, m⟩ := by
  rcases free_arena buffer size a with ⟨-, -, -, -, hst⟩ | ⟨-, -, hst⟩
  · exact ⟨_, hst, .moved (Nat.le_trans (Nat.sub_le _ _) hle), .refl _ _⟩
  · exact ⟨_, hst, .moved hle, .refl _ _⟩

theorem clone (hle : a.lastIndex ≤ a.capacity) (host : Host) (buffer src size : Nat) (m : Bytes) :
    Allocator.Reuses a m (Memory.clone host buffer src size ⟨.arena a, m⟩).state := by
  unfold Memory.clone
  split
  · exact ⟨a, rfl, .moved hle, .refl _ _⟩
  split
  · exact ⟨a, rfl, .moved hle, .refl _ _⟩
  rename_i hsize
  dsimp only
  split
  · rename_i hok
    refine allocCopy hle hok (le_align8U32 fun hz => ?_) m
    rw [Memory.alloc, if_neg hsize, if_pos hz] at hok
    cases hok
  · exact alloc hle host buffer size m

theorem reallocNewest (hle : a.lastIndex ≤ a.capacity) (host : Host)
    (buffer oldSize oldAligned newAligned : Nat) (m : Bytes) :
    Allocator.Reuses a m
      (Memory.reallocNewest host buffer oldSize oldAligned newAligned 0 a ⟨.arena a, m⟩).state := by
  unfold Memory.reallocNewest
  split
  · exact ⟨_, rfl, .moved (Nat.le_trans (Nat.sub_le _ _) hle), .refl _ _⟩
  split
  · rename_i hroom
    refine ⟨_, rfl, .moved ?_, .refl _ _⟩
    unfold Arena.remainingBytes at hroom
    omega
  · obtain ⟨total, htotal⟩ := accountCapacityExceeded_snd (newAligned - oldAligned) a
    exact ⟨_, congrArg Allocator.arena htotal, .recount hle total, .refl _ _⟩

theorem reallocBuried (hle : a.lastIndex ≤ a.capacity) (host : Host)
    {buffer oldSize oldAligned newSize : Nat} (hold : oldSize ≤ oldAligned) (m : Bytes) :
    Allocator.Reuses a m (Memory.reallocBuried host buffer oldSize oldAligned (align8U32 newSize)
      ⟨.arena a, m⟩).state := by
  unfold Memory.reallocBuried
  split
  · rename_i hmore
    dsimp only
    split
    · rename_i hok
      split
      · refine allocCopy hle hok ?_ m
        rw [align8U32_align8U32]
        omega
      · exact alloc hle host 0 (align8U32 newSize) m
    · exact alloc hle host 0 (align8U32 newSize) m
  · exact ⟨a, rfl, .moved hle, .refl _ _⟩

theorem realloc (hle : a.lastIndex ≤ a.capacity) (host : Host) (buffer oldSize newSize : Nat)
    (m : Bytes) :
    Allocator.Reuses a m (Memory.realloc host buffer oldSize newSize ⟨.arena a, m⟩).state := by
  unfold Memory.realloc
  split
  · exact ⟨a, rfl, .moved hle, .refl _ _⟩
  rename_i hover
  split
  · exact free hle buffer (align8U32 oldSize) m
  split
  · exact ⟨a, rfl, .moved hle, .refl _ _⟩
  have hold : oldSize ≤ align8U32 oldSize := by
    by_cases hz : align8U32 oldSize = 0
    · rw [(align8U32_eq_zero_iff fun h => hover (Or.inr h)).mp hz]
      exact Nat.zero_le _
    · exact le_align8U32 hz
  dsimp only [Allocator.owner]
  split
  · exact reallocNewest hle host buffer oldSize _ _ m
  · exact reallocBuried hle host hold m

end Allocator.Reuses

/-- Any call short of a release leaves the arena over its buffer and the bytes around it alone. -/
theorem call_reuses (host : Host) {c : Call} (kept : c ≠ .release)
    (hle : a.lastIndex ≤ a.capacity) (m : Bytes) :
    Allocator.Reuses a m (Heap.call host ⟨.arena a, m⟩ c).state := by
  cases c with
  | alloc size => exact .alloc hle host 0 size m
  | clone src size => exact .clone hle host 0 src size m
  | free buffer size => exact .free hle buffer size m
  | realloc buffer oldSize newSize => exact .realloc hle host buffer oldSize newSize m
  | reset => exact ⟨a.reset, rfl, ⟨rfl, rfl, rfl, Nat.zero_le _⟩, .refl _ _⟩
  | release => exact absurd rfl kept
  | reserve arenaCount => exact ⟨a, rfl, .moved hle, .refl _ _⟩
  | borrow data capacity => exact ⟨a, rfl, .moved hle, .refl _ _⟩
  | shrink => exact ⟨a, rfl, .moved hle, .refl _ _⟩

end Arnm.Memory
