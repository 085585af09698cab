import Arnm.Memory.MemoryBlock
import Arnm.Memory.Refused

set_option autoImplicit false

/-! # A single arena and its tail

On a single arena every call keeps the buffer, an allocation starts at the tail, and the tail goes
back only when the newest block does. Calls on blocks that are not the newest, if they place no
block, leave the tail where it is. -/

namespace Arnm.Memory

variable {host : Host} {h : Heap} {held : List Block} {a : Arena}

/-- The first address behind the used part of an arena. -/
def Arena.tail (a : Arena) : Nat := a.data + a.lastIndex

theorem alloc_arena (host : Host) (buffer size : Nat) (a : Arena) :
    ((alloc host buffer size (.arena a)).result.isError = true ∧
      ∃ total, (alloc host buffer size (.arena a)).state = .arena (a.recount total)) ∨
    (align8U32 size ≤ a.remainingBytes ∧
      alloc host buffer size (.arena a) =
        ⟨.success, a.tail, .arena (a.bump (align8U32 size))⟩) := by
  unfold alloc
  split
  · exact Or.inl ⟨rfl, _, rfl⟩
  · split
    · exact Or.inl ⟨rfl, _, rfl⟩
    · rcases arenaAllocAligned_cases buffer (align8U32 size) a with
        ⟨herr, -, -, total, hst⟩ | ⟨-, hroom, hok⟩
      · exact Or.inl ⟨herr, total, congrArg Allocator.arena hst⟩
      · simp only [hok]
        exact Or.inr ⟨hroom, rfl⟩

/-- A block that is the newest goes back, any other is left. -/
theorem free_arena (buffer size : Nat) (a : Arena) :
    ((free buffer size (.arena a)).1 = .success ∧ buffer ≠ 0 ∧ align8U32 size ≠ 0 ∧
      a.tail = buffer + align8U32 size ∧
      (free buffer size (.arena a)).2 = .arena (a.rewind (align8U32 size))) ∨
    ((free buffer size (.arena a)).1 ≠ .success ∧
      (a.tail = buffer + align8U32 size → buffer ≠ 0 → align8U32 size = 0) ∧
      (free buffer size (.arena a)).2 = .arena a) := by
  unfold free
  split
  · rename_i hover
    exact Or.inr ⟨Result.noConfusion, fun _ _ => hover.2, rfl⟩
  · simp only [Allocator.owner]
    split
    · rename_i hrec
      obtain ⟨hne, hsize, htail⟩ := Arena.isReclaimable_iff.mp hrec
      exact Or.inl ⟨rfl, hne, hsize, htail, rfl⟩
    · rename_i hrec
      refine Or.inr ⟨Result.noConfusion, fun htail hne => ?_, rfl⟩
      by_contra hsize
      exact hrec (Arena.isReclaimable_iff.mpr ⟨hne, hsize, htail⟩)

/-- A call that hands out a place: an allocation, a copy, or a resize that moved. -/
def placed (c : Call) (r : Answer Heap) : Bool :=
  match c with
  | .alloc _ => !r.result.isError
  | .clone _ _ => !r.result.isError
  | .realloc buffer _ _ => !r.result.isError && r.buffer != buffer && r.buffer != 0
  | _ => false

/-! ## The buffer stays -/

/-- A single arena stays one over its buffer, and a chain a chain. -/
def Allocator.Alike : Allocator → Allocator → Prop
  | .arena a, .arena b => b.data = a.data ∧ b.capacity = a.capacity
  | .multiArena _, .multiArena _ => True
  | _, _ => False

namespace Allocator.Alike

theorem refl (memory : Allocator) : memory.Alike memory := by
  cases memory with
  | arena a => exact ⟨rfl, rfl⟩
  | multiArena m => trivial

theorem trans {m₁ m₂ m₃ : Allocator} (h : m₁.Alike m₂) (k : m₂.Alike m₃) : m₁.Alike m₃ := by
  cases m₁ <;> cases m₂ <;> cases m₃ <;> first
    | exact ⟨k.1.trans h.1, k.2.trans h.2⟩
    | trivial

theorem exists_arena {memory : Allocator} (h : (Allocator.arena a).Alike memory) :
    ∃ b, memory = .arena b ∧ b.data = a.data ∧ b.capacity = a.capacity := by
  cases memory with
  | arena b => exact ⟨b, rfl, h⟩
  | multiArena m => exact h.elim

theorem exists_before {memory : Allocator} (h : memory.Alike (.arena a)) :
    ∃ b, memory = .arena b ∧ a.data = b.data ∧ a.capacity = b.capacity := by
  cases memory with
  | arena b => exact ⟨b, rfl, h⟩
  | multiArena m => exact h.elim

variable (memory : Allocator)

theorem giveBack (i k : Nat) : memory.Alike (memory.giveBack i k) := by
  cases memory with
  | arena a => exact ⟨rfl, rfl⟩
  | multiArena m => trivial

theorem claim (i k : Nat) : memory.Alike (memory.claim i k) := by
  cases memory with
  | arena a => exact ⟨rfl, rfl⟩
  | multiArena m => trivial

theorem alloc (host : Host) (buffer size : Nat) :
    memory.Alike (Memory.alloc host buffer size memory).state := by
  cases memory with
  | arena a =>
      rcases alloc_arena host buffer size a with ⟨-, total, hst⟩ | ⟨-, hok⟩
      · rw [hst]
        exact ⟨rfl, rfl⟩
      · rw [hok]
        exact ⟨rfl, rfl⟩
  | multiArena m =>
      obtain ⟨m', hst⟩ := alloc_multiArena host buffer size m
      rw [hst]
      trivial

theorem free (buffer size : Nat) : memory.Alike (Memory.free buffer size memory).2 := by
  unfold Memory.free
  split
  · exact refl memory
  · split
    · split <;> exact refl memory
    · split
      · exact giveBack memory _ _
      · exact refl memory

end Allocator.Alike

theorem reallocNewest_alike (host : Host) (buffer oldSize oldAligned newAligned i : Nat)
    (b : Arena) (h : Heap) :
    h.memory.Alike
      (reallocNewest host buffer oldSize oldAligned newAligned i b h).state.memory := by
  unfold reallocNewest
  split
  · exact .giveBack _ _ _
  · split
    · exact .claim _ _ _
    · cases hm : h.memory with
      | arena a =>
          obtain ⟨total, htotal⟩ := accountCapacityExceeded_snd (newAligned - oldAligned) a
          simp only [htotal]
          exact ⟨rfl, rfl⟩
      | multiArena m =>
          have halloc := Allocator.Alike.alloc (.multiArena m) host 0 newAligned
          simp only
          split
          · exact halloc.trans (.giveBack _ _ _)
          · exact halloc

theorem reallocBuried_alike (host : Host) (buffer oldSize oldAligned newAligned : Nat) (h : Heap) :
    h.memory.Alike
      (reallocBuried host buffer oldSize oldAligned newAligned h).state.memory := by
  have halloc := Allocator.Alike.alloc h.memory host 0 newAligned
  unfold reallocBuried
  split
  · simp only
    split <;> exact halloc
  · exact .refl _

theorem realloc_alike (host : Host) (buffer oldSize newSize : Nat) (h : Heap) :
    h.memory.Alike (realloc host buffer oldSize newSize h).state.memory := by
  unfold realloc
  split
  · exact .refl _
  · split
    · exact .free _ _ _
    · split
      · exact .refl _
      · split
        · split
          · exact .refl _
          · exact reallocBuried_alike _ _ _ _ _ _
        · split
          · exact reallocNewest_alike _ _ _ _ _ _ _ _
          · exact reallocBuried_alike _ _ _ _ _ _

/-- Every call but a release keeps the buffer of a single arena. -/
theorem call_alike (host : Host) (c : Call) (kept : c ≠ .release) (h : Heap) :
    h.memory.Alike (h.call host c).state.memory := by
  -- only a release takes the buffer from an arena
  cases c with
  | alloc size => exact .alloc _ _ _ _
  | clone src size =>
      have halloc := Allocator.Alike.alloc h.memory host 0 size
      simp only [Heap.call, clone]
      split
      · exact .refl _
      · split
        · exact .refl _
        · split <;> exact halloc
  | free buffer size => exact .free _ _ _
  | realloc buffer oldSize newSize => exact realloc_alike host buffer oldSize newSize h
  | reset =>
      simp only [Heap.call]
      cases h.memory with
      | arena a => exact ⟨rfl, rfl⟩
      | multiArena m => trivial
  | release => exact absurd rfl kept
  | reserve arenaCount =>
      simp only [Heap.call]
      split <;> exact .refl _
  | borrow data capacity =>
      cases hm : h.memory with
      | arena a =>
          simp only [Heap.call, hm]
          exact ⟨rfl, rfl⟩
      | multiArena m =>
          simp only [Heap.call, hm]
          trivial
  | shrink =>
      cases hm : h.memory with
      | arena a =>
          simp only [Heap.call, hm]
          exact ⟨rfl, rfl⟩
      | multiArena m =>
          simp only [Heap.call, hm]
          trivial

/-- The buffer of a single arena is never larger than one allocation may be. -/
theorem Reachable.capacity_le {s : State} (hr : Reachable s) :
    ∀ a, s.heap.memory = .arena a → a.capacity ≤ maxAllocSize := by
  induction hr with
  | arena host capacity a bytes fresh made =>
      intro b hb
      obtain ⟨-, -, -, -, hcap⟩ := initArena_ok made
      rw [← Allocator.arena.inj hb, hcap]
      exact align8U32_le capacity
  | borrowed data capacity a bytes stop made =>
      intro b hb
      rw [← Allocator.arena.inj hb]
      unfold initArenaBorrow at made
      split at made
      · cases made
      split at made
      · cases made
      split at made
      · cases made
      split at made
      · cases made
      · cases made
        exact align8U32_le capacity
  | chain host options m bytes made => exact fun b hb => by cases hb
  | call host s c _ fresh honest ih =>
      intro b hb
      -- a call keeps the buffer, so the bound is the one of the arena before it
      have halike := call_alike host c (fun hc => by rw [hc] at honest; exact honest) s.heap
      rw [show (s.heap.call host c).state.memory = .arena b from hb] at halike
      obtain ⟨a, ha, -, hcap⟩ := halike.exists_before
      rw [hcap]
      exact ih a ha
  | write s bytes _ ih => exact ih

/-! ## The tail stays -/

theorem realloc_tail {buffer oldSize newSize : Nat} (hm : h.memory = .arena a)
    (hs : Sound h.memory.arenas held) (honest : buffer = 0 ∨ ⟨buffer, oldSize⟩ ∈ held)
    (hburied : ⟨buffer, oldSize⟩ ∈ held → a.tail ≠ buffer + align8U32 oldSize)
    (hplaced : placed (.realloc buffer oldSize newSize)
      (realloc host buffer oldSize newSize h) = false) :
    ∃ a', (realloc host buffer oldSize newSize h).state.memory = .arena a' ∧
      a'.data = a.data ∧ a'.tail = a.tail := by
  by_cases herr : (realloc host buffer oldSize newSize h).result.isError = true
  · -- refused: only the counter may have moved
    have hcore := realloc_refused_core herr
    obtain ⟨a', hm', -, -⟩ := (hm ▸ realloc_alike host buffer oldSize newSize h).exists_arena
    rw [hm', hm] at hcore
    have hsame : a'.recount 0 = a.recount 0 := Allocator.arena.inj hcore
    have hdata : a'.data = a.data := (Arena.mk.inj hsame).1
    have hindex : a'.lastIndex = a.lastIndex := (Arena.mk.inj hsame).2.1
    exact ⟨a', hm', hdata, by rw [Arena.tail, Arena.tail, hdata, hindex]⟩
  have hnot : ¬ a.isReclaimable buffer (align8U32 oldSize) = true := by
    intro hrec
    obtain ⟨hne, -, htail⟩ := Arena.isReclaimable_iff.mp hrec
    exact hburied (honest.resolve_left hne) htail
  generalize hgot : realloc host buffer oldSize newSize h = r at *
  unfold realloc at hgot
  split at hgot
  · exact absurd (by rw [← hgot]; rfl) herr
  split at hgot
  · -- a new size of zero frees, and the block is not the newest
    have hfree := free_arena buffer (align8U32 oldSize) a
    rw [hm] at hgot
    generalize free buffer (align8U32 oldSize) (.arena a) = got at hgot hfree
    obtain ⟨result, memory⟩ := got
    rcases hfree with ⟨-, hne, -, htail, -⟩ | ⟨-, -, rfl⟩
    · rw [align8U32_align8U32] at htail
      exact absurd htail (hburied (honest.resolve_left hne))
    · exact ⟨a, by rw [← hgot], rfl, rfl⟩
  split at hgot
  · exact ⟨a, by rw [← hgot, hm], rfl, rfl⟩
  simp only [hm, Allocator.owner, if_neg hnot] at hgot
  unfold reallocBuried at hgot
  split at hgot
  · rw [hm] at hgot
    rcases alloc_arena host 0 (align8U32 newSize) a with ⟨hbad, -⟩ | ⟨-, hok⟩
    · simp only [if_neg (Result.ne_success_of_isError hbad)] at hgot
      exact absurd (by rw [← hgot]; exact hbad) herr
    · -- a fresh place at the tail
      simp only [hok, if_true] at hgot
      rw [hm] at hs
      have ha := hs.arena a List.mem_cons_self
      have hzero : a.tail ≠ 0 := Nat.ne_of_gt (Nat.add_pos_left (Nat.pos_of_ne_zero ha.data_ne) _)
      have hother : a.tail ≠ buffer := by
        rcases honest with rfl | hb
        · exact hzero
        · obtain ⟨i, c, hi, hin⟩ := hs.within _ hb
          have hac : c = a := by
            rw [Allocator.arenas, List.getElem?_singleton] at hi
            split at hi
            · exact (Option.some.inj hi).symm
            · cases hi
          have hpos : align8U32 oldSize ≠ 0 := hs.size_ne _ hb
          have hstop : buffer + align8U32 oldSize ≤ c.data + c.lastIndex := hin.2
          rw [hac] at hstop
          unfold Arena.tail
          omega
      have hyes : placed (.realloc buffer oldSize newSize) r = true := by
        rw [← hgot]
        simp [placed, Result.isError, hzero, hother]
      rw [hyes] at hplaced
      cases hplaced
  · exact ⟨a, by rw [← hgot, hm], rfl, rfl⟩

/-- A call that places no block, on blocks that are not the newest, leaves the tail. -/
theorem call_tail {c : Call} {others : List Block} (hm : h.memory = .arena a)
    (hs : Sound h.memory.arenas held) (hsub : ∀ b ∈ others, b ∈ held)
    (honest : Honest ⟨h, others⟩ c) (kept : c ≠ .reset)
    (hburied : ∀ b ∈ others, a.tail ≠ b.addr + align8U32 b.size)
    (hplaced : placed c (h.call host c) = false) :
    ∃ a', (h.call host c).state.memory = .arena a' ∧ a'.data = a.data ∧ a'.tail = a.tail := by
  -- a request that is refused only recounts
  have halloc : ∀ size, (alloc host 0 size h.memory).result.isError = true →
      ∃ a', (alloc host 0 size h.memory).state = .arena a' ∧ a'.data = a.data ∧
        a'.tail = a.tail := by
    intro size herr
    rw [hm] at herr ⊢
    rcases alloc_arena host 0 size a with ⟨-, total, hst⟩ | ⟨-, hok⟩
    · exact ⟨_, hst, rfl, rfl⟩
    · rw [hok] at herr
      cases herr
  cases c with
  | alloc size => exact halloc size (by simpa [placed, Heap.call] using hplaced)
  | clone src size =>
      have herr : (clone host 0 src size h).result.isError = true := by
        simpa [placed, Heap.call] using hplaced
      obtain ⟨-, hcore, -⟩ := clone_refused herr
      obtain ⟨a', hm', -, -⟩ :=
        (hm ▸ call_alike host (.clone src size) Call.noConfusion h).exists_arena
      have hm'' : (clone host 0 src size h).state.memory = .arena a' := hm'
      rw [hm'', hm] at hcore
      have hsame := Arena.mk.inj (Allocator.arena.inj hcore)
      exact ⟨a', hm', hsame.1, by rw [Arena.tail, Arena.tail, hsame.1, hsame.2.1]⟩
  | free buffer size =>
      have hfree := free_arena buffer size a
      simp only [Heap.call, hm]
      generalize free buffer size (.arena a) = got at hfree
      obtain ⟨result, memory⟩ := got
      rcases hfree with ⟨-, hne, -, htail, -⟩ | ⟨-, -, rfl⟩
      · exact absurd htail (hburied _ (honest.resolve_left hne))
      · exact ⟨a, rfl, rfl, rfl⟩
  | realloc buffer oldSize newSize =>
      exact realloc_tail hm hs (honest.imp_right (hsub _))
        (fun hb => (honest.elim (fun hz => absurd hz (hs.addr_ne hb)) fun hb => hburied _ hb))
        hplaced
  | reset => exact absurd rfl kept
  | release => exact honest.elim
  | reserve arenaCount =>
      simp only [Heap.call, hm]
      exact ⟨a, rfl, rfl, rfl⟩
  | borrow addr size =>
      simp only [Heap.call, hm]
      exact ⟨a, rfl, rfl, rfl⟩
  | shrink =>
      simp only [Heap.call, hm]
      exact ⟨a, rfl, rfl, rfl⟩

/-- The blocks held after a call that placed none are where blocks were held before. -/
theorem ledger_unplaced {c : Call} {r : Answer Heap} (honest : Honest ⟨h, held⟩ c)
    (kept : c ≠ .reset) (hplaced : placed c r = false) :
    ∀ b ∈ ledger held r c, ∃ b₀ ∈ held, b₀.addr = b.addr := by
  have hsame : ∀ b ∈ held, ∃ b₀ ∈ held, b₀.addr = b.addr := fun b hb => ⟨b, hb, rfl⟩
  have hgrant : ∀ size, r.result.isError = true →
      ∀ b ∈ (if r.result = .success then ⟨r.buffer, size⟩ :: held else held),
        ∃ b₀ ∈ held, b₀.addr = b.addr := by
    intro size herr
    rw [if_neg (Result.ne_success_of_isError herr)]
    exact hsame
  cases c with
  | alloc size => exact hgrant size (by simpa [placed] using hplaced)
  | clone src size => exact hgrant size (by simpa [placed] using hplaced)
  | free buffer size =>
      intro b hb
      simp only [ledger] at hb
      split at hb
      · exact hsame b hb
      · exact hsame b (List.mem_of_mem_erase hb)
  | realloc buffer oldSize newSize =>
      intro b hb
      simp only [ledger] at hb
      split at hb
      · exact hsame b hb
      split at hb
      · exact hsame b (List.mem_of_mem_erase hb)
      split at hb
      · exact hsame b hb
      split at hb
      · exact hsame b hb
      · rename_i herr _ _ hne
        rcases List.mem_cons.mp hb with rfl | hb
        · -- not refused and not placed: the block is where it was
          have hbuf : r.buffer = buffer := by
            simp only [placed, Bool.eq_false_iff.mpr herr] at hplaced
            by_contra hother
            simp [hne, hother] at hplaced
          exact ⟨_, honest.resolve_left (hbuf ▸ hne), hbuf.symm⟩
        · exact hsame b (List.mem_of_mem_erase hb)
  | reset => exact absurd rfl kept
  | release => exact honest.elim
  | reserve arenaCount => exact hsame
  | borrow addr size => exact hsame
  | shrink => exact hsame

end Arnm.Memory
