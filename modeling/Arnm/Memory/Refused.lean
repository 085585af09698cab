import Arnm.Memory.Marker
import Arnm.Memory.Provider

set_option autoImplicit false

/-! # Refused requests

An allocation on a chain may open an arena and a resize may allocate, copy and give back; each of
these steps can be refused after the one before it was carried out. A refusal leaves the arenas,
the bytes and the caller's pointer, and only the overflow counters and the marker may have moved.
A chain with a maximum never has more arenas than that, on any of the paths that add one. -/

namespace Arnm.Memory

/-- The allocator without its overflow counters and its marker. -/
def Allocator.core : Allocator → Allocator
  | .arena a => .arena (a.recount 0)
  | .multiArena m => .multiArena { m with arenas := m.arenas.map (Arena.recount 0), firstOpen := 0 }

variable {host : Host} {memory : Allocator} {h : Heap}

/-! ## What a refusal leaves -/

theorem arenaAllocAligned_refused {buffer n : Nat} {a : Arena}
    (herr : (arenaAllocAligned buffer n a).result.isError = true) :
    (arenaAllocAligned buffer n a).buffer = buffer ∧
      (arenaAllocAligned buffer n a).state.recount 0 = a.recount 0 := by
  rcases arenaAllocAligned_cases buffer n a with ⟨-, hbuf, -, total, hst⟩ | ⟨-, -, hok⟩
  · rw [hst]
    exact ⟨hbuf, rfl⟩
  · rw [hok] at herr
    cases herr

theorem alloc_refused {buffer size : Nat}
    (herr : (alloc host buffer size memory).result.isError = true) :
    (alloc host buffer size memory).buffer = buffer ∧
      (alloc host buffer size memory).state.core = memory.core := by
  unfold alloc at herr ⊢
  split
  · exact ⟨rfl, rfl⟩
  · rename_i hsize
    rw [if_neg hsize] at herr
    split
    · exact ⟨rfl, rfl⟩
    · rename_i hn
      rw [if_neg hn] at herr
      cases memory with
      | arena a =>
          obtain ⟨hbuf, hst⟩ := arenaAllocAligned_refused herr
          exact ⟨hbuf, congrArg Allocator.arena hst⟩
      | multiArena m =>
          simp only at herr ⊢
          rcases multiArenaAlloc_cases host buffer (align8U32 size) m hn with
            ⟨-, hbuf, -, hst⟩ | ⟨i, a, -, -, -, -, hok⟩ | ⟨-, a, -, -, hok⟩
          · rw [hst]
            exact ⟨hbuf, rfl⟩
          · rw [hok] at herr
            cases herr
          · rw [hok] at herr
            cases herr

theorem free_refused {buffer size : Nat} (herr : (free buffer size memory).1.isError = true) :
    (free buffer size memory).2 = memory := by
  unfold free at herr ⊢
  split
  · rfl
  · rename_i hover
    rw [if_neg hover] at herr
    cases hown : memory.owner buffer with
    | none =>
        simp only
        split <;> rfl
    | some found =>
        simp only [hown] at herr ⊢
        split
        · rename_i hrec
          rw [if_pos hrec] at herr
          cases herr
        · rfl

theorem accountCapacityExceeded_core (n : Nat) (a : Arena) :
    (accountCapacityExceeded n a).2.recount 0 = a.recount 0 := by
  obtain ⟨total, htotal⟩ := accountCapacityExceeded_snd n a
  rw [htotal]
  rfl

theorem reallocNewest_refused {buffer oldSize oldAligned newAligned i : Nat} {a : Arena}
    (herr : (reallocNewest host buffer oldSize oldAligned newAligned i a h).result.isError = true) :
    (reallocNewest host buffer oldSize oldAligned newAligned i a h).state.memory.core =
      h.memory.core := by
  unfold reallocNewest at herr ⊢
  split
  · rename_i hshrink
    rw [if_pos hshrink] at herr
    cases herr
  · rename_i hshrink
    rw [if_neg hshrink] at herr
    split
    · rename_i hroom
      rw [if_pos hroom] at herr
      cases herr
    · rename_i hroom
      rw [if_neg hroom] at herr
      cases hmem : h.memory with
      | arena c => exact congrArg Allocator.arena (accountCapacityExceeded_core _ c)
      | multiArena m =>
          simp only [hmem] at herr ⊢
          by_cases hok : (alloc host 0 newAligned (.multiArena m)).result = .success
          · rw [if_pos hok] at herr
            cases herr
          · rw [if_neg hok] at herr ⊢
            exact (alloc_refused herr).2

theorem reallocBuried_refused {buffer oldSize oldAligned newAligned : Nat}
    (herr : (reallocBuried host buffer oldSize oldAligned newAligned h).result.isError = true) :
    (reallocBuried host buffer oldSize oldAligned newAligned h).state.memory.core =
      h.memory.core := by
  unfold reallocBuried at herr ⊢
  split
  · rename_i hgrow
    rw [if_pos hgrow] at herr
    simp only at herr ⊢
    by_cases hok : (alloc host 0 newAligned h.memory).result = .success
    · rw [if_pos hok] at herr
      cases herr
    · rw [if_neg hok] at herr ⊢
      exact (alloc_refused herr).2
  · rfl

theorem realloc_refused_core {buffer oldSize newSize : Nat}
    (herr : (realloc host buffer oldSize newSize h).result.isError = true) :
    (realloc host buffer oldSize newSize h).state.memory.core = h.memory.core := by
  unfold realloc at herr ⊢
  split
  · rfl
  · rename_i hover
    rw [if_neg hover] at herr
    split
    · -- a new size of zero frees
      rename_i hzero
      rw [if_pos hzero] at herr
      exact congrArg Allocator.core (free_refused herr)
    · rename_i hzero
      rw [if_neg hzero] at herr
      split
      · rfl
      · rename_i hsame
        rw [if_neg hsame] at herr
        cases hown : h.memory.owner buffer with
        | none =>
            simp only [hown] at herr ⊢
            split
            · rfl
            · rename_i hz
              rw [if_neg hz] at herr
              exact reallocBuried_refused herr
        | some found =>
            simp only [hown] at herr ⊢
            split
            · rename_i hrec
              rw [if_pos hrec] at herr
              exact reallocNewest_refused herr
            · rename_i hrec
              rw [if_neg hrec] at herr
              exact reallocBuried_refused herr

theorem clone_refused {buffer src size : Nat}
    (herr : (clone host buffer src size h).result.isError = true) :
    (clone host buffer src size h).buffer = buffer ∧
      (clone host buffer src size h).state.memory.core = h.memory.core ∧
      (clone host buffer src size h).state.bytes = h.bytes := by
  unfold clone at herr ⊢
  split
  · exact ⟨rfl, rfl, rfl⟩
  · rename_i hsrc
    rw [if_neg hsrc] at herr
    split
    · exact ⟨rfl, rfl, rfl⟩
    · rename_i hsize
      rw [if_neg hsize] at herr
      simp only at herr ⊢
      by_cases hok : (alloc host buffer size h.memory).result = .success
      · rw [if_pos hok] at herr
        cases herr
      · rw [if_neg hok] at herr ⊢
        obtain ⟨hbuf, hcore⟩ := alloc_refused herr
        exact ⟨hbuf, hcore, rfl⟩

/-! ## The maximum of a chain -/

/-- The chain has no more arenas than its maximum, if it has one. -/
def MultiArena.Capped (m : MultiArena) : Prop :=
  m.arenaMaxCount ≠ 0 → m.arenas.length ≤ m.arenaMaxCount

/-- The same of an allocator; a single arena has no maximum. -/
def Allocator.Capped : Allocator → Prop
  | .arena _ => True
  | .multiArena m => m.Capped

/-- A chain with as many arenas and the same maximum. -/
theorem MultiArena.Capped.congr {m m' : MultiArena} (hm : m.Capped)
    (hmax : m'.arenaMaxCount = m.arenaMaxCount) (hlen : m'.arenas.length ≤ m.arenas.length) :
    m'.Capped := by
  intro hne
  rw [hmax] at hne ⊢
  exact Nat.le_trans hlen (hm hne)

theorem MultiArena.Capped.allocAt {m : MultiArena} (hm : m.Capped) (buffer n i : Nat) :
    (m.allocAt buffer n i).state.Capped := by
  unfold MultiArena.allocAt
  split
  · exact hm.congr rfl (by simp)
  · exact hm

/-- A further arena is opened only below the maximum. -/
theorem MultiArena.Capped.alloc {m : MultiArena} (hm : m.Capped) (host : Host) (buffer n : Nat) :
    (multiArenaAlloc host buffer n m).state.Capped := by
  unfold multiArenaAlloc
  split
  · exact hm
  · simp only
    -- moving the marker opens no arena
    have hmoved : ∀ firstOpen, Capped { m with firstOpen := firstOpen } := fun _ => hm
    split
    · exact (hmoved _).allocAt _ _ _
    · split
      · exact hmoved _
      · rename_i hbelow
        cases initArena host (max m.arenaCapacity n) with
        | error result => exact hmoved _
        | ok a =>
            simp only [multiArenaPush]
            cases host.refusal with
            | some refusal =>
                simp only
                split
                · rename_i heq
                  rw [Prod.mk.injEq] at heq
                  obtain ⟨-, rfl⟩ := heq
                  exact (hmoved _).allocAt _ _ _
                · rename_i heq
                  rw [Prod.mk.injEq] at heq
                  obtain ⟨-, rfl⟩ := heq
                  exact hmoved _
            | none =>
                -- one arena more than were below the maximum
                refine MultiArena.Capped.allocAt (fun hne => ?_) _ _ _
                rw [List.length_append, List.length_singleton]
                exact Nat.lt_of_not_le fun hle => hbelow ⟨hne, hle⟩

namespace Allocator.Capped

variable (hc : memory.Capped)
include hc

theorem giveBack (i k : Nat) : (memory.giveBack i k).Capped := by
  cases memory with
  | arena a => trivial
  | multiArena m =>
      refine MultiArena.Capped.congr hc ?_ (by simp)
      unfold MultiArena.reopen
      split
      · split <;> rfl
      · rfl

theorem claim (i k : Nat) : (memory.claim i k).Capped := by
  cases memory with
  | arena a => trivial
  | multiArena m => exact MultiArena.Capped.congr hc rfl (by simp)

theorem alloc (host : Host) (buffer size : Nat) :
    (Memory.alloc host buffer size memory).state.Capped := by
  unfold Memory.alloc
  split
  · exact hc
  · split
    · exact hc
    · cases memory with
      | arena a => trivial
      | multiArena m => exact MultiArena.Capped.alloc hc host buffer _

theorem free (buffer size : Nat) : (Memory.free buffer size memory).2.Capped := by
  unfold Memory.free
  split
  · exact hc
  · split
    · split <;> exact hc
    · split
      · exact hc.giveBack _ _
      · exact hc

end Allocator.Capped

theorem reallocNewest_capped (host : Host)
    (buffer oldSize oldAligned newAligned i : Nat) (a : Arena)
    (hc : h.memory.Capped) :
    (reallocNewest host buffer oldSize oldAligned newAligned i a h).state.memory.Capped := by
  unfold reallocNewest
  split
  · exact hc.giveBack _ _
  · split
    · exact hc.claim _ _
    · cases hmem : h.memory with
      | arena c => trivial
      | multiArena m =>
          rw [hmem] at hc
          have halloc := hc.alloc host 0 newAligned
          simp only
          split
          · exact halloc.giveBack _ _
          · exact halloc

theorem reallocBuried_capped (host : Host) (buffer oldSize oldAligned newAligned : Nat)
    (hc : h.memory.Capped) :
    (reallocBuried host buffer oldSize oldAligned newAligned h).state.memory.Capped := by
  have halloc := hc.alloc host 0 newAligned
  unfold reallocBuried
  split
  · simp only
    split <;> exact halloc
  · exact hc

theorem realloc_capped (host : Host) (buffer oldSize newSize : Nat) (hc : h.memory.Capped) :
    (realloc host buffer oldSize newSize h).state.memory.Capped := by
  unfold realloc
  split
  · exact hc
  · split
    · exact hc.free _ _
    · split
      · exact hc
      · split
        · split
          · exact hc
          · exact reallocBuried_capped _ _ _ _ _ hc
        · split
          · exact reallocNewest_capped _ _ _ _ _ _ _ hc
          · exact reallocBuried_capped _ _ _ _ _ hc

/-- Every call keeps a chain within its maximum. -/
theorem call_capped (host : Host) (c : Call) (hc : h.memory.Capped) :
    (h.call host c).state.memory.Capped := by
  cases c with
  | alloc size => exact hc.alloc host 0 size
  | clone src size =>
      have halloc := hc.alloc host 0 size
      simp only [Heap.call, clone]
      split
      · exact hc
      · split
        · exact hc
        · split <;> exact halloc
  | free buffer size => exact hc.free buffer size
  | realloc buffer oldSize newSize => exact realloc_capped host buffer oldSize newSize hc
  | reset =>
      simp only [Heap.call]
      cases hmem : h.memory with
      | arena a => trivial
      | multiArena m =>
          rw [hmem] at hc
          exact MultiArena.Capped.congr hc rfl (by simp)
  | release =>
      simp only [Heap.call]
      cases hmem : h.memory with
      | arena a => trivial
      | multiArena m => exact fun _ => Nat.zero_le _
  | reserve arenaCount =>
      simp only [Heap.call]
      split <;> exact hc
  | borrow data capacity =>
      simp only [Heap.call]
      cases hmem : h.memory with
      | arena a =>
          simp only [hmem]
          trivial
      | multiArena m =>
          rw [hmem] at hc
          simp only [MultiArena.borrow]
          split
          · exact hc
          · split
            · exact hc
            · -- borrowing asks for the maximum before it pushes
              rename_i hbelow
              cases initArenaBorrow data capacity with
              | error result => exact hc
              | ok a =>
                  simp only [multiArenaPush]
                  cases host.refusal with
                  | some refusal => exact hc
                  | none =>
                      intro hne
                      rw [List.length_append, List.length_singleton]
                      exact Nat.le_of_not_lt fun hlt => hbelow ⟨hne, hlt⟩
  | shrink =>
      simp only [Heap.call]
      cases hmem : h.memory with
      | arena a =>
          simp only [hmem]
          trivial
      | multiArena m =>
          rw [hmem] at hc
          refine MultiArena.Capped.congr hc rfl ?_
          exact (List.rdropWhile_prefix _ _).length_le

theorem ChainReachable.capped (hr : ChainReachable h) : h.memory.Capped := by
  induction hr with
  | create host options m bytes created =>
      unfold createMultiArena at created
      split at created
      · cases created
        exact fun _ => Nat.zero_le _
      · cases created
  | call host h c _ ih => exact call_capped host c ih

/-- A refused `arnm_alloc`, `arnm_realloc` or `arnm_clone` leaves the caller's pointer, every byte
and the arenas with their `last_index` as they were, and a chain never has more arenas than its
maximum. -/
theorem refused_request_changes_nothing (host : Host) (buffer : Nat) (h : Heap) :
    (∀ size, (alloc host buffer size h.memory).result.isError = true →
      (alloc host buffer size h.memory).buffer = buffer ∧
      (alloc host buffer size h.memory).state.core = h.memory.core) ∧
    (∀ oldSize newSize, (realloc host buffer oldSize newSize h).result.isError = true →
      (realloc host buffer oldSize newSize h).buffer = buffer ∧
      (realloc host buffer oldSize newSize h).state.memory.core = h.memory.core ∧
      (realloc host buffer oldSize newSize h).state.bytes = h.bytes) ∧
    (∀ src size, (clone host buffer src size h).result.isError = true →
      (clone host buffer src size h).buffer = buffer ∧
      (clone host buffer src size h).state.memory.core = h.memory.core ∧
      (clone host buffer src size h).state.bytes = h.bytes) ∧
    (∀ m, ChainReachable h → h.memory = .multiArena m → m.arenaMaxCount ≠ 0 →
      m.arenas.length ≤ m.arenaMaxCount) := by
  refine ⟨fun size => alloc_refused, fun oldSize newSize herr => ?_, fun src size => clone_refused,
    fun m hr hm hne => ?_⟩
  · obtain ⟨hbuf, hbytes⟩ := realloc_refused herr
    exact ⟨hbuf, realloc_refused_core herr, hbytes⟩
  · have hcapped := hr.capped
    rw [hm] at hcapped
    exact hcapped hne

/-- A chain of one arena at most, which it has. -/
def cappedChain : Heap :=
  (Heap.call (Host.answering 4096) ⟨.multiArena ⟨[], 1024, 1, 64, 0⟩, fun _ => 0⟩
    (.alloc 1000)).state

theorem chainReachable_cappedChain : ChainReachable cappedChain :=
  .call (Host.answering 4096) _ (.alloc 1000)
    (.create (Host.answering 0) ⟨0, 1, 0, 0, 0⟩ ⟨[], 1024, 1, 64, 0⟩ (fun _ => 0) (by decide))

/-- The newest block cannot grow in its arena, and the chain may not open another one. -/
theorem refused_request_changes_nothing_sample :
    (realloc (Host.answering 8192) 4096 1000 2000 cappedChain).result = .errorResourceExhausted ∧
    (realloc (Host.answering 8192) 4096 1000 2000 cappedChain).state.memory.core =
      cappedChain.memory.core ∧
    ∃ m, cappedChain.memory = .multiArena m ∧ m.arenas.length ≤ 1 := by
  obtain ⟨-, hrealloc, -, hmax⟩ :=
    refused_request_changes_nothing (Host.answering 8192) 4096 cappedChain
  have hresult : (realloc (Host.answering 8192) 4096 1000 2000 cappedChain).result =
      .errorResourceExhausted := by decide
  have hcore := (hrealloc 1000 2000 (by rw [hresult]; rfl)).2.1
  exact ⟨hresult, hcore, _, rfl, hmax _ chainReachable_cappedChain rfl (by decide)⟩

end Arnm.Memory
