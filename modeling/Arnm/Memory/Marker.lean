import Arnm.Memory.Calls

set_option autoImplicit false

/-! # The marker of a chain

`firstOpen` is a cached place: the scan of `multi_arena_alloc` starts there instead of at the
front. It is right as long as every arena in front of it is used up. Allocating moves it forward,
giving back moves it back, and shrinking, resetting and releasing cut it; `Marked` holds through
all of them, for any arguments and any answers of the host. -/

namespace Arnm.Memory

/-- The marker of the chain is within it and everything in front of the marker is used up, the
place `hole` excepted. -/
structure MultiArena.MarkedBut (hole : Option Nat) (m : MultiArena) : Prop where
  le_count : m.firstOpen ≤ m.arenas.length
  usedUp : ∀ i a, i < m.firstOpen → some i ≠ hole → m.arenas[i]? = some a →
    isUsedUp a.remainingBytes m.fullRemaining = true
  inside : ∀ a ∈ m.arenas, a.data ≠ 0 ∧ a.lastIndex ≤ a.capacity

/-- The marker is right. -/
abbrev MultiArena.Marked (m : MultiArena) : Prop := m.MarkedBut none

theorem isUsedUp_iff {remaining fullRemaining : Nat} :
    isUsedUp remaining fullRemaining = true ↔ remaining ≤ fullRemaining := by
  simp [isUsedUp]

theorem isUsedUp_eq_false {remaining fullRemaining : Nat} :
    isUsedUp remaining fullRemaining = false ↔ fullRemaining < remaining := by
  simp [isUsedUp]

namespace MultiArena

variable {m : MultiArena} {hole : Option Nat}

/-- Putting the marker right fills the hole. -/
theorem MarkedBut.reopen {i : Nat} (h : m.MarkedBut (some i)) : (m.reopen i).Marked := by
  unfold MultiArena.reopen
  cases hi : m.arenas[i]? with
  | none =>
      refine ⟨h.le_count, fun j a hj _ ha => h.usedUp j a hj ?_ ha, h.inside⟩
      rintro ⟨rfl⟩
      rw [hi] at ha
      cases ha
  | some a =>
      by_cases hopen : i < m.firstOpen ∧ isUsedUp a.remainingBytes m.fullRemaining = false
      · simp only [if_pos hopen]
        refine ⟨?_, fun j b hj _ hb => h.usedUp j b (by simp only at hj; omega) ?_ hb, h.inside⟩
        · exact Nat.le_trans (Nat.le_of_lt hopen.1) h.le_count
        · simp only at hj
          rw [ne_eq, Option.some.injEq]
          omega
      · simp only [if_neg hopen]
        refine ⟨h.le_count, fun j b hj _ hb => ?_, h.inside⟩
        by_cases hji : j = i
        · subst hji
          rw [hi, Option.some.injEq] at hb
          subst hb
          by_contra hused
          exact hopen ⟨hj, by simpa using hused⟩
        · exact h.usedUp j b hj (by simpa using hji) hb

/-- Changing one arena leaves the invariant but for that place. -/
theorem Marked.modify {i : Nat} (f : Arena → Arena) (h : m.Marked)
    (hin : ∀ a, m.arenas[i]? = some a → (f a).data ≠ 0 ∧ (f a).lastIndex ≤ (f a).capacity) :
    MarkedBut (some i) { m with arenas := m.arenas.modify i f } where
  le_count := by simpa using h.le_count
  usedUp j a hj hne ha := by
    have hij : ¬ i = j := fun hij => hne (congrArg some hij.symm)
    obtain ⟨b, hb, hba⟩ := getElem?_modify_eq_some.mp ha
    rw [if_neg hij] at hba
    subst hba
    exact h.usedUp j b hj (by simp) hb
  inside a ha := by
    obtain ⟨j, hj⟩ := List.mem_iff_getElem?.mp ha
    obtain ⟨b, hb, hba⟩ := getElem?_modify_eq_some.mp hj
    subst hba
    split
    · rename_i hij
      subst hij
      exact hin b hb
    · exact h.inside b (List.mem_of_getElem? hb)

/-- An arena that gets no more room keeps the marker right. -/
theorem Marked.fill {i : Nat} (f : Arena → Arena) (h : m.Marked)
    (hin : ∀ a, m.arenas[i]? = some a → (f a).data ≠ 0 ∧ (f a).lastIndex ≤ (f a).capacity ∧
      (f a).remainingBytes ≤ a.remainingBytes) :
    Marked { m with arenas := m.arenas.modify i f } where
  le_count := by simpa using h.le_count
  usedUp j a hj _ ha := by
    obtain ⟨b, hb, hba⟩ := getElem?_modify_eq_some.mp ha
    subst hba
    have hused := h.usedUp j b hj (by simp) hb
    rw [isUsedUp_iff] at hused ⊢
    split
    · rename_i hij
      subst hij
      exact Nat.le_trans (hin b hb).2.2 hused
    · exact hused
  inside := (h.modify f fun a ha => ⟨(hin a ha).1, (hin a ha).2.1⟩).inside

/-- A further arena at the end keeps the marker right. -/
theorem Marked.push {a : Arena} (h : m.Marked) (hd : a.data ≠ 0) (hl : a.lastIndex ≤ a.capacity) :
    Marked { m with arenas := m.arenas ++ [a] } where
  le_count := by
    have := h.le_count
    simp only [List.length_append, List.length_singleton]
    omega
  usedUp i b hi _ hb := by
    have := h.le_count
    rw [List.getElem?_append_left (by simp only at hi; omega)] at hb
    exact h.usedUp i b hi (by simp) hb
  inside b hb := by
    rw [List.mem_append, List.mem_singleton] at hb
    rcases hb with hb | rfl
    · exact h.inside b hb
    · exact ⟨hd, hl⟩

/-- The scan leaves the marker right. -/
theorem Marked.scan (h : m.Marked) (n : Nat) : Marked { m with firstOpen := (m.scan n).1 } := by
  obtain ⟨k, hk, hmark, hused⟩ :=
    scanOpen_marker m.fullRemaining n (m.arenas.drop m.firstOpen) m.firstOpen
  rw [List.length_drop] at hk
  have hle := h.le_count
  have hscan : (m.scan n).1 = m.firstOpen + k := hmark
  refine ⟨by simp only [hscan]; omega, fun i a hi _ ha => ?_, h.inside⟩
  simp only [hscan] at hi ha ⊢
  by_cases hfront : i < m.firstOpen
  · exact h.usedUp i a hfront (by simp) ha
  · refine hused a (List.mem_iff_getElem?.mpr ⟨i - m.firstOpen, ?_⟩)
    rw [List.getElem?_take, if_pos (by omega), List.getElem?_drop,
      show m.firstOpen + (i - m.firstOpen) = i by omega]
    exact ha

/-! ## First fit -/

/-- First fit over the whole chain, used up arenas skipped. -/
def firstFit (n : Nat) (m : MultiArena) : Option Nat :=
  m.arenas.findIdx? fun a =>
    !isUsedUp a.remainingBytes m.fullRemaining && decide (n ≤ a.remainingBytes)

/-- Scanning from a marker that is right is first fit over the whole chain. -/
theorem Marked.scan_found (h : m.Marked) (n : Nat) : (m.scan n).2 = m.firstFit n := by
  have hskip : (m.arenas.take m.firstOpen).findIdx? (Arena.fits m.fullRemaining n) = none := by
    rw [List.findIdx?_eq_none_iff]
    intro a ha
    obtain ⟨i, hi⟩ := List.mem_iff_getElem?.mp ha
    rw [List.getElem?_take] at hi
    split at hi
    · have hused := h.usedUp i a (by assumption) (by simp) hi
      simp [Arena.fits, hused]
    · cases hi
  have hlen : (m.arenas.take m.firstOpen).length = m.firstOpen := by
    rw [List.length_take, Nat.min_eq_left h.le_count]
  calc (m.scan n).2
      = ((m.arenas.drop m.firstOpen).findIdx? (Arena.fits m.fullRemaining n)).map
          (· + m.firstOpen) := by rw [MultiArena.scan, scanOpen_found]
    _ = (m.arenas.take m.firstOpen ++ m.arenas.drop m.firstOpen).findIdx?
          (Arena.fits m.fullRemaining n) := by
        rw [List.findIdx?_append, hskip, Option.none_or, hlen]
    _ = m.firstFit n := by
        rw [List.take_append_drop]
        rfl

/-- An arena with room above the threshold is not passed by: the scan stops at it or before. -/
theorem firstFit_le {i n : Nat} {a : Arena} (hi : m.arenas[i]? = some a)
    (hopen : m.fullRemaining < a.remainingBytes) (hn : n ≤ a.remainingBytes) :
    ∃ j ≤ i, m.firstFit n = some j := by
  obtain ⟨hlt, rfl⟩ := List.getElem?_eq_some_iff.mp hi
  have hfit : Arena.fits m.fullRemaining n m.arenas[i] = true := by
    simp [Arena.fits, isUsedUp_eq_false.mpr hopen, hn]
  cases hfind : m.firstFit n with
  | none =>
      have hno := (List.findIdx?_eq_none_iff.mp hfind) m.arenas[i] (List.getElem_mem hlt)
      exact absurd hfit (by simpa [Arena.fits] using hno)
  | some j =>
      refine ⟨j, ?_, rfl⟩
      by_contra hji
      obtain ⟨_, _, hbefore⟩ := List.findIdx?_eq_some_iff_getElem.mp hfind
      exact absurd hfit (hbefore i (by omega))

/-! ## Every call keeps the marker right -/

theorem Marked.alloc (host : Host) (buffer n : Nat) (h : m.Marked) (hn : n ≠ 0) :
    (multiArenaAlloc host buffer n m).state.Marked := by
  rcases multiArenaAlloc_cases host buffer n m hn with
    ⟨-, -, -, hs⟩ | ⟨i, a, -, ha, hd, hroom, hr⟩ | ⟨-, a, hinit, hroom, hr⟩
  · rw [hs]
    exact h.scan n
  · rw [hr]
    have hle := (h.inside a (List.mem_of_getElem? ha)).2
    refine (h.scan n).fill (Arena.bump n) fun b hb => ?_
    rw [ha, Option.some.injEq] at hb
    subst hb
    unfold Arena.remainingBytes at *
    simp only [Arena.bump_data, Arena.bump_lastIndex, Arena.bump_capacity]
    exact ⟨hd, by omega, by omega⟩
  · rw [hr]
    obtain ⟨hcap, hmalloc, hdata, hlast, hcapacity⟩ := initArena_ok hinit
    unfold Arena.remainingBytes at hroom
    refine (h.scan n).push ?_ ?_
    · simpa [hdata] using hmalloc
    · simp only [Arena.bump_lastIndex, Arena.bump_capacity]
      omega

/-- Bytes of the arena at place `i` come back. -/
theorem Marked.giveBack (i k : Nat) (h : m.Marked) :
    ∃ m', Allocator.giveBack i k (.multiArena m) = .multiArena m' ∧ m'.Marked := by
  refine ⟨_, rfl, MarkedBut.reopen ?_⟩
  refine h.modify (Arena.rewind k) fun a ha => ?_
  obtain ⟨hd, hl⟩ := h.inside a (List.mem_of_getElem? ha)
  exact ⟨hd, Nat.le_trans (Nat.sub_le _ _) hl⟩

/-- Fewer arenas from the end on, the marker cut to them. -/
theorem Marked.cut {arenas : List Arena} (h : m.Marked) (hpre : arenas <+: m.arenas) :
    Marked { m with arenas := arenas, firstOpen := min m.firstOpen arenas.length } where
  le_count := Nat.min_le_right _ _
  usedUp i a hi _ ha := by
    simp only at hi ha
    refine h.usedUp i a (by omega) (by simp) ?_
    obtain ⟨rest, hrest⟩ := hpre
    rw [← hrest, List.getElem?_append_left (by omega)]
    exact ha
  inside a ha := h.inside a (hpre.subset ha)

theorem Marked.shrink (host : Host) (h : m.Marked) : (m.shrink host).2.Marked :=
  h.cut (List.rdropWhile_prefix _ _)

theorem Marked.borrow (host : Host) (data capacity : Nat) (h : m.Marked) :
    (m.borrow host data capacity).2.Marked := by
  unfold MultiArena.borrow
  split
  · exact h
  · split
    · exact h
    · cases hinit : initArenaBorrow data capacity with
      | error result => exact h
      | ok a =>
          obtain ⟨hd, -, -, hdata, hlast, -⟩ := initArenaBorrow_ok hinit
          simp only [multiArenaPush]
          cases host.refusal with
          | some refusal => exact h
          | none => exact h.push (hdata ▸ hd) (by omega)

end MultiArena

/-- The allocator is a chain whose marker is right. -/
def Allocator.MarkedChain (memory : Allocator) : Prop :=
  ∃ m, memory = .multiArena m ∧ m.Marked

namespace Allocator

variable {memory : Allocator}

theorem MarkedChain.giveBack (i k : Nat) (h : memory.MarkedChain) :
    (memory.giveBack i k).MarkedChain := by
  obtain ⟨m, rfl, hm⟩ := h
  exact hm.giveBack i k

theorem MarkedChain.claim {i k : Nat} (h : memory.MarkedChain)
    (hroom : ∀ m a, memory = .multiArena m → m.arenas[i]? = some a → k ≤ a.remainingBytes) :
    (memory.claim i k).MarkedChain := by
  obtain ⟨m, rfl, hm⟩ := h
  refine ⟨_, rfl, hm.fill (Arena.bump k) fun a ha => ?_⟩
  obtain ⟨hd, hl⟩ := hm.inside a (List.mem_of_getElem? ha)
  have hk := hroom m a rfl ha
  unfold Arena.remainingBytes at *
  simp only [Arena.bump_data, Arena.bump_lastIndex, Arena.bump_capacity]
  exact ⟨hd, by omega, by omega⟩

theorem MarkedChain.alloc (host : Host) (buffer size : Nat) (h : memory.MarkedChain) :
    (alloc host buffer size memory).state.MarkedChain := by
  obtain ⟨m, rfl, hm⟩ := h
  unfold Memory.alloc
  split
  · exact ⟨m, rfl, hm⟩
  · split
    · exact ⟨m, rfl, hm⟩
    · exact ⟨_, rfl, hm.alloc host buffer _ (by assumption)⟩

theorem MarkedChain.free (buffer size : Nat) (h : memory.MarkedChain) :
    (free buffer size memory).2.MarkedChain := by
  unfold Memory.free
  split
  · exact h
  · split
    · split <;> exact h
    · split
      · exact h.giveBack _ _
      · exact h

theorem MarkedChain.reset (h : memory.MarkedChain) : memory.reset.MarkedChain := by
  obtain ⟨m, rfl, hm⟩ := h
  refine ⟨_, rfl, Nat.zero_le _, fun i a hi => absurd hi (Nat.not_lt_zero _), fun a ha => ?_⟩
  obtain ⟨b, hb, rfl⟩ := List.mem_map.mp ha
  exact ⟨(hm.inside b hb).1, Nat.zero_le _⟩

theorem MarkedChain.release (h : memory.MarkedChain) : memory.release.MarkedChain := by
  obtain ⟨m, rfl, -⟩ := h
  exact ⟨_, rfl, Nat.le_refl _, fun i a hi => absurd hi (Nat.not_lt_zero _),
    fun a ha => absurd ha List.not_mem_nil⟩

end Allocator

theorem reallocNewest_markedChain (host : Host) (buffer oldSize oldAligned newAligned i : Nat)
    {a : Arena} {h : Heap} (hm : h.memory.MarkedChain)
    (ha : ∀ m, h.memory = .multiArena m → m.arenas[i]? = some a) :
    (reallocNewest host buffer oldSize oldAligned newAligned i a h).state.memory.MarkedChain := by
  unfold reallocNewest
  split
  · exact hm.giveBack _ _
  · split
    · refine hm.claim fun m b hchain hb => ?_
      rw [ha m hchain, Option.some.injEq] at hb
      subst hb
      assumption
    · obtain ⟨m, hchain, -⟩ := id hm
      simp only [hchain]
      have halloc := hm.alloc host 0 newAligned
      rw [hchain] at halloc
      split
      · exact halloc.giveBack _ _
      · exact halloc

theorem reallocBuried_markedChain (host : Host) (buffer oldSize oldAligned newAligned : Nat)
    {h : Heap} (hm : h.memory.MarkedChain) :
    (reallocBuried host buffer oldSize oldAligned newAligned h).state.memory.MarkedChain := by
  unfold reallocBuried
  have halloc := hm.alloc host 0 newAligned
  split
  · simp only
    split <;> exact halloc
  · exact hm

theorem realloc_markedChain (host : Host) (buffer oldSize newSize : Nat) {h : Heap}
    (hm : h.memory.MarkedChain) :
    (realloc host buffer oldSize newSize h).state.memory.MarkedChain := by
  unfold realloc
  split
  · exact hm
  · split
    · exact hm.free _ _
    · split
      · exact hm
      · cases hown : h.memory.owner buffer with
        | none =>
            simp only
            split
            · exact hm
            · exact reallocBuried_markedChain host _ _ _ _ hm
        | some found =>
            obtain ⟨i, a⟩ := found
            simp only
            split
            · refine reallocNewest_markedChain host _ _ _ _ i hm fun m hchain => ?_
              rw [hchain] at hown
              exact (MultiArena.findOwner_some hown).2.1
            · exact reallocBuried_markedChain host _ _ _ _ hm

/-- One call, whatever its arguments and whatever the host answers. -/
theorem call_markedChain (host : Host) {h : Heap} (c : Call) (hm : h.memory.MarkedChain) :
    (h.call host c).state.memory.MarkedChain := by
  obtain ⟨m, hchain, hmark⟩ := id hm
  cases c with
  | alloc size => exact hm.alloc host 0 size
  | clone src size =>
      simp only [Heap.call, clone]
      have halloc := hm.alloc host 0 size
      split
      · exact hm
      · split
        · exact hm
        · split <;> exact halloc
  | free buffer size => exact hm.free buffer size
  | realloc buffer oldSize newSize => exact realloc_markedChain host buffer oldSize newSize hm
  | reset => exact hm.reset
  | release => exact hm.release
  | reserve arenaCount =>
      simp only [Heap.call, hchain]
      exact ⟨m, rfl, hmark⟩
  | borrow data capacity =>
      simp only [Heap.call, hchain]
      exact ⟨_, rfl, hmark.borrow host data capacity⟩
  | shrink =>
      simp only [Heap.call, hchain]
      exact ⟨_, rfl, hmark.shrink host⟩

/-- The states of a chain: it is created, and then called in any way with any answers of the
host. -/
inductive ChainReachable : Heap → Prop where
  | create (host : Host) (options : MultiArenaOptions) (m : MultiArena) (bytes : Bytes)
      (created : createMultiArena host options = some m) : ChainReachable ⟨.multiArena m, bytes⟩
  | call (host : Host) (h : Heap) (c : Call) (reached : ChainReachable h) :
      ChainReachable (h.call host c).state

/-- The marker is right in every state of a chain. -/
theorem ChainReachable.markedChain {h : Heap} (hr : ChainReachable h) : h.memory.MarkedChain := by
  induction hr with
  | create host options m bytes created =>
      refine ⟨m, rfl, ?_⟩
      unfold createMultiArena at created
      split at created
      · cases created
        exact ⟨Nat.le_refl _, fun i a hi => absurd hi (Nat.not_lt_zero _),
          fun a ha => absurd ha List.not_mem_nil⟩
      · cases created
  | call host h c _ ih => exact call_markedChain host c ih

/-- In every state of a chain the marker is within it and every arena in front of the marker is
used up. Hence scanning from the marker chooses the arena that first fit over the whole chain
chooses, an allocation is served from that arena, and an arena to which a call gave room back
above the threshold is visited by the next scan: it stops there or at an earlier arena. -/
theorem chain_scan_is_first_fit {h : Heap} {m : MultiArena} (hr : ChainReachable h)
    (hm : h.memory = .multiArena m) :
    m.firstOpen ≤ m.arenas.length ∧
    (∀ i a, i < m.firstOpen → m.arenas[i]? = some a →
      isUsedUp a.remainingBytes m.fullRemaining = true) ∧
    (∀ n, (m.scan n).2 = m.firstFit n) ∧
    (∀ host n j, n ≠ 0 → m.firstFit n = some j →
      ∃ a, m.arenas[j]? = some a ∧ (multiArenaAlloc host 0 n m).result = .success ∧
        (multiArenaAlloc host 0 n m).buffer = a.data + a.lastIndex ∧
        (multiArenaAlloc host 0 n m).state.arenas = m.arenas.modify j (Arena.bump n)) ∧
    (∀ host c m' i a a', (h.call host c).state.memory = .multiArena m' →
      m.arenas[i]? = some a → m'.arenas[i]? = some a' →
      a.remainingBytes < a'.remainingBytes → m'.fullRemaining < a'.remainingBytes →
      m'.firstOpen ≤ i ∧ ∀ n ≤ a'.remainingBytes, ∃ j ≤ i, (m'.scan n).2 = some j) := by
  -- the marker is right in every state that can be reached
  have right : ∀ {h : Heap} {m : MultiArena}, ChainReachable h → h.memory = .multiArena m →
      m.Marked := by
    intro h m hr hm
    obtain ⟨m', hchain, hmark⟩ := hr.markedChain
    rw [hm, Allocator.multiArena.injEq] at hchain
    exact hchain ▸ hmark
  have hmark := right hr hm
  refine ⟨hmark.le_count, fun i a hi ha => hmark.usedUp i a hi (by simp) ha, hmark.scan_found,
    fun host n j hn hj => ?_, fun host c m' i a a' hm' _ ha' _ hopen => ?_⟩
  · rw [← hmark.scan_found] at hj
    obtain ⟨b, hb, hopen, hroom⟩ := MultiArena.scan_some hj
    rcases multiArenaAlloc_cases host 0 n m hn with
      ⟨-, -, hgone, -⟩ | ⟨i, a, hi, ha, -, -, hr⟩ | ⟨hnone, -⟩
    · exact absurd (hgone j b hj hb) (hmark.inside b (List.mem_of_getElem? hb)).1
    · rw [hj, Option.some.injEq] at hi
      subst hi
      rw [hr]
      exact ⟨a, ha, rfl, rfl, rfl⟩
    · rw [hj] at hnone
      cases hnone
  · have hmark' := right (hr.call host h c) hm'
    constructor
    · by_contra hlt
      have hused := hmark'.usedUp i a' (by omega) (by simp) ha'
      rw [isUsedUp_iff] at hused
      omega
    · intro n hn
      rw [hmark'.scan_found]
      exact MultiArena.firstFit_le ha' hopen hn

/-- A chain whose first arena was filled and passed by. -/
def sampleChain : MultiArena where
  arenas := [⟨4096, 1024, 1024, 0, .owned⟩, ⟨8192, 8, 1024, 0, .owned⟩]
  arenaCapacity := 1024
  arenaMaxCount := 0
  fullRemaining := 64
  firstOpen := 1

theorem chainReachable_sampleChain : ChainReachable ⟨.multiArena sampleChain, fun _ => 0⟩ :=
  .call (Host.answering 8192) _ (.alloc 8)
    (.call (Host.answering 4096) _ (.alloc 1024)
      (.create (Host.answering 0) ⟨0, 0, 0, 0, 0⟩ ⟨[], 1024, 0, 64, 0⟩ (fun _ => 0) (by decide)))

theorem chain_scan_is_first_fit_sample :
    (∀ n, (sampleChain.scan n).2 = sampleChain.firstFit n) ∧
    ∃ m', ((⟨.multiArena sampleChain, fun _ => 0⟩ : Heap).call (Host.answering 0)
        (.free 4096 1024)).state.memory = .multiArena m' ∧
      m'.firstOpen = 0 ∧ ∃ j ≤ 0, (m'.scan 512).2 = some j := by
  obtain ⟨-, -, hscan, -, hback⟩ := chain_scan_is_first_fit chainReachable_sampleChain rfl
  refine ⟨hscan, _, rfl, rfl, ?_⟩
  exact (hback (Host.answering 0) (.free 4096 1024) _ 0 _ _ rfl rfl rfl (by decide) (by decide)).2
    512 (by decide)

end Arnm.Memory
