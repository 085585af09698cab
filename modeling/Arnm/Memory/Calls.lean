import Arnm.Memory.Arena

set_option autoImplicit false

/-! # What the calls of the allocator do

One lemma for each function of `Arnm.Memory.Arena` that says everything it can do; the proofs
about runs go through these and do not unfold the functions. -/

namespace Arnm.Memory

/-- What a list holds at a place once one of its places was changed. -/
theorem getElem?_modify_eq_some {α : Type} {l : List α} {f : α → α} {i j : Nat} {a : α} :
    (l.modify i f)[j]? = some a ↔ ∃ b, l[j]? = some b ∧ (if i = j then f b else b) = a := by
  rw [List.getElem?_modify, Option.map_eq_map, Option.map_eq_some_iff]

/-- Writing the image of what a place holds is changing that place. -/
theorem set_eq_modify {α : Type} {l : List α} (f : α → α) {i : Nat} {a : α} (h : l[i]? = some a) :
    l.set i (f a) = l.modify i f := by
  obtain ⟨hlt, rfl⟩ := List.getElem?_eq_some_iff.mp h
  refine List.ext_getElem (by simp) fun j hj _ => ?_
  rw [List.getElem_set, List.getElem_modify]
  split
  · rename_i hij
    subst hij
    rfl
  · rfl

/-- Two changes of a place that agree on what it holds are the same. -/
theorem modify_congr {α : Type} {l : List α} {f g : α → α} {i : Nat} {a : α}
    (h : l[i]? = some a) (hfg : f a = g a) : l.modify i f = l.modify i g := by
  rw [← set_eq_modify f h, ← set_eq_modify g h, hfg]

/-- Changing the last place of a list. -/
theorem modify_append_singleton {α : Type} (l : List α) (a : α) (f : α → α) :
    (l ++ [a]).modify l.length f = l ++ [f a] := by
  have hlast : (l ++ [a])[l.length]? = some a := by simp
  rw [← set_eq_modify f hlast, List.set_append_right _ _ (Nat.le_refl _), Nat.sub_self]
  rfl

/-! ## One arena -/

/-- `last_index` moved forward. -/
def Arena.bump (n : Nat) (a : Arena) : Arena := { a with lastIndex := a.lastIndex + n }

/-- `last_index` moved back. -/
def Arena.rewind (n : Nat) (a : Arena) : Arena := { a with lastIndex := a.lastIndex - n }

@[simp] theorem Arena.bump_data (n : Nat) (a : Arena) : (a.bump n).data = a.data := rfl

@[simp] theorem Arena.bump_capacity (n : Nat) (a : Arena) :
    (a.bump n).capacity = a.capacity := rfl

@[simp] theorem Arena.bump_lastIndex (n : Nat) (a : Arena) :
    (a.bump n).lastIndex = a.lastIndex + n := rfl

@[simp] theorem Arena.rewind_data (n : Nat) (a : Arena) : (a.rewind n).data = a.data := rfl

@[simp] theorem Arena.rewind_capacity (n : Nat) (a : Arena) :
    (a.rewind n).capacity = a.capacity := rfl

@[simp] theorem Arena.rewind_lastIndex (n : Nat) (a : Arena) :
    (a.rewind n).lastIndex = a.lastIndex - n := rfl

theorem Arena.remainingBytes_bump {a : Arena} {n : Nat} (h : n ≤ a.remainingBytes) :
    a.remainingBytes = n + (a.bump n).remainingBytes := by
  simp only [Arena.remainingBytes, Arena.bump_lastIndex, Arena.bump_capacity] at h ⊢
  omega

/-- Giving a block back and taking a larger one at its place is moving `last_index` forward. -/
theorem Arena.bump_rewind {a : Arena} {k n : Nat} (hk : k ≤ a.lastIndex) (hn : k ≤ n) :
    (a.rewind k).bump n = a.bump (n - k) := by
  simp only [Arena.bump, Arena.rewind, Arena.mk.injEq, true_and, and_true]
  omega

/-- Giving a block back and taking a smaller one at its place is moving `last_index` back. -/
theorem Arena.bump_rewind_of_le {a : Arena} {k n : Nat} (hk : k ≤ a.lastIndex) (hn : n ≤ k) :
    (a.rewind k).bump n = a.rewind (k - n) := by
  simp only [Arena.bump, Arena.rewind, Arena.mk.injEq, true_and, and_true]
  omega

theorem accountCapacityExceeded_snd (n : Nat) (a : Arena) :
    ∃ total, (accountCapacityExceeded n a).2 = { a with outOfMemoryCapacity := total } := by
  unfold accountCapacityExceeded
  split
  · exact ⟨_, rfl⟩
  · exact ⟨_, rfl⟩

/-- An arena refuses and counts, or hands out its next bytes. -/
theorem arenaAllocAligned_cases (buffer n : Nat) (a : Arena) :
    ((arenaAllocAligned buffer n a).result.isError = true ∧
      (arenaAllocAligned buffer n a).buffer = buffer ∧
      (a.remainingBytes < n ∨ a.data = 0) ∧
      ∃ total, (arenaAllocAligned buffer n a).state = { a with outOfMemoryCapacity := total }) ∨
    (a.data ≠ 0 ∧ n ≤ a.remainingBytes ∧
      arenaAllocAligned buffer n a = ⟨.success, a.data + a.lastIndex, a.bump n⟩) := by
  unfold arenaAllocAligned accountCapacityExceeded
  by_cases hd : a.data = 0
  · rw [if_pos hd]
    exact Or.inl ⟨rfl, rfl, Or.inr hd, a.outOfMemoryCapacity, rfl⟩
  · rw [if_neg hd]
    by_cases hn : a.remainingBytes < n
    · rw [if_pos hn]
      exact Or.inl ⟨rfl, rfl, Or.inl hn, _, rfl⟩
    · rw [if_neg hn]
      exact Or.inr ⟨hd, by omega, rfl⟩

/-- A fresh arena is empty, at the address the host answered, with the capacity rounded up. -/
theorem initArena_ok {host : Host} {capacity : Nat} {a : Arena}
    (h : initArena host capacity = .ok a) :
    align8U32 capacity ≠ 0 ∧ host.malloc (align8U32 capacity) ≠ 0 ∧
      a.data = host.malloc (align8U32 capacity) ∧ a.lastIndex = 0 ∧
      a.capacity = align8U32 capacity := by
  unfold initArena at h
  split at h
  · cases h
  · split at h
    · cases h
    · split at h
      · cases h
      · cases h
        exact ⟨by assumption, by assumption, rfl, rfl, rfl⟩

theorem initArena_error {host : Host} {capacity : Nat} {result : Result}
    (h : initArena host capacity = .error result) : result.isError = true := by
  unfold initArena at h
  split at h
  · cases h; rfl
  · split at h
    · cases h; rfl
    · split at h
      · cases h; rfl
      · cases h

/-- A borrowed arena is empty, over the buffer as it was given; the buffer is aligned. -/
theorem initArenaBorrow_ok {data capacity : Nat} {a : Arena}
    (h : initArenaBorrow data capacity = .ok a) :
    data ≠ 0 ∧ 8 ∣ data ∧ 8 ∣ capacity ∧ a.data = data ∧ a.lastIndex = 0 ∧
      a.capacity = capacity := by
  unfold initArenaBorrow at h
  split at h
  · cases h
  · split at h
    · cases h
    · split at h
      · cases h
      · split at h
        · cases h
        · rename_i hd _ _ hfit
          cases h
          rw [not_or, not_not, not_not] at hfit
          have hcap : 8 ∣ capacity := hfit.1 ▸ align8U32_dvd capacity
          refine ⟨hd, ?_, hcap, rfl, rfl, hfit.1⟩
          have hdata := hfit.2
          unfold align8 at hdata
          omega

/-- An aligned buffer of an aligned capacity is taken as it is. -/
theorem initArenaBorrow_eq {data capacity : Nat} (hd : data ≠ 0) (hdata : 8 ∣ data)
    (hcap : 8 ∣ capacity) (hne : capacity ≠ 0) (hle : capacity ≤ maxAllocSize) :
    initArenaBorrow data capacity = .ok ⟨data, 0, capacity, 0, .external⟩ := by
  have halign := align8U32_of_dvd hcap hle
  have hsame : align8 data = data := by
    unfold align8
    omega
  unfold initArenaBorrow
  rw [if_neg hd, if_neg hne, halign, if_neg hne, hsame, if_neg (by simp)]

/-! ## The scan of a chain -/

/-- The arena is not written off and has room for the request. -/
def Arena.fits (fullRemaining n : Nat) (a : Arena) : Bool :=
  !isUsedUp a.remainingBytes fullRemaining && decide (n ≤ a.remainingBytes)

/-- The scan finds the first arena that fits. -/
theorem scanOpen_found (fullRemaining n : Nat) (l : List Arena) (f i : Nat) :
    (scanOpen fullRemaining n l f i).2 = (l.findIdx? (Arena.fits fullRemaining n)).map (· + i) := by
  induction l generalizing f i with
  | nil => rfl
  | cons a l ih =>
      unfold scanOpen
      rw [List.findIdx?_cons]
      by_cases hu : isUsedUp a.remainingBytes fullRemaining
      · have hfit : a.fits fullRemaining n = false := by simp [Arena.fits, hu]
        rw [if_pos hu, ih, hfit, if_neg Bool.false_ne_true, Option.map_map]
        congr 1
        funext k
        simp only [Function.comp_apply]
        omega
      · rw [if_neg hu]
        by_cases hn : n ≤ a.remainingBytes
        · have hfit : a.fits fullRemaining n = true := by simp [Arena.fits, hu, hn]
          rw [if_pos hn, if_pos hfit, Option.map_some, Nat.zero_add]
        · have hfit : a.fits fullRemaining n = false := by simp [Arena.fits, hn]
          rw [if_neg hn, ih, hfit, if_neg Bool.false_ne_true, Option.map_map]
          congr 1
          funext k
          simp only [Function.comp_apply]
          omega

theorem scanOpen_marker_of_lt (fullRemaining n : Nat) (l : List Arena) {f i : Nat} (h : f < i) :
    (scanOpen fullRemaining n l f i).1 = f := by
  induction l generalizing i with
  | nil => rfl
  | cons a l ih =>
      unfold scanOpen
      rw [if_neg (Nat.ne_of_gt h)]
      split
      · exact ih (Nat.lt_succ_of_lt h)
      · split
        · rfl
        · exact ih (Nat.lt_succ_of_lt h)

/-- The marker walks over the used up arenas at the front of the scan. -/
theorem scanOpen_marker (fullRemaining n : Nat) (l : List Arena) (i : Nat) :
    ∃ k ≤ l.length, (scanOpen fullRemaining n l i i).1 = i + k ∧
      ∀ a ∈ l.take k, isUsedUp a.remainingBytes fullRemaining = true := by
  induction l generalizing i with
  | nil => exact ⟨0, Nat.le_refl _, rfl, fun a ha => by simp at ha⟩
  | cons a l ih =>
      unfold scanOpen
      rw [if_pos rfl]
      by_cases hu : isUsedUp a.remainingBytes fullRemaining
      · rw [if_pos hu]
        obtain ⟨k, hk, hmark, hused⟩ := ih (i + 1)
        refine ⟨k + 1, by simpa using hk, by rw [hmark]; omega, ?_⟩
        intro b hb
        rw [List.take_succ_cons, List.mem_cons] at hb
        rcases hb with rfl | hb
        · exact hu
        · exact hused b hb
      · rw [if_neg hu]
        refine ⟨0, Nat.zero_le _, ?_, fun b hb => by simp at hb⟩
        split
        · rfl
        · exact scanOpen_marker_of_lt fullRemaining n l (Nat.lt_succ_self i)

/-- The scan of `multi_arena_alloc` on a chain. -/
def MultiArena.scan (n : Nat) (m : MultiArena) : Nat × Option Nat :=
  scanOpen m.fullRemaining n (m.arenas.drop m.firstOpen) m.firstOpen m.firstOpen

/-- The arena a scan chose is open and has room. -/
theorem MultiArena.scan_some {m : MultiArena} {n i : Nat} (h : (m.scan n).2 = some i) :
    ∃ a, m.arenas[i]? = some a ∧ isUsedUp a.remainingBytes m.fullRemaining = false ∧
      n ≤ a.remainingBytes := by
  rw [MultiArena.scan, scanOpen_found, Option.map_eq_some_iff] at h
  obtain ⟨k, hk, rfl⟩ := h
  obtain ⟨hlt, hfit, -⟩ := List.findIdx?_eq_some_iff_getElem.mp hk
  rw [List.length_drop] at hlt
  rw [List.getElem_drop] at hfit
  refine ⟨m.arenas[m.firstOpen + k], ?_, ?_⟩
  · rw [Nat.add_comm k]
    exact List.getElem?_eq_getElem (by omega)
  · simpa [Arena.fits] using hfit

/-- The arena the scan chose hands the bytes out, unless its handle was emptied. -/
theorem multiArenaAlloc_found (host : Host) (buffer : Nat) {n i : Nat} {m : MultiArena}
    (hn : n ≠ 0) (hfound : (m.scan n).2 = some i) :
    let r := multiArenaAlloc host buffer n m
    ∃ a, m.arenas[i]? = some a ∧ n ≤ a.remainingBytes ∧
      ((r.result.isError = true ∧ r.buffer = buffer ∧ a.data = 0 ∧
        r.state = { m with firstOpen := (m.scan n).1 }) ∨
      (a.data ≠ 0 ∧ r = ⟨.success, a.data + a.lastIndex,
        { m with firstOpen := (m.scan n).1, arenas := m.arenas.modify i (Arena.bump n) }⟩)) := by
  intro r
  have hr : r = multiArenaAlloc host buffer n m := rfl
  obtain ⟨a, ha, hopen, hroom⟩ := MultiArena.scan_some hfound
  unfold multiArenaAlloc at hr
  rw [if_neg hn] at hr
  simp only [← MultiArena.scan.eq_def, hfound, MultiArena.allocAt, ha] at hr
  refine ⟨a, ha, hroom, ?_⟩
  rcases arenaAllocAligned_cases buffer n a with ⟨herr, hbuf, hwhy, -⟩ | ⟨hd, -, hok⟩
  · -- only a handle somebody has emptied by hand gets here
    have hd : a.data = 0 := by omega
    have hsame : (arenaAllocAligned buffer n a).state = a := by
      rw [arenaAllocAligned, if_pos hd]
    left
    rw [hr]
    refine ⟨herr, hbuf, hd, ?_⟩
    obtain ⟨hlt, rfl⟩ := List.getElem?_eq_some_iff.mp ha
    simp only [hsame, List.set_getElem_self]
  · right
    refine ⟨hd, ?_⟩
    rw [hr, hok, ← set_eq_modify (Arena.bump n) ha]

/-- Where the scan finds no arena a fresh one is opened, or the request is refused. -/
theorem multiArenaAlloc_fresh (host : Host) (buffer : Nat) {n : Nat} {m : MultiArena}
    (hn : n ≠ 0) (hfound : (m.scan n).2 = none) :
    let r := multiArenaAlloc host buffer n m
    (r.result.isError = true ∧ r.buffer = buffer ∧
      r.state = { m with firstOpen := (m.scan n).1 }) ∨
    ∃ a, initArena host (max m.arenaCapacity n) = .ok a ∧ n ≤ a.remainingBytes ∧
      r = ⟨.success, a.data + a.lastIndex,
        { m with firstOpen := (m.scan n).1, arenas := m.arenas ++ [a.bump n] }⟩ := by
  intro r
  have hr : r = multiArenaAlloc host buffer n m := rfl
  unfold multiArenaAlloc at hr
  rw [if_neg hn] at hr
  simp only [← MultiArena.scan.eq_def, hfound] at hr
  split at hr
  · left
    rw [hr]
    exact ⟨rfl, rfl, rfl⟩
  · cases hinit : initArena host (max m.arenaCapacity n) with
    | error result =>
        simp only [hinit] at hr
        left
        rw [hr]
        exact ⟨initArena_error hinit, rfl, rfl⟩
    | ok a =>
        simp only [hinit, multiArenaPush] at hr
        cases hrefuse : host.refusal with
        | some refusal =>
            left
            simp only [hrefuse] at hr
            have hres := refusal.isError
            split at hr
            · rename_i heq
              rw [Prod.mk.injEq] at heq
              rw [heq.1] at hres
              cases hres
            · rename_i heq
              rw [Prod.mk.injEq] at heq
              obtain ⟨rfl, rfl⟩ := heq
              rw [hr]
              exact ⟨hres, rfl, rfl⟩
        | none =>
            right
            obtain ⟨hcap, hmalloc, hdata, hlast, hcapacity⟩ := initArena_ok hinit
            have hle := le_align8U32 hcap
            have hroom : n ≤ a.remainingBytes := by
              rw [Arena.remainingBytes, hlast, hcapacity]
              omega
            have hback : (m.arenas ++ [a])[m.arenas.length]? = some a := by simp
            refine ⟨a, rfl, hroom, ?_⟩
            simp only [hrefuse, MultiArena.allocAt, List.length_append, List.length_singleton,
              Nat.add_sub_cancel, hback] at hr
            rcases arenaAllocAligned_cases buffer n a with ⟨-, -, hwhy, -⟩ | ⟨-, -, hok⟩
            · omega
            · rw [hr, hok]
              simp

/-- What `multi_arena_alloc` can do: refuse, take from the arena the scan chose, or open a fresh
one. The marker is where the scan left it. -/
theorem multiArenaAlloc_cases (host : Host) (buffer n : Nat) (m : MultiArena) (hn : n ≠ 0) :
    let r := multiArenaAlloc host buffer n m
    (r.result.isError = true ∧ r.buffer = buffer ∧
      (∀ i a, (m.scan n).2 = some i → m.arenas[i]? = some a → a.data = 0) ∧
      r.state = { m with firstOpen := (m.scan n).1 }) ∨
    (∃ i a, (m.scan n).2 = some i ∧ m.arenas[i]? = some a ∧ a.data ≠ 0 ∧
      n ≤ a.remainingBytes ∧
      r = ⟨.success, a.data + a.lastIndex,
        { m with firstOpen := (m.scan n).1, arenas := m.arenas.modify i (Arena.bump n) }⟩) ∨
    ((m.scan n).2 = none ∧
      ∃ a, initArena host (max m.arenaCapacity n) = .ok a ∧ n ≤ a.remainingBytes ∧
        r = ⟨.success, a.data + a.lastIndex,
          { m with firstOpen := (m.scan n).1, arenas := m.arenas ++ [a.bump n] }⟩) := by
  intro r
  cases hfound : (m.scan n).2 with
  | some i =>
      obtain ⟨a, ha, hroom, ⟨herr, hbuf, hd, hstate⟩ | ⟨hd, hr⟩⟩ :=
        multiArenaAlloc_found host buffer hn hfound
      · left
        refine ⟨herr, hbuf, fun j b hj hb => ?_, hstate⟩
        cases hj
        cases ha.symm.trans hb
        exact hd
      · right
        left
        exact ⟨i, a, rfl, ha, hd, hroom, hr⟩
  | none =>
      rcases multiArenaAlloc_fresh host buffer hn hfound with ⟨herr, hbuf, hstate⟩ | hopened
      · left
        refine ⟨herr, hbuf, ?_, hstate⟩
        nofun
      · right
        right
        exact ⟨rfl, hopened⟩

/-! ## The owner of an address -/

theorem MultiArena.mem_ownerOrder {m : MultiArena} {i : Nat} :
    i ∈ m.ownerOrder ↔ i < m.arenas.length := by
  unfold MultiArena.ownerOrder
  simp only [List.mem_map, List.mem_range]
  constructor
  · rintro ⟨seen, hseen, rfl⟩
    split <;> split <;> omega
  · intro hi
    by_cases hstart : m.firstOpen < m.arenas.length
    · simp only [if_pos hstart]
      by_cases hle : m.firstOpen ≤ i
      · exact ⟨i - m.firstOpen, by omega, by rw [if_neg (by omega)]; omega⟩
      · exact ⟨i + m.arenas.length - m.firstOpen, by omega, by rw [if_pos (by omega)]; omega⟩
    · simp only [if_neg hstart]
      exact ⟨i, hi, by rw [if_neg (by omega)]; omega⟩

theorem MultiArena.findOwner_some {m : MultiArena} {buffer i : Nat} {a : Arena}
    (h : m.findOwner buffer = some (i, a)) :
    buffer ≠ 0 ∧ m.arenas[i]? = some a ∧ a.spans buffer = true := by
  unfold MultiArena.findOwner at h
  split at h
  · cases h
  · obtain ⟨k, -, hk⟩ := List.exists_of_findSome?_eq_some h
    rw [Option.bind_eq_some_iff] at hk
    obtain ⟨b, hb, hspan⟩ := hk
    split at hspan
    · rw [Option.some.injEq, Prod.mk.injEq] at hspan
      obtain ⟨rfl, rfl⟩ := hspan
      exact ⟨by assumption, hb, by assumption⟩
    · cases hspan

/-- Some arena is found for an address that one of them spans. -/
theorem MultiArena.findOwner_isSome {m : MultiArena} {buffer i : Nat} {a : Arena}
    (hb : buffer ≠ 0) (hi : m.arenas[i]? = some a) (hspan : a.spans buffer = true) :
    ∃ j b, m.findOwner buffer = some (j, b) := by
  have hmem : i ∈ m.ownerOrder := by
    rw [MultiArena.mem_ownerOrder]
    exact (List.getElem?_eq_some_iff.mp hi).1
  have hsome : (m.findOwner buffer).isSome := by
    unfold MultiArena.findOwner
    rw [if_neg hb, List.findSome?_isSome_iff]
    exact ⟨i, hmem, by simp [hi, hspan]⟩
  obtain ⟨⟨j, b⟩, hjb⟩ := Option.isSome_iff_exists.mp hsome
  exact ⟨j, b, hjb⟩

theorem Arena.spans_iff {a : Arena} {buffer : Nat} :
    a.spans buffer = true ↔ a.data ≠ 0 ∧ a.data ≤ buffer ∧ buffer < a.data + a.capacity := by
  unfold Arena.spans
  simp only [Bool.and_eq_true, decide_eq_true_eq]
  omega

theorem Arena.isReclaimable_iff {a : Arena} {buffer n : Nat} :
    a.isReclaimable buffer n = true ↔
      buffer ≠ 0 ∧ n ≠ 0 ∧ a.data + a.lastIndex = buffer + n := by
  unfold Arena.isReclaimable
  simp only [Bool.and_eq_true, decide_eq_true_eq, beq_iff_eq]
  omega

/-! ## A single arena and a chain alike -/

/-- The arenas of an allocator: one, or those of the chain. -/
def Allocator.arenas : Allocator → List Arena
  | .arena a => [a]
  | .multiArena m => m.arenas

/-- Another value of the overflow counter. -/
def Arena.recount (total : Nat) (a : Arena) : Arena := { a with outOfMemoryCapacity := total }

@[simp] theorem MultiArena.reopen_arenas (m : MultiArena) (i : Nat) :
    (m.reopen i).arenas = m.arenas := by
  unfold MultiArena.reopen
  split
  · split <;> rfl
  · rfl

theorem Allocator.giveBack_arenas {memory : Allocator} {i : Nat} (k : Nat)
    (hi : i < memory.arenas.length) :
    (memory.giveBack i k).arenas = memory.arenas.modify i (Arena.rewind k) := by
  cases memory with
  | arena a =>
      have hz : i = 0 := by simpa [Allocator.arenas] using hi
      subst hz
      rfl
  | multiArena m =>
      simp only [Allocator.giveBack, Allocator.arenas, MultiArena.reopen_arenas]
      rfl

theorem Allocator.claim_arenas {memory : Allocator} {i : Nat} (k : Nat)
    (hi : i < memory.arenas.length) :
    (memory.claim i k).arenas = memory.arenas.modify i (Arena.bump k) := by
  cases memory with
  | arena a =>
      have hz : i = 0 := by simpa [Allocator.arenas] using hi
      subst hz
      rfl
  | multiArena m => rfl

/-- A chain stays a chain. -/
theorem alloc_multiArena (host : Host) (buffer size : Nat) (m : MultiArena) :
    ∃ m', (alloc host buffer size (.multiArena m)).state = .multiArena m' := by
  unfold alloc
  split
  · exact ⟨m, rfl⟩
  · split
    · exact ⟨m, rfl⟩
    · exact ⟨_, rfl⟩

/-- What `arnm_alloc` can do: refuse, take from one of the arenas, or open a fresh one. -/
theorem alloc_cases (host : Host) (buffer size : Nat) (memory : Allocator) :
    let r := alloc host buffer size memory
    (r.result.isError = true ∧ r.buffer = buffer ∧
      ∃ i total, r.state.arenas = memory.arenas.modify i (Arena.recount total)) ∨
    (align8U32 size ≠ 0 ∧ r.result = .success ∧
      ∃ i a, memory.arenas[i]? = some a ∧ align8U32 size ≤ a.remainingBytes ∧
        r.buffer = a.data + a.lastIndex ∧
        r.state.arenas = memory.arenas.modify i (Arena.bump (align8U32 size))) ∨
    (align8U32 size ≠ 0 ∧ r.result = .success ∧
      ∃ capacity a, initArena host capacity = .ok a ∧ align8U32 size ≤ a.remainingBytes ∧
        r.buffer = a.data + a.lastIndex ∧
        r.state.arenas = memory.arenas ++ [a.bump (align8U32 size)]) := by
  intro r
  have hr : r = alloc host buffer size memory := rfl
  -- a refusal that recounts nothing recounts an arena that is not there
  have hsame : memory.arenas =
      memory.arenas.modify memory.arenas.length (Arena.recount 0) := by
    rw [List.modify_eq_self (Nat.le_refl _)]
  unfold alloc at hr
  split at hr
  · left
    rw [hr]
    exact ⟨rfl, rfl, _, _, hsame⟩
  · split at hr
    · left
      rw [hr]
      exact ⟨rfl, rfl, _, _, hsame⟩
    · rename_i hne
      cases memory with
      | arena a =>
          simp only at hr
          rcases arenaAllocAligned_cases buffer (align8U32 size) a with
            ⟨herr, hbuf, -, total, hst⟩ | ⟨-, hroom, hok⟩
          · left
            rw [hr]
            exact ⟨herr, hbuf, 0, total, by simp only [hst]; rfl⟩
          · right
            left
            rw [hr, hok]
            exact ⟨hne, rfl, 0, a, rfl, hroom, rfl, rfl⟩
      | multiArena m =>
          simp only at hr
          rcases multiArenaAlloc_cases host buffer (align8U32 size) m hne with
            ⟨herr, hbuf, -, hst⟩ | ⟨i, a, -, ha, -, hroom, hok⟩ | ⟨-, a, hinit, hroom, hok⟩
          · left
            rw [hr]
            exact ⟨herr, hbuf, _, _, by simp only [hst]; exact hsame⟩
          · right
            left
            rw [hr, hok]
            exact ⟨hne, rfl, i, a, ha, hroom, rfl, rfl⟩
          · right
            right
            rw [hr, hok]
            exact ⟨hne, rfl, _, a, hinit, hroom, rfl, rfl⟩

end Arnm.Memory
