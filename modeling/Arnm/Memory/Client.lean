import Arnm.Memory.Blocks

set_option autoImplicit false

/-! # Runs of a client

The states an allocator and the blocks held from it go through under a client that frees and
resizes only blocks it holds. Every call keeps the arenas and the blocks sound, one lemma for
each function, and so does every run. -/

namespace Arnm.Memory

/-- An allocator with its bytes, and the blocks held from it. -/
structure State where
  heap : Heap
  held : List Block

/-- The buffers the host answers are aligned and lie apart from the arenas there are. -/
def Fresh (host : Host) (arenas : List Arena) : Prop :=
  ∀ n < 2 ^ 32, host.malloc n ≠ 0 →
    8 ∣ host.malloc n ∧ host.malloc n + n ≤ 2 ^ 64 ∧
      ∀ a ∈ arenas, a.region.Apart ⟨host.malloc n, n⟩

/-- The client passes only blocks it holds, with the size they go by, or no block at all. It lends
a chain only buffers apart from its arenas, and does not release the allocator. -/
def Honest (s : State) : Call → Prop
  | .free buffer size => buffer = 0 ∨ ⟨buffer, size⟩ ∈ s.held
  | .realloc buffer oldSize _ => buffer = 0 ∨ ⟨buffer, oldSize⟩ ∈ s.held
  | .borrow data capacity =>
    data + capacity ≤ 2 ^ 64 ∧ ∀ a ∈ s.heap.memory.arenas, a.region.Apart ⟨data, capacity⟩
  | .release => False
  | _ => True

/-- The blocks the client holds after a call was answered. -/
def ledger (held : List Block) (r : Answer Heap) : Call → List Block
  | .alloc size => if r.result = .success then ⟨r.buffer, size⟩ :: held else held
  | .clone _ size => if r.result = .success then ⟨r.buffer, size⟩ :: held else held
  | .free buffer size => if r.result.isError then held else held.erase ⟨buffer, size⟩
  | .realloc buffer oldSize newSize =>
    if r.result.isError then held
    else if newSize = 0 then held.erase ⟨buffer, oldSize⟩
    -- a shrink that could not be carried out leaves the block at its old size
    else if r.result = .warningArenaMemoryNotReclaimed ∧ newSize < oldSize then held
    else if r.buffer = 0 then held
    else ⟨r.buffer, newSize⟩ :: held.erase ⟨buffer, oldSize⟩
  | .reset => []
  | .release => []
  | _ => held

/-- The state after a call. -/
def State.call (host : Host) (s : State) (c : Call) : State :=
  { heap := (s.heap.call host c).state, held := ledger s.held (s.heap.call host c) c }

/-- The states of a single arena or a chain: it is set up, then its client calls it and writes
bytes. -/
inductive Reachable : State → Prop where
  | arena (host : Host) (capacity : Nat) (a : Arena) (bytes : Bytes) (fresh : Fresh host [])
      (made : initArena host capacity = .ok a) : Reachable ⟨⟨.arena a, bytes⟩, []⟩
  | borrowed (data capacity : Nat) (a : Arena) (bytes : Bytes) (stop : data + capacity ≤ 2 ^ 64)
      (made : initArenaBorrow data capacity = .ok a) : Reachable ⟨⟨.arena a, bytes⟩, []⟩
  | chain (host : Host) (options : MultiArenaOptions) (m : MultiArena) (bytes : Bytes)
      (made : createMultiArena host options = some m) : Reachable ⟨⟨.multiArena m, bytes⟩, []⟩
  | call (host : Host) (s : State) (c : Call) (reached : Reachable s)
      (fresh : Fresh host s.heap.memory.arenas) (honest : Honest s c) : Reachable (s.call host c)
  | write (s : State) (bytes : Bytes) (reached : Reachable s) :
      Reachable { s with heap := { s.heap with bytes := bytes } }

/-- The arenas and the blocks of the state are sound. -/
abbrev State.Sound (s : State) : Prop := Memory.Sound s.heap.memory.arenas s.held

/-! ## Fresh arenas -/

theorem Fresh.arena_sound {host : Host} {arenas : List Arena} {capacity : Nat} {a : Arena}
    (h : Fresh host arenas) (made : initArena host capacity = .ok a) :
    a.Sound ∧ ∀ b ∈ arenas, b.region.Apart a.region := by
  obtain ⟨-, hmalloc, hdata, hlast, hcap⟩ := initArena_ok made
  have hlt : align8U32 capacity < 2 ^ 32 := by
    have := align8U32_le capacity
    unfold maxAllocSize at this
    omega
  obtain ⟨hdvd, hstop, hapart⟩ := h _ hlt hmalloc
  constructor
  · exact ⟨hdata ▸ hmalloc, hdata ▸ hdvd, by omega, by omega, by omega⟩
  · rw [Arena.region, hdata, hcap]
    exact hapart

/-- A buffer above the arenas there are is fresh. -/
theorem Host.answering_fresh {addr : Nat} (haddr : 8 ∣ addr) (hstop : addr + 2048 ≤ 2 ^ 64)
    {arenas : List Arena} (hlow : ∀ a ∈ arenas, a.data + a.capacity ≤ addr) :
    Fresh (Host.answering addr) arenas := by
  intro n _ hne
  simp only [Host.answering] at hne ⊢
  split at hne
  · rename_i hn
    rw [if_pos hn]
    exact ⟨haddr, by omega, fun a ha => Or.inl (hlow a ha)⟩
  · exact absurd rfl hne

theorem borrow_sound {data capacity : Nat} {a : Arena} (stop : data + capacity ≤ 2 ^ 64)
    (made : initArenaBorrow data capacity = .ok a) :
    a.Sound ∧ a.region = ⟨data, capacity⟩ := by
  obtain ⟨hd, hdvd, -, hdata, hlast, hcap⟩ := initArenaBorrow_ok made
  constructor
  · exact ⟨hdata ▸ hd, hdata ▸ hdvd, by omega, by omega, by omega⟩
  · rw [Arena.region, hdata, hcap]

/-- No arenas and no blocks. -/
theorem sound_nil : Sound [] [] where
  arena _ ha := absurd ha List.not_mem_nil
  apart := List.Pairwise.nil
  size_ne _ hb := absurd hb List.not_mem_nil
  addr_dvd _ hb := absurd hb List.not_mem_nil
  within _ hb := absurd hb List.not_mem_nil
  heldApart := List.Pairwise.nil

/-! ## The owner of a block -/

/-- A block is found in the arena it lies in. -/
theorem Sound.owner {memory : Allocator} {held : List Block} (h : Sound memory.arenas held)
    {b : Block} (hb : b ∈ held) :
    ∃ i a, memory.owner b.addr = some (i, a) ∧ memory.arenas[i]? = some a ∧
      b.room.Within a.used := by
  obtain ⟨j, c, hj, hin⟩ := h.within b hb
  cases memory with
  | arena a =>
      refine ⟨0, a, rfl, rfl, ?_⟩
      rw [Allocator.arenas, List.getElem?_singleton] at hj
      split at hj
      · rw [Option.some.injEq] at hj
        exact hj ▸ hin
      · cases hj
  | multiArena m =>
      have hs := h.arena c (List.mem_of_getElem? hj)
      have hpos := h.size_ne b hb
      have hlo : c.data ≤ b.addr := hin.1
      have hhi : b.addr + align8U32 b.size ≤ c.data + c.lastIndex := hin.2
      have hle := hs.index_le
      have hspan : c.spans b.addr = true := Arena.spans_iff.mpr ⟨hs.data_ne, hlo, by omega⟩
      obtain ⟨i, a, hfound⟩ := MultiArena.findOwner_isSome (h.addr_ne hb) hj hspan
      obtain ⟨-, hi, hspan'⟩ := MultiArena.findOwner_some hfound
      obtain ⟨-, hlo', hhi'⟩ := Arena.spans_iff.mp hspan'
      -- two arenas that span one address are the same
      have hij : i = j := by
        by_contra hij
        refine (Region.apart_of_getElem? Arena.region h.apart hi hj hij).not_has (x := b.addr)
          ⟨hlo', hhi'⟩ ⟨hlo, ?_⟩
        simp only [Arena.region, Region.stop_mk]
        omega
      subst hij
      refine ⟨i, a, hfound, hi, ?_⟩
      have hca : a = c := Option.some.inj (hi.symm.trans hj)
      exact hca ▸ hin

/-- A block held can be put in front. -/
theorem Sound.head {arenas : List Arena} {held : List Block} (h : Sound arenas held) {b : Block}
    (hb : b ∈ held) : Sound arenas (b :: held.erase b) := h.perm (List.perm_cons_erase hb)

/-! ## Each call -/

variable {host : Host} {memory : Allocator} {held : List Block}

/-- `arnm_alloc` refuses and changes nothing that matters, or hands out a block. -/
theorem alloc_sound (buffer size : Nat) (h : Sound memory.arenas held)
    (hfresh : Fresh host memory.arenas) :
    ((alloc host buffer size memory).result.isError = true ∧
      (alloc host buffer size memory).buffer = buffer ∧
      Sound (alloc host buffer size memory).state.arenas held) ∨
    ((alloc host buffer size memory).result = .success ∧
      Sound (alloc host buffer size memory).state.arenas
        (⟨(alloc host buffer size memory).buffer, size⟩ :: held)) := by
  rcases alloc_cases host buffer size memory with
    ⟨herr, hbuf, i, total, hst⟩ | ⟨hne, hres, i, a, hi, hroom, hbuf, hst⟩ |
      ⟨hne, hres, capacity, a, made, hroom, hbuf, hst⟩
  · left
    rw [hst]
    exact ⟨herr, hbuf, h.recount i total⟩
  · right
    rw [hst, hbuf]
    exact ⟨hres, h.bump hi hne hroom⟩
  · right
    rw [hst, hbuf]
    obtain ⟨ha, hapart⟩ := hfresh.arena_sound made
    have hlast : (memory.arenas ++ [a])[memory.arenas.length]? = some a := by simp
    have hpush := (h.push ha hapart).bump hlast hne hroom
    rw [modify_append_singleton] at hpush
    exact ⟨hres, hpush⟩

/-- An arena without room for the request is left as it is. -/
theorem alloc_getElem? {buffer size i : Nat} {a : Arena} (hi : memory.arenas[i]? = some a)
    (hfull : a.remainingBytes < align8U32 size)
    (hok : (alloc host buffer size memory).result = .success) :
    (alloc host buffer size memory).state.arenas[i]? = some a := by
  rcases alloc_cases host buffer size memory with
    ⟨herr, -⟩ | ⟨-, -, j, c, hj, hroom, -, hst⟩ | ⟨-, -, capacity, c, -, -, -, hst⟩
  · exact absurd hok (Result.ne_success_of_isError herr)
  · rw [hst]
    have hij : ¬ j = i := by
      rintro rfl
      rw [hi, Option.some.injEq] at hj
      subst hj
      omega
    exact getElem?_modify_eq_some.mpr ⟨a, hi, if_neg hij⟩
  · rw [hst, List.getElem?_append_left (List.getElem?_eq_some_iff.mp hi).1]
    exact hi

/-- A block of the client is given back, or stays behind in its arena. -/
theorem free_sound {b : Block} {size : Nat} (h : Sound memory.arenas held) (hb : b ∈ held)
    (hsize : align8U32 size = align8U32 b.size) :
    (free b.addr size memory).1.isError = false ∧
      Sound (free b.addr size memory).2.arenas (held.erase b) := by
  obtain ⟨i, a, hown, hi, hin⟩ := h.owner hb
  have hne : ¬ (size ≠ 0 ∧ align8U32 size = 0) := fun hz => h.size_ne b hb (hsize ▸ hz.2)
  unfold free
  rw [if_neg hne]
  simp only [hown]
  split
  · rename_i hrec
    obtain ⟨-, -, hnewest⟩ := Arena.isReclaimable_iff.mp hrec
    rw [hsize] at hnewest ⊢
    rw [Allocator.giveBack_arenas _ (List.getElem?_eq_some_iff.mp hi).1]
    exact ⟨rfl, (h.head hb).rewind hi hnewest hin⟩
  · exact ⟨rfl, h.sublist List.erase_sublist⟩

/-- Freeing no block leaves the allocator as it is. -/
theorem free_null (size : Nat) (memory : Allocator) : (free 0 size memory).2 = memory := by
  unfold free
  split
  · rfl
  · split
    · split <;> rfl
    · split
      · rename_i hrec
        exact absurd rfl (Arena.isReclaimable_iff.mp hrec).1
      · rfl

/-- What `arnm_realloc` does with the newest block of an arena: refuse, or let it go by the new
size where it is or in another arena. -/
theorem reallocNewest_sound {b : Block} {newSize i : Nat} {a : Arena} {h : Heap}
    (hs : Sound h.memory.arenas held) (hfresh : Fresh host h.memory.arenas) (hb : b ∈ held)
    (hi : h.memory.arenas[i]? = some a) (hin : b.room.Within a.used)
    (hnewest : a.data + a.lastIndex = b.addr + align8U32 b.size) (hn : align8U32 newSize ≠ 0) :
    let r := reallocNewest host b.addr b.size (align8U32 b.size) (align8U32 newSize) i a h
    (r.result.isError = true ∧ Sound r.state.memory.arenas held) ∨
    (r.result = .success ∧ Sound r.state.memory.arenas (⟨r.buffer, newSize⟩ :: held.erase b)) := by
  intro r
  have hr : r = reallocNewest host b.addr b.size (align8U32 b.size) (align8U32 newSize) i a h := rfl
  have hilt := (List.getElem?_eq_some_iff.mp hi).1
  have hoff : align8U32 b.size ≤ a.lastIndex := by
    have hlo : a.data ≤ b.addr := hin.1
    omega
  have hretail := fun hroom => (hs.head hb).retail hi hnewest hin hn hroom
  unfold reallocNewest at hr
  split at hr
  · -- shrunk in place
    right
    rw [hr]
    refine ⟨rfl, ?_⟩
    simp only [Allocator.giveBack_arenas _ hilt]
    convert hretail (by omega) using 1
    refine modify_congr hi ?_
    exact (Arena.bump_rewind_of_le hoff (by omega)).symm
  · split at hr
    · -- grown in place
      right
      rw [hr]
      refine ⟨rfl, ?_⟩
      simp only [Allocator.claim_arenas _ hilt]
      convert hretail (by omega) using 1
      refine modify_congr hi ?_
      exact (Arena.bump_rewind hoff (by omega)).symm
    · cases hmem : h.memory with
      | arena c =>
          left
          simp only [hmem] at hr
          rw [hr]
          refine ⟨rfl, ?_⟩
          obtain ⟨total, htotal⟩ :=
            accountCapacityExceeded_snd (align8U32 newSize - align8U32 b.size) c
          rw [hmem] at hs
          simp only [htotal]
          exact hs.recount 0 total
      | multiArena m =>
          simp only [hmem] at hr
          rw [hmem] at hs hi hfresh
          rcases alloc_sound 0 (align8U32 newSize) hs hfresh with ⟨herr, -, hst⟩ | ⟨hok, hst⟩
          · left
            rw [if_neg (Result.ne_success_of_isError herr)] at hr
            rw [hr]
            exact ⟨herr, hst⟩
          · -- moved to another arena, the old place given back
            right
            rw [if_pos hok] at hr
            rw [hr]
            refine ⟨rfl, ?_⟩
            have hkept := alloc_getElem? hi (by rw [align8U32_align8U32]; omega) hok
            have hboth := hst.perm (((List.perm_cons_erase hb).cons _).trans (List.Perm.swap _ _ _))
            have hback := (hboth.rewind hkept hnewest hin).resize (align8U32_align8U32 newSize).symm
            simp only [Allocator.giveBack_arenas _ (List.getElem?_eq_some_iff.mp hkept).1]
            exact hback

/-- What `arnm_realloc` does with a buried block, or with none: refuse, leave everything as it is,
or hand out a larger one. -/
theorem reallocBuried_sound (buffer oldSize newSize : Nat) {h : Heap}
    (hs : Sound h.memory.arenas held) (hfresh : Fresh host h.memory.arenas) :
    let r := reallocBuried host buffer oldSize (align8U32 oldSize) (align8U32 newSize) h
    (r.result.isError = true ∧ Sound r.state.memory.arenas held) ∨
    (r.result = .warningArenaMemoryNotReclaimed ∧ align8U32 newSize ≤ align8U32 oldSize ∧
      r.buffer = buffer ∧ r.state = h) ∨
    (r.result = .warningArenaMemoryNotReclaimed ∧ align8U32 oldSize < align8U32 newSize ∧
      Sound r.state.memory.arenas (⟨r.buffer, newSize⟩ :: held)) := by
  intro r
  have hr : r =
    reallocBuried host buffer oldSize (align8U32 oldSize) (align8U32 newSize) h := rfl
  unfold reallocBuried at hr
  split at hr
  · rcases alloc_sound 0 (align8U32 newSize) hs hfresh with ⟨herr, -, hst⟩ | ⟨hok, hst⟩
    · left
      simp only at hr
      rw [if_neg (Result.ne_success_of_isError herr)] at hr
      rw [hr]
      exact ⟨herr, hst⟩
    · right
      right
      simp only [if_pos hok] at hr
      rw [hr]
      exact ⟨rfl, by assumption, hst.resize (align8U32_align8U32 newSize).symm⟩
  · right
    left
    rw [hr]
    exact ⟨rfl, by omega, rfl, rfl⟩

/-! ## The ledger -/

theorem ledger_of_isError {buffer oldSize newSize : Nat} {r : Answer Heap}
    (h : r.result.isError = true) : ledger held r (.realloc buffer oldSize newSize) = held := by
  simp only [ledger, if_pos h]

/-- The client takes the block it was answered. -/
theorem Sound.granted {size : Nat} {r : Answer Heap}
    (h : (r.result.isError = true ∧ Sound r.state.memory.arenas held) ∨
      (r.result = .success ∧ Sound r.state.memory.arenas (⟨r.buffer, size⟩ :: held))) :
    Sound r.state.memory.arenas
      (if r.result = .success then ⟨r.buffer, size⟩ :: held else held) := by
  rcases h with ⟨herr, hst⟩ | ⟨hok, hst⟩
  · rw [if_neg (Result.ne_success_of_isError herr)]
    exact hst
  · rw [if_pos hok]
    exact hst

/-- The client goes over to the block it was answered. -/
theorem Sound.moved {arenas : List Arena} {buffer oldSize newSize : Nat} {r : Answer Heap}
    (h : Sound arenas (⟨r.buffer, newSize⟩ :: held.erase ⟨buffer, oldSize⟩))
    (hres : r.result = .success ∨
      r.result = .warningArenaMemoryNotReclaimed ∧ oldSize ≤ newSize)
    (hnew : newSize ≠ 0) : Sound arenas (ledger held r (.realloc buffer oldSize newSize)) := by
  have herr : ¬ r.result.isError = true := by
    rcases hres with hres | ⟨hres, -⟩ <;> rw [hres] <;> decide
  have hshrunk : ¬ (r.result = .warningArenaMemoryNotReclaimed ∧ newSize < oldSize) := by
    rintro ⟨hwarn, hlt⟩
    rcases hres with hres | ⟨-, hle⟩
    · rw [hres] at hwarn
      cases hwarn
    · omega
  have hne : r.buffer ≠ 0 := h.addr_ne List.mem_cons_self
  simp only [ledger, if_neg herr, if_neg hnew, if_neg hshrunk, if_neg hne]
  exact h

/-- A buried block that stays where it is: it keeps its old size when it was to shrink, and goes
by the new one when it was to grow within its bytes. -/
theorem Sound.stayed {arenas : List Arena} {b : Block} {newSize : Nat} {r : Answer Heap}
    (h : Sound arenas held) (hb : b ∈ held) (hres : r.result = .warningArenaMemoryNotReclaimed)
    (hbuf : r.buffer = b.addr) (hle : align8U32 newSize ≤ align8U32 b.size)
    (hn : align8U32 newSize ≠ 0) :
    Sound arenas (ledger held r (.realloc b.addr b.size newSize)) := by
  have hnew : newSize ≠ 0 := (align8U32_ne_zero.mp hn).1
  by_cases hlt : newSize < b.size
  · have herr : ¬ r.result.isError = true := by rw [hres]; decide
    simp only [ledger, if_neg herr, if_neg hnew, if_pos (And.intro hres hlt)]
    exact h
  · have hsame : align8U32 newSize = align8U32 b.size :=
      Nat.le_antisymm hle (align8U32_mono hn (by omega))
    refine Sound.moved ?_ (Or.inr ⟨hres, by omega⟩) hnew
    rw [hbuf]
    exact (h.head hb).resize hsame

/-- The arenas a shrink lets go hold nothing. -/
theorem shrink_drops {arenas : List Arena} (a : Arena) (ha : a ∈ arenas.rtakeWhile Arena.canGo) :
    a.lastIndex = 0 := by
  have hgo := List.mem_rtakeWhile_imp ha
  simp only [Arena.canGo, Bool.and_eq_true, beq_iff_eq] at hgo
  exact hgo.1

/-- A resize to nothing gives the block back; with no block it changes nothing. -/
theorem Sound.givenUp {buffer oldSize newSize : Nat} {h : Heap} (hs : Sound h.memory.arenas held)
    (honest : buffer = 0 ∨ ⟨buffer, oldSize⟩ ∈ held) (hnew : newSize = 0) :
    let r := free buffer (align8U32 oldSize) h.memory
    Sound r.2.arenas (ledger held
      ⟨r.1, if r.1 = .success then 0 else buffer, { h with memory := r.2 }⟩
      (.realloc buffer oldSize newSize)) := by
  simp only [ledger]
  by_cases hz : buffer = 0
  · -- no block is held at the null address
    have hnull : held.erase ⟨buffer, oldSize⟩ = held :=
      List.erase_of_not_mem fun hb => hs.addr_ne hb hz
    have hsame : (free buffer (align8U32 oldSize) h.memory).2 = h.memory := by
      rw [hz, free_null]
    rw [if_pos hnew, hnull, hsame]
    split <;> exact hs
  · obtain ⟨herr, hfreed⟩ :=
      free_sound hs (honest.resolve_left hz) (align8U32_align8U32 oldSize)
    simp only at herr hfreed
    rw [if_neg (by rw [herr]; decide), if_pos hnew]
    exact hfreed

/-- The ledger after a resize of a buried block, or of none. -/
theorem reallocBuried_ledger {buffer oldSize newSize : Nat} {h : Heap}
    (hs : Sound h.memory.arenas held) (hfresh : Fresh host h.memory.arenas)
    (honest : buffer = 0 ∨ ⟨buffer, oldSize⟩ ∈ held)
    (hold : oldSize ≠ 0 → align8U32 oldSize ≠ 0) (hn : align8U32 newSize ≠ 0) :
    let r := reallocBuried host buffer oldSize (align8U32 oldSize) (align8U32 newSize) h
    Sound r.state.memory.arenas (ledger held r (.realloc buffer oldSize newSize)) := by
  intro r
  have hnew : newSize ≠ 0 := (align8U32_ne_zero.mp hn).1
  rcases reallocBuried_sound buffer oldSize newSize hs hfresh with ⟨herr, hst⟩ |
    ⟨hwarn, hle, hbuf, hst⟩ | ⟨hwarn, hlt, hst⟩
  · rw [ledger_of_isError herr]
    exact hst
  · -- it stays where it is
    change r.result = _ at hwarn
    change r.buffer = buffer at hbuf
    change r.state = h at hst
    rw [hst]
    by_cases hz : buffer = 0
    · have herr : ¬ r.result.isError = true := by rw [hwarn]; decide
      simp only [ledger, if_neg herr, if_neg hnew, hbuf, if_pos hz]
      split <;> exact hs
    · exact hs.stayed (honest.resolve_left hz) hwarn hbuf hle hn
  · have hle : oldSize ≤ newSize := by
      by_contra hgt
      have := align8U32_mono (hold (by omega)) (Nat.le_of_lt (Nat.lt_of_not_le hgt))
      omega
    exact Sound.moved (hst.sublist (List.erase_sublist.cons_cons _)) (Or.inr ⟨hwarn, hle⟩) hnew

theorem realloc_sound {buffer oldSize newSize : Nat} {h : Heap}
    (hs : Sound h.memory.arenas held) (hfresh : Fresh host h.memory.arenas)
    (honest : buffer = 0 ∨ ⟨buffer, oldSize⟩ ∈ held) :
    Sound (realloc host buffer oldSize newSize h).state.memory.arenas
      (ledger held (realloc host buffer oldSize newSize h) (.realloc buffer oldSize newSize)) := by
  have hblock : buffer ≠ 0 → ⟨buffer, oldSize⟩ ∈ held := fun hz => honest.resolve_left hz
  unfold realloc
  split
  · rw [ledger_of_isError rfl]
    exact hs
  · rename_i hover
    rw [not_or] at hover
    split
    · -- a new size of zero frees
      rename_i hzero
      exact hs.givenUp honest ((align8U32_eq_zero_iff hover.1).mp hzero)
    · rename_i hn
      have hnew : newSize ≠ 0 := (align8U32_ne_zero.mp hn).1
      have hburied := reallocBuried_ledger hs hfresh honest
        (fun hne hz => hover.2 ⟨hne, hz⟩) hn
      split
      · -- the same size again
        rename_i hsame
        have hkeep := hs.head (hblock hsame.1)
        rw [hsame.2] at hkeep
        exact Sound.moved (r := ⟨.success, buffer, h⟩) (hsame.2 ▸ hkeep) (Or.inl rfl) hnew
      · cases hown : h.memory.owner buffer with
        | none =>
            simp only
            split
            · rw [ledger_of_isError rfl]
              exact hs
            · exact hburied
        | some found =>
            obtain ⟨i, a⟩ := found
            simp only
            split
            · rename_i hrec
              obtain ⟨hz, -, hnewest⟩ := Arena.isReclaimable_iff.mp hrec
              obtain ⟨j, c, hown', hj, hin⟩ := hs.owner (hblock hz)
              rw [hown, Option.some.injEq, Prod.mk.injEq] at hown'
              obtain ⟨rfl, rfl⟩ := hown'
              rcases reallocNewest_sound hs hfresh (hblock hz) hj hin hnewest hn with
                ⟨herr, hst⟩ | ⟨hok, hst⟩
              · rw [ledger_of_isError herr]
                exact hst
              · exact Sound.moved hst (Or.inl hok) hnew
            · exact hburied

/-! ## Runs -/

/-- One call of an honest client keeps the state sound. -/
theorem call_sound {s : State} (c : Call) (hs : s.Sound)
    (hfresh : Fresh host s.heap.memory.arenas) (honest : Honest s c) :
    (s.call host c).Sound := by
  unfold State.Sound State.call
  cases c with
  | alloc size =>
      refine Sound.granted (r := s.heap.call host (.alloc size)) ?_
      exact (alloc_sound 0 size hs hfresh).imp_left fun ⟨herr, _, hst⟩ => ⟨herr, hst⟩
  | clone src size =>
      refine Sound.granted (r := s.heap.call host (.clone src size)) ?_
      simp only [Heap.call, clone]
      split
      · exact Or.inl ⟨rfl, hs⟩
      · split
        · exact Or.inl ⟨rfl, hs⟩
        · rcases alloc_sound 0 size hs hfresh with ⟨herr, -, hst⟩ | ⟨hok, hst⟩
          · rw [if_neg (Result.ne_success_of_isError herr)]
            exact Or.inl ⟨herr, hst⟩
          · rw [if_pos hok]
            exact Or.inr ⟨rfl, hst⟩
  | free buffer size =>
      show Memory.Sound (free buffer size s.heap.memory).2.arenas
        (if (free buffer size s.heap.memory).1.isError = true then s.held
          else s.held.erase ⟨buffer, size⟩)
      rcases honest with rfl | hb
      · -- a null pointer is nobody's block
        have hnot : ⟨0, size⟩ ∉ s.held := fun hb => hs.addr_ne hb rfl
        rw [free_null, List.erase_of_not_mem hnot]
        split <;> exact hs
      · obtain ⟨herr, hst⟩ := free_sound hs hb rfl
        simp only at herr hst
        rw [if_neg (by rw [herr]; decide)]
        exact hst
  | realloc buffer oldSize newSize => exact realloc_sound hs hfresh honest
  | reset =>
      simp only [Heap.call, ledger]
      cases hmem : s.heap.memory with
      | arena a =>
          have hreset := hs.reset
          rw [hmem] at hreset
          exact hreset
      | multiArena m =>
          have hreset := hs.reset
          rw [hmem] at hreset
          exact hreset
  | release => exact honest.elim
  | reserve arenaCount =>
      simp only [Heap.call, ledger]
      split <;> exact hs
  | borrow data capacity =>
      simp only [Heap.call, ledger]
      obtain ⟨hstop, hapart⟩ := honest
      cases hmem : s.heap.memory with
      | arena a => exact hs
      | multiArena m =>
          rw [State.Sound, hmem] at hs
          rw [hmem] at hapart
          simp only [MultiArena.borrow]
          split
          · exact hs
          · split
            · exact hs
            · -- what is borrowed lies apart from the arenas there are: the client is honest
              cases made : initArenaBorrow data capacity with
              | error result => exact hs
              | ok a =>
                  obtain ⟨ha, hregion⟩ := borrow_sound hstop made
                  simp only [multiArenaPush]
                  cases host.refusal with
                  | some refusal => exact hs
                  | none => exact hs.push ha (hregion ▸ hapart)
  | shrink =>
      simp only [Heap.call, ledger]
      cases hmem : s.heap.memory with
      | arena a => exact hs
      | multiArena m =>
          rw [State.Sound, hmem] at hs
          exact hs.drop List.rdropWhile_append_rtakeWhile shrink_drops

/-- Every state of a run is sound. -/
theorem Reachable.sound {s : State} (hr : Reachable s) : s.Sound := by
  induction hr with
  | arena host capacity a bytes fresh made =>
      obtain ⟨ha, -⟩ := fresh.arena_sound made
      exact sound_nil.push ha fun b hb => absurd hb List.not_mem_nil
  | borrowed data capacity a bytes stop made =>
      obtain ⟨ha, -⟩ := borrow_sound stop made
      exact sound_nil.push ha fun b hb => absurd hb List.not_mem_nil
  | chain host options m bytes made =>
      unfold createMultiArena at made
      split at made
      · cases made
        exact sound_nil
      · cases made
  | call host s c _ fresh honest ih => exact call_sound c ih fresh honest
  | write s bytes _ ih => exact ih

/-- A shrink keeps every arena a block lies in, at its place. -/
theorem shrink_keeps {m : MultiArena} (hs : Sound m.arenas held) {b : Block} (hb : b ∈ held)
    {i : Nat} {a : Arena} (hi : m.arenas[i]? = some a) (hin : b.room.Within a.used) :
    (m.shrink host).2.arenas[i]? = some a := by
  have hcut : m.arenas.rdropWhile Arena.canGo ++ m.arenas.rtakeWhile Arena.canGo = m.arenas :=
    List.rdropWhile_append_rtakeWhile
  have hsmall := hs.drop hcut shrink_drops
  obtain ⟨j, c, hj, hcin⟩ := hsmall.within b hb
  have hj' : m.arenas[j]? = some c := by
    rw [← hcut, List.getElem?_append_left (List.getElem?_eq_some_iff.mp hj).1]
    exact hj
  have hij := hs.within_unique hb hi hj'
    (hin.trans (hs.region_within (List.mem_of_getElem? hi)))
    (hcin.trans (hs.region_within (List.mem_of_getElem? hj')))
  subst hij
  have hac : a = c := Option.some.inj (hi.symm.trans hj')
  exact hac ▸ hj

/-- In every state of a run the blocks held lie apart from each other; each starts aligned and
lies inside the used part of exactly one arena; every `last_index` is aligned and within its
arena's capacity; and a shrink keeps every arena that has a block, at its place. -/
theorem blocks_lie_apart {s : State} (hr : Reachable s) :
    s.held.Pairwise (fun b c => b.room.Apart c.room) ∧
    (∀ b ∈ s.held, 0 < b.size ∧ b.size ≤ b.room.size ∧ 8 ∣ b.addr ∧
      ∃! i : Nat, ∃ a : Arena, s.heap.memory.arenas[i]? = some a ∧ b.room.Within a.used) ∧
    (∀ a ∈ s.heap.memory.arenas, 8 ∣ a.lastIndex ∧ a.lastIndex ≤ a.capacity) ∧
    (∀ host m, s.heap.memory = .multiArena m → ∀ b ∈ s.held, ∀ (i : Nat) (a : Arena),
      m.arenas[i]? = some a → b.room.Within a.used →
        (m.shrink host).2.arenas[i]? = some a) := by
  have hs := hr.sound
  refine ⟨hs.heldApart, fun b hb => ?_, fun a ha => ?_, fun host m hm b hb i a hi hin => ?_⟩
  · have hne := hs.size_ne b hb
    refine ⟨Nat.pos_of_ne_zero (align8U32_ne_zero.mp hne).1, le_align8U32 hne,
      hs.addr_dvd b hb, ?_⟩
    obtain ⟨i, a, hi, hin⟩ := hs.within b hb
    refine ⟨i, ⟨a, hi, hin⟩, ?_⟩
    rintro j ⟨c, hj, hcin⟩
    exact hs.within_unique hb hj hi
      (hcin.trans (hs.region_within (List.mem_of_getElem? hj)))
      (hin.trans (hs.region_within (List.mem_of_getElem? hi)))
  · exact ⟨(hs.arena a ha).index_dvd, (hs.arena a ha).index_le⟩
  · rw [State.Sound, hm] at hs
    exact shrink_keeps hs hb hi hin

/-- Calls on an empty chain, each with the address the host has for a new arena. -/
def chainCalls : List (Nat × Call) :=
  [(4096, .alloc 600), (0, .alloc 100), (8192, .alloc 900), (0, .alloc 300), (0, .free 4696 100),
    (0, .realloc 4800 300 310), (12288, .alloc 200)]

/-- Four blocks in three arenas; between two of them lies one that was freed while buried. -/
def threeArenas : State :=
  chainCalls.foldl (fun s call => s.call (Host.answering call.1) call.2)
    ⟨⟨.multiArena ⟨[], 1024, 0, 64, 0⟩, fun _ => 0⟩, []⟩

theorem reachable_threeArenas : Reachable threeArenas := by
  have hnone : ∀ arenas, Fresh (Host.answering 0) arenas := fun _ n _ hne =>
    absurd (by simp [Host.answering]) hne
  have h₀ : Reachable ⟨⟨.multiArena ⟨[], 1024, 0, 64, 0⟩, fun _ => 0⟩, []⟩ :=
    .chain (Host.answering 0) ⟨0, 0, 0, 0, 0⟩ _ _ (by decide)
  have h₁ := h₀.call (Host.answering 4096) _ (.alloc 600)
    (Host.answering_fresh (by decide) (by decide) (by decide)) trivial
  have h₂ := h₁.call _ _ (.alloc 100) (hnone _) trivial
  have h₃ := h₂.call (Host.answering 8192) _ (.alloc 900)
    (Host.answering_fresh (by decide) (by decide) (by decide)) trivial
  have h₄ := h₃.call _ _ (.alloc 300) (hnone _) trivial
  have h₅ := h₄.call _ _ (.free 4696 100) (hnone _) (Or.inr (by decide))
  have h₆ := h₅.call _ _ (.realloc 4800 300 310) (hnone _) (Or.inr (by decide))
  exact h₆.call (Host.answering 12288) _ (.alloc 200)
    (Host.answering_fresh (by decide) (by decide) (by decide)) trivial

/-- The block that grew lies in the first arena only, and apart from its neighbour. -/
theorem blocks_lie_apart_sample :
    threeArenas.held = [⟨12288, 200⟩, ⟨4800, 310⟩, ⟨8192, 900⟩, ⟨4096, 600⟩] ∧
      threeArenas.held.Pairwise (fun b c => b.room.Apart c.room) ∧
      8 ∣ (4800 : Nat) ∧ (∃! i : Nat, ∃ a : Arena,
        threeArenas.heap.memory.arenas[i]? = some a ∧ (Block.mk 4800 310).room.Within a.used) ∧
      ∀ a ∈ threeArenas.heap.memory.arenas, 8 ∣ a.lastIndex ∧ a.lastIndex ≤ 1024 := by
  have hheld : threeArenas.held = [⟨12288, 200⟩, ⟨4800, 310⟩, ⟨8192, 900⟩, ⟨4096, 600⟩] := by
    decide
  obtain ⟨happart, hblock, harena, -⟩ := blocks_lie_apart reachable_threeArenas
  obtain ⟨-, -, hdvd, hone⟩ := hblock ⟨4800, 310⟩ (by rw [hheld]; decide)
  have hcapacity : ∀ a ∈ threeArenas.heap.memory.arenas, a.capacity = 1024 := by decide
  exact ⟨hheld, happart, hdvd, hone,
    fun a ha => ⟨(harena a ha).1, (harena a ha).2.trans_eq (hcapacity a ha)⟩⟩

end Arnm.Memory
