import Arnm.Memory.Client

set_option autoImplicit false

/-! # Freeing newest first

On a chain blocks that follow each other lie in different arenas, in any pattern. Freed newest
first, each of them is the newest of its own arena when its turn comes, so every arena is back where
it was (`Restored`). `Undoes` says that of a list of blocks; an allocation puts its block in front
of it. -/

namespace Arnm.Memory

/-- The arenas lie apart. -/
def Apart (arenas : List Arena) : Prop := arenas.Pairwise fun a b => a.region.Apart b.region

/-- The arenas there were are as they were, but for their counters, and the further
ones are empty. -/
structure Restored (before after : List Arena) : Prop where
  same : ∀ (i : Nat) (a : Arena), before[i]? = some a →
    ∃ b, after[i]? = some b ∧ b.data = a.data ∧ b.capacity = a.capacity ∧ b.lastIndex = a.lastIndex
  added : ∀ (i : Nat) (b : Arena), before.length ≤ i → after[i]? = some b → b.lastIndex = 0

/-- Allocates one size after the other, each time with the host there is then. The blocks that were
handed out stand newest first in front of those there were. -/
def allocAll : List (Host × Nat) → List Block → Allocator → List Block × Allocator
  | [], blocks, memory => (blocks, memory)
  | (host, size) :: requests, blocks, memory =>
    let got := alloc host 0 size memory
    allocAll requests (if got.result = .success then ⟨got.buffer, size⟩ :: blocks
      else blocks) got.state

/-- Frees one block after the other, with the answers. -/
def freeAll : List Block → Allocator → List Result × Allocator
  | [], memory => ([], memory)
  | b :: blocks, memory =>
    let freed := free b.addr b.size memory
    let later := freeAll blocks freed.2
    (freed.1 :: later.1, later.2)

/-- Each request meets a host whose answers are fresh. -/
def FreshAlong : List (Host × Nat) → Allocator → Prop
  | [], _ => True
  | (host, size) :: requests, memory =>
    Fresh host memory.arenas ∧ FreshAlong requests (alloc host 0 size memory).state

namespace Restored

variable {before after : List Arena}

theorem refl (arenas : List Arena) : Restored arenas arenas where
  same i a hi := ⟨a, hi, rfl, rfl, rfl⟩
  added i b hle hi := by
    rw [List.getElem?_eq_none hle] at hi
    cases hi

/-- A counter is not looked at. -/
theorem of_recount {i total : Nat} (h : Restored (before.modify i (Arena.recount total)) after) :
    Restored before after where
  same j a hj := by
    have hget : (before.modify i (Arena.recount total))[j]? =
        some (if i = j then a.recount total else a) := getElem?_modify_eq_some.mpr ⟨a, hj, rfl⟩
    obtain ⟨b, hb, hdata, hcap, hlast⟩ := h.same j _ hget
    refine ⟨b, hb, hdata.trans ?_, hcap.trans ?_, hlast.trans ?_⟩ <;> split <;> rfl
  added j b hle hj := h.added j b (by rwa [List.length_modify]) hj

end Restored

/-- A single arena that moves its `last_index` stays where it is. -/
theorem Apart.modify {arenas : List Arena} (h : Apart arenas) {i : Nat} {f : Arena → Arena}
    (hf : ∀ a, (f a).region = a.region) : Apart (arenas.modify i f) := by
  have hregion : ∀ (j : Nat) (a : Arena), (arenas.modify i f)[j]? = some a →
      ∃ b : Arena, arenas[j]? = some b ∧ a.region = b.region := by
    intro j a hj
    obtain ⟨b, hb, hba⟩ := getElem?_modify_eq_some.mp hj
    refine ⟨b, hb, ?_⟩
    rw [← hba]
    split
    · exact hf b
    · rfl
  apply List.pairwise_iff_getElem.mpr
  intro j k hj hk hjk
  obtain ⟨b, hb, hjb⟩ := hregion j _ (List.getElem?_eq_getElem hj)
  obtain ⟨c, hc, hkc⟩ := hregion k _ (List.getElem?_eq_getElem hk)
  rw [hjb, hkc]
  exact Region.apart_of_getElem? Arena.region h hb hc (Nat.ne_of_lt hjk)

section

variable {host : Host} {memory : Allocator} {buffer size : Nat}

/-! ## One block -/

/-- The owner of an address is the one arena that spans it. -/
theorem owner_eq {i : Nat} {a : Arena} (h : Apart memory.arenas) (hi : memory.arenas[i]? = some a)
    (hne : buffer ≠ 0) (hspan : a.spans buffer = true) : memory.owner buffer = some (i, a) := by
  cases memory with
  | arena b =>
      rw [Allocator.arenas, List.getElem?_singleton] at hi
      split at hi
      · rename_i hz
        cases hi
        rw [hz]
        rfl
      · cases hi
  | multiArena m =>
      obtain ⟨j, b, hfound⟩ := MultiArena.findOwner_isSome hne hi hspan
      obtain ⟨-, hj, hspan'⟩ := MultiArena.findOwner_some hfound
      obtain ⟨-, hlo, hhi⟩ := Arena.spans_iff.mp hspan
      obtain ⟨-, hlo', hhi'⟩ := Arena.spans_iff.mp hspan'
      have hij : j = i := by
        by_contra hij
        have hapart := Region.apart_of_getElem? Arena.region h hj hi hij
        exact hapart.not_has (x := buffer) ⟨hlo', hhi'⟩ ⟨hlo, hhi⟩
      rw [hij] at hfound hj
      rw [Option.some.inj (hi.symm.trans hj)]
      exact hfound

/-- The newest block of an arena goes back. -/
theorem free_newest {i : Nat} {a : Arena} (h : Apart memory.arenas)
    (hi : memory.arenas[i]? = some a)
    (hd : a.data ≠ 0) (hlo : a.data ≤ buffer) (hn : align8U32 size ≠ 0)
    (hnewest : a.data + a.lastIndex = buffer + align8U32 size) (hle : a.lastIndex ≤ a.capacity) :
    (free buffer size memory).1 = .success ∧
      (free buffer size memory).2.arenas =
        memory.arenas.modify i (Arena.rewind (align8U32 size)) := by
  have hne : buffer ≠ 0 := by omega
  have hspan : a.spans buffer = true := Arena.spans_iff.mpr ⟨hd, hlo, by omega⟩
  have hrec : a.isReclaimable buffer (align8U32 size) = true :=
    Arena.isReclaimable_iff.mpr ⟨hne, hn, hnewest⟩
  have hfree : free buffer size memory = (.success, memory.giveBack i (align8U32 size)) := by
    unfold free
    rw [if_neg fun hover => hn hover.2, owner_eq h hi hne hspan]
    exact if_pos hrec
  rw [hfree]
  exact ⟨rfl, Allocator.giveBack_arenas _ (List.getElem?_eq_some_iff.mp hi).1⟩

/-- A block handed out is the newest of an arena there was, or of one that was opened for it. -/
theorem alloc_newest (hok : (alloc host buffer size memory).result = .success) :
    align8U32 size ≠ 0 ∧ ∃ i a, a.data ≠ 0 ∧ align8U32 size ≤ a.remainingBytes ∧
      (alloc host buffer size memory).buffer = a.data + a.lastIndex ∧
      (alloc host buffer size memory).state.arenas[i]? = some (a.bump (align8U32 size)) ∧
      (∀ j ≠ i, (alloc host buffer size memory).state.arenas[j]? = memory.arenas[j]?) ∧
      (memory.arenas[i]? = some a ∨ memory.arenas.length ≤ i ∧ a.lastIndex = 0) := by
  -- the arena served from moves its tail, and no other changes
  have hbumped : ∀ {arenas : List Arena} {i : Nat} {a : Arena}, arenas[i]? = some a →
      (arenas.modify i (Arena.bump (align8U32 size)))[i]? = some (a.bump (align8U32 size)) ∧
        ∀ j ≠ i, (arenas.modify i (Arena.bump (align8U32 size)))[j]? = arenas[j]? := by
    intro arenas i a hi
    refine ⟨getElem?_modify_eq_some.mpr ⟨a, hi, if_pos rfl⟩, fun j hj => ?_⟩
    rw [List.getElem?_modify, Option.map_eq_map]
    cases arenas[j]? with
    | none => rfl
    | some b => exact congrArg some (if_neg hj.symm)
  unfold alloc at hok ⊢
  split at hok
  · cases hok
  rename_i hsize
  rw [if_neg hsize]
  split at hok
  · cases hok
  rename_i hne
  rw [if_neg hne]
  refine ⟨hne, ?_⟩
  cases memory with
  | arena a =>
      rcases arenaAllocAligned_cases buffer (align8U32 size) a with ⟨herr, -⟩ | ⟨hd, hroom, hgot⟩
      · dsimp only at hok
        exact absurd hok (Result.ne_success_of_isError herr)
      · dsimp only
        rw [hgot]
        have hget : (Allocator.arena a).arenas[0]? = some a := rfl
        exact ⟨0, a, hd, hroom, rfl, (hbumped hget).1, (hbumped hget).2, Or.inl rfl⟩
  | multiArena m =>
      rcases multiArenaAlloc_cases host buffer (align8U32 size) m hne with
        ⟨herr, -⟩ | ⟨i, a, -, hi, hd, hroom, hgot⟩ | ⟨-, a, hinit, hroom, hgot⟩
      · dsimp only at hok
        exact absurd hok (Result.ne_success_of_isError herr)
      · dsimp only
        rw [hgot]
        exact ⟨i, a, hd, hroom, rfl, (hbumped hi).1, (hbumped hi).2, Or.inl hi⟩
      · obtain ⟨-, hmalloc, hdata, hlast, -⟩ := initArena_ok hinit
        dsimp only
        rw [hgot]
        refine ⟨m.arenas.length, a, hdata ▸ hmalloc, hroom, rfl, ?_, fun j hj => ?_,
          Or.inr ⟨Nat.le_refl _, hlast⟩⟩
        · exact List.getElem?_concat_length
        · show (m.arenas ++ [a.bump (align8U32 size)])[j]? = m.arenas[j]?
          rcases Nat.lt_or_gt_of_ne hj with hlt | hgt
          · exact List.getElem?_append_left hlt
          · rw [List.getElem?_eq_none (Nat.le_of_lt hgt), List.getElem?_eq_none]
            rw [List.length_append, List.length_singleton]
            exact hgt

/-- Whatever a request is answered, the arenas lie apart. -/
theorem apart_alloc (h : Apart memory.arenas) (hfresh : Fresh host memory.arenas) :
    Apart (alloc host buffer size memory).state.arenas := by
  rcases alloc_cases host buffer size memory with
    ⟨-, -, i, total, hst⟩ | ⟨-, -, i, a, -, -, -, hst⟩ | ⟨-, -, capacity, a, made, -, -, hst⟩
  · rw [hst]
    exact h.modify fun _ => rfl
  · rw [hst]
    exact h.modify fun _ => rfl
  · obtain ⟨-, hapart⟩ := hfresh.arena_sound made
    rw [hst]
    refine List.pairwise_append.mpr ⟨h, List.pairwise_singleton _ _, fun b hb c hc => ?_⟩
    rw [List.mem_singleton] at hc
    exact hc ▸ hapart b hb

/-- Freeing the block of an allocation undoes it, whatever other arenas were opened since. -/
theorem free_undoes {size' : Nat} {now : Allocator}
    (hok : (alloc host buffer size memory).result = .success)
    (hsize : align8U32 size' = align8U32 size) (happart : Apart now.arenas)
    (hnow : Restored (alloc host buffer size memory).state.arenas now.arenas) :
    let freed := free (alloc host buffer size memory).buffer size' now
    freed.1 = .success ∧ Apart freed.2.arenas ∧ Restored memory.arenas freed.2.arenas := by
  intro freed
  obtain ⟨hn, i, a, hd, hroom, hbuf, hi, hothers, hbefore⟩ := alloc_newest hok
  obtain ⟨b, hb, hdata, hcap, hlast⟩ := hnow.same i _ hi
  rw [Arena.bump_data] at hdata
  rw [Arena.bump_capacity] at hcap
  rw [Arena.bump_lastIndex] at hlast
  unfold Arena.remainingBytes at hroom
  obtain ⟨hanswer, harenas⟩ := @free_newest now (alloc host buffer size memory).buffer size' i b
    happart hb (hdata ▸ hd) (by omega) (hsize ▸ hn) (by omega) (by omega)
  refine ⟨hanswer, harenas ▸ happart.modify fun _ => rfl, ?_, ?_⟩
  · intro j c hj
    rw [harenas]
    by_cases hij : i = j
    · -- the arena of the block
      rw [hij] at hbefore
      have hca : a = c := by
        rcases hbefore with hget | ⟨hle, -⟩
        · exact Option.some.inj (hget.symm.trans hj)
        · rw [List.getElem?_eq_none hle] at hj
          cases hj
      refine ⟨_, getElem?_modify_eq_some.mpr ⟨b, hij ▸ hb, if_pos hij⟩, ?_, ?_, ?_⟩
      · exact hca ▸ hdata
      · exact hca ▸ hcap
      · rw [Arena.rewind_lastIndex, hlast, hsize, hca, Nat.add_sub_cancel]
    · obtain ⟨d, hget, hsame⟩ := hnow.same j c ((hothers j fun hji => hij hji.symm).trans hj)
      exact ⟨d, getElem?_modify_eq_some.mpr ⟨d, hget, if_neg hij⟩, hsame⟩
  · intro j d hle hj
    rw [harenas] at hj
    obtain ⟨c, hc, hcd⟩ := getElem?_modify_eq_some.mp hj
    by_cases hij : i = j
    · have hzero : a.lastIndex = 0 := by
        rcases hbefore with hget | ⟨-, hzero⟩
        · rw [hij, List.getElem?_eq_none hle] at hget
          cases hget
        · exact hzero
      rw [← hij, hb] at hc
      cases hc
      rw [if_pos hij] at hcd
      rw [← hcd, Arena.rewind_lastIndex, hlast, hsize, hzero]
      omega
    · rw [if_neg hij] at hcd
      have hnone := (hothers j fun hji => hij hji.symm).trans (List.getElem?_eq_none hle)
      exact hcd ▸ hnow.added j c (List.getElem?_eq_none_iff.mp hnone) hc

end

/-! ## Many blocks -/

/-- Freeing the blocks, in any state that is `after` but for further empty arenas, is answered with
success each time and brings the arenas `before` back. -/
def Undoes (before : List Arena) (blocks : List Block) (after : List Arena) : Prop :=
  ∀ now : Allocator, Apart now.arenas → Restored after now.arenas →
    (∀ result ∈ (freeAll blocks now).1, result = .success) ∧
      Restored before (freeAll blocks now).2.arenas

namespace Undoes

variable {before : List Arena} {blocks : List Block} {host : Host} {memory : Allocator}
  {buffer size : Nat}

theorem nil (arenas : List Arena) : Undoes arenas [] arenas :=
  fun _ _ hnow => ⟨fun _ hresult => absurd hresult List.not_mem_nil, hnow⟩

/-- A block handed out is freed first. -/
theorem granted {size' : Nat} (h : Undoes before blocks memory.arenas)
    (hok : (alloc host buffer size memory).result = .success)
    (hsize : align8U32 size' = align8U32 size) :
    Undoes before (⟨(alloc host buffer size memory).buffer, size'⟩ :: blocks)
      (alloc host buffer size memory).state.arenas := by
  intro now happart hnow
  obtain ⟨hfirst, happart', hnow'⟩ := free_undoes hok hsize happart hnow
  obtain ⟨hlater, hback⟩ := h _ happart' hnow'
  refine ⟨fun result hresult => ?_, hback⟩
  rcases List.mem_cons.mp hresult with rfl | hresult
  · exact hfirst
  · exact hlater result hresult

/-- A refused request leaves nothing to free. -/
theorem refused (h : Undoes before blocks memory.arenas)
    (herr : (alloc host buffer size memory).result ≠ .success) :
    Undoes before blocks (alloc host buffer size memory).state.arenas := by
  intro now happart hnow
  apply h now happart
  rcases alloc_cases host buffer size memory with
    ⟨-, -, i, total, hst⟩ | ⟨-, hok, -⟩ | ⟨-, hok, -⟩
  · rw [hst] at hnow
    exact hnow.of_recount
  · exact absurd hok herr
  · exact absurd hok herr

/-- A run of requests. -/
theorem allocAll {requests : List (Host × Nat)} (h : Undoes before blocks memory.arenas)
    (happart : Apart memory.arenas) (hfresh : FreshAlong requests memory) :
    Apart (allocAll requests blocks memory).2.arenas ∧
      Undoes before (Memory.allocAll requests blocks memory).1
        (Memory.allocAll requests blocks memory).2.arenas := by
  induction requests generalizing blocks memory with
  | nil => exact ⟨happart, h⟩
  | cons request requests ih =>
      obtain ⟨host, size⟩ := request
      obtain ⟨hfirst, hlater⟩ := hfresh
      rw [Memory.allocAll]
      refine ih ?_ (apart_alloc happart hfirst) hlater
      by_cases hok : (alloc host 0 size memory).result = .success
      · rw [if_pos hok]
        exact h.granted hok rfl
      · rw [if_neg hok]
        exact h.refused hok

end Undoes

/-- The blocks of a run of requests, freed newest first, are all taken back and every arena is back
where it was. -/
theorem freeAll_allocAll {requests : List (Host × Nat)} {memory : Allocator}
    (happart : Apart memory.arenas) (hfresh : FreshAlong requests memory) :
    let r := allocAll requests [] memory
    let back := freeAll r.1 r.2
    (∀ result ∈ back.1, result = .success) ∧ Restored memory.arenas back.2.arenas := by
  intro r back
  obtain ⟨happart', hundoes⟩ := (Undoes.nil memory.arenas).allocAll happart hfresh
  exact hundoes r.2 happart' (.refl _)

end Arnm.Memory
