import Arnm.Memory.Client

set_option autoImplicit false

/-! # Resizing keeps the bytes

`arnm_realloc` copies only where it moves a block, and it moves a block only to a place that was
handed out afresh, apart from every block held, the moved one included. So what the client wrote
survives every resize: in the block as far as both sizes reach, and in every other block. -/

namespace Arnm.Memory

variable {host : Host} {memory : Allocator} {held : List Block}

/-- What was handed out lies apart from every block held. -/
theorem alloc_apart {buffer size : Nat} (h : Sound memory.arenas held)
    (hfresh : Fresh host memory.arenas)
    (hok : (alloc host buffer (align8U32 size) memory).result = .success) {b : Block}
    (hb : b ∈ held) :
    Region.Apart ⟨(alloc host buffer (align8U32 size) memory).buffer, align8U32 size⟩ b.room := by
  rcases alloc_sound buffer (align8U32 size) h hfresh with ⟨herr, -, -⟩ | ⟨-, hst⟩
  · exact absurd hok (Result.ne_success_of_isError herr)
  · have hapart := (List.pairwise_cons.mp hst.heldApart).1 b hb
    rwa [Block.room, align8U32_align8U32] at hapart

/-- The call leaves the bytes alone and the block in place, or it copies the block to a larger
place apart from every block held. -/
def CopiesApart (held : List Block) (buffer oldSize newSize : Nat) (h : Heap) (r : Answer Heap) :
    Prop :=
  (r.state.bytes = h.bytes ∧ r.buffer = buffer) ∨
  (r.state.bytes = h.bytes.copy r.buffer buffer oldSize ∧
    align8U32 oldSize < align8U32 newSize ∧
    ∀ b ∈ held, Region.Apart ⟨r.buffer, align8U32 newSize⟩ b.room)

theorem reallocNewest_copiesApart {buffer oldSize newSize i : Nat} {a : Arena} {h : Heap}
    (hs : Sound h.memory.arenas held) (hfresh : Fresh host h.memory.arenas) :
    CopiesApart held buffer oldSize newSize h
      (reallocNewest host buffer oldSize (align8U32 oldSize) (align8U32 newSize) i a h) := by
  unfold reallocNewest
  split
  · exact Or.inl ⟨rfl, rfl⟩
  · split
    · exact Or.inl ⟨rfl, rfl⟩
    · cases hmem : h.memory with
      | arena c => exact Or.inl ⟨rfl, rfl⟩
      | multiArena m =>
          rw [hmem] at hs hfresh
          simp only
          split
          · rename_i hok
            exact Or.inr ⟨rfl, by omega, fun b hb => alloc_apart hs hfresh hok hb⟩
          · exact Or.inl ⟨rfl, rfl⟩

theorem reallocBuried_copiesApart {buffer oldSize newSize : Nat} {h : Heap}
    (hs : Sound h.memory.arenas held) (hfresh : Fresh host h.memory.arenas)
    (hb : ⟨buffer, oldSize⟩ ∈ held) :
    CopiesApart held buffer oldSize newSize h
      (reallocBuried host buffer oldSize (align8U32 oldSize) (align8U32 newSize) h) := by
  have hcopied : buffer ≠ 0 ∧ oldSize ≠ 0 :=
    ⟨hs.addr_ne hb, (align8U32_ne_zero.mp (hs.size_ne _ hb)).1⟩
  unfold reallocBuried
  split
  · rename_i hlt
    by_cases hok : (alloc host 0 (align8U32 newSize) h.memory).result = .success
    · simp only [if_pos hok]
      exact Or.inr ⟨rfl, hlt, fun b hb => alloc_apart hs hfresh hok hb⟩
    · simp only [if_neg hok]
      exact Or.inl ⟨rfl, rfl⟩
  · exact Or.inl ⟨rfl, rfl⟩

theorem realloc_copiesApart {buffer oldSize newSize : Nat} {h : Heap}
    (hs : Sound h.memory.arenas held) (hfresh : Fresh host h.memory.arenas)
    (hb : ⟨buffer, oldSize⟩ ∈ held) (hnew : newSize ≠ 0) :
    CopiesApart held buffer oldSize newSize h (realloc host buffer oldSize newSize h) := by
  unfold realloc
  split
  · exact Or.inl ⟨rfl, rfl⟩
  · rename_i hover
    rw [not_or] at hover
    split
    · rename_i hzero
      exact absurd ((align8U32_eq_zero_iff hover.1).mp hzero) hnew
    · split
      · exact Or.inl ⟨rfl, rfl⟩
      · cases hown : h.memory.owner buffer with
        | none =>
            simp only
            split
            · exact Or.inl ⟨rfl, rfl⟩
            · exact reallocBuried_copiesApart hs hfresh hb
        | some found =>
            obtain ⟨i, a⟩ := found
            simp only
            split
            · exact reallocNewest_copiesApart hs hfresh
            · exact reallocBuried_copiesApart hs hfresh hb

/-- What was copied apart is the block's bytes, and nobody else's changed. -/
theorem CopiesApart.keeps {buffer oldSize newSize : Nat} {h : Heap} {r : Answer Heap}
    (hc : CopiesApart held buffer oldSize newSize h r) (hold : align8U32 oldSize ≠ 0) :
    (∀ k < min oldSize newSize, r.state.bytes (r.buffer + k) = h.bytes (buffer + k)) ∧
    ∀ b ∈ held, Bytes.AgreeOn h.bytes r.state.bytes b.room := by
  rcases hc with ⟨hbytes, hbuf⟩ | ⟨hbytes, hlt, hapart⟩
  · rw [hbytes, hbuf]
    exact ⟨fun k _ => rfl, fun b _ => Bytes.AgreeOn.refl _ _⟩
  · rw [hbytes]
    refine ⟨fun k hk => Bytes.copy_apply (by omega), fun b hb => Bytes.copy_agreeOn ?_⟩
    refine (hapart b hb).within ⟨Nat.le_refl _, ?_⟩ (Region.Within.refl _)
    have hle := le_align8U32 hold
    simp only [Region.stop_mk]
    omega

/-- A newest block that cannot grow in its arena goes to another one: the two places do not
overlap, and the old arena's `last_index` is back at the block's start. -/
theorem realloc_moves {buffer oldSize newSize i : Nat} {a : Arena} {m : MultiArena} {h : Heap}
    (hs : Sound h.memory.arenas held) (hfresh : Fresh host h.memory.arenas)
    (hb : ⟨buffer, oldSize⟩ ∈ held) (hm : h.memory = .multiArena m)
    (hown : m.findOwner buffer = some (i, a))
    (hnewest : a.isReclaimable buffer (align8U32 oldSize) = true)
    (hfull : a.remainingBytes + align8U32 oldSize < align8U32 newSize)
    (hok : (realloc host buffer oldSize newSize h).result = .success) :
    Region.Apart ⟨buffer, align8U32 oldSize⟩
      ⟨(realloc host buffer oldSize newSize h).buffer, align8U32 newSize⟩ ∧
    ∃ m' a', (realloc host buffer oldSize newSize h).state.memory = .multiArena m' ∧
      m'.arenas[i]? = some a' ∧ a'.data = a.data ∧ a'.data + a'.lastIndex = buffer := by
  have hn : align8U32 newSize ≠ 0 := by omega
  have hold := hs.size_ne _ hb
  have hover : ¬ ((newSize ≠ 0 ∧ align8U32 newSize = 0) ∨
      (oldSize ≠ 0 ∧ align8U32 oldSize = 0)) := by
    rintro (⟨-, hz⟩ | ⟨-, hz⟩)
    · exact hn hz
    · exact hold hz
  have hsame : ¬ (buffer ≠ 0 ∧ oldSize = newSize) := by
    rintro ⟨-, rfl⟩
    omega
  -- of the ways a resize takes only the one for the newest block is left
  have hr : realloc host buffer oldSize newSize h =
      reallocNewest host buffer oldSize (align8U32 oldSize) (align8U32 newSize) i a h := by
    unfold realloc
    rw [if_neg hover, if_neg hn, if_neg hsame, hm]
    simp only [Allocator.owner, hown, if_pos hnewest]
  rw [hr] at hok ⊢
  unfold reallocNewest at hok ⊢
  rw [if_neg (by omega), if_neg (by omega), hm] at hok ⊢
  simp only at hok ⊢
  rw [hm] at hs hfresh
  by_cases hgot : (alloc host 0 (align8U32 newSize) (.multiArena m)).result = .success
  · rw [if_pos hgot]
    refine ⟨(alloc_apart hs hfresh hgot hb).symm, ?_⟩
    have hi := (MultiArena.findOwner_some hown).2.1
    have hkept := alloc_getElem? (show (Allocator.multiArena m).arenas[i]? = some a from hi)
      (by rw [align8U32_align8U32]; omega) hgot
    obtain ⟨m', hst⟩ := alloc_multiArena host 0 (align8U32 newSize) m
    rw [hst] at hkept
    refine ⟨_, a.rewind (align8U32 oldSize), by rw [hst]; rfl, ?_, rfl, ?_⟩
    · rw [MultiArena.reopen_arenas]
      exact getElem?_modify_eq_some.mpr ⟨a, hkept, if_pos rfl⟩
    · obtain ⟨-, -, htail⟩ := Arena.isReclaimable_iff.mp hnewest
      obtain ⟨-, -, hspan⟩ := MultiArena.findOwner_some hown
      have hlo := (Arena.spans_iff.mp hspan).2.1
      simp only [Arena.rewind_data, Arena.rewind_lastIndex]
      omega
  · rw [if_neg hgot] at hok
    exact absurd hok hgot

/-- Whatever `arnm_realloc` answers for a block held, the block's bytes are kept as far as both
sizes reach, and so is every byte of every other block held. Where the newest block of a chain's
arena moves to another arena, the places do not overlap and the old place is given back exactly. -/
theorem realloc_keeps_bytes {s : State} (hr : Reachable s) {buffer oldSize newSize : Nat}
    (hb : ⟨buffer, oldSize⟩ ∈ s.held) (hnew : newSize ≠ 0) {host : Host}
    (hfresh : Fresh host s.heap.memory.arenas) :
    let r := realloc host buffer oldSize newSize s.heap
    (∀ k < min oldSize newSize, r.state.bytes (r.buffer + k) = s.heap.bytes (buffer + k)) ∧
    (∀ b ∈ s.held, b ≠ ⟨buffer, oldSize⟩ → ∀ k < b.size,
      r.state.bytes (b.addr + k) = s.heap.bytes (b.addr + k)) ∧
    (∀ m i a, s.heap.memory = .multiArena m → m.findOwner buffer = some (i, a) →
      a.isReclaimable buffer (align8U32 oldSize) = true →
      a.remainingBytes + align8U32 oldSize < align8U32 newSize → r.result = .success →
      Region.Apart ⟨buffer, align8U32 oldSize⟩ ⟨r.buffer, align8U32 newSize⟩ ∧
      ∃ m' a', r.state.memory = .multiArena m' ∧ m'.arenas[i]? = some a' ∧ a'.data = a.data ∧
        a'.data + a'.lastIndex = buffer) := by
  intro r
  have hs := hr.sound
  obtain ⟨hblock, hothers⟩ := (realloc_copiesApart hs hfresh hb hnew).keeps (hs.size_ne _ hb)
  refine ⟨hblock, fun b hmem _ k hk => hothers b hmem (b.addr + k) ⟨Nat.le_add_right _ _, ?_⟩,
    fun m i a hm hown hnewest hfull hok => realloc_moves hs hfresh hb hm hown hnewest hfull hok⟩
  have hle := le_align8U32 (hs.size_ne b hmem)
  simp only [Block.room, Region.stop_mk]
  omega

/-- One block that nearly fills the first arena of a chain. -/
def sampleState (bytes : Bytes) : State where
  heap := ⟨.multiArena ⟨[⟨4096, 1000, 1024, 0, .owned⟩], 1024, 0, 64, 0⟩, bytes⟩
  held := [⟨4096, 1000⟩]

theorem reachable_sampleState (bytes : Bytes) : Reachable (sampleState bytes) :=
  Reachable.call (Host.answering 4096) ⟨⟨.multiArena ⟨[], 1024, 0, 64, 0⟩, bytes⟩, []⟩ (.alloc 1000)
    (.chain (Host.answering 0) ⟨0, 0, 0, 0, 0⟩ _ bytes (by decide))
    (Host.answering_fresh (by decide) (by decide) fun a ha => absurd ha List.not_mem_nil) trivial

/-- The block outgrows its arena and moves to a second one. -/
theorem realloc_keeps_bytes_sample :
    (realloc (Host.answering 8192) 4096 1000 2000
      (sampleState fun x => UInt8.ofNat x).heap).buffer =
      8192 ∧
    ∀ k < 1000,
      (realloc (Host.answering 8192) 4096 1000 2000
        (sampleState fun x => UInt8.ofNat x).heap).state.bytes (8192 + k) =
        UInt8.ofNat (4096 + k) := by
  have hheld : ⟨4096, 1000⟩ ∈ (sampleState fun x => UInt8.ofNat x).held := List.mem_singleton_self _
  have hkeep := realloc_keeps_bytes (reachable_sampleState fun x => UInt8.ofNat x) hheld
    (show 2000 ≠ 0 by decide)
    (Host.answering_fresh (show 8 ∣ 8192 by decide) (by decide) (by decide))
  exact ⟨rfl, fun k hk => hkeep.1 k (by omega)⟩

end Arnm.Memory
