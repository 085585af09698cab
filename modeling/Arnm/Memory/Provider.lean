import Arnm.Memory.Resize

set_option autoImplicit false

/-! # What a container sees of its allocator

A container is given an allocator and makes three calls of it. `Calls` is what it can call, with
the memory it writes in, and `Lawful` what it relies on: the blocks it holds lie apart, a refused
request changes nothing it holds, and a resized block keeps its bytes. A `Provider` has both. The
arenas and chains of this development are one (`Provider.ofArena`), and so is the host behind the
null handle (`Provider.ofHost`). -/

namespace Arnm.Memory

/-- The bytes of a block its client asked for. -/
def Block.extent (b : Block) : Region := ⟨b.addr, b.size⟩

/-- The blocks have the same bytes in both memories. -/
def Keeps (blocks : List Block) (m m' : Bytes) : Prop := ∀ b ∈ blocks, Bytes.AgreeOn m m' b.extent

theorem Keeps.refl (blocks : List Block) (m : Bytes) : Keeps blocks m m :=
  fun _ _ => Bytes.AgreeOn.refl _ _

theorem Keeps.trans {blocks : List Block} {m₁ m₂ m₃ : Bytes} (h : Keeps blocks m₁ m₂)
    (k : Keeps blocks m₂ m₃) : Keeps blocks m₁ m₃ := fun b hb => (h b hb).trans (k b hb)

theorem Keeps.subset {blocks blocks' : List Block} {m m' : Bytes} (h : Keeps blocks m m')
    (hs : blocks' ⊆ blocks) : Keeps blocks' m m' := fun b hb => h b (hs hb)

/-- The calls a container makes of its allocator, and the memory. -/
structure Calls (σ : Type) where
  isArena : Bool
  alloc : Nat → Nat → σ → Answer σ
  realloc : Nat → Nat → Nat → σ → Answer σ
  free : Nat → Nat → σ → Result × σ
  bytes : σ → Bytes
  write : Bytes → σ → σ

/-- The allocator refused and changed nothing its client holds. -/
def Calls.Refused {σ : Type} (calls : Calls σ) (holds : σ → List Block → Prop)
    (buffer : Nat) (s : σ)
    (blocks : List Block) (r : Answer σ) : Prop :=
  r.result.isError = true ∧ r.buffer = buffer ∧ holds r.state blocks ∧
    Keeps blocks (calls.bytes s) (calls.bytes r.state)

/-- What a container relies on while it holds blocks, and `holds s blocks` says that these are
held. -/
structure Lawful {σ : Type} (calls : Calls σ) (holds : σ → List Block → Prop) : Prop where
  perm : ∀ {s blocks blocks'}, holds s blocks → blocks.Perm blocks' → holds s blocks'
  forget : ∀ {s b blocks}, holds s (b :: blocks) → holds s blocks
  apart : ∀ {s blocks}, holds s blocks → blocks.Pairwise fun b c => b.extent.Apart c.extent
  room : ∀ {s blocks}, holds s blocks →
    ∀ b ∈ blocks, b.addr ≠ 0 ∧ 0 < b.size ∧ b.addr + b.size ≤ 2 ^ 64
  bytes_write : ∀ m s, calls.bytes (calls.write m s) = m
  holds_write : ∀ {s blocks} m, holds s blocks → holds (calls.write m s) blocks
  alloc : ∀ {s blocks} buffer size, holds s blocks →
    calls.Refused holds buffer s blocks (calls.alloc buffer size s) ∨
    ((calls.alloc buffer size s).result = .success ∧
      holds (calls.alloc buffer size s).state
        (⟨(calls.alloc buffer size s).buffer, size⟩ :: blocks) ∧
      Keeps blocks (calls.bytes s) (calls.bytes (calls.alloc buffer size s).state))
  realloc_null : ∀ {s blocks} newSize, newSize ≠ 0 → holds s blocks →
    calls.Refused holds 0 s blocks (calls.realloc 0 0 newSize s) ∨
    (((calls.realloc 0 0 newSize s).result = .success ∨
        (calls.realloc 0 0 newSize s).result = .warningArenaMemoryNotReclaimed) ∧
      holds (calls.realloc 0 0 newSize s).state
        (⟨(calls.realloc 0 0 newSize s).buffer, newSize⟩ :: blocks) ∧
      Keeps blocks (calls.bytes s) (calls.bytes (calls.realloc 0 0 newSize s).state))
  /-- A block too small for its place may stay where it is, with a warning. -/
  realloc : ∀ {s buffer oldSize blocks} newSize, newSize ≠ 0 →
    holds s (⟨buffer, oldSize⟩ :: blocks) →
    let r := calls.realloc buffer oldSize newSize s
    calls.Refused holds buffer s (⟨buffer, oldSize⟩ :: blocks) r ∨
    (r.result = .warningArenaMemoryNotReclaimed ∧ newSize < oldSize ∧ r.buffer = buffer ∧
      holds r.state (⟨buffer, oldSize⟩ :: blocks) ∧
      Keeps (⟨buffer, oldSize⟩ :: blocks) (calls.bytes s) (calls.bytes r.state)) ∨
    ((r.result = .success ∨ r.result = .warningArenaMemoryNotReclaimed ∧ oldSize ≤ newSize) ∧
      holds r.state (⟨r.buffer, newSize⟩ :: blocks) ∧
      (∀ k < min oldSize newSize, calls.bytes r.state (r.buffer + k) = calls.bytes s (buffer + k)) ∧
      Keeps blocks (calls.bytes s) (calls.bytes r.state))
  /-- An allocator with blocks is in no invalid state. -/
  alloc_valid : ∀ {s blocks} buffer size, holds s blocks →
    (calls.alloc buffer size s).result ≠ .errorInvalidState
  realloc_valid : ∀ {s blocks} buffer oldSize newSize, newSize ≠ 0 → holds s blocks →
    (calls.realloc buffer oldSize newSize s).result ≠ .errorInvalidState
  free : ∀ {s b blocks}, holds s (b :: blocks) →
    ((calls.free b.addr b.size s).1 = .success ∧ holds (calls.free b.addr b.size s).2 blocks ∨
      (calls.free b.addr b.size s).1 = .warningArenaMemoryNotReclaimed ∧
        holds (calls.free b.addr b.size s).2 (b :: blocks) ∧
        Keeps [b] (calls.bytes s) (calls.bytes (calls.free b.addr b.size s).2)) ∧
    Keeps blocks (calls.bytes s) (calls.bytes (calls.free b.addr b.size s).2)

/-- An allocator that can be relied on. -/
structure Provider (σ : Type) extends Calls σ where
  holds : σ → List Block → Prop
  lawful : Lawful toCalls holds

/-! ## Arenas and chains -/

section Arena

variable {host : Host} {h : Heap} {held : List Block}

theorem reallocNewest_refused_bytes {buffer oldSize alignedOld alignedNew i : Nat} {a : Arena} :
    (reallocNewest host buffer oldSize alignedOld alignedNew i a h).result.isError = true →
      (reallocNewest host buffer oldSize alignedOld alignedNew i a h).buffer = buffer ∧
        (reallocNewest host buffer oldSize alignedOld alignedNew i a h).state.bytes = h.bytes := by
  unfold reallocNewest
  split
  · exact fun _ => ⟨rfl, rfl⟩
  · split
    · exact fun _ => ⟨rfl, rfl⟩
    · cases h.memory with
      | arena c => exact fun _ => ⟨rfl, rfl⟩
      | multiArena m =>
          -- a chain gets another block; with that the answer is no refusal
          simp only
          split
          · exact fun herr => by cases herr
          · exact fun _ => ⟨rfl, rfl⟩

theorem reallocBuried_refused_bytes {buffer oldSize alignedOld alignedNew : Nat} :
    (reallocBuried host buffer oldSize alignedOld alignedNew h).result.isError = true →
      (reallocBuried host buffer oldSize alignedOld alignedNew h).buffer = buffer ∧
        (reallocBuried host buffer oldSize alignedOld alignedNew h).state.bytes = h.bytes := by
  unfold reallocBuried
  split
  · simp only
    split
    · exact fun herr => by cases herr
    · exact fun _ => ⟨rfl, rfl⟩
  · exact fun _ => ⟨rfl, rfl⟩

/-- A refused resize leaves the caller's pointer and all bytes. -/
theorem realloc_refused {buffer oldSize newSize : Nat}
    (herr : (realloc host buffer oldSize newSize h).result.isError = true) :
    (realloc host buffer oldSize newSize h).buffer = buffer ∧
      (realloc host buffer oldSize newSize h).state.bytes = h.bytes := by
  unfold realloc at herr ⊢
  split at herr
  · rename_i hover
    rw [if_pos hover]
    exact ⟨rfl, rfl⟩
  · rename_i hover
    rw [if_neg hover]
    split at herr
    · rename_i hzero
      rw [if_pos hzero]
      refine ⟨?_, rfl⟩
      simp only at herr ⊢
      rw [if_neg (Result.ne_success_of_isError herr)]
    · rename_i hzero
      rw [if_neg hzero]
      split at herr
      · cases herr
      · rename_i hsame
        rw [if_neg hsame]
        -- one branch for a pointer of no arena, one for the newest block, one for a buried one
        cases hown : h.memory.owner buffer with
        | none =>
            simp only [hown] at herr ⊢
            split
            · exact ⟨rfl, rfl⟩
            · rename_i hz
              rw [if_neg hz] at herr
              exact reallocBuried_refused_bytes herr
        | some found =>
            simp only [hown] at herr ⊢
            split
            · rename_i hrec
              rw [if_pos hrec] at herr
              exact reallocNewest_refused_bytes herr
            · rename_i hrec
              rw [if_neg hrec] at herr
              exact reallocBuried_refused_bytes herr

/-- Without a block there is nothing to resize. -/
theorem realloc_null_eq {newSize : Nat} (host : Host) (h : Heap) (hover : align8U32 newSize ≠ 0) :
    realloc host 0 0 newSize h = reallocBuried host 0 0 0 (align8U32 newSize) h := by
  have hzero : align8U32 0 = 0 := by decide
  have hpass : ¬ ((newSize ≠ 0 ∧ align8U32 newSize = 0) ∨ ((0 : Nat) ≠ 0 ∧ align8U32 0 = 0)) :=
    fun hc => hc.elim (fun hc => hover hc.2) fun hc => hc.1 rfl
  unfold realloc
  rw [if_neg hpass, if_neg hover, if_neg (fun hc => hc.1 rfl), hzero]
  cases hown : h.memory.owner 0 with
  | none => simp only [ne_eq, not_true_eq_false, if_false]
  | some found => simp [Arena.isReclaimable]

/-- Without a block a fresh one is handed out, with a warning. -/
theorem realloc_null {newSize : Nat} (hs : Sound h.memory.arenas held)
    (hfresh : Fresh host h.memory.arenas) (hnew : newSize ≠ 0) :
    let r := realloc host 0 0 newSize h
    (r.result.isError = true ∧ r.buffer = 0 ∧ r.state.bytes = h.bytes ∧
      Sound r.state.memory.arenas held) ∨
    (r.result = .warningArenaMemoryNotReclaimed ∧ r.state.bytes = h.bytes ∧
      Sound r.state.memory.arenas (⟨r.buffer, newSize⟩ :: held)) := by
  intro r
  by_cases hover : align8U32 newSize = 0
  · left
    have hr : r = ⟨.errorArithmeticOverflow, 0, h⟩ := if_pos (Or.inl ⟨hnew, hover⟩)
    rw [hr]
    exact ⟨rfl, rfl, rfl, hs⟩
  · have hr : r = reallocBuried host 0 0 0 (align8U32 newSize) h := realloc_null_eq host h hover
    rw [hr, reallocBuried, if_pos (Nat.pos_of_ne_zero hover)]
    simp only
    rcases alloc_sound 0 (align8U32 newSize) hs hfresh with ⟨herr, -, hst⟩ | ⟨hok, hst⟩
    · left
      rw [if_neg (Result.ne_success_of_isError herr)]
      exact ⟨herr, rfl, rfl, hst⟩
    · right
      rw [if_pos hok]
      exact ⟨rfl, rfl, hst.resize (align8U32_align8U32 newSize).symm⟩

/-- The block is not the newest of its arena. -/
def Allocator.isBuried (memory : Allocator) (buffer size : Nat) : Bool :=
  match memory.owner buffer with
  | some (_, a) => !a.isReclaimable buffer (align8U32 size)
  | none => true

/-- The ways `arnm_realloc` takes for a block held when it does not refuse: the size is the same,
the block is the newest of its arena, or it is buried. -/
theorem realloc_dispatch {buffer oldSize newSize : Nat} (hs : Sound h.memory.arenas held)
    (hb : ⟨buffer, oldSize⟩ ∈ held) (hnew : newSize ≠ 0)
    (hok : ¬ (realloc host buffer oldSize newSize h).result.isError = true) :
    align8U32 newSize ≠ 0 ∧
    ((oldSize = newSize ∧ realloc host buffer oldSize newSize h = ⟨.success, buffer, h⟩) ∨
    (∃ i a, h.memory.arenas[i]? = some a ∧ (Block.mk buffer oldSize).room.Within a.used ∧
      a.data + a.lastIndex = buffer + align8U32 oldSize ∧
      realloc host buffer oldSize newSize h =
        reallocNewest host buffer oldSize (align8U32 oldSize) (align8U32 newSize) i a h) ∨
    (h.memory.isBuried buffer oldSize = true ∧
      realloc host buffer oldSize newSize h =
        reallocBuried host buffer oldSize (align8U32 oldSize) (align8U32 newSize) h)) := by
  have hr : ∀ r, realloc host buffer oldSize newSize h = r → ¬ r.result.isError = true :=
    fun r hr => hr ▸ hok
  -- a block held has an owner, so the branch for a stray pointer is not taken
  obtain ⟨i, a, hown, hi, hin⟩ := hs.owner hb
  unfold realloc at hr ⊢
  by_cases hover : (newSize ≠ 0 ∧ align8U32 newSize = 0) ∨ (oldSize ≠ 0 ∧ align8U32 oldSize = 0)
  · rw [if_pos hover] at hr
    exact absurd rfl (hr _ rfl)
  rw [if_neg hover]
  rw [not_or] at hover
  have hn : align8U32 newSize ≠ 0 := fun hz => hover.1 ⟨hnew, hz⟩
  rw [if_neg hn]
  refine ⟨hn, ?_⟩
  by_cases hsame : buffer ≠ 0 ∧ oldSize = newSize
  · rw [if_pos hsame]
    exact Or.inl ⟨hsame.2, rfl⟩
  rw [if_neg hsame]
  simp only [hown, Allocator.isBuried]
  cases hrec : a.isReclaimable buffer (align8U32 oldSize) with
  | true => exact Or.inr (Or.inl ⟨i, a, hi, hin, (Arena.isReclaimable_iff.mp hrec).2.2, rfl⟩)
  | false => exact Or.inr (Or.inr ⟨rfl, rfl⟩)

/-- A block that was resized is somewhere, and nothing but success and the one warning says so. -/
theorem realloc_carried_out {buffer oldSize newSize : Nat} (hs : Sound h.memory.arenas held)
    (hfresh : Fresh host h.memory.arenas) (hb : ⟨buffer, oldSize⟩ ∈ held) (hnew : newSize ≠ 0)
    (hok : ¬ (realloc host buffer oldSize newSize h).result.isError = true) :
    ((realloc host buffer oldSize newSize h).result = .success ∨
      (realloc host buffer oldSize newSize h).result = .warningArenaMemoryNotReclaimed) ∧
    (realloc host buffer oldSize newSize h).buffer ≠ 0 := by
  have hne : buffer ≠ 0 := hs.addr_ne hb
  obtain ⟨hn, ⟨-, hr⟩ | ⟨i, a, hi, hin, hnewest, hr⟩ | ⟨-, hr⟩⟩ := realloc_dispatch hs hb hnew hok
  · rw [hr]
    exact ⟨Or.inl rfl, hne⟩
  · rw [hr] at hok ⊢
    rcases reallocNewest_sound hs hfresh hb hi hin hnewest hn with ⟨herr, -⟩ | ⟨hres, hst⟩
    · exact absurd herr hok
    · exact ⟨Or.inl hres, hst.addr_ne List.mem_cons_self⟩
  · rw [hr] at hok ⊢
    rcases reallocBuried_sound buffer oldSize newSize hs hfresh with
      ⟨herr, -⟩ | ⟨hwarn, -, hbuf, -⟩ | ⟨hwarn, -, hst⟩
    · exact absurd herr hok
    · rw [hbuf]
      exact ⟨Or.inr hwarn, hne⟩
    · exact ⟨Or.inr hwarn, hst.addr_ne List.mem_cons_self⟩

/-- What `arnm_realloc` answers for a block held: a refusal, a warning that leaves a block too
large, or the block under its new size. -/
theorem realloc_answers {buffer oldSize newSize : Nat}
    (hs : Sound h.memory.arenas (⟨buffer, oldSize⟩ :: held))
    (hfresh : Fresh host h.memory.arenas) (hnew : newSize ≠ 0) :
    let r := realloc host buffer oldSize newSize h
    (r.result.isError = true ∧ r.buffer = buffer ∧ r.state.bytes = h.bytes ∧
      Sound r.state.memory.arenas (⟨buffer, oldSize⟩ :: held)) ∨
    (r.result = .warningArenaMemoryNotReclaimed ∧ newSize < oldSize ∧ r.buffer = buffer ∧
      r.state.bytes = h.bytes ∧ Sound r.state.memory.arenas (⟨buffer, oldSize⟩ :: held)) ∨
    ((r.result = .success ∨ r.result = .warningArenaMemoryNotReclaimed ∧ oldSize ≤ newSize) ∧
      Sound r.state.memory.arenas (⟨r.buffer, newSize⟩ :: held)) := by
  intro r
  have hb : (⟨buffer, oldSize⟩ : Block) ∈ (⟨buffer, oldSize⟩ :: held) := List.mem_cons_self
  have hsound : Sound r.state.memory.arenas
      (ledger (⟨buffer, oldSize⟩ :: held) r (.realloc buffer oldSize newSize)) :=
    realloc_sound hs hfresh (Or.inr hb)
  by_cases herr : r.result.isError = true
  · rw [ledger_of_isError herr] at hsound
    obtain ⟨hbuf, hbytes⟩ := realloc_refused herr
    exact Or.inl ⟨herr, hbuf, hbytes, hsound⟩
  obtain ⟨hres, hne⟩ := realloc_carried_out hs hfresh hb hnew herr
  simp only [ledger, if_neg herr, if_neg hnew, if_neg (show ¬ r.buffer = 0 from hne),
    List.erase_cons_head] at hsound
  split at hsound
  · rename_i hshrunk
    obtain ⟨hwarn, hlt⟩ := hshrunk
    rcases realloc_copiesApart hs hfresh hb hnew with ⟨hbytes, hbuf⟩ | ⟨-, hgrown, -⟩
    · -- the block stays where it is, larger than asked for
      exact Or.inr (Or.inl ⟨hwarn, hlt, hbuf, hbytes, hsound⟩)
    · -- a block that shrinks is copied nowhere
      have hmono := align8U32_mono (hs.size_ne _ hb) (Nat.le_of_lt hlt)
      simp only at hmono
      omega
  · rename_i hshrunk
    refine Or.inr (Or.inr ⟨hres.imp_right fun hwarn => ⟨hwarn, ?_⟩, hsound⟩)
    by_contra hlt
    exact hshrunk ⟨hwarn, by omega⟩

/-- What `arnm_free` answers for a block held: it came back, or it is kept where it is. -/
theorem free_answers {memory : Allocator} {b : Block} (hs : Sound memory.arenas (b :: held)) :
    ((free b.addr b.size memory).1 = .success ∧ Sound (free b.addr b.size memory).2.arenas held) ∨
    ((free b.addr b.size memory).1 = .warningArenaMemoryNotReclaimed ∧
      (free b.addr b.size memory).2 = memory) := by
  obtain ⟨-, hfreed⟩ := free_sound hs List.mem_cons_self rfl
  rw [List.erase_cons_head] at hfreed
  obtain ⟨i, a, hown, -, -⟩ := hs.owner List.mem_cons_self
  have hpass : ¬ (b.size ≠ 0 ∧ align8U32 b.size = 0) :=
    fun hz => hs.size_ne b List.mem_cons_self hz.2
  unfold free at hfreed ⊢
  rw [if_neg hpass] at hfreed ⊢
  simp only [hown] at hfreed ⊢
  split
  · rename_i hrec
    rw [if_pos hrec] at hfreed
    exact Or.inl ⟨rfl, hfreed⟩
  · exact Or.inr ⟨rfl, rfl⟩

/-- A chain whose vector of arenas is in a valid state. -/
def ValidVector (host : Host) : Prop :=
  ∀ refusal, host.refusal = some refusal → refusal.result ≠ .errorInvalidState

theorem arenaAllocAligned_valid {a : Arena} (buffer n : Nat) (hd : a.data ≠ 0) :
    (arenaAllocAligned buffer n a).result ≠ .errorInvalidState := by
  rw [arenaAllocAligned, if_neg hd]
  split <;> (intro h; cases h)

theorem multiArenaAlloc_valid {m : MultiArena} (buffer n : Nat)
    (hd : ∀ a ∈ m.arenas, a.data ≠ 0) (hvec : ValidVector host) :
    (multiArenaAlloc host buffer n m).result ≠ .errorInvalidState := by
  unfold multiArenaAlloc
  split
  · intro h
    cases h
  · simp only [← MultiArena.scan.eq_def]
    cases hfound : (m.scan n).2 with
    | some i =>
        obtain ⟨a, ha, -, -⟩ := MultiArena.scan_some hfound
        simp only [MultiArena.allocAt, ha]
        exact arenaAllocAligned_valid buffer n (hd a (List.mem_of_getElem? ha))
    | none =>
        simp only
        split
        · intro h
          cases h
        · cases hinit : initArena host (max m.arenaCapacity n) with
          | error result =>
              simp only
              rintro rfl
              unfold initArena at hinit
              split at hinit
              · cases hinit
              · split at hinit
                · cases hinit
                · split at hinit <;> cases hinit
          | ok a =>
              simp only [multiArenaPush]
              -- the index vector's refusal is handed on; with room in it the new arena serves
              cases hrefuse : host.refusal with
              | some refusal =>
                  have hvalid := hvec refusal hrefuse
                  split
                  · rename_i heq
                    rw [Prod.mk.injEq] at heq
                    have hres := refusal.isError
                    rw [heq.1] at hres
                    cases hres
                  · rename_i heq
                    rw [Prod.mk.injEq] at heq
                    exact heq.1 ▸ hvalid
              | none =>
                  have hback : (m.arenas ++ [a])[m.arenas.length]? = some a := by simp
                  simp only [MultiArena.allocAt, List.length_append, List.length_singleton,
                    Nat.add_sub_cancel, hback]
                  obtain ⟨-, hmalloc, hdata, -, -⟩ := initArena_ok hinit
                  exact arenaAllocAligned_valid buffer n (hdata ▸ hmalloc)

theorem alloc_valid {memory : Allocator} (buffer size : Nat) (hs : Sound memory.arenas held)
    (hvec : ValidVector host) : (alloc host buffer size memory).result ≠ .errorInvalidState := by
  unfold alloc
  split
  · nofun
  · split
    · nofun
    · cases memory with
      | arena a => exact arenaAllocAligned_valid buffer _ (hs.arena a List.mem_cons_self).data_ne
      | multiArena m =>
          exact multiArenaAlloc_valid buffer _ (fun a ha => (hs.arena a ha).data_ne) hvec

theorem reallocBuried_valid {buffer oldSize alignedOld alignedNew : Nat}
    (hs : Sound h.memory.arenas held) (hvec : ValidVector host) :
    (reallocBuried host buffer oldSize alignedOld alignedNew h).result ≠ .errorInvalidState := by
  unfold reallocBuried
  split
  · simp only
    split
    · nofun
    · exact alloc_valid 0 _ hs hvec
  · nofun

theorem reallocNewest_valid {buffer oldSize alignedOld alignedNew i : Nat} {a : Arena}
    (hs : Sound h.memory.arenas held) (hvec : ValidVector host) :
    (reallocNewest host buffer oldSize alignedOld alignedNew i a h).result ≠
      .errorInvalidState := by
  unfold reallocNewest
  split
  · nofun
  · split
    · nofun
    · cases hmem : h.memory with
      | arena c => nofun
      | multiArena m =>
          rw [hmem] at hs
          simp only
          split
          · nofun
          · exact alloc_valid 0 _ hs hvec

theorem realloc_valid {newSize : Nat} (buffer oldSize : Nat) (hs : Sound h.memory.arenas held)
    (hvec : ValidVector host) (hnew : newSize ≠ 0) :
    (realloc host buffer oldSize newSize h).result ≠ .errorInvalidState := by
  unfold realloc
  split
  · nofun
  · rename_i hover
    rw [not_or] at hover
    rw [if_neg fun hz => hover.1 ⟨hnew, hz⟩]
    split
    · nofun
    · cases h.memory.owner buffer with
      | none =>
          simp only
          split
          · nofun
          · exact reallocBuried_valid hs hvec
      | some found =>
          simp only
          split
          · exact reallocNewest_valid hs hvec
          · exact reallocBuried_valid hs hvec

/-- The hosts an allocator meets, call by call. -/
structure World where
  host : Nat → Heap → Host
  fresh : ∀ n h, Fresh (host n h) h.memory.arenas
  valid : ∀ n h, ValidVector (host n h)

/-- The calls of an arena or a chain, with their number so far. -/
def callsOfArena (world : World) : Calls (Heap × Nat) where
  isArena := true
  alloc buffer size s :=
    let r := Memory.alloc (world.host s.2 s.1) buffer size s.1.memory
    ⟨r.result, r.buffer, { s.1 with memory := r.state }, s.2 + 1⟩
  realloc buffer oldSize newSize s :=
    let r := Memory.realloc (world.host s.2 s.1) buffer oldSize newSize s.1
    ⟨r.result, r.buffer, r.state, s.2 + 1⟩
  free buffer size s :=
    let r := Memory.free buffer size s.1.memory
    (r.1, { s.1 with memory := r.2 }, s.2)
  bytes s := s.1.bytes
  write m s := ({ s.1 with bytes := m }, s.2)

theorem keeps_of_eq {blocks : List Block} {m m' : Bytes} (h : m' = m) : Keeps blocks m m' :=
  h ▸ Keeps.refl blocks m

theorem Block.extent_within {b : Block} (hb : align8U32 b.size ≠ 0) : b.extent.Within b.room :=
  ⟨Nat.le_refl _, Nat.add_le_add_left (le_align8U32 hb) _⟩

/-- An arena or a chain keeps to what a container relies on. -/
theorem lawful_callsOfArena (world : World) :
    Lawful (callsOfArena world) (fun s => Sound s.1.memory.arenas) where
  perm h hp := h.perm hp
  forget h := h.sublist (List.sublist_cons_self _ _)
  apart h := h.heldApart.imp_of_mem fun hb hc hapart =>
    hapart.within (Block.extent_within (h.size_ne _ hb)) (Block.extent_within (h.size_ne _ hc))
  room {s blocks} h b hb := by
    -- a block's bytes end where those of its arena do, within the address space
    have hsize := h.size_ne b hb
    have hle := le_align8U32 hsize
    obtain ⟨i, a, hi, hin⟩ := h.within b hb
    have ha := h.arena a (List.mem_of_getElem? hi)
    have hstop := ha.stop_le
    have hidx := ha.index_le
    have hin₂ : b.addr + align8U32 b.size ≤ a.data + a.lastIndex := hin.2
    exact ⟨h.addr_ne hb, Nat.pos_of_ne_zero (align8U32_ne_zero.mp hsize).1, by omega⟩
  bytes_write _ _ := rfl
  holds_write _ h := h
  alloc {s blocks} buffer size h := by
    rcases alloc_sound buffer size h (world.fresh s.2 s.1) with ⟨herr, hbuf, hst⟩ | ⟨hok, hst⟩
    · exact Or.inl ⟨herr, hbuf, hst, Keeps.refl _ _⟩
    · exact Or.inr ⟨hok, hst, Keeps.refl _ _⟩
  realloc_null {s blocks} newSize hnew h := by
    rcases realloc_null h (world.fresh s.2 s.1) hnew with
      ⟨herr, hbuf, hbytes, hst⟩ | ⟨hwarn, hbytes, hst⟩
    · exact Or.inl ⟨herr, hbuf, hst, keeps_of_eq hbytes⟩
    · exact Or.inr ⟨Or.inr hwarn, hst, keeps_of_eq hbytes⟩
  realloc {s buffer oldSize blocks} newSize hnew h := by
    obtain ⟨hblock, hothers⟩ := (realloc_copiesApart h (world.fresh s.2 s.1) List.mem_cons_self
      hnew).keeps (h.size_ne _ List.mem_cons_self)
    rcases realloc_answers h (world.fresh s.2 s.1) hnew with
      ⟨herr, hbuf, hbytes, hst⟩ | ⟨hwarn, hlt, hbuf, hbytes, hst⟩ | ⟨hres, hst⟩
    · exact Or.inl ⟨herr, hbuf, hst, keeps_of_eq hbytes⟩
    · exact Or.inr (Or.inl ⟨hwarn, hlt, hbuf, hst, keeps_of_eq hbytes⟩)
    · refine Or.inr (Or.inr ⟨hres, hst, hblock, fun b hb => ?_⟩)
      have hmem := List.mem_cons_of_mem ⟨buffer, oldSize⟩ hb
      exact (hothers b hmem).within (Block.extent_within (h.size_ne b hmem))
  alloc_valid {s blocks} buffer size h := alloc_valid buffer size h (world.valid s.2 s.1)
  realloc_valid {s blocks} buffer oldSize newSize hnew h :=
    realloc_valid buffer oldSize h (world.valid s.2 s.1) hnew
  free {s b blocks} h := by
    refine ⟨?_, Keeps.refl _ _⟩
    rcases free_answers h with ⟨hok, hst⟩ | ⟨hwarn, hsame⟩
    · exact Or.inl ⟨hok, hst⟩
    · refine Or.inr ⟨hwarn, ?_, Keeps.refl _ _⟩
      simp only [callsOfArena, hsame]
      exact h

/-- Arenas and chains as the allocator of a container. -/
def Provider.ofArena (world : World) : Provider (Heap × Nat) where
  toCalls := callsOfArena world
  holds s := Sound s.1.memory.arenas
  lawful := lawful_callsOfArena world

/-- A host without memory. -/
def noHost : World where
  host _ _ := Host.answering 0
  fresh _ _ := fun n _ hne => absurd (by simp [Host.answering]) hne
  valid _ _ := fun _ h => by cases h

/-- An arena over a lent buffer of `capacity` bytes. -/
def lentArena (capacity : Nat) : Heap := ⟨.arena ⟨8, 0, capacity, 0, .external⟩, fun _ => 0⟩

theorem lentArena_sound {capacity : Nat} (hc : capacity ≠ 0) (hdvd : 8 ∣ capacity)
    (hle : capacity ≤ maxAllocSize) :
    (Provider.ofArena noHost).holds (lentArena capacity, 0) [] := by
  have hstop : 8 + capacity ≤ 2 ^ 64 := by
    unfold maxAllocSize at hle
    omega
  obtain ⟨ha, -⟩ := borrow_sound hstop (initArenaBorrow_eq (by decide) (by decide) hdvd hc hle)
  exact sound_nil.push ha fun b hb => absurd hb List.not_mem_nil

end Arena

/-! ## The host -/

/-- The C library's allocator and the memory it hands out; `0` is `NULL`. -/
structure CLibrary (σ : Type) where
  malloc : Nat → σ → Nat × σ
  realloc : Nat → Nat → σ → Nat × σ
  free : Nat → σ → σ
  bytes : σ → Bytes
  write : Bytes → σ → σ

/-- What the C standard says of the three calls while a client holds blocks. -/
structure Documented {σ : Type} (lib : CLibrary σ) (holds : σ → List Block → Prop) : Prop where
  perm : ∀ {s blocks blocks'}, holds s blocks → blocks.Perm blocks' → holds s blocks'
  forget : ∀ {s b blocks}, holds s (b :: blocks) → holds s blocks
  apart : ∀ {s blocks}, holds s blocks → blocks.Pairwise fun b c => b.extent.Apart c.extent
  room : ∀ {s blocks}, holds s blocks →
    ∀ b ∈ blocks, b.addr ≠ 0 ∧ 0 < b.size ∧ b.addr + b.size ≤ 2 ^ 64
  bytes_write : ∀ m s, lib.bytes (lib.write m s) = m
  holds_write : ∀ {s blocks} m, holds s blocks → holds (lib.write m s) blocks
  malloc : ∀ {s blocks} size, size ≠ 0 → holds s blocks →
    Keeps blocks (lib.bytes s) (lib.bytes (lib.malloc size s).2) ∧
    ((lib.malloc size s).1 = 0 ∧ holds (lib.malloc size s).2 blocks ∨
      (lib.malloc size s).1 ≠ 0 ∧
        holds (lib.malloc size s).2 (⟨(lib.malloc size s).1, size⟩ :: blocks))
  realloc_null : ∀ size s, lib.realloc 0 size s = lib.malloc size s
  realloc : ∀ {s buffer oldSize blocks} size, size ≠ 0 → holds s (⟨buffer, oldSize⟩ :: blocks) →
    Keeps blocks (lib.bytes s) (lib.bytes (lib.realloc buffer size s).2) ∧
    ((lib.realloc buffer size s).1 = 0 ∧
        holds (lib.realloc buffer size s).2 (⟨buffer, oldSize⟩ :: blocks) ∧
        Keeps [⟨buffer, oldSize⟩] (lib.bytes s) (lib.bytes (lib.realloc buffer size s).2) ∨
      (lib.realloc buffer size s).1 ≠ 0 ∧
        holds (lib.realloc buffer size s).2 (⟨(lib.realloc buffer size s).1, size⟩ :: blocks) ∧
        ∀ k < min oldSize size, lib.bytes (lib.realloc buffer size s).2
          ((lib.realloc buffer size s).1 + k) = lib.bytes s (buffer + k))
  free : ∀ {s b blocks}, holds s (b :: blocks) →
    holds (lib.free b.addr s) blocks ∧ Keeps blocks (lib.bytes s) (lib.bytes (lib.free b.addr s))

section Host

variable {σ : Type}

/-- `arnm_alloc`, `arnm_realloc` and `arnm_free` where the handle is null. -/
def callsOfHost (lib : CLibrary σ) : Calls σ where
  isArena := false
  alloc buffer size s :=
    if size = 0 then ⟨.errorInvalidParam, buffer, s⟩
    else
      let allocated := lib.malloc size s
      if allocated.1 = 0 then ⟨.errorOutOfMemory, buffer, allocated.2⟩
      else ⟨.success, allocated.1, allocated.2⟩
  realloc buffer oldSize newSize s :=
    if (newSize ≠ 0 ∧ align8U32 newSize = 0) ∨ (oldSize ≠ 0 ∧ align8U32 oldSize = 0) then
      ⟨.errorArithmeticOverflow, buffer, s⟩
    else if align8U32 newSize = 0 then ⟨.success, 0, lib.free buffer s⟩
    else if buffer ≠ 0 ∧ oldSize = newSize then ⟨.success, buffer, s⟩
    else
      let resized := lib.realloc buffer newSize s
      if resized.1 = 0 then ⟨.errorOutOfMemory, buffer, resized.2⟩
      else ⟨.success, resized.1, resized.2⟩
  free buffer _ s := (.success, lib.free buffer s)
  bytes := lib.bytes
  write := lib.write

theorem keeps_cons {b : Block} {blocks : List Block} {m m' : Bytes} (hb : Keeps [b] m m')
    (h : Keeps blocks m m') : Keeps (b :: blocks) m m' := fun c hc => by
  rcases List.mem_cons.mp hc with rfl | hc
  · exact hb c List.mem_cons_self
  · exact h c hc

/-- The host behind the null handle keeps to what a container relies on. -/
theorem lawful_callsOfHost {lib : CLibrary σ} {holds : σ → List Block → Prop}
    (doc : Documented lib holds) : Lawful (callsOfHost lib) holds where
  perm := doc.perm
  forget := doc.forget
  apart := doc.apart
  room := doc.room
  bytes_write := doc.bytes_write
  holds_write := doc.holds_write
  alloc {s blocks} buffer size h := by
    simp only [callsOfHost]
    by_cases hz : size = 0
    · rw [if_pos hz]
      exact Or.inl ⟨rfl, rfl, h, Keeps.refl _ _⟩
    · rw [if_neg hz]
      obtain ⟨hkeep, ⟨hnull, hst⟩ | ⟨hgot, hst⟩⟩ := doc.malloc size hz h
      · rw [if_pos hnull]
        exact Or.inl ⟨rfl, rfl, hst, hkeep⟩
      · rw [if_neg hgot]
        exact Or.inr ⟨rfl, hst, hkeep⟩
  realloc_null {s blocks} newSize hnew h := by
    simp only [callsOfHost]
    split
    · exact Or.inl ⟨rfl, rfl, h, Keeps.refl _ _⟩
    · rename_i hover
      rw [not_or] at hover
      rw [if_neg fun hz => hover.1 ⟨hnew, hz⟩, if_neg fun hc => hc.1 rfl, doc.realloc_null]
      obtain ⟨hkeep, ⟨hnull, hst⟩ | ⟨hgot, hst⟩⟩ := doc.malloc newSize hnew h
      · rw [if_pos hnull]
        exact Or.inl ⟨rfl, rfl, hst, hkeep⟩
      · rw [if_neg hgot]
        exact Or.inr ⟨Or.inl rfl, hst, hkeep⟩
  realloc {s buffer oldSize blocks} newSize hnew h := by
    -- a block of the host is no null pointer, so the request goes to `realloc`
    simp only [callsOfHost]
    split
    · exact Or.inl ⟨rfl, rfl, h, Keeps.refl _ _⟩
    · rename_i hover
      rw [not_or] at hover
      rw [if_neg fun hz => hover.1 ⟨hnew, hz⟩]
      split
      · rename_i hsame
        obtain ⟨-, rfl⟩ := hsame
        exact Or.inr (Or.inr ⟨Or.inl rfl, h, fun _ _ => rfl, Keeps.refl _ _⟩)
      · obtain ⟨hkeep, ⟨hnull, hst, hblock⟩ | ⟨hgot, hst, hblock⟩⟩ := doc.realloc newSize hnew h
        · rw [if_pos hnull]
          exact Or.inl ⟨rfl, rfl, hst, keeps_cons hblock hkeep⟩
        · rw [if_neg hgot]
          exact Or.inr (Or.inr ⟨Or.inl rfl, hst, hblock, hkeep⟩)
  alloc_valid buffer size _ := by
    simp only [callsOfHost]
    split
    · nofun
    · split <;> nofun
  realloc_valid buffer oldSize newSize _ _ := by
    simp only [callsOfHost]
    split
    · nofun
    · split
      · nofun
      · split
        · nofun
        · split <;> nofun
  free h := ⟨Or.inl ⟨rfl, (doc.free h).1⟩, (doc.free h).2⟩

/-- The host as the allocator of a container. -/
def Provider.ofHost (lib : CLibrary σ) (holds : σ → List Block → Prop)
    (doc : Documented lib holds) : Provider σ where
  toCalls := callsOfHost lib
  holds := holds
  lawful := lawful_callsOfHost doc

end Host

end Arnm.Memory
