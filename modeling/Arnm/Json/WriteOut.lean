import Arnm.Json.HookRuns
import Arnm.Json.Writer

set_option autoImplicit false

/-! # Writing a document out

`arnm_json_writer_write` lets the JSON library write its text through the headerless hooks, and
hands the buffer over as a plain block of the caller's, cut to the text and its terminator. The
library is a parameter: it makes any calls of the buffer hooks, and it either leaves a text in the
buffer or an error and no buffer. -/

namespace Arnm.Json

open Memory

/-! ## What the library does -/

/-- A call of a headerless hook, or a write into the buffer. -/
inductive BufferCall where
  | alloc (host : Host) (size : Nat)
  | realloc (host : Host) (size : Nat)
  | dispose
  | write (offset : Nat) (values : List UInt8)

def HookState.bufferCall (s : HookState) : BufferCall → HookState
  | .alloc host size => s.bufferAlloc host size
  | .realloc host size => s.bufferRealloc host size
  | .dispose => s.bufferDispose
  | .write offset values => s.bufferWrite offset values

/-- There is one buffer at a time, it is no buried block that grows within its bytes, and it is
written where it is. -/
def BufferCall.Proper (s : HookState) : BufferCall → Prop
  | .alloc host _ => Fresh host s.heap.memory.arenas ∧ s.buffer.data = 0
  | .realloc host size => Fresh host s.heap.memory.arenas ∧ s.buffer.data ≠ 0 ∧
      Recordable s.heap ⟨s.buffer.data, s.buffer.size⟩ size
  | .dispose => True
  | .write offset values => offset + values.length ≤ s.contents.length

def ProperBufferCalls : HookState → List BufferCall → Prop
  | _, [] => True
  | s, call :: calls => call.Proper s ∧ ProperBufferCalls (s.bufferCall call) calls

/-- The codes the writer tells apart. -/
inductive WriteCode where
  | memoryAllocation
  | invalidParameter
  | other
  deriving DecidableEq, Repr

/-- What a serialization does: its calls of the hooks, and the length it answers. -/
structure Serializing where
  calls : List BufferCall
  verdict : Except WriteCode Nat

/-! ## The call -/

/-- `narrow_length` -/
def narrowLength (length : Nat) : Nat := if 2 ^ 32 - 1 < length then 2 ^ 32 - 1 else length

/-- `translate_write_error` -/
def translateWriteError : WriteCode → Result
  | .memoryAllocation => .errorOutOfMemory
  | .invalidParameter => .errorInvalidParam
  | .other => .errorEncodeFailed

/-- What the call leaves: its answer, what it put into `out` and `out_length`, and the hooks. -/
structure WriteAnswer where
  result : Result
  out : MemoryBlock
  length : Nat
  hooks : HookState

/-- The buffer goes over into the caller's hands. -/
def HookState.handedOver (r : BlockAnswer) (s : HookState) : HookState :=
  { s with
    heap := r.heap, buffer := .empty, contents := []
    others := ⟨r.block.data, r.block.size⟩ :: s.others }

/-- What the call does with a serialization. -/
def HookState.writeText (serializing : Serializing) (host : Host) (out : MemoryBlock)
    (length : Nat) (s : HookState) : WriteAnswer :=
  let s := serializing.calls.foldl HookState.bufferCall s
  match serializing.verdict with
  | .error code => ⟨translateWriteError code, out, length, s⟩
  | .ok written =>
    let narrowed := narrowLength written
    -- a text that cannot be handed over goes back
    if narrowed ≠ written then ⟨.errorArithmeticOverflow, out, length, s.bufferDispose⟩
    else
      let needed := (narrowed + 1) % 2 ^ 32
      let shrunk := memoryBlockRealloc host s.buffer needed s.heap
      ⟨if shrunk.result = .warningArenaMemoryNotReclaimed then shrunk.result else .success,
        shrunk.block, narrowed, s.handedOver shrunk⟩

/-- `arnm_json_writer_write` -/
def Writer.write (serialize : Document → HookState → Serializing) (host : Host) (out : MemoryBlock)
    (length : Nat) (s : HookState) (w : Writer) : WriteAnswer :=
  if w.status ≠ .success then ⟨w.status, out, length, s⟩
  else
    match w.doc with
    | none => ⟨.errorInvalidState, out, length, s⟩
    | some doc =>
      let s := { s with buffer := .empty, contents := [] }
      s.writeText (serialize doc s) host out length

/-- What the JSON library's documentation says of a serialization: it uses the one buffer as it is
meant to be used, an error leaves none, and a text stands in it with its terminator. -/
structure Serializes (serialize : Document → HookState → Serializing) : Prop where
  proper : ∀ doc s, s.Sound → s.buffer.data = 0 → ProperBufferCalls s (serialize doc s).calls
  refused : ∀ doc s code, s.Sound → s.buffer.data = 0 → (serialize doc s).verdict = .error code →
    ((serialize doc s).calls.foldl HookState.bufferCall s).buffer.data = 0
  written : ∀ doc s n, s.Sound → s.buffer.data = 0 → (serialize doc s).verdict = .ok n →
    ((serialize doc s).calls.foldl HookState.bufferCall s).buffer.data ≠ 0 ∧
    ((serialize doc s).calls.foldl HookState.bufferCall s).contents[n]? = some 0

/-! ## A cut at the end -/

/-- The newest block of an arena is cut in place, whatever the host. -/
theorem reallocNewest_cut (buffer oldSize i : Nat) (a : Arena) (h : Heap)
    {oldAligned newAligned : Nat} (hle : newAligned ≤ oldAligned) :
    ∃ memory, ∀ host, reallocNewest host buffer oldSize oldAligned newAligned i a h =
      ⟨.success, buffer, { h with memory := memory }⟩ := by
  by_cases hlt : newAligned < oldAligned
  · exact ⟨_, fun _ => if_pos hlt⟩
  · have hroom : newAligned - oldAligned ≤ a.remainingBytes := by
      rw [Nat.sub_eq_zero_of_le hle]
      exact Nat.zero_le _
    exact ⟨_, fun _ => (if_neg hlt).trans (if_pos hroom)⟩

/-- A block that is cut stays where it is with its bytes; it goes by the new size if it is the
newest of its arena, and by the old one otherwise. -/
theorem realloc_cut {h : Heap} {b : Block} {rest : List Block} {newSize : Nat} (host : Host)
    (hs : Sound h.memory.arenas (b :: rest)) (hnew : newSize ≠ 0) (hle : newSize ≤ b.size) :
    let r := realloc host b.addr b.size newSize h
    r.buffer = b.addr ∧ r.state.bytes = h.bytes ∧
      (r.result = .success ∧ Sound r.state.memory.arenas (⟨b.addr, newSize⟩ :: rest) ∨
        r.result = .warningArenaMemoryNotReclaimed ∧ newSize ≠ b.size ∧ r.state = h) := by
  intro r
  have hpos : align8U32 b.size ≠ 0 := hs.size_ne b List.mem_cons_self
  have hmono := align8U32_mono hpos hle
  have hnewpos : align8U32 newSize ≠ 0 :=
    align8U32_ne_zero.mpr ⟨hnew, hle.trans (align8U32_ne_zero.mp hpos).2⟩
  obtain ⟨i, a, hown, hi, hin⟩ := hs.owner List.mem_cons_self
  have hr : r = realloc host b.addr b.size newSize h := rfl
  unfold realloc at hr
  rw [if_neg (by omega), if_neg hnewpos] at hr
  by_cases hsame : b.addr ≠ 0 ∧ b.size = newSize
  · rw [if_pos hsame] at hr
    rw [hr, ← hsame.2]
    exact ⟨rfl, rfl, Or.inl ⟨rfl, hs⟩⟩
  rw [if_neg hsame] at hr
  simp only [hown] at hr
  by_cases hnewest : a.isReclaimable b.addr (align8U32 b.size) = true
  · rw [if_pos hnewest] at hr
    have htail := (Arena.isReclaimable_iff.mp hnewest).2.2
    obtain ⟨memory, hcut⟩ := reallocNewest_cut b.addr b.size i a h hmono
    -- no piece is asked for, so any host will do
    have hsound :=
      reallocNewest_sound hs (silentHost_fresh _) List.mem_cons_self hi hin htail hnewpos
    simp only [hcut, List.erase_cons_head] at hsound
    rw [hr, hcut]
    refine ⟨rfl, rfl, Or.inl ⟨rfl, ?_⟩⟩
    rcases hsound with ⟨hbad, -⟩ | ⟨-, hst⟩
    · cases hbad
    · exact hst
  · rw [if_neg hnewest] at hr
    unfold reallocBuried at hr
    rw [if_neg (Nat.not_lt.mpr hmono)] at hr
    rw [hr]
    refine ⟨rfl, rfl, Or.inr ⟨rfl, fun heq => hsame ⟨?_, heq.symm⟩, rfl⟩⟩
    exact hs.addr_ne List.mem_cons_self

/-! ## The buffer's calls leave the rest alone -/

/-- Everything but the buffer is as it was. -/
structure HookState.Aside (s s' : HookState) : Prop where
  lent : s'.lent = s.lent
  others : s'.others = s.others
  bytes : ∀ b ∈ s.others, Bytes.AgreeOn s.heap.bytes s'.heap.bytes b.room

theorem HookState.Aside.refl (s : HookState) : s.Aside s :=
  ⟨rfl, rfl, fun _ _ => Bytes.AgreeOn.refl _ _⟩

theorem HookState.Aside.trans {s s' s'' : HookState} (h : s.Aside s') (h' : s'.Aside s'') :
    s.Aside s'' :=
  ⟨h'.lent.trans h.lent, h'.others.trans h.others, fun b hb =>
    (h.bytes b hb).trans (h'.bytes b (h.others ▸ hb))⟩

namespace HookState.Sound

variable {s : HookState} (hs : s.Sound)
include hs

theorem bufferAlloc_aside {host : Host} (size : Nat) (fresh : Fresh host s.heap.memory.arenas)
    (hnone : s.buffer.data = 0) : s.Aside (s.bufferAlloc host size) := by
  have hsound := hs.sound
  rw [blocks_of_none hnone] at hsound
  obtain ⟨hbytes, -⟩ := jsonBufferAlloc_spec size s.buffer.size hsound fresh
  have hkept : ∀ b ∈ s.others, Bytes.AgreeOn s.heap.bytes
      (jsonBufferAlloc host size s.buffer.size s.heap).heap.bytes b.room := by
    intro b _
    rw [hbytes]
    exact Bytes.AgreeOn.refl _ _
  unfold HookState.bufferAlloc
  dsimp only
  split
  · exact ⟨rfl, rfl, hkept⟩
  · exact ⟨rfl, rfl, hkept⟩

theorem bufferRealloc_aside {host : Host} {size : Nat} (hne : s.buffer.data ≠ 0)
    (fresh : Fresh host s.heap.memory.arenas)
    (hgrow : Recordable s.heap ⟨s.buffer.data, s.buffer.size⟩ size) :
    s.Aside (s.bufferRealloc host size) := by
  have hspec := jsonBufferRealloc_spec size (hs.buffer_head hne) fresh hgrow
  have hkept : ∀ b ∈ s.others, Bytes.AgreeOn s.heap.bytes
      (jsonBufferRealloc host s.buffer.data size s.buffer.size s.heap).heap.bytes b.room := by
    intro b hb
    rcases hspec with ⟨-, -, hbytes, -⟩ | ⟨b', -, -, hres⟩
    · simp only at hbytes
      rw [hbytes]
      exact Bytes.AgreeOn.refl _ _
    · exact hres.around b (List.mem_append_right _ hb)
  unfold HookState.bufferRealloc
  dsimp only
  split
  · exact ⟨rfl, rfl, hkept⟩
  · exact ⟨rfl, rfl, hkept⟩

omit hs in
theorem bufferDispose_aside : s.Aside s.bufferDispose := by
  refine ⟨rfl, rfl, fun b _ => ?_⟩
  have hbytes : s.bufferDispose.heap.bytes = s.heap.bytes := by
    unfold HookState.bufferDispose jsonBufferDispose
    split <;> rfl
  rw [hbytes]
  exact Bytes.AgreeOn.refl _ _

theorem bufferWrite_aside {offset : Nat} {values : List UInt8}
    (inside : offset + values.length ≤ s.contents.length) :
    s.Aside (s.bufferWrite offset values) := by
  refine ⟨rfl, rfl, fun b hb => ?_⟩
  by_cases hne : s.buffer.data = 0
  · -- nothing is written where there is no buffer
    have hnil : values = [] := by
      rw [hs.buffer.empty hne] at inside
      exact List.length_eq_zero_iff.mp (by simp only [List.length_nil] at inside; omega)
    subst hnil
    intro x _
    refine if_neg fun hin => ?_
    simp only [List.length_nil] at hin
    omega
  · have hhead := hs.buffer_head hne
    have hcovers := hs.buffer.covers
    have hroom : s.buffer.size ≤ align8U32 s.buffer.size :=
      le_align8U32 (hhead.size_ne _ List.mem_cons_self)
    have hapart := (List.pairwise_cons.mp hhead.heldApart).1 b (List.mem_append_right _ hb)
    refine Bytes.put_agreeOn (hapart.within ⟨Nat.le_add_right _ _, ?_⟩ (Region.Within.refl _))
    show s.buffer.data + offset + values.length ≤ s.buffer.data + align8U32 s.buffer.size
    omega

/-- A proper call of the buffer hooks. -/
theorem bufferCall {call : BufferCall} (hcall : call.Proper s) :
    (s.bufferCall call).Sound ∧ s.Aside (s.bufferCall call) := by
  cases call with
  | alloc host size =>
      exact ⟨hs.bufferAlloc size hcall.1 hcall.2, hs.bufferAlloc_aside size hcall.1 hcall.2⟩
  | realloc host size =>
      obtain ⟨fresh, hne, hgrow⟩ := hcall
      exact ⟨hs.bufferRealloc fresh hgrow, hs.bufferRealloc_aside hne fresh hgrow⟩
  | dispose => exact ⟨hs.bufferDispose, bufferDispose_aside⟩
  | write offset values => exact ⟨hs.bufferWrite hcall, hs.bufferWrite_aside hcall⟩

theorem bufferCalls {calls : List BufferCall} (hcalls : ProperBufferCalls s calls) :
    (calls.foldl HookState.bufferCall s).Sound ∧
      s.Aside (calls.foldl HookState.bufferCall s) := by
  induction calls generalizing s with
  | nil => exact ⟨hs, .refl s⟩
  | cons call calls ih =>
      obtain ⟨hstep, haside⟩ := hs.bufferCall hcalls.1
      obtain ⟨hrun, hrest⟩ := ih hstep hcalls.2
      exact ⟨hrun, haside.trans hrest⟩

/-- A buffer with a text of `n` bytes and its terminator is cut and handed over. -/
theorem handedOver {n : Nat} (host : Host) (hne : s.buffer.data ≠ 0)
    (hterm : s.contents[n]? = some 0) :
    let r := memoryBlockRealloc host s.buffer (n + 1) s.heap
    r.heap.bytes = s.heap.bytes ∧ r.block.data = s.buffer.data ∧ n + 1 ≤ r.block.size ∧
    (r.result = .success ∧ r.block.size = n + 1 ∨
      r.result = .warningArenaMemoryNotReclaimed ∧ r.block.size ≠ n + 1) ∧
    (s.handedOver r).Sound := by
  intro r
  have hr : r = memoryBlockRealloc host s.buffer (n + 1) s.heap := rfl
  have hlen : n + 1 ≤ s.contents.length := (List.getElem?_eq_some_iff.mp hterm).1
  have hle : n + 1 ≤ s.buffer.size := hlen.trans hs.buffer.covers
  have hhead := hs.buffer_head hne
  obtain ⟨hbuf, hbytes, hanswer⟩ := realloc_cut host hhead (Nat.succ_ne_zero n) hle
  unfold memoryBlockRealloc MemoryBlock.recorded at hr
  generalize realloc host s.buffer.data s.buffer.size (n + 1) s.heap = got at hr hbuf hbytes hanswer
  -- the lent blocks and the others are those they were, with the text in front of the others
  have hsound : ∀ size, Memory.Sound got.state.memory.arenas
        (⟨s.buffer.data, size⟩ :: (s.lent.map Lent.block ++ s.others)) →
      r.block = ⟨s.buffer.data, size⟩ → (s.handedOver r).Sound := by
    intro size hst hblock
    have hheap : r.heap = got.state := by rw [hr]
    refine ⟨?_, ?_, ⟨Nat.zero_le _, rfl, fun _ => rfl⟩⟩
    · show Memory.Sound r.heap.memory.arenas
        (s.lent.map Lent.block ++ ([] ++ (⟨r.block.data, r.block.size⟩ :: s.others)))
      rw [hheap, hblock]
      exact hst.perm List.perm_middle.symm
    · show ∀ l ∈ s.lent, l.Intact r.heap.bytes
      rw [hheap, hbytes]
      exact hs.lent
  rcases hanswer with ⟨hok, hst⟩ | ⟨hwarn, hsize, hsame⟩
  · have hblock : r.block = ⟨s.buffer.data, n + 1⟩ := by
      rw [hr, if_pos (Or.inl hok), hbuf]
    have hres : r.result = .success := by rw [hr, hok]
    refine ⟨by rw [hr, hbytes], by rw [hblock], ?_, Or.inl ⟨hres, by rw [hblock]⟩,
      hsound _ hst hblock⟩
    rw [hblock]
  · have hstays : ¬ (got.result = .success ∨ s.buffer.data ≠ got.buffer) := by
      rw [hwarn, hbuf]
      rintro (hno | hno)
      · cases hno
      · exact hno rfl
    have hblock : r.block = ⟨s.buffer.data, s.buffer.size⟩ := by
      rw [hr, if_neg hstays, hbuf]
    have hres : r.result = .warningArenaMemoryNotReclaimed := by rw [hr, hwarn]
    refine ⟨by rw [hr, hbytes], by rw [hblock], by rw [hblock]; exact hle,
      Or.inr ⟨hres, ?_⟩, hsound _ (hsame ▸ hhead) hblock⟩
    rw [hblock]
    exact hsize.symm

/-- A text that stands in the buffer has a length that fits, so it is cut and handed over. -/
theorem writeText_ok {s₀ : HookState} {serializing : Serializing} {written : Nat} (host : Host)
    (out : MemoryBlock) (length : Nat) (hverdict : serializing.verdict = .ok written)
    (hafter : serializing.calls.foldl HookState.bufferCall s₀ = s) (hne : s.buffer.data ≠ 0)
    (hterm : s.contents[written]? = some 0) :
    let shrunk := memoryBlockRealloc host s.buffer (written + 1) s.heap
    s₀.writeText serializing host out length =
      ⟨shrunk.result, shrunk.block, written, s.handedOver shrunk⟩ := by
  intro shrunk
  -- no buffer is as large as a length that would be narrowed
  have hlen : written + 1 ≤ s.contents.length := (List.getElem?_eq_some_iff.mp hterm).1
  have hmax : s.buffer.size ≤ maxAllocSize :=
    (align8U32_ne_zero.mp ((hs.buffer_head hne).size_ne _ List.mem_cons_self)).2
  have hfits : written + 1 ≤ maxAllocSize := (hlen.trans hs.buffer.covers).trans hmax
  have hbound : maxAllocSize < 2 ^ 32 := by decide
  have hnarrow : narrowLength written = written := by
    unfold narrowLength
    rw [if_neg (by omega)]
  have hneeded : (written + 1) % 2 ^ 32 = written + 1 := Nat.mod_eq_of_lt (by omega)
  have hresult : (if shrunk.result = .warningArenaMemoryNotReclaimed then shrunk.result
      else .success) = shrunk.result := by
    obtain ⟨-, -, -, ⟨hok, -⟩ | ⟨hwarn, -⟩, -⟩ := hs.handedOver host hne hterm
    · rw [show shrunk.result = _ from hok]
      rfl
    · exact if_pos hwarn
  unfold HookState.writeText
  simp only [hverdict, hafter, hnarrow, hneeded, ne_eq, not_true_eq_false, if_false]
  rw [show (if (memoryBlockRealloc host s.buffer (written + 1) s.heap).result =
    .warningArenaMemoryNotReclaimed then _ else _) = _ from hresult]

/-- The call begins with no buffer. -/
theorem cleared (hnone : s.buffer.data = 0) :
    HookState.Sound { s with buffer := .empty, contents := [] } := by
  have hsound := hs.sound
  rw [blocks_of_none hnone] at hsound
  exact ⟨hsound, hs.lent, ⟨Nat.le_refl _, rfl, fun _ => rfl⟩⟩

end HookState.Sound

/-- A write leaves the blocks of the document and of the others as they were, and no buffer. Either
it answers why there is no text, with nothing taken and nothing written to the caller, or it hands
over a block that holds the text the library wrote and its terminator and goes by exactly their
size; where that block is not the newest of its arena the answer is the warning and the block goes
by the size it was granted. A length that does not fit is never met. -/
theorem write_hands_over {serialize : Document → HookState → Serializing}
    (documented : Serializes serialize) {s : HookState} (run : HookRun Recordable s)
    (hnone : s.buffer.data = 0) (host : Host) (out : MemoryBlock) (length : Nat) (w : Writer) :
    let s₀ : HookState := { s with buffer := .empty, contents := [] }
    let r := w.write serialize host out length s
    (Memory.Sound r.hooks.heap.memory.arenas r.hooks.blocks ∧ r.hooks.buffer.data = 0 ∧
      r.hooks.lent = s.lent ∧ (∀ l ∈ s.lent, l.Intact r.hooks.heap.bytes) ∧
      ∀ b ∈ s.others, Bytes.AgreeOn s.heap.bytes r.hooks.heap.bytes b.room) ∧
    ((r.out = out ∧ r.length = length ∧ r.hooks.others = s.others ∧
        (w.status ≠ .success ∧ r.result = w.status ∨
          w.status = .success ∧
            (r.result = .errorInvalidState ∨ r.result = .errorOutOfMemory ∨
              r.result = .errorInvalidParam ∨ r.result = .errorEncodeFailed))) ∨
      ∃ doc, w.status = .success ∧ w.doc = some doc ∧
        (serialize doc s₀).verdict = .ok r.length ∧
        r.hooks.heap.bytes.read r.out.data (r.length + 1) =
          ((serialize doc s₀).calls.foldl HookState.bufferCall s₀).contents.take r.length ++ [0] ∧
        r.hooks.others = ⟨r.out.data, r.out.size⟩ :: s.others ∧ r.length + 1 ≤ r.out.size ∧
        (r.result = .success ∧ r.out.size = r.length + 1 ∨
          r.result = .warningArenaMemoryNotReclaimed ∧ r.out.size ≠ r.length + 1)) := by
  intro s₀ r
  have hr : r = w.write serialize host out length s := rfl
  have hs := run.sound
  unfold Writer.write at hr
  -- a writer that has an error or no document
  by_cases hstatus : w.status ≠ .success
  · rw [if_pos hstatus] at hr
    rw [hr]
    exact ⟨⟨hs.sound, hnone, rfl, hs.lent, fun _ _ => Bytes.AgreeOn.refl _ _⟩,
      Or.inl ⟨rfl, rfl, rfl, Or.inl ⟨hstatus, rfl⟩⟩⟩
  rw [if_neg hstatus] at hr
  have hclean := not_not.mp hstatus
  cases hdoc : w.doc with
  | none =>
      rw [hdoc] at hr
      rw [hr]
      exact ⟨⟨hs.sound, hnone, rfl, hs.lent, fun _ _ => Bytes.AgreeOn.refl _ _⟩,
        Or.inl ⟨rfl, rfl, rfl, Or.inr ⟨hclean, Or.inl rfl⟩⟩⟩
  | some doc =>
      rw [hdoc] at hr
      have hs₀ : s₀.Sound := hs.cleared hnone
      obtain ⟨hsound, haside⟩ := hs₀.bufferCalls (documented.proper doc s₀ hs₀ rfl)
      change r = s₀.writeText (serialize doc s₀) host out length at hr
      cases hverdict : (serialize doc s₀).verdict with
      | error code =>
          have hgone := documented.refused doc s₀ code hs₀ rfl hverdict
          unfold HookState.writeText at hr
          rw [hverdict] at hr
          rw [hr]
          refine ⟨⟨hsound.sound, hgone, haside.lent, haside.lent ▸ hsound.lent, haside.bytes⟩,
            Or.inl ⟨rfl, rfl, haside.others, Or.inr ⟨hclean, Or.inr ?_⟩⟩⟩
          cases code with
          | memoryAllocation => exact Or.inl rfl
          | invalidParameter => exact Or.inr (Or.inl rfl)
          | other => exact Or.inr (Or.inr rfl)
      | ok written =>
          obtain ⟨hne, hterm⟩ := documented.written doc s₀ written hs₀ rfl hverdict
          rw [hsound.writeText_ok host out length hverdict rfl hne hterm] at hr
          generalize hs₁ : (serialize doc s₀).calls.foldl HookState.bufferCall s₀ = s₁
            at hr hsound haside hne hterm
          obtain ⟨hbytes, hdata, hsize, hanswer, hafter⟩ := hsound.handedOver host hne hterm
          generalize memoryBlockRealloc host s₁.buffer (written + 1) s₁.heap = shrunk
            at hr hbytes hdata hsize hanswer hafter
          have hlent : (s₁.handedOver shrunk).lent = s.lent := haside.lent
          rw [hr]
          refine ⟨⟨hafter.sound, rfl, hlent, hlent ▸ hafter.lent, ?_⟩,
            Or.inr ⟨doc, hclean, rfl, hverdict, ?_, ?_, hsize, hanswer⟩⟩
          · intro b hb
            have hkept : (s₁.handedOver shrunk).heap.bytes = s₁.heap.bytes := hbytes
            rw [hkept]
            exact haside.bytes b hb
          · show shrunk.heap.bytes.read shrunk.block.data (written + 1) =
              ((serialize doc s₀).calls.foldl HookState.bufferCall s₀).contents.take written ++ [0]
            have hlen : written + 1 ≤ s₁.contents.length := (List.getElem?_eq_some_iff.mp hterm).1
            have htake := Bytes.read_take s₁.heap.bytes s₁.buffer.data s₁.contents.length
              (written + 1)
            rw [hsound.buffer.bytes, Nat.min_eq_right hlen] at htake
            rw [hs₁, hbytes, hdata, ← htake, List.take_add_one, hterm]
            rfl
          · show ⟨shrunk.block.data, shrunk.block.size⟩ :: s₁.others = _
            rw [haside.others]

/-- A library that writes every document as `{}`, into a buffer of four bytes. -/
def printsEmptyObject (_ : Document) (s : HookState) : Serializing :=
  if (s.bufferAlloc silentHost 4).buffer.data = 0 then
    ⟨[.alloc silentHost 4], .error .memoryAllocation⟩
  else ⟨[.alloc silentHost 4, .write 0 [123, 125, 0]], .ok 2⟩

theorem bufferAlloc_contents {s : HookState} {host : Host} {size : Nat}
    (hnone : s.buffer.data = 0) (hne : ¬ (s.bufferAlloc host size).buffer.data = 0) :
    (s.bufferAlloc host size).contents.length = size := by
  unfold HookState.bufferAlloc at hne ⊢
  dsimp only at hne ⊢
  split at hne
  · exact absurd hnone hne
  · rename_i hp
    rw [if_neg hp]
    exact Bytes.length_read _ _ _

theorem printsEmptyObject_serializes : Serializes printsEmptyObject where
  proper doc s hs hnone := by
    unfold printsEmptyObject
    split
    · exact ⟨⟨silentHost_fresh _, hnone⟩, trivial⟩
    · rename_i hne
      refine ⟨⟨silentHost_fresh _, hnone⟩, ?_, trivial⟩
      show 0 + 3 ≤ (s.bufferAlloc silentHost 4).contents.length
      rw [bufferAlloc_contents hnone hne]
      decide
  refused doc s code hs hnone hcode := by
    unfold printsEmptyObject at hcode ⊢
    split at hcode
    · rename_i hgone
      rw [if_pos hgone]
      exact hgone
    · cases hcode
  written doc s n hs hnone hn := by
    unfold printsEmptyObject at hn ⊢
    split at hn
    · cases hn
    · rename_i hne
      cases hn
      rw [if_neg hne]
      exact ⟨hne, rfl⟩

/-- A writer of an empty object, and what it writes into a lent arena of 128 bytes. -/
def emptyObjectWriter : Writer := (Writer.init.beginObject ⟨true, true, true, true, false⟩).2

def emptyObjectWritten : WriteAnswer :=
  emptyObjectWriter.write printsEmptyObject silentHost .empty 0
    ⟨lentArena 128, .init, [], .empty, [], []⟩

/-- The text is handed over in a block of three bytes. -/
theorem write_hands_over_sample :
    emptyObjectWritten.hooks.buffer.data = 0 ∧
    emptyObjectWritten.result = .success ∧ emptyObjectWritten.out.size = 3 ∧
    emptyObjectWritten.hooks.heap.bytes.read emptyObjectWritten.out.data 3 = [123, 125, 0] := by
  have run : HookRun Recordable ⟨lentArena 128, .init, [], .empty, [], []⟩ :=
    .start ⟨lentArena 128, []⟩ (.borrowed 8 128 _ _ (by norm_num) rfl)
  obtain ⟨⟨-, hnone, -⟩, -⟩ :=
    write_hands_over printsEmptyObject_serializes run rfl silentHost .empty 0 emptyObjectWriter
  exact ⟨hnone, by decide, by decide, by decide⟩

end Arnm.Json
