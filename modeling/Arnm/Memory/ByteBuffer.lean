import Arnm.Memory.Provider

set_option autoImplicit false

/-! # Byte buffers

`byte_buffer.h` appends bytes to one block, asked for once. `Filling` is what a buffer is for: bytes
at an address, never more than a capacity, appended as a whole or not at all. In every state of
every run of calls, with others using the allocator in between, the buffer describes its filling, a
call answers as the filling does, and the filling stays at its address until it is freed. -/

namespace Arnm.Memory.Packing

variable {σ : Type}

/-- `arnm_byte_buffer` -/
structure ByteBuffer where
  data : Nat
  size : BitVec 32
  lastIndex : BitVec 32
deriving DecidableEq, Repr

structure State (σ : Type) where
  buffer : ByteBuffer
  heap : σ

/-- A zeroed buffer, which is also what a free leaves. -/
def zeroed : ByteBuffer := ⟨0, 0#32, 0#32⟩

/-- `arnm_byte_buffer_init` -/
def init (host : Calls σ) (st : State σ) (size : BitVec 32) : Result × State σ :=
  let r := host.alloc 0 size.toNat st.heap
  if r.result ≠ .success then (r.result, { st with heap := r.state })
  else (r.result, ⟨⟨r.buffer, size, 0#32⟩, r.state⟩)

/-- `arnm_byte_buffer_free` -/
def free (host : Calls σ) (st : State σ) : Result × State σ :=
  let r := host.free st.buffer.data st.buffer.size.toNat st.heap
  (r.1, ⟨if r.1 = .success then zeroed else st.buffer, r.2⟩)

/-- `arnm_byte_buffer_clear` -/
def clear (st : State σ) : State σ := { st with buffer := { st.buffer with lastIndex := 0#32 } }

/-- `arnm_byte_buffer_available` -/
def available (buffer : ByteBuffer) : BitVec 32 := buffer.size - buffer.lastIndex

/-- The copy and the step of the mark. -/
def unsafeCopy (host : Calls σ) (st : State σ) (src : Nat) (size : BitVec 32) : State σ where
  buffer := { st.buffer with lastIndex := st.buffer.lastIndex + size }
  heap := host.write ((host.bytes st.heap).copy (st.buffer.data + st.buffer.lastIndex.toNat) src
    size.toNat) st.heap

/-- What `unsafe_arnm_byte_buffer_copy` asserts. -/
def CopyAsserts (buffer : ByteBuffer) (src : Nat) (size : BitVec 32) : Prop :=
  src ≠ 0 ∧ buffer.data ≠ 0 ∧ size ≤ buffer.size - buffer.lastIndex

/-- `arnm_byte_buffer_copy` -/
def copy (host : Calls σ) (st : State σ) (src : Nat) (size : BitVec 32) : Result × State σ :=
  if src = 0 then (.errorNullPointer, st)
  else if st.buffer.data = 0 then (.errorNotInitialized, st)
  else if st.buffer.size - st.buffer.lastIndex < size then (.errorResourceExhausted, st)
  else (.success, unsafeCopy host st src size)

/-- The store and the step of the mark. -/
def unsafePush (host : Calls σ) (st : State σ) (value : UInt8) : State σ where
  buffer := { st.buffer with lastIndex := st.buffer.lastIndex + 1#32 }
  heap := host.write ((host.bytes st.heap).put (st.buffer.data + st.buffer.lastIndex.toNat) [value])
    st.heap

/-- What `unsafe_arnm_byte_buffer_push` asserts. -/
def PushAsserts (buffer : ByteBuffer) : Prop := buffer.data ≠ 0 ∧ buffer.lastIndex < buffer.size

/-- `arnm_byte_buffer_push` -/
def push (host : Calls σ) (st : State σ) (value : UInt8) : Result × State σ :=
  if st.buffer.data = 0 then (.errorNotInitialized, st)
  else if st.buffer.size = st.buffer.lastIndex then (.errorResourceExhausted, st)
  else (.success, unsafePush host st value)

/-- `arnm_byte_buffer_access`; `out` is what the outputs held before. -/
def access (buffer : ByteBuffer) (out : Nat × BitVec 32) : Result × Nat × BitVec 32 :=
  if buffer.data = 0 then (.errorNotInitialized, out)
  else (.success, buffer.data, buffer.lastIndex)

/-! ## What a buffer is for -/

/-- Bytes at an address, at most as many as there is room for. -/
structure Filling where
  addr : Nat
  capacity : Nat
  content : List UInt8
  within : content.length ≤ capacity

namespace Filling

/-- The block the filling is in. -/
def block (f : Filling) : Block := ⟨f.addr, f.capacity⟩

/-- The place behind the content for `n` more bytes. -/
def next (f : Filling) (n : Nat) : Region := ⟨f.addr + f.content.length, n⟩

/-- All the bytes, or none of them. -/
def append (f : Filling) (values : List UInt8) : Option Filling :=
  if h : (f.content ++ values).length ≤ f.capacity then
    some { f with content := f.content ++ values, within := h }
  else none

/-- The filling behind an attempt to append. -/
def appended (f : Filling) (values : List UInt8) : Filling := (f.append values).getD f

/-- No content, the same room. -/
def cleared (f : Filling) : Filling := { f with content := [], within := Nat.zero_le _ }

theorem append_eq_none {f : Filling} {values : List UInt8} :
    f.append values = none ↔ f.capacity < f.content.length + values.length := by
  rw [← List.length_append, ← Nat.not_le]
  unfold append
  by_cases h : (f.content ++ values).length ≤ f.capacity
  · rw [dif_pos h]
    exact ⟨fun hno => (by cases hno), fun hlt => absurd h hlt⟩
  · rw [dif_neg h]
    exact ⟨fun _ => h, fun _ => rfl⟩

theorem append_eq_some {f f' : Filling} {values : List UInt8} (h : f.append values = some f') :
    f'.addr = f.addr ∧ f'.capacity = f.capacity ∧ f'.content = f.content ++ values := by
  unfold append at h
  split at h
  · cases h
    exact ⟨rfl, rfl, rfl⟩
  · cases h

end Filling

theorem Filling.appended_of_full {f : Filling} {values : List UInt8}
    (hfull : ¬ f.content.length + values.length ≤ f.capacity) : f.appended values = f := by
  have hnone := append_eq_none.mpr (Nat.lt_of_not_le hfull)
  rw [appended, hnone, Option.getD_none]

/-- The buffer's fields and the bytes in its block are those of the filling. -/
structure Describes (p : Provider σ) (st : State σ) (f : Filling) (others : List Block) : Prop where
  data : st.buffer.data = f.addr
  size : st.buffer.size.toNat = f.capacity
  lastIndex : st.buffer.lastIndex.toNat = f.content.length
  held : p.holds st.heap (f.block :: others)
  content : (p.bytes st.heap).read f.addr f.content.length = f.content

/-- A buffer with a filling, or a zeroed one. -/
def InUse (p : Provider σ) (st : State σ) (f : Option Filling) (others : List Block) : Prop :=
  match f with
  | some f => Describes p st f others
  | none => st.buffer = zeroed ∧ p.holds st.heap others

namespace Describes

variable {p : Provider σ} {st : State σ} {f : Filling} {others : List Block}

theorem addr_ne (h : Describes p st f others) : f.addr ≠ 0 :=
  (p.lawful.room h.held _ List.mem_cons_self).1

theorem data_ne (h : Describes p st f others) : st.buffer.data ≠ 0 := by
  rw [h.data]
  exact h.addr_ne

/-- The room that is left. -/
theorem available (h : Describes p st f others) :
    (available st.buffer).toNat = f.capacity - f.content.length := by
  have hle : st.buffer.lastIndex ≤ st.buffer.size := by
    rw [BitVec.le_def, h.lastIndex, h.size]
    exact f.within
  rw [Packing.available, BitVec.toNat_sub_of_le hle, h.size, h.lastIndex]

/-- Bytes written behind the content are more content, and everything else is left alone. -/
theorem write (h : Describes p st f others) {values : List UInt8} {f' : Filling} {m : Bytes}
    (happend : f.append values = some f')
    (hread : m.read (f.addr + f.content.length) values.length = values)
    (hkeep : ∀ r, (f.next values.length).Apart r → Bytes.AgreeOn (p.bytes st.heap) m r)
    {lastIndex : BitVec 32} (hlast : lastIndex.toNat = f.content.length + values.length) :
    Describes p ⟨{ st.buffer with lastIndex := lastIndex }, p.write m st.heap⟩ f' others := by
  obtain ⟨haddr, hcap, hcontent⟩ := Filling.append_eq_some happend
  refine ⟨h.data.trans haddr.symm, h.size.trans hcap.symm, ?_, ?_, ?_⟩
  · rw [hcontent, List.length_append]
    exact hlast
  · have hblock : f'.block = f.block := by
      rw [Filling.block, Filling.block, haddr, hcap]
    rw [hblock]
    exact p.lawful.holds_write m h.held
  · -- the old content is in front of the bytes written
    have hold : m.read f.addr f.content.length = f.content := by
      rw [Bytes.read_congr (hkeep _ (Or.inr (Nat.le_refl _))), h.content]
    rw [p.lawful.bytes_write, hcontent, haddr, List.length_append, Bytes.read_add, hold, hread]

end Describes

/-! ## What each call does -/

section Calls

variable {p : Provider σ} {st : State σ} {f : Filling} {others : List Block}

/-- An init that succeeds has an empty filling, whatever the descriptor was before. -/
theorem init_describes {buffer : ByteBuffer} {s : σ} (size : BitVec 32) (h : p.holds s others)
    (hok : (init p.toCalls ⟨buffer, s⟩ size).1 = .success) :
    Describes p (init p.toCalls ⟨buffer, s⟩ size).2
      ⟨(init p.toCalls ⟨buffer, s⟩ size).2.buffer.data, size.toNat, [], Nat.zero_le _⟩ others := by
  unfold init at hok ⊢
  dsimp only at hok ⊢
  rcases p.lawful.alloc 0 size.toNat h with ⟨herr, -⟩ | ⟨hsuccess, hheld, -⟩
  · rw [if_pos (Result.ne_success_of_isError herr)] at hok
    exact absurd hok (Result.ne_success_of_isError herr)
  · rw [if_neg (not_not_intro hsuccess)]
    exact ⟨rfl, rfl, rfl, hheld, rfl⟩

/-- Whether the bytes fit is told by the room that is left. -/
theorem Describes.lt_available (h : Describes p st f others) (size : BitVec 32) :
    st.buffer.size - st.buffer.lastIndex < size ↔ f.capacity < f.content.length + size.toNat := by
  have hroom := h.available
  rw [Packing.available] at hroom
  rw [BitVec.lt_def, hroom]
  have hwithin := f.within
  omega

/-- The mark does not run over where the bytes fit. -/
theorem Describes.toNat_add (h : Describes p st f others) {size : BitVec 32}
    (hfits : f.content.length + size.toNat ≤ f.capacity) :
    (st.buffer.lastIndex + size).toNat = f.content.length + size.toNat := by
  have hcap := st.buffer.size.isLt
  rw [h.size] at hcap
  rw [BitVec.toNat_add, h.lastIndex, Nat.mod_eq_of_lt (by omega)]

/-- Bytes copied behind the content. -/
theorem Describes.unsafeCopy (h : Describes p st f others) {src : Nat} {size : BitVec 32}
    (hfits : f.content.length + size.toNat ≤ f.capacity) :
    Describes p (unsafeCopy p.toCalls st src size)
      (f.appended ((p.bytes st.heap).read src size.toNat)) others := by
  have hlen := Bytes.length_read (p.bytes st.heap) src size.toNat
  cases happend : f.append ((p.bytes st.heap).read src size.toNat) with
  | none =>
      rw [Filling.append_eq_none, hlen] at happend
      exact absurd hfits (Nat.not_le.mpr happend)
  | some f' =>
      rw [Filling.appended, happend, Option.getD_some]
      have hplace : st.buffer.data + st.buffer.lastIndex.toNat = f.addr + f.content.length := by
        rw [h.data, h.lastIndex]
      apply h.write happend
      · rw [hlen, hplace]
        exact Bytes.read_shift (j := 0) (fun k hk => Bytes.copy_apply hk) (by omega)
      · intro r hr
        rw [hlen] at hr
        rw [hplace]
        exact Bytes.copy_agreeOn hr
      · rw [hlen]
        exact h.toNat_add hfits

/-- One byte behind the content. -/
theorem Describes.unsafePush (h : Describes p st f others) (value : UInt8)
    (hfits : f.content.length + 1 ≤ f.capacity) :
    Describes p (unsafePush p.toCalls st value) (f.appended [value]) others := by
  cases happend : f.append [value] with
  | none =>
      rw [Filling.append_eq_none, List.length_singleton] at happend
      exact absurd hfits (Nat.not_le.mpr happend)
  | some f' =>
      rw [Filling.appended, happend, Option.getD_some]
      have hplace : st.buffer.data + st.buffer.lastIndex.toNat = f.addr + f.content.length := by
        rw [h.data, h.lastIndex]
      apply h.write happend
      · rw [hplace]
        exact Bytes.read_put _ _ [value]
      · intro r hr
        rw [hplace]
        exact Bytes.put_agreeOn hr
      · exact @Describes.toNat_add σ p st f others h 1#32 hfits

/-- The answer to a copy, and the state behind it. -/
theorem Describes.copy (h : Describes p st f others) {src : Nat} (hsrc : src ≠ 0)
    (size : BitVec 32) :
    copy p.toCalls st src size =
      if f.content.length + size.toNat ≤ f.capacity then
        (.success, Packing.unsafeCopy p.toCalls st src size)
      else (.errorResourceExhausted, st) := by
  unfold Packing.copy
  rw [if_neg hsrc, if_neg h.data_ne]
  by_cases hfits : f.content.length + size.toNat ≤ f.capacity
  · rw [if_pos hfits, if_neg]
    rw [h.lt_available]
    exact Nat.not_lt.mpr hfits
  · rw [if_neg hfits, if_pos]
    rw [h.lt_available]
    exact Nat.lt_of_not_le hfits

/-- The answer to a push, and the state behind it. -/
theorem Describes.push (h : Describes p st f others) (value : UInt8) :
    push p.toCalls st value =
      if f.content.length + 1 ≤ f.capacity then
        (.success, Packing.unsafePush p.toCalls st value)
      else (.errorResourceExhausted, st) := by
  have hfull : st.buffer.size = st.buffer.lastIndex ↔ f.capacity = f.content.length := by
    rw [← BitVec.toNat_inj, h.size, h.lastIndex]
  have hwithin := f.within
  unfold Packing.push
  rw [if_neg h.data_ne]
  by_cases hfits : f.content.length + 1 ≤ f.capacity
  · rw [if_pos hfits, if_neg]
    rw [hfull]
    omega
  · rw [if_neg hfits, if_pos]
    rw [hfull]
    omega

theorem Describes.clear (h : Describes p st f others) :
    Describes p (clear st) f.cleared others :=
  ⟨h.data, h.size, rfl, h.held, rfl⟩

/-- A free gives the block back and zeroes the buffer, or the block stays with all its content. -/
theorem Describes.free (h : Describes p st f others) :
    ((free p.toCalls st).1 = .success ∧ (free p.toCalls st).2.buffer = zeroed ∧
        p.holds (free p.toCalls st).2.heap others) ∨
      ((free p.toCalls st).1 = .warningArenaMemoryNotReclaimed ∧
        Describes p (free p.toCalls st).2 f others) := by
  have hfree := (p.lawful.free h.held).1
  unfold Packing.free
  dsimp only
  rw [h.data, h.size]
  rcases hfree with ⟨hok, hheld⟩ | ⟨hwarn, hheld, hkeep⟩
  · left
    rw [if_pos (show (p.free f.addr f.capacity st.heap).1 = .success from hok)]
    exact ⟨hok, rfl, hheld⟩
  · right
    have hno : (p.free f.addr f.capacity st.heap).1 ≠ .success := by
      rw [show (p.free f.addr f.capacity st.heap).1 = _ from hwarn]
      decide
    rw [if_neg hno]
    have hin : Region.Within ⟨f.addr, f.content.length⟩ f.block.extent :=
      ⟨Nat.le_refl f.addr, Nat.add_le_add_left f.within f.addr⟩
    have hcontent := Bytes.read_congr ((hkeep f.block List.mem_cons_self).within hin)
    exact ⟨hwarn, h.data, h.size, h.lastIndex, hheld, hcontent.trans h.content⟩

end Calls

/-! ## Runs -/

/-- The blocks of a filling. -/
def blocks (f : Option Filling) : List Block := (f.map Filling.block).toList

/-- Runs of calls on one buffer. A source lies apart from where its bytes go, as `memcpy` asks; a
caller of the calls without checks made sure of what they assert; and others leave the buffer's
block alone. -/
inductive Run (p : Provider σ) : State σ → Option Filling → List Block → Prop where
  | zeroed {s : σ} {others : List Block} (held : p.holds s others) : Run p ⟨zeroed, s⟩ none others
  | init {buffer : ByteBuffer} {s : σ} {others : List Block} (size : BitVec 32)
      (held : p.holds s others) (granted : (init p.toCalls ⟨buffer, s⟩ size).1 = .success) :
      Run p (init p.toCalls ⟨buffer, s⟩ size).2
        (some ⟨(init p.toCalls ⟨buffer, s⟩ size).2.buffer.data, size.toNat, [], Nat.zero_le _⟩)
        others
  | copy {st : State σ} {f : Filling} {others : List Block} (src : Nat) (size : BitVec 32)
      (run : Run p st (some f) others)
      (apart : Region.Apart (f.next size.toNat) ⟨src, size.toNat⟩) :
      Run p (copy p.toCalls st src size).2
        (some (if src = 0 then f else f.appended ((p.bytes st.heap).read src size.toNat))) others
  | unsafeCopy {st : State σ} {f : Filling} {others : List Block} (src : Nat) (size : BitVec 32)
      (run : Run p st (some f) others)
      (apart : Region.Apart (f.next size.toNat) ⟨src, size.toNat⟩)
      (asserts : CopyAsserts st.buffer src size) :
      Run p (unsafeCopy p.toCalls st src size)
        (some (f.appended ((p.bytes st.heap).read src size.toNat))) others
  | push {st : State σ} {f : Filling} {others : List Block} (value : UInt8)
      (run : Run p st (some f) others) :
      Run p (push p.toCalls st value).2 (some (f.appended [value])) others
  | unsafePush {st : State σ} {f : Filling} {others : List Block} (value : UInt8)
      (run : Run p st (some f) others) (asserts : PushAsserts st.buffer) :
      Run p (unsafePush p.toCalls st value) (some (f.appended [value])) others
  | clear {st : State σ} {f : Filling} {others : List Block} (run : Run p st (some f) others) :
      Run p (clear st) (some f.cleared) others
  | free {st : State σ} {f : Filling} {others : List Block} (run : Run p st (some f) others) :
      Run p (free p.toCalls st).2 (if (free p.toCalls st).1 = .success then none else some f) others
  | elsewhere {st : State σ} {f : Option Filling} {others others' : List Block} {s : σ}
      (run : Run p st f others) (held : p.holds s (blocks f ++ others'))
      (kept : Keeps (blocks f) (p.bytes st.heap) (p.bytes s)) :
      Run p { st with heap := s } f others'

/-- The answer to a call that appends `n` bytes. -/
def answer (f : Option Filling) (n : Nat) : Result :=
  f.elim .errorNotInitialized fun g =>
    if g.content.length + n ≤ g.capacity then .success else .errorResourceExhausted

theorem answer_of_fits {f : Filling} {n : Nat} (h : f.content.length + n ≤ f.capacity) :
    answer (some f) n = .success := if_pos h

theorem answer_of_full {f : Filling} {n : Nat} (h : ¬ f.content.length + n ≤ f.capacity) :
    answer (some f) n = .errorResourceExhausted := if_neg h

/-- What a caller can rely on beside the filling. -/
structure InOrder (p : Provider σ) (st : State σ) (f : Option Filling) : Prop where
  /-- A copy takes all its bytes or none. -/
  copies : ∀ (src : Nat) (size : BitVec 32), src ≠ 0 →
    copy p.toCalls st src size =
      (answer f size.toNat,
        if answer f size.toNat = .success then Packing.unsafeCopy p.toCalls st src size else st)
  pushes : ∀ value : UInt8, push p.toCalls st value =
    (answer f 1, if answer f 1 = .success then Packing.unsafePush p.toCalls st value else st)
  /-- What is written is within the block, behind the content. -/
  writes : ∀ g, f = some g → ∀ r : Region, r.Apart (g.next (g.capacity - g.content.length)) →
    (∀ (src : Nat) (size : BitVec 32),
      Bytes.AgreeOn (p.bytes st.heap) (p.bytes (copy p.toCalls st src size).2.heap) r) ∧
    ∀ value : UInt8, Bytes.AgreeOn (p.bytes st.heap) (p.bytes (push p.toCalls st value).2.heap) r
  /-- The calls without checks assert what the others answer success to. -/
  asserts : (∀ (src : Nat) (size : BitVec 32),
      CopyAsserts st.buffer src size ↔ (copy p.toCalls st src size).1 = .success) ∧
    ∀ value : UInt8, PushAsserts st.buffer ↔ (push p.toCalls st value).1 = .success
  room : (available st.buffer).toNat = f.elim 0 fun g => g.capacity - g.content.length
  accesses : ∀ out : Nat × BitVec 32, access st.buffer out =
    f.elim (.errorNotInitialized, out) fun g => (.success, g.addr, BitVec.ofNat 32 g.content.length)

section Runs

variable {p : Provider σ} {st : State σ} {f : Option Filling} {others : List Block}

/-- In every state of a run the buffer describes its filling. -/
theorem Run.inUse (run : Run p st f others) : InUse p st f others := by
  induction run with
  | zeroed held => exact ⟨rfl, held⟩
  | init size held granted => exact init_describes size held granted
  | @copy st f others src size run _ ih =>
      have hin : Describes p st f others := ih
      by_cases hsrc : src = 0
      · rw [if_pos hsrc, hsrc]
        exact hin
      rw [if_neg hsrc, hin.copy hsrc]
      by_cases hfits : f.content.length + size.toNat ≤ f.capacity
      · rw [if_pos hfits]
        exact hin.unsafeCopy hfits
      · rw [if_neg hfits, Filling.appended_of_full (by rwa [Bytes.length_read])]
        exact hin
  | @unsafeCopy st f others src size run _ asserts ih =>
      have hin : Describes p st f others := ih
      apply hin.unsafeCopy
      rw [← Nat.not_lt, ← hin.lt_available, BitVec.not_lt]
      exact asserts.2.2
  | @push st f others value run ih =>
      have hin : Describes p st f others := ih
      rw [hin.push]
      by_cases hfits : f.content.length + 1 ≤ f.capacity
      · rw [if_pos hfits]
        exact hin.unsafePush value hfits
      · rw [if_neg hfits, Filling.appended_of_full (by rwa [List.length_singleton])]
        exact hin
  | @unsafePush st f others value run asserts ih =>
      have hin : Describes p st f others := ih
      have hlt := asserts.2
      rw [BitVec.lt_def, hin.lastIndex, hin.size] at hlt
      exact hin.unsafePush value hlt
  | @clear st f others run ih => exact Describes.clear ih
  | @free st f others run ih =>
      rcases Describes.free ih with ⟨hok, hzero, hheld⟩ | ⟨hwarn, hin⟩
      · rw [if_pos hok]
        exact ⟨hzero, hheld⟩
      · rw [hwarn, if_neg (by decide)]
        exact hin
  | @elsewhere st f others others' s run held kept ih =>
      cases f with
      | none => exact ⟨ih.1, held⟩
      | some f =>
          have hin : Describes p st f others := ih
          have hpart : Region.Within ⟨f.addr, f.content.length⟩ f.block.extent :=
            ⟨Nat.le_refl f.addr, Nat.add_le_add_left f.within f.addr⟩
          have hcontent := Bytes.read_congr ((kept f.block List.mem_cons_self).within hpart)
          exact ⟨hin.data, hin.size, hin.lastIndex, held, hcontent.trans hin.content⟩

theorem copy_zeroed (h : st.buffer = zeroed) {src : Nat} (hsrc : src ≠ 0) (size : BitVec 32) :
    copy p.toCalls st src size = (.errorNotInitialized, st) := by
  unfold Packing.copy
  rw [if_neg hsrc, h]
  exact if_pos rfl

theorem push_zeroed (h : st.buffer = zeroed) (value : UInt8) :
    push p.toCalls st value = (.errorNotInitialized, st) := by
  unfold Packing.push
  rw [h]
  exact if_pos rfl

theorem Describes.writes {f : Filling} (h : Describes p st f others) {n : Nat} {r : Region}
    {values : List UInt8} (hlen : values.length = n) (hfits : f.content.length + n ≤ f.capacity)
    (hr : r.Apart (f.next (f.capacity - f.content.length))) :
    Region.Apart ⟨st.buffer.data + st.buffer.lastIndex.toNat, values.length⟩ r := by
  rw [h.data, h.lastIndex, hlen]
  have hroom : n ≤ f.capacity - f.content.length := by omega
  exact hr.symm.within ⟨Nat.le_refl _, Nat.add_le_add_left hroom _⟩ (Region.Within.refl r)

theorem Describes.inOrder {f : Filling} (h : Describes p st f others) : InOrder p st (some f) where
  copies src size hsrc := by
    rw [h.copy hsrc]
    by_cases hfits : f.content.length + size.toNat ≤ f.capacity
    · rw [if_pos hfits, answer_of_fits hfits, if_pos rfl]
    · rw [if_neg hfits, answer_of_full hfits, if_neg (by decide)]
  pushes value := by
    rw [h.push]
    by_cases hfits : f.content.length + 1 ≤ f.capacity
    · rw [if_pos hfits, answer_of_fits hfits, if_pos rfl]
    · rw [if_neg hfits, answer_of_full hfits, if_neg (by decide)]
  writes := by
    rintro g hg r hr
    cases hg
    constructor
    · intro src size
      by_cases hsrc : src = 0
      · rw [Packing.copy, if_pos hsrc]
        exact Bytes.AgreeOn.refl _ _
      rw [h.copy hsrc]
      by_cases hfits : f.content.length + size.toNat ≤ f.capacity
      · have hplace := h.writes (Bytes.length_read (p.bytes st.heap) src size.toNat) hfits hr
        rw [Bytes.length_read] at hplace
        rw [if_pos hfits, Packing.unsafeCopy, p.lawful.bytes_write]
        exact Bytes.copy_agreeOn hplace
      · rw [if_neg hfits]
        exact Bytes.AgreeOn.refl _ _
    · intro value
      rw [h.push]
      by_cases hfits : f.content.length + 1 ≤ f.capacity
      · rw [if_pos hfits, Packing.unsafePush, p.lawful.bytes_write]
        have happart := @Describes.writes σ p st others f h 1 r [value] rfl hfits hr
        exact Bytes.put_agreeOn happart
      · rw [if_neg hfits]
        exact Bytes.AgreeOn.refl _ _
  asserts := by
    constructor
    · intro src size
      by_cases hsrc : src = 0
      · rw [Packing.copy, if_pos hsrc]
        exact ⟨fun hasserts => absurd hsrc hasserts.1, fun hok => by cases hok⟩
      have hle : size ≤ st.buffer.size - st.buffer.lastIndex ↔
          f.content.length + size.toNat ≤ f.capacity := by
        rw [← BitVec.not_lt, h.lt_available, Nat.not_lt]
      rw [h.copy hsrc, CopyAsserts, hle]
      by_cases hfits : f.content.length + size.toNat ≤ f.capacity
      · rw [if_pos hfits]
        exact ⟨fun _ => rfl, fun _ => ⟨hsrc, h.data_ne, hfits⟩⟩
      · rw [if_neg hfits]
        exact ⟨fun hasserts => absurd hasserts.2.2 hfits, fun hok => by cases hok⟩
    · intro value
      have hlt : st.buffer.lastIndex < st.buffer.size ↔ f.content.length + 1 ≤ f.capacity := by
        rw [BitVec.lt_def, h.lastIndex, h.size]
        exact Iff.rfl
      rw [h.push, PushAsserts, hlt]
      by_cases hfits : f.content.length + 1 ≤ f.capacity
      · rw [if_pos hfits]
        exact ⟨fun _ => rfl, fun _ => ⟨h.data_ne, hfits⟩⟩
      · rw [if_neg hfits]
        exact ⟨fun hasserts => absurd hasserts.2 hfits, fun hok => by cases hok⟩
  room := h.available
  accesses out := by
    have hlast : st.buffer.lastIndex = BitVec.ofNat 32 f.content.length := by
      rw [← h.lastIndex, BitVec.ofNat_toNat, BitVec.setWidth_eq]
    rw [access, if_neg h.data_ne, h.data, hlast]
    rfl

/-- Without a block every call that needs one says so. -/
theorem zeroed_inOrder (h : st.buffer = zeroed) : InOrder p st none where
  copies _ _ hsrc := by
    rw [copy_zeroed h hsrc]
    rfl
  pushes value := by
    rw [push_zeroed h value]
    rfl
  writes := by
    rintro g hg
    cases hg
  asserts := by
    have hdata : st.buffer.data = 0 := by
      rw [h]
      rfl
    constructor
    · intro src size
      refine ⟨fun hasserts => absurd hdata hasserts.2.1, fun hok => ?_⟩
      by_cases hsrc : src = 0
      · rw [Packing.copy, if_pos hsrc] at hok
        cases hok
      · rw [copy_zeroed h hsrc] at hok
        cases hok
    · intro value
      refine ⟨fun hasserts => absurd hdata hasserts.1, fun hok => ?_⟩
      rw [push_zeroed h] at hok
      cases hok
  room := by
    rw [h]
    rfl
  accesses out := by
    rw [access, h]
    exact if_pos rfl

/-- In every state of every run the buffer describes its filling, and the calls answer as the
filling does. -/
theorem byte_buffer_in_order (run : Run p st f others) : InUse p st f others ∧ InOrder p st f := by
  have hin := run.inUse
  refine ⟨hin, ?_⟩
  cases f with
  | none => exact zeroed_inOrder hin.1
  | some f => exact Describes.inOrder hin

end Runs

/-- A buffer of three bytes in an arena, just made. -/
def sample : State (Heap × Nat) :=
  (init (Provider.ofArena noHost).toCalls ⟨zeroed, (lentArena 64, 0)⟩ 3#32).2

/-- Two bytes are pushed into it, two more do not fit, and a third is pushed. -/
def sampleFull : State (Heap × Nat) :=
  (push (Provider.ofArena noHost).toCalls (copy (Provider.ofArena noHost).toCalls
    (push (Provider.ofArena noHost).toCalls
      (push (Provider.ofArena noHost).toCalls sample 7).2 9).2 32 2#32).2 1).2

/-- It is full then: a fourth is refused, and its bytes are those pushed. -/
theorem byte_buffer_in_order_sample :
    (Provider.ofArena noHost).toCalls.bytes sampleFull.heap 9 = 9 ∧
      InUse (Provider.ofArena noHost) sampleFull (some ⟨8, 3, [7, 9, 1], by decide⟩) [] ∧
      push (Provider.ofArena noHost).toCalls sampleFull 2 =
        (.errorResourceExhausted, sampleFull) ∧
      access sampleFull.buffer (0, 0#32) = (.success, 8, 3#32) := by
  have hheld : (Provider.ofArena noHost).holds (lentArena 64, 0) [] :=
    lentArena_sound (by decide) (by decide) (by decide)
  have hmade := @Run.init _ (Provider.ofArena noHost) zeroed _ _ 3#32 hheld (by decide)
  have hcopied := ((hmade.push 7).push 9).copy 32 2#32 (by decide)
  obtain ⟨huse, horder⟩ := byte_buffer_in_order (hcopied.push 1)
  exact ⟨by decide, huse, horder.pushes 2, horder.accesses _⟩

end Arnm.Memory.Packing
