import Arnm.Memory.Provider

set_option autoImplicit false

/-! # An allocator with a record

`Provider.recorded` is an allocator that writes down the blocks it handed out and that were not
given back. The record changes nothing else, so what holds over every allocator holds over it. -/

namespace Arnm.Memory

variable {σ : Type}

/-- The calls with a record of the blocks that are out. -/
def Calls.recorded (calls : Calls σ) : Calls (σ × List Block) where
  isArena := calls.isArena
  alloc buffer size s :=
    let r := calls.alloc buffer size s.1
    ⟨r.result, r.buffer,
      (r.state, if r.result = .success then ⟨r.buffer, size⟩ :: s.2 else s.2)⟩
  realloc buffer oldSize newSize s :=
    let r := calls.realloc buffer oldSize newSize s.1
    ⟨r.result, r.buffer,
      (r.state, if r.result.isError then s.2
        else ⟨r.buffer, newSize⟩ :: s.2.erase ⟨buffer, oldSize⟩)⟩
  free buffer size s :=
    let r := calls.free buffer size s.1
    (r.1, r.2, s.2.erase ⟨buffer, size⟩)
  bytes s := calls.bytes s.1
  write m s := (calls.write m s.1, s.2)

theorem lawful_recorded {calls : Calls σ} {holds : σ → List Block → Prop}
    (law : Lawful calls holds) : Lawful calls.recorded fun s blocks => holds s.1 blocks where
  perm := law.perm
  forget := law.forget
  apart := law.apart
  room := law.room
  bytes_write m s := law.bytes_write m s.1
  holds_write m := law.holds_write m
  alloc buffer size h := law.alloc buffer size h
  realloc_null newSize hne h := law.realloc_null newSize hne h
  realloc newSize hne h := law.realloc newSize hne h
  alloc_valid buffer size h := law.alloc_valid buffer size h
  realloc_valid buffer oldSize newSize hne h := law.realloc_valid buffer oldSize newSize hne h
  free h := law.free h

/-- The allocator with a record of the blocks that are out. -/
def Provider.recorded (p : Provider σ) : Provider (σ × List Block) where
  toCalls := p.toCalls.recorded
  holds s blocks := p.holds s.1 blocks
  lawful := lawful_recorded p.lawful

/-- An allocation that succeeds is recorded, and nothing else about it. -/
theorem recorded_alloc (p : Provider σ) (buffer size : Nat) (s : σ × List Block) :
    (p.recorded.alloc buffer size s).state.2 =
      if (p.recorded.alloc buffer size s).result = .success then
        ⟨(p.recorded.alloc buffer size s).buffer, size⟩ :: s.2
      else s.2 := rfl

@[simp] theorem recorded_free (p : Provider σ) (buffer size : Nat) (s : σ × List Block) :
    (p.recorded.free buffer size s).2.2 = s.2.erase ⟨buffer, size⟩ := rfl

end Arnm.Memory
