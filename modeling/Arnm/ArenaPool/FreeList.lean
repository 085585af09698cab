import Arnm.Lib.Linked
import Arnm.Lib.Walk
import Arnm.Memory.Borrower

set_option autoImplicit false

/-! # Arenas lent out and the list of the free ones

`arena_free_list.h`: a free arena keeps the link to the next one in the first bytes of its buffer.
The descriptors are records by their addresses; the buffers lie in the memory of an allocator.
Two pools share what follows: `Lends` says which arenas are out, in whatever state their borrowers
left them, and which are on the free list, empty and linked. -/

namespace Arnm.ArenaPool

open Memory

/-- The arena descriptors by their addresses, and an allocator with the memory. -/
structure Store (σ : Type) where
  descriptors : Nat → Arena
  heap : σ

namespace Store

variable {σ : Type}

/-- The descriptor at an address is written. -/
def describe (s : Store σ) (arena : Nat) (a : Arena) : Store σ :=
  { s with descriptors := fun x => if x = arena then a else s.descriptors x }

/-- `arnm_arena_link_slot` -/
def linkSlot (s : Store σ) (arena : Nat) : Nat := (s.descriptors arena).data

/-- `arnm_arena_next_free` -/
def nextFree (allocator : Calls σ) (s : Store σ) (arena : Nat) : Nat :=
  (allocator.bytes s.heap).load (s.linkSlot arena) 8

/-- `arnm_arena_set_next_free` -/
def setNextFree (allocator : Calls σ) (s : Store σ) (arena next : Nat) : Store σ :=
  { s with
    heap := allocator.write ((allocator.bytes s.heap).store (s.linkSlot arena) 8 next) s.heap }

/-- `arnm_reset` of the arena at an address. -/
def reset (s : Store σ) (arena : Nat) : Store σ := s.describe arena (s.descriptors arena).reset

/-- A borrower makes a call on the arena at an address. -/
def use (allocator : Calls σ) (host : Host) (s : Store σ) (arena : Nat) (c : Call) : Store σ :=
  let r := Heap.call host ⟨.arena (s.descriptors arena), allocator.bytes s.heap⟩ c
  match r.state.memory with
  | .arena a => { s.describe arena a with heap := allocator.write r.state.bytes s.heap }
  | .multiArena _ => s

/-- A borrower writes memory. -/
def write (allocator : Calls σ) (s : Store σ) (m : Bytes) : Store σ :=
  { s with heap := allocator.write m s.heap }

@[simp] theorem describe_same (s : Store σ) (arena : Nat) (a : Arena) :
    (s.describe arena a).descriptors arena = a := if_pos rfl

theorem describe_other (s : Store σ) {arena x : Nat} (a : Arena) (h : x ≠ arena) :
    (s.describe arena a).descriptors x = s.descriptors x := if_neg h

end Store

/-- An arena as `arnm_init_arena_borrow` leaves it. -/
def fresh (data capacity : Nat) : Arena := ⟨data, 0, capacity, 0, .external⟩

theorem initArenaBorrow_ok {data capacity : Nat} {a : Arena}
    (h : initArenaBorrow data capacity = .ok a) : a = fresh data capacity := by
  unfold initArenaBorrow at h
  split at h
  · cases h
  split at h
  · cases h
  split at h
  · cases h
  split at h
  · cases h
  · rename_i hfits
    rw [not_or, not_not] at hfits
    cases h
    rw [fresh, hfits.1]

/-- A reset arena is as it was at first. -/
theorem reset_eq_fresh {data capacity : Nat} {a : Arena} (h : (fresh data capacity).Reused a) :
    a.reset = fresh data capacity := by
  show Arena.mk a.data 0 a.capacity 0 a.allocationType = _
  rw [h.data, h.capacity, h.allocationType]
  rfl

/-! ## Lending -/

variable {σ : Type} {p : Provider σ} {s : Store σ} {slot : Nat → Nat} {capacity head a : Nat}
  {lent free : List Nat}

/-- The arenas `lent` are out and those in `free` are linked from `head`; the buffer of each is at
its slot, apart from the others. -/
structure Lends (p : Provider σ) (s : Store σ) (slot : Nat → Nat) (capacity head : Nat)
    (lent free : List Nat) : Prop where
  out : ∀ a ∈ lent, (fresh (slot a) capacity).Reused (s.descriptors a)
  empty : ∀ a ∈ free, s.descriptors a = fresh (slot a) capacity
  linked : Walk (s.nextFree p.toCalls) head free
  apart : (lent ++ free).Pairwise fun a b =>
    Region.Apart ⟨slot a, capacity⟩ ⟨slot b, capacity⟩
  room : 8 ≤ capacity
  addr : ∀ a ∈ lent ++ free, a ≠ 0 ∧ a < 2 ^ 64

/-- The bytes a free arena keeps its link in. -/
def link (slot : Nat → Nat) (a : Nat) : Region := ⟨slot a, 8⟩

theorem nextFree_congr {s s' : Store σ} {calls : Calls σ} {a : Nat}
    (hdesc : s'.descriptors a = s.descriptors a)
    (hag : Bytes.AgreeOn (calls.bytes s.heap) (calls.bytes s'.heap) ⟨s.linkSlot a, 8⟩) :
    s'.nextFree calls a = s.nextFree calls a := by
  unfold Store.nextFree Store.linkSlot
  rw [hdesc]
  exact Bytes.load_congr hag

/-- The link just written is read. -/
theorem nextFree_setNextFree (p : Provider σ) (s : Store σ) (a : Nat) {next : Nat}
    (hlt : next < 256 ^ 8) :
    (s.setNextFree p.toCalls a next).nextFree p.toCalls a = next := by
  unfold Store.nextFree
  show (p.bytes (p.write _ s.heap)).load (s.linkSlot a) 8 = next
  rw [p.lawful.bytes_write, Bytes.load_store hlt]

namespace Lends

/-- A pool of nothing. -/
theorem nil (p : Provider σ) (s : Store σ) (slot : Nat → Nat) {capacity : Nat}
    (hroom : 8 ≤ capacity) : Lends p s slot capacity 0 [] [] where
  out _ ha := absurd ha List.not_mem_nil
  empty _ ha := absurd ha List.not_mem_nil
  linked := .nil
  apart := List.Pairwise.nil
  room := hroom
  addr _ ha := absurd ha List.not_mem_nil

variable (h : Lends p s slot capacity head lent free)
include h

theorem link_within (a : Nat) : Region.Within (link slot a) ⟨slot a, capacity⟩ :=
  ⟨Nat.le_refl _, Nat.add_le_add_left h.room _⟩

theorem nodup : (lent ++ free).Nodup := by
  refine h.apart.imp fun {a b} hab heq => ?_
  have hroom := h.room
  rw [heq] at hab
  unfold Region.Apart at hab
  simp only [Region.stop_mk] at hab
  omega

theorem apart_of_ne {a b : Nat} (ha : a ∈ lent ++ free) (hb : b ∈ lent ++ free) (hne : a ≠ b) :
    Region.Apart ⟨slot a, capacity⟩ ⟨slot b, capacity⟩ := by
  obtain ⟨i, hi⟩ := List.mem_iff_getElem?.mp ha
  obtain ⟨j, hj⟩ := List.mem_iff_getElem?.mp hb
  refine Region.apart_of_getElem? (fun a => ⟨slot a, capacity⟩) h.apart hi hj ?_
  rintro rfl
  exact hne (Option.some.inj (hi.symm.trans hj))

theorem head_lt : head < 256 ^ 8 := by
  cases hlink : h.linked with
  | nil => decide
  | cons ne _ => exact (h.addr _ (List.mem_append_right _ List.mem_cons_self)).2

theorem linkSlot_of_free (ha : a ∈ free) : s.linkSlot a = slot a := by
  rw [Store.linkSlot, h.empty a ha]
  rfl

/-- Whatever leaves the free arenas' descriptors and links alone leaves the list. -/
theorem linked_congr {s' : Store σ} (hdesc : ∀ a ∈ free, s'.descriptors a = s.descriptors a)
    (hag : ∀ a ∈ free, Bytes.AgreeOn (p.bytes s.heap) (p.bytes s'.heap) (link slot a)) :
    Walk (s'.nextFree p.toCalls) head free :=
  h.linked.congr fun a ha => nextFree_congr (hdesc a ha) <| by
    rw [h.linkSlot_of_free ha]
    exact hag a ha

/-- The memory moves on and leaves the buffers' links alone. -/
theorem elsewhere {heap : σ}
    (hag : ∀ a ∈ free, Bytes.AgreeOn (p.bytes s.heap) (p.bytes heap) (link slot a)) :
    Lends p { s with heap := heap } slot capacity head lent free :=
  { h with linked := h.linked_congr (fun _ _ => rfl) hag }

/-- The first free arena is lent. -/
theorem lend (hne : head ≠ 0) :
    ∃ rest, free = head :: rest ∧
      Lends p s slot capacity (s.nextFree p.toCalls head) (head :: lent) rest := by
  obtain ⟨rest, rfl, hrest⟩ := h.linked.pop hne
  have hperm : (lent ++ head :: rest).Perm (head :: lent ++ rest) := List.perm_middle
  refine ⟨rest, rfl, ?_, fun a ha => h.empty a (List.mem_cons_of_mem _ ha), hrest, ?_, h.room, ?_⟩
  · intro a ha
    rcases List.mem_cons.mp ha with rfl | ha
    · rw [h.empty _ List.mem_cons_self]
      exact ⟨rfl, rfl, rfl, Nat.zero_le _⟩
    · exact h.out a ha
  · exact (Region.pairwise_apart_perm (fun a => ⟨slot a, capacity⟩) hperm).mp h.apart
  · exact fun a ha => h.addr a (hperm.mem_iff.mpr ha)

/-- An arena with a link to the old head is the new head. -/
theorem link_free (arena : Nat) (ha : s.descriptors arena = fresh (slot arena) capacity)
    (hne : arena ≠ 0) (hlt : arena < 2 ^ 64)
    (hapart : ∀ b ∈ lent ++ free, Region.Apart ⟨slot arena, capacity⟩ ⟨slot b, capacity⟩) :
    Lends p (s.setNextFree p.toCalls arena head) slot capacity arena lent (arena :: free) := by
  have hslot : s.linkSlot arena = slot arena := by
    rw [Store.linkSlot, ha]
    rfl
  have hwrote : p.bytes (s.setNextFree p.toCalls arena head).heap =
      (p.bytes s.heap).store (slot arena) 8 head := by
    rw [Store.setNextFree, p.lawful.bytes_write, hslot]
  have hperm : (lent ++ arena :: free).Perm (arena :: (lent ++ free)) := List.perm_middle
  refine ⟨h.out, ?_, ?_, ?_, h.room, ?_⟩
  · intro b hb
    rcases List.mem_cons.mp hb with rfl | hb
    · exact ha
    · exact h.empty b hb
  · refine h.linked.push hne ?_ fun b hb => ?_
    · exact nextFree_setNextFree p s arena h.head_lt
    · refine nextFree_congr rfl ?_
      rw [hwrote, h.linkSlot_of_free hb]
      exact Bytes.store_agreeOn ((hapart b (List.mem_append_right _ hb)).within
        (h.link_within arena) (h.link_within b))
  · exact (Region.pairwise_apart_perm (fun a => ⟨slot a, capacity⟩) hperm).mpr
      (List.pairwise_cons.mpr ⟨hapart, h.apart⟩)
  · intro b hb
    rcases List.mem_cons.mp (hperm.mem_iff.mp hb) with rfl | hb
    · exact ⟨hne, hlt⟩
    · exact h.addr b hb

/-- The store moves on and leaves the descriptors and the links of the pool's arenas alone. -/
theorem frame {s' : Store σ} (hdesc : ∀ a ∈ lent ++ free, s'.descriptors a = s.descriptors a)
    (hag : ∀ a ∈ free, Bytes.AgreeOn (p.bytes s.heap) (p.bytes s'.heap) (link slot a)) :
    Lends p s' slot capacity head lent free where
  out a ha := by
    rw [hdesc a (List.mem_append_left _ ha)]
    exact h.out a ha
  empty a ha := by
    rw [hdesc a (List.mem_append_right _ ha)]
    exact h.empty a ha
  linked := h.linked_congr (fun a ha => hdesc a (List.mem_append_right _ ha)) hag
  apart := h.apart
  room := h.room
  addr := h.addr

/-- A further arena, lent at once. -/
theorem adopt (arena : Nat) (ha : s.descriptors arena = fresh (slot arena) capacity)
    (hne : arena ≠ 0) (hlt : arena < 2 ^ 64)
    (hapart : ∀ b ∈ lent ++ free, Region.Apart ⟨slot arena, capacity⟩ ⟨slot b, capacity⟩) :
    Lends p s slot capacity head (arena :: lent) free where
  out b hb := by
    rcases List.mem_cons.mp hb with rfl | hb
    · rw [ha]
      exact ⟨rfl, rfl, rfl, Nat.zero_le _⟩
    · exact h.out b hb
  empty := h.empty
  linked := h.linked
  apart := List.pairwise_cons.mpr ⟨hapart, h.apart⟩
  room := h.room
  addr b hb := by
    rcases List.mem_cons.mp hb with rfl | hb
    · exact ⟨hne, hlt⟩
    · exact h.addr b hb

/-- An arena is no longer the pool's. -/
theorem drop : Lends p s slot capacity head (lent.erase a) free := by
  have hsub : (lent.erase a ++ free).Sublist (lent ++ free) :=
    List.Sublist.append_right List.erase_sublist _
  exact ⟨fun b hb => h.out b (List.mem_of_mem_erase hb), h.empty, h.linked, h.apart.sublist hsub,
    h.room, fun b hb => h.addr b (hsub.subset hb)⟩

/-- A free arena is none of those lent. -/
theorem ne_of_mem {b : Nat} (ha : a ∈ lent) (hb : b ∈ free) : b ≠ a := by
  rintro rfl
  exact (List.nodup_append.mp h.nodup).2.2 _ ha _ hb rfl

theorem ne_of_mem_erase {b : Nat} (hb : b ∈ lent.erase a) : b ≠ a := by
  rintro rfl
  exact (List.nodup_append.mp h.nodup).1.not_mem_erase hb

/-- The descriptor of a lent arena is written; the arena stays one over its buffer. -/
theorem describe {b : Arena} (hb : (fresh (slot a) capacity).Reused b) (ha : a ∈ lent) :
    Lends p (s.describe a b) slot capacity head lent free where
  out c hc := by
    by_cases hca : c = a
    · rw [hca, Store.describe_same]
      exact hb
    · rw [Store.describe_other _ _ hca]
      exact h.out c hc
  empty c hc := by
    rw [Store.describe_other _ _ (h.ne_of_mem ha hc)]
    exact h.empty c hc
  linked := h.linked_congr (fun c hc => Store.describe_other _ _ (h.ne_of_mem ha hc))
    fun _ _ => Bytes.AgreeOn.refl _ _
  apart := h.apart
  room := h.room
  addr := h.addr

/-- A lent arena comes back, emptied. -/
theorem giveBack (ha : a ∈ lent) :
    Lends p ((s.reset a).setNextFree p.toCalls a head) slot capacity a (lent.erase a)
      (a :: free) := by
  have hreset : (s.reset a).descriptors a = fresh (slot a) capacity := by
    rw [Store.reset, Store.describe_same]
    exact reset_eq_fresh (h.out a ha)
  have hfresh : (fresh (slot a) capacity).Reused (s.descriptors a).reset := by
    rw [reset_eq_fresh (h.out a ha)]
    exact ⟨rfl, rfl, rfl, Nat.zero_le _⟩
  obtain ⟨hne, hlt⟩ := h.addr a (List.mem_append_left _ ha)
  refine ((h.describe hfresh ha).drop).link_free a hreset hne hlt fun b hb => ?_
  refine h.apart_of_ne (List.mem_append_left _ ha) ?_ ?_
  · exact (List.Sublist.append_right List.erase_sublist _).subset hb
  · rcases List.mem_append.mp hb with hb | hb
    · exact (h.ne_of_mem_erase hb).symm
    · exact (h.ne_of_mem ha hb).symm

/-- The free arenas are all taken off the list. -/
theorem unshelve : Lends p s slot capacity 0 (free ++ lent) [] where
  out b hb := by
    rcases List.mem_append.mp hb with hb | hb
    · rw [h.empty b hb]
      exact ⟨rfl, rfl, rfl, Nat.zero_le _⟩
    · exact h.out b hb
  empty _ hb := absurd hb List.not_mem_nil
  linked := .nil
  apart := by
    rw [List.append_nil]
    exact (Region.pairwise_apart_perm (fun a => ⟨slot a, capacity⟩)
      List.perm_append_comm).mp h.apart
  room := h.room
  addr b hb := by
    rw [List.append_nil] at hb
    exact h.addr b (List.perm_append_comm.mem_iff.mp hb)

omit h in
/-- Lent arenas that form a list of their own are hung in front of the free ones. -/
theorem hang {front : Nat} {l : List Nat}
    (h : Lends p s slot capacity head (l ++ a :: lent) free)
    (hchain : Walk (s.nextFree p.toCalls) front (l ++ [a]))
    (hempty : ∀ b ∈ l ++ [a], s.descriptors b = fresh (slot b) capacity) :
    Lends p (s.setNextFree p.toCalls a head) slot capacity front lent (l ++ a :: free) := by
  have hslot : s.linkSlot a = slot a := by
    rw [Store.linkSlot, hempty a (List.mem_append_right _ List.mem_cons_self)]
    rfl
  have hwrote : p.bytes (s.setNextFree p.toCalls a head).heap =
      (p.bytes s.heap).store (slot a) 8 head := by
    rw [Store.setNextFree, p.lawful.bytes_write, hslot]
  have hperm : (lent ++ (l ++ a :: free)).Perm (l ++ a :: lent ++ free) := by
    rw [List.append_assoc, List.cons_append]
    exact List.perm_append_comm_assoc lent l (a :: free) |>.trans
      (List.perm_middle.append_left l)
  -- the arena the link is written in differs from every other of the pool
  have hne : ∀ b ∈ l ++ free, b ≠ a := by
    have hnodup := h.nodup
    rw [List.append_assoc, List.cons_append] at hnodup
    have hnot := (List.nodup_middle.mp hnodup).notMem
    rintro b hb rfl
    rcases List.mem_append.mp hb with hb | hb
    · exact hnot (List.mem_append_left _ hb)
    · exact hnot (List.mem_append_right _ (List.mem_append_right _ hb))
  have hin : ∀ b ∈ l ++ a :: free, b ∈ l ++ a :: lent ++ free := fun b hb =>
    hperm.mem_iff.mp (List.mem_append_right _ hb)
  have hfresh : ∀ b ∈ l ++ a :: free, s.descriptors b = fresh (slot b) capacity := by
    intro b hb
    rcases List.mem_append.mp hb with hb | hb
    · exact hempty b (List.mem_append_left _ hb)
    · rcases List.mem_cons.mp hb with rfl | hb
      · exact hempty b (List.mem_append_right _ List.mem_cons_self)
      · exact h.empty b hb
  refine ⟨fun b hb => h.out b ?_, hfresh, ?_, ?_, h.room,
    fun b hb => h.addr b (hperm.mem_iff.mp hb)⟩
  · exact List.mem_append_right _ (List.mem_cons_of_mem _ hb)
  · refine hchain.splice h.linked ?_ fun b hb => ?_
    · exact nextFree_setNextFree p s a h.head_lt
    · have hb' : b ∈ l ++ a :: free := by
        rcases List.mem_append.mp hb with hb | hb
        · exact List.mem_append_left _ hb
        · exact List.mem_append_right _ (List.mem_cons_of_mem _ hb)
      have hlinkb : s.linkSlot b = slot b := by
        rw [Store.linkSlot, hfresh b hb']
        rfl
      refine nextFree_congr rfl ?_
      rw [hwrote, hlinkb]
      refine Bytes.store_agreeOn ((h.apart_of_ne ?_ (hin b hb') (hne b hb).symm).within
        (h.link_within a) (h.link_within b))
      exact List.mem_append_left _ (List.mem_append_right _ List.mem_cons_self)
  · exact (Region.pairwise_apart_perm (fun a => ⟨slot a, capacity⟩) hperm).mpr h.apart

/-! ### What a borrower does -/

/-- Bytes change within the buffer of a lent arena. -/
theorem confined {heap : σ} (ha : a ∈ lent)
    (hin : (s.descriptors a).Confined (p.bytes s.heap) (p.bytes heap)) :
    Lends p { s with heap := heap } slot capacity head lent free := by
  refine h.elsewhere fun b hb => hin.agreeOn ?_
  obtain ⟨hdata, hcap, -⟩ := h.out a ha
  rw [Arena.region, hdata, hcap]
  exact (h.apart_of_ne (List.mem_append_left _ ha) (List.mem_append_right _ hb)
    (h.ne_of_mem ha hb).symm).within (Region.Within.refl _) (h.link_within b)

/-- The link of a lent arena is written. -/
theorem setLink (ha : a ∈ lent) (next : Nat) :
    Lends p (s.setNextFree p.toCalls a next) slot capacity head lent free := by
  refine h.confined ha fun x hx => ?_
  obtain ⟨hdata, hcap, -⟩ := h.out a ha
  rw [p.lawful.bytes_write]
  refine if_neg fun hin => hx ⟨hin.1, Nat.lt_of_lt_of_le hin.2 ?_⟩
  have hroom := h.room
  show (s.descriptors a).data + 8 ≤ (s.descriptors a).data + (s.descriptors a).capacity
  rw [hcap]
  exact Nat.add_le_add_left hroom _

theorem write {m : Bytes} (ha : a ∈ lent) (hin : (s.descriptors a).Confined (p.bytes s.heap) m) :
    Lends p (s.write p.toCalls m) slot capacity head lent free := by
  refine h.confined ha ?_
  rw [p.lawful.bytes_write]
  exact hin

theorem use (host : Host) {c : Call} (kept : c ≠ .release) (ha : a ∈ lent) :
    Lends p (s.use p.toCalls host a c) slot capacity head lent free := by
  obtain ⟨hdata, hcap, htype, hle⟩ := h.out a ha
  obtain ⟨b, hb, hreused, hin⟩ := call_reuses host kept hle (p.bytes s.heap)
  unfold Store.use
  simp only [hb]
  have hstill : (fresh (slot a) capacity).Reused b :=
    ⟨hreused.data.trans hdata, hreused.capacity.trans hcap,
      hreused.allocationType.trans htype, hreused.index_le⟩
  have hwritten := h.write ha hin
  exact hwritten.describe hstill ha

end Lends

end Arnm.ArenaPool
