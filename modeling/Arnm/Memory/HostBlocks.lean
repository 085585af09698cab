import Arnm.Memory.Client

set_option autoImplicit false

/-! # What an allocator takes from the host

An arena of its own takes its block with `malloc`, and a chain takes one for every arena it opens.
The events of a call are these `malloc`s and the `free`s that give blocks back, in their order.
Whatever the calls are, no run gives back what it does not have, and the blocks it has are those of
the arenas it owns. -/

namespace Arnm.Memory

/-! ## Events -/

inductive HostEvent where
  | malloc (r : Region)
  | free (addr : Nat)
  deriving DecidableEq, Repr

/-- The blocks that are out after an event; a block that is not out cannot be given back. -/
def HostEvent.apply (blocks : List Region) : HostEvent → Option (List Region)
  | .malloc r => some (r :: blocks)
  | .free addr =>
    if blocks.any fun r => r.addr == addr then
      some (blocks.eraseP fun r => r.addr == addr) else none

/-- The blocks that are out after a trace. -/
def replay (trace : List HostEvent) : Option (List Region) := trace.foldlM HostEvent.apply []

/-- The host answers no address of a block that is out. -/
def Unlent (host : Host) (blocks : List Region) : Prop :=
  ∀ n, host.malloc n ≠ 0 → ∀ r ∈ blocks, r.addr ≠ host.malloc n

/-! ## The events of a call -/

/-- `arnm_release` on a single arena. -/
def Arena.freed (a : Arena) : List HostEvent :=
  if a.data ≠ 0 ∧ a.allocationType = .owned then [.free a.data] else []

/-- `multi_arena_alloc`; `multi_arena_push` releases the arena it cannot append. -/
def MultiArena.allocEvents (host : Host) (alignedSize : Nat) (m : MultiArena) : List HostEvent :=
  if alignedSize = 0 then []
  else
    match (scanOpen m.fullRemaining alignedSize (m.arenas.drop m.firstOpen) m.firstOpen
      m.firstOpen).2 with
    | some _ => []
    | none =>
      if m.arenaMaxCount ≠ 0 ∧ m.arenaMaxCount ≤ m.arenas.length then []
      else
        match initArena host (max m.arenaCapacity alignedSize) with
        | .error _ => []
        | .ok arena => .malloc arena.region :: if host.refusal.isSome then arena.freed else []

/-- `arnm_alloc` -/
def Allocator.allocEvents (host : Host) (size : Nat) (memory : Allocator) : List HostEvent :=
  if size = 0 then []
  else if align8U32 size = 0 then []
  else
    match memory with
    | .arena _ => []
    | .multiArena m => m.allocEvents host (align8U32 size)

/-- `arnm_realloc` where the block is buried, or there is none yet. -/
def Allocator.buriedEvents (host : Host) (oldAligned newAligned : Nat) (memory : Allocator) :
    List HostEvent :=
  if oldAligned < newAligned then memory.allocEvents host newAligned else []

/-- `arnm_realloc` where the block is the newest of the arena `a`. -/
def Allocator.newestEvents (host : Host) (oldAligned newAligned : Nat) (a : Arena)
    (memory : Allocator) : List HostEvent :=
  if newAligned < oldAligned then []
  else if newAligned - oldAligned ≤ a.remainingBytes then []
  else
    match memory with
    | .arena _ => []
    | .multiArena m => (Allocator.multiArena m).allocEvents host newAligned

/-- `arnm_realloc` -/
def Allocator.reallocEvents (host : Host) (buffer oldSize newSize : Nat) (memory : Allocator) :
    List HostEvent :=
  if (newSize ≠ 0 ∧ align8U32 newSize = 0) ∨ (oldSize ≠ 0 ∧ align8U32 oldSize = 0) then []
  else if align8U32 newSize = 0 then []
  else if buffer ≠ 0 ∧ oldSize = newSize then []
  else
    match memory.owner buffer with
    | none =>
      if buffer ≠ 0 then [] else memory.buriedEvents host (align8U32 oldSize) (align8U32 newSize)
    | some (_, a) =>
      if a.isReclaimable buffer (align8U32 oldSize) then
        memory.newestEvents host (align8U32 oldSize) (align8U32 newSize) a
      else memory.buriedEvents host (align8U32 oldSize) (align8U32 newSize)

/-- `arnm_release` -/
def Allocator.releaseEvents (memory : Allocator) : List HostEvent :=
  memory.arenas.flatMap Arena.freed

/-- `arnm_multi_arena_shrink` -/
def MultiArena.shrinkEvents (m : MultiArena) : List HostEvent :=
  (m.arenas.reverse.takeWhile Arena.canGo).flatMap Arena.freed

/-- The events of a call of the allocator. -/
def Allocator.hostEvents (host : Host) (memory : Allocator) : Call → List HostEvent
  | .alloc size => memory.allocEvents host size
  | .clone src size => if src = 0 then [] else memory.allocEvents host size
  | .realloc buffer oldSize newSize => memory.reallocEvents host buffer oldSize newSize
  | .release => memory.releaseEvents
  | .shrink =>
    match memory with
    | .arena _ => []
    | .multiArena m => m.shrinkEvents
  | _ => []

/-- `arnm_reinit_arena` -/
def Arena.reinit (host : Host) (capacity : Nat) (a : Arena) : Result × Arena :=
  match initArena host capacity with
  | .error result => (result, a.release)
  | .ok fresh => (.success, fresh)

def Arena.reinitEvents (host : Host) (capacity : Nat) (a : Arena) : List HostEvent :=
  a.freed ++
    match initArena host capacity with
    | .error _ => []
    | .ok fresh => [.malloc fresh.region]

/-! ## The blocks of the arenas -/

/-- The block an arena has from the host. -/
def Arena.body (a : Arena) : Option Region :=
  if a.data ≠ 0 ∧ a.allocationType = .owned then some a.region else none

/-- The blocks a list of arenas has from the host. -/
def bodies (arenas : List Arena) : List Region := arenas.filterMap Arena.body

/-- The blocks that are out are those of the arenas, each at an address of its own. -/
structure Accounted (memory : Allocator) (blocks : List Region) : Prop where
  perm : blocks.Perm (bodies memory.arenas)
  apart : (blocks.map Region.addr).Nodup

/-- The events lead to blocks that are those of the allocator. -/
def Leads (events : List HostEvent) (blocks : List Region) (memory : Allocator) : Prop :=
  ∃ blocks', events.foldlM HostEvent.apply blocks = some blocks' ∧ Accounted memory blocks'

theorem Accounted.leads {memory : Allocator} {blocks : List Region} (h : Accounted memory blocks) :
    Leads [] blocks memory := ⟨blocks, rfl, h⟩

theorem Accounted.congr {memory memory' : Allocator} {blocks : List Region}
    (h : Accounted memory blocks) (hsame : bodies memory'.arenas = bodies memory.arenas) :
    Accounted memory' blocks := ⟨hsame ▸ h.perm, h.apart⟩

theorem Leads.congr {events : List HostEvent} {memory memory' : Allocator} {blocks : List Region}
    (h : Leads events blocks memory) (hsame : bodies memory'.arenas = bodies memory.arenas) :
    Leads events blocks memory' := by
  obtain ⟨blocks', hrun, hacc⟩ := h
  exact ⟨blocks', hrun, hacc.congr hsame⟩

theorem bodies_append (arenas arenas' : List Arena) :
    bodies (arenas ++ arenas') = bodies arenas ++ bodies arenas' := List.filterMap_append

theorem bodies_modify {f : Arena → Arena} (hf : ∀ a, (f a).body = a.body) (arenas : List Arena)
    (i : Nat) : bodies (arenas.modify i f) = bodies arenas := by
  induction arenas generalizing i with
  | nil => rw [List.modify_nil]
  | cons a arenas ih =>
      cases i with
      | zero =>
          unfold bodies
          rw [List.modify_zero_cons, List.filterMap_cons, List.filterMap_cons, hf]
      | succ i =>
          have hrest := ih i
          unfold bodies at hrest ⊢
          rw [List.modify_succ_cons, List.filterMap_cons, List.filterMap_cons, hrest]

theorem bodies_map {f : Arena → Arena} (hf : ∀ a, (f a).body = a.body) (arenas : List Arena) :
    bodies (arenas.map f) = bodies arenas := by
  unfold bodies
  rw [List.filterMap_map]
  exact List.filterMap_congr fun a _ => hf a

theorem bodies_set {arenas : List Arena} {i : Nat} {a b : Arena} (ha : arenas[i]? = some a)
    (hb : b.body = a.body) : bodies (arenas.set i b) = bodies arenas := by
  have hset : arenas.set i b = arenas.modify i fun x => if x.body = b.body then b else x := by
    rw [← set_eq_modify _ ha, if_pos hb.symm]
  rw [hset]
  refine bodies_modify (fun x => ?_) arenas i
  split
  · rename_i hx
    exact hx.symm
  · rfl

@[simp] theorem Arena.body_bump (n : Nat) (a : Arena) : (a.bump n).body = a.body := rfl

@[simp] theorem Arena.body_rewind (n : Nat) (a : Arena) : (a.rewind n).body = a.body := rfl

@[simp] theorem Arena.body_reset (a : Arena) : a.reset.body = a.body := rfl

/-- A released arena has no block of the host's left. -/
theorem Arena.body_release (a : Arena) : a.release.body = none := by
  refine if_neg fun hboth => ?_
  obtain ⟨hdata, howned⟩ := hboth
  have hgone : a.release.data = 0 := if_pos howned
  exact hdata hgone

theorem arenaAllocAligned_body (buffer n : Nat) (a : Arena) :
    (arenaAllocAligned buffer n a).state.body = a.body := by
  rcases arenaAllocAligned_cases buffer n a with ⟨-, -, -, total, hstate⟩ | ⟨-, -, hok⟩
  · rw [hstate]
    rfl
  · rw [hok]
    rfl

/-- A fresh arena has the block the host answered. -/
theorem initArena_body {host : Host} {capacity : Nat} {a : Arena}
    (made : initArena host capacity = .ok a) :
    a.body = some a.region ∧ a.freed = [.free a.region.addr] ∧
      ∃ n, host.malloc n ≠ 0 ∧ a.region.addr = host.malloc n := by
  obtain ⟨-, hmalloc, hdata, -, -⟩ := initArena_ok made
  have howned : a.allocationType = .owned := by
    unfold initArena at made
    split at made
    · cases made
    · split at made
      · cases made
      · cases made
        rfl
  have hhas : a.data ≠ 0 ∧ a.allocationType = .owned := ⟨hdata ▸ hmalloc, howned⟩
  exact ⟨if_pos hhas, if_pos hhas, align8U32 capacity, hmalloc, hdata⟩

theorem initArenaBorrow_body {data capacity : Nat} {a : Arena}
    (made : initArenaBorrow data capacity = .ok a) : a.body = none ∧ a.freed = [] := by
  have hexternal : a.allocationType = .external := by
    unfold initArenaBorrow at made
    split at made
    · cases made
    · split at made
      · cases made
      · split at made
        · cases made
        · split at made
          · cases made
          · cases made
            rfl
  have hno : ¬ (a.data ≠ 0 ∧ a.allocationType = .owned) := by
    rw [hexternal]
    intro h
    cases h.2
  exact ⟨if_neg hno, if_neg hno⟩

/-! ## Giving blocks back -/

/-- An arena that has a block gives it back, one that has none gives nothing back. -/
theorem Arena.freed_cases (a : Arena) :
    (a.body = none ∧ a.freed = []) ∨
      (a.body = some a.region ∧ a.freed = [.free a.region.addr]) := by
  unfold Arena.body Arena.freed
  split
  · exact Or.inr ⟨rfl, rfl⟩
  · exact Or.inl ⟨rfl, rfl⟩

/-- A block that is out at an address of its own goes when it is given back. -/
theorem apply_free {blocks rest : List Region} {r : Region} (hperm : blocks.Perm (r :: rest))
    (hapart : (blocks.map Region.addr).Nodup) :
    ∃ blocks', HostEvent.apply blocks (.free r.addr) = some blocks' ∧ blocks'.Perm rest ∧
      (blocks'.map Region.addr).Nodup := by
  have hmem : r ∈ blocks := hperm.mem_iff.mpr List.mem_cons_self
  have hany : (blocks.any fun x => x.addr == r.addr) = true :=
    List.any_eq_true.mpr ⟨r, hmem, beq_self_eq_true _⟩
  refine ⟨blocks.eraseP fun x => x.addr == r.addr, ?_, ?_, ?_⟩
  · simp only [HostEvent.apply, hany, if_true]
  · -- no other block that is out has the address
    have hunique : blocks.Pairwise fun x y =>
        (x.addr == r.addr) = true → (y.addr == r.addr) = true → False := by
      refine (List.pairwise_map.mp hapart).imp fun hne hx hy => hne ?_
      exact (beq_iff_eq.mp hx).trans (beq_iff_eq.mp hy).symm
    have herased := hperm.eraseP (fun x => x.addr == r.addr) hunique
    rw [List.eraseP_cons_of_pos (by simp)] at herased
    exact herased
  · exact hapart.sublist (List.eraseP_sublist.map Region.addr)

/-- Arenas that give back all they have. -/
theorem frees_of_perm {gone : List Arena} {blocks rest : List Region}
    (hperm : blocks.Perm (bodies gone ++ rest)) (hapart : (blocks.map Region.addr).Nodup) :
    ∃ blocks', (gone.flatMap Arena.freed).foldlM HostEvent.apply blocks = some blocks' ∧
      blocks'.Perm rest ∧ (blocks'.map Region.addr).Nodup := by
  induction gone generalizing blocks with
  | nil => exact ⟨blocks, rfl, hperm, hapart⟩
  | cons a gone ih =>
      rw [List.flatMap_cons, List.foldlM_append]
      unfold bodies at hperm
      rcases a.freed_cases with ⟨hbody, hfreed⟩ | ⟨hbody, hfreed⟩
      · rw [List.filterMap_cons_none hbody] at hperm
        rw [hfreed]
        exact ih hperm hapart
      · rw [List.filterMap_cons_some hbody] at hperm
        obtain ⟨blocks₁, hfree, hperm₁, hapart₁⟩ := apply_free hperm hapart
        obtain ⟨blocks₂, hrest, hperm₂, hapart₂⟩ := ih hperm₁ hapart₁
        refine ⟨blocks₂, ?_, hperm₂, hapart₂⟩
        rw [hfreed]
        simp only [List.foldlM_cons, List.foldlM_nil, hfree, Option.bind_eq_bind,
          Option.bind_some, Option.pure_def]
        exact hrest

/-! ## One call -/

variable {host : Host} {memory : Allocator} {blocks : List Region}

theorem allocAt_bodies (buffer n i : Nat) (m : MultiArena) :
    bodies (m.allocAt buffer n i).state.arenas = bodies m.arenas := by
  unfold MultiArena.allocAt
  cases ha : m.arenas[i]? with
  | none => rfl
  | some a => exact bodies_set ha (arenaAllocAligned_body buffer n a)

/-- A block that is taken is one more that is out. -/
theorem Accounted.taken {m : MultiArena} {a : Arena} (h : Accounted (.multiArena m) blocks)
    (fresh : Unlent host blocks) {capacity : Nat} (made : initArena host capacity = .ok a) :
    Accounted (.multiArena { m with arenas := m.arenas ++ [a] }) (a.region :: blocks) := by
  obtain ⟨hbody, -, n, hne, haddr⟩ := initArena_body made
  constructor
  · have hlast : bodies [a] = [a.region] := List.filterMap_cons_some hbody
    show (a.region :: blocks).Perm (bodies (m.arenas ++ [a]))
    rw [bodies_append, hlast]
    exact (h.perm.cons a.region).trans (List.perm_append_singleton _ _).symm
  · refine List.nodup_cons.mpr ⟨fun hmem => ?_, h.apart⟩
    obtain ⟨r, hr, hsame⟩ := List.mem_map.mp hmem
    exact fresh n hne r hr (hsame.trans haddr)

/-- `multi_arena_alloc` -/
theorem Accounted.multiArenaAlloc {m : MultiArena} (h : Accounted (.multiArena m) blocks)
    (fresh : Unlent host blocks) (buffer n : Nat) :
    Leads (m.allocEvents host n) blocks
      (.multiArena (Memory.multiArenaAlloc host buffer n m).state) := by
  unfold Memory.multiArenaAlloc MultiArena.allocEvents
  by_cases hn : n = 0
  · rw [if_pos hn, if_pos hn]
    exact h.leads
  rw [if_neg hn, if_neg hn]
  generalize scanOpen m.fullRemaining n (m.arenas.drop m.firstOpen) m.firstOpen m.firstOpen = scan
  obtain ⟨firstOpen, found⟩ := scan
  have hmarked : Accounted (.multiArena { m with firstOpen := firstOpen }) blocks := h.congr rfl
  cases found with
  | some i => exact hmarked.leads.congr (allocAt_bodies buffer n i _)
  | none =>
      dsimp only
      by_cases hfull : m.arenaMaxCount ≠ 0 ∧ m.arenaMaxCount ≤ m.arenas.length
      · rw [if_pos hfull, if_pos hfull]
        exact hmarked.leads
      rw [if_neg hfull, if_neg hfull]
      cases made : initArena host (max m.arenaCapacity n) with
      | error result => exact hmarked.leads
      | ok a =>
          have htaken := hmarked.taken fresh made
          unfold multiArenaPush
          cases hrefusal : host.refusal with
          | none =>
              simp only [Option.isSome_none, Bool.false_eq_true, if_false]
              exact ⟨_, rfl, htaken.congr (allocAt_bodies _ _ _ _)⟩
          | some refusal =>
              -- the vector has no place for the arena, which gives its block back
              have hno : refusal.result ≠ .success := Result.ne_success_of_isError refusal.isError
              obtain ⟨blocks', hfree, hperm, hapart⟩ :=
                apply_free (List.Perm.refl (a.region :: blocks)) htaken.apart
              refine ⟨blocks', ?_, ?_⟩
              · simp only [Option.isSome_some, if_true, (initArena_body made).2.1,
                  List.foldlM_cons, List.foldlM_nil, HostEvent.apply, Option.bind_eq_bind,
                  Option.bind_some]
                simp only [HostEvent.apply] at hfree
                rw [hfree]
                rfl
              · dsimp only
                split
                · rename_i heq
                  exact absurd (Prod.mk.inj heq).1 hno
                · rename_i heq
                  obtain ⟨-, rfl⟩ := Prod.mk.inj heq
                  exact ⟨hperm.trans hmarked.perm, hapart⟩

/-- `arnm_alloc` -/
theorem Accounted.alloc (h : Accounted memory blocks) (fresh : Unlent host blocks)
    (buffer size : Nat) :
    Leads (memory.allocEvents host size) blocks (Memory.alloc host buffer size memory).state := by
  unfold Memory.alloc Allocator.allocEvents
  by_cases hzero : size = 0
  · rw [if_pos hzero, if_pos hzero]
    exact h.leads
  by_cases hwraps : align8U32 size = 0
  · rw [if_neg hzero, if_pos hwraps, if_neg hzero, if_pos hwraps]
    exact h.leads
  rw [if_neg hzero, if_neg hwraps, if_neg hzero, if_neg hwraps]
  cases memory with
  | arena a =>
      refine h.leads.congr ?_
      show bodies [(arenaAllocAligned buffer (align8U32 size) a).state] = bodies [a]
      unfold bodies
      rw [List.filterMap_cons, List.filterMap_cons, arenaAllocAligned_body]
  | multiArena m => exact h.multiArenaAlloc fresh buffer (align8U32 size)

theorem giveBack_bodies (memory : Allocator) (i k : Nat) :
    bodies (memory.giveBack i k).arenas = bodies memory.arenas := by
  cases memory with
  | arena a => rfl
  | multiArena m =>
      simp only [Allocator.giveBack, Allocator.arenas, MultiArena.reopen_arenas]
      exact bodies_modify (fun a => a.body_rewind k) m.arenas i

theorem claim_bodies (memory : Allocator) (i k : Nat) :
    bodies (memory.claim i k).arenas = bodies memory.arenas := by
  cases memory with
  | arena a => rfl
  | multiArena m => exact bodies_modify (fun a => a.body_bump k) m.arenas i

theorem free_bodies (buffer size : Nat) (memory : Allocator) :
    bodies (free buffer size memory).2.arenas = bodies memory.arenas := by
  unfold free
  split
  · rfl
  · split
    · split <;> rfl
    · split
      · exact giveBack_bodies _ _ _
      · rfl

/-- `arnm_realloc` of a buried block. -/
theorem Accounted.reallocBuried {h : Heap} (hacc : Accounted h.memory blocks)
    (fresh : Unlent host blocks) (buffer oldSize oldAligned newAligned : Nat) :
    Leads (h.memory.buriedEvents host oldAligned newAligned) blocks
      (Memory.reallocBuried host buffer oldSize oldAligned newAligned h).state.memory := by
  unfold Memory.reallocBuried Allocator.buriedEvents
  by_cases hgrow : oldAligned < newAligned
  · rw [if_pos hgrow, if_pos hgrow]
    have hleads := hacc.alloc fresh 0 newAligned
    dsimp only
    split
    · exact hleads
    · exact hleads
  · rw [if_neg hgrow, if_neg hgrow]
    exact hacc.leads

/-- `arnm_realloc` of the newest block of an arena. -/
theorem Accounted.reallocNewest {h : Heap} (hacc : Accounted h.memory blocks)
    (fresh : Unlent host blocks) (buffer oldSize oldAligned newAligned i : Nat) (a : Arena) :
    Leads (h.memory.newestEvents host oldAligned newAligned a) blocks
      (Memory.reallocNewest host buffer oldSize oldAligned newAligned i a h).state.memory := by
  unfold Memory.reallocNewest Allocator.newestEvents
  by_cases hshrink : newAligned < oldAligned
  · rw [if_pos hshrink, if_pos hshrink]
    exact hacc.leads.congr (giveBack_bodies _ _ _)
  rw [if_neg hshrink, if_neg hshrink]
  by_cases hroom : newAligned - oldAligned ≤ a.remainingBytes
  · rw [if_pos hroom, if_pos hroom]
    exact hacc.leads.congr (claim_bodies _ _ _)
  rw [if_neg hroom, if_neg hroom]
  obtain ⟨memory, bytes⟩ := h
  cases memory with
  | arena b =>
      refine hacc.leads.congr ?_
      obtain ⟨total, hcount⟩ := accountCapacityExceeded_snd (newAligned - oldAligned) b
      show bodies [(accountCapacityExceeded (newAligned - oldAligned) b).2] = bodies [b]
      rw [hcount]
      rfl
  | multiArena m =>
      have hleads := hacc.alloc fresh 0 newAligned
      dsimp only
      split
      · exact hleads.congr (giveBack_bodies _ _ _)
      · exact hleads

theorem Accounted.realloc {h : Heap} (hacc : Accounted h.memory blocks)
    (fresh : Unlent host blocks) (buffer oldSize newSize : Nat) :
    Leads (h.memory.reallocEvents host buffer oldSize newSize) blocks
      (Memory.realloc host buffer oldSize newSize h).state.memory := by
  unfold Memory.realloc Allocator.reallocEvents
  split
  · exact hacc.leads
  · split
    · exact hacc.leads.congr (free_bodies _ _ _)
    · split
      · exact hacc.leads
      · cases hown : h.memory.owner buffer with
        | none =>
            dsimp only
            split
            · exact hacc.leads
            · exact hacc.reallocBuried fresh _ _ _ _
        | some owner =>
            obtain ⟨i, a⟩ := owner
            dsimp only
            split
            · exact hacc.reallocNewest fresh _ _ _ _ _ _
            · exact hacc.reallocBuried fresh _ _ _ _

/-! ## Letting go -/

/-- `arnm_release` -/
theorem Accounted.release (h : Accounted memory blocks) :
    ∃ blocks', memory.releaseEvents.foldlM HostEvent.apply blocks = some blocks' ∧
      blocks' = [] ∧ bodies memory.release.arenas = [] := by
  have hperm : blocks.Perm (bodies memory.arenas ++ []) := by
    rw [List.append_nil]
    exact h.perm
  obtain ⟨blocks', hrun, hnone, -⟩ := frees_of_perm hperm h.apart
  refine ⟨blocks', hrun, hnone.eq_nil, ?_⟩
  cases memory with
  | arena a => exact List.filterMap_cons_none a.body_release
  | multiArena m => rfl

/-- `arnm_multi_arena_shrink` -/
theorem Accounted.shrink {m : MultiArena} (h : Accounted (.multiArena m) blocks) :
    Leads m.shrinkEvents blocks (.multiArena (m.shrink host).2) := by
  -- the chain is what stays, then what goes
  have hsplit : m.arenas = m.arenas.rdropWhile Arena.canGo ++
      (m.arenas.reverse.takeWhile Arena.canGo).reverse := by
    unfold List.rdropWhile
    rw [← List.reverse_append, List.takeWhile_append_dropWhile, List.reverse_reverse]
  have hgone : (bodies (m.arenas.reverse.takeWhile Arena.canGo).reverse).Perm
      (bodies (m.arenas.reverse.takeWhile Arena.canGo)) := by
    unfold bodies
    rw [List.filterMap_reverse]
    exact List.reverse_perm _
  have hperm : blocks.Perm (bodies (m.arenas.reverse.takeWhile Arena.canGo) ++
      bodies (m.arenas.rdropWhile Arena.canGo)) := by
    have hall : blocks.Perm (bodies m.arenas) := h.perm
    rw [hsplit, bodies_append] at hall
    exact hall.trans ((List.perm_append_comm).trans (hgone.append_right _))
  obtain ⟨blocks', hrun, hleft, hapart⟩ := frees_of_perm hperm h.apart
  exact ⟨blocks', hrun, hleft, hapart⟩

/-- A borrowed arena has no block of the host's. -/
theorem borrow_bodies (data capacity : Nat) (m : MultiArena) :
    bodies (m.borrow host data capacity).2.arenas = bodies m.arenas := by
  unfold MultiArena.borrow
  split
  · rfl
  · split
    · rfl
    · cases made : initArenaBorrow data capacity with
      | error result => rfl
      | ok a =>
          unfold multiArenaPush
          cases host.refusal with
          | some refusal => rfl
          | none =>
              have hnone : bodies [a] = [] :=
                List.filterMap_cons_none (initArenaBorrow_body made).1
              show bodies (m.arenas ++ [a]) = bodies m.arenas
              rw [bodies_append, hnone, List.append_nil]

/-- A call. -/
theorem Accounted.call {h : Heap} (hacc : Accounted h.memory blocks) (fresh : Unlent host blocks)
    (c : Call) :
    Leads (h.memory.hostEvents host c) blocks (h.call host c).state.memory := by
  cases c with
  | alloc size => exact hacc.alloc fresh 0 size
  | clone src size =>
      have hleads := hacc.alloc fresh 0 size
      simp only [Heap.call, Allocator.hostEvents, Memory.clone]
      by_cases hsrc : src = 0
      · rw [if_pos hsrc, if_pos hsrc]
        exact hacc.leads
      rw [if_neg hsrc, if_neg hsrc]
      by_cases hzero : size = 0
      · rw [if_pos hzero]
        unfold Allocator.allocEvents
        rw [if_pos hzero]
        exact hacc.leads
      rw [if_neg hzero]
      split
      · exact hleads
      · exact hleads
  | free buffer size => exact hacc.leads.congr (free_bodies _ _ _)
  | realloc buffer oldSize newSize => exact hacc.realloc fresh buffer oldSize newSize
  | reset =>
      refine hacc.leads.congr ?_
      show bodies h.memory.reset.arenas = bodies h.memory.arenas
      cases h.memory with
      | arena a => rfl
      | multiArena m => exact bodies_map Arena.body_reset m.arenas
  | release =>
      obtain ⟨blocks', hrun, hnone, hbodies⟩ := hacc.release
      refine ⟨blocks', hrun, ?_, ?_⟩
      · show blocks'.Perm (bodies h.memory.release.arenas)
        rw [hbodies, hnone]
      · rw [hnone]
        exact List.nodup_nil
  | reserve arenaCount =>
      refine hacc.leads.congr ?_
      simp only [Heap.call]
      split <;> rfl
  | borrow data capacity =>
      refine hacc.leads.congr ?_
      obtain ⟨memory, bytes⟩ := h
      cases memory with
      | arena a => rfl
      | multiArena m => exact borrow_bodies data capacity m
  | shrink =>
      obtain ⟨memory, bytes⟩ := h
      cases memory with
      | arena a => exact hacc.leads
      | multiArena m => exact hacc.shrink

/-- `arnm_reinit_arena`: the host has the old block back before it is asked for the new one. -/
theorem Accounted.reinit {a : Arena} (h : Accounted (.arena a) blocks) (capacity : Nat) :
    Leads (a.reinitEvents host capacity) blocks (.arena (a.reinit host capacity).2) := by
  obtain ⟨blocks', hrun, hnone, hbodies⟩ := h.release
  have hfreed : a.freed.foldlM HostEvent.apply blocks = some [] := by
    rw [hnone] at hrun
    simpa [Allocator.releaseEvents, Allocator.arenas] using hrun
  unfold Arena.reinitEvents Arena.reinit Leads
  rw [List.foldlM_append, hfreed]
  cases made : initArena host capacity with
  | error result =>
      refine ⟨[], rfl, ?_, List.nodup_nil⟩
      show [].Perm (bodies [a.release])
      rw [show bodies [a.release] = [] from hbodies]
  | ok b =>
      refine ⟨[b.region], rfl, ?_, List.nodup_singleton _⟩
      show [b.region].Perm (bodies [b])
      rw [show bodies [b] = [b.region] from List.filterMap_cons_some (initArena_body made).1]

/-! ## Runs -/

/-- The single arenas and the chains there can be, with all that they called the host for: whatever
their clients call, and a single arena may be set up again at another size. -/
inductive HostRun : Allocator → List HostEvent → Prop where
  | arena (host : Host) (capacity : Nat) (a : Arena) (made : initArena host capacity = .ok a) :
      HostRun (.arena a) [.malloc a.region]
  | borrowed (data capacity : Nat) (a : Arena) (made : initArenaBorrow data capacity = .ok a) :
      HostRun (.arena a) []
  | chain (host : Host) (options : MultiArenaOptions) (m : MultiArena)
      (made : createMultiArena host options = some m) : HostRun (.multiArena m) []
  | call (host : Host) (h : Heap) (trace : List HostEvent) (c : Call)
      (run : HostRun h.memory trace)
      (fresh : ∀ blocks, replay trace = some blocks → Unlent host blocks) :
      HostRun (h.call host c).state.memory (trace ++ h.memory.hostEvents host c)
  | reinit (host : Host) (a : Arena) (trace : List HostEvent) (capacity : Nat)
      (run : HostRun (.arena a) trace) :
      HostRun (.arena (a.reinit host capacity).2) (trace ++ a.reinitEvents host capacity)

theorem Leads.replay {trace events : List HostEvent} (hreplay : Memory.replay trace = some blocks)
    (h : Leads events blocks memory) :
    ∃ blocks', Memory.replay (trace ++ events) = some blocks' ∧ Accounted memory blocks' := by
  obtain ⟨blocks', hrun, hacc⟩ := h
  refine ⟨blocks', ?_, hacc⟩
  unfold Memory.replay at hreplay ⊢
  rw [List.foldlM_append, hreplay]
  exact hrun

theorem HostRun.accounted {memory : Allocator} {trace : List HostEvent}
    (run : HostRun memory trace) :
    ∃ blocks, replay trace = some blocks ∧ Accounted memory blocks := by
  induction run with
  | arena host capacity a made =>
      refine ⟨[a.region], rfl, ?_, List.nodup_singleton _⟩
      show [a.region].Perm (bodies [a])
      rw [show bodies [a] = [a.region] from List.filterMap_cons_some (initArena_body made).1]
  | borrowed data capacity a made =>
      refine ⟨[], rfl, ?_, List.nodup_nil⟩
      show [].Perm (bodies [a])
      rw [show bodies [a] = [] from List.filterMap_cons_none (initArenaBorrow_body made).1]
  | chain host options m made =>
      refine ⟨[], rfl, ?_, List.nodup_nil⟩
      have hnone : m.arenas = [] := by
        unfold createMultiArena at made
        split at made
        · cases made
          rfl
        · cases made
      show [].Perm (bodies m.arenas)
      rw [hnone]
      exact List.Perm.refl _
  | call host h trace c _ fresh ih =>
      obtain ⟨blocks, hreplay, hacc⟩ := ih
      exact (hacc.call (fresh blocks hreplay) c).replay hreplay
  | reinit host a trace capacity _ ih =>
      obtain ⟨blocks, hreplay, hacc⟩ := ih
      exact (hacc.reinit capacity).replay hreplay

/-- Whatever a client calls, a single arena or a chain never gives the host a block back that it
does not have, the blocks that are out are those of the arenas it owns, each at an address of its
own, and after a release none is out. -/
theorem host_blocks_balanced {memory : Allocator} {trace : List HostEvent}
    (run : HostRun memory trace) :
    (∃ blocks, replay trace = some blocks ∧ blocks.Perm (bodies memory.arenas) ∧
      (blocks.map Region.addr).Nodup) ∧
    replay (trace ++ memory.releaseEvents) = some [] ∧ bodies memory.release.arenas = [] := by
  obtain ⟨blocks, hreplay, hacc⟩ := run.accounted
  obtain ⟨blocks', hrun, hnone, hbodies⟩ := hacc.release
  refine ⟨⟨blocks, hreplay, hacc.perm, hacc.apart⟩, ?_, hbodies⟩
  unfold replay at hreplay ⊢
  rw [List.foldlM_append, hreplay, ← hnone]
  exact hrun

/-- A chain and its trace after a call, for which the host has an address for a new arena. -/
def traced (s : Heap × List HostEvent) (call : Nat × Call) : Heap × List HostEvent :=
  ((s.1.call (Host.answering call.1) call.2).state,
    s.2 ++ s.1.memory.hostEvents (Host.answering call.1) call.2)

/-- Two arenas are opened, a pointer the chain does not know is freed, the second arena is emptied
and given back, and a third one is opened at its address. -/
def sampleTrace : Heap × List HostEvent :=
  [(8192, Call.alloc 900), (16384, .alloc 200), (0, .free 40 7), (0, .free 16384 200), (0, .shrink),
    (16384, .alloc 300)].foldl traced (⟨.multiArena ⟨[], 1024, 0, 64, 0⟩, fun _ => 0⟩, [])

/-- The chain gives the two blocks back that it has. -/
theorem host_blocks_balanced_sample :
    sampleTrace.2 = [.malloc ⟨8192, 1024⟩, .malloc ⟨16384, 1024⟩, .free 16384,
        .malloc ⟨16384, 1024⟩] ∧
      sampleTrace.1.memory.releaseEvents = [.free 8192, .free 16384] ∧
      replay (sampleTrace.2 ++ sampleTrace.1.memory.releaseEvents) = some [] := by
  have fresh : ∀ {trace : List HostEvent} (blocks : List Region) (addr : Nat),
      replay trace = some blocks → (∀ r ∈ blocks, r.addr ≠ addr) →
      ∀ blocks', replay trace = some blocks' → Unlent (Host.answering addr) blocks' := by
    intro trace blocks addr hreplay hne blocks' hreplay' n hn r hr
    obtain rfl := Option.some.inj (hreplay.symm.trans hreplay')
    simp only [Host.answering] at hn ⊢
    split at hn
    · rename_i hle
      rw [if_pos hle]
      exact hne r hr
    · exact absurd rfl hn
  have start : HostRun (.multiArena ⟨[], 1024, 0, 64, 0⟩) [] :=
    .chain (Host.answering 0) ⟨0, 0, 0, 0, 0⟩ _ rfl
  have hone := HostRun.call (Host.answering 8192) ⟨_, fun _ => 0⟩ [] (.alloc 900) start
    (fresh [] 8192 rfl (by decide))
  have htwo := hone.call (Host.answering 16384) _ _ (.alloc 200)
    (fresh [⟨8192, 1024⟩] 16384 (by decide) (by decide))
  have hwild := htwo.call (Host.answering 0) _ _ (.free 40 7)
    (fresh [⟨16384, 1024⟩, ⟨8192, 1024⟩] 0 (by decide) (by decide))
  have hfreed := hwild.call (Host.answering 0) _ _ (.free 16384 200)
    (fresh [⟨16384, 1024⟩, ⟨8192, 1024⟩] 0 (by decide) (by decide))
  have hshrunk := hfreed.call (Host.answering 0) _ _ .shrink
    (fresh [⟨16384, 1024⟩, ⟨8192, 1024⟩] 0 (by decide) (by decide))
  have run := hshrunk.call (Host.answering 16384) _ _ (.alloc 300)
    (fresh [⟨8192, 1024⟩] 16384 (by decide) (by decide))
  exact ⟨by decide, by decide, (host_blocks_balanced run).2.1⟩

end Arnm.Memory
