import Arnm.Pool.Service
import Arnm.Roaring.SetOps

set_option autoImplicit false

/-! # Sets that share a pool

A program holds any number of sets over one graded block pool and calls add, the set operations
and free on them in any order. A pointer to a set is its index, NULL an index without a set. The
pool may refuse whenever it is asked, and what it lent and got back is on record.
-/

namespace Arnm.Roaring

open Listing Memory Lending Pool

/-! ## The calls -/

/-- The sets, and the pool with the number of requests so far and the record of its blocks. -/
structure Store where
  sets : List Bitmap
  pool : (PoolHeap × Nat) × List Event

/-- A call with its arguments; `init` brings a new set to life. -/
inductive Action where
  | init
  | add (set value : Nat)
  | combine (op : WordOp) (out a b min max : Nat)
  | copyRange (out a min max : Nat)
  | free (set : Nat)
  deriving DecidableEq, Repr

/-- `check_operation`, and the sets the pointers name. -/
def checkOperation (sets : List Bitmap) (out a b : Nat) :
    Except Result (Bitmap × Bitmap × Bitmap) :=
  match sets[out]?, sets[a]?, sets[b]? with
  | some o, some x, some y =>
    if out = a ∨ out = b ∨ o.block.isSome ∨ o.cardinality ≠ 0 then .error .errorInvalidParam
    else .ok (o, x, y)
  | _, _, _ => .error .errorNullPointer

/-- `arnm_roaring_and`, `arnm_roaring_or` and `arnm_roaring_andnot`, behind their checks. -/
def operate {σ : Type} (lender : BlockPool σ) (op : WordOp) (out a b : Bitmap) (min max : Nat)
    (pool : σ) : Built σ :=
  match op with
  | .and => roaringAnd lender out a b min max pool
  | .or => roaringOr lender out a b min max pool
  | .andnot => roaringAndnot lender out a b min max pool

/-- A call wrote to the set `i` points to. -/
def Store.put (store : Store) (i : Nat) (built : Built ((PoolHeap × Nat) × List Event)) :
    Result × Store :=
  (built.result, ⟨store.sets.set i built.set, built.pool⟩)

/-- The pool the sets take their blocks from. -/
def blocks (world : Surroundings) : BlockPool ((PoolHeap × Nat) × List Event) :=
  (poolLender world).recorded

/-- What a call answers and leaves. -/
def Store.call (world : Surroundings) (store : Store) : Action → Result × Store
  | .init => (.success, { store with sets := store.sets ++ [Bitmap.init] })
  | .add i value =>
    match store.sets[i]? with
    | none => (.errorNullPointer, store)
    | some set => store.put i (Roaring.add (blocks world) set value store.pool)
  | .combine op out a b min max =>
    match checkOperation store.sets out a b with
    | .error result => (result, store)
    | .ok (o, x, y) => store.put out (operate (blocks world) op o x y min max store.pool)
  | .copyRange out a min max =>
    match checkOperation store.sets out a a with
    | .error result => (result, store)
    | .ok (o, x, _) => store.put out (roaringCopyRange (blocks world) o x min max store.pool)
  | .free i =>
    match store.sets[i]? with
    | none => (.success, store)
    | some set =>
      let freed := Roaring.free (blocks world) set store.pool
      (.success, ⟨store.sets.set i freed.1, freed.2⟩)

namespace Store

variable {world : Surroundings} {store : Store}

def heap (store : Store) : PoolHeap := store.pool.1.1

/-- The blocks all sets hold. -/
def loans (store : Store) : List Loan := store.sets.flatMap Bitmap.loans

/-- The values passed are numbers of 32 bits. -/
def Typed : Action → Prop
  | .add _ value => value < 2 ^ 32
  | _ => True

/-- The states of a program whose sets share the pool: it starts without sets over a pool of which
nothing is lent, calls, and writes into the blocks its sets hold. -/
inductive Reachable (world : Surroundings) : Store → Prop where
  | start (heap : PoolHeap) (fresh : Pool.Reachable ⟨heap, []⟩) :
      Reachable world ⟨[], (heap, 0), []⟩
  | call (store : Store) (action : Action) (reached : Reachable world store)
      (typed : Typed action) : Reachable world (store.call world action).2
  | write (store : Store) (bytes : Bytes) (reached : Reachable world store)
      (inside : ∀ x, (∀ loan ∈ store.loans, ¬ (blockOf store.heap.pool loan).room.Has x) →
        bytes x = store.heap.bytes x) :
      Reachable world
        { store with pool := (({ store.heap with bytes := bytes }, store.pool.1.2), store.pool.2) }

/-! ## The account of the sets -/

/-- The pool has lent what the sets hold and `others`, and the record says so. -/
def Accounted (store : Store) (others : List Loan) : Prop :=
  ∃ minLog2, Records (Owes minLog2) store.pool (store.loans ++ others)

theorem loans_perm {i : Nat} {set : Bitmap} (hset : store.sets[i]? = some set) :
    store.loans.Perm (set.loans ++ (store.sets.eraseIdx i).flatMap Bitmap.loans) := by
  obtain ⟨hi, rfl⟩ := List.getElem?_eq_some_iff.mp hset
  have := (List.getElem_cons_eraseIdx_perm hi).symm.flatMap_right Bitmap.loans
  rwa [List.flatMap_cons] at this

/-- A call that takes one set from its loans to others keeps the account. -/
theorem Accounted.exchange {others : List Loan} (h : store.Accounted others) {i : Nat}
    {set set' : Bitmap} {pool' : (PoolHeap × Nat) × List Event}
    (hset : store.sets[i]? = some set)
    (hbal : Balanced (blocks world) store.pool set.loans pool' set'.loans) :
    Accounted ⟨store.sets.set i set', pool'⟩ others := by
  obtain ⟨minLog2, h⟩ := h
  have acc := (accounts_poolLender world minLog2).recorded
  obtain ⟨hi, -⟩ := List.getElem?_eq_some_iff.mp hset
  have hput : (store.sets.set i set')[i]? = some set' := by
    rw [List.getElem?_set_self hi]
  have hafter : (Store.mk (store.sets.set i set') pool').loans.Perm _ := loans_perm hput
  simp only [List.eraseIdx_set_eq] at hafter
  have hbefore := (loans_perm hset).append_right others
  rw [List.append_assoc] at hbefore
  have hmoved := acc.balance hbal _ (acc.perm hbefore h)
  rw [← List.append_assoc] at hmoved
  exact ⟨minLog2, acc.perm (hafter.symm.append_right others) hmoved⟩

/-! ## The operations behind their checks -/

theorem operate_yields {σ : Type} {L : BlockPool σ} {s : σ} (op : WordOp) {out a b : Bitmap}
    (min max : Nat) (ha : a.Valid) (hb : b.Valid) (h : out.Empty) :
    Yields L out s (Chosen op a b min max) (operate L op out a b min max s) := by
  cases op with
  | and => exact roaringAnd_yields min max ha hb h
  | or => exact roaringOr_yields min max ha hb h
  | andnot => exact roaringAndnot_yields min max ha hb h

/-- The checks let an empty set through that is none of the inputs. -/
theorem checkOperation_ok {sets : List Bitmap} {out a b : Nat} {o x y : Bitmap}
    (hv : ∀ set ∈ sets, set.Valid) (h : checkOperation sets out a b = .ok (o, x, y)) :
    sets[out]? = some o ∧ sets[a]? = some x ∧ sets[b]? = some y ∧ out ≠ a ∧ out ≠ b ∧ o.Empty := by
  unfold checkOperation at h
  split at h
  · rename_i o' x' y' ho hx hy
    split at h
    · cases h
    · rename_i hnot
      cases h
      push Not at hnot
      refine ⟨ho, hx, hy, hnot.1, hnot.2.1, hv o (List.mem_of_getElem? ho), ?_⟩
      simpa using hnot.2.2.1
  · cases h

/-- An operation leaves a well formed set and exchanges the loans of `out` for its. -/
theorem Yields.balanced {σ : Type} {L : BlockPool σ} {s : σ} {out : Bitmap} {p : Nat → Prop}
    [DecidablePred p] {r : Built σ} (h : Yields L out s p r) :
    r.set.WellFormed ∧ Balanced L s out.loans r.pool r.set.loans := by
  rcases h with ⟨-, hwell, -, hbal⟩ | ⟨-, hset, hbal, -⟩
  · exact ⟨hwell, hbal⟩
  · rw [hset]
    exact ⟨Bitmap.wellFormed_init, hbal⟩

/-! ## Every state of a run -/

/-- What holds in every state of a run. -/
structure Sound (store : Store) : Prop where
  wellFormed : ∀ set ∈ store.sets, set.WellFormed
  accounted : store.Accounted []

theorem Sound.valid (h : store.Sound) : ∀ set ∈ store.sets, set.Valid :=
  fun set hset => (h.wellFormed set hset).valid

/-- A call that writes to one set keeps the invariant. -/
theorem Sound.put (h : store.Sound) {i : Nat} {set set' : Bitmap}
    {pool' : (PoolHeap × Nat) × List Event} (hset : store.sets[i]? = some set)
    (hwell : set'.WellFormed)
    (hbal : Balanced (blocks world) store.pool set.loans pool' set'.loans) :
    Sound ⟨store.sets.set i set', pool'⟩ := by
  refine ⟨fun t ht => ?_, h.accounted.exchange hset hbal⟩
  rcases List.mem_or_eq_of_mem_set ht with ht | rfl
  · exact h.wellFormed t ht
  · exact hwell

/-- Every call keeps the invariant. -/
theorem Sound.call (h : store.Sound) (world : Surroundings) {action : Action}
    (typed : Typed action) : (store.call world action).2.Sound := by
  cases action with
  | init =>
      refine ⟨fun set hset => ?_, ?_⟩
      · rcases List.mem_append.mp hset with hset | hset
        · exact h.wellFormed set hset
        · rw [List.mem_singleton.mp hset]
          exact Bitmap.wellFormed_init
      · have hacc := h.accounted
        unfold Accounted loans at hacc ⊢
        simp only [Store.call, List.flatMap_append, List.flatMap_singleton, Bitmap.loans_init,
          List.append_nil] at hacc ⊢
        exact hacc
  | add i value =>
      simp only [Store.call]
      cases hset : store.sets[i]? with
      | none => exact h
      | some set =>
          obtain ⟨hwell, hbal⟩ := add_wellFormed (L := blocks world) (s := store.pool)
            (h.wellFormed set (List.mem_of_getElem? hset)) typed
          exact h.put hset hwell hbal
  | combine op out a b min max =>
      simp only [Store.call]
      cases hcheck : checkOperation store.sets out a b with
      | error result => exact h
      | ok named =>
          obtain ⟨o, x, y⟩ := named
          obtain ⟨ho, hx, hy, -, -, hempty⟩ := checkOperation_ok h.valid hcheck
          obtain ⟨hwell, hbal⟩ := Yields.balanced (operate_yields (L := blocks world)
            (s := store.pool) op min max (h.valid x (List.mem_of_getElem? hx))
            (h.valid y (List.mem_of_getElem? hy)) hempty)
          exact h.put ho hwell hbal
  | copyRange out a min max =>
      simp only [Store.call]
      cases hcheck : checkOperation store.sets out a a with
      | error result => exact h
      | ok named =>
          obtain ⟨o, x, y⟩ := named
          obtain ⟨ho, hx, -, -, -, hempty⟩ := checkOperation_ok h.valid hcheck
          obtain ⟨hwell, hbal⟩ := Yields.balanced (roaringCopyRange_yields (L := blocks world)
            (s := store.pool) min max (h.valid x (List.mem_of_getElem? hx)) hempty)
          exact h.put ho hwell hbal
  | free i =>
      simp only [Store.call]
      cases hset : store.sets[i]? with
      | none => exact h
      | some set =>
          have hgone := free_fst (L := blocks world) (s := store.pool) set
          have hbal : Balanced (blocks world) store.pool set.loans
              (Roaring.free (blocks world) set store.pool).2
              (Roaring.free (blocks world) set store.pool).1.loans := by
            rw [hgone]
            exact free_balanced (h.valid set (List.mem_of_getElem? hset)).anchored
          exact h.put hset (hgone ▸ Bitmap.wellFormed_init) hbal

theorem Reachable.sound (hr : Reachable world store) : store.Sound := by
  induction hr with
  | start heap fresh =>
      obtain ⟨cached, hl⟩ := fresh.ledger
      exact ⟨fun set hset => absurd hset List.not_mem_nil, _, ⟨rfl, cached, hl⟩, [], rfl,
        List.Perm.refl _⟩
  | call store action _ typed ih => exact ih.call world typed
  | write store bytes _ inside ih =>
      obtain ⟨minLog2, howes, hout⟩ := ih.accounted
      refine ⟨ih.wellFormed, minLog2, howes.write fun x hx => inside x fun loan hloan => ?_, hout⟩
      exact hx loan (List.mem_append_left _ hloan)

theorem lentFor_loans (pool : GradedBlockPool) (sets : List Bitmap) :
    lentFor pool (sets.flatMap Bitmap.loans) =
      (sets.map fun set => lentFor pool set.loans).sum := by
  induction sets with
  | nil => rfl
  | cons set sets ih =>
      rw [List.flatMap_cons, List.map_cons, List.sum_cons, ← ih, lentFor, List.map_append,
        List.sum_append]
      rfl

/-- In every state of a run the bytes lent by the pool are those of the blocks the sets hold, in
whole grades; the record has exactly these blocks out, each for the exponent it was taken with, and
no block came back that was not out or with another exponent; and no two of them are one. -/
theorem lent_bytes_are_held (hr : Reachable world store) :
    store.heap.pool.lentBytes = (store.sets.map fun set => lentFor store.heap.pool set.loans).sum ∧
      (∃ out, outstanding store.pool.2 = some out ∧ out.Perm store.loans) ∧
      (store.loans.map Loan.addr).Nodup := by
  obtain ⟨minLog2, howes, out, hout, hperm⟩ := hr.sound.accounted
  rw [List.append_nil] at howes hperm
  refine ⟨?_, ⟨out, hout, hperm⟩, howes.nodup⟩
  rw [← lentFor_loans]
  exact howes.lentBytes

/-- The arenas the pool has so far. -/
def arenasOf (h : PoolHeap) : List Arena :=
  match h.pool.source with
  | some (.multiArena m) => m.arenas
  | _ => []

/-- A host with one arena to give. -/
def sampleWorld : Surroundings where
  host _ h := Host.answering (if (arenasOf h).isEmpty then 4096 else 0)
  refuses _ _ := false
  fresh _ h := by
    intro m hm
    by_cases hnone : m.arenas = []
    · rw [hnone]
      split
      · exact Host.answering_fresh (by decide) (by decide) fun a ha => absurd ha List.not_mem_nil
      · exact fun n _ hne => absurd (by simp [Host.answering]) hne
    · have hsome : (arenasOf h).isEmpty = false := by simp [arenasOf, hm, hnone]
      rw [hsome]
      exact fun n _ hne => absurd (by simp [Host.answering]) hne

/-- The values go to the sets 0 and 1. -/
def sampleActions : List Action :=
  [.init, .init, .init, .add 0 1, .add 0 3, .add 0 5, .add 0 9, .add 1 2, .add 1 4, .add 1 5,
    .add 1 9, .add 1 65536]

/-- Three sets, two of them with values. Their blocks of 16 and 32 bytes fill the pool's one arena,
but for the 16 bytes that the second set outgrew. -/
def sampleStore : Store :=
  sampleActions.foldl (fun store action => (store.call sampleWorld action).2)
    ⟨[], (⟨samplePool, fun _ => 0, []⟩, 0), []⟩

/-- A program makes one call after the other. -/
theorem Reachable.calls (actions : List Action) (hr : Reachable world store)
    (typed : ∀ action ∈ actions, Typed action) :
    Reachable world (actions.foldl (fun store action => (store.call world action).2) store) := by
  induction actions generalizing store with
  | nil => exact hr
  | cons action actions ih =>
      obtain ⟨hfirst, hrest⟩ := List.forall_mem_cons.mp typed
      exact ih (hr.call _ action hfirst) hrest

theorem reachable_sampleStore : Reachable sampleWorld sampleStore := by
  apply Reachable.calls
  · exact .start _ (.init (Host.answering 0) ⟨4, 5, 2⟩ samplePool (fun _ => 0) rfl)
  · simp [sampleActions, Typed]

theorem lent_bytes_are_held_sample :
    (sampleStore.sets.map fun set => lentFor sampleStore.heap.pool set.loans) = [16, 32, 0] ∧
      sampleStore.heap.pool.lentBytes = 48 := by
  have hlent : (sampleStore.sets.map fun set => lentFor sampleStore.heap.pool set.loans) =
      [16, 32, 0] := by
    decide +kernel
  refine ⟨hlent, ?_⟩
  rw [(lent_bytes_are_held reachable_sampleStore).1, hlent]
  rfl

/-! ## Calls that fail -/

/-- The result and the inputs of a set operation. -/
def operands : Action → Option (Nat × Nat × Nat)
  | .combine _ out a b _ _ => some (out, a, b)
  | .copyRange out a _ _ => some (out, a, a)
  | _ => none

/-- A failed operation leaves an empty set, and the pool has lent what it had before. -/
theorem Accounted.failure {others : List Loan} (h : store.Accounted others) {o : Bitmap}
    {p : Nat → Prop} [DecidablePred p] {r : Built ((PoolHeap × Nat) × List Event)}
    (hempty : o.Empty) (hyields : Yields (blocks world) o store.pool p r)
    (hne : r.result ≠ .success) :
    r.set = Bitmap.init ∧ r.pool.1.1.pool.lentBytes = store.heap.pool.lentBytes := by
  obtain ⟨hset, hbal, -⟩ := hyields.failure hne
  obtain ⟨minLog2, h⟩ := h
  have acc := (accounts_poolLender world minLog2).recorded
  rw [hempty.loans_nil] at hbal
  have hafter := (acc.balance hbal _ h).1
  refine ⟨hset, ?_⟩
  calc r.pool.1.1.pool.lentBytes
      = lentFor r.pool.1.1.pool (store.loans ++ others) := hafter.lentBytes
    _ = lentFor store.heap.pool (store.loans ++ others) :=
        lentFor_congr (hafter.1.trans h.1.1.symm) _
    _ = store.heap.pool.lentBytes := h.1.lentBytes.symm

/-- A set operation on valid sets that fails, wherever the pool refused, leaves `out` empty, every
other set -- the inputs among them -- as it was and as many bytes lent as before; one that is
refused because `out` is not empty or is an input changes nothing. -/
theorem failed_operation_leaves_nothing {others : List Loan}
    (hv : ∀ set ∈ store.sets, set.Valid) (hacc : store.Accounted others)
    {action : Action} {out a b : Nat} (hop : operands action = some (out, a, b)) {o x y : Bitmap}
    (ho : store.sets[out]? = some o) (hx : store.sets[a]? = some x)
    (hy : store.sets[b]? = some y) :
    (out ≠ a → out ≠ b → o.Empty → (store.call world action).1 ≠ .success →
      (store.call world action).2.sets = store.sets.set out Bitmap.init ∧
        (store.call world action).2.sets[a]? = some x ∧
        (store.call world action).2.sets[b]? = some y ∧
        (store.call world action).2.heap.pool.lentBytes = store.heap.pool.lentBytes) ∧
    (out = a ∨ out = b ∨ o.block.isSome ∨ o.cardinality ≠ 0 →
      store.call world action = (.errorInvalidParam, store)) := by
  -- both operations write what they build to `out` behind the same checks
  have hboth : ∃ r : Built ((PoolHeap × Nat) × List Event), ∃ p : Nat → Prop, ∃ _ : DecidablePred p,
      (o.Empty → Yields (blocks world) o store.pool p r) ∧
      store.call world action =
        if out = a ∨ out = b ∨ o.block.isSome ∨ o.cardinality ≠ 0 then (.errorInvalidParam, store)
        else store.put out r := by
    have hxv := hv x (List.mem_of_getElem? hx)
    have hyv := hv y (List.mem_of_getElem? hy)
    have hcheck : checkOperation store.sets out a b =
        if out = a ∨ out = b ∨ o.block.isSome ∨ o.cardinality ≠ 0 then .error .errorInvalidParam
        else .ok (o, x, y) := by
      simp only [checkOperation, ho, hx, hy]
    cases action with
    | init => cases hop
    | add i value => cases hop
    | free i => cases hop
    | combine op out' a' b' min max =>
        cases hop
        refine ⟨operate (blocks world) op o x y min max store.pool, _, inferInstance,
          fun hempty => operate_yields op min max hxv hyv hempty, ?_⟩
        simp only [Store.call]
        rw [hcheck]
        by_cases hbad : out = a ∨ out = b ∨ o.block.isSome ∨ o.cardinality ≠ 0
        · rw [if_pos hbad, if_pos hbad]
        · rw [if_neg hbad, if_neg hbad]
    | copyRange out' a' min max =>
        cases hop
        refine ⟨roaringCopyRange (blocks world) o x min max store.pool, _, inferInstance,
          fun hempty => roaringCopyRange_yields min max hxv hempty, ?_⟩
        simp only [Store.call]
        rw [hcheck]
        by_cases hbad : out = a ∨ out = a ∨ o.block.isSome ∨ o.cardinality ≠ 0
        · rw [if_pos hbad, if_pos hbad]
        · rw [if_neg hbad, if_neg hbad]
  obtain ⟨r, p, hdec, hyields, hcall⟩ := hboth
  constructor
  · intro hna hnb hempty hne
    have hcard : o.cardinality = 0 := by
      rw [hempty.valid.cardinality_eq, hempty.members_nil]
      rfl
    have hpass : ¬ (out = a ∨ out = b ∨ o.block.isSome ∨ o.cardinality ≠ 0) := by
      simp [hna, hnb, hempty.block_none, hcard]
    rw [if_neg hpass] at hcall
    rw [hcall] at hne ⊢
    obtain ⟨hset, hlent⟩ := hacc.failure hempty (hyields hempty) hne
    have hsets : (store.put out r).2.sets = store.sets.set out Bitmap.init := by
      rw [put, hset]
    refine ⟨hsets, ?_, ?_, hlent⟩
    · rw [hsets, List.getElem?_set_ne hna, hx]
    · rw [hsets, List.getElem?_set_ne hnb, hy]
  · intro hbad
    rw [hcall, if_pos hbad]

/-- A pool like the sample's whose arenas have 128 bytes. -/
def eightBlocks : GradedBlockPool :=
  { samplePool with
    source := some (.multiArena ⟨[], 128, 0, 15, 0⟩)
    arenaCapacity := 128 }

/-- Two sets with a container each, one for the key 0 and one for the key 2, have taken four of
eight blocks. -/
def crowdedStore : Store :=
  let left := emitArray (blocks sampleWorld) Bitmap.init 0 [3, 5] 2
    ((⟨eightBlocks, fun _ => 0, []⟩, 0), [])
  let right := emitArray (blocks sampleWorld) Bitmap.init 2 [1, 7] 2 left.pool
  ⟨[left.set, right.set, Bitmap.init], right.pool⟩

theorem accounted_crowdedStore :
    (∀ set ∈ crowdedStore.sets, set.Valid) ∧ crowdedStore.Accounted [] := by
  obtain ⟨cached, hl⟩ := (Pool.Reachable.init (Host.answering 0) ⟨4, 5, 4⟩ eightBlocks
    (fun _ => 0) rfl).ledger
  have hstart : Accounted ⟨[Bitmap.init, Bitmap.init, Bitmap.init],
      ((⟨eightBlocks, fun _ => 0, []⟩, 0), [])⟩ [] :=
    ⟨_, ⟨rfl, cached, hl⟩, [], rfl, List.Perm.refl _⟩
  have hleft := emitArray_emits (L := blocks sampleWorld)
    (s := ((⟨eightBlocks, fun _ => 0, []⟩, 0), [])) [3, 5] (Bitmap.under_init 0)
    (by decide) (by decide) (by decide) (by decide)
  obtain ⟨-, hunder, -, hbal⟩ := hleft.resolve_right fun h => absurd h.1 (by decide +kernel)
  have hright := emitArray_emits (L := blocks sampleWorld)
    (s := (emitArray (blocks sampleWorld) Bitmap.init 0 [3, 5] 2
      ((⟨eightBlocks, fun _ => 0, []⟩, 0), [])).pool) [1, 7] (Bitmap.under_init 2)
    (by decide) (by decide) (by decide) (by decide)
  obtain ⟨-, hunder', -, hbal'⟩ := hright.resolve_right fun h => absurd h.1 (by decide +kernel)
  constructor
  · intro set hset
    simp only [crowdedStore, List.mem_cons, List.not_mem_nil, or_false] at hset
    rcases hset with rfl | rfl | rfl
    · exact hunder.valid
    · exact hunder'.valid
    · exact Bitmap.valid_init
  · exact (hstart.exchange (i := 0) rfl hbal).exchange (i := 1) rfl hbal'

/-- The union has its two containers, the second one's block is there, but not the greater block of
the directory: all three blocks go back. -/
theorem failed_operation_leaves_nothing_sample :
    let r := crowdedStore.call sampleWorld (.combine .or 2 0 1 0 131079)
    r.1 = .errorOutOfMemory ∧
      r.2.pool.2.take 6 = [.gave ⟨4176, 4⟩, .gave ⟨4160, 4⟩, .gave ⟨4192, 4⟩,
        .took ⟨4192, 4⟩, .took ⟨4176, 4⟩, .took ⟨4160, 4⟩] ∧
      r.2.sets = crowdedStore.sets ∧ r.2.heap.pool.lentBytes = 64 ∧
      crowdedStore.call sampleWorld (.combine .or 0 0 1 0 131079) =
        (.errorInvalidParam, crowdedStore) := by
  intro r
  obtain ⟨hvalid, haccounted⟩ := accounted_crowdedStore
  obtain ⟨a, b, hsets⟩ : ∃ a b, crowdedStore.sets = [a, b, Bitmap.init] := ⟨_, _, rfl⟩
  have h0 : crowdedStore.sets[0]? = some a := by rw [hsets]; rfl
  have h1 : crowdedStore.sets[1]? = some b := by rw [hsets]; rfl
  have h2 : crowdedStore.sets[2]? = some Bitmap.init := by rw [hsets]; rfl
  have herr : r.1 = .errorOutOfMemory := by decide +kernel
  have hop : operands (.combine .or 2 0 1 0 131079) = some (2, 0, 1) := rfl
  obtain ⟨hleft, -, -, hlent⟩ := (failed_operation_leaves_nothing hvalid haccounted hop h2 h0 h1).1
    (by decide) (by decide) Bitmap.empty_init (by rw [show _ = _ from herr]; decide)
  refine ⟨herr, by decide +kernel, ?_, hlent.trans (by decide +kernel), ?_⟩
  · rw [show r.2.sets = _ from hleft, hsets]
    rfl
  · exact (failed_operation_leaves_nothing hvalid haccounted rfl h0 h0 h1).2 (Or.inl rfl)

end Store

end Arnm.Roaring
