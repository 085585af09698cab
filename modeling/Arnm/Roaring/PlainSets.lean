import Arnm.Lib.Enumerated
import Arnm.Roaring.Page
import Arnm.Roaring.Query
import Arnm.Roaring.Reading
import Arnm.Roaring.Store

set_option autoImplicit false

/-! # The sets as plain sets of numbers

What a program means by its sets, and the sets as they are: `Plain.Step` says what a call may
answer and leave of plain sets of numbers. Forms, containers and blocks do not occur in it; the one
thing left open is whether the pool refuses. Every call of a run is such a step, so whatever holds
of every run over plain sets holds of the sets in their blocks.
-/

namespace Arnm.Roaring

open Enumerated Listing Memory Lending Pool

/-! ## Plain sets -/

namespace Plain

/-- The values a set operation leaves in its result. -/
def leaves : Action → Set ℕ → Set ℕ → Set ℕ
  | .combine op _ _ _ min max, A, B => {v | min ≤ v ∧ v ≤ max ∧ op.Holds (v ∈ A) (v ∈ B)}
  | .copyRange _ _ min max, A, _ => {v | min ≤ v ∧ v ≤ max ∧ v ∈ A}
  | _, _, _ => ∅

/-- What a call may answer, and the sets after it. -/
inductive Step (sets : List (Set ℕ)) : Action → Result → List (Set ℕ) → Prop where
  | init : Step sets .init .success (sets ++ [∅])
  | addMissing {i v : ℕ} (missing : sets[i]? = none) :
      Step sets (.add i v) .errorNullPointer sets
  | addAgain {i v : ℕ} {S : Set ℕ} (named : sets[i]? = some S) (greatest : IsGreatest S v) :
      Step sets (.add i v) .success sets
  | addBelow {i v m : ℕ} {S : Set ℕ} (named : sets[i]? = some S) (mem : m ∈ S) (lt : v < m) :
      Step sets (.add i v) .errorInvalidParam sets
  | addFull {i v : ℕ} {S : Set ℕ} (named : sets[i]? = some S) (above : ∀ m ∈ S, m < v)
      (full : S.ncard = uint32Max) : Step sets (.add i v) .errorResourceExhausted sets
  | addNext {i v : ℕ} {S : Set ℕ} (named : sets[i]? = some S) (above : ∀ m ∈ S, m < v)
      (room : S.ncard < uint32Max) : Step sets (.add i v) .success (sets.set i (insert v S))
  | addRefused {i v : ℕ} {S : Set ℕ} {result : Result} (named : sets[i]? = some S)
      (above : ∀ m ∈ S, m < v) (room : S.ncard < uint32Max) (error : result.isError = true) :
      Step sets (.add i v) result sets
  | missing {action : Action} {out a b : ℕ} (operands : Store.operands action = some (out, a, b))
      (missing : sets[out]? = none ∨ sets[a]? = none ∨ sets[b]? = none) :
      Step sets action .errorNullPointer sets
  | taken {action : Action} {out a b : ℕ} {O A B : Set ℕ}
      (operands : Store.operands action = some (out, a, b)) (namedOut : sets[out]? = some O)
      (namedA : sets[a]? = some A) (namedB : sets[b]? = some B)
      (taken : out = a ∨ out = b ∨ O ≠ ∅) : Step sets action .errorInvalidParam sets
  | done {action : Action} {out a b : ℕ} {A B : Set ℕ}
      (operands : Store.operands action = some (out, a, b)) (neA : out ≠ a) (neB : out ≠ b)
      (empty : sets[out]? = some ∅) (namedA : sets[a]? = some A) (namedB : sets[b]? = some B) :
      Step sets action .success (sets.set out (leaves action A B))
  | refused {action : Action} {out a b : ℕ} {A B : Set ℕ} {result : Result}
      (operands : Store.operands action = some (out, a, b)) (neA : out ≠ a) (neB : out ≠ b)
      (empty : sets[out]? = some ∅) (namedA : sets[a]? = some A) (namedB : sets[b]? = some B)
      (error : result.isError = true) : Step sets action result sets
  | freeMissing {i : ℕ} (missing : sets[i]? = none) : Step sets (.free i) .success sets
  | free {i : ℕ} {S : Set ℕ} (named : sets[i]? = some S) :
      Step sets (.free i) .success (sets.set i ∅)

/-- The plain sets a program can have after some calls with values of 32 bits. -/
inductive Reachable : List (Set ℕ) → Prop where
  | start : Reachable []
  | step {sets sets' : List (Set ℕ)} {action : Action} {result : Result}
      (reached : Reachable sets) (typed : Store.Typed action)
      (step : Step sets action result sets') : Reachable sets'

end Plain

/-! ## What a set means -/

/-- The values of a set, without their order. -/
def Bitmap.toSet (set : Bitmap) : Set ℕ := {v | v ∈ set.members}

namespace Bitmap

variable {set : Bitmap}

@[simp] theorem mem_toSet {v : ℕ} : v ∈ set.toSet ↔ v ∈ set.members := Iff.rfl

theorem toSet_init : init.toSet = ∅ := by
  rw [Set.eq_empty_iff_forall_notMem]
  intro v hv
  exact List.not_mem_nil (show v ∈ [] from hv)

theorem Valid.enumerates (h : set.Valid) : Enumerates (· < ·) set.members set.toSet :=
  ⟨h.pairwise_members, fun _ => Iff.rfl⟩

theorem Valid.ncard (h : set.Valid) : set.toSet.ncard = set.members.length := h.enumerates.ncard

theorem Valid.toSet_eq_empty (h : set.Valid) : set.toSet = ∅ ↔ set.members = [] :=
  h.enumerates.eq_nil_iff.symm

/-- The greatest value of a set is its maximum. -/
theorem Valid.isGreatest_iff (h : set.Valid) (v : ℕ) :
    IsGreatest set.toSet v ↔ v ∈ set.members ∧ v = set.maximum := by
  rw [← h.enumerates.getLast?_iff]
  constructor
  · intro hlast
    exact ⟨List.mem_of_getLast? hlast, (h.maximum_eq v hlast).symm⟩
  · rintro ⟨hmem, rfl⟩
    exact h.maximum_of_ne (List.ne_nil_of_mem hmem)

end Bitmap

namespace Store

variable {world : Surroundings} {store : Store}

/-- The sets of a store as its program means them. -/
def values (store : Store) : List (Set ℕ) := store.sets.map Bitmap.toSet

theorem values_getElem? (i : ℕ) : store.values[i]? = store.sets[i]?.map Bitmap.toSet :=
  List.getElem?_map

theorem values_of_getElem? {i : ℕ} {set : Bitmap} (h : store.sets[i]? = some set) :
    store.values[i]? = some set.toSet := by
  rw [values_getElem?, h]
  rfl

theorem values_none {i : ℕ} (h : store.sets[i]? = none) : store.values[i]? = none := by
  rw [values_getElem?, h]
  rfl

theorem values_put (i : ℕ) (built : Built ((PoolHeap × Nat) × List Event)) :
    (store.put i built).2.values = store.values.set i built.set.toSet :=
  List.map_set

/-- A set written with the values it had changes nothing. -/
theorem values_put_same {i : ℕ} {set : Bitmap} (h : store.sets[i]? = some set)
    {built : Built ((PoolHeap × Nat) × List Event)} (hsame : built.set.toSet = set.toSet) :
    (store.put i built).2.values = store.values := by
  obtain ⟨hi, hget⟩ := List.getElem?_eq_some_iff.mp (values_of_getElem? h)
  rw [values_put, hsame, ← hget, List.set_getElem_self]

/-! ## Every call is a step -/

/-- Adding a value is a step of the plain sets. -/
theorem step_add (hs : store.Sound) (world : Surroundings) (i : ℕ) {v : ℕ} (hv : v < 2 ^ 32) :
    Plain.Step store.values (.add i v) (store.call world (.add i v)).1
      (store.call world (.add i v)).2.values := by
  simp only [call]
  cases hset : store.sets[i]? with
  | none => exact .addMissing (values_none hset)
  | some set =>
      have hwell := hs.wellFormed set (List.mem_of_getElem? hset)
      have hnamed := values_of_getElem? hset
      have hvalid := hwell.valid
      simp only
      by_cases htakes : set.Takes v
      · have hroom : set.toSet.ncard < uint32Max := by
          rw [hvalid.ncard]
          exact htakes.2
        rcases add_takes (L := blocks world) (s := store.pool) hwell hv htakes with
          ⟨hok, -, hmembers, -⟩ | ⟨herr, -, hmembers, -⟩
        · have hinsert : (Roaring.add (blocks world) set v store.pool).set.toSet =
              insert v set.toSet := by
            ext u
            rw [Bitmap.mem_toSet, hmembers, List.mem_append, List.mem_singleton, Set.mem_insert_iff,
              Bitmap.mem_toSet]
            exact or_comm
          rw [values_put, hinsert]
          show Plain.Step _ _ (Roaring.add (blocks world) set v store.pool).result _
          rw [hok]
          exact .addNext hnamed htakes.1 hroom
        · -- a refusal may have changed the form of the set, not its values
          have hsame : (Roaring.add (blocks world) set v store.pool).set.toSet = set.toSet := by
            ext u
            rw [Bitmap.mem_toSet, hmembers, Bitmap.mem_toSet]
          rw [values_put_same hset hsame]
          exact .addRefused hnamed htakes.1 hroom herr
      · have hadd := add_not_takes (L := blocks world) (s := store.pool) hvalid htakes
        have hsame : (Roaring.add (blocks world) set v store.pool).set.toSet = set.toSet := by
          rw [hadd]
        rw [values_put_same hset hsame]
        show Plain.Step _ _ (Roaring.add (blocks world) set v store.pool).result _
        rw [hadd]
        simp only
        by_cases hagain : v ∈ set.members ∧ v = set.maximum
        · rw [if_pos hagain]
          exact .addAgain hnamed ((hvalid.isGreatest_iff v).mpr hagain)
        rw [if_neg hagain]
        by_cases hbelow : v < set.maximum
        · rw [if_pos hbelow]
          -- what is not taken is no first value
          have hne : set.members ≠ [] := by
            intro hnil
            apply htakes
            rw [Bitmap.Takes, hnil]
            exact ⟨fun m hm => absurd hm List.not_mem_nil, by decide⟩
          exact .addBelow hnamed (List.mem_of_getLast? (hvalid.maximum_of_ne hne)) hbelow
        · rw [if_neg hbelow]
          have habove : ∀ m ∈ set.members, m < v := by
            intro m hm
            have hle := (hvalid.le_maximum hm).1
            by_contra hge
            have heq : m = v := by omega
            exact hagain ⟨heq ▸ hm, by omega⟩
          have hcard := hvalid.cardinality_eq
          have hlt := hvalid.cardinality_lt
          have hfull : ¬ set.members.length < uint32Max := fun hroom => htakes ⟨habove, hroom⟩
          have hmax : set.toSet.ncard = uint32Max := by
            rw [hvalid.ncard]
            simp only [uint32Max] at hfull ⊢
            omega
          exact .addFull hnamed habove hmax

/-- What passes the checks of an operation, and what they answer otherwise. -/
theorem checkOperation_cases (sets : List Bitmap) (out a b : ℕ) :
    ((sets[out]? = none ∨ sets[a]? = none ∨ sets[b]? = none) ∧
        checkOperation sets out a b = .error .errorNullPointer) ∨
    ∃ o x y, sets[out]? = some o ∧ sets[a]? = some x ∧ sets[b]? = some y ∧
      checkOperation sets out a b =
        if out = a ∨ out = b ∨ o.block.isSome ∨ o.cardinality ≠ 0 then .error .errorInvalidParam
        else .ok (o, x, y) := by
  unfold checkOperation
  cases sets[out]? with
  | none => exact Or.inl ⟨Or.inl rfl, rfl⟩
  | some o =>
      cases sets[a]? with
      | none => exact Or.inl ⟨Or.inr (Or.inl rfl), rfl⟩
      | some x =>
          cases sets[b]? with
          | none => exact Or.inl ⟨Or.inr (Or.inr rfl), rfl⟩
          | some y => exact Or.inr ⟨o, x, y, rfl, rfl, rfl, rfl⟩

/-- In a run a set holds a block or counts a value exactly if it has one. -/
theorem held_iff {set : Bitmap} (hw : set.WellFormed) :
    (set.block.isSome ∨ set.cardinality ≠ 0) ↔ set.toSet ≠ ∅ := by
  have hcard := hw.valid.cardinality_eq
  apply Iff.trans _ (not_congr hw.valid.toSet_eq_empty).symm
  constructor
  · rintro (hblock | hcount) hnil
    · rw [hw.block_none hnil] at hblock
      cases hblock
    · rw [hnil] at hcard
      exact hcount hcard
  · intro hne
    apply Or.inr
    rw [hcard]
    exact fun hzero => hne (List.eq_nil_of_length_eq_zero hzero)

/-- An operation that does what its inputs ask of it is a step of the plain sets. -/
theorem step_operation (hs : store.Sound) (world : Surroundings) {action : Action} {out a b : ℕ}
    (hoperands : operands action = some (out, a, b))
    (build : Bitmap → Bitmap → Bitmap → Built ((PoolHeap × Nat) × List Event))
    (hstops : ∀ result, checkOperation store.sets out a b = .error result →
      store.call world action = (result, store))
    (hpasses : ∀ o x y, checkOperation store.sets out a b = .ok (o, x, y) →
      store.call world action = store.put out (build o x y))
    (hbuild : ∀ o x y, o.Empty → x.Valid → y.Valid → ∃ p : ℕ → Prop, ∃ _ : DecidablePred p,
      Yields (blocks world) o store.pool p (build o x y) ∧
        ∀ v, v ∈ Plain.leaves action x.toSet y.toSet ↔ v < 2 ^ 32 ∧ p v) :
    Plain.Step store.values action (store.call world action).1
      (store.call world action).2.values := by
  rcases checkOperation_cases store.sets out a b with
    ⟨hmissing, hcheck⟩ | ⟨o, x, y, ho, hx, hy, hcheck⟩
  · rw [hstops _ hcheck]
    apply Plain.Step.missing hoperands
    rcases hmissing with h | h | h
    · exact Or.inl (values_none h)
    · exact Or.inr (Or.inl (values_none h))
    · exact Or.inr (Or.inr (values_none h))
  have hheld := held_iff (hs.wellFormed o (List.mem_of_getElem? ho))
  have hxv := hs.valid x (List.mem_of_getElem? hx)
  have hyv := hs.valid y (List.mem_of_getElem? hy)
  by_cases htaken : out = a ∨ out = b ∨ o.block.isSome ∨ o.cardinality ≠ 0
  · rw [if_pos htaken] at hcheck
    rw [hstops _ hcheck]
    rw [hheld] at htaken
    exact .taken hoperands (values_of_getElem? ho) (values_of_getElem? hx)
      (values_of_getElem? hy) htaken
  · rw [if_neg htaken] at hcheck
    have hpass := checkOperation_ok hs.valid hcheck
    rw [hpasses o x y hcheck]
    rw [hheld] at htaken
    simp only [not_or, ne_eq, not_not] at htaken
    obtain ⟨hna, hnb, hempty⟩ := htaken
    have hnamed : store.values[out]? = some ∅ := by rw [values_of_getElem? ho, hempty]
    obtain ⟨p, hdec, hyields, hleaves⟩ := hbuild o x y hpass.2.2.2.2.2 hxv hyv
    by_cases hok : (build o x y).result = .success
    · have hset : (build o x y).set.toSet = Plain.leaves action x.toSet y.toSet := by
        ext v
        rw [hleaves]
        exact (hyields.success hok).2 v
      rw [values_put, hset]
      show Plain.Step _ _ (build o x y).result _
      rw [hok]
      exact .done hoperands hna hnb hnamed (values_of_getElem? hx) (values_of_getElem? hy)
    · have herr : (build o x y).result.isError = true := by
        rcases hyields with ⟨hsuccess, -⟩ | ⟨herr, -⟩
        · exact absurd hsuccess hok
        · exact herr
      have hsame : (build o x y).set.toSet = o.toSet := by
        rw [(hyields.failure hok).1, Bitmap.toSet_init, hempty]
      rw [values_put_same ho hsame]
      exact .refused hoperands hna hnb hnamed (values_of_getElem? hx) (values_of_getElem? hy) herr

/-- Every call of a run is a step of the plain sets. -/
theorem step_call (hs : store.Sound) (world : Surroundings) {action : Action}
    (typed : Typed action) :
    Plain.Step store.values action (store.call world action).1
      (store.call world action).2.values := by
  cases action with
  | init =>
      have hvalues : (store.call world .init).2.values = store.values ++ [∅] := by
        show (store.sets ++ [Bitmap.init]).map Bitmap.toSet = _
        rw [List.map_append, List.map_singleton, Bitmap.toSet_init]
        rfl
      rw [hvalues]
      exact .init
  | add i v => exact step_add hs world i typed
  | combine op out a b min max =>
      have hoperands : operands (.combine op out a b min max) = some (out, a, b) := rfl
      apply step_operation hs world hoperands
        (fun o x y => operate (blocks world) op o x y min max store.pool)
        (fun result h => by rw [call, h]) (fun o x y h => by rw [call, h])
      intro o x y hempty hx hy
      refine ⟨_, inferInstance, operate_yields op min max hx hy hempty, fun v => ?_⟩
      -- what is chosen comes from one of the inputs
      refine (and_iff_right_of_imp fun hv => ?_).symm
      cases op with
      | and => exact hx.lt_of_mem hv.2.2.1
      | or =>
          rcases hv.2.2 with hin | hin
          · exact hx.lt_of_mem hin
          · exact hy.lt_of_mem hin
      | andnot => exact hx.lt_of_mem hv.2.2.1
  | copyRange out a min max =>
      have hoperands : operands (.copyRange out a min max) = some (out, a, a) := rfl
      apply step_operation hs world hoperands
        (fun o x _ => roaringCopyRange (blocks world) o x min max store.pool)
        (fun result h => by rw [call, h]) (fun o x y h => by rw [call, h])
      intro o x y hempty hx _
      refine ⟨_, inferInstance, roaringCopyRange_yields min max hx hempty, fun v => ?_⟩
      exact (and_iff_right_of_imp fun hv => hx.lt_of_mem hv.2.2).symm
  | free i =>
      simp only [call]
      cases hset : store.sets[i]? with
      | none => exact .freeMissing (values_none hset)
      | some set =>
          have hvalues : (Store.mk (store.sets.set i (Roaring.free (blocks world) set store.pool).1)
              (Roaring.free (blocks world) set store.pool).2).values = store.values.set i ∅ := by
            rw [free_fst, values, List.map_set, Bitmap.toSet_init]
            rfl
          simp only
          rw [hvalues]
          exact .free (values_of_getElem? hset)

/-! ## Runs -/

/-- The sets of a run are plain sets some calls lead to. -/
theorem Reachable.plain (hr : Reachable world store) : Plain.Reachable store.values := by
  induction hr with
  | start heap fresh => exact .start
  | call store action reached typed ih => exact .step ih typed (step_call reached.sound world typed)
  | write store bytes reached inside ih => exact ih

/-- Whatever the pool refuses, the sets of a run are plain sets of numbers and every call is a step
of these: it answers and leaves what its arguments say, over numbers of 32 bits and at most as many
as can be counted. -/
theorem refines_plain_sets (hr : Reachable world store) :
    Plain.Reachable store.values ∧
      (∀ S ∈ store.values, S.ncard ≤ uint32Max ∧ ∀ v ∈ S, v < 2 ^ 32) ∧
      ∀ action, Typed action →
        Plain.Step store.values action (store.call world action).1
          (store.call world action).2.values := by
  refine ⟨hr.plain, fun S hS => ?_, fun action typed => step_call hr.sound world typed⟩
  obtain ⟨set, hset, rfl⟩ := List.mem_map.mp hS
  have hvalid := hr.sound.valid set hset
  have hlt := hvalid.cardinality_lt
  constructor
  · rw [hvalid.ncard, ← hvalid.cardinality_eq]
    simp only [uint32Max]
    omega
  · intro v hv
    exact hvalid.lt_of_mem hv

/-- The union is refused, and the intersection is built. -/
theorem refines_plain_sets_sample :
    Plain.Step sampleStore.values (.combine .or 2 0 1 0 9) .errorOutOfMemory
        (sampleStore.call sampleWorld (.combine .or 2 0 1 0 9)).2.values ∧
      Plain.Step sampleStore.values (.combine .and 2 0 1 0 9) .success
        (sampleStore.call sampleWorld (.combine .and 2 0 1 0 9)).2.values := by
  have hor : (sampleStore.call sampleWorld (.combine .or 2 0 1 0 9)).1 = .errorOutOfMemory := by
    decide +kernel
  have hand : (sampleStore.call sampleWorld (.combine .and 2 0 1 0 9)).1 = .success := by
    decide +kernel
  rw [← hor, ← hand]
  exact ⟨(refines_plain_sets reachable_sampleStore).2.2 _ trivial,
    (refines_plain_sets reachable_sampleStore).2.2 _ trivial⟩

end Store

end Arnm.Roaring
