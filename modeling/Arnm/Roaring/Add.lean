import Arnm.Roaring.Emit

set_option autoImplicit false

/-! # Adding values

What one `add` does to a set and to the blocks it holds: the value is appended, or the call is
refused. The parts follow the code: the change from sparse values to containers, the sparse
array, the last container, a container for a new key. `addAll` carries it to sequences.
-/

namespace Arnm.Roaring

open Listing Words Memory Lending

variable {σ : Type} {L : BlockPool σ} {s : σ}

/-! ## Values by key -/

section Group

variable {value : Nat} {values : List Nat}

/-- The values of the first key of a sorted list, which one container takes, and the rest. -/
structure FirstGroup (value : Nat) (values group rest : List Nat) : Prop where
  ne_nil : group ≠ []
  key_eq : ∀ v ∈ group, keyOf v = keyOf value
  lows_sorted : (group.map lowOf).Pairwise (· < ·)
  map_lows : (group.map lowOf).map (valueOf (keyOf value)) = group
  append_eq : group ++ rest = value :: values
  rest_sorted : rest.Pairwise (· < ·)
  next_le : ∀ v ∈ rest, keyOf value + 1 ≤ keyOf v

theorem firstGroup (hs : (value :: values).Pairwise (· < ·)) :
    FirstGroup value values ((value :: values).takeWhile fun v => decide (keyOf v = keyOf value))
      ((value :: values).dropWhile fun v => decide (keyOf v = keyOf value)) := by
  set group := (value :: values).takeWhile fun v => decide (keyOf v = keyOf value) with hgroup
  set rest := (value :: values).dropWhile fun v => decide (keyOf v = keyOf value) with hdrop
  have hkey : ∀ v ∈ group, keyOf v = keyOf value := fun v hv => by
    simpa using List.mem_takeWhile_imp hv
  have happ : group ++ rest = value :: values := List.takeWhile_append_dropWhile
  have hrest : rest.Sublist (value :: values) := List.dropWhile_sublist _
  refine ⟨by simp [hgroup], hkey, ?_, ?_, happ, hs.sublist hrest, ?_⟩
  · refine List.pairwise_map.mpr ((hs.sublist (List.takeWhile_sublist _)).imp_of_mem ?_)
    intro a b ha hb hab
    have h1 := hkey a ha
    have h2 := hkey b hb
    rw [keyOf_eq] at h1 h2
    rw [lowOf_eq, lowOf_eq]
    omega
  · rw [List.map_map]
    conv_rhs => rw [← List.map_id group]
    refine List.map_congr_left fun v hv => ?_
    rw [Function.comp_apply, ← hkey v hv, valueOf_keyOf_lowOf]
    rfl
  · intro v hv
    cases hr : rest with
    | nil =>
        rw [hr] at hv
        cases hv
    | cons first others =>
        -- the first value behind the group has another key, and the list is sorted
        have hnot : keyOf first ≠ keyOf value := by
          have := List.head_dropWhile_not (fun v => decide (keyOf v = keyOf value))
            (l := value :: values) (by rw [← hdrop, hr]; simp)
          simpa [← hdrop, hr] using this
        have hfirst : value ≤ first := by
          have hm : first ∈ value :: values := hrest.subset (by rw [hr]; exact List.mem_cons_self)
          rcases List.mem_cons.mp hm with rfl | hm
          · exact le_rfl
          · exact ((List.pairwise_cons.mp hs).1 first hm).le
        have hle : first ≤ v := by
          have hp := hs.sublist hrest
          rw [hr] at hp hv
          rcases List.mem_cons.mp hv with rfl | hv
          · exact le_rfl
          · exact ((List.pairwise_cons.mp hp).1 v hv).le
        simp only [keyOf_eq] at hnot ⊢
        omega

namespace FirstGroup

variable {group rest : List Nat}

theorem length_eq (g : FirstGroup value values group rest) :
    group.length + rest.length = values.length + 1 := by
  have hlength := congrArg List.length g.append_eq
  rwa [List.length_append, List.length_cons] at hlength

theorem rest_le (g : FirstGroup value values group rest) : rest.length ≤ values.length := by
  have hpos := List.length_pos_iff.mpr g.ne_nil
  have hlength := g.length_eq
  omega

theorem mem_of_rest (g : FirstGroup value values group rest) {v : Nat} (hv : v ∈ rest) :
    v ∈ value :: values := by
  rw [← g.append_eq]
  exact List.mem_append_right _ hv

/-- The values of the group make one container. -/
theorem emits (g : FirstGroup value values group rest) {out : Bitmap} (h : out.Under (keyOf value))
    (hlt : value < 2 ^ 32) (hlen : values.length + 1 ≤ arrayMax) :
    Emits L out (keyOf value) (group.map lowOf) s
      (emitArray L out (keyOf value) (group.map lowOf) (group.map lowOf).length s) := by
  apply emitArray_emits (group.map lowOf) h
  · rw [keyOf_eq]
    omega
  · exact g.lows_sorted
  · intro v hv
    obtain ⟨u, -, rfl⟩ := List.mem_map.mp hv
    exact lowOf_lt u
  · have hlength := g.length_eq
    rw [List.length_map]
    omega

end FirstGroup

/-- The change emits the first group and goes on with the rest. -/
theorem valuesToContainers_cons (hs : (value :: values).Pairwise (· < ·)) (fuel : Nat)
    (out : Bitmap) (s : σ) :
    ∃ group rest, FirstGroup value values group rest ∧
      let emitted := emitArray L out (keyOf value) (group.map lowOf) (group.map lowOf).length s
      valuesToContainers L (fuel + 1) out (value :: values) s =
        if emitted.result = .success then
          valuesToContainers L fuel emitted.set rest emitted.pool
        else emitted :=
  ⟨_, _, firstGroup hs, rfl⟩

end Group

/-- Sorted values are appended as containers; a refusal leaves what was built up to it. -/
theorem valuesToContainers_cases (fuel : Nat) {out : Bitmap} {values : List Nat} {k : Nat}
    (h : out.Under k) (hs : values.Pairwise (· < ·)) (hlt : ∀ v ∈ values, v < 2 ^ 32)
    (hk : ∀ v ∈ values, k ≤ keyOf v) (hlen : values.length ≤ arrayMax)
    (hfuel : values.length ≤ fuel) :
    let r := valuesToContainers L fuel out values s
    (∃ k', r.set.Under k') ∧ Balanced L s out.loans r.pool r.set.loans ∧
      ((r.result = .success ∧ r.set.members = out.members ++ values) ∨
        (r.result.isError = true ∧
          (L.Grants → uint32Max < out.members.length + values.length))) := by
  induction fuel generalizing out values k s with
  | zero =>
      rw [List.length_eq_zero_iff.mp (Nat.le_zero.mp hfuel)]
      exact ⟨⟨k, h⟩, Balanced.refl s _, Or.inl ⟨rfl, by simp [valuesToContainers]⟩⟩
  | succ fuel ih =>
      cases values with
      | nil => exact ⟨⟨k, h⟩, Balanced.refl s _, Or.inl ⟨rfl, by simp [valuesToContainers]⟩⟩
      | cons value values =>
          intro r
          obtain ⟨group, rest, g, hreq⟩ := valuesToContainers_cons (L := L) hs fuel out s
          change r = _ at hreq
          have hshort := g.rest_le
          have hlength := g.length_eq
          simp only [List.length_cons] at hfuel hlen
          have hemit := g.emits (L := L) (s := s) (h.mono (hk value List.mem_cons_self))
            (hlt value List.mem_cons_self) hlen
          generalize emitArray L out (keyOf value) (group.map lowOf) (group.map lowOf).length s
            = emitted at hemit hreq
          rcases hemit with ⟨hok, hunder, hmembers, hbal⟩ | ⟨herr, hset, hbal, hwhy⟩
          · rw [if_pos hok] at hreq
            rw [g.map_lows] at hmembers
            obtain ⟨hk', hbal', hcases⟩ := ih (s := emitted.pool) hunder g.rest_sorted
              (fun v hv => hlt v (g.mem_of_rest hv)) g.next_le (by omega) (by omega)
            rw [hreq]
            refine ⟨hk', hbal.trans hbal', ?_⟩
            rcases hcases with ⟨hok', hmembers'⟩ | ⟨herr', hwhy'⟩
            · exact Or.inl ⟨hok', by rw [hmembers', hmembers, List.append_assoc, g.append_eq]⟩
            · refine Or.inr ⟨herr', fun hgrants => ?_⟩
              have := hwhy' hgrants
              rw [hmembers, List.length_append] at this
              simp only [List.length_cons]
              omega
          · rw [if_neg (Result.ne_success_of_isError herr)] at hreq
            rw [hreq, hset]
            refine ⟨⟨k, h⟩, hbal, Or.inr ⟨herr, fun hgrants => ?_⟩⟩
            have := hwhy hgrants
            rw [List.length_map] at this
            simp only [List.length_cons]
            omega

/-! ## Well formed sets -/

/-- A valid set whose block pointer is NULL while it is empty. -/
structure Bitmap.WellFormed (set : Bitmap) : Prop where
  valid : set.Valid
  block_none : set.members = [] → set.block = none

namespace Bitmap

variable {set : Bitmap}

theorem wellFormed_init : init.WellFormed := ⟨valid_init, fun _ => rfl⟩

theorem ContainerForm.members_ne (h : set.ContainerForm) : set.members ≠ [] := by
  rw [members_containers h.containers_ne]
  obtain ⟨c, hc⟩ := List.exists_mem_of_ne_nil _ h.containers_ne
  obtain ⟨low, hlow⟩ := List.exists_mem_of_ne_nil _ (h.valid c hc).readable.lows_ne_nil
  exact List.ne_nil_of_mem (List.mem_flatMap.mpr ⟨c, hc, List.mem_map_of_mem hlow⟩)

theorem Under.wellFormed {k : Nat} (h : set.Under k) : set.WellFormed := by
  refine ⟨h.valid, fun hm => ?_⟩
  rcases h.valid.form with hf | hf
  · exact h.dir hf.containers_eq
  · exact absurd hm hf.members_ne

theorem Valid.sparseForm (h : set.Valid) (hs : set.isSparse = true) : set.SparseForm := by
  rcases h.form with hf | hf
  · exact hf
  · exact absurd (isSparse_iff.mp hs) hf.containers_ne

theorem Valid.containerForm (h : set.Valid) (hs : ¬ set.isSparse = true) : set.ContainerForm := by
  rcases h.form with hf | hf
  · exact absurd (isSparse_iff.mpr hf.containers_eq) hs
  · exact hf

theorem Valid.maximum_of_ne (h : set.Valid) (hne : set.members ≠ []) :
    set.members.getLast? = some set.maximum := by
  have hlast := List.getLast?_eq_some_getLast hne
  rw [h.maximum_eq _ (Option.mem_def.mpr hlast), hlast]

end Bitmap

/-! ## Changing form -/

/-- A sparse set holds the block of its values alone. -/
theorem Bitmap.SparseForm.loans_eq {set : Bitmap} (h : set.SparseForm) :
    set.loans = set.blockLoan := by
  rw [Bitmap.loans, h.containers_eq]
  simp

/-- A sparse set becomes containers with the same values, or is left as it was. -/
theorem sparseToContainers_cases {set : Bitmap} (hv : set.Valid) (hs : set.isSparse = true) :
    let r := sparseToContainers L set s
    (r.result = .success ∧ (∃ k, r.set.Under k) ∧ r.set.members = set.members ∧
      Balanced L s set.loans r.pool r.set.loans) ∨
    (r.result.isError = true ∧ r.set = set ∧ ¬ L.Grants ∧
      Balanced L s set.loans r.pool set.loans) := by
  have hf := hv.sparseForm hs
  have hmembers := Bitmap.members_sparse hf.containers_eq
  have hloans := hf.loans_eq
  have hlen : set.values.length ≤ arrayMax :=
    Nat.le_trans hf.length_le (by decide)
  have hbuilt := valuesToContainers_cases (L := L) (s := s) set.values.length
    (Bitmap.under_init 0) hf.sorted hf.lt (fun _ _ => Nat.zero_le _) hlen le_rfl
  unfold sparseToContainers
  rw [hf.cardinality_eq]
  simp only [List.take_length]
  generalize valuesToContainers L set.values.length Bitmap.init set.values s = built at hbuilt
  obtain ⟨⟨k, hunder⟩, hbal, hcases⟩ := hbuilt
  rcases hcases with ⟨hok, hmem⟩ | ⟨herr, hwhy⟩
  · rw [if_pos hok]
    -- the values' block is the loan the containers are built beside; it goes back at the end
    have hframe := hbal.frame set.loans
    rw [Bitmap.loans_init, List.nil_append] at hframe
    cases hb : set.block with
    | none =>
        refine Or.inl ⟨rfl, ⟨k, hunder⟩, by rw [hmem, hmembers]; rfl, ?_⟩
        rw [hloans, Bitmap.blockLoan, hb] at hframe ⊢
        simpa using hframe
    | some block =>
        refine Or.inl ⟨rfl, ⟨k, hunder⟩, by rw [hmem, hmembers]; rfl, hframe.trans ?_⟩
        rw [hloans, Bitmap.blockLoan, hb]
        exact (Balanced.of_perm _ (List.perm_append_singleton _ _)).trans
          (Balanced.returned _ _ _ _)
  · rw [if_neg (Result.ne_success_of_isError herr)]
    refine Or.inr ⟨herr, rfl, fun hg => ?_, ?_⟩
    · have := hwhy hg
      have hshort := hf.length_le
      have hnil : Bitmap.init.members.length = 0 := rfl
      rw [hnil] at this
      simp only [uint32Max, sparseMax] at this hshort
      omega
    · have := (hbal.trans (free_balanced hunder.valid.anchored)).frame set.loans
      exact this

/-! ## The sparse array -/

/-- With a value above all of its own a sparse set is one in any block that has room for it. -/
theorem Bitmap.SparseForm.concat {set : Bitmap} {v : Nat} (hf : set.SparseForm)
    (hroom : set.cardinality < sparseMax) (hlt : v < 2 ^ 32) (habove : ∀ m ∈ set.values, m < v)
    (block d : Nat) (hd : 4 * (set.values.length + 1) ≤ 2 ^ d) :
    let set' : Bitmap :=
      ⟨some block, set.containers, set.values ++ [v], set.values.length + 1, v, d⟩
    set'.WellFormed ∧ set'.members = set.members ++ [v] ∧ set'.loans = [⟨block, d⟩] := by
  intro set'
  have hm : set'.members = set.members ++ [v] := by
    have hc : set'.containers = [] := hf.containers_eq
    rw [Bitmap.members_sparse hc, Bitmap.members_sparse hf.containers_eq]
  have hform : set'.SparseForm := by
    refine ⟨hf.containers_eq, pairwise_concat hf.sorted habove, fun u hu => ?_, ?_, ?_,
      nofun, fun _ => by simpa [set'] using hd⟩
    · rcases List.mem_append.mp hu with hu | hu
      · exact hf.lt u hu
      · rw [List.mem_singleton.mp hu]
        exact hlt
    · have := hf.cardinality_eq
      simp only [set', List.length_append, List.length_singleton]
      omega
    · simp [set']
  refine ⟨⟨⟨Or.inl hform, fun u hu => ?_⟩, fun hnil => ?_⟩, hm, hform.loans_eq⟩
  · rw [hm] at hu
    simpa [set'] using hu
  · rw [hm] at hnil
    simp at hnil

/-- A value above all of a sparse set's is appended to it. -/
theorem sparseAdd_cases {set : Bitmap} {v : Nat} (hv : set.WellFormed) (hs : set.isSparse = true)
    (hroom : set.cardinality < sparseMax) (hlt : v < 2 ^ 32) (habove : ∀ m ∈ set.members, m < v) :
    let r := sparseAdd L set v s
    (r.result = .success ∧ r.set.WellFormed ∧ r.set.members = set.members ++ [v] ∧
      Balanced L s set.loans r.pool r.set.loans) ∨
    (r.result.isError = true ∧ r.set = set ∧ ¬ L.Grants ∧
      Balanced L s set.loans r.pool set.loans) := by
  have hf := hv.valid.sparseForm hs
  have hmembers := Bitmap.members_sparse hf.containers_eq
  have hloans := hf.loans_eq
  rw [Bitmap.blockLoan] at hloans
  rw [hmembers] at habove
  have hnew := hf.concat hroom hlt habove
  have hfull := hf.in_block
  unfold sparseAdd
  simp only [hf.cardinality_eq, List.take_length]
  by_cases hcap : set.values.length = if set.block.isSome then 2 ^ set.directoryLog2 / 4 else 0
  · rw [if_pos hcap]
    rcases hgot : L.alloc (if set.block.isSome then set.directoryLog2 + 1
      else sparseLog2First) s with ⟨answer, s'⟩
    cases answer with
    | error refusal =>
        have hbal := Balanced.refused (L := L) (s := s) (by rw [hgot]) set.loans
        rw [hgot] at hbal
        exact Or.inr ⟨refusal.isError, rfl, fun hg => absurd (by rw [hgot]) hg.ne_error, hbal⟩
    | ok block =>
        have htake := Balanced.granted (L := L) (s := s) (by rw [hgot]) set.loans
        rw [hgot] at htake
        cases hb : set.block with
        | none =>
            rw [hb] at hcap htake hgot hloans
            simp only [Option.isSome_none, Bool.false_eq_true, if_false] at hcap htake ⊢
            obtain ⟨hwell, hm, hheld⟩ := hnew block sparseLog2First (by rw [hcap]; decide)
            refine Or.inl ⟨trivial, hwell, hm, htake.trans ?_⟩
            rw [hheld, hloans]
            exact Balanced.refl _ _
        | some old =>
            rw [hb] at hcap htake hgot hloans
            simp only [Option.isSome_some, if_true] at hcap htake ⊢
            have hpos : set.values.length ≠ 0 := fun h0 => by
              have := hv.block_none (by rw [hmembers]; exact List.length_eq_zero_iff.mp h0)
              rw [hb] at this
              cases this
            obtain ⟨hwell, hm, hheld⟩ :=
              hnew block (set.directoryLog2 + 1) (by rw [Nat.pow_succ]; omega)
            refine Or.inl ⟨trivial, hwell, hm, htake.trans ?_⟩
            rw [hheld, hloans]
            exact (Balanced.of_perm _ (List.Perm.swap _ _ _)).trans (Balanced.returned _ _ _ _)
  · rw [if_neg hcap]
    cases hb : set.block with
    | none =>
        rw [hb, hf.block_none hb] at hcap
        exact absurd rfl hcap
    | some old =>
        rw [hb] at hcap hloans
        simp only [Option.isSome_some, if_true] at hcap
        have hle := hfull (by rw [hb]; simp)
        obtain ⟨hwell, hm, hheld⟩ := hnew old set.directoryLog2 (by omega)
        refine Or.inl ⟨rfl, hwell, hm, ?_⟩
        rw [hheld, hloans]
        exact Balanced.refl _ _

/-! ## The last container -/

/-- Setting a later bit appends it to the bits. -/
theorem below_setBit {words : Array64} {low : Nat} (hl : low < 65536)
    (habove : ∀ l ∈ below 65536 (Has words), l < low) :
    below 65536 (Has (setBit words low)) = below 65536 (Has words) ++ [low] := by
  refine eq_of_mem_iff_lt (pairwise_below _ _) ?_ fun i => ?_
  · exact pairwise_concat (pairwise_below _ _) habove
  · rw [List.mem_append, List.mem_singleton, mem_below, mem_below, has_setBit]
    constructor
    · rintro ⟨h1, h2 | h2⟩
      · exact Or.inl ⟨h1, h2⟩
      · exact Or.inr h2
    · rintro (⟨h1, h2⟩ | rfl)
      · exact ⟨h1, Or.inl h2⟩
      · exact ⟨hl, Or.inr rfl⟩

/-- The bits set for the values of an array are these values. -/
theorem below_foldl_setBit {values : List Nat} (hs : values.Pairwise (· < ·))
    (hlt : ∀ v ∈ values, v < 65536) :
    below 65536 (Has (values.foldl setBit fun _ => 0#64)) = values := by
  refine eq_of_mem_iff_lt (pairwise_below _ _) hs fun i => ?_
  rw [mem_below, has_foldl_setBit]
  constructor
  · rintro ⟨-, h | h⟩
    · exact absurd h (not_has_zero i)
    · exact h
  · exact fun h => ⟨hlt i h, Or.inr h⟩

theorem arrayToBitmap_cases {last : Container} {low : Nat} {values : List Nat} (hv : last.Valid)
    (hc : last.content = .array values) (hfull : last.cardinality = arrayMax) (hl : low < 65536)
    (habove : ∀ l ∈ last.lows, l < low) :
    let r := arrayToBitmap L last low s
    (r.result = .success ∧
      Container.Valid { r.last with cardinality := r.last.cardinality + 1 } ∧
      r.last.key = last.key ∧ r.last.lows = last.lows ++ [low] ∧
      r.last.cardinality = last.cardinality ∧
      Balanced L s [last.loan] r.pool [r.last.loan]) ∨
    (r.result.isError = true ∧ r.last = last ∧ ¬ L.Grants ∧
      Balanced L s [last.loan] r.pool [last.loan]) := by
  have hcontent := hv.content
  have hcard := hv.cardinality_eq
  have hlows : last.lows = values := by rw [Container.lows, hc]
  rw [hc] at hcontent
  rw [hlows] at habove hcard ⊢
  obtain ⟨hsorted, hlt, -, -⟩ := hcontent
  unfold arrayToBitmap
  rcases hgot : L.alloc bitmapLog2 s with ⟨answer, s'⟩
  cases answer with
  | error refusal =>
      have hbal := Balanced.refused (L := L) (s := s) (by rw [hgot]) [last.loan]
      rw [hgot] at hbal
      exact Or.inr ⟨refusal.isError, rfl, fun hg => absurd (by rw [hgot]) hg.ne_error, hbal⟩
  | ok block =>
      have htake := Balanced.granted (L := L) (s := s) (by rw [hgot]) [last.loan]
      rw [hgot] at htake
      -- the bits of the values, and with the new one a value more than an array holds
      have hbits : below 65536 (Has (setBit ((last.arrayOf.take last.cardinality).foldl setBit
          fun _ => 0#64) low)) = values ++ [low] := by
        have harray : last.arrayOf.take last.cardinality = values := by
          rw [Container.arrayOf, hc, hcard, List.take_length]
        have hold := below_foldl_setBit hsorted hlt
        rw [harray, below_setBit hl (by rwa [hold]), hold]
      refine Or.inl ⟨rfl, ⟨hv.key_lt, ⟨?_, rfl⟩, ?_, Nat.succ_pos _⟩, rfl, ?_, rfl, htake.trans ?_⟩
      · simp only [hbits, List.length_append, List.length_singleton]
        omega
      · simp only [Container.lows, hbits, List.length_append, List.length_singleton]
        omega
      · simp only [Container.lows, hbits]
      · exact (Balanced.of_perm _ (List.Perm.swap _ _ _)).trans (Balanced.returned _ _ _ _)

/-- An array container that is not full is one with a value above its own behind them, in any block
that has room for it. -/
theorem Container.Valid.concat {last : Container} {values : List Nat} {low : Nat}
    (hv : last.Valid) (hc : last.content = .array values) (hfull : last.cardinality ≠ arrayMax)
    (hl : low < 65536) (habove : ∀ l ∈ values, l < low) (data d : Nat)
    (hd : 2 * (values.length + 1) ≤ 2 ^ d) :
    Container.Valid ⟨data, .array (values ++ [low]), last.cardinality + 1, last.key, d⟩ := by
  have hcard : last.cardinality = values.length := by
    rw [hv.cardinality_eq, Container.lows, hc]
  have hcontent := hv.content
  rw [hc] at hcontent
  obtain ⟨hsorted, hlt, hlen, -⟩ := hcontent
  refine ⟨hv.key_lt, ⟨pairwise_concat hsorted habove, fun v hm => ?_, ?_, ?_⟩, ?_, Nat.succ_pos _⟩
  · rcases List.mem_append.mp hm with hm | hm
    · exact hlt v hm
    · rw [List.mem_singleton.mp hm]
      exact hl
  · rw [List.length_append, List.length_singleton]
    omega
  · simpa using hd
  · simp [Container.lows, hcard]

/-- The value is appended to the container, in a larger block or as a bit where the array is full;
or the pool refused and the container is as it was. -/
theorem appendLow_cases {last : Container} {low : Nat} (hv : last.Valid) (hl : low < 65536)
    (habove : ∀ l ∈ last.lows, l < low) :
    let r := appendLow L last low s
    (r.result = .success ∧ r.last.Valid ∧ r.last.key = last.key ∧
      r.last.lows = last.lows ++ [low] ∧ r.last.cardinality = last.cardinality + 1 ∧
      Balanced L s [last.loan] r.pool [r.last.loan]) ∨
    (r.result.isError = true ∧ r.last = last ∧ ¬ L.Grants ∧
      Balanced L s [last.loan] r.pool [last.loan]) := by
  have hcontent := hv.content
  have hcard := hv.cardinality_eq
  have hpos := hv.pos
  unfold appendLow
  cases hc : last.content with
  | wide values =>
      rw [hc] at hcontent
      exact hcontent.elim
  | bitmap words =>
      have hlows : last.lows = below 65536 (Has words) := by rw [Container.lows, hc]
      rw [hc] at hcontent
      rw [hlows] at habove hcard ⊢
      have hbits := below_setBit hl habove
      refine Or.inl ⟨rfl, ⟨hv.key_lt, ⟨?_, hcontent.2⟩, ?_, Nat.succ_pos _⟩, rfl, ?_, rfl,
        Balanced.refl _ _⟩
      · simp only [hbits, List.length_append, List.length_singleton]
        have := hcontent.1
        omega
      · simp only [Container.lows, hbits, List.length_append, List.length_singleton]
        omega
      · simp only [Container.lows, hbits]
  | array values =>
      simp only
      by_cases hfull : last.cardinality = arrayMax
      · rw [if_pos hfull]
        have hcases := arrayToBitmap_cases (L := L) (s := s) hv hc hfull hl habove
        generalize arrayToBitmap L last low s = changed at hcases ⊢
        rcases hcases with ⟨hok, hvalid, hkey, hlows, hcount, hbal⟩ | ⟨herr, hlast, hrefused, hbal⟩
        · rw [if_pos hok]
          exact Or.inl ⟨hok, hvalid, hkey, hlows, by simp only [hcount], hbal⟩
        · rw [if_neg (Result.ne_success_of_isError herr)]
          exact Or.inr ⟨herr, hlast, hrefused, hbal⟩
      rw [if_neg hfull]
      have hlows : last.lows = values := by rw [Container.lows, hc]
      rw [hc] at hcontent
      rw [hlows] at habove hcard ⊢
      obtain ⟨hsorted, hlt, hlen, hfit⟩ := hcontent
      have harray : last.arrayOf.take last.cardinality = values := by
        rw [Container.arrayOf, hc, hcard, List.take_length]
      have hnew := hv.concat hc hfull hl habove
      by_cases hcap : last.cardinality = 2 ^ last.blockLog2 / 2
      · rw [if_pos hcap]
        unfold arrayGrow
        simp only
        rcases hgot : L.alloc (last.blockLog2 + 1) s with ⟨answer, s'⟩
        cases answer with
        | error refusal =>
            have hbal := Balanced.refused (L := L) (s := s) (by rw [hgot]) [last.loan]
            rw [hgot] at hbal
            have hne : ¬ refusal.result = .success := fun hok => by
              have := refusal.isError
              rw [hok] at this
              cases this
            simp only [if_neg hne]
            exact Or.inr
              ⟨refusal.isError, trivial, fun hg => absurd (by rw [hgot]) hg.ne_error, hbal⟩
        | ok block =>
            have htake := Balanced.granted (L := L) (s := s) (by rw [hgot]) [last.loan]
            rw [hgot] at htake
            simp only [harray, if_true]
            simp only [Container.arrayOf]
            have htaken : values.take last.cardinality = values := by rw [hcard, List.take_length]
            rw [htaken]
            refine Or.inl
              ⟨trivial, hnew block _ (by rw [Nat.pow_succ]; omega), trivial, rfl, trivial,
              htake.trans ?_⟩
            exact (Balanced.of_perm _ (List.Perm.swap _ _ _)).trans (Balanced.returned _ _ _ _)
      · rw [if_neg hcap]
        simp only [harray, if_true]
        exact Or.inl ⟨trivial, hnew last.data _ (by omega), trivial, rfl, trivial,
          Balanced.refl _ _⟩

/-! ## A set with containers -/

/-- The last container of a set is replaced by one with another value behind its own. -/
theorem Bitmap.replaceLast (set' : Bitmap) {set : Bitmap} {front : List Container}
    {last last' : Container}
    {low : Nat} (hv : set.Valid) (hc : set.containers = front ++ [last]) (hlast : last'.Valid)
    (hkey : last'.key = last.key) (hlows : last'.lows = last.lows ++ [low])
    (hcount : last'.cardinality = last.cardinality + 1)
    (hc' : set'.containers = front ++ [last']) (hblock : set'.block = set.block)
    (hdir : set'.directoryLog2 = set.directoryLog2) (hcard : set'.cardinality = set.cardinality + 1)
    (hlt : set.cardinality + 1 < 2 ^ 32) (hmax : set'.maximum = valueOf last.key low) :
    set'.WellFormed ∧ set'.members = set.members ++ [valueOf last.key low] := by
  have hne : set.containers ≠ [] := by
    rw [hc]
    simp
  have hne' : set'.containers ≠ [] := by
    rw [hc']
    simp
  have hf := hv.containerForm fun hs => hne (isSparse_iff.mp hs)
  have hkeys : set'.keys = set.keys := by simp [keys, hc, hc', hkey]
  have hm : set'.members = set.members ++ [valueOf last.key low] := by
    rw [members_containers hne', members_containers hne, hc, hc']
    simp [hkey, hlows]
  -- the fields of the new set, each from the one it was made of
  refine ⟨⟨⟨Or.inr ⟨hne', ?_, ?_, ?_, ?_, ?_, ?_⟩, ?_⟩, ?_⟩, hm⟩
  · rw [hkeys]
    exact hf.sorted
  · intro c hcm
    rw [hc'] at hcm
    rcases List.mem_append.mp hcm with hcm | hcm
    · exact hf.valid c (by rw [hc]; exact List.mem_append_left _ hcm)
    · rw [List.mem_singleton.mp hcm]
      exact hlast
  · rw [hcard, hf.cardinality_eq, hc, hc']
    simp [hcount]
    omega
  · omega
  · rw [hblock]
    exact hf.block_ne
  · have hcountEq : set'.count = set.count := by simp [count, hc, hc']
    rw [hcountEq, hdir]
    exact hf.in_block
  · intro u hu
    rw [hm] at hu
    simpa [hmax] using hu
  · intro hnil
    rw [hm] at hnil
    simp at hnil

/-- The value is behind the others once the count and the maximum are written, or nothing has
changed. -/
def Appends (L : BlockPool σ) (set : Bitmap) (v : Nat) (s : σ) (r : Built σ) : Prop :=
  (r.result = .success ∧
    Bitmap.WellFormed { r.set with cardinality := r.set.cardinality + 1, maximum := v } ∧
    Bitmap.members { r.set with cardinality := r.set.cardinality + 1, maximum := v } =
      set.members ++ [v] ∧
    Balanced L s set.loans r.pool r.set.loans) ∨
  (r.result.isError = true ∧ r.set = set ∧ ¬ L.Grants ∧
    Balanced L s set.loans r.pool set.loans)

/-- A value of a key that has no container gets one of its own. -/
theorem appendContainer_appends {set : Bitmap} {v : Nat} (h : set.Under (keyOf v))
    (hlt : v < 2 ^ 32) (hroom : set.cardinality < uint32Max) :
    Appends L set v s (appendContainer L set (keyOf v) (lowOf v) s) := by
  have hback : valueOf (keyOf v) (lowOf v) = v := valueOf_keyOf_lowOf v
  simp only [uint32Max] at hroom
  unfold appendContainer
  rcases hgot : L.alloc arrayLog2First s with ⟨answer, s'⟩
  cases answer with
  | error refusal =>
      have hbal := Balanced.refused (L := L) (s := s) (by rw [hgot]) set.loans
      rw [hgot] at hbal
      exact Or.inr ⟨refusal.isError, rfl, fun hg => absurd (by rw [hgot]) hg.ne_error, hbal⟩
  | ok data =>
      have htake := Balanced.granted (L := L) (s := s) (by rw [hgot]) set.loans
      rw [hgot] at htake
      simp only
      have hvalid : Container.Valid ⟨data, .array [lowOf v], 1, keyOf v, arrayLog2First⟩ := by
        refine ⟨?_, ⟨List.pairwise_singleton _ _, ?_, ?_, ?_⟩, rfl, Nat.one_pos⟩
        · show keyOf v < 65536
          rw [keyOf_eq]
          omega
        · intro u hu
          rw [List.mem_singleton.mp hu]
          exact lowOf_lt v
        · simp [arrayMax]
        · simp [arrayLog2First]
      have hcases := pushContainer_cases (L := L) (s := s')
        (c := ⟨data, .array [lowOf v], 1, keyOf v, arrayLog2First⟩) h.valid.anchored h.valid.fits
        h.dir
      generalize pushContainer L set _ s' = pushed at hcases ⊢
      rcases hcases with ⟨hok, hp, hbal⟩ | ⟨herr, hset, hrefused, hbal⟩
      · rw [if_pos hok]
        obtain ⟨hunder, hm⟩ := h.append
          { pushed.set with cardinality := pushed.set.cardinality + 1, maximum := v } (lowOf v)
          hvalid le_rfl hp.containers hp.block_ne hp.fits (by simp [hp.cardinality])
          (by simp only; omega) hback.symm rfl
        refine Or.inl ⟨hok, hunder.wellFormed, ?_, htake.trans hbal⟩
        rw [hm]
        simp [Container.lows, hback]
      · rw [if_neg (Result.ne_success_of_isError herr)]
        exact Or.inr
          ⟨herr, hset, hrefused, (htake.trans (hbal _)).trans (Balanced.returned _ _ _ _)⟩

/-- A value of the last container's key goes there. -/
theorem appendLow_appends {set : Bitmap} {v : Nat} {front : List Container} {last : Container}
    (hv : set.Valid) (hsplit : front ++ [last] = set.containers) (hkey : last.key = keyOf v)
    (hlow : ∀ l ∈ last.lows, l < lowOf v) (hroom : set.cardinality < uint32Max) :
    let grown := appendLow L last (lowOf v) s
    Appends L set v s
      ⟨grown.result, { set with containers := front ++ [grown.last] }, grown.pool⟩ := by
  have hback : valueOf (keyOf v) (lowOf v) = v := valueOf_keyOf_lowOf v
  have hne : set.containers ≠ [] := by
    rw [← hsplit]
    simp
  have hf := hv.containerForm fun hs => hne (Bitmap.isSparse_iff.mp hs)
  have hlast : last.Valid := hf.valid last (by rw [← hsplit]; simp)
  simp only [uint32Max] at hroom
  have hcases := appendLow_cases (L := L) (s := s) hlast (lowOf_lt v) hlow
  intro grown
  change grown.result = .success ∧ _ ∨ _ at hcases
  -- the loan of the last container is exchanged, those of the others stay
  have hloans : ∀ c : Container, (Bitmap.loans { set with containers := front ++ [c] }).Perm
      ([c.loan] ++ (set.blockLoan ++ front.map Container.loan)) := fun c => by
    simp only [Bitmap.loans, Bitmap.blockLoan, List.map_append, List.map_cons, List.map_nil]
    rw [← List.append_assoc]
    exact List.perm_append_comm
  have hold : set.loans.Perm ([last.loan] ++ (set.blockLoan ++ front.map Container.loan)) := by
    have := hloans last
    rwa [hsplit] at this
  rcases hcases with ⟨hok, hvalid, hk, hlows, hcount, hbal⟩ | ⟨herr, hsame, hrefused, hbal⟩
  · obtain ⟨hwell, hm⟩ := Bitmap.replaceLast
      { set with
        containers := front ++ [grown.last]
        cardinality := set.cardinality + 1
        maximum := v }
      hv hsplit.symm hvalid hk hlows hcount rfl rfl rfl rfl (by omega) (by rw [hkey, hback])
    rw [hkey, hback] at hm
    refine Or.inl ⟨hok, hwell, hm, ?_⟩
    exact ((Balanced.of_perm s hold).trans (hbal.frame _)).trans
      (Balanced.of_perm _ (hloans grown.last).symm)
  · have hset : { set with containers := front ++ [grown.last] } = set := by
      rw [show grown.last = last from hsame, hsplit]
    exact Or.inr ⟨herr, hset, hrefused,
      ((Balanced.of_perm s hold).trans (hbal.frame _)).trans (Balanced.of_perm _ hold.symm)⟩

/-- A later value goes to the last container or to a new one behind it. -/
theorem appendValue_appends {set : Bitmap} {v : Nat} (hv : set.Valid) (hne : set.containers ≠ [])
    (hlt : v < 2 ^ 32) (habove : ∀ m ∈ set.members, m < v) (hroom : set.cardinality < uint32Max) :
    Appends L set v s (appendValue L set v s) := by
  have hf := hv.containerForm fun hs => hne (Bitmap.isSparse_iff.mp hs)
  have hsplit := List.dropLast_append_getLast hne
  have hlast : (set.containers.getLast hne).Valid := hf.valid _ (List.getLast_mem hne)
  have hmem : ∀ l ∈ (set.containers.getLast hne).lows,
      valueOf (set.containers.getLast hne).key l ∈ set.members := fun l hl => by
    rw [Bitmap.members_containers hne]
    exact List.mem_flatMap.mpr ⟨_, List.getLast_mem hne, List.mem_map_of_mem hl⟩
  unfold appendValue
  rw [List.getLast?_eq_some_getLast hne]
  simp only
  generalize set.containers.getLast hne = last at hsplit hlast hmem ⊢
  by_cases hkey : last.key = keyOf v
  · rw [if_pos hkey]
    apply appendLow_appends hv hsplit hkey _ hroom
    intro l hl
    have hbelow := habove _ (hmem l hl)
    rw [← valueOf_keyOf_lowOf v, hkey, valueOf_eq _ (hlast.readable.lt_of_mem hl),
      valueOf_eq _ (lowOf_lt v)] at hbelow
    omega
  · rw [if_neg hkey]
    -- the value lies above all members, so its key lies above the last container's
    have hbelow : last.key < keyOf v := by
      obtain ⟨l, hl⟩ := List.exists_mem_of_ne_nil _ hlast.readable.lows_ne_nil
      have := habove _ (hmem l hl)
      rw [valueOf_eq _ (hlast.readable.lt_of_mem hl)] at this
      rw [keyOf_eq] at hkey ⊢
      omega
    refine appendContainer_appends ⟨hv, fun hn => absurd hn hne, fun k hk => ?_⟩ hlt hroom
    have hs := hf.sorted
    rw [Bitmap.keys, ← hsplit, List.map_append] at hs hk
    rcases List.mem_append.mp hk with hk | hk
    · have := (List.pairwise_append.mp hs).2.2 k hk last.key (by simp)
      omega
    · rw [List.map_singleton, List.mem_singleton] at hk
      omega

theorem addToContainers_cases {set : Bitmap} {v : Nat} (hv : set.Valid) (hne : set.containers ≠ [])
    (hlt : v < 2 ^ 32) (habove : ∀ m ∈ set.members, m < v) (hroom : set.cardinality < uint32Max) :
    let r := addToContainers L set v s
    (r.result = .success ∧ r.set.WellFormed ∧ r.set.members = set.members ++ [v] ∧
      Balanced L s set.loans r.pool r.set.loans) ∨
    (r.result.isError = true ∧ r.set = set ∧ ¬ L.Grants ∧
      Balanced L s set.loans r.pool set.loans) := by
  unfold addToContainers
  rcases appendValue_appends (L := L) (s := s) hv hne hlt habove hroom with
    ⟨hok, hwell, hmembers, hbal⟩ | ⟨herr, hrest⟩
  · simp only [if_pos hok]
    exact Or.inl ⟨hok, hwell, hmembers, hbal⟩
  · simp only [if_neg (Result.ne_success_of_isError herr)]
    exact Or.inr ⟨herr, hrest⟩

/-! ## One value -/

/-- The value is one the set can take: above its maximum, and not one too many to count. -/
def Bitmap.Takes (set : Bitmap) (v : Nat) : Prop :=
  (∀ m ∈ set.members, m < v) ∧ set.members.length < uint32Max

/-- Values at or below the maximum, and any value once the count is full, are answered without a
change. -/
theorem add_not_takes {set : Bitmap} {v : Nat} (hv : set.Valid) (h : ¬ set.Takes v) :
    add L set v s = ⟨if v ∈ set.members ∧ v = set.maximum then .success
      else if v < set.maximum then .errorInvalidParam else .errorResourceExhausted, set, s⟩ := by
  have hcard := hv.cardinality_eq
  have hne : set.members ≠ [] := fun hn => h ⟨by simp [hn], by simp [hn, uint32Max]⟩
  have hpos : set.cardinality ≠ 0 := by
    rw [hcard]
    exact fun h0 => hne (List.length_eq_zero_iff.mp h0)
  have hmax := List.mem_of_getLast? (hv.maximum_of_ne hne)
  unfold add
  rcases Nat.lt_trichotomy v set.maximum with hlt | rfl | hgt
  · rw [if_pos ⟨hpos, hlt⟩, if_neg (fun hc => by omega), if_pos hlt]
  · rw [if_neg (fun hc => by omega), if_pos ⟨hpos, rfl⟩, if_pos ⟨hmax, rfl⟩]
  · have hall : ∀ m ∈ set.members, m < v := fun m hm => Nat.lt_of_le_of_lt (hv.le_maximum hm).1 hgt
    have hfull : set.cardinality = uint32Max := by
      have hlt := hv.cardinality_lt
      rw [hcard] at hlt ⊢
      have hnot : ¬ set.members.length < uint32Max := fun hl => h ⟨hall, hl⟩
      simp only [uint32Max] at hnot ⊢
      omega
    rw [if_neg (fun hc => by omega), if_neg (fun hc => by omega), if_pos hfull,
      if_neg (fun hc => by omega), if_neg (by omega)]

/-- A value the set can take is appended, or the pool refused. A refusal leaves the values; it
leaves the whole set unless this call has already turned it into containers. -/
theorem add_takes {set : Bitmap} {v : Nat} (hv : set.WellFormed) (hlt : v < 2 ^ 32)
    (h : set.Takes v) :
    let r := add L set v s
    (r.result = .success ∧ r.set.WellFormed ∧ r.set.members = set.members ++ [v] ∧
      Balanced L s set.loans r.pool r.set.loans) ∨
    (r.result.isError = true ∧ r.set.WellFormed ∧ r.set.members = set.members ∧ ¬ L.Grants ∧
      Balanced L s set.loans r.pool r.set.loans ∧
      (r.set = set ∨
        (set.isSparse = true ∧ sparseMax ≤ set.members.length ∧ r.set.containers ≠ []))) := by
  obtain ⟨habove, hroom⟩ := h
  have hcard := hv.valid.cardinality_eq
  -- a value above all of the set is neither below its maximum nor equal to it
  have hmaximum : set.cardinality ≠ 0 → set.maximum < v := fun h0 =>
    habove _ (List.mem_of_getLast? (hv.valid.maximum_of_ne fun hn => h0 (by rw [hcard, hn]; rfl)))
  unfold add
  rw [if_neg (fun hc => absurd (hmaximum hc.1) (by omega)),
    if_neg (fun hc => absurd (hmaximum hc.1) (by omega)), if_neg (by omega)]
  by_cases hs : set.isSparse = true
  · rw [if_pos hs]
    by_cases hsmall : set.cardinality < sparseMax
    · rw [if_pos hsmall]
      rcases sparseAdd_cases (L := L) (s := s) hv hs hsmall hlt habove with
        h | ⟨herr, hset, hrefused, hbal⟩
      · exact Or.inl h
      · exact Or.inr ⟨herr, by rw [hset]; exact hv, by rw [hset],
          hrefused, by rw [hset]; exact hbal, Or.inl hset⟩
    · rw [if_neg hsmall]
      have hchanged := sparseToContainers_cases (L := L) (s := s) hv.valid hs
      simp only
      generalize sparseToContainers L set s = changed at hchanged ⊢
      rcases hchanged with ⟨hok, ⟨k, hunder⟩, hmem, hbal⟩ | ⟨herr, hset, hrefused, hbal⟩
      · rw [if_pos hok]
        have hlong : sparseMax ≤ set.members.length := by omega
        -- what is full has values, so there are containers to add to
        have hne : changed.set.containers ≠ [] := fun hn => by
          have := hunder.members_nil hn
          rw [hmem] at this
          rw [this] at hlong
          simp [sparseMax] at hlong
        have hcard' : changed.set.cardinality < uint32Max := by
          rw [hunder.valid.cardinality_eq, hmem]
          exact hroom
        rcases addToContainers_cases (L := L) (s := changed.pool) hunder.valid hne hlt
            (by rwa [hmem]) hcard' with ⟨hok', hwell, hm, hbal'⟩ | ⟨herr', hset, hrefused, hbal'⟩
        · exact Or.inl ⟨hok', hwell, by rw [hm, hmem], hbal.trans hbal'⟩
        · refine Or.inr ⟨herr', by rw [hset]; exact hunder.wellFormed, by rw [hset, hmem], hrefused,
            by rw [hset]; exact hbal.trans hbal', Or.inr ⟨hs, hlong, by rw [hset]; exact hne⟩⟩
      · rw [if_neg (Result.ne_success_of_isError herr)]
        exact Or.inr ⟨herr, by rw [hset]; exact hv, by rw [hset],
          hrefused, by rw [hset]; exact hbal, Or.inl hset⟩
  · rw [if_neg hs]
    have hne : set.containers ≠ [] := fun hn => hs (Bitmap.isSparse_iff.mpr hn)
    rcases addToContainers_cases (L := L) (s := s) hv.valid hne hlt habove
        (by rw [hcard]; exact hroom) with h | ⟨herr, hset, hrefused, hbal⟩
    · exact Or.inl h
    · exact Or.inr ⟨herr, by rw [hset]; exact hv, by rw [hset], hrefused, by rw [hset]; exact hbal,
        Or.inl hset⟩

/-- Whatever is added and whatever the pool refuses, the set stays well formed and its blocks are
accounted for. -/
theorem add_wellFormed {set : Bitmap} {v : Nat} (hv : set.WellFormed) (hlt : v < 2 ^ 32) :
    (add L set v s).set.WellFormed ∧
      Balanced L s set.loans (add L set v s).pool (add L set v s).set.loans := by
  by_cases h : set.Takes v
  · rcases add_takes (L := L) (s := s) hv hlt h with ⟨-, hwell, -, hbal⟩ | ⟨-, hwell, -, -, hbal, -⟩
    · exact ⟨hwell, hbal⟩
    · exact ⟨hwell, hbal⟩
  · rw [add_not_takes hv.valid h]
    exact ⟨hv, Balanced.refl s _⟩

end Arnm.Roaring
