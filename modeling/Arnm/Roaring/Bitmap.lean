import Arnm.Roaring.Container

set_option autoImplicit false

/-! # A roaring set

The layout of `arnm_roaring_bitmap` with its two forms: a directory of containers sorted by key,
or -- sparse -- one sorted array of values. `Valid` is the representation invariant; `members`
lists the values a set holds, and `partAt` is what a reader finds of one key.
-/

namespace Arnm.Roaring

open Listing Words

/-- A set. `block` is the pointer the directory and the sparse values share, `none` for NULL; the
number of containers, `count`, tells the forms apart. -/
structure Bitmap where
  block : Option Nat
  containers : List Container
  values : List Nat
  cardinality : Nat
  maximum : Nat
  directoryLog2 : Nat

namespace Bitmap

def count (set : Bitmap) : Nat := set.containers.length

/-- `arnm_roaring_init`: a zeroed set. -/
def init : Bitmap := ⟨none, [], [], 0, 0, 0⟩

/-- No containers: one sorted array of values, or nothing at all. -/
def isSparse (set : Bitmap) : Bool := set.count = 0

theorem isSparse_iff {set : Bitmap} : set.isSparse = true ↔ set.containers = [] := by
  rw [isSparse, decide_eq_true_eq, count, List.length_eq_zero_iff]

def keys (set : Bitmap) : List Nat := set.containers.map Container.key

/-- First container whose key is not below `key`. -/
def firstContainer (set : Bitmap) (key : Nat) : Nat := lowerBound set.keys set.count key

/-- First container whose key is above `key`. -/
def containerAfter (set : Bitmap) (key : Nat) : Nat := upperBound set.keys set.count key

end Bitmap

/-- The part of `[min, max]` that falls into the container of `key`, as low parts. -/
def containerBounds (key min max : Nat) : Nat × Nat :=
  (if key = keyOf min then lowOf min else 0, if key = keyOf max then lowOf max else 0xffff)

/-- The bounds cut a key's low parts where the range cuts its values. -/
theorem containerBounds_iff {key low : Nat} (min max : Nat) (hl : low < 65536)
    (hmin : keyOf min ≤ key) (hmax : key ≤ keyOf max) :
    (containerBounds key min max).1 ≤ low ∧ low ≤ (containerBounds key min max).2
      ↔ min ≤ valueOf key low ∧ valueOf key low ≤ max := by
  rw [valueOf_eq key hl]
  rw [keyOf_eq] at hmin hmax
  simp only [containerBounds, keyOf_eq, lowOf_eq]
  split <;> split <;> omega

theorem containerBounds_le (key : Nat) {min max : Nat} (hle : min ≤ max) :
    (containerBounds key min max).1 ≤ (containerBounds key min max).2 := by
  simp only [containerBounds, keyOf_eq, lowOf_eq]
  split <;> split <;> omega

theorem containerBounds_lt {key min max : Nat} : (containerBounds key min max).2 < 65536 := by
  simp only [containerBounds]
  split
  · exact lowOf_lt max
  · omega

/-! ## The invariant -/

/-- A stored container: an array of at most `arrayMax` ascending low parts inside its block, or a
bitmap of more bits than that in a block of 8 KiB; the stored count is the content's. -/
structure Container.Valid (c : Container) : Prop where
  key_lt : c.key < 65536
  content : match c.content with
    | .array values => values.Pairwise (· < ·) ∧ (∀ v ∈ values, v < 65536) ∧
        values.length ≤ arrayMax ∧ 2 * values.length ≤ 2 ^ c.blockLog2
    | .bitmap words => arrayMax < (below 65536 (Has words)).length ∧ c.blockLog2 = 13
    | .wide _ => False
  cardinality_eq : c.cardinality = c.lows.length
  pos : 0 < c.cardinality

theorem Container.Valid.readable {c : Container} (h : c.Valid) : c.Readable := by
  refine ⟨h.key_lt, ?_, h.cardinality_eq, h.pos⟩
  have hc := h.content
  cases hk : c.content with
  | array values => rw [hk] at hc; exact ⟨hc.1, hc.2.1⟩
  | bitmap words => trivial
  | wide values => rw [hk] at hc; exact hc.elim

namespace Bitmap

/-- The values of a set, ascending. -/
def members (set : Bitmap) : List Nat :=
  if set.isSparse then set.values
  else set.containers.flatMap (fun c => c.lows.map (valueOf c.key))

/-- The sparse form: ascending values, at most `sparseMax`, inside their block. -/
structure SparseForm (set : Bitmap) : Prop where
  containers_eq : set.containers = []
  sorted : set.values.Pairwise (· < ·)
  lt : ∀ v ∈ set.values, v < 2 ^ 32
  length_le : set.values.length ≤ sparseMax
  cardinality_eq : set.cardinality = set.values.length
  block_none : set.block = none → set.values = []
  in_block : set.block ≠ none → 4 * set.values.length ≤ 2 ^ set.directoryLog2

/-- The form with containers: ascending keys, every container valid, the counts summing up, the
directory inside its block. -/
structure ContainerForm (set : Bitmap) : Prop where
  containers_ne : set.containers ≠ []
  sorted : set.keys.Pairwise (· < ·)
  valid : ∀ c ∈ set.containers, c.Valid
  cardinality_eq : set.cardinality = (set.containers.map Container.cardinality).sum
  cardinality_lt : set.cardinality < 2 ^ 32
  block_ne : set.block ≠ none
  in_block : 16 * set.count ≤ 2 ^ set.directoryLog2

/-- The representation invariant of a set. -/
structure Valid (set : Bitmap) : Prop where
  form : set.SparseForm ∨ set.ContainerForm
  maximum_eq : ∀ v ∈ set.members.getLast?, set.maximum = v

variable {set : Bitmap}

theorem members_sparse (h : set.containers = []) : set.members = set.values := by
  rw [members, if_pos (isSparse_iff.mpr h)]

theorem members_containers (h : set.containers ≠ []) :
    set.members = set.containers.flatMap (fun c => c.lows.map (valueOf c.key)) := by
  rw [members, if_neg (fun hc => h (isSparse_iff.mp hc))]

theorem valid_init : init.Valid := by
  refine ⟨Or.inl ⟨rfl, List.Pairwise.nil, ?_, Nat.zero_le _, rfl, fun _ => rfl, ?_⟩, ?_⟩
  · intro v hv; cases hv
  · intro h; exact absurd rfl h
  · intro v hv; cases hv

/-- The set of one value, in a first block of 16 bytes. -/
theorem valid_single {v : Nat} (hv : v < 2 ^ 32) (block : Nat) :
    (Bitmap.mk (some block) [] [v] 1 v 4).Valid := by
  refine ⟨Or.inl ⟨rfl, by simp, ?_, by simp [sparseMax], rfl, by simp, by simp⟩, ?_⟩
  · intro w hw
    rwa [List.mem_singleton.mp hw]
  · intro w hw
    simpa [members, isSparse, count] using hw

/-- A set of both kinds of containers: a bitmap whose first 80 words are full, and an array of two
values of a later key. -/
def mixed : Bitmap :=
  ⟨some 4096, [⟨8192, .bitmap fun w => if w < 80 then BitVec.allOnes 64 else 0#64, 5120, 0, 13⟩,
    ⟨16384, .array [1, 7], 2, 2, 4⟩], [], 5122, 131079, 5⟩

/-- The values of its bitmap. -/
theorem below_mixed :
    below 65536 (Has fun w => if w < 80 then BitVec.allOnes 64 else 0#64) = List.range 5120 := by
  apply eq_of_mem_iff_lt (pairwise_below _ _) List.pairwise_lt_range
  intro a
  rw [mem_below, List.mem_range, Has]
  by_cases hw : a / 64 < 80
  · rw [if_pos hw, BitVec.getLsbD_allOnes, decide_eq_true_eq]
    omega
  · rw [if_neg hw, BitVec.getLsbD_zero]
    refine iff_of_false (fun h => absurd h.2 (by decide)) ?_
    omega

theorem members_mixed : mixed.members = List.range 5120 ++ [131073, 131079] := by
  rw [members_containers (by simp [mixed])]
  have hfront : (List.range 5120).map (valueOf 0) = List.range 5120 := by
    rw [List.map_congr_left (g := id), List.map_id]
    intro v hv
    rw [List.mem_range] at hv
    rw [valueOf_eq 0 (by omega), Nat.zero_mul, Nat.zero_add, id]
  have hback : [1, 7].map (valueOf 2) = [131073, 131079] := by decide
  simp only [mixed, List.flatMap_cons, List.flatMap_nil, List.append_nil, Container.lows,
    below_mixed]
  rw [hfront, hback]

theorem valid_mixed : mixed.Valid := by
  refine ⟨Or.inr ⟨by simp [mixed], by decide, ?_, by decide, by decide, by simp [mixed],
    by decide⟩, ?_⟩
  · intro c hc
    simp only [mixed, List.mem_cons, List.not_mem_nil, or_false] at hc
    rcases hc with rfl | rfl
    · refine ⟨by decide, ⟨?_, rfl⟩, ?_, by decide⟩
      · rw [below_mixed, List.length_range]
        decide
      · simp only [Container.lows, below_mixed, List.length_range]
    · exact ⟨by decide, by decide, by decide, by decide⟩
  · intro v hv
    rw [members_mixed] at hv
    simpa [mixed] using hv

/-! ## What a reader finds of one key -/

/-- The view of a sparse set's values of one key: in place as 32 bit values, or with their low
parts copied into a buffer. -/
def view (buffered : Bool) (key : Nat) (values : List Nat) : Container where
  data := 0
  content := if buffered then .array (values.map lowOf) else .wide values
  cardinality := values.length
  key := key
  blockLog2 := 0

/-- The container, or the view, of the set's values with this key. -/
def partAt (set : Bitmap) (buffered : Bool) (key : Nat) : Option Container :=
  if set.isSparse then
    let values := set.values.filter (fun v => decide (keyOf v = key))
    if values = [] then none else some (view buffered key values)
  else set.containers.find? (fun c => decide (c.key = key))

theorem lows_view (b : Bool) (key : Nat) (values : List Nat) :
    (view b key values).lows = values.map lowOf := by
  cases b <;> rfl

theorem readable_view (b : Bool) {key : Nat} {values : List Nat} (hk : key < 65536)
    (hs : values.Pairwise (· < ·)) (hv : ∀ v ∈ values, keyOf v = key) (hne : values ≠ []) :
    (view b key values).Readable := by
  refine ⟨hk, ?_, ?_, List.length_pos_iff.mpr hne⟩
  · cases b with
    | false => exact ⟨hs, hv⟩
    | true =>
        refine ⟨List.pairwise_map.mpr (hs.imp_of_mem (fun {a b} ha hb hab => ?_)), ?_⟩
        · have h1 := hv a ha
          have h2 := hv b hb
          rw [keyOf_eq] at h1 h2
          rw [lowOf_eq, lowOf_eq]
          omega
        · intro v hm
          obtain ⟨w, -, rfl⟩ := List.mem_map.mp hm
          exact lowOf_lt w
  · rw [lows_view, List.length_map]
    rfl

theorem partAt_key {b : Bool} {key : Nat} {c : Container} (h : set.partAt b key = some c) :
    c.key = key := by
  unfold partAt at h
  split at h
  · simp only at h
    split at h
    · cases h
    · cases h; rfl
  · simpa using List.find?_some h

/-- A part of a valid set can be read. -/
theorem Valid.readable_partAt (hv : set.Valid) {b : Bool} {key : Nat} {c : Container}
    (h : set.partAt b key = some c) : c.Readable := by
  rcases hv.form with hf | hf
  · have hs : set.isSparse = true := isSparse_iff.mpr hf.containers_eq
    rw [partAt, if_pos hs] at h
    simp only at h
    split at h
    · cases h
    · rename_i hne
      cases h
      have hmem : ∀ v ∈ set.values.filter (fun v => decide (keyOf v = key)), keyOf v = key := by
        intro v hm
        simpa using (List.mem_filter.mp hm).2
      refine readable_view b ?_ (hf.sorted.filter _) hmem hne
      obtain ⟨v, hm⟩ := List.exists_mem_of_ne_nil _ hne
      have h1 := hmem v hm
      have h2 := hf.lt v (List.mem_filter.mp hm).1
      rw [keyOf_eq] at h1
      omega
  · have hs : ¬ set.isSparse = true := fun hc => hf.containers_ne (isSparse_iff.mp hc)
    rw [partAt, if_neg hs] at h
    exact (hf.valid c (List.mem_of_find?_eq_some h)).readable

/-- A valid set holds a value exactly if the part of its key holds the low part. -/
theorem Valid.mem_members_iff (hv : set.Valid) (b : Bool) {key low : Nat} (hl : low < 65536) :
    valueOf key low ∈ set.members ↔ ∃ c, set.partAt b key = some c ∧ low ∈ c.lows := by
  -- a sparse set has a view of each key, the others have the container itself
  rcases hv.form with hf | hf
  · have hs : set.isSparse = true := isSparse_iff.mpr hf.containers_eq
    rw [members_sparse hf.containers_eq, partAt, if_pos hs]
    simp only
    constructor
    · intro hm
      have hf : valueOf key low ∈ set.values.filter (fun v => decide (keyOf v = key)) := by
        rw [List.mem_filter]
        exact ⟨hm, by simp [keyOf_valueOf key hl]⟩
      rw [if_neg (List.ne_nil_of_mem hf)]
      refine ⟨_, rfl, ?_⟩
      rw [lows_view]
      exact List.mem_map.mpr ⟨_, hf, lowOf_valueOf key hl⟩
    · rintro ⟨c, hc, hm⟩
      split at hc
      · cases hc
      · cases hc
        rw [lows_view] at hm
        obtain ⟨v, hv, rfl⟩ := List.mem_map.mp hm
        obtain ⟨hv, hk⟩ := List.mem_filter.mp hv
        rw [decide_eq_true_eq] at hk
        rwa [← hk, valueOf_keyOf_lowOf]
  · have hs : ¬ set.isSparse = true := fun hc => hf.containers_ne (isSparse_iff.mp hc)
    rw [members_containers hf.containers_ne, partAt, if_neg hs]
    constructor
    · intro hm
      obtain ⟨c, hc, hm⟩ := List.mem_flatMap.mp hm
      obtain ⟨l, hlc, he⟩ := List.mem_map.mp hm
      have hl' := (hf.valid c hc).readable.lt_of_mem hlc
      have hk : c.key = key := by
        rw [← keyOf_valueOf c.key hl', he, keyOf_valueOf key hl]
      have hll : l = low := by
        rw [← lowOf_valueOf c.key hl', he, lowOf_valueOf key hl]
      subst hll
      refine ⟨c, ?_, hlc⟩
      obtain ⟨i, hi, rfl⟩ := List.mem_iff_getElem.mp hc
      rw [List.find?_eq_some_iff_getElem]
      refine ⟨by simpa using hk, i, hi, rfl, fun j hj => ?_⟩
      have hlt := List.pairwise_iff_getElem.mp hf.sorted j i (by simp [keys]; omega)
        (by simpa [keys] using hi) hj
      simp only [keys, List.getElem_map] at hlt
      simp only [Bool.not_eq_true', decide_eq_false_iff_not]
      omega
    · rintro ⟨c, hc, hm⟩
      have hk : c.key = key := by simpa using List.find?_some hc
      exact List.mem_flatMap.mpr
        ⟨c, List.mem_of_find?_eq_some hc, List.mem_map.mpr ⟨low, hm, by rw [hk]⟩⟩

/-! ## The members are sorted -/

theorem Valid.pairwise_members (hv : set.Valid) : set.members.Pairwise (· < ·) := by
  rcases hv.form with hf | hf
  · rw [members_sparse hf.containers_eq]
    exact hf.sorted
  · rw [members_containers hf.containers_ne, List.pairwise_flatMap]
    refine ⟨fun c hc => ?_, ?_⟩
    · have hr := (hf.valid c hc).readable
      refine List.pairwise_map.mpr (hr.pairwise_lows.imp_of_mem (fun {a b} ha hb hab => ?_))
      rw [valueOf_eq _ (hr.lt_of_mem ha), valueOf_eq _ (hr.lt_of_mem hb)]
      omega
    · have hs := hf.sorted
      rw [keys, List.pairwise_map] at hs
      refine hs.imp_of_mem (fun {c c'} hc hc' hk x hx y hy => ?_)
      obtain ⟨a, ha, rfl⟩ := List.mem_map.mp hx
      obtain ⟨b, hb, rfl⟩ := List.mem_map.mp hy
      have h1 := (hf.valid c hc).readable.lt_of_mem ha
      rw [valueOf_eq _ h1, valueOf_eq _ ((hf.valid c' hc').readable.lt_of_mem hb)]
      omega

theorem Valid.lt_of_mem (hv : set.Valid) {v : Nat} (h : v ∈ set.members) : v < 2 ^ 32 := by
  rcases hv.form with hf | hf
  · rw [members_sparse hf.containers_eq] at h
    exact hf.lt v h
  · rw [members_containers hf.containers_ne] at h
    obtain ⟨c, hc, hm⟩ := List.mem_flatMap.mp h
    obtain ⟨a, ha, rfl⟩ := List.mem_map.mp hm
    have h1 := (hf.valid c hc).readable.lt_of_mem ha
    have h2 := (hf.valid c hc).key_lt
    rw [valueOf_eq _ h1]
    omega

/-- The stored maximum is the largest member. -/
theorem Valid.le_maximum (hv : set.Valid) {v : Nat} (h : v ∈ set.members) :
    v ≤ set.maximum ∧ set.maximum ∈ set.members := by
  have hne := List.ne_nil_of_mem h
  have hlast := List.getLast?_eq_some_getLast hne
  have hm := hv.maximum_eq _ (Option.mem_def.mpr hlast)
  rw [hm]
  refine ⟨?_, List.getLast_mem hne⟩
  have hp := hv.pairwise_members
  rw [← List.dropLast_append_getLast hne] at hp h
  rcases List.mem_append.mp h with h | h
  · exact ((List.pairwise_append.mp hp).2.2 v h _ (by simp)).le
  · rw [List.mem_singleton] at h
    exact h.le

/-- No container's key is above that of the last one. -/
theorem ContainerForm.key_le_last (hf : set.ContainerForm) {c c' : Container}
    (hlast : set.containers[set.count - 1]? = some c) (hc' : c' ∈ set.containers) :
    c'.key ≤ c.key := by
  obtain ⟨hlt, rfl⟩ := List.getElem?_eq_some_iff.mp hlast
  obtain ⟨n, hn, rfl⟩ := List.mem_iff_getElem.mp hc'
  have hsorted := hf.sorted
  rw [keys, List.pairwise_map] at hsorted
  have hle : n ≤ set.count - 1 := by
    rw [count]
    omega
  rcases Nat.eq_or_lt_of_le hle with rfl | hbefore
  · exact Nat.le_refl _
  · exact (List.pairwise_iff_getElem.mp hsorted n _ hn hlt hbefore).le

/-- The maximum of a set bounds the low parts of its last container. -/
theorem Valid.low_le_maximum (hv : set.Valid) (hne : set.containers ≠ []) {c : Container}
    (hlast : set.containers[set.count - 1]? = some c) {i : Nat} (hi : i ∈ c.lows) :
    i ≤ lowOf set.maximum := by
  have hform : set.ContainerForm := hv.form.resolve_left fun hf => hne hf.containers_eq
  have hc : c ∈ set.containers := List.mem_of_getElem? hlast
  have hlt := (hform.valid c hc).readable.lt_of_mem hi
  have hmem : valueOf c.key i ∈ set.members := by
    rw [members_containers hne]
    exact List.mem_flatMap.mpr ⟨c, hc, List.mem_map_of_mem hi⟩
  obtain ⟨hle, hmax⟩ := hv.le_maximum hmem
  -- the maximum lies in some container, whose key is not above the last one's
  rw [members_containers hne] at hmax
  obtain ⟨c', hc', hin⟩ := List.mem_flatMap.mp hmax
  obtain ⟨j, hj, hmaximum⟩ := List.mem_map.mp hin
  have hjlt := (hform.valid c' hc').readable.lt_of_mem hj
  have hkey := hform.key_le_last hlast hc'
  rw [← hmaximum, valueOf_eq _ hlt, valueOf_eq _ hjlt] at hle
  rw [← hmaximum, lowOf_valueOf _ hjlt]
  omega

end Bitmap

/-! ## Sets that may be missing -/

/-- A value is in the set the pointer names; no value is in a missing set. -/
def InSet (set : Option Bitmap) (v : Nat) : Prop := ∃ s ∈ set, v ∈ s.members

instance (set : Option Bitmap) (v : Nat) : Decidable (InSet set v) := by
  unfold InSet; infer_instance

/-- What a set that may be missing has of one key. -/
def partIn (set : Option Bitmap) (key : Nat) : Option Container :=
  set.bind (fun s => s.partAt false key)

theorem inSet_iff {set : Option Bitmap} (hv : ∀ s ∈ set, s.Valid) {key low : Nat}
    (hl : low < 65536) :
    InSet set (valueOf key low) ↔ ∃ c, partIn set key = some c ∧ low ∈ c.lows := by
  cases set with
  | none => simp [InSet, partIn]
  | some s =>
      simp only [InSet, partIn, Option.mem_def, Option.some.injEq, exists_eq_left',
        Option.bind_some]
      exact (hv s rfl).mem_members_iff false hl

theorem readable_partIn {set : Option Bitmap} (hv : ∀ s ∈ set, s.Valid) {key : Nat} {c : Container}
    (h : partIn set key = some c) : c.Readable ∧ c.key = key := by
  obtain ⟨s, hs, hp⟩ := Option.bind_eq_some_iff.mp h
  exact ⟨(hv s hs).readable_partAt hp, Bitmap.partAt_key hp⟩

end Arnm.Roaring
