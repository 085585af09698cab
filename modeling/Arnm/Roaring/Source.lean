import Arnm.Roaring.Bitmap

set_option autoImplicit false

/-! # A set read key by key

A source hands out the containers of one set in walking order, inside a range of keys. Its
position is a cut of the set's keys -- of a sparse set's values -- at a frontier (`Stands`):
what lies behind the frontier has been handed out. `stands_begin` and `stands_advance` are the
two operations; `Stands.current_some` and `Stands.current_none` say what `current` means.
-/

namespace Arnm.Roaring

open Listing Search

/-! ## The model -/

structure Source where
  set : Option Bitmap
  minKey : Nat
  maxKey : Nat
  descending : Bool
  position : Nat
  next : Nat
  buffered : Bool
  current : Option Container

namespace Source

/-- The container a walk over containers stands on. -/
def containerAt (source : Source) (set : Bitmap) : Option Container :=
  if source.descending then
    if source.position = 0 then none
    else (set.containers[source.position - 1]?).filter (fun c => decide (source.minKey ≤ c.key))
  else (set.containers[source.position]?).filter (fun c => decide (c.key ≤ source.maxKey))

/-- The key a walk over sparse values stands on, and where its values begin and end. -/
def groupAt (source : Source) (set : Bitmap) : Option (Nat × Nat × Nat) :=
  if source.descending then
    if source.position = 0 then none
    else
      let key := keyOf (set.values.getD (source.position - 1) 0)
      if key < source.minKey then none
      else
        some (key, lowerBound32 (set.values.take source.position) source.position (key <<< 16),
          source.position)
  else
    if set.cardinality ≤ source.position then none
    else
      let key := keyOf (set.values.getD source.position 0)
      if source.maxKey < key then none
      else
        some (key, source.position, source.position
          + upperBound32 (set.values.drop source.position) (set.cardinality - source.position)
              (valueOf key 0xffff))

/-- `arnm_roaring_source_load` -/
def load (source : Source) : Source :=
  match source.set with
  | none => { source with current := none }
  | some set =>
      if set.isSparse then
        match source.groupAt set with
        | none => { source with current := none }
        | some (key, begin, endAt) =>
            { source with
              next := if source.descending then begin else endAt
              current := some (Bitmap.view source.buffered key
                ((set.values.drop begin).take (endAt - begin))) }
      else { source with current := source.containerAt set }

/-- Where `arnm_roaring_source_begin` puts a source before it loads what is there. -/
def placed (set : Option Bitmap) (min max : Nat) (descending buffered : Bool) : Source :=
  let minKey := keyOf min
  let maxKey := keyOf max
  let position :=
    match set with
    | none => 0
    | some set =>
        if set.isSparse then
          if descending then upperBound32 set.values set.cardinality (valueOf maxKey 0xffff)
          else lowerBound32 set.values set.cardinality (valueOf minKey 0)
        else if descending then set.containerAfter maxKey else set.firstContainer minKey
  ⟨set, minKey, maxKey, descending, position, 0, buffered, none⟩

/-- `arnm_roaring_source_begin` -/
def start (set : Option Bitmap) (min max : Nat) (descending buffered : Bool) : Source :=
  load (placed set min max descending buffered)

/-- `arnm_roaring_source_advance` -/
def advance (source : Source) : Source :=
  match source.current, source.set with
  | some _, some set =>
      if set.isSparse then load { source with position := source.next }
      else if source.descending then load { source with position := source.position - 1 }
      else load { source with position := source.position + 1 }
  | _, _ => source

/-! ## Where a source stands -/

/-- What the set has of one key. -/
def partAt (source : Source) (key : Nat) : Option Container :=
  source.set.bind (fun set => set.partAt source.buffered key)

/-- The position cuts the set at the frontier. -/
def CutAt (frontier position : Nat) (set : Bitmap) : Prop :=
  if set.isSparse then Cut (· < frontier * 65536) set.values position
  else Cut (· < frontier) set.keys position

/-- The source of a valid set stands at a frontier inside its range and is loaded. -/
structure Stands (source : Source) (frontier : Nat) : Prop where
  valid : ∀ set ∈ source.set, set.Valid ∧ CutAt frontier source.position set
  inside : if source.descending then frontier ≤ source.maxKey + 1 else source.minKey ≤ frontier
  loaded : ∃ s, source = load s

/-! ### One step of a walk over containers -/

section Containers

variable {set : Bitmap} {source : Source} {f k : Nat}

theorem mem_keys_of_partAt (hs : set.isSparse = false) {b : Bool} (h : set.partAt b k ≠ none) :
    k ∈ set.keys := by
  rw [Bitmap.partAt, hs, if_neg (by simp), ne_eq, List.find?_eq_none] at h
  push Not at h
  obtain ⟨c, hc, hk⟩ := h
  exact List.mem_map.mpr ⟨c, hc, by simpa using hk⟩

theorem partAt_of_getElem? (hs : set.isSparse = false) (hv : set.keys.Pairwise (· < ·)) {b : Bool}
    {i : Nat} {c : Container} (hc : set.containers[i]? = some c) : set.partAt b c.key = some c := by
  obtain ⟨hi, rfl⟩ := List.getElem?_eq_some_iff.mp hc
  rw [Bitmap.partAt, hs, if_neg (by simp), List.find?_eq_some_iff_getElem]
  refine ⟨by simp, i, hi, rfl, fun j hj => ?_⟩
  have := List.pairwise_iff_getElem.mp hv j i (by simp [Bitmap.keys]; omega)
    (by simpa [Bitmap.keys] using hi) hj
  simp only [Bitmap.keys, List.getElem_map] at this
  simp only [Bool.not_eq_true', decide_eq_false_iff_not]
  omega

theorem keys_getElem? {i : Nat} {c : Container} (hc : set.containers[i]? = some c) :
    set.keys[i]? = some c.key := by
  rw [Bitmap.keys, List.getElem?_map, hc]; rfl

theorem partAt_eq_none (hs : set.isSparse = false) {b : Bool} (h : k ∉ set.keys) :
    set.partAt b k = none := by
  by_contra hc
  exact h (mem_keys_of_partAt hs hc)

/-- The container a walk stands on is the next one: nothing lies between it and the frontier, and
behind it the position one on is the cut. -/
theorem containerAt_some (hs : set.isSparse = false) (hv : set.keys.Pairwise (· < ·)) (b : Bool)
    (hc : Cut (· < f) set.keys source.position)
    (hin : if source.descending then f ≤ source.maxKey + 1 else source.minKey ≤ f)
    {c : Container} (h : source.containerAt set = some c) :
    set.partAt b c.key = some c ∧ source.minKey ≤ c.key ∧ c.key ≤ source.maxKey ∧
      Ahead source.descending f c.key ∧
      (∀ k, Ahead source.descending f k → Before source.descending k c.key →
        set.partAt b k = none) ∧
      Cut (· < past source.descending c.key) set.keys
        (if source.descending then source.position - 1 else source.position + 1) := by
  unfold containerAt at h
  cases hd : source.descending with
  | false =>
      simp only [hd, Bool.false_eq_true, if_false, Option.filter_eq_some_iff, decide_eq_true_eq]
        at h hin ⊢
      obtain ⟨hget, hle⟩ := h
      have hk := keys_getElem? hget
      have hfk := hc.le_of_getElem? hk
      refine ⟨partAt_of_getElem? hs hv hget, by omega, hle, by simpa using hfk, ?_, ?_⟩
      · intro k hfk' hlt
        rw [ahead_false] at hfk'
        rw [before_false] at hlt
        refine partAt_eq_none hs (fun hm => ?_)
        have := hc.first hv hk k hm hfk'
        omega
      · exact cut_succ hv hk
  | true =>
      simp only [hd, if_true] at h hin ⊢
      split at h
      · cases h
      · rename_i hpos
        simp only [Option.filter_eq_some_iff, decide_eq_true_eq] at h
        obtain ⟨hget, hle⟩ := h
        have hk := keys_getElem? hget
        have hfk := hc.lt_of_getElem? (by omega) hk
        refine ⟨partAt_of_getElem? hs hv hget, hle, by omega, by simpa using hfk, ?_, ?_⟩
        · intro k hfk' hlt
          rw [ahead_true] at hfk'
          rw [before_true] at hlt
          refine partAt_eq_none hs (fun hm => ?_)
          have := hc.last hv hk k hm hfk'
          omega
        · exact cut_self hv hk

theorem containerAt_none (hs : set.isSparse = false) (hv : set.keys.Pairwise (· < ·)) (b : Bool)
    (hc : Cut (· < f) set.keys source.position) (h : source.containerAt set = none) :
    ∀ k, source.minKey ≤ k → k ≤ source.maxKey → Ahead source.descending f k →
      set.partAt b k = none := by
  intro k hmin hmax hf
  refine partAt_eq_none hs (fun hm => ?_)
  unfold containerAt at h
  cases hd : source.descending with
  | false =>
      simp only [hd, Bool.false_eq_true, if_false] at h
      rw [hd, ahead_false] at hf
      cases hget : set.containers[source.position]? with
      | none =>
          have hk : set.keys[source.position]? = none := by
            rw [Bitmap.keys, List.getElem?_map, hget]; rfl
          have := hc.lt_of_none hk k hm
          omega
      | some c =>
          rw [hget, Option.filter_eq_none_iff] at h
          have h2 := h c rfl
          have h3 := hc.first hv (keys_getElem? hget) k hm hf
          rw [decide_eq_true_eq] at h2
          omega
  | true =>
      simp only [hd, if_true] at h
      rw [hd, ahead_true] at hf
      split at h
      · rename_i hpos
        rw [hpos] at hc
        have := hc.not_lt_of_zero k hm
        omega
      · rename_i hpos
        have hlt : source.position - 1 < set.containers.length := by
          have := hc.1
          rw [Bitmap.keys, List.length_map] at this
          omega
        have hget : set.containers[source.position - 1]? =
          some set.containers[source.position - 1] :=
          List.getElem?_eq_getElem hlt
        rw [hget, Option.filter_eq_none_iff] at h
        have h2 := h _ rfl
        have h3 := hc.last hv (keys_getElem? hget) k hm hf
        rw [decide_eq_true_eq] at h2
        omega

end Containers

/-! ### One step of a walk over sparse values -/

section Sparse

variable {set : Bitmap} {source : Source} {f k : Nat}

theorem partAt_eq_none_of_sparse (hs : set.isSparse = true) {b : Bool}
    (h : ∀ v ∈ set.values, keyOf v ≠ k) : set.partAt b k = none := by
  rw [Bitmap.partAt, if_pos hs]
  simp only
  rw [if_pos]
  exact List.filter_eq_nil_iff.mpr (fun v hv => by simpa using h v hv)

/-- Going up, the group of the first value behind a cut ends where the next key begins. -/
theorem groupUp_spec {l : List Nat} {r v : Nat} (hl : l.Pairwise (· < ·))
    (hc : Cut (· < f * 65536) l r) (hv : l[r]? = some v) :
    let n := upperBound32 (l.drop r) (l.length - r) (valueOf (keyOf v) 0xffff)
    Cut (· < (keyOf v + 1) * 65536) l (r + n) ∧
      (l.drop r).take n = l.filter (fun u => decide (keyOf u = keyOf v)) ∧ f ≤ keyOf v ∧
      ∀ u ∈ l, f ≤ keyOf u → keyOf v ≤ keyOf u := by
  intro n
  have hkey := keyOf_eq v
  have hfv := hc.le_of_getElem? hv
  have hfirst := hc.first hl hv
  have hcut : Cut (· < (keyOf v + 1) * 65536) l (r + n) := by
    refine hc.append (fun a (ha : a < f * 65536) => lt_of_lt_of_le ha (by omega)) ?_
    have hupper := upperBound_cut (hl.sublist (List.drop_sublist r l)) (valueOf (keyOf v) 0xffff)
    rw [List.length_drop, valueOf_eq _ (by omega)] at hupper
    obtain ⟨h1, h2, h3⟩ := hupper
    simp only [n, upperBound32]
    rw [valueOf_eq _ (by omega)]
    exact ⟨h1, fun a ha => by have := h2 a ha; omega, fun a ha => by have := h3 a ha; omega⟩
  have hslice := hc.slice hcut
  rw [Nat.add_sub_cancel_left] at hslice
  refine ⟨hcut, hslice.trans (List.filter_congr fun u hu => decide_eq_decide.mpr ?_), by omega,
    fun u hu hfu => ?_⟩
  all_goals
    have hfu := hfirst u hu
    have hkeyu := keyOf_eq u
    omega

/-- Going down, the group of the last value before a cut begins where the key before it ends. -/
theorem groupDown_spec {l : List Nat} {r v : Nat} (hl : l.Pairwise (· < ·))
    (hc : Cut (· < f * 65536) l r) (hr : r ≠ 0) (hv : l[r - 1]? = some v) :
    let n := lowerBound32 (l.take r) r (keyOf v <<< 16)
    Cut (· < keyOf v * 65536) l n ∧
      (l.drop n).take (r - n) = l.filter (fun u => decide (keyOf u = keyOf v)) ∧ keyOf v < f ∧
      ∀ u ∈ l, keyOf u < f → keyOf u ≤ keyOf v := by
  intro n
  have hkey := keyOf_eq v
  have hle := hc.1
  have hfv := hc.lt_of_getElem? (Nat.pos_of_ne_zero hr) hv
  have hlast := hc.last hl hv
  have hcut : Cut (· < keyOf v * 65536) l n := by
    have hlower := lowerBound_cut (hl.sublist (List.take_sublist r l)) (keyOf v * 65536)
    rw [List.length_take, Nat.min_eq_left hle] at hlower
    simp only [n, lowerBound32, Nat.shiftLeft_eq]
    refine hlower.of_take hle (fun a ha (hlt : a < keyOf v * 65536) => ?_)
    exact hc.2.2 a ha (lt_of_lt_of_le hlt (by omega))
  refine ⟨hcut, (hcut.slice hc).trans (List.filter_congr fun u hu => decide_eq_decide.mpr ?_),
    by omega, fun u hu hfu => ?_⟩
  all_goals
    have hfu := hlast u hu
    have hkeyu := keyOf_eq u
    omega

/-- The part of a key is its group, and the keys in front of it have none. -/
theorem partAt_of_group (hs : set.isSparse = true) {b : Bool} {d : Bool} {key begin n v : Nat}
    (hg : (set.values.drop begin).take n = set.values.filter (fun u => decide (keyOf u = key)))
    (hv : v ∈ set.values) (hk : keyOf v = key)
    (hfirst : ∀ u ∈ set.values, Ahead d f (keyOf u) → ¬ Before d (keyOf u) key) :
    set.partAt b key = some (Bitmap.view b key ((set.values.drop begin).take n)) ∧
      ∀ k, Ahead d f k → Before d k key → set.partAt b k = none := by
  constructor
  · have hm : v ∈ set.values.filter (fun u => decide (keyOf u = key)) :=
      List.mem_filter.mpr ⟨hv, by simpa using hk⟩
    rw [Bitmap.partAt, if_pos hs]
    simp only
    rw [if_neg (List.ne_nil_of_mem hm), hg]
  · intro k hfk hlt
    refine partAt_eq_none_of_sparse hs (fun u hu hku => ?_)
    rw [← hku] at hfk hlt
    exact hfirst u hu hfk hlt

/-- The group a walk stands on is that of the next key, and its far end is the cut behind it. -/
theorem groupAt_some (hs : set.isSparse = true) (hv : set.SparseForm) (b : Bool)
    (hc : Cut (· < f * 65536) set.values source.position)
    (hin : if source.descending then f ≤ source.maxKey + 1 else source.minKey ≤ f)
    {key begin endAt : Nat} (h : source.groupAt set = some (key, begin, endAt)) :
    set.partAt b key
        = some (Bitmap.view b key ((set.values.drop begin).take (endAt - begin))) ∧
      source.minKey ≤ key ∧ key ≤ source.maxKey ∧ Ahead source.descending f key ∧
      (∀ k, Ahead source.descending f k → Before source.descending k key →
        set.partAt b k = none) ∧
      Cut (· < past source.descending key * 65536) set.values
        (if source.descending then begin else endAt) := by
  unfold groupAt at h
  cases hd : source.descending with
  | false =>
      simp only [hd, Bool.false_eq_true, if_false, hv.cardinality_eq] at h hin ⊢
      split at h
      · cases h
      · rename_i hpos
        have hget := List.getElem?_eq_getElem (show source.position < set.values.length by omega)
        rw [List.getD_eq_getElem?_getD, hget, Option.getD_some] at h
        split at h
        · cases h
        · rename_i hmax
          simp only [Option.some.injEq, Prod.mk.injEq] at h
          obtain ⟨rfl, rfl, rfl⟩ := h
          obtain ⟨hcut, hg, hahead, hfirst⟩ := groupUp_spec hv.sorted hc hget
          rw [Nat.add_sub_cancel_left]
          obtain ⟨hpart, hnone⟩ := partAt_of_group (d := false) (b := b) hs hg
            (List.mem_of_getElem? hget) rfl fun u hu hfu => by
              rw [before_false, Nat.not_lt]
              exact hfirst u hu ((ahead_false _ _).mp hfu)
          exact ⟨hpart, by omega, by omega, (ahead_false _ _).mpr hahead, hnone, hcut⟩
  | true =>
      simp only [hd, if_true] at h hin ⊢
      split at h
      · cases h
      · rename_i hpos
        have hle := hc.1
        have hget := List.getElem?_eq_getElem
          (show source.position - 1 < set.values.length by omega)
        rw [List.getD_eq_getElem?_getD, hget, Option.getD_some] at h
        split at h
        · cases h
        · rename_i hmin
          simp only [Option.some.injEq, Prod.mk.injEq] at h
          obtain ⟨rfl, rfl, rfl⟩ := h
          obtain ⟨hcut, hg, hahead, hlast⟩ := groupDown_spec hv.sorted hc hpos hget
          obtain ⟨hpart, hnone⟩ := partAt_of_group (d := true) (b := b) hs hg
            (List.mem_of_getElem? hget) rfl fun u hu hfu => by
              rw [before_true, Nat.not_lt]
              exact hlast u hu ((ahead_true _ _).mp hfu)
          exact ⟨hpart, by omega, by omega, (ahead_true _ _).mpr hahead, hnone, hcut⟩

theorem groupAt_none (hs : set.isSparse = true) (hv : set.SparseForm) (b : Bool)
    (hc : Cut (· < f * 65536) set.values source.position) (h : source.groupAt set = none) :
    ∀ k, source.minKey ≤ k → k ≤ source.maxKey → Ahead source.descending f k →
      set.partAt b k = none := by
  intro k hmin hmax hf
  refine partAt_eq_none_of_sparse hs (fun u hu hk => ?_)
  rw [keyOf_eq] at hk
  have hle := hc.1
  unfold groupAt at h
  cases hd : source.descending with
  | false =>
      simp only [hd, Bool.false_eq_true, if_false, hv.cardinality_eq] at h
      rw [hd, ahead_false] at hf
      split at h
      · rename_i hpos
        have := hc.lt_of_none (List.getElem?_eq_none_iff.mpr hpos) u hu
        omega
      · rename_i hpos
        have hi : source.position < set.values.length := by omega
        have hfirst := hc.first hv.sorted (List.getElem?_eq_getElem hi) u hu (by omega)
        split at h
        · rename_i hlt
          rw [show set.values.getD source.position 0 = set.values[source.position] by simp [hi],
            keyOf_eq] at hlt
          omega
        · cases h
  | true =>
      simp only [hd, if_true] at h
      rw [hd, ahead_true] at hf
      split at h
      · rename_i hpos
        rw [hpos] at hc
        have := hc.not_lt_of_zero u hu
        omega
      · rename_i hpos
        have hi : source.position - 1 < set.values.length := by omega
        have hlast := hc.last hv.sorted (List.getElem?_eq_getElem hi) u hu (by omega)
        split at h
        · rename_i hlt
          rw [show set.values.getD (source.position - 1) 0 = set.values[source.position - 1] by
            simp [hi], keyOf_eq] at hlt
          omega
        · cases h

end Sparse

/-! ### Loading -/

variable {source : Source} {f : Nat}

theorem load_fields (source : Source) :
    source.load.set = source.set ∧ source.load.minKey = source.minKey ∧
      source.load.maxKey = source.maxKey ∧ source.load.descending = source.descending ∧
      source.load.position = source.position ∧ source.load.buffered = source.buffered := by
  obtain ⟨set, minKey, maxKey, d, position, next, b, current⟩ := source
  cases set with
  | none => simp [load]
  | some set =>
      simp only [load]
      split
      · split <;> simp
      · simp

@[simp] theorem load_set (source : Source) : source.load.set = source.set := (load_fields source).1

@[simp] theorem load_minKey (source : Source) : source.load.minKey = source.minKey :=
  (load_fields source).2.1

@[simp] theorem load_maxKey (source : Source) : source.load.maxKey = source.maxKey :=
  (load_fields source).2.2.1

@[simp] theorem load_descending (source : Source) : source.load.descending = source.descending :=
  (load_fields source).2.2.2.1

@[simp] theorem load_position (source : Source) : source.load.position = source.position :=
  (load_fields source).2.2.2.2.1

@[simp] theorem load_buffered (source : Source) : source.load.buffered = source.buffered :=
  (load_fields source).2.2.2.2.2

theorem groupAt_load (source : Source) (set : Bitmap) :
    source.load.groupAt set = source.groupAt set := by
  simp only [groupAt, load_descending, load_position, load_minKey, load_maxKey]

theorem containerAt_load (source : Source) (set : Bitmap) :
    source.load.containerAt set = source.containerAt set := by
  simp only [containerAt, load_descending, load_position, load_minKey, load_maxKey]

/-- What `current` of a loaded source is, form by form. -/
theorem current_eq_of_load (h : ∃ s, source = load s) :
    match source.set with
    | none => source.current = none
    | some set =>
        if set.isSparse then
          match source.groupAt set with
          | none => source.current = none
          | some (key, begin, endAt) =>
              source.next = (if source.descending then begin else endAt) ∧
                source.current = some (Bitmap.view source.buffered key
                  ((set.values.drop begin).take (endAt - begin)))
        else source.current = source.containerAt set := by
  obtain ⟨s, rfl⟩ := h
  rw [load_set]
  cases hset : s.set with
  | none => simp only [load, hset]
  | some set =>
      simp only [groupAt_load, containerAt_load, load_descending, load_buffered]
      simp only [load, hset]
      by_cases hs : set.isSparse = true
      · simp only [hs, if_true]
        cases hg : s.groupAt set with
        | none => rfl
        | some g => exact ⟨rfl, rfl⟩
      · simp only [hs]
        rfl

/-! ### The two operations -/

theorem Stands.sorted_keys (h : source.Stands f) {set : Bitmap} (hset : source.set = some set)
    (hs : set.isSparse = false) : set.keys.Pairwise (· < ·) := by
  rcases (h.valid set hset).1.form with hf | hf
  · rw [Bitmap.isSparse_iff.mpr hf.containers_eq] at hs
    cases hs
  · exact hf.sorted

theorem Stands.sparseForm (h : source.Stands f) {set : Bitmap} (hset : source.set = some set)
    (hs : set.isSparse = true) : set.SparseForm := by
  rcases (h.valid set hset).1.form with hf | hf
  · exact hf
  · exact absurd (Bitmap.isSparse_iff.mp hs) hf.containers_ne

/-- A loaded source shows the next part of its set: it lies inside the range and ahead of the
frontier, and the keys between have none. -/
theorem Stands.current_some (h : source.Stands f) {c : Container} (hc : source.current = some c) :
    source.partAt c.key = some c ∧ source.minKey ≤ c.key ∧ c.key ≤ source.maxKey ∧
      Ahead source.descending f c.key ∧
      ∀ k, Ahead source.descending f k → Before source.descending k c.key →
        source.partAt k = none := by
  have hcur := current_eq_of_load h.loaded
  cases hset : source.set with
  | none =>
      rw [hset] at hcur
      rw [hcur] at hc
      cases hc
  | some set =>
      obtain ⟨hv, hcut⟩ := h.valid set hset
      rw [hset] at hcur
      simp only [partAt, hset, Option.bind_some]
      by_cases hs : set.isSparse = true
      · simp only [if_pos hs] at hcur
        rw [CutAt, if_pos hs] at hcut
        cases hg : source.groupAt set with
        | none =>
            rw [hg] at hcur
            rw [hcur] at hc
            cases hc
        | some g =>
            obtain ⟨key, begin, endAt⟩ := g
            rw [hg] at hcur
            rw [hcur.2] at hc
            cases hc
            obtain ⟨h1, h2, h3, h4, h5, -⟩ :=
              groupAt_some hs (h.sparseForm hset hs) source.buffered hcut h.inside hg
            exact ⟨h1, h2, h3, h4, h5⟩
      · simp only [if_neg hs] at hcur
        rw [CutAt, if_neg hs] at hcut
        rw [Bool.not_eq_true] at hs
        rw [hcur] at hc
        obtain ⟨h1, h2, h3, h4, h5, -⟩ :=
          containerAt_some hs (h.sorted_keys hset hs) source.buffered hcut h.inside hc
        exact ⟨h1, h2, h3, h4, h5⟩

/-- A source that shows nothing has nothing left ahead of the frontier inside its range. -/
theorem Stands.current_none (h : source.Stands f) (hc : source.current = none) :
    ∀ k, source.minKey ≤ k → k ≤ source.maxKey → Ahead source.descending f k →
      source.partAt k = none := by
  have hcur := current_eq_of_load h.loaded
  cases hset : source.set with
  | none => intro k _ _ _; rw [partAt, hset]; rfl
  | some set =>
      obtain ⟨hv, hcut⟩ := h.valid set hset
      rw [hset] at hcur
      simp only [partAt, hset, Option.bind_some]
      by_cases hs : set.isSparse = true
      · simp only [if_pos hs] at hcur
        rw [CutAt, if_pos hs] at hcut
        cases hg : source.groupAt set with
        | none => exact groupAt_none hs (h.sparseForm hset hs) source.buffered hcut hg
        | some g =>
            obtain ⟨key, begin, endAt⟩ := g
            rw [hg] at hcur
            rw [hcur.2] at hc
            cases hc
      · simp only [if_neg hs] at hcur
        rw [CutAt, if_neg hs] at hcut
        rw [Bool.not_eq_true] at hs
        rw [hcur] at hc
        exact containerAt_none hs (h.sorted_keys hset hs) source.buffered hcut hc

/-- A part of a key is one of that key, and it can be read. -/
theorem Stands.readable (h : source.Stands f) {k : Nat} {c : Container}
    (hc : source.partAt k = some c) : c.Readable ∧ c.key = k := by
  obtain ⟨set, hset, hp⟩ := Option.bind_eq_some_iff.mp hc
  exact ⟨(h.valid set hset).1.readable_partAt hp, Bitmap.partAt_key hp⟩

/-- A bitmap shown is the container at the position. -/
theorem Stands.current_bitmap (h : source.Stands f) {c : Container} (hc : source.current = some c)
    (hb : c.isBitmap = true) :
    ∃ set, source.set = some set ∧ set.containers ≠ [] ∧
      set.containers[if source.descending then source.position - 1 else source.position]? =
        some c := by
  have hcur := current_eq_of_load h.loaded
  cases hset : source.set with
  | none =>
      rw [hset] at hcur
      rw [hcur] at hc
      cases hc
  | some set =>
      rw [hset] at hcur
      by_cases hs : set.isSparse = true
      · simp only [if_pos hs] at hcur
        cases hg : source.groupAt set with
        | none =>
            rw [hg] at hcur
            rw [hcur] at hc
            cases hc
        | some g =>
            rw [hg] at hcur
            rw [hcur.2] at hc
            cases hc
            cases hbuf : source.buffered <;> simp [Container.isBitmap, Bitmap.view, hbuf] at hb
      · simp only [if_neg hs] at hcur
        refine ⟨set, rfl, fun hn => hs (Bitmap.isSparse_iff.mpr hn), ?_⟩
        rw [hcur] at hc
        unfold containerAt at hc
        cases hd : source.descending with
        | false =>
            simp only [hd, Bool.false_eq_true, if_false, Option.filter_eq_some_iff] at hc ⊢
            exact hc.1
        | true =>
            simp only [hd, if_true] at hc ⊢
            split at hc
            · cases hc
            · exact (Option.filter_eq_some_iff.mp hc).1

/-- A walk starts in front of its range. -/
theorem stands_start {set : Option Bitmap} (hv : ∀ s ∈ set, s.Valid) (min max : Nat) (d b : Bool) :
    (start set min max d b).Stands (if d then keyOf max + 1 else keyOf min) := by
  unfold start placed
  refine ⟨?_, ?_, ⟨_, rfl⟩⟩
  · intro s hs
    rw [load_set] at hs
    simp only at hs
    refine ⟨hv s hs, ?_⟩
    rw [load_position]
    cases hs
    have hval := hv s rfl
    simp only [CutAt]
    by_cases hsp : s.isSparse = true
    · rw [if_pos hsp, if_pos hsp]
      rcases hval.form with hf | hf
      · cases d with
        | false =>
            simp only [Bool.false_eq_true, if_false, hf.cardinality_eq]
            rw [valueOf_eq _ (by omega), Nat.add_zero]
            exact lowerBound_cut hf.sorted (keyOf min * 65536)
        | true =>
            simp only [if_true, hf.cardinality_eq]
            obtain ⟨h1, h2, h3⟩ := upperBound_cut hf.sorted (valueOf (keyOf max) 0xffff)
            rw [upperBound32]
            rw [valueOf_eq _ (by omega)] at h1 h2 h3 ⊢
            exact ⟨h1, fun a ha => by have := h2 a ha; omega, fun a ha => by have := h3 a ha; omega⟩
      · exact absurd (Bitmap.isSparse_iff.mp hsp) hf.containers_ne
    · rw [if_neg hsp, if_neg hsp]
      rcases hval.form with hf | hf
      · exact absurd (Bitmap.isSparse_iff.mpr hf.containers_eq) hsp
      · have hlen : s.count = s.keys.length := by simp [Bitmap.count, Bitmap.keys]
        cases d with
        | false =>
            simp only [Bool.false_eq_true, if_false, Bitmap.firstContainer, hlen]
            exact lowerBound_cut hf.sorted _
        | true =>
            simp only [if_true, Bitmap.containerAfter, hlen]
            obtain ⟨h1, h2, h3⟩ := upperBound_cut hf.sorted (keyOf max)
            exact ⟨h1, fun a ha => by have := h2 a ha; omega, fun a ha => by have := h3 a ha; omega⟩
  · rw [load_descending, load_maxKey, load_minKey]
    cases d <;> simp

theorem start_fields (set : Option Bitmap) (min max : Nat) (d b : Bool) :
    (start set min max d b).set = set ∧ (start set min max d b).minKey = keyOf min ∧
      (start set min max d b).maxKey = keyOf max ∧ (start set min max d b).descending = d ∧
      (start set min max d b).buffered = b := by
  simp [start, placed]

theorem advance_fields (source : Source) :
    source.advance.set = source.set ∧ source.advance.minKey = source.minKey ∧
      source.advance.maxKey = source.maxKey ∧ source.advance.descending = source.descending ∧
      source.advance.buffered = source.buffered := by
  unfold advance
  split
  · split
    · simp
    · split <;> simp
  · simp

/-- Advancing moves the frontier behind the part shown. -/
theorem stands_advance (h : source.Stands f) {c : Container} (hc : source.current = some c) :
    source.advance.Stands (past source.descending c.key) := by
  have hcur := current_eq_of_load h.loaded
  obtain ⟨-, hmin, hmax, -, -⟩ := h.current_some hc
  have hin : if source.descending then past source.descending c.key ≤ source.maxKey + 1
      else source.minKey ≤ past source.descending c.key := by
    cases hd : source.descending with
    | false => simp [past]; omega
    | true => simp [past]; omega
  cases hset : source.set with
  | none =>
      rw [hset] at hcur
      rw [hcur] at hc
      cases hc
  | some set =>
      obtain ⟨hv, hcut⟩ := h.valid set hset
      rw [hset] at hcur
      by_cases hs : set.isSparse = true
      · simp only [if_pos hs] at hcur
        rw [CutAt, if_pos hs] at hcut
        cases hg : source.groupAt set with
        | none =>
            rw [hg] at hcur
            rw [hcur] at hc
            cases hc
        | some g =>
            obtain ⟨key, begin, endAt⟩ := g
            rw [hg] at hcur
            obtain ⟨hnext, hcur⟩ := hcur
            rw [hcur] at hc
            cases hc
            obtain ⟨-, -, -, -, -, h6⟩ :=
              groupAt_some hs (h.sparseForm hset hs) source.buffered hcut h.inside hg
            have hadv : source.advance = load { source with position := source.next } := by
              simp only [advance, hcur, hset, if_pos hs]
            rw [hadv]
            refine ⟨?_, by rw [load_descending, load_maxKey, load_minKey]; exact hin, ⟨_, rfl⟩⟩
            intro s hs'
            rw [load_set, Option.mem_def] at hs'
            simp only [hset, Option.some.injEq] at hs'
            subst hs'
            refine ⟨hv, ?_⟩
            rw [load_position, CutAt, if_pos hs, hnext]
            exact h6
      · simp only [if_neg hs] at hcur
        rw [CutAt, if_neg hs] at hcut
        have hs' : set.isSparse = false := by rwa [Bool.not_eq_true] at hs
        have hcont := hc
        rw [hcur] at hcont
        obtain ⟨-, -, -, -, -, h6⟩ :=
          containerAt_some hs' (h.sorted_keys hset hs') source.buffered hcut h.inside hcont
        have hadv : source.advance = load { source with
            position := if source.descending then source.position - 1
              else source.position + 1 } := by
          simp only [advance, hc, hset, if_neg hs]
          cases hd : source.descending <;> simp
        rw [hadv]
        refine ⟨?_, by rw [load_descending, load_maxKey, load_minKey]; exact hin, ⟨_, rfl⟩⟩
        intro s hm
        rw [load_set, Option.mem_def] at hm
        simp only [hset, Option.some.injEq] at hm
        subst hm
        refine ⟨hv, ?_⟩
        rw [load_position, CutAt, if_neg hs]
        exact h6

end Source

end Arnm.Roaring
