import Arnm.Roaring.Add
import Arnm.Roaring.Combine

set_option autoImplicit false

/-! # Walking the keys of two sets

The operations read their inputs key by key through two sources and append what they select to a
set under construction. `Reads` is where a source stands, `Partial` what the set has of the
values up to a key, `Yields` what a whole operation leaves; each loop is an induction on its steps
that carries the first two to the last.
-/

namespace Arnm.Roaring

open Listing Words Memory Lending

variable {σ : Type} {L : BlockPool σ} {s : σ}

/-! ## A source of an operation -/

namespace Source

/-- The source reads `set` upwards, sparse values copied, and what it shows is the set's next part
from key `k` on. -/
structure Reads (source : Source) (set : Bitmap) (min max k : Nat) : Prop where
  set_eq : source.set = some set
  minKey_eq : source.minKey = keyOf min
  maxKey_eq : source.maxKey = keyOf max
  descending_eq : source.descending = false
  buffered_eq : source.buffered = true
  exact : source.Exact k

/-- An upper bound of the keys a source can still show. -/
def left (source : Source) : Nat :=
  match source.current with
  | none => 0
  | some c => 0x10000 - c.key

variable {source : Source} {set : Bitmap} {min max k k' : Nat} {c : Container}

theorem left_le (source : Source) : source.left ≤ 0x10000 := by
  unfold left
  split
  · exact Nat.zero_le _
  · exact Nat.sub_le _ _

theorem reads_start (hv : set.Valid) (min max : Nat) :
    (start (some set) min max false true).Reads set min max (keyOf min) := by
  obtain ⟨h1, h2, h3, h4, h5⟩ := start_fields (some set) min max false true
  have hvs : ∀ t ∈ some set, t.Valid := fun t ht => by
    rw [Option.mem_def, Option.some.injEq] at ht
    rwa [← ht]
  have hs := stands_start hvs min max false true
  exact ⟨h1, h2, h3, h4, h5, ⟨⟨_, hs, fun k hk => hk⟩, fun c hc => (hs.current_some hc).2.2.2.1⟩⟩

theorem Reads.partAt_eq (h : source.Reads set min max k) (key : Nat) :
    source.partAt key = set.partAt true key := by
  rw [Source.partAt, h.set_eq, h.buffered_eq]
  rfl

theorem Reads.current_some (h : source.Reads set min max k) (hc : source.current = some c) :
    set.partAt true c.key = some c ∧ keyOf min ≤ c.key ∧ c.key ≤ keyOf max ∧ k ≤ c.key ∧
      ∀ j, k ≤ j → j < c.key → set.partAt true j = none := by
  obtain ⟨⟨g, hg, hl⟩, ha⟩ := h.exact
  obtain ⟨h1, h2, h3, -, h5⟩ := hg.current_some hc
  have hk := ha c hc
  rw [h.descending_eq, ahead_false] at hk
  rw [h.descending_eq] at hl h5
  rw [h.partAt_eq] at h1
  rw [h.minKey_eq] at h2
  rw [h.maxKey_eq] at h3
  refine ⟨h1, h2, h3, hk, fun j hj hlt => ?_⟩
  rw [← h.partAt_eq]
  exact h5 j (hl j ((ahead_false _ _).mpr hj)) ((before_false _ _).mpr hlt)

theorem Reads.current_none (h : source.Reads set min max k) (hc : source.current = none) :
    ∀ j, k ≤ j → keyOf min ≤ j → j ≤ keyOf max → set.partAt true j = none := by
  obtain ⟨⟨g, hg, hl⟩, -⟩ := h.exact
  rw [h.descending_eq] at hl
  intro j hk h1 h2
  rw [← h.partAt_eq]
  refine hg.current_none hc j (by rwa [h.minKey_eq]) (by rwa [h.maxKey_eq]) ?_
  rw [h.descending_eq]
  exact hl j ((ahead_false _ _).mpr hk)

/-- Advancing passes the part shown, which leaves less to show. -/
theorem Reads.advance (h : source.Reads set min max k) (hc : source.current = some c) :
    source.advance.Reads set min max (c.key + 1) ∧ source.advance.left < source.left := by
  obtain ⟨h1, h2, h3, h4, h5⟩ := advance_fields source
  obtain ⟨⟨g, hg, -⟩, -⟩ := h.exact
  have hadv := stands_advance hg hc
  rw [h.descending_eq] at hadv
  have hlt := (hg.readable (hg.current_some hc).1).1.key_lt
  refine ⟨⟨h1.trans h.set_eq, h2.trans h.minKey_eq, h3.trans h.maxKey_eq, h4.trans h.descending_eq,
    h5.trans h.buffered_eq, ⟨⟨_, hadv, fun j hj => ?_⟩, fun c' hc' => ?_⟩⟩, ?_⟩
  · exact hj
  · exact (hadv.current_some hc').2.2.2.1
  · simp only [left, hc]
    cases hc' : source.advance.current with
    | none =>
        simp only
        omega
    | some c' =>
        have := (hadv.current_some hc').2.2.2.1
        rw [h4, h.descending_eq, ahead_false] at this
        simp only [past, Bool.false_eq_true, if_false] at this
        simp only
        omega

/-- A source that shows a later key has nothing up to it. -/
theorem Reads.pass (h : source.Reads set min max k) (hk : k ≤ k')
    (hc : ∀ c, source.current = some c → k' ≤ c.key) : source.Reads set min max k' := by
  refine { h with exact := ⟨h.exact.1.mono fun j hj => ?_, fun c hcur => ?_⟩ }
  · rw [h.descending_eq, ahead_false] at hj ⊢
    exact Nat.le_trans hk hj
  · rw [h.descending_eq, ahead_false]
    exact hc c hcur

/-- Seeking brings a source to a key. -/
theorem Reads.seek (h : source.Reads set min max k) {key : Nat} (hk : k ≤ key) :
    (sourceSeek source key false).Reads set min max key := by
  have hkeeps := sourceSeekLoop_keeps (d := false) (k := key)
    (P := fun t => t.set = some set ∧ t.minKey = keyOf min ∧ t.maxKey = keyOf max ∧
      t.descending = false ∧ t.buffered = true)
    (fun t ht => by
      obtain ⟨h1, h2, h3, h4, h5⟩ := advance_fields t
      rw [h1, h2, h3, h4, h5]
      exact ht)
    0x10000 ⟨h.set_eq, h.minKey_eq, h.maxKey_eq, h.descending_eq, h.buffered_eq⟩
  obtain ⟨⟨g, hg, hl⟩, -⟩ := h.exact
  rw [h.descending_eq] at hl
  have hexact := sourceSeekLoop_exact 0x10000 (k := key) h.descending_eq hg
    (fun j hj => by
      rw [upTo, if_neg (by decide), ahead_false] at hj
      exact hl j ((ahead_false _ _).mpr (Nat.le_trans hk hj)))
    (distance_le false _ g)
  obtain ⟨h1, h2, h3, h4, h5⟩ := hkeeps
  exact ⟨h1, h2, h3, h4, h5, hexact⟩

/-- Seen from a key it has been brought to, a source shows the set's part of it or has none. -/
theorem Reads.part_of_ne (h : source.Reads set min max k) (h1 : keyOf min ≤ k) (h2 : k ≤ keyOf max)
    (hne : ∀ c, source.current = some c → c.key ≠ k) : set.partAt true k = none := by
  cases hc : source.current with
  | none => exact h.current_none hc k (Nat.le_refl k) h1 h2
  | some c =>
      obtain ⟨-, -, -, hle, hnone⟩ := h.current_some hc
      exact hnone k (Nat.le_refl k) (Nat.lt_of_le_of_ne hle (hne c hc).symm)

end Source

open Source

/-! ## Progress -/

/-- An empty set without a block. -/
structure Bitmap.Empty (set : Bitmap) : Prop where
  valid : set.Valid
  block_none : set.block = none

theorem Bitmap.empty_init : Bitmap.init.Empty := ⟨Bitmap.valid_init, rfl⟩

theorem Bitmap.Empty.under {set : Bitmap} (h : set.Empty) (k : Nat) : set.Under k := by
  refine ⟨h.valid, fun _ => h.block_none, fun key hkey => ?_⟩
  rw [Bitmap.keys, h.valid.anchored h.block_none] at hkey
  cases hkey

theorem Bitmap.Empty.members_nil {set : Bitmap} (h : set.Empty) : set.members = [] :=
  (h.under 0).members_nil (h.valid.anchored h.block_none)

theorem Bitmap.Empty.loans_nil {set : Bitmap} (h : set.Empty) : set.loans = [] := by
  rw [Bitmap.loans, Bitmap.blockLoan, h.block_none, h.valid.anchored h.block_none]
  rfl

section Progress

variable {p : Nat → Prop} [DecidablePred p] {out : Bitmap} {k k' : Nat}

theorem length_below_mono {q : Nat → Prop} [DecidablePred q] {n : Nat} (h : ∀ v, p v → q v) :
    (below n p).length ≤ (below n q).length := by
  have hnodup : (below n p).Nodup := (pairwise_below n p).imp fun hlt => Nat.ne_of_lt hlt
  refine (hnodup.subperm fun v hv => ?_).length_le
  rw [mem_below] at hv ⊢
  exact ⟨hv.1, h v hv.2⟩

/-- The set has the values of `p` up to key `k`. -/
structure Partial (out : Bitmap) (p : Nat → Prop) [DecidablePred p] (k : Nat) : Prop where
  under : out.Under k
  members_eq : out.members = below (2 ^ 32) fun v => keyOf v < k ∧ p v

/-- What an operation leaves: the values of `p`, or nothing at all. -/
def Yields (L : BlockPool σ) (out : Bitmap) (s : σ) (p : Nat → Prop) [DecidablePred p]
    (r : Built σ) : Prop :=
  (r.result = .success ∧ r.set.WellFormed ∧ r.set.members = below (2 ^ 32) p ∧
    Balanced L s out.loans r.pool r.set.loans) ∨
  (r.result.isError = true ∧ r.set = Bitmap.init ∧ Balanced L s out.loans r.pool [] ∧
    (L.Grants → uint32Max < (below (2 ^ 32) p).length))

theorem Yields.congr {q : Nat → Prop} [DecidablePred q] {r : Built σ}
    (h : Yields L out s p r) (hpq : ∀ v, v < 2 ^ 32 → (p v ↔ q v)) :
    Yields L out s q r := by
  unfold Yields at h ⊢
  rwa [below_congr hpq] at h

theorem Bitmap.Empty.begins (h : out.Empty) (hnone : ∀ v, keyOf v < k → ¬ p v) :
    Partial out p k := by
  refine ⟨h.under k, ?_⟩
  rw [h.members_nil]
  refine (List.eq_nil_iff_forall_not_mem.mpr fun v hv => ?_).symm
  obtain ⟨-, hk, hp⟩ := mem_below.mp hv
  exact hnone v hk hp

/-- Keys without values are passed over. -/
theorem Partial.pass (h : Partial out p k) (hk : k ≤ k')
    (hnone : ∀ v, v < 2 ^ 32 → k ≤ keyOf v → keyOf v < k' → ¬ p v) : Partial out p k' := by
  refine ⟨h.under.mono hk, h.members_eq.trans (below_congr fun v hv => ?_)⟩
  constructor
  · exact fun hp => ⟨Nat.lt_of_lt_of_le hp.1 hk, hp.2⟩
  · intro hp
    refine ⟨?_, hp.2⟩
    by_contra hge
    exact hnone v hv (by omega) hp.1 hp.2

/-- With no values left the set is complete. -/
theorem Partial.done (h : Partial out p k) (hnone : ∀ v, v < 2 ^ 32 → k ≤ keyOf v → ¬ p v) :
    Yields L out s p ⟨.success, out, s⟩ := by
  refine Or.inl ⟨rfl, h.under.wellFormed, h.members_eq.trans (below_congr fun v hv => ?_),
    Balanced.refl s _⟩
  constructor
  · exact fun hp => hp.2
  · intro hp
    refine ⟨?_, hp⟩
    by_contra hge
    exact hnone v hv (by omega) hp

/-- The values of one more key. -/
theorem below_key {lows : List Nat} (hk : k < 65536) (hs : lows.Pairwise (· < ·))
    (hlows : ∀ i, i ∈ lows ↔ i < 65536 ∧ p (valueOf k i)) :
    below (2 ^ 32) (fun v => keyOf v < k + 1 ∧ p v)
      = below (2 ^ 32) (fun v => keyOf v < k ∧ p v) ++ lows.map (valueOf k) := by
  have hlt : ∀ i ∈ lows, i < 65536 := fun i hi => ((hlows i).mp hi).1
  refine eq_of_mem_iff_lt (pairwise_below _ _) ?_ fun v => ?_
  · refine List.pairwise_append.mpr ⟨pairwise_below _ _, ?_, fun v hv w hw => ?_⟩
    · refine List.pairwise_map.mpr (hs.imp_of_mem fun {a b} ha hb hab => ?_)
      rw [valueOf_eq k (hlt a ha), valueOf_eq k (hlt b hb)]
      omega
    · obtain ⟨i, hi, rfl⟩ := List.mem_map.mp hw
      have hv := (mem_below.mp hv).2.1
      rw [keyOf_eq] at hv
      rw [valueOf_eq k (hlt i hi)]
      omega
  · rw [List.mem_append, List.mem_map, mem_below, mem_below]
    constructor
    · rintro ⟨hv, hkey, hp⟩
      rcases Nat.lt_or_ge (keyOf v) k with hless | hge
      · exact Or.inl ⟨hv, hless, hp⟩
      · -- the value has the new key
        have hkv : keyOf v = k := by omega
        have hback := valueOf_keyOf_lowOf v
        rw [hkv] at hback
        exact Or.inr ⟨lowOf v, (hlows _).mpr ⟨lowOf_lt v, by rwa [hback]⟩, hback⟩
    · rintro (⟨hv, hkey, hp⟩ | ⟨i, hi, rfl⟩)
      · exact ⟨hv, by omega, hp⟩
      · obtain ⟨hi', hp⟩ := (hlows i).mp hi
        refine ⟨?_, by rw [keyOf_valueOf k hi']; omega, hp⟩
        rw [valueOf_eq k hi']
        omega

theorem finish_of_success {r : Built σ} (h : r.result = .success) : finish L r = r := by
  rw [finish, if_pos h]

/-- Finishing a failed operation gives back what was built. -/
theorem finish_of_error {r : Built σ} {l : List Loan} (h : r.result.isError = true)
    (ha : r.set.Anchored) (hbal : Balanced L s l r.pool r.set.loans) :
    (finish L r).result.isError = true ∧ (finish L r).set = Bitmap.init ∧
      Balanced L s l (finish L r).pool [] := by
  rw [finish, if_neg (fun hok => by rw [hok] at h; cases h)]
  exact ⟨h, free_fst r.set, hbal.trans (free_balanced ha)⟩

/-- One key is emitted and the loop goes on, or the operation is finished. -/
theorem Partial.emit (h : Partial out p k) (hk : k < 65536) {lows : List Nat}
    (hs : lows.Pairwise (· < ·)) (hlows : ∀ i, i ∈ lows ↔ i < 65536 ∧ p (valueOf k i))
    {r : Built σ} (hemit : Emits L out k lows s r) (rest : Built σ)
    (hrest : Partial r.set p (k + 1) → Yields L r.set r.pool p rest) :
    Yields L out s p (if r.result = .success then rest else finish L r) := by
  have hbelow := below_key hk hs hlows
  rcases hemit with ⟨hok, hunder, hmembers, hbal⟩ | ⟨herr, hset, hbal, hwhy⟩
  · rw [if_pos hok]
    rw [h.members_eq, ← hbelow] at hmembers
    rcases hrest ⟨hunder, hmembers⟩ with ⟨hok', hwell, hm, hbal'⟩ | ⟨herr', hset', hbal', hwhy'⟩
    · exact Or.inl ⟨hok', hwell, hm, hbal.trans hbal'⟩
    · exact Or.inr ⟨herr', hset', hbal.trans hbal', hwhy'⟩
  · rw [if_neg (Result.ne_success_of_isError herr)]
    have hanchored : r.set.Anchored := by
      rw [hset]
      exact h.under.valid.anchored
    have hback : Balanced L s out.loans r.pool r.set.loans := by
      rw [hset]
      exact hbal
    obtain ⟨hres, hinit, hgone⟩ := finish_of_error herr hanchored hback
    refine Or.inr ⟨hres, hinit, hgone, fun hg => ?_⟩
    have hlong := hwhy hg
    rw [h.members_eq] at hlong
    have hlen := congrArg List.length hbelow
    rw [List.length_append, List.length_map] at hlen
    have hmono := length_below_mono (n := 2 ^ 32) (p := fun v => keyOf v < k + 1 ∧ p v) (q := p)
      fun v hv => hv.2
    omega

end Progress

/-! ## What is chosen -/

/-- A value an operation selects from two sets inside a range. -/
def Chosen (op : WordOp) (a b : Bitmap) (min max v : Nat) : Prop :=
  min ≤ v ∧ v ≤ max ∧ op.Holds (v ∈ a.members) (v ∈ b.members)

instance (op : WordOp) (a b : Bitmap) (min max : Nat) : DecidablePred (Chosen op a b min max) := by
  intro v
  unfold Chosen
  infer_instance

section Parts

variable {set a b : Bitmap} {source : Source} {c : Container} {min max k v : Nat}

theorem not_mem_of_part_none (hv : set.Valid) (h : set.partAt true (keyOf v) = none) :
    v ∉ set.members := by
  rw [← valueOf_keyOf_lowOf v, hv.mem_members_iff true (lowOf_lt v), h]
  rintro ⟨c, hc, -⟩
  cases hc

/-- Nothing of the range is left in a source that shows nothing. -/
theorem Source.Reads.not_mem_of_none (h : source.Reads set min max k) (hv : set.Valid)
    (hc : source.current = none) (hk : k ≤ keyOf v) (hmin : min ≤ v) (hmax : v ≤ max) :
    v ∉ set.members :=
  not_mem_of_part_none hv
    (h.current_none hc _ hk (keyOf_mono hmin) (keyOf_mono hmax))

/-- Nothing lies between where a source stands and what it shows. -/
theorem Source.Reads.not_mem_before (h : source.Reads set min max k) (hv : set.Valid)
    (hc : source.current = some c) (hk : k ≤ keyOf v) (hlt : keyOf v < c.key) : v ∉ set.members :=
  not_mem_of_part_none hv ((h.current_some hc).2.2.2.2 _ hk hlt)

/-- A source that shows nothing up to a key has nothing of the range left there. -/
theorem Source.Reads.not_mem_of_next (h : source.Reads set min max k) (hv : set.Valid) {key : Nat}
    (hnext : ∀ c, source.current = some c → key < c.key) (hk : k ≤ keyOf v) (hle : keyOf v ≤ key)
    (hmin : min ≤ v) (hmax : v ≤ max) : v ∉ set.members := by
  cases hc : source.current with
  | none => exact h.not_mem_of_none hv hc hk hmin hmax
  | some c => exact h.not_mem_before hv hc hk (Nat.lt_of_le_of_lt hle (hnext c hc))

/-- What a source shows is a plain part of the range, with the set's low parts of its key. -/
theorem Source.Reads.shows (h : source.Reads set min max k) (hv : set.Valid)
    (hc : source.current = some c) :
    c.Plain ∧ k ≤ c.key ∧ keyOf min ≤ c.key ∧ c.key ≤ keyOf max ∧
      ∀ i, i < 65536 → (valueOf c.key i ∈ set.members ↔ i ∈ c.lows) := by
  obtain ⟨hp, hmin, hmax, hk, -⟩ := h.current_some hc
  refine ⟨hv.plain_partAt hp, hk, hmin, hmax, fun i hi => ?_⟩
  rw [hv.mem_members_iff true hi, hp]
  simp

theorem mem_within_iff {p : Nat → Prop} (hc : c.Plain) (hmin : keyOf min ≤ c.key)
    (hmax : c.key ≤ keyOf max)
    (hp : ∀ i, i < 65536 → (p (valueOf c.key i) ↔
      min ≤ valueOf c.key i ∧ valueOf c.key i ≤ max ∧ i ∈ c.lows)) (i : Nat) :
    i ∈ c.within (containerBounds c.key min max).1 (containerBounds c.key min max).2 ↔
      i < 65536 ∧ p (valueOf c.key i) := by
  rw [mem_within]
  by_cases hi : i < 65536
  · rw [hp i hi, containerBounds_iff min max hi hmin hmax]
    tauto
  · have hnot : i ∉ c.lows := fun hm => hi (hc.readable.lt_of_mem hm)
    tauto

theorem mem_selected_iff {op : WordOp} {p : Nat → Prop} {xs ys : List Nat} {key : Nat}
    (hmin : keyOf min ≤ key) (hmax : key ≤ keyOf max)
    (hp : ∀ i, i < 65536 → (p (valueOf key i) ↔
      min ≤ valueOf key i ∧ valueOf key i ≤ max ∧ op.Holds (i ∈ xs) (i ∈ ys))) (i : Nat) :
    i ∈ selected op (containerBounds key min max).1 (containerBounds key min max).2 xs ys ↔
      i < 65536 ∧ p (valueOf key i) := by
  rw [selected, mem_below]
  by_cases hi : i < 65536
  · rw [hp i hi, ← and_assoc (a := _ ≤ i), containerBounds_iff min max hi hmin hmax]
    tauto
  · tauto

end Parts

/-! ## The loops -/

section Loops

variable {a b out : Bitmap} {sa sb : Source} {min max k : Nat} {p : Nat → Prop} [DecidablePred p]
  {x : Container}

/-- A part without partner is emitted and the loop goes on. -/
theorem Partial.emit_clip (h : Partial out p k) (hx : x.Plain) (hk : k ≤ x.key)
    (hmin : keyOf min ≤ x.key) (hmax : x.key ≤ keyOf max) (hle : min ≤ max)
    (hgap : ∀ v, v < 2 ^ 32 → k ≤ keyOf v → keyOf v < x.key → ¬ p v)
    (hp : ∀ i, i < 65536 → (p (valueOf x.key i) ↔
      min ≤ valueOf x.key i ∧ valueOf x.key i ≤ max ∧ i ∈ x.lows))
    (rest : Bitmap → σ → Built σ)
    (hrest : ∀ out' s', Partial out' p (x.key + 1) → Yields L out' s' p (rest out' s')) :
    let r := emitClip L out (makeClip x (containerBounds x.key min max).1
      (containerBounds x.key min max).2) s
    Yields L out s p (if r.result = .success then rest r.set r.pool else finish L r) := by
  intro r
  have hpart := h.pass hk hgap
  exact hpart.emit hx.readable.key_lt hx.pairwise_within (mem_within_iff hx hmin hmax hp)
    (emitClip_emits hx hpart.under (containerBounds_le _ hle) containerBounds_lt) _
    (hrest _ _)

/-- What a source shows is emitted where up to that key the values are those of its set alone. -/
theorem Partial.emit_shown (h : Partial out p k) {source : Source} {set : Bitmap}
    (hreads : source.Reads set min max k) (hv : set.Valid) (hx : source.current = some x)
    (hle : min ≤ max)
    (hp : ∀ v, k ≤ keyOf v → keyOf v ≤ x.key → (p v ↔ min ≤ v ∧ v ≤ max ∧ v ∈ set.members))
    (rest : Bitmap → σ → Built σ)
    (hrest : ∀ out' s', Partial out' p (x.key + 1) → Yields L out' s' p (rest out' s')) :
    let r := emitClip L out (makeClip x (containerBounds x.key min max).1
      (containerBounds x.key min max).2) s
    Yields L out s p (if r.result = .success then rest r.set r.pool else finish L r) := by
  obtain ⟨hplain, hkx, hmin, hmax, hmem⟩ := hreads.shows hv hx
  refine h.emit_clip hplain hkx hmin hmax hle (fun v _ hk hlt hpv => ?_) (fun i hi => ?_) rest hrest
  · exact hreads.not_mem_before hv hx hk hlt ((hp v hk (Nat.le_of_lt hlt)).mp hpv).2.2
  · have hkey := keyOf_valueOf x.key hi
    rw [hp _ (by omega) (by omega), hmem i hi]

/-- Two parts of one key are combined and the loop goes on. -/
theorem Partial.emit_pair (op : WordOp) (y : Container) {r : Built σ} (h : Partial out p k)
    (hk : k ≤ x.key)
    (hkey : x.key < 65536) (hmin : keyOf min ≤ x.key) (hmax : x.key ≤ keyOf max)
    (hgap : ∀ v, v < 2 ^ 32 → k ≤ keyOf v → keyOf v < x.key → ¬ p v)
    (hp : ∀ i, i < 65536 → (p (valueOf x.key i) ↔
      min ≤ valueOf x.key i ∧ valueOf x.key i ≤ max ∧ op.Holds (i ∈ x.lows) (i ∈ y.lows)))
    (hemit : out.Under x.key → Emits L out x.key (selected op
      (containerBounds x.key min max).1 (containerBounds x.key min max).2 x.lows y.lows) s r)
    (rest : Bitmap → σ → Built σ)
    (hrest : ∀ out' s', Partial out' p (x.key + 1) → Yields L out' s' p (rest out' s')) :
    Yields L out s p (if r.result = .success then rest r.set r.pool else finish L r) := by
  have hpart := h.pass hk hgap
  exact hpart.emit hkey (pairwise_below _ _) (mem_selected_iff hmin hmax hp) (hemit hpart.under) _
    (hrest _ _)

/-- The loop of and: what is left of both sources shrinks, and what lies behind them is built. -/
theorem andLoop_yields (ha : a.Valid) (hb : b.Valid) (hle : min ≤ max) :
    ∀ (steps : Nat) {out : Bitmap} {sa sb : Source} {s : σ} {k : Nat}, sa.left + sb.left < steps →
      sa.Reads a min max k → sb.Reads b min max k → Partial out (Chosen .and a b min max) k →
      Yields L out s (Chosen .and a b min max) (andLoop L min max steps out sa sb s) := by
  intro steps
  induction steps with
  | zero =>
      intro out sa sb s k hsteps
      exact absurd hsteps (Nat.not_lt_zero _)
  | succ steps ih =>
      intro out sa sb s k hsteps hsa hsb hpart
      unfold andLoop
      cases hx : sa.current with
      | none =>
          simp only
          exact hpart.done fun v _ hk hv => hsa.not_mem_of_none ha hx hk hv.1 hv.2.1 hv.2.2.1
      | some x =>
          cases hy : sb.current with
          | none =>
              simp only
              exact hpart.done fun v _ hk hv => hsb.not_mem_of_none hb hy hk hv.1 hv.2.1 hv.2.2.2
          | some y =>
              obtain ⟨hxp, hkx, hxmin, hxmax, hxm⟩ := hsa.shows ha hx
              obtain ⟨hyp, hky, hymin, hymax, hym⟩ := hsb.shows hb hy
              obtain ⟨hsa', hlefta⟩ := hsa.advance hx
              obtain ⟨hsb', hleftb⟩ := hsb.advance hy
              simp only
              by_cases hlt : x.key < y.key
              · -- the second set has nothing of this key
                rw [if_pos hlt]
                refine ih (by omega) hsa' (hsb.pass (by omega) fun c hc => ?_)
                  (hpart.pass (by omega) fun v _ hk hkv hv => ?_)
                · rw [hy, Option.some.injEq] at hc
                  rw [← hc]
                  exact hlt
                · exact hsb.not_mem_before hb hy hk (by omega) hv.2.2.2
              rw [if_neg hlt]
              by_cases hgt : y.key < x.key
              · rw [if_pos hgt]
                refine ih (by omega) (hsa.pass (by omega) fun c hc => ?_) hsb'
                  (hpart.pass (by omega) fun v _ hk hkv hv => ?_)
                · rw [hx, Option.some.injEq] at hc
                  rw [← hc]
                  exact hgt
                · exact hsa.not_mem_before ha hx hk (by omega) hv.2.2.1
              rw [if_neg hgt]
              have hkey : y.key = x.key := by omega
              rw [hkey] at hsb' hym
              refine hpart.emit_pair .and y hkx hxp.readable.key_lt hxmin hxmax
                (fun v _ hk hkv hv => hsa.not_mem_before ha hx hk hkv hv.2.2.1)
                (fun i hi => ?_)
                (fun hunder => andKey_emits hxp hyp hkey hunder (containerBounds_le _ hle)
                  containerBounds_lt)
                (fun out' s' => andLoop L min max steps out' sa.advance sb.advance s')
                (fun out' s' hpart' => ih (by omega) hsa' hsb' hpart')
              rw [Chosen, propext (hxm i hi), propext (hym i hi)]

/-- Where the second set has nothing, or chooses what the first one has. -/
theorem chosen_or_left {v : Nat} (h : min ≤ v → v ≤ max → v ∉ b.members) :
    Chosen .or a b min max v ↔ min ≤ v ∧ v ≤ max ∧ v ∈ a.members := by
  simp only [Chosen, WordOp.Holds]
  tauto

/-- Where the first set has nothing, or chooses what the second one has. -/
theorem chosen_or_right {v : Nat} (h : min ≤ v → v ≤ max → v ∉ a.members) :
    Chosen .or a b min max v ↔ min ≤ v ∧ v ≤ max ∧ v ∈ b.members := by
  simp only [Chosen, WordOp.Holds]
  tauto

/-- The loop of or: a key either source shows is emitted, alone or with its partner. -/
theorem orLoop_yields (ha : a.Valid) (hb : b.Valid) (hle : min ≤ max) :
    ∀ (steps : Nat) {out : Bitmap} {sa sb : Source} {s : σ} {k : Nat}, sa.left + sb.left < steps →
      sa.Reads a min max k → sb.Reads b min max k → Partial out (Chosen .or a b min max) k →
      Yields L out s (Chosen .or a b min max) (orLoop L min max steps out sa sb s) := by
  intro steps
  induction steps with
  | zero =>
      intro out sa sb s k hsteps
      exact absurd hsteps (Nat.not_lt_zero _)
  | succ steps ih =>
      intro out sa sb s k hsteps hsa hsb hpart
      -- a key only the first source has, the second one's next key lying behind it
      have honlyA : ∀ {x : Container}, sa.current = some x →
          (∀ c, sb.current = some c → x.key < c.key) →
          let r := emitClip L out (makeClip x (containerBounds x.key min max).1
            (containerBounds x.key min max).2) s
          Yields L out s (Chosen .or a b min max)
            (if r.result = .success then orLoop L min max steps r.set sa.advance sb r.pool
            else finish L r) := by
        intro x hx hnext
        have hkx := (hsa.shows ha hx).2.1
        obtain ⟨hsa', hleft⟩ := hsa.advance hx
        exact hpart.emit_shown hsa ha hx hle
          (fun v hk hkv => chosen_or_left (hsb.not_mem_of_next hb hnext hk hkv))
          (fun out' s' => orLoop L min max steps out' sa.advance sb s')
          (fun out' s' hpart' => ih (by omega) hsa' (hsb.pass (by omega) hnext) hpart')
      have honlyB : ∀ {y : Container}, sb.current = some y →
          (∀ c, sa.current = some c → y.key < c.key) →
          let r := emitClip L out (makeClip y (containerBounds y.key min max).1
            (containerBounds y.key min max).2) s
          Yields L out s (Chosen .or a b min max)
            (if r.result = .success then orLoop L min max steps r.set sa sb.advance r.pool
            else finish L r) := by
        intro y hy hnext
        have hky := (hsb.shows hb hy).2.1
        obtain ⟨hsb', hleft⟩ := hsb.advance hy
        exact hpart.emit_shown hsb hb hy hle
          (fun v hk hkv => chosen_or_right (hsa.not_mem_of_next ha hnext hk hkv))
          (fun out' s' => orLoop L min max steps out' sa sb.advance s')
          (fun out' s' hpart' => ih (by omega) (hsa.pass (by omega) hnext) hsb' hpart')
      unfold orLoop
      cases hx : sa.current with
      | none =>
          cases hy : sb.current with
          | none =>
              simp only
              refine hpart.done fun v _ hk hv => ?_
              rcases hv.2.2 with hva | hvb
              · exact hsa.not_mem_of_none ha hx hk hv.1 hv.2.1 hva
              · exact hsb.not_mem_of_none hb hy hk hv.1 hv.2.1 hvb
          | some y => exact honlyB hy (fun c hc => by rw [hx] at hc; cases hc)
      | some x =>
          cases hy : sb.current with
          | none => exact honlyA hx (fun c hc => by rw [hy] at hc; cases hc)
          | some y =>
              simp only
              by_cases hlt : x.key < y.key
              · rw [if_pos hlt]
                refine honlyA hx (fun c hc => ?_)
                rw [hy, Option.some.injEq] at hc
                rwa [← hc]
              rw [if_neg hlt]
              by_cases hgt : y.key < x.key
              · rw [if_pos hgt]
                refine honlyB hy (fun c hc => ?_)
                rw [hx, Option.some.injEq] at hc
                rwa [← hc]
              rw [if_neg hgt]
              obtain ⟨hxp, hkx, hxmin, hxmax, hxm⟩ := hsa.shows ha hx
              obtain ⟨hyp, hky, hymin, hymax, hym⟩ := hsb.shows hb hy
              obtain ⟨hsa', hlefta⟩ := hsa.advance hx
              obtain ⟨hsb', hleftb⟩ := hsb.advance hy
              have hkey : y.key = x.key := by omega
              rw [hkey] at hsb' hym
              refine hpart.emit_pair .or y hkx hxp.readable.key_lt hxmin hxmax
                (fun v _ hk hkv hv => ?_) (fun i hi => ?_)
                (fun hunder => orKey_emits hxp hyp hkey hunder (containerBounds_le _ hle)
                  containerBounds_lt)
                (fun out' s' => orLoop L min max steps out' sa.advance sb.advance s')
                (fun out' s' hpart' => ih (by omega) hsa' hsb' hpart')
              · rcases hv.2.2 with hva | hvb
                · exact hsa.not_mem_before ha hx hk hkv hva
                · exact hsb.not_mem_before hb hy hk (by omega) hvb
              · rw [Chosen, propext (hxm i hi), propext (hym i hi)]

/-- The loop of andnot: the second source is brought to each key of the first; it may stand on the
key before. -/
theorem andnotLoop_yields (ha : a.Valid) (hb : b.Valid) (hle : min ≤ max) :
    ∀ (steps : Nat) {out : Bitmap} {sa sb : Source} {s : σ} {k j : Nat}, sa.left < steps →
      sa.Reads a min max k → j ≤ k → sb.Reads b min max j →
      Partial out (Chosen .andnot a b min max) k →
      Yields L out s (Chosen .andnot a b min max)
        (andnotLoop L min max steps out sa sb s) := by
  intro steps
  induction steps with
  | zero =>
      intro out sa sb s k j hsteps
      exact absurd hsteps (Nat.not_lt_zero _)
  | succ steps ih =>
      intro out sa sb s k j hsteps hsa hj hsb hpart
      unfold andnotLoop
      cases hx : sa.current with
      | none =>
          simp only
          exact hpart.done fun v _ hk hv => hsa.not_mem_of_none ha hx hk hv.1 hv.2.1 hv.2.2.1
      | some x =>
          obtain ⟨hxp, hkx, hxmin, hxmax, hxm⟩ := hsa.shows ha hx
          obtain ⟨hsa', hlefta⟩ := hsa.advance hx
          have hseek := hsb.seek (Nat.le_trans hj hkx)
          have hgap : ∀ v, v < 2 ^ 32 → k ≤ keyOf v → keyOf v < x.key →
              ¬ Chosen .andnot a b min max v :=
            fun v _ hk hkv hv => hsa.not_mem_before ha hx hk hkv hv.2.2.1
          simp only
          set sb' := sourceSeek sb x.key false
          -- without a partner the part is emitted as it is
          have halone : (∀ c, sb'.current = some c → c.key ≠ x.key) →
              let r := emitClip L out (makeClip x (containerBounds x.key min max).1
                (containerBounds x.key min max).2) s
              Yields L out s (Chosen .andnot a b min max)
                (if r.result = .success then andnotLoop L min max steps r.set sa.advance sb' r.pool
                else finish L r) := by
            intro hne
            refine hpart.emit_clip hxp hkx hxmin hxmax hle hgap (fun i hi => ?_)
              (fun out' s' => andnotLoop L min max steps out' sa.advance sb' s')
              (fun out' s' hpart' => ih (by omega) hsa' (by omega) hseek hpart')
            have hnot : valueOf x.key i ∉ b.members := by
              refine not_mem_of_part_none hb ?_
              rw [keyOf_valueOf x.key hi]
              exact hseek.part_of_ne hxmin hxmax hne
            simp only [Chosen, WordOp.Holds]
            rw [hxm i hi]
            tauto
          cases hy : sb'.current with
          | none => exact halone (fun c hc => by rw [hy] at hc; cases hc)
          | some y =>
              simp only
              by_cases hkey : y.key ≠ x.key
              · rw [if_pos hkey]
                refine halone (fun c hc => ?_)
                rw [hy, Option.some.injEq] at hc
                rwa [← hc]
              rw [if_neg hkey]
              rw [ne_eq, not_not] at hkey
              obtain ⟨hyp, hky, hymin, hymax, hym⟩ := hseek.shows hb hy
              rw [hkey] at hym
              -- the second source stays on the key
              refine hpart.emit_pair .andnot y hkx hxp.readable.key_lt hxmin hxmax hgap
                (fun i hi => ?_)
                (fun hunder => andnotKey_emits hxp hyp hunder (containerBounds_le _ hle)
                  containerBounds_lt)
                (fun out' s' => andnotLoop L min max steps out' sa.advance sb' s')
                (fun out' s' hpart' => ih (by omega) hsa' (by omega) hseek hpart')
              rw [Chosen, propext (hxm i hi), propext (hym i hi)]

/-- The loop of a range copied out. -/
theorem copyLoop_yields (ha : a.Valid) (hle : min ≤ max)
    (hp : ∀ v, p v ↔ min ≤ v ∧ v ≤ max ∧ v ∈ a.members) :
    ∀ (steps : Nat) {out : Bitmap} {source : Source} {s : σ} {k : Nat}, source.left < steps →
      source.Reads a min max k → Partial out p k →
      Yields L out s p (copyLoop L min max steps out source s) := by
  intro steps
  induction steps with
  | zero =>
      intro out source s k hsteps
      exact absurd hsteps (Nat.not_lt_zero _)
  | succ steps ih =>
      intro out source s k hsteps hsource hpart
      unfold copyLoop
      cases hx : source.current with
      | none =>
          simp only
          refine hpart.done fun v _ hk hv => ?_
          obtain ⟨hmin, hmax, hm⟩ := (hp v).mp hv
          exact hsource.not_mem_of_none ha hx hk hmin hmax hm
      | some x =>
          obtain ⟨hsource', hleft⟩ := hsource.advance hx
          exact hpart.emit_shown hsource ha hx hle (fun v _ _ => hp v)
            (fun out' s' => copyLoop L min max steps out' source.advance s')
            (fun out' s' hpart' => ih (by omega) hsource' hpart')

end Loops

end Arnm.Roaring
