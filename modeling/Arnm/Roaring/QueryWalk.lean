import Arnm.Roaring.QueryKey
import Arnm.Roaring.Source

set_option autoImplicit false

/-! # Several sets walked key by key

A query's sets are walked together, in one direction. `queryWalkNext` finds the next key that can
hold a match and gathers its parts; the walk stands at a frontier (`Walks`), and the matches ahead
of the frontier (`Query.todo`) are those of the key returned followed by those behind it.
-/

namespace Arnm.Roaring

open Listing

/-! ## The model -/

structure Query where
  all : Option (List (Option Bitmap))
  allCount : Nat
  any : Option (List (Option Bitmap))
  anyCount : Nat
  none : Option (List (Option Bitmap))
  noneCount : Nat
  min : Nat
  max : Nat

namespace Query

/-- `all[0]` to `all[all_count - 1]` -/
def allSets (query : Query) : List (Option Bitmap) := (query.all.getD []).take query.allCount

def anySets (query : Query) : List (Option Bitmap) := (query.any.getD []).take query.anyCount

def noneSets (query : Query) : List (Option Bitmap) := (query.none.getD []).take query.noneCount

end Query

/-- Where each set of the query stands; `key` is the key last returned, if there is one. -/
structure QueryWalk where
  all : List Source
  any : List Source
  none : List Source
  min : Nat
  max : Nat
  descending : Bool
  narrow : Bool
  key : Option Nat

def queryWalkBegin (query : Query) (descending narrow : Bool) : QueryWalk where
  all := query.allSets.map (fun set => Source.start set query.min query.max descending false)
  any := query.anySets.map (fun set => Source.start set query.min query.max descending false)
  none := query.noneSets.map (fun set => Source.start set query.min query.max descending false)
  min := query.min
  max := query.max
  descending := descending
  narrow := narrow
  key := Option.none

/-- Is `key` ahead of `other` in walking order? -/
def keyBefore (key other : Nat) (descending : Bool) : Bool := decide (Before descending key other)

/-- Moves `source` forward until its key is at or past `key`; a set has at most `0x10000` keys. -/
def sourceSeekLoop (key : Nat) (descending : Bool) : Nat → Source → Source
  | 0, source => source
  | fuel + 1, source =>
      match source.current with
      | none => source
      | some c =>
          if keyBefore c.key key descending then sourceSeekLoop key descending fuel source.advance
          else source

def sourceSeek (source : Source) (key : Nat) (descending : Bool) : Source :=
  sourceSeekLoop key descending 0x10000 source

/-- A source that gave to `key` moves on. -/
def moveOn (key : Nat) (source : Source) : Source :=
  match source.current with
  | none => source
  | some c => if c.key = key then source.advance else source

/-- The start of a round: the sources that gave to the key before move on. -/
def walkMoveOn (walk : QueryWalk) : QueryWalk :=
  match walk.key with
  | none => walk
  | some key =>
      { walk with all := walk.all.map (moveOn key), any := walk.any.map (moveOn key), key := none }

/-- One pass over the sources of `all`: each is pulled up to the key, which moves with the one
furthest along. `none` once a source has nothing left. -/
def alignPass (descending : Bool) :
    List Source → Nat → Bool → Option (List Source × Nat × Bool)
  | [], key, aligned => some ([], key, aligned)
  | source :: sources, key, aligned =>
      let source := sourceSeek source key descending
      match source.current with
      | none => none
      | some c =>
          let moved := decide (c.key ≠ key)
          (alignPass descending sources (if moved then c.key else key) (aligned && !moved)).map
            (fun r => (source :: r.1, r.2))

/-- Passes until every source of `all` stands on the key; each pass that moves it takes it on. -/
def alignLoop (descending : Bool) : Nat → List Source → Nat → Option (List Source × Nat)
  | 0, _, _ => none
  | fuel + 1, sources, key =>
      match alignPass descending sources key true with
      | none => none
      | some (sources, key, true) => some (sources, key)
      | some (sources, key, false) => alignLoop descending fuel sources key

/-- The next key a source of `any` stands on. -/
def anyKey (descending : Bool) (sources : List Source) : Option Nat :=
  match sources.filterMap (fun source => source.current.map Container.key) with
  | [] => none
  | key :: keys => some (Merge.pick descending key keys)

/-- The next key that can hold a match: the next one every set of `all` has, or without these the
next one of `any`. -/
def walkNextKey (walk : QueryWalk) : Option (QueryWalk × Nat) :=
  match walk.all with
  | [] => (anyKey walk.descending walk.any).map (fun key => (walk, key))
  | source :: _ =>
      match source.current with
      | none => none
      | some c =>
          (alignLoop walk.descending 0x10001 walk.all c.key).map
            (fun r => ({ walk with all := r.1 }, r.2))

/-- `c == &set->containers[set->count - 1]` for the container the source stands on. -/
def Source.onLast (source : Source) : Bool :=
  match source.set with
  | none => false
  | some set =>
      decide ((if source.descending then source.position - 1 else source.position) = set.count - 1)

/-- The lowest and highest low part a container can hold, as far as it is known without a scan. -/
def partReach (source : Source) (c : Container) : Nat × Nat :=
  match c.content with
  | .array values => (values.getD 0 0, values.getD (c.cardinality - 1) 0)
  | .wide values => (lowOf (values.getD 0 0), lowOf (values.getD (c.cardinality - 1) 0))
  | .bitmap _ =>
      (0, if source.onLast then lowOf ((source.set.map Bitmap.maximum).getD 0) else 0xffff)

/-- The sources that stand on `key`, with their containers. -/
def partsAt (key : Nat) (sources : List Source) : List (Source × Container) :=
  sources.filterMap (fun source =>
    (source.current.filter (fun c => decide (c.key = key))).map (fun c => (source, c)))

/-- The range of a key: what `[min, max]` leaves of it and, in a walk that narrows, what its parts
reach -- the narrowest reach in `all`, the widest in `any`. -/
def keyRange (walk : QueryWalk) (key : Nat) (all any : List (Source × Container)) : Nat × Nat :=
  let bounds := containerBounds key walk.min walk.max
  if walk.narrow then
    let bottom := all.foldl (fun m p => max m (partReach p.1 p.2).1) 0
    let top := all.foldl (fun m p => min m (partReach p.1 p.2).2) 0xffff
    let anyBottom := any.foldl (fun m p => min m (partReach p.1 p.2).1) 0xffff
    let anyTop := any.foldl (fun m p => max m (partReach p.1 p.2).2) 0
    let bottom := if walk.any = [] then bottom else max bottom anyBottom
    let top := if walk.any = [] then top else min top anyTop
    (max bounds.1 bottom, min bounds.2 top)
  else bounds

/-- Pulls the sources of `any` and `none` up to the key and gathers its parts. -/
def walkGather (walk : QueryWalk) (key : Nat) : QueryKey × QueryWalk :=
  let any := walk.any.map (fun source => sourceSeek source key walk.descending)
  let none := walk.none.map (fun source => sourceSeek source key walk.descending)
  let allParts := partsAt key walk.all
  let anyParts := partsAt key any
  let range := keyRange walk key allParts anyParts
  (⟨allParts.map Prod.snd, anyParts.map Prod.snd, (partsAt key none).map Prod.snd, key, range.1,
      range.2⟩,
    { walk with any := any, none := none, key := some key })

/-- Gathers the parts of the next key that can hold a match; `none` once the range is done. Every
round takes a key, so `fuel` bounds the rounds by the keys. -/
def queryWalkLoop : Nat → QueryWalk → Option (QueryKey × QueryWalk)
  | 0, _ => none
  | fuel + 1, walk =>
      match walkNextKey (walkMoveOn walk) with
      | none => none
      | some (walk, key) =>
          let r := walkGather walk key
          if walk.any ≠ [] ∧ r.1.any = [] then queryWalkLoop fuel r.2
          else if r.1.low ≤ r.1.high then some r
          else queryWalkLoop fuel r.2

def queryWalkNext (walk : QueryWalk) : Option (QueryKey × QueryWalk) := queryWalkLoop 0x10001 walk

/-! ## One source of the walk -/

namespace Source

/-- The source reads `set` in place, inside the keys of `[min, max]`. -/
structure Of (source : Source) (set : Option Bitmap) (min max : Nat) (d : Bool) : Prop where
  set_eq : source.set = set
  minKey_eq : source.minKey = keyOf min
  maxKey_eq : source.maxKey = keyOf max
  descending_eq : source.descending = d
  buffered_eq : source.buffered = false

/-- The source has handed out nothing that is ahead of the frontier. -/
def Lag (source : Source) (frontier : Nat) : Prop :=
  ∃ f, source.Stands f ∧ ∀ k, Ahead source.descending frontier k → Ahead source.descending f k

/-- And what it shows is ahead of the frontier. -/
def Exact (source : Source) (frontier : Nat) : Prop :=
  source.Lag frontier ∧ ∀ c, source.current = some c → Ahead source.descending frontier c.key

variable {source : Source} {set : Option Bitmap} {min max : Nat} {d : Bool} {f f' k : Nat}

theorem Lag.mono (h : source.Lag f)
    (hm : ∀ k, Ahead source.descending f' k → Ahead source.descending f k) : source.Lag f' := by
  obtain ⟨g, hg, hl⟩ := h
  exact ⟨g, hg, fun k hk => hl k (hm k hk)⟩

theorem Of.partAt_eq (h : source.Of set min max d) (k : Nat) : source.partAt k = partIn set k := by
  rw [Source.partAt, h.set_eq, h.buffered_eq]
  rfl

theorem Of.advance (h : source.Of set min max d) : source.advance.Of set min max d := by
  obtain ⟨h1, h2, h3, h4, h5⟩ := advance_fields source
  exact ⟨h1.trans h.set_eq, h2.trans h.minKey_eq, h3.trans h.maxKey_eq, h4.trans h.descending_eq,
    h5.trans h.buffered_eq⟩

theorem of_start (set : Option Bitmap) (min max : Nat) (d : Bool) :
    (start set min max d false).Of set min max d := by
  obtain ⟨h1, h2, h3, h4, h5⟩ := start_fields set min max d false
  exact ⟨h1, h2, h3, h4, h5⟩

/-- The frontier a walk over `[min, max]` starts at. -/
def first (min max : Nat) (d : Bool) : Nat := if d then keyOf max + 1 else keyOf min

theorem exact_start (hv : ∀ s ∈ set, s.Valid) (min max : Nat) (d : Bool) :
    (start set min max d false).Exact (first min max d) := by
  have h := stands_start hv min max d false
  exact ⟨⟨_, h, fun k hk => hk⟩, fun c hc => (h.current_some hc).2.2.2.1⟩

/-- What a source shows at or behind a frontier is the set's next part there. -/
theorem Exact.current_some (h : source.Exact f) (hof : source.Of set min max d) {c : Container}
    (hc : source.current = some c) :
    partIn set c.key = some c ∧ keyOf min ≤ c.key ∧ c.key ≤ keyOf max ∧ Ahead d f c.key ∧
      ∀ k, Ahead d f k → Before d k c.key → partIn set k = none := by
  obtain ⟨⟨g, hg, hl⟩, ha⟩ := h
  obtain ⟨h1, h2, h3, -, h5⟩ := hg.current_some hc
  have ha := ha c hc
  rw [hof.descending_eq] at ha hl h5
  rw [hof.partAt_eq] at h1
  rw [hof.minKey_eq] at h2
  rw [hof.maxKey_eq] at h3
  exact ⟨h1, h2, h3, ha, fun k hk hb => by rw [← hof.partAt_eq]; exact h5 k (hl k hk) hb⟩

theorem Lag.current_none (h : source.Lag f) (hof : source.Of set min max d)
    (hc : source.current = none) :
    ∀ k, keyOf min ≤ k → k ≤ keyOf max → Ahead d f k → partIn set k = none := by
  obtain ⟨g, hg, hl⟩ := h
  intro k h1 h2 hk
  rw [hof.descending_eq] at hl
  rw [← hof.partAt_eq]
  refine hg.current_none hc k (by rw [hof.minKey_eq]; exact h1) (by rw [hof.maxKey_eq]; exact h2) ?_
  rw [hof.descending_eq]
  exact hl k hk

/-- A source pulled up to a key shows the set's part of that key, if there is one. -/
theorem Exact.filter_current (h : source.Exact (upTo d k)) (hof : source.Of set min max d)
    (h1 : keyOf min ≤ k) (h2 : k ≤ keyOf max) :
    source.current.filter (fun c => decide (c.key = k)) = partIn set k := by
  have hk : Ahead d (upTo d k) k := ahead_upTo.mpr (Before.irrefl d k)
  cases hc : source.current with
  | none => rw [h.1.current_none hof hc k h1 h2 hk]; rfl
  | some c =>
      obtain ⟨hp, -, -, ha, hbetween⟩ := h.current_some hof hc
      by_cases hck : c.key = k
      · rw [hck] at hp
        rw [hp, Option.filter_some, if_pos (by simpa using hck)]
      · have hb : Before d k c.key := by
          rcases before_or_eq_or_before d k c.key with hb | rfl | hb
          · exact hb
          · exact absurd rfl hck
          · exact absurd hb (ahead_upTo.mp ha)
        rw [hbetween k hk hb, Option.filter_some, if_neg (by simpa using hck)]

end Source

open Source

variable {source : Source} {set : Option Bitmap} {min max : Nat} {d : Bool} {f f' k : Nat}

theorem Lag.key_lt (h : source.Lag f) {c : Container} (hc : source.current = some c) :
    c.key < 0x10000 := by
  obtain ⟨g, hg, -⟩ := h
  exact (hg.readable (hg.current_some hc).1).1.key_lt

/-- Seeking keeps what advancing keeps. -/
theorem sourceSeekLoop_keeps {P : Source → Prop} (h : ∀ source, P source → P source.advance)
    (fuel : Nat) (hs : P source) : P (sourceSeekLoop k d fuel source) := by
  induction fuel generalizing source with
  | zero => exact hs
  | succ fuel ih =>
      rw [sourceSeekLoop]
      cases hc : source.current with
      | none => exact hs
      | some c =>
          simp only
          split
          · exact ih (h source hs)
          · exact hs

/-- Seeking pulls a source up to the key. -/
theorem sourceSeekLoop_exact :
    ∀ (fuel : Nat) {source : Source} {g : Nat}, source.descending = d → source.Stands g →
      (∀ j, Ahead d (upTo d k) j → Ahead d g j) → distance d 0x10000 g ≤ fuel →
      (sourceSeekLoop k d fuel source).Exact (upTo d k) := by
  intro fuel
  induction fuel with
  | zero =>
      intro source g hd hs hg hf
      rw [sourceSeekLoop]
      refine ⟨⟨g, hs, by rw [hd]; exact hg⟩, fun c hc => ?_⟩
      obtain ⟨hp, -, -, ha, -⟩ := hs.current_some hc
      rw [hd] at ha
      exact absurd ha (not_ahead_of_distance (by omega) (hs.readable hp).1.key_lt)
  | succ fuel ih =>
      intro source g hd hs hg hf
      rw [sourceSeekLoop]
      cases hc : source.current with
      | none =>
          simp only
          exact ⟨⟨g, hs, by rw [hd]; exact hg⟩, fun c hc' => by rw [hc] at hc'; cases hc'⟩
      | some c =>
          simp only [keyBefore, decide_eq_true_eq]
          obtain ⟨hp, -, -, ha, -⟩ := hs.current_some hc
          rw [hd] at ha
          by_cases hb : Before d c.key k
          · rw [if_pos hb]
            have hadv := stands_advance hs hc
            rw [hd] at hadv
            -- each advance takes the frontier a key closer, so the fuel lasts
            have hlt := distance_past_lt ha (hs.readable hp).1.key_lt
            refine ih ((advance_fields source).2.2.2.1.trans hd) hadv (fun j hj => ?_) (by omega)
            rw [ahead_past]
            rcases before_or_eq_or_before d j k with hj' | rfl | hj'
            · exact absurd hj' (ahead_upTo.mp hj)
            · exact hb
            · exact hb.trans hj'
          · rw [if_neg hb]
            refine ⟨⟨g, hs, by rw [hd]; exact hg⟩, fun c' hc' => ?_⟩
            rw [hc] at hc'
            cases hc'
            rw [hd]
            exact ahead_upTo.mpr hb

theorem sourceSeek_spec (hof : source.Of set min max d) (hl : source.Lag f)
    (hf : ∀ j, Ahead d (upTo d k) j → Ahead d f j) :
    (sourceSeek source k d).Of set min max d ∧ (sourceSeek source k d).Exact (upTo d k) := by
  obtain ⟨g, hg, hm⟩ := hl
  rw [hof.descending_eq] at hm
  exact ⟨sourceSeekLoop_keeps (P := fun source => source.Of set min max d)
      (fun _ h => h.advance) _ hof,
    sourceSeekLoop_exact _ hof.descending_eq hg (fun j hj => hm j (hf j hj)) (distance_le d _ g)⟩

/-- A source that was pulled up to a key moves behind it. -/
theorem moveOn_spec (hof : source.Of set min max d) (h : source.Exact (upTo d k)) :
    (moveOn k source).Of set min max d ∧ (moveOn k source).Exact (past d k) := by
  obtain ⟨⟨g, hs, hl⟩, ha⟩ := h
  rw [hof.descending_eq] at hl ha
  have hmono : ∀ j, Ahead d (past d k) j → Ahead d g j := by
    intro j hj
    refine hl j (ahead_upTo.mpr ?_)
    exact (ahead_past.mp hj).asymm
  unfold moveOn
  cases hc : source.current with
  | none =>
      simp only
      exact ⟨hof, ⟨g, hs, by rw [hof.descending_eq]; exact hmono⟩,
        fun c hc' => by rw [hc] at hc'; cases hc'⟩
  | some c =>
      simp only
      by_cases hk : c.key = k
      · rw [if_pos hk]
        have hadv := stands_advance hs hc
        rw [hof.descending_eq, hk] at hadv
        have hd := hof.advance.descending_eq
        refine ⟨hof.advance, ⟨_, hadv, fun j hj => by rw [hd] at hj ⊢; exact hj⟩, fun c' hc' => ?_⟩
        have := (hadv.current_some hc').2.2.2.1
        exact this
      · rw [if_neg hk]
        refine ⟨hof, ⟨g, hs, by rw [hof.descending_eq]; exact hmono⟩, fun c' hc' => ?_⟩
        rw [hc] at hc'
        cases hc'
        rw [hof.descending_eq, ahead_past]
        rcases before_or_eq_or_before d k c.key with hb | rfl | hb
        · exact hb
        · exact absurd rfl hk
        · exact absurd hb (ahead_upTo.mp (ha c hc))

/-! ## Aligning the sources of `all` -/

/-- Some set of the list has nothing of this key. -/
def Misses (sets : List (Option Bitmap)) (key : Nat) : Prop := ∃ set ∈ sets, partIn set key = none

theorem distance_upTo_lt {a b n : Nat} (h : Before d a b) (ha : a < n) (hb : b < n) :
    distance d n (upTo d b) < distance d n (upTo d a) := by
  cases d <;> simp [distance, upTo] at * <;> omega

/-- What a source passes over and what the later ones miss behind it, the sets miss together. -/
theorem misses_cons {set : Option Bitmap} {sets : List (Option Bitmap)} {key : Nat} {P : Nat → Prop}
    (hskip : ∀ j, Ahead d (upTo d k) j → Before d j key → partIn set j = none)
    (hrest : ∀ j, Ahead d (upTo d key) j → P j → Misses sets j) :
    ∀ j, Ahead d (upTo d k) j → P j → Misses (set :: sets) j := by
  intro j hj hp
  by_cases hb : Before d j key
  · exact ⟨set, List.mem_cons_self, hskip j hj hb⟩
  · obtain ⟨s, hs, hn⟩ := hrest j (ahead_upTo.mpr hb) hp
    exact ⟨s, List.mem_cons_of_mem _ hs, hn⟩

/-- What a pass over the sources of `all` comes to, begun at the key `k` and ended at `k'`. -/
structure Passed (d : Bool) (min max k : Nat) (aligned : Bool) (sets : List (Option Bitmap))
    (sources : List Source) (k' : Nat) (aligned' : Bool) : Prop where
  lag : List.Forall₂ (fun s set => Of s set min max d ∧ s.Lag (upTo d k')) sources sets
  key_lt : k' < 0x10000
  ahead : Ahead d (upTo d k) k'
  missed : ∀ j, Ahead d (upTo d k) j → Before d j k' → Misses sets j
  standing : aligned' = true → aligned = true ∧ k' = k ∧
    ∀ s ∈ sources, s.Exact (upTo d k) ∧ ∃ c, s.current = some c ∧ c.key = k
  moved : aligned' = false → aligned = false ∨ Before d k k'

theorem Passed.nil {aligned : Bool} (hk : k < 0x10000) :
    Passed d min max k aligned [] [] k aligned where
  lag := .nil
  key_lt := hk
  ahead := ahead_upTo.mpr (Before.irrefl d k)
  missed := fun _ hj hb => absurd hb (ahead_upTo.mp hj)
  standing := fun ha => ⟨ha, rfl, by simp⟩
  moved := Or.inl

/-- The pass goes on with the key its first source shows. -/
theorem Passed.cons {aligned aligned' : Bool} {sets : List (Option Bitmap)} {sources : List Source}
    {k' : Nat} {c : Container} (hof : source.Of set min max d) (hex : source.Exact (upTo d k))
    (hc : source.current = some c)
    (h : Passed d min max c.key (aligned && !decide (c.key ≠ k)) sets sources k' aligned') :
    Passed d min max k aligned (set :: sets) (source :: sources) k' aligned' := by
  obtain ⟨-, -, -, hac, hbetween⟩ := hex.current_some hof hc
  have hmono : ∀ j, Ahead d (upTo d c.key) j → Ahead d (upTo d k) j := fun j hj => hac.of_upTo hj
  refine ⟨.cons ⟨hof, hex.1.mono ?_⟩ h.lag, h.key_lt, hmono k' h.ahead,
    misses_cons hbetween h.missed, fun ha => ?_, fun ha => ?_⟩
  · rw [hof.descending_eq]
    exact fun j hj => hmono j (h.ahead.of_upTo hj)
  · obtain ⟨haligned, hkey, hstands⟩ := h.standing ha
    simp only [Bool.and_eq_true, Bool.not_eq_true', decide_eq_false_iff_not, not_not] at haligned
    obtain ⟨haligned, hck⟩ := haligned
    rw [hck] at hkey hstands
    refine ⟨haligned, hkey, fun s hs => ?_⟩
    rcases List.mem_cons.mp hs with rfl | hs
    · exact ⟨hex, c, hc, hck⟩
    · exact hstands s hs
  · by_cases hck : c.key = k
    · have hmoved := h.moved ha
      rw [hck] at hmoved
      simpa using hmoved
    · exact Or.inr ((Before.of_ahead hac hck).trans_ahead h.ahead)

/-- A pass ends where a source has nothing left, and then every further key is missed by some set;
or it has brought all sources to the key the last of them shows. -/
theorem alignPass_spec :
    ∀ {sources : List Source} {sets : List (Option Bitmap)} {k : Nat} (aligned : Bool),
      List.Forall₂ (fun s set => Of s set min max d ∧ s.Lag (upTo d k)) sources sets → k < 0x10000 →
      match alignPass d sources k aligned with
      | none => ∀ j, keyOf min ≤ j → j ≤ keyOf max → Ahead d (upTo d k) j → Misses sets j
      | some (sources', k', aligned') => Passed d min max k aligned sets sources' k' aligned' := by
  intro sources
  induction sources with
  | nil =>
      intro sets k aligned h hk
      cases h
      exact Passed.nil hk
  | cons source sources ih =>
      intro sets k aligned h hk
      cases h with
      | cons hhead htail =>
          rename_i set sets
          obtain ⟨hof, hex⟩ := sourceSeek_spec (k := k) hhead.1 hhead.2 (fun j hj => hj)
          rw [alignPass]
          cases hc : (sourceSeek source k d).current with
          | none =>
              simp only
              intro j h1 h2 hj
              exact ⟨set, List.mem_cons_self, hex.1.current_none hof hc j h1 h2 hj⟩
          | some c =>
              simp only
              obtain ⟨-, -, -, hac, hbetween⟩ := hex.current_some hof hc
              -- the key the pass goes on with is the one this source shows
              have hmoved : (if decide (c.key ≠ k) then c.key else k) = c.key := by
                by_cases hne : c.key = k <;> simp [hne]
              rw [hmoved]
              have htail' : List.Forall₂ (fun s set => Of s set min max d ∧ s.Lag (upTo d c.key))
                  sources sets := htail.imp fun s set hs => ⟨hs.1, hs.2.mono (by
                rw [hs.1.descending_eq]; exact fun j hj => hac.of_upTo hj)⟩
              have hrec := ih (aligned && !decide (c.key ≠ k)) htail' (Lag.key_lt hex.1 hc)
              cases hr : alignPass d sources c.key (aligned && !decide (c.key ≠ k)) with
              | none =>
                  rw [hr] at hrec
                  intro j h1 h2 hj
                  exact misses_cons (P := fun j => keyOf min ≤ j ∧ j ≤ keyOf max) hbetween
                    (fun j hj hin => hrec j hin.1 hin.2 hj) j hj ⟨h1, h2⟩
              | some r =>
                  rw [hr] at hrec
                  exact Passed.cons hof hex hc hrec

/-- Aligning stops at the next key every set of `all` has. -/
theorem alignLoop_spec :
    ∀ (fuel : Nat) {sources : List Source} {sets : List (Option Bitmap)} {k : Nat},
      List.Forall₂ (fun s set => Of s set min max d ∧ s.Lag (upTo d k)) sources sets → k < 0x10000 →
      distance d 0x10000 (upTo d k) < fuel →
      match alignLoop d fuel sources k with
      | none => ∀ j, keyOf min ≤ j → j ≤ keyOf max → Ahead d (upTo d k) j → Misses sets j
      | some (sources', k') =>
          List.Forall₂ (fun s set => Of s set min max d ∧ s.Exact (upTo d k') ∧
            ∃ c, s.current = some c ∧ c.key = k') sources' sets ∧
          Ahead d (upTo d k) k' ∧ ∀ j, Ahead d (upTo d k) j → Before d j k' → Misses sets j := by
  intro fuel
  induction fuel with
  | zero => intro _ _ _ _ _ hf; omega
  | succ fuel ih =>
      intro sources sets k h hk hf
      have hpass := alignPass_spec true h hk
      rw [alignLoop]
      cases hr : alignPass d sources k true with
      | none =>
          rw [hr] at hpass
          exact hpass
      | some r =>
          obtain ⟨sources', k', aligned'⟩ := r
          rw [hr] at hpass
          cases aligned' with
          | true =>
              simp only
              obtain ⟨-, rfl, hstands⟩ := hpass.standing rfl
              refine ⟨?_, hpass.ahead, hpass.missed⟩
              have hand := (List.forall₂_and_left _ _).mpr ⟨hstands, hpass.lag⟩
              exact hand.imp (fun s set hs => ⟨hs.2.1, hs.1.1, hs.1.2⟩)
          | false =>
              simp only
              -- some source moved, and it moved past the key of this pass
              have hb : Before d k k' := (hpass.moved rfl).resolve_left (by simp)
              have hlt := distance_upTo_lt hb hk hpass.key_lt
              have hrec := ih hpass.lag hpass.key_lt (by omega)
              have hmono : ∀ j, Ahead d (upTo d k') j → Ahead d (upTo d k) j :=
                fun j hj => hpass.ahead.of_upTo hj
              cases hr' : alignLoop d fuel sources' k' with
              | none =>
                  rw [hr'] at hrec
                  intro j h1 h2 hj
                  by_cases hjk : Before d j k'
                  · exact hpass.missed j hj hjk
                  · exact hrec j h1 h2 (ahead_upTo.mpr hjk)
              | some r' =>
                  obtain ⟨sources'', k''⟩ := r'
                  rw [hr'] at hrec
                  obtain ⟨q1, q2, q3⟩ := hrec
                  refine ⟨q1, hmono _ q2, fun j hj hjk => ?_⟩
                  by_cases hjk' : Before d j k'
                  · exact hpass.missed j hj hjk'
                  · exact q3 j (ahead_upTo.mpr hjk') hjk

/-! ## The next key of `any` -/

theorem anyKey_spec (sources : List Source) :
    match anyKey d sources with
    | none => ∀ s ∈ sources, s.current = none
    | some k => (∃ s ∈ sources, ∃ c, s.current = some c ∧ c.key = k) ∧
        ∀ s ∈ sources, ∀ c, s.current = some c → ¬ Before d c.key k := by
  have hmem : ∀ key, key ∈ sources.filterMap (fun source => source.current.map Container.key)
      ↔ ∃ s ∈ sources, ∃ c, s.current = some c ∧ c.key = key := by
    intro key
    simp only [List.mem_filterMap, Option.map_eq_some_iff]
  unfold anyKey
  cases hl : sources.filterMap (fun source => source.current.map Container.key) with
  | nil =>
      intro s hs
      by_contra hc
      obtain ⟨c, hc⟩ := Option.ne_none_iff_exists'.mp hc
      have := (hmem c.key).mpr ⟨s, hs, c, hc, rfl⟩
      rw [hl] at this
      cases this
  | cons key keys =>
      obtain ⟨h1, h2⟩ := Merge.pick_spec d keys key
      rw [hl] at hmem
      exact ⟨(hmem _).mp h1, fun s hs c hc => h2 _ ((hmem _).mpr ⟨s, hs, c, hc, rfl⟩)⟩

/-! ## What a query asks for -/

namespace Query

/-- The values a query asks for: in the range, in every set of `all`, in one of `any` if it names
sets, in none of `none`; nothing if both `all` and `any` name no set. -/
def Matches (q : Query) (v : Nat) : Prop :=
  (q.min ≤ v ∧ v ≤ q.max) ∧ (∀ set ∈ q.allSets, InSet set v) ∧
    (q.anySets ≠ [] → ∃ set ∈ q.anySets, InSet set v) ∧ (∀ set ∈ q.noneSets, ¬ InSet set v) ∧
      (q.allSets ≠ [] ∨ q.anySets ≠ [])

instance (q : Query) (v : Nat) : Decidable (q.Matches v) := by
  unfold Matches; infer_instance

/-- The matches ahead of a frontier of keys, in walking order. -/
def todo (q : Query) (d : Bool) (frontier : Nat) : List Nat :=
  ordered d (below (2 ^ 32) (fun v => Ahead d frontier (keyOf v) ∧ q.Matches v))

/-- Every set a query names is valid. -/
structure Valid (q : Query) : Prop where
  all : ∀ set ∈ q.allSets, ∀ s ∈ set, s.Valid
  any : ∀ set ∈ q.anySets, ∀ s ∈ set, s.Valid
  none : ∀ set ∈ q.noneSets, ∀ s ∈ set, s.Valid

/-- No match has this key. -/
def Skips (q : Query) (key : Nat) : Prop := ∀ v, v < 2 ^ 32 → keyOf v = key → ¬ q.Matches v

variable {q : Query}

theorem skips_of_misses (hv : q.Valid) {key : Nat} (h : Misses q.allSets key) : q.Skips key := by
  rintro v - rfl ⟨-, hall, -⟩
  obtain ⟨set, hs, hn⟩ := h
  have := hall set hs
  rw [← valueOf_keyOf_lowOf v, inSet_iff (hv.all set hs) (lowOf_lt v), hn] at this
  obtain ⟨c, hc, -⟩ := this
  cases hc

theorem skips_of_any (hv : q.Valid) {key : Nat} (ha : q.allSets = [])
    (h : ∀ set ∈ q.anySets, partIn set key = Option.none) : q.Skips key := by
  rintro v - rfl ⟨-, -, hany, -, hne⟩
  obtain ⟨set, hs, hm⟩ := hany (hne.resolve_left (fun hc => hc ha))
  rw [← valueOf_keyOf_lowOf v, inSet_iff (hv.any set hs) (lowOf_lt v), h set hs] at hm
  obtain ⟨c, hc, -⟩ := hm
  cases hc

theorem skips_of_range {key : Nat} (h : key < keyOf q.min ∨ keyOf q.max < key) : q.Skips key := by
  rintro v - rfl ⟨⟨h1, h2⟩, -⟩
  rw [keyOf_eq, keyOf_eq, keyOf_eq] at h
  omega

theorem todo_eq_nil {d : Bool} {f : Nat} (h : ∀ k, Ahead d f k → q.Skips k) : q.todo d f = [] := by
  refine List.eq_nil_iff_forall_not_mem.mpr (fun v hm => ?_)
  rw [todo, mem_ordered, mem_below] at hm
  exact h _ hm.2.1 v hm.1 rfl hm.2.2

/-- Passing over keys without a match changes nothing. -/
theorem todo_skip {d : Bool} {f k : Nat} (hf : Ahead d f k)
    (h : ∀ j, Ahead d f j → Before d j k → q.Skips j) (hk : q.Skips k) :
    q.todo d f = q.todo d (past d k) := by
  unfold todo
  congr 1
  refine below_congr (fun v hv => ⟨fun ⟨h1, h2⟩ => ⟨?_, h2⟩, fun ⟨h1, h2⟩ => ⟨hf.of_past h1, h2⟩⟩)
  rw [ahead_past]
  rcases before_or_eq_or_before d (keyOf v) k with hb | hb | hb
  · exact absurd h2 (h _ h1 hb v hv rfl)
  · exact absurd h2 (hk v hv hb)
  · exact hb

/-- The matches ahead split into those of the next key and those behind it. -/
theorem todo_split {d : Bool} {f : Nat} (key : QueryKey) (hlt : key.key < 0x10000)
    (hf : Ahead d f key.key)
    (h : ∀ j, Ahead d f j → Before d j key.key → q.Skips j)
    (hm : ∀ i, i < 65536 → (q.Matches (valueOf key.key i) ↔ i ∈ key.lows)) :
    q.todo d f = (ordered d key.lows).map (valueOf key.key) ++ q.todo d (past d key.key) := by
  have hlows : ∀ i ∈ key.lows, i < 65536 := fun i hi => (mem_below.mp hi).1
  refine eq_of_mem_iff (d := d) (pairwise_ordered (pairwise_below _ _)) ?_ (fun v => ?_)
  · refine List.pairwise_append.mpr ⟨?_, pairwise_ordered (pairwise_below _ _), ?_⟩
    · rw [← ordered_map]
      refine pairwise_ordered (List.pairwise_map.mpr ((pairwise_below _ _).imp_of_mem
        (fun {a b} ha hb hab => ?_)))
      rw [valueOf_eq _ (hlows a ha), valueOf_eq _ (hlows b hb)]
      omega
    · intro a ha b hb
      rw [← ordered_map, mem_ordered] at ha
      obtain ⟨i, hi, rfl⟩ := List.mem_map.mp ha
      rw [todo, mem_ordered, mem_below, ahead_past, keyOf_eq] at hb
      have hlt' := hlows i hi
      rw [valueOf_eq _ hlt']
      cases d with
      | false => rw [before_false] at hb ⊢; omega
      | true => rw [before_true] at hb ⊢; omega
  · rw [List.mem_append, ← ordered_map, mem_ordered, List.mem_map]
    simp only [todo, mem_ordered, mem_below]
    constructor
    · rintro ⟨hv, ha, hmv⟩
      rcases before_or_eq_or_before d (keyOf v) key.key with hb | hb | hb
      · exact absurd hmv (h _ ha hb v hv rfl)
      · left
        have he : valueOf key.key (lowOf v) = v := by rw [← hb, valueOf_keyOf_lowOf]
        exact ⟨lowOf v, (hm _ (lowOf_lt v)).mp (by rw [he]; exact hmv), he⟩
      · right
        exact ⟨hv, ahead_past.mpr hb, hmv⟩
    · rintro (⟨i, hi, rfl⟩ | ⟨hv, ha, hmv⟩)
      · have hi' := hlows i hi
        refine ⟨?_, by rw [keyOf_valueOf _ hi']; exact hf, (hm i hi').mpr hi⟩
        rw [valueOf_eq _ hi']
        omega
      · exact ⟨hv, hf.of_past ha, hmv⟩

end Query

/-! ## Gathering a key -/

/-- A source that shows a part shows it inside its reach. -/
theorem partReach_spec (hof : source.Of set min max d) (hv : ∀ s ∈ set, s.Valid) {g : Nat}
    (hs : source.Stands g) {c : Container} (hc : source.current = some c) :
    ∀ i ∈ c.lows, (partReach source c).1 ≤ i ∧ i ≤ (partReach source c).2 := by
  intro i hi
  have hr := (hs.readable (hs.current_some hc).1).1
  have hsort := hr.sorted
  have hcard := hr.cardinality_eq
  unfold partReach
  cases hk : c.content with
  | array values =>
      rw [hk] at hsort
      rw [Container.lows, hk] at hi hcard
      simp only at hi hcard ⊢
      rw [hcard]
      exact getD_le_and_le_getD hsort.1 hi
  | wide values =>
      rw [hk] at hsort
      have hlen := hcard
      rw [Container.lows, hk, List.length_map] at hlen
      rw [Container.lows, hk] at hi
      obtain ⟨v, hm, rfl⟩ := List.mem_map.mp hi
      simp only
      rw [hlen]
      -- the values share their key, so their low parts lie as they do
      obtain ⟨hfirst, hlast⟩ := getD_le_and_le_getD hsort.1 hm
      have hpos : 0 < values.length := List.length_pos_of_mem hm
      have hkey : ∀ n < values.length, keyOf (values.getD n 0) = keyOf v := by
        intro n hn
        rw [← List.getElem_eq_getD (h := hn), hsort.2 _ (List.getElem_mem hn), hsort.2 v hm]
      exact ⟨lowOf_le_lowOf (hkey 0 hpos) hfirst,
        lowOf_le_lowOf (hkey (values.length - 1) (by omega)).symm hlast⟩
  | bitmap words =>
      refine ⟨Nat.zero_le _, ?_⟩
      simp only
      by_cases hlast : source.onLast = true
      · rw [if_pos hlast]
        obtain ⟨b, hset, hne, hget⟩ := hs.current_bitmap hc (by rw [Container.isBitmap, hk])
        have hval := hv b (by rw [Option.mem_def, ← hof.set_eq, hset])
        rw [Source.onLast, hset, decide_eq_true_eq] at hlast
        rw [hset, Option.map_some, Option.getD_some]
        rw [hlast] at hget
        exact hval.low_le_maximum hne hget hi
      · rw [if_neg hlast]
        have hlt := hr.lt_of_mem hi
        omega

theorem mem_partsAt {key : Nat} {sources : List Source} {p : Source × Container} :
    p ∈ partsAt key sources ↔ p.1 ∈ sources ∧ p.1.current = some p.2 ∧ p.2.key = key := by
  obtain ⟨s, c⟩ := p
  simp only [partsAt, List.mem_filterMap, Option.map_eq_some_iff, Option.filter_eq_some_iff,
    decide_eq_true_eq, Prod.mk.injEq]
  constructor
  · rintro ⟨s', hs', c', ⟨h1, h2⟩, rfl, rfl⟩
    exact ⟨hs', h1, h2⟩
  · rintro ⟨h1, h2, h3⟩
    exact ⟨s, h1, c, ⟨h2, h3⟩, rfl, rfl⟩

/-- The parts gathered are what the sets have of the key. -/
theorem map_partsAt {key : Nat} (h1 : keyOf min ≤ key) (h2 : key ≤ keyOf max)
    {sources : List Source}
    {sets : List (Option Bitmap)}
    (h : List.Forall₂ (fun s set => Of s set min max d ∧ s.Exact (upTo d key)) sources sets) :
    (partsAt key sources).map Prod.snd = sets.filterMap (fun set => partIn set key) := by
  induction h with
  | nil => rfl
  | cons hs _ ih =>
      have hf := hs.2.filter_current hs.1 h1 h2
      rw [List.filterMap_cons, ← hf]
      unfold partsAt at ih ⊢
      rw [List.filterMap_cons]
      cases hc : Option.filter _ (Source.current _) with
      | none => simpa using ih
      | some c => simpa using ih

/-- Every set has a value exactly if each part of its key does, provided no set is
without a part. -/
theorem forall_inSet_iff {sets : List (Option Bitmap)} {key i : Nat}
    (hv : ∀ set ∈ sets, ∀ s ∈ set, s.Valid) (hhas : ∀ set ∈ sets, ∃ c, partIn set key = some c)
    (hi : i < 65536) :
    (∀ c ∈ sets.filterMap (fun set => partIn set key), i ∈ c.lows) ↔
      ∀ set ∈ sets, InSet set (valueOf key i) := by
  constructor
  · intro hp set hset
    obtain ⟨c, hc⟩ := hhas set hset
    exact (inSet_iff (hv set hset) hi).mpr ⟨c, hc, hp c (List.mem_filterMap.mpr ⟨set, hset, hc⟩)⟩
  · intro hp c hc
    obtain ⟨set, hset, hc⟩ := List.mem_filterMap.mp hc
    obtain ⟨c', hc', hm⟩ := (inSet_iff (hv set hset) hi).mp (hp set hset)
    rw [hc] at hc'
    cases hc'
    exact hm

/-- Some set has a value exactly if a part of its key does. -/
theorem exists_inSet_iff {sets : List (Option Bitmap)} {key i : Nat}
    (hv : ∀ set ∈ sets, ∀ s ∈ set, s.Valid) (hi : i < 65536) :
    (∃ c ∈ sets.filterMap (fun set => partIn set key), i ∈ c.lows) ↔
      ∃ set ∈ sets, InSet set (valueOf key i) := by
  constructor
  · rintro ⟨c, hc, hm⟩
    obtain ⟨set, hset, hc⟩ := List.mem_filterMap.mp hc
    exact ⟨set, hset, (inSet_iff (hv set hset) hi).mpr ⟨c, hc, hm⟩⟩
  · rintro ⟨set, hset, hin⟩
    obtain ⟨c, hc, hm⟩ := (inSet_iff (hv set hset) hi).mp hin
    exact ⟨c, List.mem_filterMap.mpr ⟨set, hset, hc⟩, hm⟩

theorem readable_parts {sets : List (Option Bitmap)} {key : Nat}
    (hv : ∀ set ∈ sets, ∀ s ∈ set, s.Valid) {c : Container}
    (hc : c ∈ sets.filterMap (fun set => partIn set key)) : c.Readable ∧ c.key = key := by
  obtain ⟨set, hset, hp⟩ := List.mem_filterMap.mp hc
  exact readable_partIn (hv set hset) hp

/-- Where no set is without a part, there are no parts only if there are no sets. -/
theorem parts_eq_nil {sets : List (Option Bitmap)} {key : Nat}
    (hhas : ∀ set ∈ sets, ∃ c, partIn set key = some c) :
    sets.filterMap (fun set => partIn set key) = [] ↔ sets = [] := by
  rw [List.filterMap_eq_nil_iff]
  constructor
  · intro hn
    by_contra hne
    obtain ⟨set, hset⟩ := List.exists_mem_of_ne_nil _ hne
    obtain ⟨c, hc⟩ := hhas set hset
    rw [hn set hset] at hc
    cases hc
  · rintro rfl set hset
    cases hset

/-- Sources are related to the sets they read. -/
def Reading (q : Query) (d : Bool) (P : Source → Prop) (sources : List Source)
    (sets : List (Option Bitmap)) : Prop :=
  List.Forall₂ (fun s set => Of s set q.min q.max d ∧ P s) sources sets

section Gather

variable {q : Query} {key : Nat} {walk : QueryWalk}

/-- Every source that gave a part shows it inside the reach it was narrowed to. -/
theorem partsAt_reach {sources : List Source} {sets : List (Option Bitmap)}
    (hv : ∀ set ∈ sets, ∀ s ∈ set, s.Valid)
    (h : Reading q d (fun s => s.Exact (upTo d key)) sources sets) :
    ∀ p ∈ partsAt key sources, ∀ i ∈ p.2.lows, (partReach p.1 p.2).1 ≤ i ∧
      i ≤ (partReach p.1 p.2).2 := by
  intro p hp
  obtain ⟨hm, hc, -⟩ := mem_partsAt.mp hp
  have : ∃ set ∈ sets, Of p.1 set q.min q.max d ∧ p.1.Exact (upTo d key) := by
    clear hp hv
    induction h with
    | nil => cases hm
    | cons hs _ ih =>
        rcases List.mem_cons.mp hm with he | hm
        · rw [he] at hc ⊢
          exact ⟨_, by simp, hs⟩
        · obtain ⟨set, hset, h⟩ := ih hm
          exact ⟨set, by simp [hset], h⟩
  obtain ⟨set, hset, hof, ⟨g, hg, -⟩, -⟩ := this
  exact partReach_spec hof (hv set hset) hg hc

/-- The range of a key keeps every match: it is that of `[min, max]`, narrowed at most to what the
parts reach. -/
theorem mem_keyRange {i : Nat} (walk : QueryWalk) (key : Nat) (all any : List (Source × Container))
    (hall : ∀ p ∈ all, (partReach p.1 p.2).1 ≤ i ∧ i ≤ (partReach p.1 p.2).2)
    (hany : walk.any ≠ [] → ∃ p ∈ any, (partReach p.1 p.2).1 ≤ i ∧ i ≤ (partReach p.1 p.2).2)
    (hi : i < 65536) (hb : (containerBounds key walk.min walk.max).1 ≤ i ∧
      i ≤ (containerBounds key walk.min walk.max).2) :
    (keyRange walk key all any).1 ≤ i ∧ i ≤ (keyRange walk key all any).2 := by
  have hbottom : all.foldl (fun m p => max m (partReach p.1 p.2).1) 0 ≤ i := by
    have := foldl_max_lt (fun p : Source × Container => (partReach p.1 p.2).1) all
      (show 0 < i + 1 by omega) (fun p hp => by have := (hall p hp).1; omega)
    omega
  have htop : i ≤ all.foldl (fun m p => min m (partReach p.1 p.2).2) 0xffff := by
    have : ∀ (l : List (Source × Container)) (init : Nat), (∀ p ∈ l, i ≤ (partReach p.1 p.2).2) →
        i ≤ init → i ≤ l.foldl (fun m p => min m (partReach p.1 p.2).2) init := by
      intro l
      induction l with
      | nil => intro init _ h; exact h
      | cons p l ih =>
          intro init hp h
          exact ih _ (fun p' hp' => hp p' (by simp [hp'])) (le_min h (hp p (by simp)))
    exact this all _ (fun p hp => (hall p hp).2) (by omega)
  unfold keyRange
  by_cases hn : walk.narrow = true
  · simp only [if_pos hn]
    by_cases ha : walk.any = []
    · simp only [if_pos ha]
      exact ⟨max_le hb.1 hbottom, le_min hb.2 htop⟩
    · simp only [if_neg ha]
      obtain ⟨p, hp, h1, h2⟩ := hany ha
      have hmin :=
        (foldl_min_le (fun p : Source × Container => (partReach p.1 p.2).1) any 0xffff).2 p hp
      have hmax := (le_foldl_max (fun p : Source × Container => (partReach p.1 p.2).2) any 0).2 p hp
      exact ⟨max_le hb.1 (max_le hbottom (le_trans hmin h1)),
        le_min hb.2 (le_min htop (le_trans h2 hmax))⟩
  · simp only [if_neg hn]
    exact hb

theorem keyRange_bounds (walk : QueryWalk) (key : Nat) (all any : List (Source × Container)) :
    (containerBounds key walk.min walk.max).1 ≤ (keyRange walk key all any).1 ∧
      (keyRange walk key all any).2 ≤ (containerBounds key walk.min walk.max).2 := by
  unfold keyRange
  split
  · exact ⟨le_max_left _ _, min_le_left _ _⟩
  · exact ⟨le_rfl, le_rfl⟩

end Gather

/-! ## The walk -/

/-- The walk stands at a frontier of keys: the sources of `all` and `any` show nothing behind it --
right after a key was returned they still show that key -- and no source is ahead of it. -/
structure Walks (q : Query) (d : Bool) (walk : QueryWalk) (frontier : Nat) : Prop where
  all : Reading q d (fun s => s.Exact ((walk.key.map (upTo d)).getD frontier)) walk.all q.allSets
  any : Reading q d (fun s => s.Exact ((walk.key.map (upTo d)).getD frontier)) walk.any q.anySets
  none : Reading q d (fun s => s.Lag frontier) walk.none q.noneSets
  min_eq : walk.min = q.min
  max_eq : walk.max = q.max
  descending_eq : walk.descending = d
  key_eq : ∀ k ∈ walk.key, frontier = past d k

section Walk

variable {q : Query} {walk : QueryWalk}

theorem reading_start {sets : List (Option Bitmap)} (hv : ∀ set ∈ sets, ∀ s ∈ set, s.Valid) :
    Reading q d (fun s => s.Exact (first q.min q.max d))
      (sets.map (fun set => Source.start set q.min q.max d false)) sets := by
  induction sets with
  | nil => exact List.Forall₂.nil
  | cons set sets ih =>
      refine List.Forall₂.cons ⟨of_start set _ _ d, exact_start (hv set (by simp)) _ _ d⟩ ?_
      exact ih (fun set' h => hv set' (by simp [h]))

theorem walks_begin (hv : q.Valid) (d narrow : Bool) :
    Walks q d (queryWalkBegin q d narrow) (first q.min q.max d) where
  all := reading_start hv.all
  any := reading_start hv.any
  none := (reading_start hv.none).imp (fun _ _ h => ⟨h.1, h.2.1⟩)
  min_eq := rfl
  max_eq := rfl
  descending_eq := rfl
  key_eq := by simp [queryWalkBegin]

theorem walks_moveOn {K : Nat} (h : Walks q d walk K) :
    Walks q d (walkMoveOn walk) K ∧ (walkMoveOn walk).key = none ∧
      (walkMoveOn walk).narrow = walk.narrow := by
  unfold walkMoveOn
  cases hk : walk.key with
  | none => exact ⟨h, hk, rfl⟩
  | some k =>
      obtain ⟨h1, h2, h3, h4, h5, h6, h7⟩ := h
      rw [hk] at h1 h2
      have hK := h7 k hk
      have move : ∀ {sources : List Source} {sets : List (Option Bitmap)},
          Reading q d (fun s => s.Exact (upTo d k)) sources sets →
          Reading q d (fun s => s.Exact (past d k)) (sources.map (moveOn k)) sets := by
        intro sources sets hr
        rw [Reading, List.forall₂_map_left_iff]
        exact hr.imp (fun s set hs => moveOn_spec hs.1 hs.2)
      refine ⟨⟨?_, ?_, h3, h4, h5, h6, by simp⟩, rfl, rfl⟩
      · rw [hK]; exact move h1
      · rw [hK]; exact move h2

theorem reading_exists {P : Source → Prop} {sources : List Source} {sets : List (Option Bitmap)}
    (h : Reading q d P sources sets) :
    (∀ s ∈ sources, ∃ set ∈ sets, Of s set q.min q.max d ∧ P s) ∧
      ∀ set ∈ sets, ∃ s ∈ sources, Of s set q.min q.max d ∧ P s := by
  induction h with
  | nil => simp
  | cons hs _ ih =>
      refine ⟨fun s hm => ?_, fun set hm => ?_⟩
      · rcases List.mem_cons.mp hm with rfl | hm
        · exact ⟨_, by simp, hs⟩
        · obtain ⟨set, hset, h⟩ := ih.1 s hm
          exact ⟨set, by simp [hset], h⟩
      · rcases List.mem_cons.mp hm with rfl | hm
        · exact ⟨_, by simp, hs⟩
        · obtain ⟨s, hs, h⟩ := ih.2 set hm
          exact ⟨s, by simp [hs], h⟩

/-- Outside the keys of the range nothing matches, so skipping inside is enough. -/
theorem skips_of_inside {key : Nat} (h : keyOf q.min ≤ key → key ≤ keyOf q.max → q.Skips key) :
    q.Skips key := by
  by_cases h1 : keyOf q.min ≤ key
  · by_cases h2 : key ≤ keyOf q.max
    · exact h h1 h2
    · exact Query.skips_of_range (Or.inr (by omega))
  · exact Query.skips_of_range (Or.inl (by omega))

theorem reading_nil_iff {P : Source → Prop} {sources : List Source} {sets : List (Option Bitmap)}
    (h : Reading q d P sources sets) : sources = [] ↔ sets = [] := by
  cases h <;> simp

/-- Without sets in `all`, a key that no set of `any` still shows is passed over. -/
theorem skips_of_anyKey_none {K : Nat} (hv : q.Valid) (hsets : q.allSets = [])
    (hany : Reading q d (fun s => s.Exact K) walk.any q.anySets) (hk : anyKey d walk.any = none) :
    ∀ k, Ahead d K k → q.Skips k := by
  have hspec := anyKey_spec (d := d) walk.any
  rw [hk] at hspec
  intro k hK
  refine skips_of_inside (fun h1 h2 => Query.skips_of_any hv hsets (fun set hset => ?_))
  obtain ⟨s, hs, hof, hex⟩ := (reading_exists hany).2 set hset
  exact hex.1.current_none hof (hspec s hs) k h1 h2 hK

/-- Without sets in `all`, the next key is the first one a set of `any` shows. -/
theorem anyKey_next {K key : Nat} (hv : q.Valid) (hsets : q.allSets = [])
    (hany : Reading q d (fun s => s.Exact K) walk.any q.anySets)
    (hk : anyKey d walk.any = some key) :
    (Ahead d K key ∧ keyOf q.min ≤ key ∧ key ≤ keyOf q.max ∧ key < 0x10000) ∧
      ∀ j, Ahead d K j → Before d j key → q.Skips j := by
  have hspec := anyKey_spec (d := d) walk.any
  rw [hk] at hspec
  obtain ⟨⟨s, hs, c, hc, rfl⟩, hmin⟩ := hspec
  obtain ⟨set, -, hof, hex⟩ := (reading_exists hany).1 s hs
  obtain ⟨-, h1, h2, ha, -⟩ := hex.current_some hof hc
  refine ⟨⟨ha, h1, h2, Lag.key_lt hex.1 hc⟩, fun j hj hb => ?_⟩
  refine skips_of_inside (fun h1 h2 => Query.skips_of_any hv hsets (fun set' hset' => ?_))
  obtain ⟨s', hs', hof', hex'⟩ := (reading_exists hany).2 set' hset'
  cases hc' : s'.current with
  | none => exact hex'.1.current_none hof' hc' j h1 h2 hj
  | some c' =>
      refine (hex'.current_some hof' hc').2.2.2.2 j hj ?_
      rcases before_or_eq_or_before d c'.key c.key with h | h | h
      · exact absurd h (hmin s' hs' c' hc')
      · rwa [h]
      · exact hb.trans h

/-- With sets in `all`, the first one's next key is sought in the others. -/
theorem alignLoop_next {K : Nat} {source : Source} {sources : List Source} (hv : q.Valid)
    (hall : Reading q d (fun s => s.Exact K) (source :: sources) q.allSets) {c : Container}
    (hc : source.current = some c) :
    match alignLoop d 0x10001 (source :: sources) c.key with
    | none => ∀ k, Ahead d K k → q.Skips k
    | some (sources', key) =>
        (Ahead d K key ∧ keyOf q.min ≤ key ∧ key ≤ keyOf q.max ∧ key < 0x10000) ∧
        (∀ j, Ahead d K j → Before d j key → q.Skips j) ∧
        Reading q d (fun s => s.Exact (upTo d key) ∧ ∃ c, s.current = some c ∧ c.key = key)
          sources' q.allSets := by
  obtain ⟨set, hset, hof, hex⟩ := (reading_exists hall).1 source List.mem_cons_self
  obtain ⟨-, -, -, ha, hbetween⟩ := hex.current_some hof hc
  have hlag : List.Forall₂ (fun s set => Of s set q.min q.max d ∧ s.Lag (upTo d c.key))
      (source :: sources) q.allSets := hall.imp (fun s set hs => ⟨hs.1, hs.2.1.mono (by
    rw [hs.1.descending_eq]
    exact fun j hj => ha.of_upTo hj)⟩)
  have hloop := alignLoop_spec 0x10001 hlag (Lag.key_lt hex.1 hc)
    (lt_of_le_of_lt (distance_le d _ _) (by omega))
  -- what lies before the first source's key, its set does not have
  have hskip : ∀ j, Ahead d K j → Before d j c.key → q.Skips j :=
    fun j hj hb => Query.skips_of_misses hv ⟨set, hset, hbetween j hj hb⟩
  cases hr : alignLoop d 0x10001 (source :: sources) c.key with
  | none =>
      rw [hr] at hloop
      intro k hK
      by_cases hb : Before d k c.key
      · exact hskip k hK hb
      · exact skips_of_inside (fun h1 h2 =>
          Query.skips_of_misses hv (hloop k h1 h2 (ahead_upTo.mpr hb)))
  | some r =>
      obtain ⟨sources', key⟩ := r
      rw [hr] at hloop
      obtain ⟨r1, r2, r3⟩ := hloop
      obtain ⟨s', hs', hof', hex', c', hc', rfl⟩ := (reading_exists r1).2 set hset
      obtain ⟨-, h1, h2, -, -⟩ := hex'.current_some hof' hc'
      refine ⟨⟨ha.of_upTo r2, h1, h2, Lag.key_lt hex'.1 hc'⟩, fun j hj hb => ?_, r1⟩
      by_cases hbj : Before d j c.key
      · exact hskip j hj hbj
      · exact Query.skips_of_misses hv (r3 j (ahead_upTo.mpr hbj) hb)

/-- The next key: nothing before it matches, every set of `all` has it, and it is inside the
range. -/
theorem walkNextKey_spec {K : Nat} (hv : q.Valid) (h : Walks q d walk K) (hkey : walk.key = none) :
    match walkNextKey walk with
    | none => ∀ k, Ahead d K k → q.Skips k
    | some (walk', key) =>
        (Ahead d K key ∧ keyOf q.min ≤ key ∧ key ≤ keyOf q.max ∧ key < 0x10000) ∧
        (∀ j, Ahead d K j → Before d j key → q.Skips j) ∧
        Reading q d (fun s => s.Exact (upTo d key) ∧ ∃ c, s.current = some c ∧ c.key = key)
          walk'.all q.allSets ∧
        walk' = { walk with all := walk'.all } := by
  obtain ⟨hall, hany, -, -, -, hd, -⟩ := h
  rw [hkey] at hall hany
  simp only [Option.map_none, Option.getD_none] at hall hany
  unfold walkNextKey
  cases hwa : walk.all with
  | nil =>
      have hsets : q.allSets = [] := (reading_nil_iff hall).mp hwa
      simp only [hd]
      cases hk : anyKey d walk.any with
      | none => exact skips_of_anyKey_none hv hsets hany hk
      | some key =>
          obtain ⟨hnext, hskip⟩ := anyKey_next hv hsets hany hk
          refine ⟨hnext, hskip, ?_, by rw [← hd]⟩
          rw [hwa, hsets]
          exact List.Forall₂.nil
  | cons source sources =>
      rw [hwa] at hall
      simp only
      cases hc : source.current with
      | none =>
          obtain ⟨set, hset, hof, hex⟩ := (reading_exists hall).1 source List.mem_cons_self
          intro k hK
          refine skips_of_inside (fun h1 h2 => Query.skips_of_misses hv ⟨set, hset, ?_⟩)
          exact hex.1.current_none hof hc k h1 h2 hK
      | some c =>
          have hloop := alignLoop_next hv hall hc
          simp only [hd]
          cases hr : alignLoop d 0x10001 (source :: sources) c.key with
          | none =>
              rw [hr] at hloop
              exact hloop
          | some r =>
              rw [hr] at hloop
              obtain ⟨hnext, hskip, hread⟩ := hloop
              exact ⟨hnext, hskip, hread, rfl⟩

/-- The parts gathered for a key are what the sets have of it. -/
theorem gather_parts {K key : Nat} {walk' : QueryWalk} (h : Walks q d walk K)
    (hkey : walk.key = none)
    (hK : Ahead d K key ∧ keyOf q.min ≤ key ∧ key ≤ keyOf q.max ∧ key < 0x10000)
    (hall : Reading q d (fun s => s.Exact (upTo d key) ∧ ∃ c, s.current = some c ∧ c.key = key)
      walk'.all q.allSets) (hw : walk' = { walk with all := walk'.all }) :
    Reading q d (fun s => s.Exact (upTo d key)) walk'.all q.allSets ∧
      Reading q d (fun s => s.Exact (upTo d key))
        (walk'.any.map (fun s => sourceSeek s key walk'.descending)) q.anySets ∧
      Reading q d (fun s => s.Exact (upTo d key))
        (walk'.none.map (fun s => sourceSeek s key walk'.descending)) q.noneSets ∧
      (walkGather walk' key).1.all = q.allSets.filterMap (fun set => partIn set key) ∧
      (walkGather walk' key).1.any = q.anySets.filterMap (fun set => partIn set key) ∧
      (walkGather walk' key).1.none = q.noneSets.filterMap (fun set => partIn set key) := by
  obtain ⟨-, hany, hnone, -, -, hd, -⟩ := h
  rw [hkey] at hany
  simp only [Option.map_none, Option.getD_none] at hany
  obtain ⟨hKa, h1, h2, -⟩ := hK
  have hwany : walk'.any = walk.any := by rw [hw]
  have hwnone : walk'.none = walk.none := by rw [hw]
  have hwd : walk'.descending = d := by rw [hw]; exact hd
  -- every source is pulled up to the key
  have hany' : Reading q d (fun s => s.Exact (upTo d key))
      (walk'.any.map (fun s => sourceSeek s key walk'.descending)) q.anySets := by
    rw [hwany, hwd, Reading, List.forall₂_map_left_iff]
    exact hany.imp (fun s set hs => sourceSeek_spec hs.1 hs.2.1 (fun j hj => hKa.of_upTo hj))
  have hnone' : Reading q d (fun s => s.Exact (upTo d key))
      (walk'.none.map (fun s => sourceSeek s key walk'.descending)) q.noneSets := by
    rw [hwnone, hwd, Reading, List.forall₂_map_left_iff]
    exact hnone.imp (fun s set hs => sourceSeek_spec hs.1 hs.2 (fun j hj => hKa.of_upTo hj))
  have hall' : Reading q d (fun s => s.Exact (upTo d key)) walk'.all q.allSets :=
    hall.imp (fun s set hs => ⟨hs.1, hs.2.1⟩)
  exact ⟨hall', hany', hnone', map_partsAt h1 h2 hall', map_partsAt h1 h2 hany',
    map_partsAt h1 h2 hnone'⟩

/-- A key that every set of `all` stands on is in each of them. -/
theorem partIn_of_standing {key : Nat} {sources : List Source} {sets : List (Option Bitmap)}
    (h : Reading q d (fun s => s.Exact (upTo d key) ∧ ∃ c, s.current = some c ∧ c.key = key)
      sources sets) :
    ∀ set ∈ sets, ∃ c, partIn set key = some c := by
  intro set hset
  obtain ⟨s, -, hof, hex, c, hc, hck⟩ := (reading_exists h).2 set hset
  have hpart := (hex.current_some hof hc).1
  rw [hck] at hpart
  exact ⟨c, hpart⟩

/-- The parts of a key match where its sets do; a value of `any` is in a set of `any` if the key has
parts there. -/
theorem match_iff {key : QueryKey} {i : Nat} (hv : q.Valid) (hi : i < 65536)
    (hhas : ∀ set ∈ q.allSets, ∃ c, partIn set key.key = some c)
    (hall : key.all = q.allSets.filterMap fun set => partIn set key.key)
    (hany : key.any = q.anySets.filterMap fun set => partIn set key.key)
    (hnone : key.none = q.noneSets.filterMap fun set => partIn set key.key)
    (hne : q.anySets ≠ [] → key.any ≠ []) :
    key.Match i ↔
      (∀ set ∈ q.allSets, InSet set (valueOf key.key i)) ∧
      (q.anySets ≠ [] → ∃ set ∈ q.anySets, InSet set (valueOf key.key i)) ∧
      (∀ set ∈ q.noneSets, ¬ InSet set (valueOf key.key i)) := by
  have hanyOf : q.anySets ≠ [] ↔ key.any ≠ [] := by
    refine ⟨hne, fun h => ?_⟩
    rintro he
    rw [hany, he] at h
    exact h rfl
  unfold QueryKey.Match
  refine and_congr ?_ (and_congr ?_ ?_)
  · rw [hall]
    exact forall_inSet_iff hv.all hhas hi
  · rw [hanyOf]
    refine imp_congr_right fun _ => ?_
    rw [hany]
    exact exists_inSet_iff hv.any hi
  · rw [hnone]
    have hsome := not_congr (@exists_inSet_iff q.noneSets key.key i hv.none hi)
    push Not at hsome
    exact hsome

/-- What the parts gathered for a key match is in the range they were narrowed to. -/
theorem gather_reach {key : Nat} {walk' : QueryWalk} (hv : q.Valid)
    (hall : Reading q d (fun s => s.Exact (upTo d key)) walk'.all q.allSets)
    (hany : Reading q d (fun s => s.Exact (upTo d key))
      (walk'.any.map (fun s => sourceSeek s key walk'.descending)) q.anySets)
    (hne : walk'.any ≠ [] → (walkGather walk' key).1.any ≠ []) {i : Nat} (hi : i < 65536)
    (hin : (containerBounds key walk'.min walk'.max).1 ≤ i ∧
      i ≤ (containerBounds key walk'.min walk'.max).2)
    (hm : (walkGather walk' key).1.Match i) :
    (walkGather walk' key).1.low ≤ i ∧ i ≤ (walkGather walk' key).1.high := by
  obtain ⟨hk1, hk2, -⟩ := hm
  have hreach_all := partsAt_reach hv.all hall
  have hreach_any := partsAt_reach hv.any hany
  refine mem_keyRange walk' key (partsAt key walk'.all)
    (partsAt key (walk'.any.map (fun s => sourceSeek s key walk'.descending)))
    (fun p hp => hreach_all p hp i (hk1 p.2 (List.mem_map_of_mem hp))) (fun hne' => ?_) hi hin
  obtain ⟨c, hc, hm⟩ := hk2 (hne hne')
  obtain ⟨p, hp, rfl⟩ := List.mem_map.mp hc
  exact ⟨p, hp, hreach_any p hp i hm⟩

/-- The parts gathered for a key decide its matches. -/
theorem gather_spec {K key : Nat} {walk' : QueryWalk} (hv : q.Valid) (h : Walks q d walk K)
    (hkey : walk.key = none)
    (hK : Ahead d K key ∧ keyOf q.min ≤ key ∧ key ≤ keyOf q.max ∧ key < 0x10000)
    (hall : Reading q d (fun s => s.Exact (upTo d key) ∧ ∃ c, s.current = some c ∧ c.key = key)
      walk'.all q.allSets) (hw : walk' = { walk with all := walk'.all }) :
    Walks q d (walkGather walk' key).2 (past d key) ∧
      (walkGather walk' key).1.key = key ∧
      (walkGather walk' key).1.high < 65536 ∧
      (walk'.any = [] ↔ q.anySets = []) ∧
      (∀ c, c ∈ (walkGather walk' key).1.all ∨ c ∈ (walkGather walk' key).1.any ∨
        c ∈ (walkGather walk' key).1.none → c.Readable ∧ c.key = key) ∧
      ((walkGather walk' key).1.all = [] ↔ q.allSets = []) ∧
      (q.anySets = [] → (walkGather walk' key).1.any = []) ∧
      (walk'.any ≠ [] → (walkGather walk' key).1.any = [] → q.Skips key) ∧
      ((q.anySets ≠ [] → (walkGather walk' key).1.any ≠ []) → ∀ i, i < 65536 →
        (q.allSets ≠ [] ∨ q.anySets ≠ []) →
        (q.Matches (valueOf key i) ↔ i ∈ (walkGather walk' key).1.lows)) := by
  obtain ⟨hall', hany', hnone', pall, pany, pnone⟩ := gather_parts h hkey hK hall hw
  obtain ⟨-, hany, -, hmin, hmax, hd, -⟩ := h
  obtain ⟨hKa, h1, h2, hlt⟩ := hK
  have hwany : walk'.any = [] ↔ q.anySets = [] := by
    rw [hw]
    exact reading_nil_iff hany
  have hwd : walk'.descending = d := by rw [hw]; exact hd
  have hwmin : walk'.min = q.min := by rw [hw]; exact hmin
  have hwmax : walk'.max = q.max := by rw [hw]; exact hmax
  have hhas := partIn_of_standing hall
  refine ⟨⟨hall', hany', ?_, hwmin, hwmax, hwd, ?_⟩, rfl, ?_, hwany, ?_, ?_, ?_, ?_, ?_⟩
  · refine hnone'.imp (fun s set hs => ⟨hs.1, hs.2.1.mono (fun j hj => ?_)⟩)
    rw [hs.1.descending_eq] at hj ⊢
    exact ahead_upTo.mpr (ahead_past.mp hj).asymm
  · intro k hk
    cases hk
    rfl
  · exact lt_of_le_of_lt (keyRange_bounds _ _ _ _).2 containerBounds_lt
  · intro c hc
    rw [pall, pany, pnone] at hc
    exact hc.elim (readable_parts hv.all)
      (Or.elim · (readable_parts hv.any) (readable_parts hv.none))
  · rw [pall]
    exact parts_eq_nil hhas
  · intro hn
    rw [pany, hn]
    rfl
  · intro hne hn v _ hvk hm
    have hin := hm.2.2.1 (mt hwany.mpr hne)
    rw [← valueOf_keyOf_lowOf v, hvk, ← exists_inSet_iff hv.any (lowOf_lt v), ← pany, hn] at hin
    obtain ⟨c, hc, -⟩ := hin
    cases hc
  · intro hanyne i hi hne
    have hmatch := match_iff hv hi hhas pall pany pnone hanyne
    have hbounds := containerBounds_iff q.min q.max hi h1 h2
    rw [QueryKey.lows, mem_below]
    constructor
    · rintro ⟨hr, m1, m2, m3, -⟩
      have hm := hmatch.mpr ⟨m1, m2, m3⟩
      have hrange := gather_reach hv hall' hany' (fun hne' => hanyne (mt hwany.mpr hne')) hi
        (by rw [hwmin, hwmax]; exact hbounds.mpr hr) hm
      exact ⟨hi, hrange.1, hrange.2, hm⟩
    · rintro ⟨-, r1, r2, hm⟩
      obtain ⟨m1, m2, m3⟩ := hmatch.mp hm
      have hb := keyRange_bounds walk' key (partsAt key walk'.all)
        (partsAt key (walk'.any.map (fun s => sourceSeek s key walk'.descending)))
      rw [hwmin, hwmax] at hb
      exact ⟨hbounds.mp ⟨le_trans hb.1 r1, le_trans r2 hb.2⟩, m1, m2, m3, hne⟩

/-- What the next key of a walk is: its matches come first of those ahead, and those behind it are
the rest. -/
def Query.Finds (q : Query) (d : Bool) (K : Nat) : Option (QueryKey × QueryWalk) → Prop
  | .none => q.todo d K = []
  | .some (key, walk') =>
      key.Gathered ∧ Walks q d walk' (past d key.key) ∧ Ahead d K key.key ∧ key.key < 0x10000 ∧
        q.todo d K = (ordered d key.lows).map (valueOf key.key) ++ q.todo d (past d key.key)

/-- A key given up has no match, so nothing ahead is lost: what is found behind it is the next. -/
theorem Query.Finds.of_skip {K key : Nat} {r : Option (QueryKey × QueryWalk)}
    (h : q.Finds d (past d key) r) (hK : Ahead d K key)
    (hskip : ∀ j, Ahead d K j → Before d j key → q.Skips j) (hs : q.Skips key) : q.Finds d K r := by
  have hsame := Query.todo_skip hK hskip hs
  cases r with
  | none => exact hsame.trans h
  | some r =>
      obtain ⟨hgathered, hwalks, hahead, hlt, htodo⟩ := h
      exact ⟨hgathered, hwalks, hK.of_past hahead, hlt, hsame.trans htodo⟩

/-- A key is found only where there are sets to read. -/
theorem sets_ne_nil {K key : Nat} {walk' : QueryWalk} (h : Walks q d walk K)
    (hr : walkNextKey walk = some (walk', key)) : q.allSets ≠ [] ∨ q.anySets ≠ [] := by
  by_contra hnone
  push Not at hnone
  have hall := (reading_nil_iff h.all).mpr hnone.1
  have hany := (reading_nil_iff h.any).mpr hnone.2
  rw [walkNextKey, hall, hany] at hr
  cases hr

theorem queryWalkLoop_spec (hv : q.Valid) :
    ∀ (fuel : Nat) {walk : QueryWalk} {K : Nat}, Walks q d walk K → distance d 0x10000 K < fuel →
      q.Finds d K (queryWalkLoop fuel walk) := by
  intro fuel
  induction fuel with
  | zero => intro _ _ _ hf; omega
  | succ fuel ih =>
      intro walk K h hf
      obtain ⟨hm, hmkey, -⟩ := walks_moveOn h
      have hnext := walkNextKey_spec hv hm hmkey
      rw [queryWalkLoop]
      cases hr : walkNextKey (walkMoveOn walk) with
      | none =>
          rw [hr] at hnext
          exact Query.todo_eq_nil hnext
      | some r =>
          obtain ⟨walk', key⟩ := r
          rw [hr] at hnext
          obtain ⟨hK, hskip, hall, hw⟩ := hnext
          have hne := sets_ne_nil hm hr
          obtain ⟨hwalks, hkey, hhigh, hanySets, hparts, hallSets, -, hgap, hlows⟩ :=
            gather_spec hv hm hmkey hK hall hw
          have hlt := distance_past_lt hK.1 hK.2.2.2
          have hrest := ih hwalks (by omega)
          simp only
          by_cases hnoAny : walk'.any ≠ [] ∧ (walkGather walk' key).1.any = []
          · rw [if_pos hnoAny]
            exact hrest.of_skip hK.1 hskip (hgap hnoAny.1 hnoAny.2)
          · rw [if_neg hnoAny]
            have hany : q.anySets ≠ [] → (walkGather walk' key).1.any ≠ [] :=
              fun hsets hnil => hnoAny ⟨fun hwalk => hsets (hanySets.mp hwalk), hnil⟩
            by_cases hle : (walkGather walk' key).1.low ≤ (walkGather walk' key).1.high
            · rw [if_pos hle]
              have hgathered : (walkGather walk' key).1.Gathered := by
                refine ⟨fun c hc => (hparts c hc).1, fun c hc => ?_, hle, hhigh, ?_⟩
                · rw [hkey]
                  exact (hparts c hc).2
                · exact hne.imp (fun hsets hnil => hsets (hallSets.mp hnil)) hany
              exact ⟨hgathered, hwalks, hK.1, hK.2.2.2,
                Query.todo_split (walkGather walk' key).1 hK.2.2.2 hK.1 hskip
                  fun i hi => hlows hany i hi hne⟩
            · rw [if_neg hle]
              -- an empty range of low parts holds no match of the key
              refine hrest.of_skip hK.1 hskip fun v _ hvkey hmatch => hle ?_
              have hv' : valueOf key (lowOf v) = v := by rw [← hvkey, valueOf_keyOf_lowOf]
              rw [← hv'] at hmatch
              have hin := (hlows hany (lowOf v) (lowOf_lt v) hne).mp hmatch
              rw [QueryKey.lows, mem_below] at hin
              omega

end Walk

end Arnm.Roaring
