import Arnm.Roaring.Query

set_option autoImplicit false

/-! # Runs of the walk over several sets

`query_walk_next` called until it finds nothing more. The loops of the source carry no bound, so
they are written out here with a count of rounds and no answer where it does not last
(`walkRounds`): with enough rounds they answer what the model answers, and the keys of a run are
those with a match and none out of order. -/

namespace Arnm.Roaring

open Listing Source

/-! ## The loops, round by round -/

/-- `source_seek`; none where the rounds did not last. -/
def seekRounds (key : Nat) (descending : Bool) : Nat → Source → Option Source
  | 0, _ => none
  | rounds + 1, source =>
      match source.current with
      | none => some source
      | some c =>
          if keyBefore c.key key descending then seekRounds key descending rounds source.advance
          else some source

/-- `source_seek` on the sources of a list. -/
def seekAllRounds (rounds key : Nat) (descending : Bool) : List Source → Option (List Source)
  | [] => some []
  | source :: sources =>
      match seekRounds key descending rounds source with
      | none => none
      | some source => (seekAllRounds rounds key descending sources).map (source :: ·)

/-- One pass over the sources of `all`; `some none` once a source has nothing left. -/
def passRounds (rounds : Nat) (descending : Bool) :
    List Source → Nat → Bool → Option (Option (List Source × Nat × Bool))
  | [], key, aligned => some (some ([], key, aligned))
  | source :: sources, key, aligned =>
      match seekRounds key descending rounds source with
      | none => none
      | some source =>
          match source.current with
          | none => some none
          | some c =>
              let moved := decide (c.key ≠ key)
              (passRounds rounds descending sources (if moved then c.key else key)
                (aligned && !moved)).map (fun r => r.map (fun r => (source :: r.1, r.2)))

/-- `for (bool aligned = false; !aligned;)` -/
def alignRounds (rounds : Nat) (descending : Bool) :
    Nat → List Source → Nat → Option (Option (List Source × Nat))
  | 0, _, _ => none
  | left + 1, sources, key =>
      match passRounds rounds descending sources key true with
      | none => none
      | some none => some none
      | some (some (sources, key, true)) => some (some (sources, key))
      | some (some (sources, key, false)) => alignRounds rounds descending left sources key

/-- The next key of a round. -/
def nextKeyRounds (rounds : Nat) (walk : QueryWalk) : Option (Option (QueryWalk × Nat)) :=
  match walk.all with
  | [] => some ((anyKey walk.descending walk.any).map (fun key => (walk, key)))
  | source :: _ =>
      match source.current with
      | none => some none
      | some c =>
          (alignRounds rounds walk.descending rounds walk.all c.key).map
            (fun r => r.map (fun r => ({ walk with all := r.1 }, r.2)))

/-- The parts of the key, the sources of `any` and `none` pulled up to it. -/
def gatherRounds (rounds : Nat) (walk : QueryWalk) (key : Nat) : Option (QueryKey × QueryWalk) :=
  match seekAllRounds rounds key walk.descending walk.any,
    seekAllRounds rounds key walk.descending walk.none with
  | some any, some nones =>
      let allParts := partsAt key walk.all
      let anyParts := partsAt key any
      let range := keyRange walk key allParts anyParts
      some (⟨allParts.map Prod.snd, anyParts.map Prod.snd, (partsAt key nones).map Prod.snd, key,
          range.1, range.2⟩,
        { walk with any := any, none := nones, key := some key })
  | _, _ => none

/-- `for (;;)` of `query_walk_next`; `some none` once the range is done. -/
def nextRounds (rounds : Nat) : Nat → QueryWalk → Option (Option (QueryKey × QueryWalk))
  | 0, _ => none
  | left + 1, walk =>
      match nextKeyRounds rounds (walkMoveOn walk) with
      | none => none
      | some none => some none
      | some (some (walk, key)) =>
          match gatherRounds rounds walk key with
          | none => none
          | some r =>
              if walk.any ≠ [] ∧ r.1.any = [] then nextRounds rounds left r.2
              else if r.1.low ≤ r.1.high then some (some r)
              else nextRounds rounds left r.2

/-- `while (query_walk_next(&walk, &key))`: the keys returned. -/
def walkRounds (rounds : Nat) : Nat → QueryWalk → Option (List QueryKey)
  | 0, _ => none
  | left + 1, walk =>
      match nextRounds rounds rounds walk with
      | none => none
      | some none => some []
      | some (some (key, walk)) => (walkRounds rounds left walk).map (key :: ·)

/-- The keys the model returns. -/
def walkKeys : Nat → QueryWalk → List QueryKey
  | 0, _ => []
  | fuel + 1, walk =>
      match queryWalkNext walk with
      | none => []
      | some (key, walk) => key :: walkKeys fuel walk

/-- The states of a walk at the start of a round of `query_walk_next`. -/
inductive WalkState (q : Query) (d narrow : Bool) : QueryWalk → Prop where
  | begin : WalkState q d narrow (queryWalkBegin q d narrow)
  | round {walk walk' : QueryWalk} {key : Nat} (reached : WalkState q d narrow walk)
      (next : walkNextKey (walkMoveOn walk) = some (walk', key)) :
      WalkState q d narrow (walkGather walk' key).2

/-! ## Enough rounds -/

variable {q : Query} {d : Bool} {K k rounds : Nat} {source : Source} {walk : QueryWalk}

/-- Each advance takes a source a key further, so the seek ends before the keys do. -/
theorem seekRounds_eq :
    ∀ (fuel left : Nat) {source : Source} {g : Nat}, source.descending = d → source.Stands g →
      distance d 0x10000 g ≤ fuel → distance d 0x10000 g < left →
      seekRounds k d left source = some (sourceSeekLoop k d fuel source) := by
  intro fuel
  induction fuel with
  | zero =>
      intro left source g hd hs hf hl
      obtain ⟨left, rfl⟩ : ∃ n, left = n + 1 := ⟨left - 1, by omega⟩
      -- with no key left ahead nothing is shown
      have hnone : source.current = none := by
        by_contra hc
        obtain ⟨c, hc⟩ := Option.ne_none_iff_exists'.mp hc
        obtain ⟨hp, -, -, ha, -⟩ := hs.current_some hc
        rw [hd] at ha
        exact not_ahead_of_distance (Nat.le_zero.mp hf) (hs.readable hp).1.key_lt ha
      rw [seekRounds, sourceSeekLoop, hnone]
  | succ fuel ih =>
      intro left source g hd hs hf hl
      obtain ⟨left, rfl⟩ : ∃ n, left = n + 1 := ⟨left - 1, by omega⟩
      rw [seekRounds, sourceSeekLoop]
      cases hc : source.current with
      | none => rfl
      | some c =>
          dsimp only
          by_cases hb : keyBefore c.key k d = true
          · rw [if_pos hb, if_pos hb]
            obtain ⟨hp, -, -, ha, -⟩ := hs.current_some hc
            rw [hd] at ha
            have hadv := stands_advance hs hc
            rw [hd] at hadv
            have hlt := distance_past_lt ha (hs.readable hp).1.key_lt
            exact ih left ((advance_fields source).2.2.2.1.trans hd) hadv (by omega) (by omega)
          · rw [if_neg hb, if_neg hb]

/-- A source that stands somewhere in the walk's direction. -/
def Placed (d : Bool) (source : Source) : Prop := source.descending = d ∧ ∃ g, source.Stands g

theorem Placed.of_lag {set : Option Bitmap} {min max f : Nat} (hof : Of source set min max d)
    (hl : source.Lag f) : Placed d source := by
  obtain ⟨g, hg, -⟩ := hl
  exact ⟨hof.descending_eq, g, hg⟩

theorem Placed.seek (h : Placed d source) (hrounds : 0x10000 < rounds) :
    seekRounds k d rounds source = some (sourceSeek source k d) := by
  obtain ⟨hd, g, hg⟩ := h
  exact seekRounds_eq 0x10000 rounds hd hg (distance_le d _ g)
    (Nat.lt_of_le_of_lt (distance_le d _ g) hrounds)

theorem seekAllRounds_eq {sources : List Source} (h : ∀ s ∈ sources, Placed d s)
    (hrounds : 0x10000 < rounds) :
    seekAllRounds rounds k d sources = some (sources.map (fun s => sourceSeek s k d)) := by
  induction sources with
  | nil => rfl
  | cons s sources ih =>
      rw [seekAllRounds, (h s List.mem_cons_self).seek hrounds,
        ih (fun s' hs' => h s' (List.mem_cons_of_mem _ hs'))]
      rfl

theorem passRounds_eq (hrounds : 0x10000 < rounds) :
    ∀ {sources : List Source} {k : Nat} (aligned : Bool), (∀ s ∈ sources, Placed d s) →
      passRounds rounds d sources k aligned = some (alignPass d sources k aligned) := by
  intro sources
  induction sources with
  | nil => intro k aligned h; rfl
  | cons s sources ih =>
      intro k aligned h
      rw [passRounds, alignPass, (h s List.mem_cons_self).seek hrounds]
      dsimp only
      cases (sourceSeek s k d).current with
      | none => rfl
      | some c =>
          dsimp only
          rw [ih _ (fun s' hs' => h s' (List.mem_cons_of_mem _ hs'))]
          rfl

theorem Placed.of_reading {P : Source → Prop} {f : Nat} {sources : List Source}
    {sets : List (Option Bitmap)} (h : Reading q d P sources sets) (hlag : ∀ s, P s → s.Lag f) :
    ∀ s ∈ sources, Placed d s := by
  intro s hs
  obtain ⟨set, -, hof, hP⟩ := (reading_exists h).1 s hs
  exact Placed.of_lag hof (hlag s hP)

/-- Each pass that does not align takes the key on, so the passes come to an end. -/
theorem alignRounds_eq (hrounds : 0x10000 < rounds) :
    ∀ (fuel left : Nat) {sources : List Source} {sets : List (Option Bitmap)} {k : Nat},
      Reading q d (fun s => s.Lag (upTo d k)) sources sets → k < 0x10000 →
      distance d 0x10000 (upTo d k) < fuel → distance d 0x10000 (upTo d k) < left →
      alignRounds rounds d left sources k = some (alignLoop d fuel sources k) := by
  intro fuel
  induction fuel with
  | zero => intro _ _ _ _ _ _ hf; omega
  | succ fuel ih =>
      intro left sources sets k h hk hf hl
      obtain ⟨left, rfl⟩ : ∃ n, left = n + 1 := ⟨left - 1, by omega⟩
      have hpass := alignPass_spec true h hk
      rw [alignRounds, alignLoop, passRounds_eq hrounds true (Placed.of_reading h fun _ hs => hs)]
      cases hr : alignPass d sources k true with
      | none => rfl
      | some r =>
          obtain ⟨sources', k', aligned'⟩ := r
          rw [hr] at hpass
          cases aligned' with
          | true => rfl
          | false =>
              -- some source moved, and it moved past the key of this pass
              have hb : Before d k k' := (hpass.moved rfl).resolve_left (by simp)
              have hlt := distance_upTo_lt hb hk hpass.key_lt
              exact ih left hpass.lag hpass.key_lt (by omega) (by omega)

/-- The alignment starts where the first source stands, and no source is past that. -/
theorem nextKeyRounds_eq (hrounds : 0x10000 < rounds) (h : Walks q d walk K)
    (hkey : walk.key = none) : nextKeyRounds rounds walk = some (walkNextKey walk) := by
  obtain ⟨hall, -, -, -, -, hd, -⟩ := h
  rw [hkey] at hall
  simp only [Option.map_none, Option.getD_none] at hall
  unfold nextKeyRounds walkNextKey
  cases hwa : walk.all with
  | nil => rfl
  | cons source sources =>
      dsimp only
      obtain ⟨set, -, hof, hex⟩ :=
        (reading_exists hall).1 source (by rw [hwa]; exact List.mem_cons_self)
      cases hc : source.current with
      | none => rfl
      | some c =>
          dsimp only
          obtain ⟨-, -, -, ha, -⟩ := hex.current_some hof hc
          -- what the sources have left behind is out of order before this key as well
          have hlag : Reading q d (fun s => s.Lag (upTo d c.key)) walk.all q.allSets := by
            refine hall.imp fun s set hs => ⟨hs.1, hs.2.1.mono ?_⟩
            rw [hs.1.descending_eq]
            exact fun j hj => ha.of_upTo hj
          rw [hwa] at hlag
          have hdist := distance_le d 0x10000 (upTo d c.key)
          rw [hd, alignRounds_eq hrounds 0x10001 rounds hlag (Lag.key_lt hex.1 hc) (by omega)
            (by omega)]
          rfl

theorem gatherRounds_eq (hrounds : 0x10000 < rounds) {key : Nat}
    (hany : ∀ s ∈ walk.any, Placed walk.descending s)
    (hnone : ∀ s ∈ walk.none, Placed walk.descending s) :
    gatherRounds rounds walk key = some (walkGather walk key) := by
  unfold gatherRounds
  rw [seekAllRounds_eq hany hrounds, seekAllRounds_eq hnone hrounds]
  rfl

/-! ## The keys returned -/

/-- The parts are what each list's sets have of the key. -/
structure PartsOf (q : Query) (key : QueryKey) : Prop where
  all : key.all = q.allSets.filterMap (fun set => partIn set key.key)
  any : key.any = q.anySets.filterMap (fun set => partIn set key.key)
  none : key.none = q.noneSets.filterMap (fun set => partIn set key.key)

/-- One round: it finds no key, or gathers one and leaves the walk behind it. -/
theorem round_spec (hv : q.Valid) (h : Walks q d walk K) :
    match walkNextKey (walkMoveOn walk) with
    | none => ∀ j, Ahead d K j → q.Skips j
    | some (walk', key) =>
        Ahead d K key ∧ key < 0x10000 ∧ (∀ j, Ahead d K j → Before d j key → q.Skips j) ∧
          Walks q d (walkGather walk' key).2 (past d key) ∧
          (walkGather walk' key).1.key = key ∧ PartsOf q (walkGather walk' key).1 ∧
          (∀ s ∈ walk'.any, Placed walk'.descending s) ∧
          ∀ s ∈ walk'.none, Placed walk'.descending s := by
  obtain ⟨hm, hmkey, -⟩ := walks_moveOn h
  have hnext := walkNextKey_spec hv hm hmkey
  cases hr : walkNextKey (walkMoveOn walk) with
  | none =>
      rw [hr] at hnext
      exact hnext
  | some r =>
      obtain ⟨walk', key⟩ := r
      rw [hr] at hnext
      obtain ⟨hK, hskip, hall, hw⟩ := hnext
      obtain ⟨g1, g2, -⟩ := gather_spec hv hm hmkey hK hall hw
      obtain ⟨-, -, -, pall, pany, pnone⟩ := gather_parts hm hmkey hK hall hw
      have hwd : walk'.descending = d := by rw [hw]; exact hm.descending_eq
      have hwany : walk'.any = (walkMoveOn walk).any := by rw [hw]
      have hwnone : walk'.none = (walkMoveOn walk).none := by rw [hw]
      refine ⟨hK.1, hK.2.2.2, hskip, g1, g2, ⟨?_, ?_, ?_⟩, ?_, ?_⟩
      · rw [g2]
        exact pall
      · rw [g2]
        exact pany
      · rw [g2]
        exact pnone
      · rw [hwd, hwany]
        exact Placed.of_reading hm.any fun _ hs => hs.1
      · rw [hwd, hwnone]
        exact Placed.of_reading hm.none fun _ hs => hs

/-- With enough rounds `query_walk_next` answers what the model answers. -/
theorem nextRounds_eq (hrounds : 0x10000 < rounds) (hv : q.Valid) :
    ∀ (fuel left : Nat) {walk : QueryWalk} {K : Nat}, Walks q d walk K →
      distance d 0x10000 K < fuel → distance d 0x10000 K < left →
      nextRounds rounds left walk = some (queryWalkLoop fuel walk) ∧
        ∀ r, queryWalkLoop fuel walk = some r → PartsOf q r.1 ∧ r.1.low ≤ r.1.high := by
  intro fuel
  induction fuel with
  | zero => intro _ _ _ _ hf; omega
  | succ fuel ih =>
      intro left walk K h hf hl
      obtain ⟨left, rfl⟩ : ∃ n, left = n + 1 := ⟨left - 1, by omega⟩
      obtain ⟨hm, hmkey, -⟩ := walks_moveOn h
      have hround := round_spec hv h
      rw [nextRounds, queryWalkLoop, nextKeyRounds_eq hrounds hm hmkey]
      cases hr : walkNextKey (walkMoveOn walk) with
      | none =>
          refine ⟨rfl, fun r hnone => ?_⟩
          cases hnone
      | some r =>
          obtain ⟨walk', key⟩ := r
          rw [hr] at hround
          obtain ⟨hK, hlt, -, hnext, hkey, hparts, hany, hnone⟩ := hround
          have hdist := distance_past_lt hK hlt
          have hrec := ih left hnext (by omega) (by omega)
          dsimp only
          rw [gatherRounds_eq hrounds hany hnone]
          dsimp only
          -- a key without a part of `any`, or with an empty range, is not returned
          by_cases hgap : walk'.any ≠ [] ∧ (walkGather walk' key).1.any = []
          · rw [if_pos hgap, if_pos hgap]
            exact hrec
          · rw [if_neg hgap, if_neg hgap]
            by_cases hle : (walkGather walk' key).1.low ≤ (walkGather walk' key).1.high
            · rw [if_pos hle, if_pos hle]
              refine ⟨rfl, fun r hr => ?_⟩
              cases hr
              exact ⟨hparts, hle⟩
            · rw [if_neg hle, if_neg hle]
              exact hrec

/-- The keys a run ahead of a frontier returns. -/
structure Returned (q : Query) (d : Bool) (K : Nat) (keys : List QueryKey) : Prop where
  ahead : ∀ key ∈ keys, Ahead d K key.key
  monotone : keys.Pairwise (fun a b => Before d a.key b.key)
  parts : ∀ key ∈ keys, PartsOf q key
  range : ∀ key ∈ keys, key.low ≤ key.high
  covers : ∀ v ∈ q.todo d K, ∃ key ∈ keys, key.key = keyOf v ∧ key.low ≤ lowOf v ∧
    lowOf v ≤ key.high

/-- With no match left a run that returns nothing is complete. -/
theorem Returned.nil (htodo : q.todo d K = []) : Returned q d K [] where
  ahead := fun _ hkey => absurd hkey List.not_mem_nil
  monotone := List.Pairwise.nil
  parts := fun _ hkey => absurd hkey List.not_mem_nil
  range := fun _ hkey => absurd hkey List.not_mem_nil
  covers := by
    intro v hv
    rw [htodo] at hv
    cases hv

/-- A key in front of a run from behind it: its own matches come first, the rest are the run's. -/
theorem Returned.cons {key : QueryKey} {keys : List QueryKey}
    (h : Returned q d (past d key.key) keys) (ha : Ahead d K key.key) (hparts : PartsOf q key)
    (hrange : key.low ≤ key.high)
    (hcovers : ∀ v ∈ q.todo d K, v ∈ q.todo d (past d key.key) ∨
      key.key = keyOf v ∧ key.low ≤ lowOf v ∧ lowOf v ≤ key.high) :
    Returned q d K (key :: keys) where
  ahead := by
    intro key' hkey'
    rcases List.mem_cons.mp hkey' with rfl | hkey'
    · exact ha
    · exact ha.of_past (h.ahead key' hkey')
  monotone := by
    refine List.pairwise_cons.mpr ⟨fun key' hkey' => ?_, h.monotone⟩
    exact ahead_past.mp (h.ahead key' hkey')
  parts := List.forall_mem_cons.mpr ⟨hparts, h.parts⟩
  range := List.forall_mem_cons.mpr ⟨hrange, h.range⟩
  covers := by
    intro v hv
    rcases hcovers v hv with hlater | hnow
    · obtain ⟨key', hkey', hcov⟩ := h.covers v hlater
      exact ⟨key', List.mem_cons_of_mem _ hkey', hcov⟩
    · exact ⟨key, List.mem_cons_self, hnow⟩

/-- A run is complete: each key returned is further on, so the rounds last for all of them. -/
theorem walkRounds_spec (hrounds : 0x10000 < rounds) (hv : q.Valid) :
    ∀ (fuel left : Nat) {walk : QueryWalk} {K : Nat}, Walks q d walk K →
      distance d 0x10000 K < fuel → distance d 0x10000 K < left →
      walkRounds rounds left walk = some (walkKeys fuel walk) ∧
        Returned q d K (walkKeys fuel walk) := by
  intro fuel
  induction fuel with
  | zero => intro _ _ _ _ hf; omega
  | succ fuel ih =>
      intro left walk K h hf hl
      obtain ⟨left, rfl⟩ : ∃ n, left = n + 1 := ⟨left - 1, by omega⟩
      have hdistK := distance_le d 0x10000 K
      obtain ⟨hnext, hparts⟩ :=
        nextRounds_eq hrounds hv 0x10001 rounds h (by omega) (by omega)
      have hspec := queryWalkNext_spec hv h
      rw [walkRounds, walkKeys, hnext]
      unfold queryWalkNext at hspec ⊢
      cases hr : queryWalkLoop 0x10001 walk with
      | none =>
          rw [hr] at hspec
          exact ⟨rfl, Returned.nil hspec⟩
      | some r =>
          obtain ⟨key, walk'⟩ := r
          rw [hr] at hspec
          obtain ⟨-, hw, ha, hlt, htodo⟩ := hspec
          obtain ⟨hpart, hrange⟩ := hparts _ hr
          have hdist := distance_past_lt ha hlt
          obtain ⟨hrun, hret⟩ := ih left hw (by omega) (by omega)
          dsimp only
          rw [hrun]
          refine ⟨rfl, hret.cons ha hpart hrange fun v hv => ?_⟩
          rw [htodo, List.mem_append] at hv
          rcases hv with hnow | hlater
          · -- a match of this key
            right
            obtain ⟨i, hi, rfl⟩ := List.mem_map.mp hnow
            rw [mem_ordered] at hi
            obtain ⟨hi', hlo, hhi, -⟩ := mem_below.mp hi
            rw [keyOf_valueOf _ hi', lowOf_valueOf _ hi']
            exact ⟨rfl, hlo, hhi⟩
          · exact Or.inl hlater

/-- Every state of a walk stands at a frontier: behind the key returned last, or where the walk
starts. -/
theorem WalkState.walks {narrow : Bool} (hv : q.Valid) (h : WalkState q d narrow walk) :
    ∃ K, Walks q d walk K ∧ (walk.key = none → K = first q.min q.max d) := by
  induction h with
  | begin => exact ⟨_, walks_begin hv d narrow, fun _ => rfl⟩
  | @round walk walk' key _ next ih =>
      obtain ⟨K, hw, -⟩ := ih
      have hround := round_spec hv hw
      rw [next] at hround
      refine ⟨past d key, hround.2.2.2.1, fun hnone => ?_⟩
      -- a walk that gathered a key keeps it
      cases hnone

/-- A walk over valid sets comes to an end. The keys it returned are in walking order, each has
exactly the parts its lists have of it, and every match lies in the range of one of them; and in no
round a key with a match that is still ahead is passed over. -/
theorem query_walk_keys (q : Query) (hv : q.Valid) (d narrow : Bool) :
    (∃ keys, (∃ enough, ∀ rounds, enough ≤ rounds →
        walkRounds rounds rounds (queryWalkBegin q d narrow) = some keys) ∧
      keys.Pairwise (fun a b => Before d a.key b.key) ∧
      (∀ key ∈ keys, PartsOf q key ∧ key.low ≤ key.high) ∧
      ∀ v < 2 ^ 32, q.Matches v →
        ∃ key ∈ keys, key.key = keyOf v ∧ key.low ≤ lowOf v ∧ lowOf v ≤ key.high) ∧
    ∀ walk, WalkState q d narrow walk → ∀ v < 2 ^ 32, q.Matches v →
      (∀ k ∈ walk.key, Before d k (keyOf v)) →
      ∃ walk' key, walkNextKey (walkMoveOn walk) = some (walk', key) ∧
        ¬ Before d (keyOf v) key := by
  constructor
  · have hdist := walks_distance q d
    have hspec := fun rounds (hrounds : 0x10000 < rounds) =>
      walkRounds_spec hrounds hv 0x10001 rounds (walks_begin hv d narrow) hdist (by omega)
    obtain ⟨-, hret⟩ := hspec 0x10001 (by decide)
    refine ⟨_, ⟨0x10001, fun rounds hrounds => (hspec rounds hrounds).1⟩, hret.monotone,
      fun key hkey => ⟨hret.parts key hkey, hret.range key hkey⟩, fun v hlt hm => ?_⟩
    refine hret.covers v ?_
    rw [Query.todo, mem_ordered, mem_below]
    exact ⟨hlt, hm.ahead_first d, hm⟩
  · intro walk hstate v hlt hm hbehind
    obtain ⟨K, hw, hfirst⟩ := hstate.walks hv
    have ha : Ahead d K (keyOf v) := by
      cases hk : walk.key with
      | none =>
          rw [hfirst hk]
          exact hm.ahead_first d
      | some k =>
          rw [hw.key_eq k hk]
          exact ahead_past.mpr (hbehind k hk)
    have hround := round_spec hv hw
    cases hr : walkNextKey (walkMoveOn walk) with
    | none =>
        rw [hr] at hround
        exact absurd hm (hround _ ha v hlt rfl)
    | some r =>
        obtain ⟨walk', key⟩ := r
        rw [hr] at hround
        refine ⟨walk', key, rfl, fun hb => ?_⟩
        exact hround.2.2.1 _ ha hb v hlt rfl hm

theorem query_walk_keys_sample :
    ∃ keys : List QueryKey, (∃ enough, ∀ rounds, enough ≤ rounds →
        walkRounds rounds rounds (queryWalkBegin sampleQuery true true) = some keys) ∧
      (∃ key ∈ keys, key.key = 0 ∧ key.low ≤ 900 ∧ 900 ≤ key.high) ∧
      ∃ key ∈ keys, key.key = 2 ∧ key.low ≤ 1 ∧ 1 ≤ key.high := by
  obtain ⟨⟨keys, hrun, -, -, hcovers⟩, -⟩ := query_walk_keys sampleQuery valid_sampleQuery true true
  exact ⟨keys, hrun, hcovers 900 (by decide) (by decide +kernel),
    hcovers 131073 (by decide) (by decide +kernel)⟩

end Arnm.Roaring
