import Arnm.Roaring.Add

set_option autoImplicit false

/-! # Adds the pool refuses

A pool is known here by its answers, one after the other, so that a refusal can be placed at any
request. A set of `sparseMax` sparse values first becomes containers and then takes the value: how
many requests each part makes follows from the values, and with them when a refused add leaves the
set as it was.
-/

namespace Arnm.Roaring

open Memory Lending

/-- The pool's answers to its requests. -/
abbrev Answers := Nat → Except Refusal Nat

def Answers.pool (answers : Answers) : BlockPool Nat := Lender.answering answers

/-- The requests from number `asked` on are granted. -/
def Granted (answers : Answers) (asked requests : Nat) : Prop :=
  ∀ i < requests, ∃ addr, answers (asked + i) = .ok addr

section Granted

variable {answers : Answers} {asked m n : Nat}

theorem granted_zero : Granted answers asked 0 := fun _ hi => absurd hi (Nat.not_lt_zero _)

theorem granted_one : Granted answers asked 1 ↔ ∃ addr, answers asked = .ok addr := by
  constructor
  · intro h
    exact h 0 Nat.one_pos
  · intro h i hi
    rwa [Nat.lt_one_iff.mp hi]

theorem granted_add : Granted answers asked (m + n) ↔
    Granted answers asked m ∧ Granted answers (asked + m) n := by
  constructor
  · intro h
    refine ⟨fun i hi => h i (by omega), fun i hi => ?_⟩
    rw [Nat.add_assoc]
    exact h (m + i) (by omega)
  · rintro ⟨h, h'⟩ i hi
    rcases Nat.lt_or_ge i m with hlt | hge
    · exact h i hlt
    · have := h' (i - m) (by omega)
      rwa [show asked + m + (i - m) = asked + i by omega] at this

end Granted

/-! ## Counting requests -/

/-- The number of keys of the values. -/
def keyCount (values : List Nat) : Nat := (values.map keyOf).toFinset.card

/-- One more container finds the directory full: the first one, and each time their number is a
power of two. -/
def directoryGrowth (count : Nat) : Nat := if count = 0 ∨ count = 2 ^ Nat.clog 2 count then 1 else 0

/-- The directory blocks taken on the way to `count` containers. -/
def directoryBlocks (count : Nat) : Nat := if count = 0 then 0 else Nat.clog 2 count + 1

/-- The requests of the change from sparse values to containers. -/
def switchRequests (values : List Nat) : Nat := keyCount values + directoryBlocks (keyCount values)

/-- The requests of appending `v` behind containers just made of the values. -/
def appendRequests (values : List Nat) (v : Nat) : Nat :=
  let last := (values.filter fun u => keyOf u = keyOf v).length
  if last = 0 then 1 + directoryGrowth (keyCount values)
  else if 2 * last = 2 ^ log2ForBytes (last * 2) then 1 else 0

theorem clog_succ (count : Nat) :
    Nat.clog 2 (count + 1) = Nat.clog 2 count + if count = 2 ^ Nat.clog 2 count then 1 else 0 := by
  have hle : count ≤ 2 ^ Nat.clog 2 count := Nat.le_pow_clog (by decide) count
  by_cases hpow : count = 2 ^ Nat.clog 2 count
  · rw [if_pos hpow]
    refine le_antisymm (Nat.clog_le_of_le_pow ?_) ?_
    · rw [Nat.pow_succ]
      have := Nat.two_pow_pos (Nat.clog 2 count)
      omega
    · exact (Nat.lt_clog_iff_pow_lt (by decide)).mpr (by omega)
  · simp only [if_neg hpow, Nat.add_zero]
    exact le_antisymm (Nat.clog_le_of_le_pow (by omega)) (Nat.clog_mono_right 2 (Nat.le_succ count))

theorem directoryBlocks_succ (count : Nat) :
    directoryBlocks (count + 1) = directoryBlocks count + directoryGrowth count := by
  unfold directoryBlocks directoryGrowth
  rw [if_neg (Nat.succ_ne_zero count)]
  by_cases h0 : count = 0
  · subst h0
    decide
  · rw [if_neg h0, clog_succ]
    simp only [h0, false_or]
    omega

/-! ## The requests of the parts -/

/-- The directory is the smallest that holds the containers. -/
def Bitmap.Tight (set : Bitmap) : Prop :=
  (set.block = none ∧ set.containers = []) ∨
    (set.block ≠ none ∧ set.containers ≠ [] ∧ set.directoryLog2 = 4 + Nat.clog 2 set.count)

variable {answers : Answers} {asked : Nat}

/-- A tight directory grows exactly when it has to. -/
theorem push_answers (answers : Answers) (asked : Nat) {set : Bitmap} (c : Container)
    (ht : set.Tight) :
    let r := pushContainer answers.pool set c asked
    (Granted answers asked (directoryGrowth set.count) → r.result = .success ∧
      r.pool = asked + directoryGrowth set.count ∧ r.set.Tight ∧
      r.set.containers = set.containers ++ [c]) ∧
    (¬ Granted answers asked (directoryGrowth set.count) → r.result.isError = true) := by
  have hfull : (set.count = if set.block.isSome then 2 ^ set.directoryLog2 / 16 else 0) ↔
      (set.count = 0 ∨ set.count = 2 ^ Nat.clog 2 set.count) := by
    rcases ht with ⟨hb, hc⟩ | ⟨hb, hc, hd⟩
    · simp [hb, hc, Bitmap.count]
    · have hpos : set.count ≠ 0 := fun h0 => hc (List.length_eq_zero_iff.mp h0)
      rw [if_pos (Option.isSome_iff_ne_none.mpr hb), hd, Nat.pow_add]
      have : (2 : Nat) ^ 4 * 2 ^ Nat.clog 2 set.count / 16 = 2 ^ Nat.clog 2 set.count := by omega
      rw [this]
      exact (or_iff_right hpos).symm
  -- the directory after the push, in either case
  have htight : ∀ (block d : Nat), d = 4 + Nat.clog 2 (set.count + 1) →
      Bitmap.Tight { set with
        block := some block, directoryLog2 := d, containers := set.containers ++ [c] } := by
    intro block d hd
    refine Or.inr ⟨by simp, by simp, ?_⟩
    simpa [Bitmap.count] using hd
  intro r
  simp only [r, pushContainer]
  by_cases hcap : set.count = if set.block.isSome then 2 ^ set.directoryLog2 / 16 else 0
  · have hgrowth : directoryGrowth set.count = 1 := if_pos (hfull.mp hcap)
    rw [if_pos hcap, hgrowth, granted_one]
    simp only [Answers.pool, Lender.answering]
    cases hans : answers asked with
    | error refusal =>
        refine ⟨?_, fun _ => refusal.isError⟩
        rintro ⟨addr, ha⟩
        cases ha
    | ok addr =>
        refine ⟨fun _ => ⟨rfl, by cases set.block <;> rfl, htight addr _ ?_, rfl⟩,
          fun hn => absurd ⟨addr, rfl⟩ hn⟩
        rcases ht with ⟨hb, hc⟩ | ⟨hb, hc, hd⟩
        · simp [hb, hc, Bitmap.count, directoryLog2First]
        · have hpos : set.count ≠ 0 := fun h0 => hc (List.length_eq_zero_iff.mp h0)
          have hpow := (hfull.mp hcap).resolve_left hpos
          rw [if_pos (Option.isSome_iff_ne_none.mpr hb), hd, clog_succ, if_pos hpow]
          omega
  · have hgrowth : directoryGrowth set.count = 0 := if_neg fun h => hcap (hfull.mpr h)
    rw [if_neg hcap, hgrowth]
    refine ⟨fun _ => ⟨rfl, rfl, ?_, rfl⟩, fun hn => absurd granted_zero hn⟩
    rcases ht with ⟨hb, hc⟩ | ⟨hb, hc, hd⟩
    · exact absurd (hfull.mpr (Or.inl (by simp [Bitmap.count, hc]))) hcap
    · obtain ⟨block, hblock⟩ := Option.ne_none_iff_exists'.mp hb
      have := htight block set.directoryLog2 (by
        rw [hd, clog_succ, if_neg fun hp => hcap (hfull.mpr (Or.inr hp))]
        rfl)
      rwa [← hblock] at this

/-- An array container takes its block and then its place in the directory. -/
theorem emitArray_answers (answers : Answers) (asked : Nat) {out : Bitmap} (key : Nat)
    (values : List Nat) (ht : out.Tight)
    (hne : values ≠ []) (hroom : out.cardinality + values.length ≤ uint32Max) :
    let r := emitArray answers.pool out key values values.length asked
    (Granted answers asked (1 + directoryGrowth out.count) → r.result = .success ∧
      r.pool = asked + (1 + directoryGrowth out.count) ∧ r.set.Tight ∧
      ∃ data, r.set.containers = out.containers ++
        [⟨data, .array values, values.length, key, log2ForBytes (values.length * 2)⟩]) ∧
    (¬ Granted answers asked (1 + directoryGrowth out.count) → r.result.isError = true) := by
  intro r
  have h0 : values.length ≠ 0 := fun h0 => hne (List.length_eq_zero_iff.mp h0)
  have hfit : ¬ uint32Max - values.length < out.cardinality := by
    simp only [uint32Max] at hroom ⊢
    omega
  simp only [r, emitArray, if_neg h0, if_neg hfit]
  rw [granted_add, granted_one]
  cases hans : answers asked with
  | error refusal =>
      simp only [Answers.pool, Lender.answering, hans]
      refine ⟨?_, fun _ => refusal.isError⟩
      rintro ⟨⟨addr, ha⟩, -⟩
      cases ha
  | ok data =>
      have halloc : answers.pool.alloc (log2ForBytes (values.length * 2)) asked
          = (.ok data, asked + 1) := by
        simp only [Answers.pool, Lender.answering, hans]
      simp only [halloc, List.take_length]
      obtain ⟨hgranted, hrefused⟩ := push_answers answers (asked + 1)
        ⟨data, .array values, values.length, key, log2ForBytes (values.length * 2)⟩ ht
      generalize pushContainer answers.pool out _ (asked + 1) = pushed at hgranted hrefused ⊢
      constructor
      · rintro ⟨-, hg⟩
        obtain ⟨hok, hpool, htight, hcontainers⟩ := hgranted hg
        rw [if_pos hok]
        refine ⟨rfl, by rw [hpool]; omega, ?_, data, hcontainers⟩
        exact htight
      · intro hn
        have herr := hrefused fun hg => hn ⟨⟨data, rfl⟩, hg⟩
        rw [if_neg (Result.ne_success_of_isError herr)]
        exact herr

/-! ## The change to containers -/

/-- The keys of a sorted list are that of its first group and those of the rest. -/
theorem FirstGroup.keyCount {value : Nat} {values group rest : List Nat}
    (g : FirstGroup value values group rest) :
    keyCount (value :: values) = 1 + Roaring.keyCount rest := by
  have hfin : ((value :: values).map keyOf).toFinset =
      insert (keyOf value) (rest.map keyOf).toFinset := by
    refine Finset.ext fun k => ?_
    rw [Finset.mem_insert, List.mem_toFinset, List.mem_toFinset, ← g.append_eq, List.map_append,
      List.mem_append, List.mem_map]
    refine or_congr_left ⟨?_, ?_⟩
    · rintro ⟨v, hv, rfl⟩
      exact g.key_eq v hv
    · rintro rfl
      obtain ⟨v, hv⟩ := List.exists_mem_of_ne_nil _ g.ne_nil
      exact ⟨v, hv, g.key_eq v hv⟩
  have hnot : keyOf value ∉ (rest.map keyOf).toFinset := by
    rw [List.mem_toFinset, List.mem_map]
    rintro ⟨v, hv, hk⟩
    have := g.next_le v hv
    omega
  rw [Roaring.keyCount, hfin, Finset.card_insert_of_notMem hnot, Roaring.keyCount, Nat.add_comm]

/-- The requests for containers of so many keys behind `count` others. -/
def containerRequests (count keys : Nat) : Nat :=
  keys + (directoryBlocks (count + keys) - directoryBlocks count)

theorem containerRequests_zero (count : Nat) : containerRequests count 0 = 0 := by
  simp [containerRequests]

/-- The requests of one key, then those of the others. -/
theorem containerRequests_succ (count keys : Nat) :
    containerRequests count (1 + keys) =
      (1 + directoryGrowth count) + containerRequests (count + 1) keys := by
  have hstep := directoryBlocks_succ count
  have hmono : directoryBlocks (count + 1) ≤ directoryBlocks (count + 1 + keys) := by
    unfold directoryBlocks
    rw [if_neg (by omega), if_neg (by omega)]
    exact Nat.succ_le_succ (Nat.clog_mono_right 2 (by omega))
  unfold containerRequests
  rw [show count + (1 + keys) = count + 1 + keys by omega]
  omega

/-- The last container of a set made of the values. -/
def LastMade (set : Bitmap) (values : List Nat) : Prop :=
  ∃ m ∈ values.getLast?, ∃ (data : Nat) (lows : List Nat),
    lows.length = (values.filter fun u => keyOf u = keyOf m).length ∧
    set.containers.getLast? =
      some ⟨data, .array lows, lows.length, keyOf m, log2ForBytes (lows.length * 2)⟩

theorem lastMade_of_group {set : Bitmap} {group : List Nat} {key : Nat} (data : Nat)
    (hne : group ≠ [])
    (hkey : ∀ v ∈ group, keyOf v = key)
    (hc : set.containers.getLast? = some ⟨data, .array (group.map lowOf), (group.map lowOf).length,
      key, log2ForBytes ((group.map lowOf).length * 2)⟩) : LastMade set group := by
  have hlast := hkey _ (List.getLast_mem hne)
  refine ⟨group.getLast hne, List.getLast?_eq_some_getLast hne, data, group.map lowOf, ?_, ?_⟩
  · rw [List.length_map, List.filter_eq_self.mpr]
    intro v hv
    simpa [hlast] using hkey v hv
  · rw [hlast]
    exact hc

theorem lastMade_append {set : Bitmap} {group rest : List Nat} {key : Nat}
    (hkey : ∀ v ∈ group, keyOf v = key) (hnext : ∀ v ∈ rest, key + 1 ≤ keyOf v)
    (h : LastMade set rest) : LastMade set (group ++ rest) := by
  obtain ⟨m, hm, data, lows, hlows, hc⟩ := h
  rw [Option.mem_def] at hm
  have hmk := hnext m (List.mem_of_getLast? hm)
  refine ⟨m, ?_, data, lows, ?_, hc⟩
  · rw [Option.mem_def, List.getLast?_append, hm]
    rfl
  · have hnone : group.filter (fun u => decide (keyOf u = keyOf m)) = [] := by
      refine List.filter_eq_nil_iff.mpr fun u hu => ?_
      have := hkey u hu
      simp only [decide_eq_true_eq]
      omega
    rw [List.filter_append, hnone, List.nil_append, hlows]

/-- The last container made is the last of the rest, or that of the group itself. -/
theorem FirstGroup.lastMade {value fuel asked : Nat} {values group rest : List Nat}
    (g : FirstGroup value values group rest) {emitted : Bitmap} (data : Nat)
    (hlast : emitted.containers.getLast? = some ⟨data, .array (group.map lowOf),
      (group.map lowOf).length, keyOf value, log2ForBytes ((group.map lowOf).length * 2)⟩)
    (hrest : rest ≠ [] →
      LastMade (valuesToContainers answers.pool fuel emitted rest asked).set rest) :
    LastMade (valuesToContainers answers.pool fuel emitted rest asked).set (value :: values) := by
  rw [← g.append_eq]
  by_cases hre : rest = []
  · subst hre
    have hsame : (valuesToContainers answers.pool fuel emitted [] asked).set = emitted := by
      cases fuel <;> rfl
    rw [hsame, List.append_nil]
    exact lastMade_of_group data g.ne_nil g.key_eq hlast
  · exact lastMade_append g.key_eq g.next_le (hrest hre)

/-- The change makes one request for each key and those of the directory, and succeeds exactly if
all are granted. -/
theorem valuesToContainers_answers (answers : Answers) (asked fuel : Nat) {out : Bitmap}
    {values : List Nat} {k : Nat}
    (ht : out.Tight) (hu : out.Under k) (hs : values.Pairwise (· < ·))
    (hlt : ∀ v ∈ values, v < 2 ^ 32) (hk : ∀ v ∈ values, k ≤ keyOf v)
    (hlen : values.length ≤ arrayMax) (hfuel : values.length ≤ fuel)
    (hroom : out.members.length + values.length ≤ uint32Max) :
    let r := valuesToContainers answers.pool fuel out values asked
    let requests := containerRequests out.count (keyCount values)
    (Granted answers asked requests → r.result = .success ∧ r.pool = asked + requests ∧
      r.set.Tight ∧ r.set.count = out.count + keyCount values ∧
      (values ≠ [] → LastMade r.set values)) ∧
    (¬ Granted answers asked requests → r.result.isError = true) := by
  induction fuel generalizing out values k asked with
  | zero =>
      rw [List.length_eq_zero_iff.mp (Nat.le_zero.mp hfuel), show keyCount [] = 0 from rfl,
        containerRequests_zero]
      exact ⟨fun _ => ⟨rfl, rfl, ht, rfl, fun hn => absurd rfl hn⟩,
        fun hn => absurd granted_zero hn⟩
  | succ fuel ih =>
      cases values with
      | nil =>
          rw [show keyCount [] = 0 from rfl, containerRequests_zero]
          exact ⟨fun _ => ⟨rfl, rfl, ht, rfl, fun hn => absurd rfl hn⟩,
            fun hn => absurd granted_zero hn⟩
      | cons value values =>
          intro r requests
          obtain ⟨group, rest, g, hreq⟩ :=
            valuesToContainers_cons (L := answers.pool) hs fuel out asked
          change r = _ at hreq
          have hcount := g.keyCount
          have hlength := g.length_eq
          simp only [List.length_cons] at hfuel hlen hroom
          have hcardinality := hu.valid.cardinality_eq
          have hemits := g.emits (L := answers.pool) (s := asked)
            (hu.mono (hk value List.mem_cons_self)) (hlt value List.mem_cons_self) hlen
          obtain ⟨hgranted, hrefused⟩ := emitArray_answers answers asked
            (keyOf value) (group.map lowOf) ht (by simpa using g.ne_nil)
            (by rw [List.length_map]; omega)
          generalize emitArray answers.pool out (keyOf value) (group.map lowOf)
            (group.map lowOf).length asked = emitted at *
          have hsum : requests = (1 + directoryGrowth out.count) +
              containerRequests (out.count + 1) (keyCount rest) := by
            rw [← containerRequests_succ, ← hcount]
          rw [hsum, granted_add]
          by_cases hg : Granted answers asked (1 + directoryGrowth out.count)
          · obtain ⟨hok, hpool, htight, data, hcontainers⟩ := hgranted hg
            obtain ⟨-, hunder, hmembers, -⟩ := hemits.resolve_right fun herr =>
              Result.ne_success_of_isError herr.1 hok
            rw [if_pos hok] at hreq
            have hcount' : emitted.set.count = out.count + 1 := by
              simp [Bitmap.count, hcontainers]
            have hrestlen := g.rest_le
            obtain ⟨hgranted', hrefused'⟩ := ih emitted.pool htight hunder g.rest_sorted
              (fun v hv => hlt v (g.mem_of_rest hv)) g.next_le (by omega) (by omega)
              (by rw [hmembers, g.map_lows, List.length_append]; omega)
            rw [hcount', hpool] at hgranted' hrefused'
            rw [hreq, hpool]
            constructor
            · rintro ⟨-, hg'⟩
              obtain ⟨hok', hpool', htight', hcount'', hlast⟩ := hgranted' hg'
              refine ⟨hok', by rw [hpool']; omega, htight', by rw [hcount'', hcount]; omega,
                fun _ => g.lastMade data ?_ hlast⟩
              rw [hcontainers, List.getLast?_concat]
            · intro hn
              exact hrefused' fun hg' => hn ⟨hg, hg'⟩
          · have herr := hrefused hg
            rw [if_neg (Result.ne_success_of_isError herr)] at hreq
            rw [hreq]
            exact ⟨fun hg' => absurd hg'.1 hg, fun _ => herr⟩

/-! ## Adding behind the change -/

theorem refusal_ne_success (refusal : Refusal) : ¬ refusal.result = .success := fun hok => by
  have := refusal.isError
  rw [hok] at this
  cases this

theorem arrayGrow_answers (last : Container) :
    (arrayGrow answers.pool last asked).result = .success ↔ Granted answers asked 1 := by
  rw [granted_one]
  simp only [arrayGrow, Answers.pool, Lender.answering]
  cases hans : answers asked with
  | error refusal =>
      refine ⟨fun hok => absurd hok (refusal_ne_success refusal), ?_⟩
      rintro ⟨addr, ha⟩
      cases ha
  | ok addr => exact ⟨fun _ => ⟨addr, rfl⟩, fun _ => rfl⟩

/-- A value above all others that shares its key with one of them shares it with the greatest. -/
theorem filter_keyOf_eq_nil {values : List Nat} {m v : Nat} (hs : values.Pairwise (· < ·))
    (hm : values.getLast? = some m) (hmv : m < v) (hkey : keyOf m ≠ keyOf v) :
    values.filter (fun u => decide (keyOf u = keyOf v)) = [] := by
  refine List.filter_eq_nil_iff.mpr fun u hu => ?_
  have hle : u ≤ m := by
    have hne := List.ne_nil_of_mem hu
    rw [List.getLast?_eq_some_getLast hne, Option.some.injEq] at hm
    rw [← List.dropLast_append_getLast hne, hm] at hu hs
    rcases List.mem_append.mp hu with hu | hu
    · exact ((List.pairwise_append.mp hs).2.2 u hu m (by simp)).le
    · exact (List.mem_singleton.mp hu).le
  have hum := keyOf_mono hle
  have hmv := keyOf_mono hmv.le
  rw [decide_eq_true_eq]
  omega

/-- A low part gets into an array that is not full exactly if a larger block is granted where there
is no room left. -/
theorem appendLow_answers (data : Nat) (lows : List Nat) (key low : Nat)
    (hpos : lows.length ≠ 0) (hlen : lows.length < arrayMax) :
    (appendLow answers.pool ⟨data, .array lows, lows.length, key, log2ForBytes (lows.length * 2)⟩
        low asked).result = .success ↔
      Granted answers asked
        (if 2 * lows.length = 2 ^ log2ForBytes (lows.length * 2) then 1 else 0) := by
  have hcap : (lows.length = 2 ^ log2ForBytes (lows.length * 2) / 2) ↔
      2 * lows.length = 2 ^ log2ForBytes (lows.length * 2) := by
    have hge : lows.length * 2 ≤ 2 ^ log2ForBytes (lows.length * 2) := le_log2ForBytes (by
      simp only [arrayMax] at hlen
      omega)
    have heven : 2 ∣ 2 ^ log2ForBytes (lows.length * 2) := by
      refine dvd_pow_self 2 fun h0 => ?_
      rw [h0] at hge
      omega
    omega
  unfold appendLow
  simp only [if_neg (Nat.ne_of_lt hlen)]
  by_cases hfull : 2 * lows.length = 2 ^ log2ForBytes (lows.length * 2)
  · rw [if_pos (hcap.mpr hfull), if_pos hfull, ← arrayGrow_answers]
    split
    · exact Iff.rfl
    · exact Iff.rfl
  · rw [if_neg fun h => hfull (hcap.mp h), if_neg hfull]
    simpa using granted_zero

/-- A container for a new key gets in exactly if its block and a larger directory are granted. -/
theorem appendContainer_answers {set : Bitmap} (key low : Nat) (ht : set.Tight) :
    (appendContainer answers.pool set key low asked).result = .success ↔
      (∃ addr, answers asked = .ok addr) ∧
        Granted answers (asked + 1) (directoryGrowth set.count) := by
  unfold appendContainer
  cases hans : answers asked with
  | error refusal =>
      simp only [Answers.pool, Lender.answering, hans]
      refine ⟨fun hok => absurd hok (refusal_ne_success refusal), ?_⟩
      rintro ⟨⟨addr, ha⟩, -⟩
      cases ha
  | ok data =>
      have halloc : answers.pool.alloc arrayLog2First asked = (.ok data, asked + 1) := by
        simp only [Answers.pool, Lender.answering, hans]
      simp only [halloc]
      obtain ⟨hgranted, hrefused⟩ := push_answers answers (asked + 1)
        ⟨data, .array [low], 1, key, arrayLog2First⟩ ht
      generalize pushContainer answers.pool set _ (asked + 1) = pushed at hgranted hrefused ⊢
      by_cases hg : Granted answers (asked + 1) (directoryGrowth set.count)
      · have hok := (hgranted hg).1
        rw [if_pos hok]
        exact ⟨fun _ => ⟨⟨data, rfl⟩, hg⟩, fun _ => hok⟩
      · have herr := hrefused hg
        rw [if_neg (Result.ne_success_of_isError herr)]
        constructor
        · intro hok
          simp only at hok
          exact absurd hok (Result.ne_success_of_isError herr)
        · rintro ⟨-, hg'⟩
          exact absurd hg' hg

/-- On containers just made of the values, a later value makes `appendRequests`, and gets in
exactly if they are granted. -/
theorem addToContainers_answers {set : Bitmap} {values : List Nat} {v : Nat} (ht : set.Tight)
    (hlast : LastMade set values) (hs : values.Pairwise (· < ·))
    (habove : ∀ u ∈ values, u < v) (hlen : values.length < arrayMax)
    (hcount : set.count = keyCount values) :
    let r := addToContainers answers.pool set v asked
    (r.result = .success ↔ Granted answers asked (appendRequests values v)) := by
  obtain ⟨m, hm, data, lows, hlows, hc⟩ := hlast
  rw [Option.mem_def] at hm
  have hmem := List.mem_of_getLast? hm
  intro r
  have hr : r.result = .success ↔ (appendValue answers.pool set v asked).result = .success := by
    simp only [r, addToContainers]
    split <;> simp_all
  rw [hr]
  unfold appendValue appendRequests
  rw [hc]
  simp only
  by_cases hkey : keyOf m = keyOf v
  · have hpos : lows.length ≠ 0 := by
      rw [hlows]
      refine fun h0 => List.ne_nil_of_mem ?_ (List.length_eq_zero_iff.mp h0) (a := m)
      exact List.mem_filter.mpr ⟨hmem, by simp⟩
    have hshort : lows.length < arrayMax := by
      have hle := List.length_filter_le (fun u => decide (keyOf u = keyOf m)) values
      omega
    rw [if_pos hkey, ← hkey, ← hlows, if_neg hpos]
    exact appendLow_answers data lows (keyOf m) (lowOf v) hpos hshort
  · rw [if_neg hkey, filter_keyOf_eq_nil hs hm (habove m hmem) hkey, List.length_nil, if_pos rfl,
      granted_add, granted_one, ← hcount]
    exact appendContainer_answers (keyOf v) (lowOf v) ht

/-! ## When a refused add changes the set -/

/-- The pool grants what the change to containers needs and refuses what the value then needs. -/
def SwitchedThenRefused (answers : Answers) (asked : Nat) (set : Bitmap) (v : Nat) : Prop :=
  set.isSparse = true ∧ set.cardinality = sparseMax ∧ set.maximum < v ∧
    Granted answers asked (switchRequests set.values) ∧
    ¬ Granted answers (asked + switchRequests set.values) (appendRequests set.values v)

theorem tight_init : Bitmap.init.Tight := Or.inl ⟨rfl, rfl⟩

/-- On a sparse set of `sparseMax` values, the change makes its requests first and the value's
after them. -/
theorem add_at_limit (answers : Answers) (asked : Nat) {set : Bitmap} {v : Nat}
    (hw : set.WellFormed) (hlt : v < 2 ^ 32)
    (hs : set.isSparse = true) (hfull : set.cardinality = sparseMax) (hmax : set.maximum < v) :
    let r := add answers.pool set v asked
    (¬ Granted answers asked (switchRequests set.values) → r.set = set) ∧
    (Granted answers asked (switchRequests set.values) →
      (r.result = .success ↔ Granted answers (asked + switchRequests set.values)
        (appendRequests set.values v)) ∧
      (r.result ≠ .success → r.result.isError = true ∧ r.set.containers ≠ [])) := by
  have hf := hw.valid.sparseForm hs
  have hmembers := Bitmap.members_sparse hf.containers_eq
  have hlength := hf.cardinality_eq
  have hlong : set.values.length = 1024 := by
    rw [← hlength, hfull, sparseMax]
  have hne : set.values ≠ [] := fun hn => by
    rw [hn] at hlong
    cases hlong
  have habove : ∀ u ∈ set.values, u < v := fun u hu =>
    Nat.lt_of_le_of_lt (hw.valid.le_maximum (hmembers ▸ hu)).1 hmax
  obtain ⟨hgranted, hrefused⟩ := valuesToContainers_answers answers asked
    set.values.length tight_init (Bitmap.under_init 0) hf.sorted hf.lt (fun _ _ => Nat.zero_le _)
    (by rw [hlong]; decide) le_rfl (by rw [hlong]; decide)
  have hrequests : containerRequests Bitmap.init.count (keyCount set.values) =
      switchRequests set.values := by
    simp [containerRequests, switchRequests, Bitmap.count, Bitmap.init, directoryBlocks]
  rw [hrequests] at hgranted hrefused
  have hbuilt := valuesToContainers_cases (L := answers.pool) (s := asked) set.values.length
    (Bitmap.under_init 0) hf.sorted hf.lt (fun _ _ => Nat.zero_le _)
    (by rw [hlong]; decide) le_rfl
  intro r
  have hr : r = if (sparseToContainers answers.pool set asked).result = .success then
      addToContainers answers.pool (sparseToContainers answers.pool set asked).set v
        (sparseToContainers answers.pool set asked).pool
      else sparseToContainers answers.pool set asked := by
    simp only [r, add]
    rw [if_neg (fun hc => by omega), if_neg (fun hc => by omega),
      if_neg (by rw [hfull]; decide), if_pos hs, if_neg (by omega)]
  unfold sparseToContainers at hr
  rw [hlength] at hr
  simp only [List.take_length] at hr
  generalize valuesToContainers answers.pool set.values.length Bitmap.init set.values asked = built
    at hgranted hrefused hbuilt hr
  constructor
  · intro hg
    have herr := hrefused hg
    have hnot : ¬ built.result = .success := Result.ne_success_of_isError herr
    rw [hr]
    simp only [if_neg hnot]
  · intro hg
    obtain ⟨hok, hpool, htight, hcount, hlast⟩ := hgranted hg
    obtain ⟨⟨k, hunder⟩, -, hcases⟩ := hbuilt
    have hmem : built.set.members = set.values := by
      rcases hcases with ⟨-, hm⟩ | ⟨herr, -⟩
      · exact hm
      · exact absurd hok (Result.ne_success_of_isError herr)
    have hdir : built.set.containers ≠ [] := fun hn => hne (by rw [← hmem, hunder.members_nil hn])
    have hr' : r =
      addToContainers answers.pool built.set v (asked + switchRequests set.values) := by
      rw [hr, ← hpool]
      cases hb : set.block with
      | none => simp only [if_pos hok, if_true]
      | some block => simp only [if_pos hok, if_true, Answers.pool, Lender.answering]
    rw [hr']
    refine ⟨addToContainers_answers htight (hlast hne) hf.sorted habove
      (by rw [hlong]; decide) (by rw [hcount]; exact Nat.zero_add _), fun hnot => ?_⟩
    rcases addToContainers_cases (L := answers.pool) (s := asked + switchRequests set.values)
        hunder.valid hdir hlt (by rwa [hmem])
        (by rw [hunder.valid.cardinality_eq, hmem, hlong]; decide) with
      ⟨hok', -⟩ | ⟨herr, hset, -, -⟩
    · exact absurd hok' hnot
    · exact ⟨herr, by rw [hset]; exact hdir⟩

/-- An add that fails leaves the set as it was, unless the set had become containers before. -/
theorem add_unchanged_iff {set : Bitmap} {v : Nat} (hw : set.WellFormed) (hlt : v < 2 ^ 32) :
    ((add answers.pool set v asked).result.isError = true →
      (add answers.pool set v asked).set = set)
      ↔ ¬ SwitchedThenRefused answers asked set v := by
  by_cases hlimit : set.isSparse = true ∧ set.cardinality = sparseMax ∧ set.maximum < v
  · obtain ⟨hs, hfull, hmax⟩ := hlimit
    obtain ⟨hrefused, hgranted⟩ := add_at_limit answers asked hw hlt hs hfull hmax
    by_cases hg : Granted answers asked (switchRequests set.values)
    · obtain ⟨hiff, hchanged⟩ := hgranted hg
      constructor
      · rintro hkeep ⟨-, -, -, -, hnot⟩
        obtain ⟨herr, hne⟩ := hchanged fun hok => hnot (hiff.mp hok)
        rw [hkeep herr] at hne
        exact hne (Bitmap.isSparse_iff.mp hs)
      · intro hnot herr
        by_contra hc
        refine hnot ⟨hs, hfull, hmax, hg, fun hg' => ?_⟩
        rw [hiff.mpr hg'] at herr
        cases herr
    · exact ⟨fun _ hsw => hg hsw.2.2.2.1, fun _ _ => hrefused hg⟩
  · refine ⟨fun _ hsw => hlimit ⟨hsw.1, hsw.2.1, hsw.2.2.1⟩, fun _ herr => ?_⟩
    by_cases ht : set.Takes v
    · rcases add_takes (L := answers.pool) (s := asked) hw hlt ht with
        ⟨hok, -⟩ | ⟨-, -, -, -, -, hset | ⟨hs, hlong, -⟩⟩
      · exact absurd hok (Result.ne_success_of_isError herr)
      · exact hset
      · have hf := hw.valid.sparseForm hs
        rw [Bitmap.members_sparse hf.containers_eq] at hlong
        have hfull : set.cardinality = sparseMax := by
          rw [hf.cardinality_eq]
          exact le_antisymm hf.length_le hlong
        have hmax : set.maximum < v := by
          refine ht.1 _ (List.mem_of_getLast? (hw.valid.maximum_of_ne fun hn => ?_))
          rw [Bitmap.members_sparse hf.containers_eq] at hn
          rw [hn] at hlong
          simp [sparseMax] at hlong
        exact absurd ⟨hs, hfull, hmax⟩ hlimit
    · rw [add_not_takes hw.valid ht]

/-! ## Sets built by add alone -/

/-- The sets that adds build from an empty one, with the number of requests made so far, where no
add is refused behind a change to containers. -/
inductive BuiltByAdd (answers : Answers) : Bitmap → Nat → Prop where
  | init (asked : Nat) : BuiltByAdd answers Bitmap.init asked
  | step {set : Bitmap} {asked : Nat} (v : Nat) (built : BuiltByAdd answers set asked)
      (lt : v < 2 ^ 32) (whole : ¬ SwitchedThenRefused answers asked set v) :
      BuiltByAdd answers (add answers.pool set v asked).set (add answers.pool set v asked).pool

theorem sparseAdd_containers {σ : Type} {L : BlockPool σ} (set : Bitmap) (v : Nat) (s : σ) :
    (sparseAdd L set v s).set.containers = set.containers := by
  unfold sparseAdd
  simp only
  by_cases hcap : set.cardinality = if set.block.isSome then 2 ^ set.directoryLog2 / 4 else 0
  · rw [if_pos hcap]
    rcases L.alloc (if set.block.isSome then set.directoryLog2 + 1 else sparseLog2First) s with
      ⟨answer, s'⟩
    cases answer <;> rfl
  · rw [if_neg hcap]

/-- What holds of a set built by adds: one of few values is sparse. -/
theorem BuiltByAdd.sparse {set : Bitmap} (h : BuiltByAdd answers set asked) :
    set.WellFormed ∧ (set.members.length ≤ sparseMax → set.isSparse = true) := by
  induction h with
  | init asked => exact ⟨Bitmap.wellFormed_init, fun _ => rfl⟩
  | @step set asked v built hlt whole ih =>
      obtain ⟨hw, hsmall⟩ := ih
      refine ⟨(add_wellFormed hw hlt).1, ?_⟩
      by_cases ht : set.Takes v
      · rcases add_takes (L := answers.pool) (s := asked) hw hlt ht with
          ⟨-, -, hm, -⟩ | ⟨herr, -⟩
        · intro hle
          rw [hm, List.length_append, List.length_singleton] at hle
          have hs := hsmall (by omega)
          have hcard := hw.valid.cardinality_eq
          -- a set with room for one more stays with the sparse array
          have hadd : add answers.pool set v asked = sparseAdd answers.pool set v asked := by
            have hmaximum : set.cardinality ≠ 0 → set.maximum < v := fun h0 =>
              ht.1 _ (List.mem_of_getLast? (hw.valid.maximum_of_ne fun hn =>
                h0 (by rw [hcard, hn]; rfl)))
            unfold add
            rw [if_neg (fun hc => absurd (hmaximum hc.1) (by omega)),
              if_neg (fun hc => absurd (hmaximum hc.1) (by omega)),
              if_neg (by have := ht.2; omega), if_pos hs, if_pos (by omega)]
          rw [hadd, Bitmap.isSparse_iff, sparseAdd_containers]
          exact Bitmap.isSparse_iff.mp hs
        · rw [(add_unchanged_iff hw hlt).mpr whole herr]
          exact hsmall
      · rw [add_not_takes hw.valid ht]
        exact hsmall

/-- An add that fails leaves the set as it was if and only if the pool did not refuse behind a
change to containers; and where that never happens, a set of at most `sparseMax` values built by
adds alone is sparse. -/
theorem add_error_leaves_set (answers : Answers) :
    (∀ (asked : Nat) (set : Bitmap) (v : Nat), set.WellFormed → v < 2 ^ 32 →
      (((add answers.pool set v asked).result.isError = true →
          (add answers.pool set v asked).set = set) ↔ ¬ SwitchedThenRefused answers asked set v)) ∧
    ∀ (asked : Nat) (set : Bitmap), BuiltByAdd answers set asked →
      set.members.length ≤ sparseMax → set.isSparse = true :=
  ⟨fun _ _ _ hw hlt => add_unchanged_iff hw hlt, fun _ _ h => h.sparse.2⟩

/-- The values below `n` in a block of 4 KiB. -/
def firstValues (n : Nat) : Bitmap := ⟨some 4096, [], List.range n, n, n - 1, 12⟩

theorem wellFormed_firstValues {n : Nat} (h0 : 0 < n) (hn : n ≤ sparseMax) :
    (firstValues n).WellFormed := by
  have hm : (firstValues n).members = List.range n := Bitmap.members_sparse rfl
  refine ⟨⟨Or.inl ⟨rfl, List.pairwise_lt_range, fun v hv => ?_, ?_, ?_, fun h => ?_, fun _ => ?_⟩,
    fun v hv => ?_⟩, fun h => ?_⟩
  · rw [firstValues, List.mem_range] at hv
    simp only [sparseMax] at hn
    omega
  · simpa [firstValues] using hn
  · simp [firstValues]
  · cases h
  · simp only [sparseMax] at hn
    simp only [firstValues, List.length_range]
    omega
  · rw [hm, List.getLast?_range, if_neg (by omega)] at hv
    simpa [firstValues] using hv
  · rw [hm] at h
    have := congrArg List.length h
    rw [List.length_range, List.length_nil] at this
    omega

/-- A pool that has 2 KiB and 16 bytes left, and gets no more: of the requests below it grants two
and refuses the third. -/
def twoGranted : Answers := fun asked =>
  if asked < 2 then .ok (8192 + 2048 * asked)
  else .error ⟨.errorOutOfMemory, Result.isError_outOfMemory⟩

/-- The set of 1024 values gets its container and its directory; the block for the value of a new
key is refused, and the set is left as containers. -/
theorem add_error_changes_form :
    (firstValues 1024).WellFormed ∧ (firstValues 1024).isSparse = true ∧
      (add twoGranted.pool (firstValues 1024) 65536 0).result = .errorOutOfMemory ∧
      (add twoGranted.pool (firstValues 1024) 65536 0).set.isSparse = false := by
  refine ⟨wellFormed_firstValues (by decide) (by decide), rfl, ?_, ?_⟩
  · decide +kernel
  · decide +kernel

/-- The set that was left as containers is one of the exceptions; two values added to an empty set
are sparse. -/
theorem add_error_leaves_set_sample :
    SwitchedThenRefused twoGranted 0 (firstValues 1024) 65536 ∧
      (add twoGranted.pool (add twoGranted.pool Bitmap.init 7 0).set 65536 1).set.isSparse =
        true := by
  constructor
  · by_contra hnot
    have hkeep := ((add_error_leaves_set twoGranted).1 0 (firstValues 1024) 65536
      (wellFormed_firstValues (by decide) (by decide)) (by decide)).mpr hnot
    have hsame : (add twoGranted.pool (firstValues 1024) 65536 0).set = firstValues 1024 :=
      hkeep (by decide +kernel)
    have hform : (add twoGranted.pool (firstValues 1024) 65536 0).set.isSparse = false := by
      decide +kernel
    rw [hsame] at hform
    exact absurd hform (by decide)
  · have hroom : ∀ asked set v, set.cardinality ≠ sparseMax →
        ¬ SwitchedThenRefused twoGranted asked set v := fun _ _ _ hne h => hne h.2.1
    have built := ((BuiltByAdd.init 0).step 7 (by decide) (hroom _ _ _ (by decide))).step 65536
      (by decide) (hroom _ _ _ (by decide))
    exact (add_error_leaves_set twoGranted).2 _ _ built (by decide)

end Arnm.Roaring
