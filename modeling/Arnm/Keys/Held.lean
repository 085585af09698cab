import Arnm.Keys.Runs
import Arnm.Vector.Held

set_option autoImplicit false

/-! # The keys a map was reserved for

A reserve that succeeds leaves a table whose load limit is not below the number of keys and a key
vector that holds as many (`Roomy`). Inserts, lookups and clears keep both, whatever they do
beyond that number. Up to it an insert goes through no request at all: it comes out the same over
any allocator that lends the same memory (`AsksNothing`). -/

namespace Arnm.Keys

open Memory Arnm.Vector Probing

variable {σ : Type} {hashes : Hashes} {p : Provider σ} {st st' : State σ}
  {keys : List (List UInt8)} {others : List Block} {n : Nat} {q : Dictionary}

/-- The table has slots and the key vector buckets for `n` keys. -/
structure Roomy (n : Nat) (map : KeyMap) : Prop where
  slots : n ≤ loadLimit map.capacity
  buckets : n ≤ map.keys.heldCapacity

/-- The map has the slots and buckets it had, and maybe more. -/
structure Widened (map map' : KeyMap) : Prop where
  capacity : map.capacity ≤ map'.capacity
  keys : Grown map.keys map'.keys

theorem Widened.refl (map : KeyMap) : Widened map map := ⟨Nat.le_refl _, .of_same rfl rfl⟩

theorem Roomy.widened {map : KeyMap} (hroom : Roomy n map) (hwide : Widened map st.map)
    (h : Sound hashes p st keys others) : Roomy n st.map :=
  ⟨Nat.le_trans hroom.slots (loadLimit_mono hwide.capacity),
    Nat.le_trans hroom.buckets (hwide.keys.heldCapacity_le h.vector)⟩

/-! ## Reserve -/

/-- A reserve that succeeds leaves room for the keys. -/
theorem Sound.reserve_roomy (h : Sound hashes p st keys others)
    (hok : Keys.reserve p.toCalls st n = some (.success, st')) : Roomy n st'.map := by
  unfold Keys.reserve at hok
  split at hok
  · cases hok
  rw [if_neg h.elementSize_ne] at hok
  split at hok
  · cases hok
  rename_i hmax
  simp only at hok
  by_cases hkeys : (Vector.reserve p.toCalls st.keys n).1 = .success
  · rw [if_neg (not_not_intro hkeys)] at hok
    have hbuckets := h.vector.reserve_holds hkeys
    have hsound := h.withKeys (h.vector.reserve n).2.1
    obtain ⟨c, hge, hle, hcap, hslots⟩ := capacityFor_spec (Nat.le_of_not_lt hmax)
    rw [hcap] at hok
    split at hok
    · rename_i henough
      cases hok
      exact ⟨Nat.le_trans hslots (loadLimit_mono henough), hbuckets⟩
    · rename_i hmore
      -- the table is too small for the keys, so it holds fewer
      have hload : keys.length ≤ loadLimit (2 ^ c) := by
        rcases hsound.table with hbare | ⟨c', htable⟩
        · rw [hbare.keys]
          exact Nat.zero_le _
        · refine Nat.le_trans htable.load (loadLimit_mono ?_)
          rw [← htable.capacity]
          exact Nat.le_of_lt (Nat.lt_of_not_le hmore)
      obtain ⟨r, hr, -, hsame, -, hcase⟩ := hsound.rebuild hge hle hload
      rw [hr] at hok
      cases hok
      rcases hcase with ⟨herr, -⟩ | ⟨-, htable⟩
      · cases herr
      · refine ⟨?_, ?_⟩
        · rw [htable.capacity]
          exact hslots
        · rw [hsame]
          exact hbuckets
  · rw [if_pos hkeys] at hok
    exact absurd (congrArg Prod.fst (Option.some.inj hok)) hkeys

/-! ## What later calls leave -/

theorem rebuild_widened {allocator : Calls σ} {capacity : Nat} {r : Result × State σ}
    (hle : st.map.capacity ≤ capacity) (hr : rebuild allocator st capacity = some r) :
    st.map.capacity ≤ r.2.map.capacity ∧ r.2.map.keys = st.map.keys := by
  unfold rebuild at hr
  simp only at hr
  split at hr
  · cases hr
    exact ⟨Nat.le_refl _, rfl⟩
  · obtain ⟨table, -, heq⟩ := Option.map_eq_some_iff.mp hr
    cases heq
    exact ⟨hle, rfl⟩

theorem rebuildFor_widened {allocator : Calls σ} {capacity hash index : Nat}
    {r : Result × Nat × State σ} (hle : st.map.capacity ≤ capacity)
    (hr : rebuildFor allocator st capacity hash index = some r) :
    st.map.capacity ≤ r.2.2.map.capacity ∧ r.2.2.map.keys = st.map.keys := by
  unfold rebuildFor at hr
  obtain ⟨⟨result, st₁⟩, hbuilt, hrest⟩ := Option.bind_eq_some_iff.mp hr
  have hwide := rebuild_widened hle hbuilt
  simp only at hrest
  split at hrest
  · cases hrest
    exact hwide
  · obtain ⟨index', -, heq⟩ := Option.map_eq_some_iff.mp hrest
    cases heq
    exact hwide

theorem makeRoom_widened {allocator : Calls σ} {hash index : Nat} {r : Result × Nat × State σ}
    (hr : makeRoom allocator st hash index = some r) :
    st.map.capacity ≤ r.2.2.map.capacity ∧ r.2.2.map.keys = st.map.keys := by
  unfold makeRoom at hr
  split at hr
  · split at hr
    · cases hr
      exact ⟨Nat.le_refl _, rfl⟩
    · refine rebuildFor_widened ?_ hr
      split
      · omega
      · rename_i hz
        rw [not_not.mp hz]
        exact Nat.zero_le _
  · cases hr
    exact ⟨Nat.le_refl _, rfl⟩

theorem storeKey_widened (allocator : Calls σ) (st : State σ) (key : Nat → UInt8)
    (hash index : Nat) : Widened st.map (storeKey allocator st key hash index).2.2.map := by
  have hgrown := emplace_grown allocator st.keys true
  unfold storeKey
  simp only
  split
  · exact ⟨Nat.le_refl _, hgrown⟩
  · exact ⟨Nat.le_refl _, hgrown⟩

theorem insertAbsent_widened {allocator : Calls σ} {key : Nat → UInt8} {hash index : Nat}
    {r : Result × Option Nat × State σ}
    (hr : insertAbsent allocator st key hash index = some r) : Widened st.map r.2.2.map := by
  unfold insertAbsent at hr
  obtain ⟨⟨result, index', st₁⟩, hroom, heq⟩ := Option.map_eq_some_iff.mp hr
  obtain ⟨hcap, hkeys⟩ := makeRoom_widened hroom
  simp only at heq hcap hkeys
  split at heq
  · cases heq
    refine ⟨hcap, ?_⟩
    simp only
    rw [hkeys]
    exact .of_same rfl rfl
  · have hstored := storeKey_widened allocator st₁ key hash index'
    rw [heq] at hstored
    exact ⟨Nat.le_trans hcap hstored.capacity, hkeys ▸ hstored.keys⟩

theorem getOrInsert_widened {allocator : Calls σ} {key : Option (Nat → UInt8)}
    {outId outInserted : Bool} {r : Reply × State σ}
    (hr : getOrInsert allocator hashes st key outId outInserted = some r) :
    Widened st.map r.2.map := by
  have habsent : ∀ {key hash index},
      (insertAbsent allocator st key hash index).map (inserting outInserted) = some r →
      Widened st.map r.2.map := by
    intro key hash index hinsert
    obtain ⟨r₁, habsent, heq⟩ := Option.map_eq_some_iff.mp hinsert
    rw [← heq]
    exact insertAbsent_widened habsent
  unfold getOrInsert at hr
  split at hr
  · cases hr
    exact .refl _
  split at hr
  · cases hr
    exact .refl _
  simp only at hr
  split at hr
  · cases hr
    exact .refl _
  split at hr
  · obtain ⟨index, -, hrest⟩ := Option.bind_eq_some_iff.mp hr
    split at hrest
    · cases hrest
      exact .refl _
    · exact habsent hrest
  · exact habsent hr

/-- A generated insert for keys of another size does nothing. -/
theorem typedGetOrInsert_unfit {allocator : Calls σ} {keySize : Nat}
    (hne : keySize ≠ st.map.keys.elementSize) (key : Option (Nat → UInt8))
    (outId outInserted : Bool) :
    typedGetOrInsert allocator hashes keySize st key outId outInserted =
      some (.done (if key = none ∨ outId = false then .errorNullPointer else .errorInvalidState)
        none none, st) := by
  cases key with
  | none => rw [typedGetOrInsert, if_pos (Or.inl rfl)]
  | some key =>
      cases outId with
      | false =>
          rw [typedGetOrInsert, if_pos (rfl : false = false), if_pos (Or.inr (rfl : false = false))]
      | true => rw [typedGetOrInsert, if_neg (by decide), if_pos hne, if_neg (by simp)]

/-- Inserts, lookups and clears. -/
def Call.isUse : Call → Bool
  | .getOrInsert .. => true
  | .find .. => true
  | .clear => true
  | _ => false

theorem Represents.call_widened (h : Represents hashes p st q) {c : Call} (hc : c.isUse = true)
    {reply : Reply} (hcall : st.call p.toCalls hashes c = some (reply, st')) :
    Widened st.map st'.map := by
  cases c with
  | getOrInsert typed key outId outInserted =>
      -- a generated call for another key size is refused before it does anything
      by_cases hfits : Fits typed q.keySize
      · rw [h.getOrInsert hfits] at hcall
        exact getOrInsert_widened hcall
      · cases typed with
        | none => exact absurd (fun n hn => by cases hn) hfits
        | some k =>
            have hne : k ≠ st.map.keys.elementSize := fun hk => hfits fun j hj => by
              cases hj
              exact hk.trans h.1
            rw [State.call, typedGetOrInsert_unfit hne] at hcall
            cases hcall
            exact .refl _
  | find typed key outId =>
      cases typed with
      | none =>
          obtain ⟨answer, -, heq⟩ := Option.map_eq_some_iff.mp hcall
          cases heq
          exact .refl _
      | some k =>
          obtain ⟨answer, -, heq⟩ := Option.map_eq_some_iff.mp hcall
          cases heq
          exact .refl _
  | clear =>
      cases hcall
      exact ⟨Nat.le_refl _, .of_same rfl rfl⟩
  | init | initKeyed | reserve | free => cases hc

/-! ## Calls that ask for nothing -/

/-- The call makes no request: it comes out the same over any allocator that lends the same
memory. -/
def AsksNothing (allocator : Calls σ) (hashes : Hashes) (st : State σ) (c : Call) : Prop :=
  ∀ other : Calls σ, other.bytes = allocator.bytes → other.write = allocator.write →
    st.call other hashes c = st.call allocator hashes c

/-- The call leaves at most `n` keys: a key it inserts is there already, or there are fewer. -/
def Call.Within (allocator : Calls σ) (hashes : Hashes) (st : State σ) (n : Nat) : Call → Prop
  | .getOrInsert _ (some key) _ _ =>
    Keys.find allocator hashes st (some key) false = some (.found true none) ∨ st.map.size < n
  | _ => True

/-- An insert of a key that fits the map, with a place for its id. -/
def Call.Proper (keySize : Nat) : Call → Prop
  | .getOrInsert typed key outId _ => key ≠ none ∧ outId = true ∧ Fits typed keySize
  | _ => True

/-- The call was refused. -/
def Reply.isError : Reply → Bool
  | .done result _ _ => result.isError
  | .found _ _ => false

/-- An absent key goes into the table and the buckets there are. -/
theorem Sound.insertAbsent_held (h : Sound hashes p st keys others) (hroom : Roomy n st.map)
    (hlt : keys.length < n) (key : Nat → UInt8) (hash index : Nat) :
    ∃ r, Keys.insertAbsent p.toCalls st key hash index = some r ∧ r.1 = .success ∧
      ∀ other : Calls σ, other.bytes = p.bytes → other.write = p.write →
        Keys.insertAbsent other st key hash index = some r := by
  have hfew : ¬ loadLimit st.map.capacity ≤ st.map.size := by
    have hslots := hroom.slots
    rw [h.size]
    omega
  have hroomed : ∀ allocator : Calls σ,
      Keys.makeRoom allocator st hash index = some (.success, index, st) := fun _ => if_neg hfew
  obtain ⟨hok, hsame⟩ := h.vector.emplace_held (Nat.lt_of_lt_of_le hlt hroom.buckets)
  refine ⟨Keys.storeKey p.toCalls st key hash index, ?_, ?_, fun other hbytes hwrite => ?_⟩
  · rw [Keys.insertAbsent, hroomed]
    rfl
  · rw [Keys.storeKey, if_neg (not_not_intro hok)]
  · have hstore : Keys.storeKey other st key hash index =
        Keys.storeKey p.toCalls st key hash index := by
      unfold Keys.storeKey
      rw [hsame other hbytes, hbytes, hwrite]
    rw [Keys.insertAbsent, hroomed, ← hstore]
    rfl

/-- An insert within the number of keys. -/
theorem Sound.getOrInsert_held (h : Sound hashes p st keys others) (hroom : Roomy n st.map)
    {key : Nat → UInt8}
    (hwithin : KeyMap.keyBytes st.map.keys.elementSize key ∈ keys ∨ keys.length < n)
    (outInserted : Bool) :
    ∃ r, Keys.getOrInsert p.toCalls hashes st (some key) true outInserted = some r ∧
      r.1.isError = false ∧
      ∀ other : Calls σ, other.bytes = p.bytes → other.write = p.write →
        Keys.getOrInsert other hashes st (some key) true outInserted = some r := by
  -- a map without a table has no key and no room for one
  have hcap : st.map.capacity ≠ 0 := by
    intro hz
    have hslots := hroom.slots
    rw [(h.bare hz).keys, hz] at *
    exact hwithin.elim List.not_mem_nil fun hlt => absurd hlt (Nat.not_lt.mpr hslots)
  obtain ⟨c, htable⟩ := h.tabled hcap
  obtain ⟨pos, hprobe, hknown, habsent⟩ := h.probe htable
    (length_keyBytes st.map.keys.elementSize key)
  unfold Keys.getOrInsert
  simp only
  rw [if_neg (by decide), if_neg h.elementSize_ne, if_pos hcap, hprobe, Option.bind_some]
  -- a known key is found without the allocator, a new one has its room already
  by_cases hmem : KeyMap.keyBytes st.map.keys.elementSize key ∈ keys
  · have hne := htable.length_lt_emptyId
    have hid := List.idxOf_lt_length_iff.mpr hmem
    rw [hknown hmem, if_pos (by simp only; omega)]
    refine ⟨_, rfl, rfl, fun other hbytes _ => ?_⟩
    rw [if_neg (by decide), if_neg h.elementSize_ne, if_pos hcap, hbytes, hprobe, Option.bind_some,
      hknown hmem, if_pos (by simp only; omega)]
  · rw [if_neg (not_not_intro (habsent hmem).1)]
    obtain ⟨r, hr, hok, hsame⟩ := h.insertAbsent_held hroom (hwithin.resolve_left hmem) key
      (st.map.slotHash hashes (KeyMap.keyBytes st.map.keys.elementSize key)) pos
    rw [hr, Option.map_some]
    refine ⟨_, rfl, ?_, fun other hbytes hwrite => ?_⟩
    · rw [inserting, hok]
      rfl
    · rw [if_neg (by decide), if_neg h.elementSize_ne, if_pos hcap, hbytes, hprobe,
        Option.bind_some, if_neg (not_not_intro (habsent hmem).1), hsame other hbytes hwrite,
        Option.map_some]

/-- Lookups read the memory and nothing else. -/
theorem find_asksNothing (allocator : Calls σ) (hashes : Hashes) (st : State σ)
    (typed : Option Nat) (key : Option (Nat → UInt8)) (outId : Bool) :
    AsksNothing allocator hashes st (.find typed key outId) := by
  intro other hbytes _
  cases typed with
  | none =>
      unfold State.call Keys.find
      rw [hbytes]
  | some k =>
      unfold State.call typedFind
      rw [hbytes]

/-- An insert that does not fit the map comes to nothing, whatever the allocator. -/
theorem improper_insert (hashes : Hashes) (st : State σ) {typed : Option Nat}
    {key : Option (Nat → UInt8)} {outId outInserted : Bool}
    (himproper : ¬ (Call.getOrInsert typed key outId outInserted).Proper
      st.map.keys.elementSize) :
    ∃ result, ∀ allocator : Calls σ,
      st.call allocator hashes (.getOrInsert typed key outId outInserted) =
        some (.done result none none, st) := by
  have hnull : key = none ∨ outId = false → ∃ result, ∀ allocator : Calls σ,
      st.call allocator hashes (.getOrInsert typed key outId outInserted) =
        some (.done result none none, st) := by
    intro hnull
    refine ⟨.errorNullPointer, fun allocator => ?_⟩
    rcases hnull with rfl | rfl
    · cases typed <;> rfl
    · cases key <;> cases typed <;> rfl
  by_cases hz : key = none ∨ outId = false
  · exact hnull hz
  rw [not_or] at hz
  have hunfit : ¬ Fits typed st.map.keys.elementSize := fun hfits =>
    himproper ⟨hz.1, Bool.eq_true_of_not_eq_false hz.2, hfits⟩
  cases typed with
  | none => exact absurd (fun k hk => by cases hk) hunfit
  | some k =>
      have hne : k ≠ st.map.keys.elementSize := fun hk => hunfit fun j hj => by
        cases hj
        exact hk
      exact ⟨_, fun allocator => typedGetOrInsert_unfit hne key outId outInserted⟩

/-- A proper insert within the number of keys asks for nothing and is not refused. -/
theorem Sound.insert_held (h : Sound hashes p st keys others) (hroom : Roomy n st.map)
    {typed : Option Nat} (hfits : Fits typed st.map.keys.elementSize) {key : Nat → UInt8}
    {outInserted : Bool}
    (hwithin : (Call.getOrInsert typed (some key) true outInserted).Within p.toCalls hashes st n) :
    AsksNothing p.toCalls hashes st (.getOrInsert typed (some key) true outInserted) ∧
      ∃ reply st', st.call p.toCalls hashes (.getOrInsert typed (some key) true outInserted) =
        some (reply, st') ∧ reply.isError = false := by
  have hwithin' : KeyMap.keyBytes st.map.keys.elementSize key ∈ keys ∨ keys.length < n := by
    rw [Call.Within, h.find key false, h.size] at hwithin
    refine hwithin.imp_left fun hfound => ?_
    by_contra hnot
    rw [if_neg hnot] at hfound
    cases hfound
  have hcall : ∀ allocator : Calls σ, allocator.bytes = p.bytes →
      st.call allocator hashes (.getOrInsert typed (some key) true outInserted) =
        Keys.getOrInsert allocator hashes st (some key) true outInserted := by
    intro allocator hbytes
    cases typed with
    | none => rfl
    | some k =>
        rw [State.call, hfits k rfl]
        exact h.typedGetOrInsert hbytes (some key) true outInserted
  obtain ⟨⟨reply, st'⟩, hr, hok, hsame⟩ := h.getOrInsert_held hroom hwithin' outInserted
  refine ⟨fun other hbytes hwrite => ?_, reply, st', ?_, hok⟩
  · rw [hcall other hbytes, hcall p.toCalls rfl, hr, hsame other hbytes hwrite]
  · rw [hcall p.toCalls rfl, hr]

/-- In a map with room for `n` keys a use of it within `n` keys asks for nothing, and what is
properly inserted is not refused. -/
theorem Represents.call_held (h : Represents hashes p st q) (hroom : Roomy n st.map) {c : Call}
    (hc : c.isUse = true) (hwithin : c.Within p.toCalls hashes st n) :
    AsksNothing p.toCalls hashes st c ∧
      ∃ reply st', st.call p.toCalls hashes c = some (reply, st') ∧
        (c.Proper st.map.keys.elementSize → reply.isError = false) := by
  cases c with
  | getOrInsert typed key outId outInserted =>
      by_cases hproper : (Call.getOrInsert typed key outId outInserted).Proper
          st.map.keys.elementSize
      · obtain ⟨hkey, rfl, hfits⟩ := hproper
        obtain ⟨key, rfl⟩ := Option.ne_none_iff_exists'.mp hkey
        obtain ⟨-, others, hsound⟩ := h
        obtain ⟨hasks, reply, st', hcall, hok⟩ := hsound.insert_held hroom hfits hwithin
        exact ⟨hasks, reply, st', hcall, fun _ => hok⟩
      · obtain ⟨result, hsame⟩ := improper_insert hashes st hproper
        refine ⟨fun other _ _ => ?_, _, _, hsame _, fun hnot => absurd hnot hproper⟩
        rw [hsame, hsame]
  | find typed key outId =>
      obtain ⟨reply, st', q', hcall, hserves, -⟩ := h.call (.find typed key outId)
      refine ⟨find_asksNothing _ _ _ _ _ _, reply, st', hcall, fun _ => ?_⟩
      cases hserves with
      | find | findNull | findUnfit => rfl
  | clear => exact ⟨fun _ _ _ => rfl, _, _, rfl, fun _ => rfl⟩
  | init | initKeyed | reserve | free => cases hc

/-! ## Runs after a reserve -/

/-- Uses of a map leave it the room it has. -/
theorem Represents.run_roomy {steps : List (Step σ)} (h : Represents hashes p st q)
    (hroom : Roomy n st.map) (hrun : Run hashes p st steps st')
    (huse : ∀ step ∈ steps, step.call.isUse = true) :
    Roomy n st'.map ∧ ∃ q', Represents hashes p st' q' := by
  induction hrun generalizing q with
  | nil st => exact ⟨hroom, q, h⟩
  | call answer rest ih =>
      have hwide := h.call_widened (huse _ List.mem_cons_self) answer
      obtain ⟨reply, st₁, q', hcall, -, h'⟩ := h.call _
      rw [hcall] at answer
      cases answer
      obtain ⟨others, hsound⟩ := h'.2
      exact ih h' (hroom.widened hwide hsound) fun step hstep =>
        huse step (List.mem_cons_of_mem _ hstep)
  | elsewhere held kept rest ih => exact ih (h.elsewhere held kept) hroom huse

/-- Once a reserve for `n` keys has succeeded, inserts, lookups and clears ask the allocator for
nothing, wherever they come in a sequence of such calls, as long as they leave no more than `n`
keys. They all return, and no proper insert among them is refused. -/
theorem reserve_suffices (hashes : Hashes) (p : Provider σ) (map : KeyMap)
    (keySize keysBucketLog2 : Nat) (hash : HashKind) (hashK0 hashK1 : Nat) {s : σ}
    {others : List Block} (hheld : p.holds s others)
    (hok : (initMap map keySize keysBucketLog2 hash hashK0 hashK1).1 = .success)
    {before : List (Step σ)} {st : State σ}
    (hbefore : Run hashes p
      ⟨(initMap map keySize keysBucketLog2 hash hashK0 hashK1).2, s⟩ before st)
    {n : Nat} {reserved : State σ}
    (hreserve : st.call p.toCalls hashes (.reserve n) = some (.done .success none none, reserved))
    {after : List (Step σ)} {st' : State σ} (hafter : Run hashes p reserved after st')
    (huse : ∀ step ∈ after, step.call.isUse = true) {c : Call} (hc : c.isUse = true)
    (hwithin : c.Within p.toCalls hashes st' n) :
    AsksNothing p.toCalls hashes st' c ∧
      ∃ reply st'', st'.call p.toCalls hashes c = some (reply, st'') ∧
        (c.Proper st'.map.keys.elementSize → reply.isError = false) := by
  obtain ⟨hinit, helem⟩ := initMap_sound hashes hheld hok
  have hstart : Represents hashes p
      ⟨(initMap map keySize keysBucketLog2 hash hashK0 hashK1).2, s⟩ (.empty keySize) :=
    ⟨helem, others, hinit⟩
  obtain ⟨q, -, hq⟩ := hstart.run hbefore
  obtain ⟨others', hsound⟩ := hq.2
  have hroom : Roomy n reserved.map := by
    obtain ⟨⟨result, st₁⟩, hr, heq⟩ := Option.map_eq_some_iff.mp hreserve
    cases heq
    exact hsound.reserve_roomy hr
  obtain ⟨reply, st₁, q', hcall, -, hq'⟩ := hq.call (.reserve n)
  rw [hreserve] at hcall
  cases hcall
  obtain ⟨hroom', q'', hq''⟩ := hq'.run_roomy hroom hafter huse
  exact hq''.call_held hroom' hc hwithin

/-- A key, a clear, and five keys. -/
def callsWithinSix : List Call :=
  [insertByte 9, .clear, insertByte 10, insertByte 20, insertByte 30, insertByte 40, insertByte 50]

/-- Six keys are reserved where one is there already, and after these calls a sixth asks for
nothing. -/
theorem reserve_suffices_sample :
    ∃ before st reserved after st',
      sampleMap.run (Provider.ofArena noHost).toCalls collidingHashes [insertByte 5] =
        some (before, st) ∧
      st.call (Provider.ofArena noHost).toCalls collidingHashes (.reserve 6) =
        some (.done .success none none, reserved) ∧
      reserved.run (Provider.ofArena noHost).toCalls collidingHashes callsWithinSix =
        some (after, st') ∧
      AsksNothing (Provider.ofArena noHost).toCalls collidingHashes st' (insertByte 60) := by
  have hruns : ((sampleMap.run (Provider.ofArena noHost).toCalls collidingHashes
      [insertByte 5]).bind fun r =>
      (r.2.call (Provider.ofArena noHost).toCalls collidingHashes (.reserve 6)).bind fun r₁ =>
      (r₁.2.run (Provider.ofArena noHost).toCalls collidingHashes callsWithinSix).map fun r₂ =>
        (r₁.1, r₂.1.all fun step => step.call.isUse, r₂.2.map.size)) =
      some (.done .success none none, true, 5) := by
    decide +kernel
  obtain ⟨⟨before, st⟩, hbefore, hruns⟩ := Option.bind_eq_some_iff.mp hruns
  obtain ⟨⟨reply, reserved⟩, hreserve, hruns⟩ := Option.bind_eq_some_iff.mp hruns
  obtain ⟨⟨after, st'⟩, hafter, hruns⟩ := Option.map_eq_some_iff.mp hruns
  simp only [Prod.mk.injEq] at hruns hreserve
  obtain ⟨rfl, huse, hsize⟩ := hruns
  have hwithin : (insertByte 60).Within (Provider.ofArena noHost).toCalls collidingHashes st' 6 :=
    Or.inr (by rw [hsize]; decide)
  refine ⟨before, st, reserved, after, st', hbefore, hreserve, hafter, ?_⟩
  exact (reserve_suffices collidingHashes (Provider.ofArena noHost)
    ⟨0, [], ⟨0, 0, 0, 0, 0, 0, 0, 0, 0, 0⟩, 0, 0, 0, .fast⟩ 1 1 .fast 0 0 lentArena_200_holds
    (by decide) (Run.of_calls hbefore) hreserve (Run.of_calls hafter)
    (fun step hstep => List.all_eq_true.mp huse step hstep) rfl hwithin).1

end Arnm.Keys
