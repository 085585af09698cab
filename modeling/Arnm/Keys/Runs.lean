import Arnm.Keys.Insert

set_option autoImplicit false

/-! # Runs of a key map

`Serves` is what a dictionary from keys to dense ids answers to the calls of a key map. Calls of
the library and the generated ones are mixed in any way, and between them others use the allocator
as long as they leave the map's blocks alone. In every state reached the map is the dictionary
(`map_is_dictionary`). -/

namespace Arnm.Keys

open Memory Arnm.Vector Probing

/-! ## A dictionary -/

/-- Distinct keys of one size; the id of a key is its place. -/
structure Dictionary where
  keySize : Nat
  keys : List (List UInt8)
  whole : ∀ key ∈ keys, key.length = keySize
  distinct : keys.Nodup

namespace Dictionary

theorem whole_nil (keySize : Nat) : ∀ key ∈ ([] : List (List UInt8)), key.length = keySize :=
  fun _ hkey => absurd hkey List.not_mem_nil

/-- No keys. -/
def empty (keySize : Nat) : Dictionary := ⟨keySize, [], whole_nil keySize, List.nodup_nil⟩

variable (q : Dictionary)

/-- One more key, under the next id. -/
def add (key : List UInt8) (hlen : key.length = q.keySize) (hnew : key ∉ q.keys) : Dictionary where
  keySize := q.keySize
  keys := q.keys ++ [key]
  whole x hx := by
    rcases List.mem_append.mp hx with hx | hx
    · exact q.whole x hx
    · rw [List.mem_singleton.mp hx]
      exact hlen
  distinct := List.nodup_append.mpr ⟨q.distinct, List.nodup_singleton _, fun x hx y hy heq => by
    rw [List.mem_singleton.mp hy] at heq
    exact hnew (heq ▸ hx)⟩

/-- The id of a key. -/
def idOf (key : List UInt8) : Option Nat := if key ∈ q.keys then some (q.keys.idxOf key) else none

/-- The bytes of a key behind a pointer. -/
def bytesBehind (key : Nat → UInt8) : List UInt8 := KeyMap.keyBytes q.keySize key

end Dictionary

/-- The calls of a client. A lookup is the library's, or one generated for keys of some size. -/
inductive Call where
  | init (keySize keysBucketLog2 : Nat)
  | initKeyed (keySize keysBucketLog2 hashK0 hashK1 : Nat)
  | reserve (keyCount : Nat)
  | getOrInsert (typed : Option Nat) (key : Option (Nat → UInt8)) (outId outInserted : Bool)
  | find (typed : Option Nat) (key : Option (Nat → UInt8)) (outId : Bool)
  | clear
  | free

/-- The library's call, or the one generated for this size. -/
def Fits (typed : Option Nat) (keySize : Nat) : Prop := ∀ n ∈ typed, n = keySize

/-- What a dictionary answers. Which requests the allocator refuses is not said. -/
inductive Serves (q : Dictionary) : Call → Reply → Dictionary → Prop where
  | init (keySize keysBucketLog2 : Nat) :
      Serves q (.init keySize keysBucketLog2) (.done .success none none) (.empty keySize)
  | initKeyed (keySize keysBucketLog2 hashK0 hashK1 : Nat) :
      Serves q (.initKeyed keySize keysBucketLog2 hashK0 hashK1) (.done .success none none)
        (.empty keySize)
  | initRefused (keySize keysBucketLog2 : Nat) :
      Serves q (.init keySize keysBucketLog2) (.done .errorInvalidParam none none) q
  | initKeyedRefused (keySize keysBucketLog2 hashK0 hashK1 : Nat) :
      Serves q (.initKeyed keySize keysBucketLog2 hashK0 hashK1)
        (.done .errorInvalidParam none none) q
  | reserve (keyCount : Nat) (result : Result) :
      Serves q (.reserve keyCount) (.done result none none) q
  | known {typed : Option Nat} (fits : Fits typed q.keySize) {key : Nat → UInt8} {id : Nat}
      (has : q.idOf (q.bytesBehind key) = some id) (outInserted : Bool) :
      Serves q (.getOrInsert typed (some key) true outInserted)
        (.done .success (some id) (if outInserted then some false else none)) q
  | add {typed : Option Nat} (fits : Fits typed q.keySize) {key : Nat → UInt8}
      (new : q.bytesBehind key ∉ q.keys) (outInserted : Bool) :
      Serves q (.getOrInsert typed (some key) true outInserted)
        (.done .success (some q.keys.length) (if outInserted then some true else none))
        (q.add (q.bytesBehind key) (length_keyBytes _ _) new)
  | addRefused {typed : Option Nat} (fits : Fits typed q.keySize) {key : Nat → UInt8}
      (new : q.bytesBehind key ∉ q.keys) (outInserted : Bool) {result : Result}
      (error : result.isError = true) :
      Serves q (.getOrInsert typed (some key) true outInserted) (.done result none none) q
  | addNull (typed : Option Nat) {key : Option (Nat → UInt8)} {outId : Bool}
      (null : key = none ∨ outId = false) (outInserted : Bool) :
      Serves q (.getOrInsert typed key outId outInserted) (.done .errorNullPointer none none) q
  | addUnfit {typed : Option Nat} (unfit : ¬ Fits typed q.keySize) (key : Nat → UInt8)
      (outInserted : Bool) :
      Serves q (.getOrInsert typed (some key) true outInserted)
        (.done .errorInvalidState none none) q
  | find {typed : Option Nat} (fits : Fits typed q.keySize) (key : Nat → UInt8) (outId : Bool) :
      Serves q (.find typed (some key) outId)
        (.found (q.idOf (q.bytesBehind key)).isSome
          (if outId then q.idOf (q.bytesBehind key) else none)) q
  | findNull (typed : Option Nat) (outId : Bool) :
      Serves q (.find typed none outId) (.found false none) q
  | findUnfit {typed : Option Nat} (unfit : ¬ Fits typed q.keySize) (key : Nat → UInt8)
      (outId : Bool) : Serves q (.find typed (some key) outId) (.found false none) q
  | clear : Serves q .clear (.done .success none none) (.empty q.keySize)
  | free : Serves q .free (.done .success none none) (.empty q.keySize)

section

variable {σ : Type}

/-! ## Calls and runs -/

/-- Carry out a call; `none` when a walk over the table does not end. -/
def State.call (allocator : Calls σ) (hashes : Hashes) (st : State σ) :
    Call → Option (Reply × State σ)
  | .init keySize keysBucketLog2 =>
    let r := init st.map keySize keysBucketLog2
    some (.done r.1 none none, { st with map := r.2 })
  | .initKeyed keySize keysBucketLog2 hashK0 hashK1 =>
    let r := initKeyed st.map keySize keysBucketLog2 hashK0 hashK1
    some (.done r.1 none none, { st with map := r.2 })
  | .reserve keyCount =>
    (reserve allocator st keyCount).map fun r => (.done r.1 none none, r.2)
  | .getOrInsert none key outId outInserted =>
    getOrInsert allocator hashes st key outId outInserted
  | .getOrInsert (some keySize) key outId outInserted =>
    typedGetOrInsert allocator hashes keySize st key outId outInserted
  | .find none key outId => (find allocator hashes st key outId).map fun reply => (reply, st)
  | .find (some keySize) key outId =>
    (typedFind allocator hashes keySize st key outId).map fun reply => (reply, st)
  | .clear => some (.done .success none none, { st with map := st.map.clear })
  | .free => some (.done .success none none, free allocator st)

/-- All blocks of a map between two calls. -/
def KeyMap.blocks (map : KeyMap) (m : Bytes) : List Block := map.keys.blocks m ++ map.tableBlock

/-- A call with its answer and the state it left. -/
structure Step (σ : Type) where
  call : Call
  reply : Reply
  after : State σ

/-- Calls, and between them whatever others do while they leave the map's blocks alone. -/
inductive Run (hashes : Hashes) (p : Provider σ) : State σ → List (Step σ) → State σ → Prop where
  | nil (st : State σ) : Run hashes p st [] st
  | call {st st₁ st' : State σ} {c : Call} {reply : Reply} {steps : List (Step σ)}
      (answer : st.call p.toCalls hashes c = some (reply, st₁))
      (rest : Run hashes p st₁ steps st') : Run hashes p st (⟨c, reply, st₁⟩ :: steps) st'
  | elsewhere {st st' : State σ} {heap : σ} {others : List Block} {steps : List (Step σ)}
      (held : p.holds heap (st.map.blocks (p.bytes st.heap) ++ others))
      (kept : Keeps (st.map.blocks (p.bytes st.heap)) (p.bytes st.heap) (p.bytes heap))
      (rest : Run hashes p { st with heap := heap } steps st') : Run hashes p st steps st'

/-- A dictionary answers the calls of a run. -/
inductive ServesRun : Dictionary → List (Step σ) → Dictionary → Prop where
  | nil (q : Dictionary) : ServesRun q [] q
  | cons {q q' q'' : Dictionary} {step : Step σ} {steps : List (Step σ)}
      (one : Serves q step.call step.reply q') (rest : ServesRun q' steps q'') :
      ServesRun q (step :: steps) q''

/-! ## The map is the dictionary -/

variable {hashes : Hashes} {p : Provider σ} {st st' : State σ} {q : Dictionary}

/-- The map is sound with the keys of the dictionary. -/
def Represents (hashes : Hashes) (p : Provider σ) (st : State σ) (q : Dictionary) : Prop :=
  st.map.keys.elementSize = q.keySize ∧ ∃ others, Sound hashes p st q.keys others

/-- An init starts an empty dictionary, or is refused. -/
theorem Represents.initMap (h : Represents hashes p st q)
    (keySize keysBucketLog2 : Nat) (hash : HashKind) (hashK0 hashK1 : Nat) :
    (initMap st.map keySize keysBucketLog2 hash hashK0 hashK1).1 = .success ∧
      Represents hashes p
        { st with map := (initMap st.map keySize keysBucketLog2 hash hashK0 hashK1).2 }
        (.empty keySize) ∨
    Keys.initMap st.map keySize keysBucketLog2 hash hashK0 hashK1 =
      (.errorInvalidParam, st.map) := by
  obtain ⟨-, others, hsound⟩ := h
  by_cases hok : (Keys.initMap st.map keySize keysBucketLog2 hash hashK0 hashK1).1 = .success
  · obtain ⟨hinit, helem⟩ := initMap_sound hashes hsound.held hok
    exact Or.inl ⟨hok, helem, _, hinit⟩
  · right
    unfold Keys.initMap at hok ⊢
    simp only at hok ⊢
    split at hok
    · rename_i hne
      rw [if_pos hne]
      unfold Vector.init at hne ⊢
      split at hne
      · rename_i hparam
        rw [if_pos hparam]
      · exact absurd rfl hne
    · exact absurd rfl hok

theorem Represents.getOrInsert (h : Represents hashes p st q) {typed : Option Nat}
    (hfits : Fits typed q.keySize) (key : Option (Nat → UInt8)) (outId outInserted : Bool) :
    st.call p.toCalls hashes (.getOrInsert typed key outId outInserted) =
      Keys.getOrInsert p.toCalls hashes st key outId outInserted := by
  obtain ⟨hsize, others, hsound⟩ := h
  cases typed with
  | none => rfl
  | some n =>
      have hn : n = st.map.keys.elementSize := (hfits n rfl).trans hsize.symm
      rw [State.call, hn]
      exact hsound.typedGetOrInsert rfl key outId outInserted

theorem Represents.find (h : Represents hashes p st q) {typed : Option Nat}
    (hfits : Fits typed q.keySize) (key : Nat → UInt8) (outId : Bool) :
    st.call p.toCalls hashes (.find typed (some key) outId) =
      some (.found (q.idOf (q.bytesBehind key)).isSome
        (if outId then q.idOf (q.bytesBehind key) else none), st) := by
  obtain ⟨hsize, others, hsound⟩ := h
  have hfind := hsound.find key outId
  rw [hsize] at hfind
  have hanswer : Keys.find p.toCalls hashes st (some key) outId =
      some (.found (q.idOf (q.bytesBehind key)).isSome
        (if outId then q.idOf (q.bytesBehind key) else none)) := by
    rw [hfind, Dictionary.idOf, Dictionary.bytesBehind]
    split
    · rfl
    · rw [Option.isSome_none, ite_self]
  cases typed with
  | none => rw [State.call, hanswer, Option.map_some]
  | some n =>
      have hn : n = st.map.keys.elementSize := (hfits n rfl).trans hsize.symm
      rw [State.call, hn, typedFind_eq, hanswer, Option.map_some]

/-- A call generated for another key size finds a map of keys it does not fit. -/
theorem Represents.elementSize_ne (h : Represents hashes p st q) {n : Nat}
    (hfits : ¬ Fits (some n) q.keySize) : n ≠ st.map.keys.elementSize := by
  intro hn
  apply hfits
  intro k hk
  cases hk
  exact hn.trans h.1

theorem Represents.call_getOrInsert (h : Represents hashes p st q) (typed : Option Nat)
    (key : Option (Nat → UInt8)) (outId outInserted : Bool) :
    ∃ reply st' q',
      st.call p.toCalls hashes (.getOrInsert typed key outId outInserted) = some (reply, st') ∧
        Serves q (.getOrInsert typed key outId outInserted) reply q' ∧
        Represents hashes p st' q' := by
  obtain ⟨hsize, others, hsound⟩ := id h
  cases key with
  | none =>
      refine ⟨_, st, q, ?_, .addNull typed (Or.inl rfl) outInserted, h⟩
      cases typed <;> rfl
  | some key =>
      cases outId with
      | false =>
          refine ⟨_, st, q, ?_, .addNull typed (Or.inr rfl) outInserted, h⟩
          cases typed <;> rfl
      | true =>
          -- a call generated for another key size looks no further than its parameters
          by_cases hfits : Fits typed q.keySize
          · rw [h.getOrInsert hfits]
            obtain ⟨⟨reply, st'⟩, hr, helem, hcase⟩ := hsound.getOrInsert key outInserted
            simp only at helem
            rw [hr]
            rw [hsize] at hcase helem
            rcases hcase with ⟨hmem, hknown⟩ | ⟨hnew, hreply, hsound'⟩ |
              ⟨hnew, ⟨result, herr, hreply⟩, hsound'⟩
            · cases hknown
              exact ⟨_, st, q, rfl, .known hfits (if_pos hmem) outInserted, h⟩
            · simp only at hreply
              rw [hreply]
              exact ⟨_, st', _, rfl, .add hfits hnew outInserted, helem, others, hsound'⟩
            · simp only at hreply
              rw [hreply]
              exact ⟨_, st', q, rfl, .addRefused hfits hnew outInserted herr, helem, others,
                hsound'⟩
          · refine ⟨_, st, q, ?_, .addUnfit hfits key outInserted, h⟩
            cases typed with
            | none => exact absurd (fun n hn => by cases hn) hfits
            | some n =>
                rw [State.call, typedGetOrInsert, if_neg (by decide),
                  if_pos (h.elementSize_ne hfits)]

theorem Represents.call_find (h : Represents hashes p st q) (typed : Option Nat)
    (key : Option (Nat → UInt8)) (outId : Bool) :
    ∃ reply st' q', st.call p.toCalls hashes (.find typed key outId) = some (reply, st') ∧
      Serves q (.find typed key outId) reply q' ∧ Represents hashes p st' q' := by
  cases key with
  | none =>
      refine ⟨_, st, q, ?_, .findNull typed outId, h⟩
      cases typed <;> rfl
  | some key =>
      by_cases hfits : Fits typed q.keySize
      · exact ⟨_, st, q, h.find hfits key outId, .find hfits key outId, h⟩
      · refine ⟨_, st, q, ?_, .findUnfit hfits key outId, h⟩
        cases typed with
        | none => exact absurd (fun n hn => by cases hn) hfits
        | some n =>
            rw [State.call, typedFind, if_pos (Or.inr (h.elementSize_ne hfits)), Option.map_some]

/-- A call returns and answers as the dictionary does. -/
theorem Represents.call (h : Represents hashes p st q) (c : Call) :
    ∃ reply st' q', st.call p.toCalls hashes c = some (reply, st') ∧ Serves q c reply q' ∧
      Represents hashes p st' q' := by
  obtain ⟨hsize, others, hsound⟩ := id h
  cases c with
  | init keySize keysBucketLog2 =>
      rcases h.initMap keySize keysBucketLog2 .fast 0 0 with ⟨hok, hinit⟩ | hrefused
      · refine ⟨_, _, _, rfl, ?_, hinit⟩
        rw [init, hok]
        exact .init _ _
      · refine ⟨_, _, q, rfl, ?_, ?_⟩
        · rw [init, hrefused]
          exact .initRefused _ _
        · rw [init, hrefused]
          exact h
  | initKeyed keySize keysBucketLog2 hashK0 hashK1 =>
      rcases h.initMap keySize keysBucketLog2 .siphash13 hashK0 hashK1 with
        ⟨hok, hinit⟩ | hrefused
      · refine ⟨_, _, _, rfl, ?_, hinit⟩
        rw [initKeyed, hok]
        exact .initKeyed _ _ _ _
      · refine ⟨_, _, q, rfl, ?_, ?_⟩
        · rw [initKeyed, hrefused]
          exact .initKeyedRefused _ _ _ _
        · rw [initKeyed, hrefused]
          exact h
  | reserve keyCount =>
      obtain ⟨r, hr, hsound', helem⟩ := hsound.reserve keyCount
      refine ⟨_, _, q, ?_, .reserve keyCount r.1, helem.trans hsize, others, hsound'⟩
      rw [State.call, hr, Option.map_some]
  | getOrInsert typed key outId outInserted =>
      exact h.call_getOrInsert typed key outId outInserted
  | find typed key outId => exact h.call_find typed key outId
  | clear => exact ⟨_, _, .empty q.keySize, rfl, .clear, hsize, others, hsound.clear⟩
  | free =>
      obtain ⟨hfree, helem⟩ := hsound.free
      exact ⟨_, _, .empty q.keySize, rfl, .free, helem.trans hsize, others, hfree⟩

/-- What others do to the allocator leaves the dictionary. -/
theorem Represents.elsewhere (h : Represents hashes p st q) {heap : σ} {others : List Block}
    (hheld : p.holds heap (st.map.blocks (p.bytes st.heap) ++ others))
    (hkept : Keeps (st.map.blocks (p.bytes st.heap)) (p.bytes st.heap) (p.bytes heap)) :
    Represents hashes p { st with heap := heap } q := by
  obtain ⟨hsize, others₀, hsound⟩ := h
  rw [KeyMap.blocks, List.append_assoc] at hheld
  have hvector := (hsound.vector.elsewhere hheld
    (hkept.subset (List.subset_append_left _ _))).1
  exact ⟨hsize, others, hvector, hsound.distinct, hsound.table⟩

/-- A run answers as the dictionary does. -/
theorem Represents.run {steps : List (Step σ)} (h : Represents hashes p st q)
    (hrun : Run hashes p st steps st') :
    ∃ q', ServesRun q steps q' ∧ Represents hashes p st' q' := by
  induction hrun generalizing q with
  | nil st => exact ⟨q, .nil q, h⟩
  | call answer rest ih =>
      obtain ⟨reply, st₁, q', hcall, hserves, h'⟩ := h.call _
      rw [hcall] at answer
      cases answer
      obtain ⟨q'', hrest, h''⟩ := ih h'
      exact ⟨q'', .cons hserves hrest, h''⟩
  | elsewhere held kept rest ih => exact ih (h.elsewhere held kept)

/-- What the map shows are the keys of the dictionary, each under its id. -/
structure IsDictionary (p : Provider σ) (st : State σ) (q : Dictionary) : Prop where
  size : st.map.size = q.keys.length
  keySize : st.map.keys.elementSize = q.keySize
  key : ∀ id (hid : id < q.keys.length),
    (p.bytes st.heap).read (st.map.key (p.bytes st.heap) id) q.keySize = q.keys[id]

theorem Represents.isDictionary (h : Represents hashes p st q) : IsDictionary p st q := by
  obtain ⟨hsize, others, hsound⟩ := h
  refine ⟨hsound.size, hsize, fun id hid => ?_⟩
  rw [← hsize]
  exact hsound.reads.read id hid

/-- An insert of a known key leaves the map and its allocator as they are. -/
theorem Represents.known_unchanged (h : Represents hashes p st q) {typed : Option Nat}
    {key : Nat → UInt8} {outId outInserted : Bool} {reply : Reply}
    (hknown : q.bytesBehind key ∈ q.keys)
    (hcall : st.call p.toCalls hashes (.getOrInsert typed (some key) outId outInserted) =
      some (reply, st')) : st' = st := by
  cases outId with
  | false => cases typed <;> cases hcall <;> rfl
  | true =>
      by_cases hfits : Fits typed q.keySize
      · rw [h.getOrInsert hfits] at hcall
        obtain ⟨hsize, others, hsound⟩ := h
        obtain ⟨r, hr, -, hcase⟩ := hsound.getOrInsert key outInserted
        rw [hsize] at hcase
        rw [hr] at hcall
        cases hcall
        rcases hcase with ⟨-, hsame⟩ | ⟨hnew, -⟩ | ⟨hnew, -⟩
        · cases hsame
          rfl
        · exact absurd hknown hnew
        · exact absurd hknown hnew
      · cases typed with
        | none => exact absurd (fun n hn => by cases hn) hfits
        | some n =>
            have hne : n ≠ st.map.keys.elementSize := fun hn => hfits fun k hk => by
              cases hk
              exact hn.trans h.1
            rw [State.call, typedGetOrInsert, if_neg (by decide), if_pos hne] at hcall
            cases hcall
            rfl

/-- From a map that init accepted, every run answers as a dictionary from keys to dense ids does
and leaves the map showing it; every further call returns, and one that inserts a known key
changes nothing, the allocator included. -/
theorem map_is_dictionary (hashes : Hashes) (p : Provider σ) (map : KeyMap)
    (keySize keysBucketLog2 : Nat) (hash : HashKind) (hashK0 hashK1 : Nat) {s : σ}
    {others : List Block} (hheld : p.holds s others)
    (hok : (initMap map keySize keysBucketLog2 hash hashK0 hashK1).1 = .success)
    {steps : List (Step σ)} {st : State σ}
    (hrun : Run hashes p ⟨(initMap map keySize keysBucketLog2 hash hashK0 hashK1).2, s⟩ steps st) :
    ∃ q, ServesRun (.empty keySize) steps q ∧ IsDictionary p st q ∧
      (∀ c, ∃ reply st', st.call p.toCalls hashes c = some (reply, st')) ∧
      ∀ typed key outId outInserted reply st', q.bytesBehind key ∈ q.keys →
        st.call p.toCalls hashes (.getOrInsert typed (some key) outId outInserted) =
          some (reply, st') → st' = st := by
  obtain ⟨hinit, helem⟩ := initMap_sound hashes hheld hok
  have hstart : Represents hashes p
      ⟨(initMap map keySize keysBucketLog2 hash hashK0 hashK1).2, s⟩ (.empty keySize) :=
    ⟨helem, others, hinit⟩
  obtain ⟨q, hserves, hq⟩ := hstart.run hrun
  refine ⟨q, hserves, hq.isDictionary, fun c => ?_, fun _ _ _ _ _ _ => hq.known_unchanged⟩
  obtain ⟨reply, st', -, hcall, -⟩ := hq.call c
  exact ⟨reply, st', hcall⟩

/-- Carry out calls with nothing between them. -/
def State.run (allocator : Calls σ) (hashes : Hashes) (st : State σ) :
    List Call → Option (List (Step σ) × State σ)
  | [] => some ([], st)
  | c :: calls =>
    (st.call allocator hashes c).bind fun r =>
      (r.2.run allocator hashes calls).map fun rest => (⟨c, r.1, r.2⟩ :: rest.1, rest.2)

theorem Run.of_calls {calls : List Call} {steps : List (Step σ)}
    (h : st.run p.toCalls hashes calls = some (steps, st')) : Run hashes p st steps st' := by
  induction calls generalizing st steps with
  | nil =>
      cases h
      exact .nil _
  | cons c calls ih =>
      rw [State.run, Option.bind_eq_some_iff] at h
      obtain ⟨⟨reply, st₁⟩, hcall, hrest⟩ := h
      obtain ⟨⟨steps', st₂⟩, hrun, heq⟩ := Option.map_eq_some_iff.mp hrest
      cases heq
      exact .call hcall (ih hrun)

end

/-- Hash functions under which all keys collide. -/
def collidingHashes : Hashes := ⟨fun _ => 0, fun _ _ _ => 0⟩

/-- A map for keys of one byte over an arena of 200 bytes. -/
def sampleMap : State (Heap × Nat) :=
  ⟨(init ⟨0, [], ⟨0, 0, 0, 0, 0, 0, 0, 0, 0, 0⟩, 0, 0, 0, .fast⟩ 1 1).2, (lentArena 200, 0)⟩

theorem lentArena_200_holds : (Provider.ofArena noHost).holds (lentArena 200, 0) [] :=
  lentArena_sound (by decide) (by decide) (by decide)

/-- An insert of the key of one byte. -/
def insertByte (b : UInt8) : Call := .getOrInsert none (some fun _ => b) true true

/-- Six keys in one cluster, a seventh for which the arena has no larger table, and lookups. -/
def sampleCalls : List Call :=
  [insertByte 10, insertByte 20, insertByte 30, insertByte 40, insertByte 50, insertByte 60,
    insertByte 70, insertByte 30, .find (some 1) (some fun _ => 60) true,
    .find none (some fun _ => 70) true]

/-- The seventh key is refused, and the others keep their ids. -/
theorem map_is_dictionary_sample :
    ∃ steps st, sampleMap.run (Provider.ofArena noHost).toCalls collidingHashes sampleCalls =
        some (steps, st) ∧
      steps.map Step.reply =
        [.done .success (some 0) (some true), .done .success (some 1) (some true),
        .done .success (some 2) (some true), .done .success (some 3) (some true),
        .done .success (some 4) (some true), .done .success (some 5) (some true),
        .done .errorOutOfMemory none none, .done .success (some 2) (some false),
        .found true (some 5), .found false none] ∧
      ∃ q, ServesRun (.empty 1) steps q ∧ IsDictionary (Provider.ofArena noHost) st q := by
  have hruns : (sampleMap.run (Provider.ofArena noHost).toCalls collidingHashes sampleCalls).map
      (fun r => r.1.map Step.reply) = some [.done .success (some 0) (some true),
        .done .success (some 1) (some true), .done .success (some 2) (some true),
        .done .success (some 3) (some true), .done .success (some 4) (some true),
        .done .success (some 5) (some true), .done .errorOutOfMemory none none,
        .done .success (some 2) (some false), .found true (some 5), .found false none] := by
    decide +kernel
  obtain ⟨⟨steps, st⟩, hrun, hreplies⟩ := Option.map_eq_some_iff.mp hruns
  obtain ⟨q, hserves, hshows, -⟩ := map_is_dictionary collidingHashes (Provider.ofArena noHost)
    ⟨0, [], ⟨0, 0, 0, 0, 0, 0, 0, 0, 0, 0⟩, 0, 0, 0, .fast⟩ 1 1 .fast 0 0 lentArena_200_holds
    (by decide) (Run.of_calls hrun)
  exact ⟨steps, st, hrun, hreplies, q, hserves, hshows⟩

end Arnm.Keys
