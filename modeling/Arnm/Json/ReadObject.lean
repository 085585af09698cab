import Arnm.Json.Value
import Arnm.Lib.Masks

set_option autoImplicit false

/-! # Reading an object in one walk

`arnm_json_read_object`. The walk keeps two masks over the entries of the table: those whose key was
met and those that were read. Here it is compared with a walk that keeps lists, looks at every entry
for every member, and never ends early. -/

namespace Arnm.Json

open Masks

/-- `arnm_json_field` -/
structure Field where
  key : List UInt8
  type : FieldType
  target : Nat

variable (double : Int → UInt64)

/-- `ARNM_JSON_FIELDS_MAX` -/
def fieldsMax : Nat := 64

/-- The masks of the walk and the memory. -/
structure Walk where
  found : BitVec 64
  visited : BitVec 64
  memory : Bytes

/-- The entries of a table as bits. -/
def validMask (count : Nat) : BitVec 64 :=
  if count = 64 then BitVec.allOnes 64 else 1#64 <<< count - 1#64

/-- The search for an entry whose key was not met yet, over `n` entries from the `i`-th on. -/
def findEntry (fields : List Field) (key : List UInt8) (visited : BitVec 64) :
    Nat → Nat → Option (Field × Nat)
  | 0, _ => none
  | n + 1, i =>
    match fields[i]? with
    | none => none
    | some field =>
      if visited &&& 1#64 <<< i = 1#64 <<< i then findEntry fields key visited n (i + 1)
      else if key = field.key then some (field, i)
      else findEntry fields key visited n (i + 1)

/-- The loop of `arnm_json_read_object`. -/
def readMembers (fields : List Field) : List (Member Value) → Walk → Result × Walk
  | [], s => (.success, s)
  | member :: rest, s =>
    let remaining := ~~~s.visited &&& validMask fields.length
    if remaining = 0#64 then (.success, s)
    else
      let start := remaining.ctz.toNat
      match findEntry fields member.key s.visited (fields.length - start) start with
      | none => readMembers fields rest s
      | some (field, i) =>
        let bit := 1#64 <<< i
        if member.value.isNull = true ∧ field.type ≠ .value then
          readMembers fields rest { s with visited := s.visited ||| bit }
        else
          let r := readField double s.memory field.target field.type member.value
          if r.1 ≠ .success then (r.1, { s with memory := r.2 })
          else readMembers fields rest ⟨s.found ||| bit, s.visited ||| bit, r.2⟩

/-- `arnm_json_read_object`; the answer, `*out_found` and the memory. -/
def readObject (m : Bytes) (object : Value) (fields : List Field) : Result × BitVec 64 × Bytes :=
  if fields.length = 0 ∨ fieldsMax < fields.length then (.errorInvalidParam, 0#64, m)
  else
    match object.content with
    | .obj members =>
      let r := readMembers double fields members ⟨0#64, 0#64, m⟩
      (r.1, r.2.found, r.2.memory)
    | _ => (.errorInvalidEnumType, 0#64, m)

/-! ## A plain walk -/

/-- The entry that is offered a member with this key, if those in `spent` are not. -/
def offer (fields : List Field) (spent : List Nat) (key : List UInt8) : Option (Field × Nat) :=
  fields.zipIdx.find? fun entry => decide (entry.2 ∉ spent ∧ key = entry.1.key)

/-- What a plain walk knows: the entries that were read, those whose key was met, and the memory. -/
structure Plain where
  found : List Nat
  spent : List Nat
  memory : Bytes

/-- All members are looked at, and for each of them all entries. -/
def plainMembers (fields : List Field) : List (Member Value) → Plain → Result × Plain
  | [], s => (.success, s)
  | member :: rest, s =>
    match offer fields s.spent member.key with
    | none => plainMembers fields rest s
    | some (field, i) =>
      if member.value.isNull = true ∧ field.type ≠ .value then
        plainMembers fields rest { s with spent := s.spent ++ [i] }
      else
        let r := readField double s.memory field.target field.type member.value
        if r.1 ≠ .success then (r.1, { s with memory := r.2 })
        else plainMembers fields rest ⟨s.found ++ [i], s.spent ++ [i], r.2⟩

/-! ## What is read -/

/-- The members without those whose key another one carried before. -/
def firstMembers : List (Member Value) → List (Member Value)
  | [] => []
  | member :: rest => member :: (firstMembers rest).filter fun other =>
      decide (other.key ≠ member.key)

/-- The values offered to the entries of a table, in the order of the document. -/
def offers (fields : List Field) (spent : List Nat) (members : List (Member Value)) :
    List ((Field × Nat) × Value) :=
  (firstMembers members).filterMap fun member =>
    (offer fields spent member.key).map fun entry => (entry, member.value)

/-- Each value that was offered is converted, but for the nulls, up to the first that is refused. -/
def convertOffers : List ((Field × Nat) × Value) → List Nat → Bytes → Result × List Nat × Bytes
  | [], found, m => (.success, found, m)
  | ((field, i), value) :: rest, found, m =>
    if value.isNull = true ∧ field.type ≠ .value then convertOffers rest found m
    else
      let r := readField double m field.target field.type value
      if r.1 ≠ .success then (r.1, found, r.2) else convertOffers rest (found ++ [i]) r.2

/-! ## The masks -/

variable {double}

theorem getLsbD_validMask {count : Nat} (h : count ≤ fieldsMax) (i : Nat) :
    (validMask count).getLsbD i = decide (i < count) := by
  have hmax : fieldsMax = 64 := rfl
  unfold validMask
  split
  · rename_i hall
    rw [BitVec.getLsbD_allOnes, hall]
  · have hlt : count < 64 := by omega
    have hpow : 2 ^ count < 2 ^ 64 := Nat.pow_lt_pow_right (by decide) hlt
    have hone : 1 ≤ 2 ^ count := Nat.one_le_two_pow
    have hvalue : (1#64 <<< count - 1#64).toNat = 2 ^ count - 1 := by
      rw [BitVec.toNat_sub, BitVec.toNat_shiftLeft, BitVec.toNat_one (by decide), Nat.one_shiftLeft,
        Nat.mod_eq_of_lt hpow]
      omega
    rw [BitVec.getLsbD, hvalue, Nat.testBit_two_pow_sub_one]

/-- The test of one bit of a mask. -/
theorem and_bit_eq_iff {mask : BitVec 64} {i : Nat} (h : i < 64) :
    mask &&& 1#64 <<< i = 1#64 <<< i ↔ mask.getLsbD i = true := by
  have hbit := getLsbD_one_shiftLeft h i
  rw [decide_eq_true rfl] at hbit
  rw [← BitVec.twoPow_eq] at hbit ⊢
  rw [BitVec.and_twoPow]
  cases hmask : mask.getLsbD i with
  | true => exact iff_of_true rfl rfl
  | false =>
      refine iff_of_false (fun heq => ?_) Bool.false_ne_true
      rw [if_neg Bool.false_ne_true] at heq
      rw [← heq, BitVec.getLsbD_zero] at hbit
      cases hbit

/-- Searching from an index on is searching the rest of the table. -/
theorem findEntry_eq {fields : List Field} {key : List UInt8} {visited : BitVec 64}
    {spent : List Nat} (hcount : fields.length ≤ fieldsMax)
    (hmarks : Marks visited spent) (n i : Nat)
    (h : i + n = fields.length) :
    findEntry fields key visited n i =
      (fields.zipIdx.drop i).find? fun entry => decide (entry.2 ∉ spent ∧ key = entry.1.key) := by
  have hmax : fieldsMax = 64 := rfl
  induction n generalizing i with
  | zero =>
      rw [List.drop_of_length_le (by rw [List.length_zipIdx]; omega)]
      rfl
  | succ n ih =>
      have hi : i < fields.length := by omega
      have hbit := @and_bit_eq_iff visited i (by omega)
      rw [hmarks i] at hbit
      rw [List.drop_eq_getElem_cons (by rwa [List.length_zipIdx]), List.getElem_zipIdx,
        Nat.zero_add,
        findEntry, List.getElem?_eq_getElem hi]
      dsimp only
      by_cases hspent : i ∈ spent
      · rw [if_pos (hbit.mpr hspent), List.find?_cons_of_neg (by simp [hspent]),
          ih (i + 1) (by omega)]
      · rw [if_neg fun heq => hspent (hbit.mp heq)]
        by_cases hkey : key = fields[i].key
        · rw [if_pos hkey, List.find?_cons_of_pos (by simp [hspent, hkey])]
        · rw [if_neg hkey, List.find?_cons_of_neg (by simp [hkey]), ih (i + 1) (by omega)]

/-- The bits that are still open: the entries whose key was not met. -/
theorem getLsbD_remaining {fields : List Field} {visited : BitVec 64} {spent : List Nat}
    (hcount : fields.length ≤ fieldsMax) (hmarks : Marks visited spent) (i : Nat) :
    (~~~visited &&& validMask fields.length).getLsbD i = true ↔ i < fields.length ∧ i ∉ spent := by
  have hmax : fieldsMax = 64 := rfl
  rw [BitVec.getLsbD_and, BitVec.getLsbD_not, getLsbD_validMask hcount, Bool.and_eq_true,
    Bool.and_eq_true, decide_eq_true_eq, decide_eq_true_eq, Bool.not_eq_true', ← hmarks i,
    Bool.not_eq_true]
  exact ⟨fun h => ⟨h.2, h.1.2⟩, fun h => ⟨⟨by omega, h.2⟩, h.1⟩⟩

/-- No entry below the lowest open one is offered anything. -/
theorem findEntry_offer {fields : List Field} {key : List UInt8} {visited : BitVec 64}
    {spent : List Nat} (hcount : fields.length ≤ fieldsMax) (hmarks : Marks visited spent)
    (hremaining : ~~~visited &&& validMask fields.length ≠ 0#64) :
    findEntry fields key visited
        (fields.length - (~~~visited &&& validMask fields.length).ctz.toNat)
        (~~~visited &&& validMask fields.length).ctz.toNat =
      offer fields spent key := by
  generalize hmask : ~~~visited &&& validMask fields.length = remaining at hremaining ⊢
  have hopen : ∀ i, remaining.getLsbD i = true ↔ i < fields.length ∧ i ∉ spent := by
    intro i
    rw [← hmask]
    exact getLsbD_remaining hcount hmarks i
  have hstart := (hopen _).mp (BitVec.getLsbD_true_ctz_of_ne_zero hremaining)
  -- below the lowest open bit every entry is spent
  have hbelow : ∀ entry ∈ fields.zipIdx.take remaining.ctz.toNat,
      ¬ (entry.2 ∉ spent ∧ key = entry.1.key) := by
    intro entry hentry hboth
    obtain ⟨i, hi, rfl⟩ := List.mem_take_iff_getElem.mp hentry
    rw [List.length_zipIdx] at hi
    rw [List.getElem_zipIdx, Nat.zero_add] at hboth
    have hfalse := BitVec.getLsbD_false_of_lt_ctz (x := remaining) (i := i) (by omega)
    have htrue := (hopen i).mpr ⟨by omega, hboth.1⟩
    rw [hfalse] at htrue
    cases htrue
  have hnone : (fields.zipIdx.take remaining.ctz.toNat).find?
      (fun entry => decide (entry.2 ∉ spent ∧ key = entry.1.key)) = none :=
    List.find?_eq_none.mpr fun entry hentry hboth =>
      hbelow entry hentry (of_decide_eq_true hboth)
  -- so the search may start there as well as at the first entry
  rw [findEntry_eq hcount hmarks _ _ (by omega), offer]
  conv => rhs; rw [← List.take_append_drop remaining.ctz.toNat fields.zipIdx]
  rw [List.find?_append, hnone, Option.none_or]

/-- Once every entry is spent no member is offered to any. -/
theorem offer_eq_none {fields : List Field} {visited : BitVec 64} {spent : List Nat}
    (hcount : fields.length ≤ fieldsMax) (hmarks : Marks visited spent)
    (hremaining : ~~~visited &&& validMask fields.length = 0#64) (key : List UInt8) :
    offer fields spent key = none := by
  refine List.find?_eq_none.mpr fun entry hentry hoffered => ?_
  obtain ⟨i, hi, rfl⟩ := List.mem_iff_getElem.mp hentry
  rw [List.length_zipIdx] at hi
  rw [List.getElem_zipIdx, Nat.zero_add, decide_eq_true_eq] at hoffered
  have hbit := (getLsbD_remaining hcount hmarks i).mpr ⟨hi, hoffered.1⟩
  rw [hremaining, BitVec.getLsbD_zero] at hbit
  cases hbit

theorem plainMembers_of_spent {fields : List Field} {p : Plain}
    (h : ∀ key, offer fields p.spent key = none) (members : List (Member Value)) :
    plainMembers double fields members p = (.success, p) := by
  induction members with
  | nil => rfl
  | cons member rest ih =>
      rw [plainMembers, h member.key]
      exact ih

/-- The masks stand for the lists of the plain walk. -/
structure Walk.Is (s : Walk) (p : Plain) : Prop where
  found : Marks s.found p.found
  visited : Marks s.visited p.spent
  memory : s.memory = p.memory

/-- The walk with the masks is the plain walk. -/
theorem readMembers_plain {fields : List Field} (hcount : fields.length ≤ fieldsMax)
    (members : List (Member Value)) {s : Walk} {p : Plain} (h : s.Is p) :
    (readMembers double fields members s).1 = (plainMembers double fields members p).1 ∧
      (readMembers double fields members s).2.Is (plainMembers double fields members p).2 := by
  have hmax : fieldsMax = 64 := rfl
  induction members generalizing s p with
  | nil => exact ⟨rfl, h⟩
  | cons member rest ih =>
      rw [readMembers]
      dsimp only
      by_cases hremaining : ~~~s.visited &&& validMask fields.length = 0#64
      · -- the walk ends here, and the plain walk finds nothing any more
        rw [if_pos hremaining, plainMembers_of_spent (offer_eq_none hcount h.visited hremaining)]
        exact ⟨rfl, h⟩
      · rw [if_neg hremaining, findEntry_offer hcount h.visited hremaining, plainMembers]
        cases hoffer : offer fields p.spent member.key with
        | none => exact ih h
        | some entry =>
            obtain ⟨field, i⟩ := entry
            have hi : i < 64 := by
              have hmem := List.mem_zipIdx (List.mem_of_find?_eq_some hoffer)
              omega
            have hvisited : Marks (s.visited ||| 1#64 <<< i) (p.spent ++ [i]) := h.visited.insert hi
            dsimp only
            by_cases hnull : member.value.isNull = true ∧ field.type ≠ .value
            · rw [if_pos hnull, if_pos hnull]
              exact ih ⟨h.found, hvisited, h.memory⟩
            · rw [if_neg hnull, if_neg hnull, h.memory]
              by_cases hok :
                (readField double p.memory field.target field.type member.value).1 = .success
              · rw [if_neg (not_not_intro hok), if_neg (not_not_intro hok)]
                exact ih ⟨h.found.insert hi, hvisited, rfl⟩
              · rw [if_pos hok, if_pos hok]
                exact ⟨rfl, h.found, h.visited, rfl⟩

/-! ## One entry for each key -/

section

variable {fields : List Field} {spent : List Nat} {key : List UInt8} {field : Field} {i : Nat}

theorem offer_some (h : offer fields spent key = some (field, i)) :
    fields[i]? = some field ∧ i ∉ spent ∧ key = field.key := by
  have hentry := List.find?_some h
  have hmem := List.mem_zipIdx_iff_getElem?.mp (List.mem_of_find?_eq_some h)
  rw [decide_eq_true_eq] at hentry
  exact ⟨hmem, hentry⟩

/-- In a table of distinct keys the entry that was offered a member is the only one with its key, so
that no later member with the key is offered to any. -/
theorem offer_insert_same (hkeys : (fields.map Field.key).Nodup)
    (h : offer fields spent key = some (field, i)) : offer fields (spent ++ [i]) key = none := by
  obtain ⟨hfield, -, hkey⟩ := offer_some h
  refine List.find?_eq_none.mpr fun entry hentry hoffered => ?_
  rw [decide_eq_true_eq] at hoffered
  have hother := List.mem_zipIdx_iff_getElem?.mp hentry
  have hsame : entry.2 = i := by
    have hboth : (fields.map Field.key)[entry.2]? = (fields.map Field.key)[i]? := by
      rw [List.getElem?_map, List.getElem?_map, hother, hfield, Option.map_some, Option.map_some,
        ← hoffered.2, hkey]
    refine (List.getElem?_inj ?_ hkeys).mp hboth
    rw [List.length_map]
    exact (List.getElem?_eq_some_iff.mp hother).1
  exact hoffered.1 (List.mem_append_right _ (List.mem_singleton.mpr hsame))

/-- An entry that was offered a member changes nothing for the members with other keys. -/
theorem offer_insert_other (h : fields[i]? = some field) {other : List UInt8}
    (hne : other ≠ field.key) :
    offer fields (spent ++ [i]) other = offer fields spent other := by
  refine List.find?_congr fun entry hentry => ?_
  have hother := List.mem_zipIdx_iff_getElem?.mp hentry
  by_cases hsame : entry.2 = i
  · rw [hsame, h] at hother
    cases hother
    simp [hne]
  · simp [hsame]

end

/-- What a filter removes need not be removed where nothing is made of it. -/
theorem filterMap_filter_eq {α β : Type} {p : α → Bool} {f g : α → Option β} {l : List α}
    (hkept : ∀ a, p a = true → f a = g a) (hremoved : ∀ a, p a = false → g a = none) :
    (l.filter p).filterMap f = l.filterMap g := by
  induction l with
  | nil => rfl
  | cons a l ih =>
      cases hp : p a with
      | true =>
          rw [List.filter_cons_of_pos hp, List.filterMap_cons, List.filterMap_cons, hkept a hp, ih]
      | false =>
          rw [List.filter_cons_of_neg (by rw [hp]; decide), List.filterMap_cons, hremoved a hp, ih]

theorem offers_cons_none {fields : List Field} {spent : List Nat} {member : Member Value}
    (h : offer fields spent member.key = none) (rest : List (Member Value)) :
    offers fields spent (member :: rest) = offers fields spent rest := by
  unfold offers
  rw [firstMembers, List.filterMap_cons, h]
  refine filterMap_filter_eq (fun _ _ => rfl) fun other hother => ?_
  have hsame : other.key = member.key := not_not.mp (of_decide_eq_false hother)
  rw [hsame, h]
  rfl

/-- The entry that takes a member takes no other, and the later members go where they went. -/
theorem offers_cons_some {fields : List Field} (hkeys : (fields.map Field.key).Nodup)
    {spent : List Nat} {member : Member Value} {field : Field} {i : Nat}
    (h : offer fields spent member.key = some (field, i)) (rest : List (Member Value)) :
    offers fields spent (member :: rest) =
      ((field, i), member.value) :: offers fields (spent ++ [i]) rest := by
  obtain ⟨hfield, -, hkey⟩ := offer_some h
  unfold offers
  rw [firstMembers, List.filterMap_cons, h]
  refine congrArg (List.cons _)
    (filterMap_filter_eq (fun other hother => ?_) fun other hother => ?_)
  · have hne : other.key ≠ field.key := hkey ▸ of_decide_eq_true hother
    rw [offer_insert_other hfield hne]
  · have hsame : other.key = member.key := not_not.mp (of_decide_eq_false hother)
    rw [hsame, offer_insert_same hkeys h]
    rfl

/-- An entry that was not offered anything yet is still offered the next member with its key. -/
theorem offer_isSome {fields : List Field} {spent : List Nat} {field : Field} {i : Nat}
    (hfield : fields[i]? = some field) (hopen : i ∉ spent) :
    (offer fields spent field.key).isSome = true := by
  refine List.find?_isSome.mpr ⟨(field, i), List.mem_zipIdx_iff_getElem?.mpr hfield, ?_⟩
  exact decide_eq_true ⟨hopen, rfl⟩

/-- What an entry is offered: the first member with its key, and nothing if its key was met. -/
theorem offers_filter {fields : List Field} (hkeys : (fields.map Field.key).Nodup) {field : Field}
    {i : Nat} (hfield : fields[i]? = some field) (members : List (Member Value))
    (spent : List Nat) :
    (offers fields spent members).filter (fun o => decide (o.1.2 = i)) =
      if i ∈ spent then []
      else ((members.find? fun member => decide (member.key = field.key)).map
        fun member => ((field, i), member.value)).toList := by
  induction members generalizing spent with
  | nil => split <;> rfl
  | cons member rest ih =>
      by_cases hspent : i ∈ spent
      · rw [if_pos hspent]
        cases hoffer : offer fields spent member.key with
        | none => rw [offers_cons_none hoffer, ih, if_pos hspent]
        | some entry =>
            obtain ⟨field', i'⟩ := entry
            have hne : i' ≠ i := fun heq => (offer_some hoffer).2.1 (heq ▸ hspent)
            rw [offers_cons_some hkeys hoffer, List.filter_cons_of_neg (by simp [hne]), ih,
              if_pos (List.mem_append_left _ hspent)]
      · rw [if_neg hspent]
        by_cases hkey : member.key = field.key
        · -- the member is the first one with the key of the entry
          rw [List.find?_cons_of_pos (by simp [hkey])]
          obtain ⟨⟨field', i'⟩, hoffer⟩ := Option.isSome_iff_exists.mp (offer_isSome hfield hspent)
          rw [← hkey] at hoffer
          have hsame : i' = i := by
            by_contra hne
            have hnone := offer_insert_same hkeys hoffer
            have hsome := @offer_isSome fields (spent ++ [i']) field i hfield
              (by simp [hspent, Ne.symm hne])
            rw [← hkey, hnone] at hsome
            cases hsome
          obtain ⟨hfield', -, -⟩ := offer_some hoffer
          rw [hsame] at hfield' hoffer
          rw [hfield] at hfield'
          cases hfield'
          rw [offers_cons_some hkeys hoffer, List.filter_cons_of_pos (by simp), ih,
            if_pos (by simp)]
          rfl
        · rw [List.find?_cons_of_neg (by simp [hkey])]
          cases hoffer : offer fields spent member.key with
          | none => rw [offers_cons_none hoffer, ih, if_neg hspent]
          | some entry =>
              obtain ⟨field', i'⟩ := entry
              obtain ⟨hfield', -, hkey'⟩ := offer_some hoffer
              have hne : i' ≠ i := by
                rintro rfl
                rw [hfield] at hfield'
                cases hfield'
                exact hkey hkey'
              rw [offers_cons_some hkeys hoffer, List.filter_cons_of_neg (by simp [hne]), ih,
                if_neg (by simp [hspent, Ne.symm hne])]

/-- With distinct keys the plain walk converts what is offered: to each entry the first member with
its key. -/
theorem plainMembers_offers {fields : List Field} (hkeys : (fields.map Field.key).Nodup)
    (members : List (Member Value)) (p : Plain) :
    (plainMembers double fields members p).1 =
        (convertOffers double (offers fields p.spent members) p.found p.memory).1 ∧
      (plainMembers double fields members p).2.found =
        (convertOffers double (offers fields p.spent members) p.found p.memory).2.1 ∧
      (plainMembers double fields members p).2.memory =
        (convertOffers double (offers fields p.spent members) p.found p.memory).2.2 := by
  induction members generalizing p with
  | nil => exact ⟨rfl, rfl, rfl⟩
  | cons member rest ih =>
      rw [plainMembers]
      cases hoffer : offer fields p.spent member.key with
      | none =>
          rw [offers_cons_none hoffer]
          exact ih p
      | some entry =>
          obtain ⟨field, i⟩ := entry
          rw [offers_cons_some hkeys hoffer, convertOffers]
          dsimp only
          by_cases hnull : member.value.isNull = true ∧ field.type ≠ .value
          · rw [if_pos hnull, if_pos hnull]
            exact ih ⟨p.found, p.spent ++ [i], p.memory⟩
          · rw [if_neg hnull, if_neg hnull]
            by_cases hok :
              (readField double p.memory field.target field.type member.value).1 = .success
            · rw [if_neg (not_not_intro hok), if_neg (not_not_intro hok)]
              exact ih ⟨p.found ++ [i], p.spent ++ [i], _⟩
            · rw [if_pos hok, if_pos hok]
              exact ⟨rfl, rfl, rfl⟩

/-! ## The walk reads the object -/

/-- The integers that a type of the table can hold are the ones it takes. -/
theorem readField_integer_iff {m : Bytes} {target : Nat} {type : FieldType}
    {value : Value} {n : Int}
    (ht : target ≠ 0) (htype : type.IsInteger) (hn : value.content.integer = some n) :
    (readField double m target type value).1 = .success ↔ type.Holds n := by
  rw [readField_integer ht htype, encodedInteger, hn]
  dsimp only
  by_cases hholds : type.Holds n
  · rw [if_pos hholds]
    exact iff_of_true rfl hholds
  · rw [if_neg hholds]
    exact iff_of_false nofun hholds

/-- The walk over an object gives the answer, the bits and the memory of converting, in the order of
the document, what is offered to the entries, which is to each the first member with its key, and of
the plain walk over all members and entries. What is refused is lost in its own buffer only, and
integers are refused only if they do not fit. -/
theorem readObject_reads {m : Bytes} {addr : Nat} {members : List (Member Value)}
    {fields : List Field}
    (hcount : 1 ≤ fields.length) (hmax : fields.length ≤ fieldsMax)
    (hkeys : (fields.map Field.key).Nodup) (htargets : ∀ field ∈ fields, field.target ≠ 0) :
    let r := readObject double m ⟨addr, .obj members⟩ fields
    let c := convertOffers double (offers fields [] members) [] m
    let p := plainMembers double fields members ⟨[], [], m⟩
    (r.1 = c.1 ∧ Marks r.2.1 c.2.1 ∧ r.2.2 = c.2.2) ∧
    (∀ i field, fields[i]? = some field →
      (offers fields [] members).filter (fun o => decide (o.1.2 = i)) =
        ((members.find? fun member => decide (member.key = field.key)).map
          fun member => ((field, i), member.value)).toList) ∧
    (r.1 = p.1 ∧ Marks r.2.1 p.2.found ∧ r.2.2 = p.2.memory) ∧
    (∀ m' field value, field ∈ fields →
      (readField double m' field.target field.type value).1 ≠ .success →
      ∀ x, ¬ (field.type.Decodes ∧
          (Region.mk (blockData m' field.target) (blockSize m' field.target)).Has x) →
        (readField double m' field.target field.type value).2 x = m' x) ∧
    ∀ m' field value n, field ∈ fields → field.type.IsInteger → value.content.integer = some n →
      ((readField double m' field.target field.type value).1 = .success ↔ field.type.Holds n) := by
  intro r c p
  have hr : r = ((readMembers double fields members ⟨0#64, 0#64, m⟩).1,
      (readMembers double fields members ⟨0#64, 0#64, m⟩).2.found,
      (readMembers double fields members ⟨0#64, 0#64, m⟩).2.memory) := by
    show readObject double m ⟨addr, .obj members⟩ fields = _
    unfold readObject
    rw [if_neg (by omega)]
    rfl
  -- the walk is the plain walk with its lists as bits, and that the one over the offers
  obtain ⟨hanswer, hwalk⟩ := @readMembers_plain double fields hmax members
    ⟨0#64, 0#64, m⟩ ⟨[], [], m⟩ ⟨Marks.nil, Marks.nil, rfl⟩
  obtain ⟨hanswer', hfound, hmemory⟩ := @plainMembers_offers double fields hkeys members ⟨[], [], m⟩
  refine ⟨⟨?_, ?_, ?_⟩, ?_, ⟨?_, ?_, ?_⟩, ?_, ?_⟩
  · rw [hr]
    exact hanswer.trans hanswer'
  · rw [hr]
    exact hfound ▸ hwalk.found
  · rw [hr]
    exact hwalk.memory.trans hmemory
  · intro i field hfield
    exact (offers_filter hkeys hfield members []).trans (if_neg List.not_mem_nil)
  · rw [hr]
    exact hanswer
  · rw [hr]
    exact hwalk.found
  · rw [hr]
    exact hwalk.memory
  · intro m' field value _ hrefused x hx
    exact readField_refused hrefused fun htype hin => hx ⟨htype, hin⟩
  · intro m' field value n hfield htype hn
    exact readField_integer_iff (htargets field hfield) htype hn

theorem letter_short (letter : UInt8) : [letter].length < 2 ^ 32 := by
  simp only [List.length_singleton]
  norm_num

/-- A member whose key is one letter. -/
def Member.under (letter : UInt8) (value : Value) : Member Value :=
  ⟨[letter], letter_short letter, value⟩

/-- A table of four entries, `"a"` to `"d"`. -/
def sampleFields : List Field :=
  [⟨[0x61], .int32, 16⟩, ⟨[0x62], .uint32, 32⟩, ⟨[0x63], .value, 48⟩, ⟨[0x64], .int64, 64⟩]

/-- An unknown key, a null that spends `"b"`, an `"a"` and another one, a null for `"c"`, and a
`"b"` that comes too late. -/
def sampleMembers (last : Member Value) : List (Member Value) :=
  [.under 0x78 ⟨8, .uint 1⟩, .under 0x62 ⟨24, .null⟩, .under 0x61 ⟨40, .sint (-7)⟩,
    .under 0x61 ⟨56, .bool true⟩, .under 0x63 ⟨72, .null⟩, .under 0x62 ⟨88, .uint 5⟩, last]

/-- A `"d"` that fits ends the walk with three entries read; one that does not is the answer, and
what was read before it stays. -/
theorem readObject_reads_sample :
    let r := readObject (fun _ => 0) (fun _ => 0)
      ⟨128, .obj (sampleMembers (.under 0x64 ⟨104, .sint (-1)⟩))⟩ sampleFields
    let r' := readObject (fun _ => 0) (fun _ => 0)
      ⟨128, .obj (sampleMembers (.under 0x64 ⟨104, .uint 0x8000000000000000⟩))⟩ sampleFields
    (r.1 = .success ∧ Marks r.2.1 [0, 2, 3] ∧ r.2.2.read 16 4 = [0xF9, 0xFF, 0xFF, 0xFF] ∧
      r.2.2 32 = 0 ∧ r.2.2 48 = 72 ∧ r.2.2 64 = 0xFF) ∧
    r'.1 = .errorArithmeticOverflow ∧ Marks r'.2.1 [0, 2] ∧ r'.2.2 16 = 0xF9 ∧ r'.2.2 64 = 0 := by
  intro r r'
  obtain ⟨⟨hanswer, hfound, hmemory⟩, -⟩ := @readObject_reads (fun _ => 0) (fun _ => 0) 128
    (sampleMembers (.under 0x64 ⟨104, .sint (-1)⟩)) sampleFields
    (by decide) (by decide) (by decide) (by decide)
  obtain ⟨⟨hanswer', hfound', hmemory'⟩, -⟩ := @readObject_reads (fun _ => 0) (fun _ => 0) 128
    (sampleMembers (.under 0x64 ⟨104, .uint 0x8000000000000000⟩)) sampleFields
    (by decide) (by decide) (by decide) (by decide)
  refine ⟨⟨hanswer.trans rfl, hfound, ?_, ?_, ?_, ?_⟩,
    hanswer'.trans (by decide +kernel), ?_, ?_, ?_⟩
  · exact (congrArg (fun m => Bytes.read m 16 4) hmemory).trans (by decide)
  · exact (congrFun hmemory 32).trans (by decide)
  · exact (congrFun hmemory 48).trans (by decide)
  · exact (congrFun hmemory 64).trans (by decide)
  · have hlist : (convertOffers (fun _ => 0)
        (offers sampleFields [] (sampleMembers (.under 0x64 ⟨104, .uint 0x8000000000000000⟩)))
        [] (fun _ => 0)).2.1 = [0, 2] := by
      decide +kernel
    exact hlist ▸ hfound'
  · exact (congrFun hmemory' 16).trans (by decide +kernel)
  · exact (congrFun hmemory' 64).trans (by decide +kernel)

end Arnm.Json
