import Arnm.Json.Outline
import Arnm.Json.ReadArray
import Arnm.Json.ReadObject
import Arnm.Json.Uuid

set_option autoImplicit false

/-! # What was written is read back

A document is written by the walk of an outline, serialized and parsed by the JSON library, and read
by `arnm_json_read_object`. Of the library it is assumed that a value it reads where it wrote a tree
is that tree (`ReadsTree`); then the targets of a table hold what was added under their keys. -/

namespace Arnm.Json

open Forest

variable {m m' : Bytes} {room : Region}

/-! ## What the library reads -/

/-- A text that goes through the escaping pass, or has no character that would need it. -/
def Legible (escape : Bool) (text : List UInt8) : Prop :=
  escape = true ∨ ∀ c ∈ text, 0x20 ≤ c ∧ c ≠ Writer.quote ∧ c ≠ 0x5C

/-- The characters of a text and their terminator, where the strings of the document lie. -/
structure IsText (m : Bytes) (room : Region) (text : List UInt8) (data : Nat) (length : UInt32) :
    Prop where
  length_eq : length.toNat = text.length
  chars : m.read data text.length = text
  terminator : m (data + text.length) = 0
  within : Region.Within ⟨data, text.length + 1⟩ room

/-- What the library reads where it wrote a scalar. A number has no sign to it, and a raw text is
read if it is a string. -/
inductive Reads (m : Bytes) (room : Region) : Label → Content Value → Prop
  | null : Reads m room .null .null
  | bool (b : Bool) : Reads m room (.bool b) (.bool b)
  | sint {n : Int64} {content : Content Value} (h : content.integer = some n.toInt) :
      Reads m room (.sint n) content
  | uint {n : UInt64} {content : Content Value} (h : content.integer = some (n.toNat : Int)) :
      Reads m room (.uint n) content
  | real (bits : UInt64) : Reads m room (.real bits) (.real bits)
  | text {escape : Bool} {text : List UInt8} {data : Nat} {length : UInt32}
      (hlegible : Legible escape text) (h : IsText m room text data length) :
      Reads m room (.text false escape text) (.str data length)
  | raw {label : Label} {text : List UInt8} {data : Nat} {length : UInt32}
      (hlabel : label = Writer.rawText text) (hlegible : Legible false text)
      (h : IsText m room text data length) : Reads m room label (.str data length)

mutual

/-- The value the library reads where it wrote a tree. -/
def ReadsTree (m : Bytes) (room : Region) : Tree Label (Option Key) → Value → Prop
  | .node label entries, value =>
    value.addr < 2 ^ 64 ∧
      match label with
      | .obj =>
        ∃ members, value.content = .obj members ∧
          ReadsEntries m room entries (members.map fun member => (some member.key, member.value))
      | .arr =>
        ∃ elements, value.content = .arr elements ∧
          ReadsEntries m room entries (elements.map fun element => (none, element))
      | scalar => Reads m room scalar value.content

/-- The entries of a container, in order and under their keys. -/
def ReadsEntries (m : Bytes) (room : Region) :
    List (Option Key × Tree Label (Option Key)) → List (Option (List UInt8) × Value) → Prop
  | [], values => values = []
  | (key, t) :: entries, values =>
    ∃ value later, values = (key.map Key.text, value) :: later ∧
      (∀ k ∈ key, Legible k.escape k.text) ∧ ReadsTree m room t value ∧
        ReadsEntries m room entries later

end

theorem IsText.congr {text : List UInt8} {data : Nat} {length : UInt32}
    (h : IsText m room text data length) (hroom : Bytes.AgreeOn m m' room) :
    IsText m' room text data length := by
  have hboth := hroom.within h.within
  have hchars : Bytes.AgreeOn m m' ⟨data, text.length⟩ :=
    hboth.within ⟨Nat.le_refl _, by simp only [Region.stop_mk]; omega⟩
  constructor
  · exact h.length_eq
  · rw [Bytes.read_congr hchars, h.chars]
  · rw [hboth _ ⟨Nat.le_add_right _ _, ?_⟩, h.terminator]
    simp only [Region.stop_mk]
    omega
  · exact h.within

theorem Reads.congr {label : Label} {content : Content Value} (h : Reads m room label content)
    (hroom : Bytes.AgreeOn m m' room) : Reads m' room label content := by
  cases h with
  | null => exact .null
  | bool b => exact .bool b
  | sint h => exact .sint h
  | uint h => exact .uint h
  | real bits => exact .real bits
  | text hlegible h => exact .text hlegible (h.congr hroom)
  | raw hlabel hlegible h => exact .raw hlabel hlegible (h.congr hroom)

mutual

/-- A document is the same as long as its strings are. -/
theorem ReadsTree.congr (hroom : Bytes.AgreeOn m m' room) :
    ∀ {t : Tree Label (Option Key)} {value : Value}, ReadsTree m room t value →
      ReadsTree m' room t value
  | .node label entries, value, h => by
      rw [ReadsTree.eq_def] at h ⊢
      refine ⟨h.1, ?_⟩
      cases label with
      | obj =>
          obtain ⟨_, members, hcontent, hentries⟩ := h
          exact ⟨members, hcontent, ReadsEntries.congr hroom hentries⟩
      | arr =>
          obtain ⟨_, elements, hcontent, hentries⟩ := h
          exact ⟨elements, hcontent, ReadsEntries.congr hroom hentries⟩
      | _ => exact h.2.congr hroom

theorem ReadsEntries.congr (hroom : Bytes.AgreeOn m m' room) :
    ∀ {entries : List (Option Key × Tree Label (Option Key))}
      {values : List (Option (List UInt8) × Value)}, ReadsEntries m room entries values →
        ReadsEntries m' room entries values
  | [], _, h => h
  | (key, t) :: entries, _, h => by
      obtain ⟨value, later, hvalues, hlegible, htree, hentries⟩ := h
      exact ⟨value, later, hvalues, hlegible, ReadsTree.congr hroom htree,
        ReadsEntries.congr hroom hentries⟩

end

/-! ## What is found under a key -/

/-- What an outline has under a key: what was added, or a container with its outline. -/
inductive Entry where
  | value (added : Added)
  | container (isArray : Bool) (inner : Outline)

def Entry.tree : Entry → Tree Label (Option Key)
  | .value added => .node added.label []
  | .container isArray inner => .node (containerLabel isArray) inner.entries

/-- The first entry with a key. -/
def Outline.first (key : List UInt8) : Outline → Option Entry
  | .nil => none
  | .value other _ added rest => if other = some key then some (.value added) else rest.first key
  | .container other _ isArray inner rest =>
    if other = some key then some (.container isArray inner) else rest.first key

/-- The value read under a key is that of the first entry with the key. -/
theorem ReadsEntries.first {o : Outline} {members : List (Member Value)} (key : List UInt8)
    (h : ReadsEntries m room o.entries
      (members.map fun member => (some member.key, member.value))) :
    Option.Rel (fun entry (member : Member Value) => ReadsTree m room entry.tree member.value)
      (o.first key) (members.find? fun member => decide (member.key = key)) := by
  have hstep : ∀ {other : Option (List UInt8)} {escapeKey : Bool} {entry : Entry} {rest : Outline}
      {members : List (Member Value)},
      (∀ {members : List (Member Value)}, ReadsEntries m room rest.entries
        (members.map fun member => (some member.key, member.value)) →
          Option.Rel (fun entry (member : Member Value) => ReadsTree m room entry.tree member.value)
            (rest.first key) (members.find? fun member => decide (member.key = key))) →
      ReadsEntries m room ((keyNode other escapeKey, entry.tree) :: rest.entries)
        (members.map fun member => (some member.key, member.value)) →
      Option.Rel (fun entry (member : Member Value) => ReadsTree m room entry.tree member.value)
        (if other = some key then some entry else rest.first key)
        (members.find? fun member => decide (member.key = key)) := by
    intro other escapeKey entry rest members ih h
    obtain ⟨value, later, hmembers, _, htree, hentries⟩ := h
    cases members with
    | nil => cases hmembers
    | cons member members =>
        obtain ⟨hhead, rfl⟩ := List.cons.inj hmembers
        obtain ⟨hkey, rfl⟩ := Prod.mk.inj hhead
        have hother : other = some member.key := by
          cases other with
          | none => cases hkey
          | some text => exact hkey.symm
        rw [hother]
        by_cases hsame : member.key = key
        · rw [if_pos (congrArg some hsame), List.find?_cons_of_pos (by simp [hsame])]
          exact .some htree
        · rw [if_neg fun heq => hsame (Option.some.inj heq),
            List.find?_cons_of_neg (by simp [hsame])]
          exact ih hentries
  induction o generalizing members with
  | nil =>
      cases members with
      | nil => exact .none
      | cons member members => cases h
  | value other escapeKey added rest ih => exact hstep ih h
  | container other escapeKey isArray inner rest _ ih => exact hstep ih h

/-! ## A table that goes with an outline -/

/-- The bytes of a target. -/
def FieldType.extent : FieldType → Nat
  | .uint64 | .int64 | .double | .value => 8
  | .uint32 | .int32 => 4
  | .string | .hexFixed | .uuid => 12
  | .bool => 1
  | .none | .unknown => 0

/-- Where a field is written: the target, or the buffer its block names. -/
def Field.spot (m : Bytes) (field : Field) : Region :=
  if field.type.Decodes then ⟨blockData m field.target, blockSize m field.target⟩
  else ⟨field.target, field.type.extent⟩

/-- The memory a field is about. -/
def Field.rooms (m : Bytes) (field : Field) : List Region :=
  [⟨field.target, field.type.extent⟩, field.spot m]

/-- Two fields have no memory in common. -/
def Field.ApartFrom (m : Bytes) (a b : Field) : Prop :=
  ∀ r ∈ a.rooms m, ∀ s ∈ b.rooms m, Region.Apart r s

instance (m : Bytes) (a b : Field) : Decidable (a.ApartFrom m b) :=
  inferInstanceAs (Decidable (∀ r ∈ a.rooms m, ∀ s ∈ b.rooms m, Region.Apart r s))

/-- The number that was added. -/
def Added.number : Added → Option Int
  | .int64 n => some n.toInt
  | .uint64 n => some n.toNat
  | _ => none

/-- The text that was added between quotes. -/
def Added.quoted : Added → Option (List UInt8)
  | .string value => value
  | .stringFlags value flags => if Writer.isStringRaw flags then none else value
  | .hex data => some (Hex.encodeText (data.getD []))
  | .base64 data => some (Base64.encodeText (data.getD []))
  | .uuid value => value.map Writer.uuidToString
  | _ => none

/-- The member is there and null. -/
def Entry.isNull : Entry → Bool
  | .value added => decide (added.label = .null)
  | .container _ _ => false

/-- The type of a field goes with an entry, and a field that decodes has the block for it. -/
inductive Matches (m : Bytes) (field : Field) : Entry → Prop
  | null {added : Added} (h : added.label = .null) : Matches m field (.value added)
  | bool (b : Bool) (h : field.type = .bool) : Matches m field (.value (.bool b))
  | number {added : Added} {n : Int} (hn : added.number = some n) (htype : field.type.IsInteger)
      (hholds : field.type.Holds n) : Matches m field (.value added)
  | double (bits : UInt64) (h : field.type = .double) : Matches m field (.value (.double bits))
  | converted {added : Added} {n : Int} (hn : added.number = some n) (h : field.type = .double) :
      Matches m field (.value added)
  | string {added : Added} {text : List UInt8} (ht : added.quoted = some text)
      (h : field.type = .string) : Matches m field (.value added)
  | hex {data : List UInt8} (h : field.type = .hexFixed) (hdata : blockData m field.target ≠ 0)
      (hsize : blockSize m field.target = data.length) : Matches m field (.value (.hex (some data)))
  | uuid {uuid : Vector UInt8 uuidBinarySize} (h : field.type = .uuid)
      (hdata : blockData m field.target ≠ 0) (hsize : blockSize m field.target = uuidBinarySize) :
      Matches m field (.value (.uuid (some uuid)))
  | value {entry : Entry} (h : field.type = .value) : Matches m field entry

variable (double : Int → UInt64)

/-- What a field holds in a memory where an entry was read into it; `m` is the memory before. -/
inductive Stored (m m' : Bytes) (room : Region) (field : Field) : Entry → Prop
  | bool (b : Bool) (h : m'.read field.target 1 = [if b then 1 else 0]) :
      Stored m m' room field (.value (.bool b))
  | number {added : Added} {n : Int} (hn : added.number = some n) (htype : field.type.IsInteger)
      (h : m'.read field.target field.type.width =
        Bytes.digits field.type.width (unsignedOf (8 * field.type.width) n)) :
      Stored m m' room field (.value added)
  | double {bits : UInt64} (h : m'.read field.target 8 = Bytes.digits 8 bits.toNat) :
      Stored m m' room field (.value (.double bits))
  | converted {added : Added} {n : Int} (hn : added.number = some n) (htype : field.type = .double)
      (h : m'.read field.target 8 = Bytes.digits 8 (double n).toNat) :
      Stored m m' room field (.value added)
  | string {added : Added} {text : List UInt8} {length : UInt32} (ht : added.quoted = some text)
      (htype : field.type = .string) (h : IsText m' room text (blockData m' field.target) length)
      (hsize : blockSize m' field.target = length.toNat) : Stored m m' room field (.value added)
  | hex {data : List UInt8} (htype : field.type = .hexFixed)
      (h : m'.read (blockData m field.target) data.length = data) :
      Stored m m' room field (.value (.hex (some data)))
  | uuid {uuid : Vector UInt8 uuidBinarySize} (htype : field.type = .uuid)
      (h : m'.read (blockData m field.target) uuidBinarySize = uuid.toList) :
      Stored m m' room field (.value (.uuid (some uuid)))
  | value {entry : Entry} {value : Value} (htype : field.type = .value)
      (h : m'.word field.target = value.addr) (hread : ReadsTree m' room entry.tree value) :
      Stored m m' room field entry

/-! ## One field -/

theorem rawText_inj {text other : List UInt8} (h : Writer.rawText text = Writer.rawText other) :
    text = other := by
  unfold Writer.rawText at h
  injection h with _ _ h
  injection h with _ h
  exact List.append_cancel_right h

/-- No adder adds a container. -/
theorem Added.label_scalar (added : Added) : added.label ≠ .obj ∧ added.label ≠ .arr := by
  have htext : ∀ (value : Option (List UInt8)) (flags : UInt32),
      Writer.stringLabel value flags ≠ .obj ∧ Writer.stringLabel value flags ≠ .arr := by
    intro value flags
    cases value <;> exact ⟨Label.noConfusion, Label.noConfusion⟩
  cases added with
  | string value => exact htext value 0
  | stringFlags value flags => exact htext value flags
  | uuid value => cases value <;> exact ⟨Label.noConfusion, Label.noConfusion⟩
  | _ => exact ⟨Label.noConfusion, Label.noConfusion⟩

section OneField

variable {value : Value} {added : Added} {field : Field} {entry : Entry}

theorem ReadsTree.scalar (h : ReadsTree m room (Entry.value added).tree value) :
    Reads m room added.label value.content := by
  obtain ⟨hobj, harr⟩ := added.label_scalar
  rw [Entry.tree, ReadsTree.eq_def] at h
  obtain ⟨_, h⟩ := h
  cases hlabel : added.label with
  | obj => exact absurd hlabel hobj
  | arr => exact absurd hlabel harr
  | _ =>
      rw [hlabel] at h
      exact h

theorem ReadsTree.addr_lt {t : Tree Label (Option Key)} (h : ReadsTree m room t value) :
    value.addr < 2 ^ 64 := by
  cases t with
  | node label entries =>
      rw [ReadsTree.eq_def] at h
      exact h.1

theorem Reads.number {content : Content Value} {n : Int} (hn : added.number = some n)
    (h : Reads m room added.label content) : content.integer = some n := by
  cases added with
  | int64 v =>
      obtain rfl := Option.some.inj hn
      cases h with
      | sint h => exact h
      | raw hlabel => cases hlabel
  | uint64 v =>
      obtain rfl := Option.some.inj hn
      cases h with
      | uint h => exact h
      | raw hlabel => cases hlabel
  | _ => cases hn

theorem Reads.rawText {content : Content Value} {text : List UInt8}
    (h : Reads m room (Writer.rawText text) content) :
    ∃ data length, content = .str data length ∧ IsText m room text data length := by
  generalize hlabel : Writer.rawText text = label at h
  cases h with
  | raw hraw _ h =>
      rw [← hlabel] at hraw
      obtain rfl := rawText_inj hraw
      exact ⟨_, _, rfl, h⟩
  | _ => cases hlabel

theorem Reads.quoted {content : Content Value} {text : List UInt8} (ht : added.quoted = some text)
    (h : Reads m room added.label content) :
    ∃ data length, content = .str data length ∧ IsText m room text data length := by
  have hplain : ∀ {escape : Bool}, Reads m room (.text false escape text) content →
      ∃ data length, content = .str data length ∧ IsText m room text data length := by
    intro escape h
    cases h with
    | text _ htext => exact ⟨_, _, rfl, htext⟩
    | raw hlabel => cases hlabel
  cases added with
  | string value =>
      obtain rfl : value = some text := ht
      exact hplain h
  | stringFlags value flags =>
      rw [Added.quoted] at ht
      split at ht
      · cases ht
      · rename_i hraw
        rw [Added.label, ht, Writer.stringLabel, Bool.eq_false_iff.mpr hraw] at h
        exact hplain h
  | hex data =>
      obtain rfl := Option.some.inj ht
      exact h.rawText
  | base64 data =>
      obtain rfl := Option.some.inj ht
      exact h.rawText
  | uuid uuid =>
      cases uuid with
      | none => cases ht
      | some uuid =>
          obtain rfl := Option.some.inj ht
          exact h.rawText
  | _ => cases ht

theorem Value.isNull_iff : value.isNull = true ↔ value.content = .null := by
  obtain ⟨addr, content⟩ := value
  cases content <;> simp [Value.isNull, Value.content]

theorem Reads.null_iff {label : Label} {content : Content Value} (h : Reads m room label content) :
    content = .null ↔ label = .null := by
  cases h with
  | null => exact iff_of_true rfl rfl
  | sint h =>
      refine ⟨?_, Label.noConfusion⟩
      rintro rfl
      cases h
  | uint h =>
      refine ⟨?_, Label.noConfusion⟩
      rintro rfl
      cases h
  | raw hlabel =>
      rw [hlabel]
      simp [Writer.rawText]
  | _ => simp

/-- A value is null where null was added. -/
theorem ReadsTree.isNull (h : ReadsTree m room entry.tree value) : value.isNull = entry.isNull := by
  rw [Bool.eq_iff_iff, Value.isNull_iff]
  cases entry with
  | value added => rw [h.scalar.null_iff, Entry.isNull, decide_eq_true_eq]
  | container isArray inner =>
      rw [Entry.tree, ReadsTree.eq_def] at h
      refine iff_of_false ?_ Bool.false_ne_true
      intro hnull
      cases isArray with
      | true =>
          obtain ⟨_, elements, hcontent, _⟩ := h
          rw [hcontent] at hnull
          cases hnull
      | false =>
          obtain ⟨_, members, hcontent, _⟩ := h
          rw [hcontent] at hnull
          cases hnull

/-- A conversion that writes these bytes to the spot of its field, wherever the memory is the same
for the field and the document. -/
structure Converts (m : Bytes) (room : Region) (field : Field) (value : Value)
  (bytes : List UInt8) :
    Prop where
  size : bytes.length = (field.spot m).size
  run : ∀ m', Bytes.AgreeOn m m' room → Bytes.AgreeOn m m' ⟨field.target, field.type.extent⟩ →
    readField double m' field.target field.type value =
      (.success, m'.put (field.spot m).addr bytes)

variable {double}

theorem Field.spot_decodes (htype : field.type.Decodes) :
    field.spot m = ⟨blockData m field.target, blockSize m field.target⟩ := if_pos htype

theorem Field.spot_plain (htype : ¬ field.type.Decodes) :
    field.spot m = ⟨field.target, field.type.extent⟩ := if_neg htype

/-- A conversion that decodes nothing. -/
theorem Converts.plain {bytes : List UInt8} (ht : field.target ≠ 0) (htype : ¬ field.type.Decodes)
    (hbytes : encoded double field.type value = .ok bytes)
    (hlength : bytes.length = field.type.extent) : Converts double m room field value bytes := by
  constructor
  · rw [field.spot_plain htype, hlength]
  · intro m' _ _
    rw [readField_encoded ht htype, hbytes, field.spot_plain htype]

theorem FieldType.IsInteger.extent_eq {type : FieldType} (h : type.IsInteger) :
    type.extent = type.width ∧ ¬ type.Decodes := by
  rcases h with rfl | rfl | rfl | rfl <;> exact ⟨rfl, by decide⟩

/-- The block at a target, where the memory of the field is as it was. -/
theorem block_congr (hextent : field.type.extent = 12)
    (hsame : Bytes.AgreeOn m m' ⟨field.target, field.type.extent⟩) :
    blockData m' field.target = blockData m field.target ∧
      blockSize m' field.target = blockSize m field.target := by
  rw [hextent] at hsame
  constructor
  · exact Bytes.word_congr (hsame.within ⟨Nat.le_refl _, by simp⟩)
  · rw [blockSize, Bytes.read_congr (hsame.within ⟨Nat.le_add_right _ _, by simp⟩)]
    rfl

/-- The block that was written to a target. -/
theorem block_eq {data : Nat} {length : UInt32} (hdata : data < 2 ^ 64)
    (h : m'.read field.target 12 = Bytes.digits 8 data ++ Bytes.digits 4 length.toNat) :
    blockData m' field.target = data ∧ blockSize m' field.target = length.toNat := by
  rw [show (12 : Nat) = 8 + 4 from rfl, Bytes.read_add] at h
  obtain ⟨hfirst, hsecond⟩ := List.append_inj h (by simp)
  constructor
  · rw [blockData, Bytes.word, hfirst, Bytes.number_digits]
    exact Nat.mod_eq_of_lt hdata
  · rw [blockSize, hsecond, Bytes.number_digits]
    exact Nat.mod_eq_of_lt length.toNat_lt

theorem readString_hex {target text size : Nat} {after : Bytes} (hdata : blockData m target ≠ 0)
    (hsize : blockSize m target * 2 = size)
    (hhex : Hex.binaryFromHex m (blockData m target) text size = (.success, after)) :
    readString m target .hexFixed text size = (.success, after) := by
  unfold readString
  dsimp only
  rw [if_neg (not_not_intro hsize), if_neg hdata, hhex, if_pos rfl]

theorem readString_uuid {target text : Nat} {after : Bytes} (hdata : blockData m target ≠ 0)
    (hsize : blockSize m target = uuidBinarySize)
    (huuid : uuidFromString m (blockData m target) text = (.success, after)) :
    readString m target .uuid text uuidStringLength = (.success, after) := by
  unfold readString
  dsimp only
  rw [if_neg, if_neg hdata, huuid, if_pos rfl]
  rintro (h | h)
  · exact h rfl
  · exact h hsize

theorem readField_string {target text : Nat} {type : FieldType} {length : UInt32}
    (ht : target ≠ 0) (htype : type.Decodes) (hcontent : value.content = .str text length) :
    readField double m target type value = readString m target type text length.toNat := by
  unfold readField
  rw [if_neg ht, hcontent]
  rcases htype with rfl | rfl <;> rfl

/-- A text is decoded into the buffer of a block. -/
theorem Converts.hex {data : List UInt8} {text : Nat} {length : UInt32} (ht : field.target ≠ 0)
    (htype : field.type = .hexFixed) (hcontent : value.content = .str text length)
    (htext : IsText m room (Hex.encodeText data) text length) (hdata : blockData m field.target ≠ 0)
    (hsize : blockSize m field.target = data.length) (hspot : (field.spot m).Apart room) :
    Converts double m room field value data := by
  have hdecodes : field.type.Decodes := Or.inl htype
  have hplace : field.spot m = ⟨blockData m field.target, data.length⟩ := by
    rw [field.spot_decodes hdecodes, hsize]
  have htwice : length.toNat = data.length * 2 := by
    rw [htext.length_eq, Hex.length_encodeText]
  constructor
  · rw [hplace]
  · intro m' hroom hsame
    obtain ⟨hdata', hsize'⟩ := block_congr (by rw [htype]; rfl) hsame
    have hread := (htext.congr hroom).chars
    have hin := htext.within
    rw [Hex.length_encodeText] at hread hin
    have happart : Region.Apart ⟨blockData m field.target, data.length * 2 / 2⟩
        ⟨text, data.length * 2⟩ := by
      rw [hplace] at hspot
      apply hspot.within
      · exact ⟨Nat.le_refl _, by simp only [Region.stop_mk]; omega⟩
      · have hstop := hin.2
        refine ⟨hin.1, ?_⟩
        simp only [Region.stop_mk] at hstop ⊢
        omega
    have hhex : Hex.binaryFromHex m' (blockData m' field.target) text (data.length * 2) =
        (.success, m'.put (blockData m field.target) data) := by
      rw [hdata', Hex.binaryFromHex_spec happart, if_neg (by omega), hread,
        if_pos (Hex.wellFormed_encodeText data).2, Hex.decodeText_encodeText]
    rw [readField_string ht hdecodes hcontent, htwice, hplace, htype]
    exact readString_hex (by rwa [hdata']) (by rw [hsize', hsize]) hhex

theorem Converts.uuid {uuid : Vector UInt8 uuidBinarySize} {text : Nat} {length : UInt32}
    (ht : field.target ≠ 0) (htype : field.type = .uuid)
    (hcontent : value.content = .str text length)
    (htext : IsText m room (Writer.uuidToString uuid) text length)
    (hdata : blockData m field.target ≠ 0) (hsize : blockSize m field.target = uuidBinarySize) :
    Converts double m room field value uuid.toList := by
  have hdecodes : field.type.Decodes := Or.inr htype
  have hplace : field.spot m = ⟨blockData m field.target, uuidBinarySize⟩ := by
    rw [field.spot_decodes hdecodes, hsize]
  have hlength : length.toNat = uuidStringLength := by
    rw [htext.length_eq, length_uuidToString]
  constructor
  · rw [hplace, Vector.length_toList]
  · intro m' hroom hsame
    obtain ⟨hdata', hsize'⟩ := block_congr (by rw [htype]; rfl) hsame
    have htext' := htext.congr hroom
    have hread := htext'.chars
    have hend := htext'.terminator
    rw [length_uuidToString] at hread hend
    rw [readField_string ht hdecodes hcontent, hlength, hplace, htype, ← hdata']
    exact readString_uuid (by rwa [hdata']) (by rw [hsize', hsize]) (uuidFromString_text hread hend)

/-- What a conversion that decodes nothing leaves at its target. -/
theorem Converts.plain_stores (bytes : List UInt8) {Q : Bytes → Prop} (ht : field.target ≠ 0)
    (htype : ¬ field.type.Decodes) (hbytes : encoded double field.type value = .ok bytes)
    (hlength : bytes.length = field.type.extent)
    (hstored : ∀ m', m'.read field.target bytes.length = bytes → Bytes.AgreeOn m m' room → Q m') :
    ∃ bytes, Converts double m room field value bytes ∧
      ∀ m', m'.read (field.spot m).addr bytes.length = bytes → Bytes.AgreeOn m m' room → Q m' := by
  refine ⟨bytes, Converts.plain ht htype hbytes hlength, ?_⟩
  intro m' hread
  rw [field.spot_plain htype] at hread
  exact hstored m' hread

theorem Reads.bool_eq {b : Bool} {content : Content Value} (h : Reads m room (.bool b) content) :
    content = .bool b := by
  cases h with
  | bool b => rfl
  | raw hlabel => cases hlabel

theorem Reads.real_eq {bits : UInt64} {content : Content Value}
    (h : Reads m room (.real bits) content) : content = .real bits := by
  cases h with
  | real bits => rfl
  | raw hlabel => cases hlabel

theorem numberBits_of_integer {content : Content Value} {n : Int} (h : content.integer = some n) :
    numberBits double content = some (double n) := by
  cases content with
  | uint v =>
      obtain rfl := Option.some.inj h
      rfl
  | sint v =>
      obtain rfl := Option.some.inj h
      rfl
  | _ => cases h

/-- The entry is converted for the field, and then the field holds it. -/
def Lands (double : Int → UInt64) (m : Bytes) (room : Region) (field : Field) (value : Value)
    (entry : Entry) : Prop :=
  ∃ bytes, Converts double m room field value bytes ∧
    ∀ m', m'.read (field.spot m).addr bytes.length = bytes → Bytes.AgreeOn m m' room →
      Stored double m m' room field entry

/-- A field for a value gets its address. -/
theorem lands_value (hread : ReadsTree m room entry.tree value) (ht : field.target ≠ 0)
    (htype : field.type = .value) : Lands double m room field value entry := by
  apply Converts.plain_stores (Bytes.digits 8 value.addr) ht (by rw [htype]; decide)
  · rw [htype]
    rfl
  · rw [htype, Bytes.length_digits]
    rfl
  · intro m' hbytes hroom
    rw [Bytes.length_digits] at hbytes
    refine .value htype ?_ (hread.congr hroom)
    rw [Bytes.word, hbytes, Bytes.number_digits]
    exact Nat.mod_eq_of_lt hread.addr_lt

/-- A field for a double gets the bits of the number read. -/
theorem lands_double {bits : UInt64} (ht : field.target ≠ 0) (htype : field.type = .double)
    (hbits : numberBits double value.content = some bits)
    (hstored : ∀ m', m'.read field.target 8 = Bytes.digits 8 bits.toNat →
      Stored double m m' room field entry) : Lands double m room field value entry := by
  apply Converts.plain_stores (Bytes.digits 8 bits.toNat) ht (by rw [htype]; decide)
  · rw [htype, encoded, hbits]
  · rw [htype, Bytes.length_digits]
    rfl
  · intro m' hbytes _
    rw [Bytes.length_digits] at hbytes
    exact hstored m' hbytes

theorem lands_bool {b : Bool} (hread : ReadsTree m room (Entry.value (.bool b)).tree value)
    (ht : field.target ≠ 0) (htype : field.type = .bool) :
    Lands double m room field value (.value (.bool b)) := by
  apply Converts.plain_stores ([if b then 1 else 0]) ht (by rw [htype]; decide)
  · rw [htype, encoded, hread.scalar.bool_eq]
  · rw [htype]
    rfl
  · intro m' hbytes _
    exact .bool b hbytes

/-- A field for an integer gets its digits, if its type holds it. -/
theorem lands_number {n : Int} (hread : ReadsTree m room (Entry.value added).tree value)
    (ht : field.target ≠ 0) (hn : added.number = some n) (htype : field.type.IsInteger)
    (hholds : field.type.Holds n) : Lands double m room field value (.value added) := by
  obtain ⟨hextent, hplain⟩ := htype.extent_eq
  apply Converts.plain_stores (Bytes.digits field.type.width
    (unsignedOf (8 * field.type.width) n)) ht hplain
  · rw [encoded_integer value htype, encodedInteger, hread.scalar.number hn]
    exact if_pos hholds
  · rw [Bytes.length_digits, hextent]
  · intro m' hbytes _
    rw [Bytes.length_digits] at hbytes
    exact .number hn htype hbytes

/-- A field for a string gets where the text lies, and its length. -/
theorem lands_string {text : List UInt8} (hread : ReadsTree m room (Entry.value added).tree value)
    (ht : field.target ≠ 0) (hquoted : added.quoted = some text) (htype : field.type = .string)
    (hword : room.stop ≤ 2 ^ 64) : Lands double m room field value (.value added) := by
  obtain ⟨data, length, hcontent, htext⟩ := hread.scalar.quoted hquoted
  apply Converts.plain_stores (Bytes.digits 8 data ++ Bytes.digits 4 length.toNat) ht
    (by rw [htype]; decide)
  · rw [htype, encoded, hcontent]
  · rw [htype, List.length_append, Bytes.length_digits, Bytes.length_digits]
    rfl
  · intro m' hbytes hroom
    rw [List.length_append, Bytes.length_digits, Bytes.length_digits] at hbytes
    have hdata : data < 2 ^ 64 := by
      have hstop := htext.within.2
      rw [Region.stop_mk] at hstop
      omega
    obtain ⟨hblock, hsize⟩ := block_eq hdata hbytes
    refine .string hquoted htype ?_ hsize
    rw [hblock]
    exact htext.congr hroom

/-- An entry that a field goes with is converted, and then the field holds it. -/
theorem Matches.converts (hm : Matches m field entry) (hread : ReadsTree m room entry.tree value)
    (ht : field.target ≠ 0) (htaken : entry.isNull = true → field.type = .value)
    (hspot : (field.spot m).Apart room) (hword : room.stop ≤ 2 ^ 64) :
    Lands double m room field value entry := by
  cases hm with
  | null h => exact lands_value hread ht (htaken (decide_eq_true h))
  | value h => exact lands_value hread ht h
  | bool b h => exact lands_bool hread ht h
  | number hn htype hholds => exact lands_number hread ht hn htype hholds
  | double bits h =>
      have hbits : numberBits double value.content = some bits := by
        rw [hread.scalar.real_eq]
        rfl
      exact lands_double ht h hbits fun m' hbytes => .double hbytes
  | converted hn h =>
      exact lands_double ht h (numberBits_of_integer (hread.scalar.number hn)) fun m' hbytes =>
        .converted hn h hbytes
  | string hquoted h => exact lands_string hread ht hquoted h hword
  | hex h hdata hsize =>
      obtain ⟨text, length, hcontent, htext⟩ := hread.scalar.rawText
      refine ⟨_, Converts.hex ht h hcontent htext hdata hsize hspot, ?_⟩
      intro m' hbytes _
      rw [field.spot_decodes (Or.inl h)] at hbytes
      exact .hex h hbytes
  | @uuid uuid h hdata hsize =>
      obtain ⟨text, length, hcontent, htext⟩ := hread.scalar.rawText
      refine ⟨_, Converts.uuid ht h hcontent htext hdata hsize, ?_⟩
      intro m' hbytes _
      rw [field.spot_decodes (Or.inr h), Vector.length_toList] at hbytes
      exact .uuid h hbytes

end OneField

/-! ## All fields -/

/-- A null is passed over. -/
theorem convertOffers_cons_null {field : Field} {i : Nat} {value : Value}
    (htakes : field.type.takes value = false) (offers : List ((Field × Nat) × Value))
    (found : List Nat) (m₀ : Bytes) :
    convertOffers double (((field, i), value) :: offers) found m₀ =
      convertOffers double offers found m₀ := by
  rw [convertOffers, if_pos (takes_eq_false.mp htakes).symm]

/-- A field that takes its value has it stored, and the rest goes on from there. -/
theorem convertOffers_cons_taken {field : Field} {i : Nat} {value : Value} {bytes : List UInt8}
    {m₀ : Bytes} (hconv : Converts double m room field value bytes)
    (htakes : field.type.takes value = true) (hroom : Bytes.AgreeOn m m₀ room)
    (hown : Bytes.AgreeOn m m₀ ⟨field.target, field.type.extent⟩)
    (offers : List ((Field × Nat) × Value)) (found : List Nat) :
    convertOffers double (((field, i), value) :: offers) found m₀ =
      convertOffers double offers (found ++ [i]) (m₀.put (field.spot m).addr bytes) := by
  have hnull : ¬ (value.isNull = true ∧ field.type ≠ .value) := fun h =>
    Bool.false_ne_true ((takes_eq_false.mpr h.symm).symm.trans htakes)
  rw [convertOffers, if_neg hnull, hconv.run m₀ hroom hown]
  dsimp only
  rw [if_neg (not_not_intro rfl)]

/-- What the conversions of a table do one after the other: every field holds its value, and only
the spots of those that are converted are written. -/
theorem convertOffers_stores {Q : (Field × Nat) × Value → Bytes → Prop} :
    ∀ (offers : List ((Field × Nat) × Value)) (found : List Nat) {m₀ : Bytes},
      (∀ o ∈ offers, o.1.1.type.takes o.2 = true →
        ∃ bytes, Converts double m room o.1.1 o.2 bytes ∧
          ∀ m', m'.read (o.1.1.spot m).addr bytes.length = bytes →
            Bytes.AgreeOn m m' room → Q o m') →
      (∀ o ∈ offers, ∀ r ∈ o.1.1.rooms m, Region.Apart r room) →
      offers.Pairwise (fun o o' => o.1.1.ApartFrom m o'.1.1) →
      Bytes.AgreeOn m m₀ room → (∀ o ∈ offers, ∀ r ∈ o.1.1.rooms m, Bytes.AgreeOn m m₀ r) →
      ∃ m', convertOffers double offers found m₀ =
          (.success, found ++
            (offers.filter fun o => o.1.1.type.takes o.2).map (fun o => o.1.2), m') ∧
        Bytes.AgreeOn m m' room ∧
        (∀ o ∈ offers, o.1.1.type.takes o.2 = true → Q o m') ∧
        ∀ x, (∀ o ∈ offers, o.1.1.type.takes o.2 = true → ¬ (o.1.1.spot m).Has x) → m' x = m₀ x
  | [], found, m₀, _, _, _, hroom, _ => by
      refine ⟨m₀, ?_, hroom, ?_, fun _ _ => rfl⟩
      · rw [convertOffers]
        simp
      · intro o ho
        cases ho
  | ((field, i), value) :: offers, found, m₀, hconverts, haparts, hpairs, hroom, hrooms => by
      obtain ⟨hfirst, hrest⟩ := List.pairwise_cons.mp hpairs
      have hlater := fun o ho => hconverts o (List.mem_cons_of_mem _ ho)
      have haparts' := fun o ho => haparts o (List.mem_cons_of_mem _ ho)
      cases htakes : field.type.takes value with
      | false =>
          obtain ⟨m', hrun, hroom', hstored, hframe⟩ :=
            convertOffers_stores offers found hlater haparts'
            hrest hroom fun o ho => hrooms o (List.mem_cons_of_mem _ ho)
          rw [convertOffers_cons_null double htakes, hrun]
          refine ⟨m', ?_, hroom', ?_, ?_⟩
          · rw [List.filter_cons_of_neg (by simp [htakes])]
          · intro o ho htaken
            rcases List.mem_cons.mp ho with rfl | ho
            · exact absurd (htakes.symm.trans htaken) Bool.false_ne_true
            · exact hstored o ho htaken
          · intro x hx
            exact hframe x fun o ho => hx o (List.mem_cons_of_mem _ ho)
      | true =>
          obtain ⟨bytes, hconv, hq⟩ := hconverts _ List.mem_cons_self htakes
          have hspot :
              Region.mk (field.spot m).addr bytes.length = field.spot m := by rw [hconv.size]
          have hput : ∀ {r : Region}, (field.spot m).Apart r →
              Bytes.AgreeOn m₀ (m₀.put (field.spot m).addr bytes) r := by
            intro r hr
            apply Bytes.put_agreeOn
            rwa [hspot]
          have hmine : ∀ o ∈ offers, ∀ r ∈ o.1.1.rooms m, (field.spot m).Apart r := by
            intro o ho
            exact hfirst o ho (field.spot m) (List.mem_cons_of_mem _ List.mem_cons_self)
          have hroom₁ := hroom.trans (hput (haparts _ List.mem_cons_self (field.spot m)
            (List.mem_cons_of_mem _ List.mem_cons_self)))
          obtain ⟨m', hrun, hroom', hstored, hframe⟩ :=
            convertOffers_stores offers (found ++ [i]) hlater
            haparts' hrest hroom₁ fun o ho r hr =>
              (hrooms o (List.mem_cons_of_mem _ ho) r hr).trans (hput (hmine o ho r hr))
          rw [convertOffers_cons_taken double hconv htakes hroom
            (hrooms _ List.mem_cons_self _ List.mem_cons_self), hrun]
          refine ⟨m', ?_, hroom', ?_, ?_⟩
          · rw [List.filter_cons_of_pos (by simp [htakes]), List.map_cons, List.append_assoc]
            rfl
          · intro o ho htaken
            rcases List.mem_cons.mp ho with rfl | ho
            · -- no later conversion writes to the spot
              apply hq m' _ hroom'
              rw [Bytes.read_congr (m := m₀.put (field.spot m).addr bytes), Bytes.read_put]
              intro x hx
              apply hframe
              intro o' ho' _
              apply (hmine o' ho' (o'.1.1.spot m)
                (List.mem_cons_of_mem _ List.mem_cons_self)).not_has
              rwa [hspot] at hx
            · exact hstored o ho htaken
          · intro x hx
            rw [hframe x fun o ho => hx o (List.mem_cons_of_mem _ ho)]
            apply Bytes.put_apply_of_not
            intro hin
            apply hx _ List.mem_cons_self htakes
            rw [← hspot]
            exact hin

section Offers

variable {fields : List Field}

/-- An entry of the table is offered the value of the first member with its key. -/
theorem mem_offers (hkeys : (fields.map Field.key).Nodup) (members : List (Member Value))
    (field : Field) (i : Nat) (value : Value) :
    ((field, i), value) ∈ offers fields [] members ↔
      fields[i]? = some field ∧
        ∃ member, (members.find? fun member => decide (member.key = field.key)) = some member ∧
          member.value = value := by
  have hfilter : ∀ {field : Field}, fields[i]? = some field →
      (((field, i), value) ∈ offers fields [] members ↔
        ∃ member, (members.find? fun member => decide (member.key = field.key)) = some member ∧
          member.value = value) := by
    intro field hfield
    have hoffers := offers_filter hkeys hfield members []
    rw [if_neg List.not_mem_nil] at hoffers
    have hmem : ((field, i), value) ∈ offers fields [] members ↔
        ((field, i), value) ∈ (offers fields [] members).filter fun o => decide (o.1.2 = i) := by
      simp
    rw [hmem, hoffers]
    simp
  constructor
  · intro h
    obtain ⟨member, _, hoffer⟩ := List.mem_filterMap.mp h
    obtain ⟨entry, hentry, heq⟩ := Option.map_eq_some_iff.mp hoffer
    obtain ⟨rfl, rfl⟩ := Prod.mk.inj heq
    have hfield := (offer_some hentry).1
    exact ⟨hfield, (hfilter hfield).mp h⟩
  · rintro ⟨hfield, hfind⟩
    exact (hfilter hfield).mpr hfind

/-- No entry of the table is offered two values. -/
theorem nodup_offers (hkeys : (fields.map Field.key).Nodup) (members : List (Member Value)) :
    ((offers fields [] members).map fun o => o.1.2).Nodup := by
  rw [List.nodup_iff_count_le_one]
  intro i
  have hcount : ((offers fields [] members).map fun o => o.1.2).count i =
      ((offers fields [] members).filter fun o => decide (o.1.2 = i)).length := by
    rw [List.count, List.countP_map, List.countP_eq_length_filter]
    rfl
  rw [hcount]
  cases hfield : fields[i]? with
  | none =>
      rw [List.filter_eq_nil_iff.mpr]
      · exact Nat.zero_le _
      · rintro ⟨⟨field, j⟩, value⟩ ho hi
        obtain ⟨hsome, _⟩ := (mem_offers hkeys members field j value).mp ho
        have hij : j = i := of_decide_eq_true hi
        rw [hij, hfield] at hsome
        cases hsome
  | some field =>
      rw [offers_filter hkeys hfield members [], if_neg List.not_mem_nil]
      cases members.find? fun member => decide (member.key = field.key) <;> simp

/-- A value is converted unless it is null and its field has no room for a null. -/
theorem ReadsTree.takes_iff {field : Field} {entry : Entry} {value : Value}
    (h : ReadsTree m room entry.tree value) :
    field.type.takes value = true ↔ (entry.isNull = true → field.type = .value) := by
  rw [← h.isNull, FieldType.takes]
  cases value.isNull <;> simp

/-- A field is offered what the library read of the outline's entry. -/
theorem ReadsEntries.offered {o : Outline} {members : List (Member Value)}
    (h : ReadsEntries m room o.entries (members.map fun member => (some member.key, member.value)))
    (hkeys : (fields.map Field.key).Nodup) {field : Field} {i : Nat} {value : Value}
    (ho : ((field, i), value) ∈ offers fields [] members) :
    fields[i]? = some field ∧
      ∃ entry, o.first field.key = some entry ∧ ReadsTree m room entry.tree value := by
  obtain ⟨hfield, member, hfind, rfl⟩ := (mem_offers hkeys members field i value).mp ho
  have hrel := h.first field.key
  rw [hfind] at hrel
  cases hfirst : o.first field.key with
  | none =>
      rw [hfirst] at hrel
      cases hrel
  | some entry =>
      rw [hfirst] at hrel
      cases hrel with
      | some htree => exact ⟨hfield, entry, rfl, htree⟩

/-- An entry of the outline that is not passed over is offered to its field. -/
theorem ReadsEntries.offers_first {o : Outline} {members : List (Member Value)}
    (h : ReadsEntries m room o.entries (members.map fun member => (some member.key, member.value)))
    (hkeys : (fields.map Field.key).Nodup) {field : Field} {i : Nat} {entry : Entry}
    (hfield : fields[i]? = some field) (hfirst : o.first field.key = some entry)
    (hnull : entry.isNull = true → field.type = .value) :
    ∃ value, ((field, i), value) ∈ offers fields [] members ∧ field.type.takes value = true := by
  have hrel := h.first field.key
  rw [hfirst] at hrel
  cases hfind : members.find? fun member => decide (member.key = field.key) with
  | none =>
      rw [hfind] at hrel
      cases hrel
  | some member =>
      rw [hfind] at hrel
      cases hrel with
      | some htree =>
          have hoffered := (mem_offers hkeys members field i _).mpr ⟨hfield, member, hfind, rfl⟩
          exact ⟨member.value, hoffered, htree.takes_iff.mpr hnull⟩

/-- The fields converted are those of the entries that are not passed over. -/
theorem ReadsEntries.mem_taken {o : Outline} {members : List (Member Value)}
    (h : ReadsEntries m room o.entries (members.map fun member => (some member.key, member.value)))
    (hkeys : (fields.map Field.key).Nodup) {field : Field} {i : Nat}
    (hfield : fields[i]? = some field) :
    i ∈ ((offers fields [] members).filter fun o => o.1.1.type.takes o.2).map (fun o => o.1.2) ↔
      ∃ entry, o.first field.key = some entry ∧ (entry.isNull = true → field.type = .value) := by
  constructor
  · intro hi
    obtain ⟨⟨⟨field', j⟩, value⟩, ho, hj⟩ := List.mem_map.mp hi
    obtain ⟨hin, htaken⟩ := List.mem_filter.mp ho
    obtain ⟨hfield', entry, hfirst, htree⟩ := h.offered hkeys hin
    have hij : j = i := hj
    rw [hij, hfield] at hfield'
    obtain rfl := Option.some.inj hfield'
    exact ⟨entry, hfirst, htree.takes_iff.mp htaken⟩
  · rintro ⟨entry, hfirst, hnull⟩
    obtain ⟨value, ho, htaken⟩ := h.offers_first hkeys hfield hfirst hnull
    exact List.mem_map.mpr ⟨_, List.mem_filter.mpr ⟨ho, htaken⟩, rfl⟩

end Offers

theorem Field.ApartFrom.symm {a b : Field} (h : a.ApartFrom m b) : b.ApartFrom m a :=
  fun r hr s hs => (h s hs r hr).symm

/-- The fields of a table have no memory in common. -/
theorem apartFrom_of_getElem? {fields : List Field}
    (hapart : fields.Pairwise fun a b => a.ApartFrom m b) {i j : Nat} {a b : Field}
    (hi : fields[i]? = some a) (hj : fields[j]? = some b) (hne : i ≠ j) : a.ApartFrom m b := by
  obtain ⟨hi', rfl⟩ := List.getElem?_eq_some_iff.mp hi
  obtain ⟨hj', rfl⟩ := List.getElem?_eq_some_iff.mp hj
  rcases Nat.lt_or_gt_of_ne hne with hlt | hgt
  · exact List.pairwise_iff_getElem.mp hapart i j hi' hj' hlt
  · exact (List.pairwise_iff_getElem.mp hapart j i hj' hi' hgt).symm

/-- What a table has read of an outline. -/
structure ReadBack (m : Bytes) (room : Region) (o : Outline) (value : Value) (fields : List Field)
    (r : Result × BitVec 64 × Bytes) : Prop where
  success : r.1 = .success
  found : ∀ i field, fields[i]? = some field →
    (r.2.1.getLsbD i = true ↔
      ∃ entry, o.first field.key = some entry ∧ (entry.isNull = true → field.type = .value))
  stored : ∀ field ∈ fields, ∀ entry, o.first field.key = some entry →
    (entry.isNull = true → field.type = .value) → Stored double m r.2.2 room field entry
  /-- Nothing but what was found is written. -/
  frame : ∀ x, (∀ i field, fields[i]? = some field → r.2.1.getLsbD i = true →
    ¬ (field.spot m).Has x) → r.2.2 x = m x
  document : ReadsTree r.2.2 room (.node .obj o.entries) value

/-- A table that goes with an outline reads what the library read of it. -/
theorem readObject_readBack {o : Outline} {value : Value} {fields : List Field}
    (hread : ReadsTree m room (.node .obj o.entries) value) (hcount : 1 ≤ fields.length)
    (hmax : fields.length ≤ fieldsMax) (hkeys : (fields.map Field.key).Nodup)
    (htargets : ∀ field ∈ fields, field.target ≠ 0)
    (hmatches : ∀ field ∈ fields, ∀ entry, o.first field.key = some entry → Matches m field entry)
    (hapart : fields.Pairwise fun a b => a.ApartFrom m b)
    (hrooms : ∀ field ∈ fields, ∀ r ∈ field.rooms m, Region.Apart r room)
    (hword : room.stop ≤ 2 ^ 64) :
    ReadBack double m room o value fields (readObject double m value fields) := by
  have hdocument := hread
  rw [ReadsTree.eq_def] at hread
  obtain ⟨haddr, members, hcontent, hentries⟩ := hread
  -- the walk with the masks is the conversion of what is offered
  obtain ⟨hanswer, hwalk⟩ :=
    @readMembers_plain double fields hmax members ⟨0#64, 0#64, m⟩ ⟨[], [], m⟩
    ⟨Masks.Marks.nil, Masks.Marks.nil, rfl⟩
  obtain ⟨hanswer', hfound, hmemory⟩ := @plainMembers_offers double fields hkeys members ⟨[], [], m⟩
  have hreads : readObject double m value fields =
      ((readMembers double fields members ⟨0#64, 0#64, m⟩).1,
        (readMembers double fields members ⟨0#64, 0#64, m⟩).2.found,
        (readMembers double fields members ⟨0#64, 0#64, m⟩).2.memory) := by
    unfold readObject
    rw [if_neg (by omega), hcontent]
  have hmem : ∀ {field i}, fields[i]? = some field → field ∈ fields := List.mem_of_getElem?
  have hconverts : ∀ off ∈ offers fields [] members, off.1.1.type.takes off.2 = true →
      ∃ bytes, Converts double m room off.1.1 off.2 bytes ∧
        ∀ m', m'.read (off.1.1.spot m).addr bytes.length = bytes → Bytes.AgreeOn m m' room →
          ∀ entry, o.first off.1.1.key = some entry → Stored double m m' room off.1.1 entry := by
    rintro ⟨⟨field, i⟩, value'⟩ ho htaken
    obtain ⟨hfield, entry, hfirst, htree⟩ := hentries.offered hkeys ho
    obtain ⟨bytes, hconv, hholds⟩ := (hmatches field (hmem hfield) entry hfirst).converts htree
      (htargets field (hmem hfield)) (htree.takes_iff.mp htaken)
      (hrooms field (hmem hfield) _ (List.mem_cons_of_mem _ List.mem_cons_self)) hword
    refine ⟨bytes, hconv, ?_⟩
    intro m' hbytes hroom entry' hfirst'
    obtain rfl := Option.some.inj (hfirst.symm.trans hfirst')
    exact hholds m' hbytes hroom
  have haparts : ∀ off ∈ offers fields [] members, ∀ r ∈ off.1.1.rooms m, Region.Apart r room := by
    rintro ⟨⟨field, i⟩, value'⟩ ho
    exact hrooms field (hmem (hentries.offered hkeys ho).1)
  have hpairs :
      (offers fields [] members).Pairwise fun off off' => off.1.1.ApartFrom m off'.1.1 := by
    apply (List.pairwise_map.mp (nodup_offers hkeys members)).imp_of_mem
    rintro ⟨⟨a, i⟩, _⟩ ⟨⟨b, j⟩, _⟩ ha hb hne
    exact apartFrom_of_getElem? hapart (hentries.offered hkeys ha).1
      (hentries.offered hkeys hb).1 hne
  obtain ⟨m', hrun, hroom', hstored, hframe⟩ :=
    convertOffers_stores double (offers fields [] members)
    [] hconverts haparts hpairs (Bytes.AgreeOn.refl m room) fun _ _ r _ => Bytes.AgreeOn.refl m r
  rw [List.nil_append] at hrun
  rw [hrun] at hanswer' hfound hmemory
  have hbit : ∀ {field i}, fields[i]? = some field →
      ((readObject double m value fields).2.1.getLsbD i = true ↔
        ∃ entry, o.first field.key = some entry ∧ (entry.isNull = true → field.type = .value)) := by
    intro field i hfield
    have hmarks := hwalk.found i
    rw [hfound] at hmarks
    rw [hreads]
    exact hmarks.trans (hentries.mem_taken hkeys hfield)
  have hafter : (readObject double m value fields).2.2 = m' := by
    rw [hreads]
    exact hwalk.memory.trans hmemory
  constructor
  · rw [hreads]
    exact hanswer.trans hanswer'
  · intro i field hfield
    exact hbit hfield
  · intro field hfield entry hfirst hnull
    obtain ⟨i, hi⟩ := List.getElem?_of_mem hfield
    obtain ⟨value', ho, htaken⟩ := hentries.offers_first hkeys hi hfirst hnull
    rw [hafter]
    exact hstored _ ho htaken entry hfirst
  · intro x hx
    rw [hafter]
    apply hframe
    rintro ⟨⟨field, i⟩, value'⟩ ho htaken
    obtain ⟨hfield, entry, hfirst, htree⟩ := hentries.offered hkeys ho
    exact hx i field hfield ((hbit hfield).mpr ⟨entry, hfirst, htree.takes_iff.mp htaken⟩)
  · rw [hafter]
    exact hdocument.congr hroom'

/-- What is written field by field is read back field by field. Behind any calls of the writer an
object is begun and an outline walked without an error, the library reads the document that was
written, and the fields of a table go with what was added under their keys and have memory of their
own. Then every field that was added, and is not null, is found and holds its value; no other field
is found or written to; and the document can be read again. -/
theorem mapper_round_trip (before : List (WriterCall × Grants)) {o : Outline} {g : Grants}
    (hg : g.Full) {value : Value} {fields : List Field}
    (hok : (Writer.init.runAll (before ++ (beginCall false, g) :: o.calls g)).status = .success)
    (hread : ∀ t, (Writer.init.runAll (before ++ (beginCall false, g) :: o.calls g)).tree = some t →
      ReadsTree m room t value)
    (hcount : 1 ≤ fields.length) (hmax : fields.length ≤ fieldsMax)
    (hkeys : (fields.map Field.key).Nodup) (htargets : ∀ field ∈ fields, field.target ≠ 0)
    (hmatches : ∀ field ∈ fields, ∀ entry, o.first field.key = some entry → Matches m field entry)
    (hapart : fields.Pairwise fun a b => a.ApartFrom m b)
    (hrooms : ∀ field ∈ fields, ∀ r ∈ field.rooms m, Region.Apart r room)
    (hword : room.stop ≤ 2 ^ 64) :
    ReadBack double m room o value fields (readObject double m value fields) := by
  have hfollows := (o.written false hg before).2 hok
  exact readObject_readBack double
    (hread _ hfollows.tree) hcount hmax hkeys htargets hmatches hapart
    hrooms hword

/-- A number and a uuid that is not there. -/
def sampleRecord : Outline :=
  .value (some [0x61]) false (.int64 (-7)) (.value (some [0x62]) false (.uuid none) .nil)

/-- What the library reads of it. -/
def sampleValue : Value :=
  ⟨64, .obj [.under 0x61 ⟨80, .sint (-7)⟩, .under 0x62 ⟨96, .null⟩]⟩

def sampleTable : List Field := [⟨[0x62], .uuid, 32⟩, ⟨[0x61], .int32, 16⟩]

theorem mapper_round_trip_sample :
    ReadBack (fun _ => 0) (fun _ => 0) ⟨0, 0⟩ sampleRecord sampleValue sampleTable
      (readObject (fun _ => 0) (fun _ => 0) sampleValue sampleTable) := by
  apply mapper_round_trip (fun _ => 0) [] (g := ⟨true, true, true, true, false⟩)
    ⟨rfl, rfl, rfl, rfl⟩ rfl
  · intro t ht
    have hsint : Reads (fun _ => 0) ⟨0, 0⟩ (.sint (-7)) (.sint (-7)) := .sint rfl
    obtain rfl := Option.some.inj ht
    exact ⟨by decide, _, rfl, _, _, rfl, by simp [Legible, Writer.quote], ⟨by decide, hsint⟩,
      _, _, rfl, by simp [Legible, Writer.quote], ⟨by decide, .null⟩, rfl⟩
  · decide
  · decide
  · decide
  · decide
  · intro field hfield entry hentry
    simp only [sampleTable, List.mem_cons, List.not_mem_nil, or_false] at hfield
    rcases hfield with rfl | rfl
    · obtain rfl : Entry.value (.uuid none) = entry := Option.some.inj hentry
      exact .null rfl
    · obtain rfl : Entry.value (.int64 (-7)) = entry := Option.some.inj hentry
      exact .number (n := -7) rfl (Or.inr (Or.inr (Or.inr rfl))) (by decide)
  · decide
  · decide
  · decide

end Arnm.Json
