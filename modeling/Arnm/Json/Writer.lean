import Arnm.Json.Value
import Arnm.Lib.Forest
import Arnm.Memory.Arena
import Arnm.Text.Base64Encode

set_option autoImplicit false

/-! # The writer

`json_writer.c` up to the serializer. The values of a document are nodes in a pool, and the writer
keeps the nodes of the open containers; a container names its entries by their nodes. The strings
are the texts they are, whether they are borrowed or copied. Whether a piece is granted is the
allocator's: `Grants` has an answer for every piece a call asks for. -/

namespace Arnm.Json

open Forest

/-- `ARNM_JSON_WRITER_MAX_DEPTH` -/
def writerMaxDepth : Nat := 16

/-- `ARNM_JSON_WRITER_FIELD_NAME_SIZE` -/
def fieldNameSize : Nat := 64

/-- `JSON_HEX_MAX_BYTES` -/
def jsonHexMaxBytes : Nat := (Memory.maxAllocSize - 3) / 2

/-- `JSON_BASE64_MAX_BYTES` -/
def jsonBase64MaxBytes : Nat := (Memory.maxAllocSize - 3) / 4 * 3

/-- The characters of a literal of the source. -/
def literal (text : String) : List UInt8 := text.toList.map fun c => UInt8.ofNat c.toNat

/-- `JSON_ELEMENT_FIELD_NAME` -/
def elementFieldName : List UInt8 := literal "[]"

def messageMissingKeyObject : List UInt8 := literal "Missing key for object container"
def messageKeyOnArray : List UInt8 := literal "Not null key for array container"
def messageCloseTooOften : List UInt8 := literal "arnm_json_writer_close was called too often"
def messageNoContainerOpen : List UInt8 := literal "No container is open"

/-- What a node of the document is: the tag of a `yyjson_mut_val` and its scalar. A text is raw or
quoted, and runs through the escaping pass or not; `unset` is a node without a tag. -/
inductive Label where
  | unset
  | null
  | bool (value : Bool)
  | sint (value : Int64)
  | uint (value : UInt64)
  | real (bits : UInt64)
  | text (raw escape : Bool) (text : List UInt8)
  | obj
  | arr
  deriving DecidableEq

instance : Inhabited Label := ⟨.unset⟩

/-- The node of a member's key, and whether it runs through the escaping pass. -/
structure Key where
  text : List UInt8
  escape : Bool
  deriving DecidableEq

/-- `yyjson_mut_doc` -/
structure Document where
  values : Pool Label (Option Key)
  root : Option Nat

/-- The value a document holds. -/
def Document.tree (doc : Document) : Option (Tree Label (Option Key)) :=
  doc.root.map (treeAt doc.values)

/-- `json_writer_state`, as far as a document is built with it. -/
structure Writer where
  doc : Option Document
  depth : Nat
  status : Result
  errorField : List UInt8
  stack : List Nat

/-- What a call gets of the pieces it asks for: the document, its root, the room of a text, the node
of a field; and whether an arena keeps bytes of a document that is let go. -/
structure Grants where
  doc : Bool
  root : Bool
  text : Bool
  node : Bool
  kept : Bool

/-- `field_name` with `field_name_length` -/
def fieldName (key : Option (List UInt8)) : List UInt8 := key.getD elementFieldName

/-- The tag of an empty container. -/
def containerLabel (isArray : Bool) : Label := if isArray then .arr else .obj

namespace Writer

/-- `arnm_json_writer_init` -/
def init : Writer := ⟨none, 0, .success, [], List.replicate writerMaxDepth 0⟩

/-- The value that is built; without a document there is none. -/
def tree (w : Writer) : Option (Tree Label (Option Key)) := w.doc.bind Document.tree

/-- `record_error` -/
def recordError (result : Result) (key : Option (List UInt8)) (w : Writer) : Writer :=
  if w.status ≠ .success then w
  else
    match key with
    | none => { w with status := result, errorField := [] }
    | some name => { w with status := result, errorField := name.take (fieldNameSize - 1) }

/-- `dispose_document` -/
def disposeDocument (kept : Bool) (w : Writer) : Result × Writer :=
  match w.doc with
  | none => (.success, { w with depth := 0 })
  | some _ =>
    (if kept then .warningArenaMemoryNotReclaimed else .success, { w with depth := 0, doc := none })

/-- `begin_document` -/
def beginDocument (g : Grants) (isArray : Bool) (w : Writer) : Result × Writer :=
  let w := { (w.disposeDocument g.kept).2 with status := .success, errorField := [] }
  if !g.doc then (.errorOutOfMemory, w.recordError .errorOutOfMemory none)
  else
    let w := { w with doc := some ⟨[], none⟩ }
    if !g.root then
      (.errorOutOfMemory, (w.disposeDocument g.kept).2.recordError .errorOutOfMemory none)
    else
      let doc : Document := ⟨[(containerLabel isArray, [])], some 0⟩
      (.success, { w with doc := some doc, stack := w.stack.set 0 0, depth := 1 })

/-- `arnm_json_writer_begin_object` -/
def beginObject (g : Grants) (w : Writer) : Result × Writer := w.beginDocument g false

/-- `arnm_json_writer_begin_array` -/
def beginArray (g : Grants) (w : Writer) : Result × Writer := w.beginDocument g true

/-- `!state->doc && ARNM_SUCCESS != begin_document(state, false)`, which every adder asks: whether
it goes on. -/
def ensureDocument (g : Grants) (w : Writer) : Bool × Writer :=
  match w.doc with
  | some _ => (true, w)
  | none => ((w.beginDocument g false).1 == .success, (w.beginDocument g false).2)

/-- `unsafe_yyjson_is_obj` -/
def isObj (w : Writer) (node : Nat) : Bool :=
  match w.doc with
  | none => false
  | some doc => (doc.values[node]?.map fun value => decide (value.1 = .obj)).getD false

/-- A new node without a tag, the last entry of a container. -/
def append (container : Nat) (key : Option Key) (w : Writer) : Writer × Option Nat :=
  match w.doc with
  | none => (w, none)
  | some doc =>
    ({ w with doc := some { doc with values := grow doc.values container key .unset } },
      some doc.values.length)

/-- The setters: a node gets its tag and its value. -/
def setNode (node : Nat) (label : Label) (w : Writer) : Writer :=
  match w.doc with
  | none => w
  | some doc => { w with doc := some { doc with values := setLabel doc.values node label } }

/-- `field_obj` -/
def fieldObj (g : Grants) (container : Nat) (key : Option (List UInt8)) (escapeKey : Bool)
    (w : Writer) : Writer × Option Nat :=
  if !g.node then (w.recordError .errorOutOfMemory (some (fieldName key)), none)
  else w.append container (key.map fun text => ⟨text, escapeKey⟩)

/-- `field_array` -/
def fieldArray (g : Grants) (container : Nat) (w : Writer) : Writer × Option Nat :=
  if !g.node then (w.recordError .errorOutOfMemory (some elementFieldName), none)
  else w.append container none

/-- `field`: the node of a field, or `none` when it is refused. -/
def field (g : Grants) (key : Option (List UInt8)) (escapeKey : Bool) (w : Writer) :
    Writer × Option Nat :=
  if w.status ≠ .success then (w, none)
  else if !(w.ensureDocument g).1 then ((w.ensureDocument g).2, none)
  else
    let w := (w.ensureDocument g).2
    if w.depth = 0 then (w.recordError .errorInvalidState (some messageNoContainerOpen), none)
    else
      let container := w.stack.getD (w.depth - 1) 0
      let isObject := w.isObj container
      if isObject != key.isSome then
        if isObject then (w.recordError .errorInvalidParam (some messageMissingKeyObject), none)
        else (w.recordError .errorInvalidParam (some messageKeyOnArray), none)
      else if isObject then w.fieldObj g container key escapeKey
      else w.fieldArray g container

/-! ## Adding a field -/

/-- The setter an adder ends with, if there is a node. -/
def fill (r : Writer × Option Nat) (label : Label) : Writer :=
  match r.2 with
  | none => r.1
  | some node => r.1.setNode node label

section Adders

variable (g : Grants) (key : Option (List UInt8)) (escapeKey : Bool)

/-- `arnm_json_writer_add_null` -/
def addNull (w : Writer) : Writer := fill (w.field g key escapeKey) .null

/-- `arnm_json_writer_add_bool` -/
def addBool (value : Bool) (w : Writer) : Writer := fill (w.field g key escapeKey) (.bool value)

/-- `arnm_json_writer_add_int64` -/
def addInt64 (value : Int64) (w : Writer) : Writer := fill (w.field g key escapeKey) (.sint value)

/-- `arnm_json_writer_add_uint64` -/
def addUint64 (value : UInt64) (w : Writer) : Writer := fill (w.field g key escapeKey) (.uint value)

/-- `arnm_json_writer_add_double`; the double is its bits. -/
def addDouble (bits : UInt64) (w : Writer) : Writer := fill (w.field g key escapeKey) (.real bits)

/-- `is_string_copy` -/
def isStringCopy (flags : UInt32) : Bool := flags &&& 1 == 1

/-- `is_string_raw` -/
def isStringRaw (flags : UInt32) : Bool := flags &&& 2 == 2

/-- `is_string_escape` -/
def isStringEscape (flags : UInt32) : Bool := flags &&& 4 == 4

/-- The tag of a string under the flags; without a string it is the literal null. -/
def stringLabel (value : Option (List UInt8)) (flags : UInt32) : Label :=
  match value with
  | none => .null
  | some text => .text (isStringRaw flags) (isStringEscape flags) text

/-- The room of a text, asked for before the field is; then what the text is for. -/
def withText (next : Writer → Writer) (w : Writer) : Writer :=
  if !(w.ensureDocument g).1 then (w.ensureDocument g).2
  else if !g.text then
    (w.ensureDocument g).2.recordError .errorOutOfMemory (some (fieldName key))
  else next (w.ensureDocument g).2

/-- `arnm_json_writer_add_string_flags` -/
def addStringFlags (value : Option (List UInt8)) (flags : UInt32) (w : Writer) : Writer :=
  let add := fun w : Writer => fill (w.field g key escapeKey) (stringLabel value flags)
  if w.status ≠ .success then w
  else if value.isSome && isStringCopy flags then w.withText g key add
  else add w

/-- `arnm_json_writer_add_string` -/
def addString (value : Option (List UInt8)) (w : Writer) : Writer :=
  fill (w.field g key escapeKey) (stringLabel value 0)

/-- `'"'` -/
def quote : UInt8 := 0x22

/-- `yyjson_mut_set_raw` of a text between quotes. -/
def rawText (text : List UInt8) : Label := .text true true (quote :: text ++ [quote])

/-- A block as a text: an empty one is the empty string, one of more bytes than the bound is
refused. -/
def addBlock (maxBytes : Nat) (encode : List UInt8 → List UInt8) (data : Option (List UInt8))
    (w : Writer) : Writer :=
  if w.status ≠ .success then w
  else if (data.getD []).isEmpty then fill (w.field g key escapeKey) (rawText [])
  else if maxBytes < (data.getD []).length then
    w.recordError .errorResourceSizeExceed (some (fieldName key))
  else w.withText g key fun w => fill (w.field g key escapeKey) (rawText (encode (data.getD [])))

/-- `arnm_json_writer_add_hex` -/
def addHex (data : Option (List UInt8)) (w : Writer) : Writer :=
  w.addBlock g key escapeKey jsonHexMaxBytes Hex.encodeText data

/-- `arnm_json_writer_add_base64` -/
def addBase64 (data : Option (List UInt8)) (w : Writer) : Writer :=
  w.addBlock g key escapeKey jsonBase64MaxBytes Base64.encodeText data

/-- `arnm_uuid_to_string` -/
def uuidToString (uuid : Vector UInt8 uuidBinarySize) : List UInt8 :=
  let hex := Hex.encodeText uuid.toList
  hex.take 8 ++ [dash] ++ (hex.drop 8).take 4 ++ [dash] ++ (hex.drop 12).take 4 ++ [dash] ++
    (hex.drop 16).take 4 ++ [dash] ++ (hex.drop 20).take 12

/-- `arnm_json_writer_add_uuid` -/
def addUuid (uuid : Option (Vector UInt8 uuidBinarySize)) (w : Writer) : Writer :=
  if w.status ≠ .success then w
  else
    match uuid with
    | none => fill (w.field g key escapeKey) .null
    | some uuid =>
      w.withText g key fun w => fill (w.field g key escapeKey) (rawText (uuidToString uuid))

/-! ## Nesting -/

/-- A node is the innermost open container from now on. -/
def push (node : Nat) (w : Writer) : Writer :=
  { w with stack := w.stack.set w.depth node, depth := w.depth + 1 }

/-- What `open_container` does with its node, if there is one. -/
def enter (r : Writer × Option Nat) (isArray : Bool) : Writer :=
  match r.2 with
  | none => r.1
  | some node => (r.1.setNode node (containerLabel isArray)).push node

/-- `open_container` -/
def openContainer (isArray : Bool) (w : Writer) : Writer :=
  if w.status ≠ .success then w
  else if writerMaxDepth ≤ w.depth then
    w.recordError .errorResourceExhausted (some (fieldName key))
  else enter (w.field g key escapeKey) isArray

/-- `arnm_json_writer_open_object` -/
def openObject (w : Writer) : Writer := w.openContainer g key escapeKey false

/-- `arnm_json_writer_open_array` -/
def openArray (w : Writer) : Writer := w.openContainer g key escapeKey true

end Adders

/-- `arnm_json_writer_close` -/
def close (w : Writer) : Writer :=
  if w.status ≠ .success then w
  else if w.depth ≤ 1 then w.recordError .errorInvalidState (some messageCloseTooOften)
  else { w with depth := w.depth - 1 }

/-- `arnm_json_writer_clear_error` -/
def clearError (w : Writer) : Result × Writer :=
  (.success, { w with status := .success, errorField := [] })

/-- `arnm_json_writer_release` -/
def release (kept : Bool) (w : Writer) : Result × Writer := w.disposeDocument kept

end Writer

/-! ## Calls -/

/-- What an adder adds. -/
inductive Added where
  | null
  | bool (value : Bool)
  | int64 (value : Int64)
  | uint64 (value : UInt64)
  | double (bits : UInt64)
  | stringFlags (value : Option (List UInt8)) (flags : UInt32)
  | string (value : Option (List UInt8))
  | hex (data : Option (List UInt8))
  | base64 (data : Option (List UInt8))
  | uuid (value : Option (Vector UInt8 uuidBinarySize))

inductive WriterCall where
  | beginObject
  | beginArray
  | add (key : Option (List UInt8)) (escapeKey : Bool) (added : Added)
  | openObject (key : Option (List UInt8)) (escapeKey : Bool)
  | openArray (key : Option (List UInt8)) (escapeKey : Bool)
  | close
  | clearError
  | release

def Added.run (g : Grants) (key : Option (List UInt8)) (escapeKey : Bool) (w : Writer) :
    Added → Writer
  | .null => w.addNull g key escapeKey
  | .bool value => w.addBool g key escapeKey value
  | .int64 value => w.addInt64 g key escapeKey value
  | .uint64 value => w.addUint64 g key escapeKey value
  | .double bits => w.addDouble g key escapeKey bits
  | .stringFlags value flags => w.addStringFlags g key escapeKey value flags
  | .string value => w.addString g key escapeKey value
  | .hex data => w.addHex g key escapeKey data
  | .base64 data => w.addBase64 g key escapeKey data
  | .uuid value => w.addUuid g key escapeKey value

def WriterCall.run (g : Grants) (w : Writer) : WriterCall → Writer
  | .beginObject => (w.beginObject g).2
  | .beginArray => (w.beginArray g).2
  | .add key escapeKey added => added.run g key escapeKey w
  | .openObject key escapeKey => w.openObject g key escapeKey
  | .openArray key escapeKey => w.openArray g key escapeKey
  | .close => w.close
  | .clearError => w.clearError.2
  | .release => (w.release g.kept).2

/-- A run of calls, each with what it is granted. -/
def Writer.runAll (w : Writer) (calls : List (WriterCall × Grants)) : Writer :=
  calls.foldl (fun w c => c.1.run c.2 w) w

end Arnm.Json
