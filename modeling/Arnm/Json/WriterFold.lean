import Arnm.Json.Writer

set_option autoImplicit false

/-! # The document is the fold of the calls

Read off the writer before and after it, a call is an edit of the path of open containers, or none
when it was refused. `Follows` says that a writer is where the edits lead; each call keeps it, so
the document of every run is the fold of its edits (`tree_is_fold`). -/

namespace Arnm.Json

open Forest

/-! ## Edits -/

/-- An open container of a document: the key it has in the next, its tag and its entries. -/
abbrev Container := Frame Label (Option Key)

inductive Edit where
  | began (isArray : Bool)
  | added (key : Option Key) (label : Label)
  | opened (key : Option Key) (isArray : Bool)
  | closed
  | dropped

/-- The path of open containers after an edit, the innermost first. -/
def Edit.apply : List Container → Edit → List Container
  | _, .began isArray => [⟨none, containerLabel isArray, []⟩]
  | f :: frames, .added key label => f.add key (.node label []) :: frames
  | f :: frames, .opened key isArray => ⟨key, containerLabel isArray, []⟩ :: f :: frames
  | g :: f :: frames, .closed => f.add g.key g.tree :: frames
  | _, .dropped => []
  | frames, _ => frames

/-- The value an adder is to add. -/
def Added.label : Added → Label
  | .null => .null
  | .bool value => .bool value
  | .int64 value => .sint value
  | .uint64 value => .uint value
  | .double bits => .real bits
  | .stringFlags value flags => Writer.stringLabel value flags
  | .string value => Writer.stringLabel value 0
  | .hex data => Writer.rawText (Hex.encodeText (data.getD []))
  | .base64 data => Writer.rawText (Base64.encodeText (data.getD []))
  | .uuid none => .null
  | .uuid (some value) => Writer.rawText (Writer.uuidToString value)

/-- The node of a key that is given. -/
def keyNode (key : Option (List UInt8)) (escapeKey : Bool) : Option Key :=
  key.map fun text => ⟨text, escapeKey⟩

/-- What a call of an adder, an open or a close does when it is accepted. -/
def WriterCall.edit : WriterCall → Option Edit
  | .add key escapeKey added => some (.added (keyNode key escapeKey) added.label)
  | .openObject key escapeKey => some (.opened (keyNode key escapeKey) false)
  | .openArray key escapeKey => some (.opened (keyNode key escapeKey) true)
  | .close => some .closed
  | _ => none

/-- The root object a writer without a document opens on its own. -/
def implicitRoot (w w' : Writer) : List Edit :=
  if w.doc.isNone && w'.doc.isSome then [.began false] else []

/-- An add, open or close was accepted when it started and ended without an error. -/
def made (w w' : Writer) (edit : Option Edit) : List Edit :=
  if w.status = .success ∧ w'.status = .success then edit.toList else []

/-- A begin was accepted when it ended without an error. -/
def begun (w' : Writer) (isArray : Bool) : List Edit :=
  if w'.status = .success then [.began isArray] else []

/-- The edits of a call that was accepted. -/
def accepted (w w' : Writer) : WriterCall → List Edit
  | .beginObject => begun w' false
  | .beginArray => begun w' true
  | .clearError => []
  | .release => [.dropped]
  | c => implicitRoot w w' ++ made w w' c.edit

/-- A begin that was refused has let the document go. -/
def lost (w' : Writer) : WriterCall → List Edit
  | .beginObject | .beginArray => if w'.status = .success then [] else [.dropped]
  | _ => []

/-- All edits of a call. -/
def edits (w w' : Writer) (c : WriterCall) : List Edit := accepted w w' c ++ lost w' c

/-- The edits of a run, those of a call as `edits` reads them off. -/
def collect (edits : Writer → Writer → WriterCall → List Edit) :
    Writer → List (WriterCall × Grants) → List Edit
  | _, [] => []
  | w, c :: calls => edits w (c.1.run c.2 w) c.1 ++ collect edits (c.1.run c.2 w) calls

/-- The path of open containers after some edits. -/
def pathOf (edits : List Edit) : List Container := edits.foldl Edit.apply []

/-! ## What stands -/

/-- A document is built: its open containers, of which `c` is the innermost, are the frames. -/
structure Builds (w : Writer) (doc : Document) (c : Nat) (path : List Nat) (f : Container)
    (frames : List Container) : Prop where
  doc_eq : w.doc = some doc
  stands : Stands doc.values doc.values.length [] (c :: path) (f :: frames)
  root : doc.root = (c :: path).getLast?
  stack : w.stack.take w.depth = (c :: path).reverse
  depth : w.depth = path.length + 1
  depth_le : w.depth ≤ writerMaxDepth
  stackLength : w.stack.length = writerMaxDepth

/-- The writer is where the edits lead. -/
def Follows (w : Writer) (frames : List Container) : Prop :=
  (w.doc = none ∧ w.depth = 0 ∧ w.stack.length = writerMaxDepth ∧ frames = []) ∨
    ∃ doc c path f rest, frames = f :: rest ∧ Builds w doc c path f rest

/-- Nothing but the error may be another. -/
structure Same (w w' : Writer) : Prop where
  doc : w'.doc = w.doc
  depth : w'.depth = w.depth
  stack : w'.stack = w.stack

theorem Same.refl (w : Writer) : Same w w := ⟨rfl, rfl, rfl⟩

theorem Builds.same {w w' : Writer} {doc : Document} {c : Nat} {path : List Nat} {f : Container}
    {frames : List Container} (h : Builds w doc c path f frames) (hsame : Same w w') :
    Builds w' doc c path f frames := by
  constructor
  · rw [hsame.doc, h.doc_eq]
  · exact h.stands
  · exact h.root
  · rw [hsame.stack, hsame.depth, h.stack]
  · rw [hsame.depth, h.depth]
  · rw [hsame.depth]
    exact h.depth_le
  · rw [hsame.stack, h.stackLength]

theorem Follows.same {w w' : Writer} {frames : List Container} (h : Follows w frames)
    (hsame : Same w w') : Follows w' frames := by
  rcases h with ⟨hdoc, hdepth, hstack, hframes⟩ | ⟨doc, c, path, f, rest, hframes, hb⟩
  · exact Or.inl ⟨by rw [hsame.doc, hdoc], by rw [hsame.depth, hdepth], by rw [hsame.stack, hstack],
      hframes⟩
  · exact Or.inr ⟨doc, c, path, f, rest, hframes, hb.same hsame⟩

theorem Follows.stackLength {w : Writer} {frames : List Container} (h : Follows w frames) :
    w.stack.length = writerMaxDepth := by
  rcases h with ⟨_, _, hstack, _⟩ | ⟨_, _, _, _, _, _, hb⟩
  · exact hstack
  · exact hb.stackLength

theorem Follows.depth_of_none {w : Writer} {frames : List Container} (h : Follows w frames)
    (hdoc : w.doc = none) : w.depth = 0 ∧ frames = [] := by
  rcases h with ⟨_, hdepth, _, hframes⟩ | ⟨_, _, _, _, _, _, hb⟩
  · exact ⟨hdepth, hframes⟩
  · rw [hb.doc_eq] at hdoc
    cases hdoc

/-- The document of a writer is the tree of its path. -/
theorem Follows.tree {w : Writer} {frames : List Container} (h : Follows w frames) :
    w.tree = zip frames := by
  rcases h with ⟨hdoc, _, _, rfl⟩ | ⟨doc, c, path, f, rest, rfl, hb⟩
  · rw [Writer.tree, hdoc]
    rfl
  · obtain ⟨root, hroot⟩ : ∃ root, (c :: path).getLast? = some root :=
      ⟨_, List.getLast?_eq_some_getLast (List.cons_ne_nil c path)⟩
    rw [hb.stands.zip_eq hroot, Writer.tree, hb.doc_eq]
    show doc.root.map (treeAt doc.values) = _
    rw [hb.root, hroot]
    rfl

theorem Follows.depth {w : Writer} {frames : List Container} (h : Follows w frames)
    (hdoc : w.doc.isSome) : w.depth = frames.length ∧ 1 ≤ w.depth ∧ w.depth ≤ writerMaxDepth := by
  rcases h with ⟨hnone, _⟩ | ⟨doc, c, path, f, rest, rfl, hb⟩
  · rw [hnone] at hdoc
    cases hdoc
  · have hlen := hb.stands.length_eq
    have hdepth := hb.depth
    rw [List.length_cons] at hlen
    exact ⟨by omega, by omega, hb.depth_le⟩

theorem follows_init : Follows Writer.init [] :=
  Or.inl ⟨rfl, rfl, List.length_replicate, rfl⟩

/-! ## Errors -/

theorem Writer.recordError_same (w : Writer) (result : Result) (key : Option (List UInt8)) :
    Same w (w.recordError result key) := by
  unfold Writer.recordError
  split
  · exact Same.refl w
  · cases key <;> exact ⟨rfl, rfl, rfl⟩

theorem Writer.recordError_status {w : Writer} (hs : w.status = .success) (result : Result)
    (key : Option (List UInt8)) : (w.recordError result key).status = result := by
  unfold Writer.recordError
  rw [if_neg (not_not_intro hs)]
  cases key <;> rfl

/-! ## Beginning -/

/-- The path of a document that was just begun. -/
def rootPath (isArray : Bool) : List Container := [⟨none, containerLabel isArray, []⟩]

/-- A document of an empty root. -/
def rootDocument (isArray : Bool) : Document := ⟨[(containerLabel isArray, [])], some 0⟩

/-- A document was begun. -/
structure Begun (isArray : Bool) (w w' : Writer) : Prop where
  status : w'.status = .success
  doc : w'.doc = some (rootDocument isArray)
  depth : w'.depth = 1
  stack : w'.stack = w.stack.set 0 0

/-- There was no memory for a document; the one before is gone. -/
structure Unbegun (w w' : Writer) : Prop where
  status : w'.status = .errorOutOfMemory
  doc : w'.doc = none
  depth : w'.depth = 0
  stack : w'.stack = w.stack

theorem Writer.disposeDocument_doc (kept : Bool) (w : Writer) :
    (w.disposeDocument kept).2 = { w with depth := 0, doc := none } := by
  obtain ⟨doc, depth, status, errorField, stack⟩ := w
  cases doc <;> rfl

theorem Writer.beginDocument_cases (w : Writer) (g : Grants) (isArray : Bool) :
    ((w.beginDocument g isArray).1 = .success ∧ Begun isArray w (w.beginDocument g isArray).2) ∨
      ((w.beginDocument g isArray).1 = .errorOutOfMemory ∧
        Unbegun w (w.beginDocument g isArray).2) := by
  unfold Writer.beginDocument
  rw [Writer.disposeDocument_doc]
  cases g.doc with
  | false => exact Or.inr ⟨rfl, rfl, rfl, rfl, rfl⟩
  | true =>
      cases g.root with
      | false => exact Or.inr ⟨rfl, rfl, rfl, rfl, rfl⟩
      | true => exact Or.inl ⟨rfl, rfl, rfl, rfl, rfl⟩

theorem Begun.follows {isArray : Bool} {w w' : Writer} (h : Begun isArray w w')
    (hstack : w.stack.length = writerMaxDepth) : Follows w' (rootPath isArray) := by
  have hbuilds : Builds w' (rootDocument isArray) 0 [] ⟨none, containerLabel isArray, []⟩ [] := by
    constructor
    · exact h.doc
    · exact stands_root none _
    · rfl
    · rw [h.depth, h.stack]
      cases hs : w.stack with
      | nil =>
          rw [hs] at hstack
          cases hstack
      | cons => rfl
    · exact h.depth
    · rw [h.depth]
      decide
    · rw [h.stack, List.length_set, hstack]
  exact Or.inr ⟨_, _, _, _, _, rfl, hbuilds⟩

theorem Unbegun.follows {w w' : Writer} (h : Unbegun w w')
    (hstack : w.stack.length = writerMaxDepth) : Follows w' [] :=
  Or.inl ⟨h.doc, h.depth, by rw [h.stack, hstack], rfl⟩

/-! ## A field -/

/-- The innermost open container is the one a field goes to. -/
theorem Builds.innermost {w : Writer} {doc : Document} {c : Nat} {path : List Nat} {f : Container}
    {frames : List Container} (h : Builds w doc c path f frames) :
    w.stack.getD (w.depth - 1) 0 = c := by
  have hlast : (w.stack.take w.depth)[w.depth - 1]? = some c := by
    rw [h.stack, h.depth, Nat.add_sub_cancel, List.reverse_cons]
    rw [List.getElem?_append_right (by rw [List.length_reverse]), List.length_reverse, Nat.sub_self]
    rfl
  have hdepth := h.depth
  rw [List.getElem?_take_of_lt (by omega)] at hlast
  rw [List.getD_eq_getElem?_getD, hlast]
  rfl

/-- A field was refused: nothing but the error is another. -/
def Refused (w w' : Writer) : Prop := w'.status ≠ .success ∧ Same w w'

theorem Writer.recordError_refused {w : Writer} (hs : w.status = .success) {result : Result}
    (hresult : result ≠ .success) (key : Option (List UInt8)) :
    Refused w (w.recordError result key) :=
  ⟨by rwa [Writer.recordError_status hs], Writer.recordError_same w result key⟩

/-- What `field` answers while a document stands: it is refused, or there is a new node in the
innermost container. -/
theorem Builds.field {w : Writer} {doc : Document} {c : Nat} {path : List Nat} {f : Container}
    {frames : List Container} (h : Builds w doc c path f frames) (hs : w.status = .success)
    (g : Grants) (key : Option (List UInt8)) (escapeKey : Bool) :
    ((w.field g key escapeKey).2 = none ∧ Refused w (w.field g key escapeKey).1) ∨
      w.field g key escapeKey = w.append c (keyNode key escapeKey) := by
  have hensure : w.ensureDocument g = (true, w) := by
    rw [Writer.ensureDocument, h.doc_eq]
  have hdepth : w.depth ≠ 0 := by
    rw [h.depth]
    exact Nat.succ_ne_zero _
  unfold Writer.field
  rw [if_neg (not_not_intro hs), hensure]
  show (ite (w.depth = 0) _ _ : Writer × Option Nat).2 = none ∧ _ ∨ _
  rw [if_neg hdepth, h.innermost]
  -- an object asks for a key and an array for none; only then is a node asked for
  cases w.isObj c with
  | true =>
      cases key with
      | none => exact Or.inl ⟨rfl, Writer.recordError_refused hs (by decide) _⟩
      | some text =>
          show (w.fieldObj g c (some text) escapeKey).2 = none ∧ _ ∨ w.fieldObj g c _ _ = _
          rw [Writer.fieldObj]
          cases g.node with
          | false => exact Or.inl ⟨rfl, Writer.recordError_refused hs (by decide) _⟩
          | true => exact Or.inr rfl
  | false =>
      cases key with
      | some text => exact Or.inl ⟨rfl, Writer.recordError_refused hs (by decide) _⟩
      | none =>
          show (w.fieldArray g c).2 = none ∧ _ ∨ w.fieldArray g c = _
          rw [Writer.fieldArray]
          cases g.node with
          | false => exact Or.inl ⟨rfl, Writer.recordError_refused hs (by decide) _⟩
          | true => exact Or.inr rfl

/-- A new node with its label. -/
def Writer.grown (w : Writer) (doc : Document) (c : Nat) (key : Option Key) (label : Label) :
    Writer :=
  { w with doc := some { doc with values := grow doc.values c key label } }

theorem Builds.append {w : Writer} {doc : Document} {c : Nat} {path : List Nat} {f : Container}
    {frames : List Container} (h : Builds w doc c path f frames) (key : Option Key) :
    w.append c key = (w.grown doc c key .unset, some doc.values.length) := by
  rw [Writer.append, h.doc_eq]
  rfl

theorem Writer.setNode_grown (w : Writer) (doc : Document) (c : Nat) (key : Option Key)
    (label : Label) :
    (w.grown doc c key .unset).setNode doc.values.length label = w.grown doc c key label := by
  show ({ w.grown doc c key .unset with
      doc := some ⟨setLabel (grow doc.values c key .unset) doc.values.length label, doc.root⟩ } :
    Writer) = _
  rw [setLabel_grow]
  rfl

/-- The new node is an entry of the innermost container. -/
theorem Builds.grown {w : Writer} {doc : Document} {c : Nat} {path : List Nat} {f : Container}
    {frames : List Container} (h : Builds w doc c path f frames) (key : Option Key)
    (label : Label) :
    Follows (w.grown doc c key label) (f.add key (.node label []) :: frames) := by
  have hstands := h.stands.grow key label
  rw [← length_grow doc.values c key label] at hstands
  exact Or.inr
    ⟨⟨grow doc.values c key label, doc.root⟩, c, path, _, frames, rfl, rfl, hstands, h.root,
    h.stack, h.depth, h.depth_le, h.stackLength⟩

/-- The new node is a container, and the innermost one from now on. -/
theorem Builds.opened {w : Writer} {doc : Document} {c : Nat} {path : List Nat} {f : Container}
    {frames : List Container} (h : Builds w doc c path f frames) (hdepth : w.depth < writerMaxDepth)
    (key : Option Key) (label : Label) :
    Follows ((w.grown doc c key label).push doc.values.length)
      (⟨key, label, []⟩ :: f :: frames) := by
  have hstands := h.stands.push key label
  rw [← length_grow doc.values c key label] at hstands
  refine Or.inr
    ⟨⟨grow doc.values c key label, doc.root⟩, doc.values.length, c :: path, _, f :: frames,
    rfl, rfl, hstands, ?_, ?_, ?_, hdepth, ?_⟩
  · show doc.root = (doc.values.length :: c :: path).getLast?
    rw [h.root, List.getLast?_cons_cons]
  · show (w.stack.set w.depth doc.values.length).take (w.depth + 1) = _
    have hlen := h.stackLength
    rw [List.take_add_one, List.take_set_of_le (Nat.le_refl _), h.stack,
      List.getElem?_set_self (by omega)]
    exact (List.reverse_cons ..).symm
  · show w.depth + 1 = (c :: path).length + 1
    rw [h.depth, List.length_cons]
  · show (w.stack.set w.depth doc.values.length).length = writerMaxDepth
    rw [List.length_set, h.stackLength]

/-- The innermost container is left, and another one is there to go on with. -/
theorem Builds.closed {w : Writer} {doc : Document} {d c : Nat} {path : List Nat} {g f : Container}
    {frames : List Container} (h : Builds w doc d (c :: path) g (f :: frames)) :
    Follows { w with depth := w.depth - 1 } (f.add g.key g.tree :: frames) := by
  have hdepth := h.depth
  have hle := h.depth_le
  rw [List.length_cons] at hdepth
  refine Or.inr
    ⟨doc, c, path, _, frames, rfl, h.doc_eq, h.stands.pop, ?_, ?_, ?_, ?_, h.stackLength⟩
  · rw [h.root, List.getLast?_cons_cons]
  · show w.stack.take (w.depth - 1) = (c :: path).reverse
    have hlen : (c :: path).reverse.length = w.depth - 1 := by
      rw [List.length_reverse, List.length_cons]
      omega
    calc w.stack.take (w.depth - 1)
        = (w.stack.take w.depth).take (w.depth - 1) := by
          rw [List.take_take, Nat.min_eq_left (Nat.sub_le _ _)]
      _ = ((c :: path).reverse ++ [d]).take (w.depth - 1) := by rw [h.stack, List.reverse_cons]
      _ = (c :: path).reverse := List.take_left' hlen
  · show w.depth - 1 = path.length + 1
    omega
  · show w.depth - 1 ≤ writerMaxDepth
    omega

/-! ## What an add, an open or a close ends with -/

/-- The path an edit is made on: without a document it is that of an empty object. -/
def start (w : Writer) (frames : List Container) : List Container :=
  if w.doc.isNone then rootPath false else frames

/-- The call was refused and changed nothing but the error; or it was refused after it opened the
empty root object of a writer without a document; or it made its edit. -/
inductive Ended (w : Writer) (frames : List Container) (edit : Edit) (w' : Writer) : Prop where
  | refused (h : Refused w w')
  | rooted (hdoc : w.doc = none) (hstatus : w'.status ≠ .success)
      (hdoc' : w'.doc = some (rootDocument false)) (hdepth : w'.depth = 1)
      (hfollows : Follows w' (rootPath false))
  | done (hstatus : w'.status = .success) (hdoc : w'.doc.isSome)
      (hfollows : Follows w' (edit.apply (start w frames)))

theorem Builds.isSome {w : Writer} {doc : Document} {c : Nat} {path : List Nat} {f : Container}
    {frames : List Container} (h : Builds w doc c path f frames) : w.doc.isSome := by
  rw [h.doc_eq]
  rfl

theorem Builds.start_eq {w : Writer} {doc : Document} {c : Nat} {path : List Nat} {f : Container}
    {frames : List Container} (h : Builds w doc c path f frames) (frames' : List Container) :
    start w frames' = frames' := by
  rw [start, h.doc_eq]
  rfl

/-- An adder while a document stands. -/
theorem Builds.fill {w : Writer} {doc : Document} {c : Nat} {path : List Nat} {f : Container}
    {frames : List Container} (h : Builds w doc c path f frames) (hs : w.status = .success)
    (g : Grants) (key : Option (List UInt8)) (escapeKey : Bool) (label : Label) :
    Ended w (f :: frames) (.added (keyNode key escapeKey) label)
      (Writer.fill (w.field g key escapeKey) label) := by
  rcases h.field hs g key escapeKey with ⟨hnode, hrefused⟩ | hfield
  · rw [Writer.fill, hnode]
    exact .refused hrefused
  · rw [hfield, h.append]
    show Ended _ _ _ ((w.grown doc c _ .unset).setNode doc.values.length label)
    rw [Writer.setNode_grown]
    refine .done hs rfl ?_
    rw [h.start_eq]
    exact h.grown _ label

/-! ## The document is opened first -/

theorem Builds.ensureDocument {w : Writer} {doc : Document} {c : Nat} {path : List Nat}
    {f : Container} {frames : List Container} (h : Builds w doc c path f frames) (g : Grants) :
    w.ensureDocument g = (true, w) := by
  rw [Writer.ensureDocument, h.doc_eq]

theorem Begun.ensureDocument {isArray : Bool} {w w' : Writer} (h : Begun isArray w w')
    (g : Grants) :
    w'.ensureDocument g = (true, w') := by
  rw [Writer.ensureDocument, h.doc]

/-- Without a document one is begun, or there is none and the call ends. -/
theorem Writer.ensureDocument_cases {w : Writer} (hdoc : w.doc = none) (g : Grants) :
    ((w.ensureDocument g).1 = true ∧ Begun false w (w.ensureDocument g).2) ∨
      ((w.ensureDocument g).1 = false ∧ Unbegun w (w.ensureDocument g).2) := by
  have hensure : w.ensureDocument g =
      ((w.beginDocument g false).1 == .success, (w.beginDocument g false).2) := by
    rw [Writer.ensureDocument, hdoc]
  rw [hensure]
  rcases w.beginDocument_cases g false with ⟨hresult, hbegun⟩ | ⟨hresult, hnone⟩
  · rw [hresult]
    exact Or.inl ⟨rfl, hbegun⟩
  · rw [hresult]
    exact Or.inr ⟨rfl, hnone⟩

/-- A call that opens a root first: what is said of it while a document stands holds without one. -/
theorem Ended.of_ensured {w : Writer} {frames : List Container} {edit : Edit}
    (hf : Follows w frames) (hs : w.status = .success) (g : Grants) (next : Writer → Writer)
    (hrefused : w.doc = none → (w.ensureDocument g).1 = false → next w = (w.ensureDocument g).2)
    (hbegun : w.doc = none → Begun false w (w.ensureDocument g).2 → (w.ensureDocument g).1 = true →
      next w = next (w.ensureDocument g).2)
    (hbuilds : ∀ {w₁ : Writer} {doc : Document} {c : Nat} {path : List Nat} {f : Container}
      {rest : List Container}, Builds w₁ doc c path f rest → w₁.status = .success →
      Ended w₁ (f :: rest) edit (next w₁)) :
    Ended w frames edit (next w) := by
  rcases hf with ⟨hdoc, hdepth, hstack, rfl⟩ | ⟨doc, c, path, f, rest, rfl, hb⟩
  · rcases w.ensureDocument_cases hdoc g with ⟨hgoes, hroot⟩ | ⟨hends, hnone⟩
    · rw [hbegun hdoc hroot hgoes]
      have hstart : start w [] = rootPath false := by
        rw [start, hdoc]
        rfl
      have hroots := hroot.follows hstack
      rcases hroot.follows hstack with ⟨hnone, _⟩ | ⟨doc, c, path, f, rest, hframes, hb⟩
      · rw [hroot.doc] at hnone
        cases hnone
      · -- the root stays also where the call on it is refused
        cases hbuilds hb hroot.status with
        | refused h =>
            have hdoc' := h.2.doc.trans hroot.doc
            have hdepth' := h.2.depth.trans hroot.depth
            exact .rooted hdoc h.1 hdoc' hdepth' (hroots.same h.2)
        | rooted hno =>
            rw [hroot.doc] at hno
            cases hno
        | done hstatus hsome hfollows =>
            rw [hb.start_eq, ← hframes] at hfollows
            exact .done hstatus hsome (by rwa [hstart])
    · rw [hrefused hdoc hends]
      refine .refused ⟨by rw [hnone.status]; decide, ⟨?_, ?_, hnone.stack⟩⟩
      · rw [hnone.doc, hdoc]
      · rw [hnone.depth, hdepth]
  · exact hbuilds hb hs

theorem Writer.field_of_refused {w : Writer} (hs : w.status = .success) {g : Grants}
    (h : (w.ensureDocument g).1 = false) (key : Option (List UInt8)) (escapeKey : Bool) :
    w.field g key escapeKey = ((w.ensureDocument g).2, none) := by
  rw [Writer.field, if_neg (not_not_intro hs), h]
  rfl

theorem Writer.field_of_begun {w : Writer} (hs : w.status = .success) {g : Grants}
    (hroot : Begun false w (w.ensureDocument g).2) (h : (w.ensureDocument g).1 = true)
    (key : Option (List UInt8)) (escapeKey : Bool) :
    w.field g key escapeKey = (w.ensureDocument g).2.field g key escapeKey := by
  rw [Writer.field, if_neg (not_not_intro hs), h, Writer.field,
    if_neg (not_not_intro hroot.status), hroot.ensureDocument]

/-- An adder that ends with its field. -/
theorem Ended.fill {w : Writer} {frames : List Container} (hf : Follows w frames)
    (hs : w.status = .success) (g : Grants) (key : Option (List UInt8)) (escapeKey : Bool)
    (label : Label) :
    Ended w frames (.added (keyNode key escapeKey) label)
      (Writer.fill (w.field g key escapeKey) label) := by
  apply Ended.of_ensured hf hs g fun w => Writer.fill (w.field g key escapeKey) label
  · intro _ hends
    rw [Writer.field_of_refused hs hends]
    rfl
  · intro _ hroot hgoes
    rw [Writer.field_of_begun hs hroot hgoes]
  · intro w₁ doc c path f rest hb hs₁
    exact hb.fill hs₁ g key escapeKey label

/-- An adder that asks for the room of a text first. -/
theorem Ended.withText {w : Writer} {frames : List Container} (hf : Follows w frames)
    (hs : w.status = .success) (g : Grants) (key : Option (List UInt8)) (escapeKey : Bool)
    (label : Label) :
    Ended w frames (.added (keyNode key escapeKey) label)
      (w.withText g key fun w => Writer.fill (w.field g key escapeKey) label) := by
  apply Ended.of_ensured hf hs g fun w =>
    w.withText g key fun w => Writer.fill (w.field g key escapeKey) label
  · intro _ hends
    rw [Writer.withText, hends]
    rfl
  · intro _ hroot hgoes
    rw [Writer.withText, hgoes, Writer.withText, hroot.ensureDocument]
  · intro w₁ doc c path f rest hb hs₁
    show Ended _ _ _ (Writer.withText g key _ w₁)
    rw [Writer.withText, hb.ensureDocument]
    cases g.text with
    | false =>
        show Ended _ _ _ (w₁.recordError .errorOutOfMemory (some (fieldName key)))
        exact .refused (Writer.recordError_refused hs₁ (by decide) _)
    | true => exact hb.fill hs₁ g key escapeKey label

/-- Every adder adds its value, or is refused. -/
theorem Added.ended {w : Writer} {frames : List Container} (hf : Follows w frames)
    (hs : w.status = .success) (g : Grants) (key : Option (List UInt8)) (escapeKey : Bool)
    (added : Added) :
    Ended w frames (.added (keyNode key escapeKey) added.label) (added.run g key escapeKey w) := by
  -- hex and base64 are alike: nothing for no data, a bound, and a text of the document
  have hblock : ∀ (maxBytes : Nat) (encode : List UInt8 → List UInt8) (data : Option (List UInt8)),
      encode [] = [] →
      Ended w frames (.added (keyNode key escapeKey) (Writer.rawText (encode (data.getD []))))
        (w.addBlock g key escapeKey maxBytes encode data) := by
    intro maxBytes encode data hempty
    rw [Writer.addBlock, if_neg (not_not_intro hs)]
    split
    · rename_i hnone
      rw [List.isEmpty_iff.mp hnone, hempty]
      exact Ended.fill hf hs g key escapeKey _
    · split
      · exact .refused (Writer.recordError_refused hs (by decide) _)
      · exact Ended.withText hf hs g key escapeKey _
  cases added with
  | null => exact Ended.fill hf hs g key escapeKey _
  | bool value => exact Ended.fill hf hs g key escapeKey _
  | int64 value => exact Ended.fill hf hs g key escapeKey _
  | uint64 value => exact Ended.fill hf hs g key escapeKey _
  | double bits => exact Ended.fill hf hs g key escapeKey _
  | string value => exact Ended.fill hf hs g key escapeKey _
  | hex data => exact hblock jsonHexMaxBytes Hex.encodeText data rfl
  | base64 data => exact hblock jsonBase64MaxBytes Base64.encodeText data rfl
  | stringFlags value flags =>
      show Ended _ _ _ (w.addStringFlags g key escapeKey value flags)
      rw [Writer.addStringFlags, if_neg (not_not_intro hs)]
      split
      · exact Ended.withText hf hs g key escapeKey _
      · exact Ended.fill hf hs g key escapeKey _
  | uuid value =>
      show Ended _ _ _ (w.addUuid g key escapeKey value)
      rw [Writer.addUuid.eq_def, if_neg (not_not_intro hs)]
      cases value with
      | none => exact Ended.fill hf hs g key escapeKey _
      | some uuid => exact Ended.withText hf hs g key escapeKey _

/-- An open opens its container, or is refused; at the bound on the depth it always is. -/
theorem Ended.openContainer {w : Writer} {frames : List Container} (hf : Follows w frames)
    (hs : w.status = .success) (g : Grants) (key : Option (List UInt8)) (escapeKey isArray : Bool) :
    Ended w frames (.opened (keyNode key escapeKey) isArray)
      (w.openContainer g key escapeKey isArray) := by
  -- without a document no container is open, so the bound is not reached
  have hshallow : w.doc = none → ¬ writerMaxDepth ≤ w.depth := by
    intro hdoc
    rw [(hf.depth_of_none hdoc).1]
    decide
  apply Ended.of_ensured hf hs g fun w => w.openContainer g key escapeKey isArray
  · intro hdoc hends
    rw [Writer.openContainer, if_neg (not_not_intro hs), if_neg (hshallow hdoc),
      Writer.field_of_refused hs hends]
    rfl
  · intro hdoc hroot hgoes
    have hshallow' : ¬ writerMaxDepth ≤ (w.ensureDocument g).2.depth := by
      rw [hroot.depth]
      decide
    rw [Writer.openContainer, if_neg (not_not_intro hs), if_neg (hshallow hdoc),
      Writer.field_of_begun hs hroot hgoes, Writer.openContainer,
      if_neg (not_not_intro hroot.status), if_neg hshallow']
  · intro w₁ doc c path f rest hb hs₁
    show Ended _ _ _ (w₁.openContainer g key escapeKey isArray)
    rw [Writer.openContainer, if_neg (not_not_intro hs₁)]
    by_cases hdeep : writerMaxDepth ≤ w₁.depth
    · rw [if_pos hdeep]
      exact .refused (Writer.recordError_refused hs₁ (by decide) _)
    · rw [if_neg hdeep]
      rcases hb.field hs₁ g key escapeKey with ⟨hnode, hrefused⟩ | hfield
      · rw [Writer.enter, hnode]
        exact .refused hrefused
      · rw [hfield, hb.append]
        show Ended _ _ _ (((w₁.grown doc c _ .unset).setNode doc.values.length _).push _)
        rw [Writer.setNode_grown]
        refine .done hs₁ rfl ?_
        rw [hb.start_eq]
        exact hb.opened (Nat.lt_of_not_le hdeep) _ _

theorem Writer.close_doc (w : Writer) : w.close.doc = w.doc := by
  unfold Writer.close
  split
  · rfl
  · split
    · exact (w.recordError_same _ _).doc
    · rfl

/-- A close leaves the innermost container, or is refused; at the root it always is. -/
theorem Ended.close {w : Writer} {frames : List Container} (hf : Follows w frames)
    (hs : w.status = .success) : Ended w frames .closed w.close := by
  rw [Writer.close, if_neg (not_not_intro hs)]
  by_cases hroot : w.depth ≤ 1
  · rw [if_pos hroot]
    exact .refused (Writer.recordError_refused hs (by decide) _)
  · rw [if_neg hroot]
    rcases hf with ⟨_, hdepth, _⟩ | ⟨doc, c, path, f, rest, rfl, hb⟩
    · omega
    · have hdepth := hb.depth
      have hlen := hb.stands.length_eq
      cases path with
      | nil => exact absurd (show w.depth ≤ 1 by rw [hdepth]; exact Nat.le_refl 1) hroot
      | cons d path =>
          cases rest with
          | nil => cases hlen
          | cons f' rest =>
              refine .done hs hb.isSome ?_
              rw [hb.start_eq]
              exact hb.closed

/-! ## Steps and runs -/

/-- An add, an open or a close. -/
theorem WriterCall.ended {w : Writer} {frames : List Container} (hf : Follows w frames)
    (hs : w.status = .success) (g : Grants) {c : WriterCall} {edit : Edit}
    (hc : c.edit = some edit) : Ended w frames edit (c.run g w) := by
  cases c with
  | add key escapeKey added =>
      obtain rfl := Option.some.inj hc
      exact added.ended hf hs g key escapeKey
  | openObject key escapeKey =>
      obtain rfl := Option.some.inj hc
      exact Ended.openContainer hf hs g key escapeKey false
  | openArray key escapeKey =>
      obtain rfl := Option.some.inj hc
      exact Ended.openContainer hf hs g key escapeKey true
  | close =>
      obtain rfl := Option.some.inj hc
      exact Ended.close hf hs
  | beginObject => cases hc
  | beginArray => cases hc
  | clearError => cases hc
  | release => cases hc

/-- Behind an error no add, open or close does anything. -/
theorem WriterCall.run_of_error {w : Writer} (hs : w.status ≠ .success) (g : Grants)
    {c : WriterCall} {edit : Edit} (hc : c.edit = some edit) : c.run g w = w := by
  have hfill : ∀ (key : Option (List UInt8)) (escapeKey : Bool) (label : Label),
      Writer.fill (w.field g key escapeKey) label = w := by
    intro key escapeKey label
    rw [Writer.field, if_pos hs]
    rfl
  cases c with
  | add key escapeKey added =>
      cases added with
      | null => exact hfill key escapeKey _
      | bool value => exact hfill key escapeKey _
      | int64 value => exact hfill key escapeKey _
      | uint64 value => exact hfill key escapeKey _
      | double bits => exact hfill key escapeKey _
      | string value => exact hfill key escapeKey _
      | stringFlags value flags => exact if_pos hs
      | hex data => exact if_pos hs
      | base64 data => exact if_pos hs
      | uuid value => exact if_pos hs
  | openObject key escapeKey => exact if_pos hs
  | openArray key escapeKey => exact if_pos hs
  | close => exact if_pos hs
  | beginObject => cases hc
  | beginArray => cases hc
  | clearError => cases hc
  | release => cases hc

theorem implicitRoot_of_doc_eq {w w' : Writer} (h : w'.doc = w.doc) : implicitRoot w w' = [] := by
  rw [implicitRoot, h]
  cases w.doc <;> rfl

theorem made_of_refused {w w' : Writer} (h : w'.status ≠ .success) (edit : Option Edit) :
    made w w' edit = [] :=
  if_neg fun hboth => h hboth.2

/-- An add, an open or a close leads where its edits lead. -/
theorem Ended.follows {w w' : Writer} {frames : List Container} {edit : Edit}
    (h : Ended w frames edit w') (hf : Follows w frames) (hs : w.status = .success) :
    Follows w' ((implicitRoot w w' ++ made w w' (some edit)).foldl Edit.apply frames) := by
  cases h with
  | refused h =>
      rw [implicitRoot_of_doc_eq h.2.doc, made_of_refused h.1]
      exact hf.same h.2
  | rooted hdoc hstatus hdoc' hdepth hfollows =>
      rw [made_of_refused hstatus, implicitRoot, hdoc, hdoc']
      exact hfollows
  | done hstatus hsome hfollows =>
      have hstart : (implicitRoot w w').foldl Edit.apply frames = start w frames := by
        rw [implicitRoot, hsome, Bool.and_true, start]
        split <;> rfl
      rw [made, if_pos ⟨hs, hstatus⟩, List.foldl_append, hstart]
      exact hfollows

/-- A begin leads to its root, or lets the document go. -/
theorem Writer.beginDocument_follows {w : Writer} {frames : List Container} (hf : Follows w frames)
    (g : Grants) (isArray : Bool) :
    Follows (w.beginDocument g isArray).2
      ((begun (w.beginDocument g isArray).2 isArray ++
        lost (w.beginDocument g isArray).2 .beginObject).foldl Edit.apply frames) := by
  rcases w.beginDocument_cases g isArray with ⟨_, hbegun⟩ | ⟨_, hnone⟩
  · rw [begun, lost, if_pos hbegun.status, if_pos hbegun.status]
    exact hbegun.follows hf.stackLength
  · have hs : (w.beginDocument g isArray).2.status ≠ .success := by
      rw [hnone.status]
      decide
    rw [begun, lost, if_neg hs, if_neg hs]
    exact hnone.follows hf.stackLength

theorem Writer.release_follows {w : Writer} {frames : List Container} (hf : Follows w frames)
    (kept : Bool) : Follows (w.release kept).2 [] := by
  rw [Writer.release, Writer.disposeDocument_doc]
  exact Or.inl ⟨rfl, rfl, hf.stackLength, rfl⟩

/-- A call leads where its edits lead. -/
theorem Follows.run {w : Writer} {frames : List Container} (hf : Follows w frames) (g : Grants)
    (c : WriterCall) : Follows (c.run g w) ((edits w (c.run g w) c).foldl Edit.apply frames) := by
  have hedit : ∀ {edit : Edit}, c.edit = some edit → Follows (c.run g w)
      ((implicitRoot w (c.run g w) ++ made w (c.run g w) (some edit) ++ []).foldl Edit.apply
        frames) := by
    intro edit hc
    rw [List.append_nil]
    by_cases hs : w.status = .success
    · exact (c.ended hf hs g hc).follows hf hs
    · rw [c.run_of_error hs g hc, implicitRoot_of_doc_eq rfl, made_of_refused hs]
      exact hf
  rw [edits]
  cases c with
  | beginObject => exact w.beginDocument_follows hf g false
  | beginArray => exact w.beginDocument_follows hf g true
  | clearError => exact hf.same ⟨rfl, rfl, rfl⟩
  | release => exact w.release_follows hf g.kept
  | add key escapeKey added => exact hedit rfl
  | openObject key escapeKey => exact hedit rfl
  | openArray key escapeKey => exact hedit rfl
  | close => exact hedit rfl

theorem Follows.runAll :
    ∀ {w : Writer} {frames : List Container}, Follows w frames →
      ∀ calls : List (WriterCall × Grants),
        Follows (w.runAll calls) ((collect edits w calls).foldl Edit.apply frames)
  | _, _, hf, [] => hf
  | w, frames, hf, (c, g) :: calls => by
      rw [collect, List.foldl_append]
      exact (hf.run g c).runAll calls

/-! ## Behind an error -/

/-- The calls that take an error back. -/
def WriterCall.clears : WriterCall → Bool
  | .beginObject | .beginArray | .clearError => true
  | _ => false

/-- An error is kept by every call that does not take it back, and only a release touches the
document. -/
structure Sticks (w w' : Writer) (released : Prop) : Prop where
  status : w'.status = w.status
  errorField : w'.errorField = w.errorField
  kept : ¬ released → w'.doc = w.doc ∧ w'.depth = w.depth
  gone : released → w'.doc = none

theorem WriterCall.run_sticks {w : Writer} (hs : w.status ≠ .success) (g : Grants) {c : WriterCall}
    (hc : c.clears = false) : Sticks w (c.run g w) (c = .release) := by
  have hedit : ∀ {edit : Edit}, c.edit = some edit → c ≠ .release →
      Sticks w (c.run g w) (c = .release) := by
    intro edit hedit hne
    rw [c.run_of_error hs g hedit]
    exact ⟨rfl, rfl, fun _ => ⟨rfl, rfl⟩, fun h => absurd h hne⟩
  cases c with
  | beginObject => cases hc
  | beginArray => cases hc
  | clearError => cases hc
  | release =>
      show Sticks w (w.release g.kept).2 _
      rw [Writer.release, Writer.disposeDocument_doc]
      exact ⟨rfl, rfl, fun h => absurd rfl h, fun _ => rfl⟩
  | add key escapeKey added => exact hedit rfl (fun h => nomatch h)
  | openObject key escapeKey => exact hedit rfl (fun h => nomatch h)
  | openArray key escapeKey => exact hedit rfl (fun h => nomatch h)
  | close => exact hedit rfl (fun h => nomatch h)

theorem Sticks.trans {w w₁ w₂ : Writer} {p q : Prop} (h : Sticks w w₁ p) (h' : Sticks w₁ w₂ q) :
    Sticks w w₂ (p ∨ q) := by
  constructor
  · rw [h'.status, h.status]
  · rw [h'.errorField, h.errorField]
  · intro hno
    obtain ⟨hdoc, hdepth⟩ := h.kept fun hp => hno (Or.inl hp)
    obtain ⟨hdoc', hdepth'⟩ := h'.kept fun hq => hno (Or.inr hq)
    exact ⟨hdoc'.trans hdoc, hdepth'.trans hdepth⟩
  · intro hany
    by_cases hq : q
    · exact h'.gone hq
    · rw [(h'.kept hq).1, h.gone (hany.resolve_right hq)]

theorem Writer.runAll_sticks :
    ∀ {w : Writer}, w.status ≠ .success → ∀ calls : List (WriterCall × Grants),
      (∀ c ∈ calls, c.1.clears = false) → Sticks w (w.runAll calls) (∃ c ∈ calls, c.1 = .release)
  | w, hs, [], _ => by
      refine ⟨rfl, rfl, fun _ => ⟨rfl, rfl⟩, ?_⟩
      rintro ⟨c, hc, _⟩
      cases hc
  | w, hs, (c, g) :: calls, hclears => by
      have hstep := c.run_sticks hs g (hclears (c, g) List.mem_cons_self)
      have hrest : Sticks (c.run g w) ((c.run g w).runAll calls) (∃ c ∈ calls, c.1 = .release) := by
        apply Writer.runAll_sticks
        · rwa [hstep.status]
        · exact fun c hc => hclears c (List.mem_cons_of_mem _ hc)
      rw [List.exists_mem_cons_iff]
      exact hstep.trans hrest

/-! ## Runs -/

/-- What a refused add, open or close leaves: the document and the depth as they were; or, when
there was no document, the empty root object that an add or an open begins with. -/
def LeavesDocument (c : WriterCall) (w w' : Writer) : Prop :=
  (w'.doc = w.doc ∧ w'.depth = w.depth) ∨
    (c ≠ .close ∧ w.doc = none ∧ w'.doc = some (rootDocument false) ∧ w'.depth = 1)

theorem WriterCall.leavesDocument {w : Writer} {frames : List Container} (hf : Follows w frames)
    (g : Grants) {c : WriterCall} {edit : Edit} (hc : c.edit = some edit)
    (hrefused : (c.run g w).status ≠ .success) : LeavesDocument c w (c.run g w) := by
  by_cases hs : w.status = .success
  · cases c.ended hf hs g hc with
    | refused h => exact Or.inl ⟨h.2.doc, h.2.depth⟩
    | done hstatus => exact absurd hstatus hrefused
    | rooted hdoc _ hdoc' hdepth _ =>
        refine Or.inr ⟨?_, hdoc, hdoc', hdepth⟩
        rintro rfl
        rw [show WriterCall.run g w .close = w.close from rfl, w.close_doc, hdoc] at hdoc'
        cases hdoc'
  · rw [c.run_of_error hs g hc]
    exact Or.inl ⟨rfl, rfl⟩

/-- The document of every run is the fold of its edits. While there is one, the depth is the number
of its open containers and in its bounds; what is refused leaves it alone; and an error, with the
document it stopped at, stays until a call takes it back. -/
theorem tree_is_fold (calls : List (WriterCall × Grants)) :
    (Writer.init.runAll calls).tree = zip (pathOf (collect edits Writer.init calls)) ∧
      ((Writer.init.runAll calls).doc.isSome →
        (Writer.init.runAll calls).depth = (pathOf (collect edits Writer.init calls)).length ∧
          1 ≤ (Writer.init.runAll calls).depth ∧
          (Writer.init.runAll calls).depth ≤ writerMaxDepth) ∧
      (∀ (c : WriterCall) (g : Grants), c.edit.isSome →
        (c.run g (Writer.init.runAll calls)).status ≠ .success →
          LeavesDocument c (Writer.init.runAll calls) (c.run g (Writer.init.runAll calls))) ∧
      ((Writer.init.runAll calls).status ≠ .success →
        ∀ later : List (WriterCall × Grants), (∀ c ∈ later, c.1.clears = false) →
          Sticks (Writer.init.runAll calls) (Writer.init.runAll (calls ++ later))
            (∃ c ∈ later, c.1 = .release)) := by
  have hf : Follows (Writer.init.runAll calls) (pathOf (collect edits Writer.init calls)) :=
    follows_init.runAll calls
  refine ⟨hf.tree, hf.depth, ?_, ?_⟩
  · intro c g hc hrefused
    obtain ⟨edit, hedit⟩ := Option.isSome_iff_exists.mp hc
    exact c.leavesDocument hf g hedit hrefused
  · intro herror later hclears
    have happend : Writer.init.runAll (calls ++ later) = (Writer.init.runAll calls).runAll later :=
      List.foldl_append
    rw [happend]
    exact Writer.runAll_sticks herror later hclears

/-- A key is added and a begin is refused. -/
def refusedBegin : List (WriterCall × Grants) :=
  [(.add (some [0x61]) false .null, ⟨true, true, true, true, false⟩),
    (.beginObject, ⟨false, true, true, true, false⟩)]

/-- Behind a begin that was refused there is no document, and not the one the
accepted calls built. -/
theorem refusedBegin_lost :
    ¬ ∀ calls : List (WriterCall × Grants),
      (Writer.init.runAll calls).tree = zip (pathOf (collect accepted Writer.init calls)) := by
  intro hall
  have hnone : (Writer.init.runAll refusedBegin).tree = none := rfl
  have hfold : zip (pathOf (collect accepted Writer.init refusedBegin)) =
      some (.node .obj [(some ⟨[0x61], false⟩, .node .null [])]) := rfl
  have hsame := hall refusedBegin
  rw [hnone, hfold] at hsame
  cases hsame

end Arnm.Json
