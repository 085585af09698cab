import Arnm.Json.WriterFold

set_option autoImplicit false

/-! # What can be written

An outline lists what a container is to hold, and its walk is the calls that write it: an add for a
value, an open, the walk of the inside and a close for a container. The documents of all runs are
those of the outlines that suit their containers and are not too deep (`documents_written`). -/

namespace Arnm.Json

open Forest

/-- What a container is to hold, in order: values, and containers with what they are to hold. -/
inductive Outline where
  | nil
  | value (key : Option (List UInt8)) (escapeKey : Bool) (added : Added) (rest : Outline)
  | container (key : Option (List UInt8)) (escapeKey isArray : Bool) (inner rest : Outline)

def openCall (key : Option (List UInt8)) (escapeKey isArray : Bool) : WriterCall :=
  if isArray then .openArray key escapeKey else .openObject key escapeKey

def beginCall (isArray : Bool) : WriterCall := if isArray then .beginArray else .beginObject

/-- The adder asks for the room of a text before it asks for the field. -/
def Added.copies : Added → Bool
  | .stringFlags value flags => value.isSome && Writer.isStringCopy flags
  | .hex data => !(data.getD []).isEmpty
  | .base64 data => !(data.getD []).isEmpty
  | .uuid value => value.isSome
  | _ => false

/-- A block of bytes has to fit the bound on its text. -/
def Added.Sized : Added → Prop
  | .hex data => (data.getD []).length ≤ jsonHexMaxBytes
  | .base64 data => (data.getD []).length ≤ jsonBase64MaxBytes
  | _ => True

namespace Outline

/-- The calls that write an outline into the innermost container. -/
def walk : Outline → List WriterCall
  | nil => []
  | value key escapeKey added rest => .add key escapeKey added :: rest.walk
  | container key escapeKey isArray inner rest =>
    openCall key escapeKey isArray :: (inner.walk ++ .close :: rest.walk)

/-- The entries a container has when an outline was written into it. -/
def entries : Outline → List (Option Key × Tree Label (Option Key))
  | nil => []
  | value key escapeKey added rest =>
    (keyNode key escapeKey, .node added.label []) :: rest.entries
  | container key escapeKey isArray inner rest =>
    (keyNode key escapeKey, .node (containerLabel isArray) inner.entries) :: rest.entries

/-- How many containers lie inside each other. -/
def depth : Outline → Nat
  | nil => 0
  | value _ _ _ rest => rest.depth
  | container _ _ _ inner rest => max (inner.depth + 1) rest.depth

/-- The members of an object have keys and the elements of an array have none, and no block is too
large. -/
def Suits : Bool → Outline → Prop
  | _, nil => True
  | isArray, value key _ added rest => key.isSome = !isArray ∧ added.Sized ∧ Suits isArray rest
  | isArray, container key _ inside inner rest =>
    key.isSome = !isArray ∧ Suits inside inner ∧ Suits isArray rest

def append : Outline → Outline → Outline
  | nil, later => later
  | value key escapeKey added rest, later => value key escapeKey added (rest.append later)
  | container key escapeKey isArray inner rest, later =>
    container key escapeKey isArray inner (rest.append later)

@[simp] theorem entries_append (o later : Outline) :
    (o.append later).entries = o.entries ++ later.entries := by
  induction o with
  | nil => rfl
  | value key escapeKey added rest ih => simp [append, entries, ih]
  | container key escapeKey isArray inner rest _ ih => simp [append, entries, ih]

@[simp] theorem depth_append (o later : Outline) :
    (o.append later).depth = max o.depth later.depth := by
  induction o with
  | nil => simp [append, depth]
  | value key escapeKey added rest ih => simp [append, depth, ih]
  | container key escapeKey isArray inner rest _ ih => simp [append, depth, ih, Nat.max_assoc]

@[simp] theorem suits_append (isArray : Bool) (o later : Outline) :
    (o.append later).Suits isArray ↔ o.Suits isArray ∧ later.Suits isArray := by
  induction o with
  | nil => simp [append, Suits]
  | value key escapeKey added rest ih => simp [append, Suits, ih, and_assoc]
  | container key escapeKey inside inner rest _ ih => simp [append, Suits, ih, and_assoc]

/-- No call of a walk takes an error back. -/
theorem walk_clears (o : Outline) : ∀ c ∈ o.walk, c.clears = false := by
  induction o with
  | nil =>
      intro c hc
      cases hc
  | value key escapeKey added rest ih =>
      intro c hc
      rcases List.mem_cons.mp hc with rfl | hrest
      · rfl
      · exact ih c hrest
  | container key escapeKey isArray inner rest ihi ihr =>
      intro c hc
      rcases List.mem_cons.mp hc with rfl | hc
      · cases isArray <;> rfl
      · rcases List.mem_append.mp hc with hinner | hc
        · exact ihi c hinner
        · rcases List.mem_cons.mp hc with rfl | hrest
          · rfl
          · exact ihr c hrest

end Outline

/-! ## When a call is accepted -/

/-- A field may go into a container: the one has a key where the other asks for it. -/
def Container.takes (f : Container) (key : Option (List UInt8)) : Bool :=
  decide (f.label = .obj) == key.isSome

/-- A writer takes a field into a container: a document stands or was begun for it, the container
takes the key, and there is a node. -/
def Admits (w : Writer) (g : Grants) (f : Container) (key : Option (List UInt8)) : Prop :=
  (w.ensureDocument g).1 = true ∧ f.takes key = true ∧ g.node = true

/-- No setter touches the status. -/
@[simp] theorem Writer.setNode_status (w : Writer) (node : Nat) (label : Label) :
    (w.setNode node label).status = w.status := by
  unfold Writer.setNode
  cases w.doc <;> rfl

@[simp] theorem Writer.fill_status (r : Writer × Option Nat) (label : Label) :
    (Writer.fill r label).status = r.1.status := by
  unfold Writer.fill
  cases r.2 <;> simp

@[simp] theorem Writer.enter_status (r : Writer × Option Nat) (isArray : Bool) :
    (Writer.enter r isArray).status = r.1.status := by
  unfold Writer.enter
  cases r.2 <;> simp [Writer.push]

section Built

variable {w : Writer} {doc : Document} {c : Nat} {path : List Nat} {f : Container}
  {frames : List Container}

theorem Builds.isObj (h : Builds w doc c path f frames) : w.isObj c = decide (f.label = .obj) := by
  obtain ⟨⟨es, _, hnode, _⟩, _⟩ := h.stands
  rw [Writer.isObj, h.doc_eq]
  show (doc.values[c]?.map _).getD false = _
  rw [hnode]
  rfl

/-- What `field` does while a document stands. -/
theorem Builds.field_eq (h : Builds w doc c path f frames) (hs : w.status = .success) (g : Grants)
    (key : Option (List UInt8)) (escapeKey : Bool) :
    w.field g key escapeKey =
      if f.takes key then
        if g.node then w.append c (keyNode key escapeKey)
        else (w.recordError .errorOutOfMemory (some (fieldName key)), none)
      else
        (w.recordError .errorInvalidParam
          (some (if key.isSome then messageKeyOnArray else messageMissingKeyObject)), none) := by
  have hdepth : w.depth ≠ 0 := by
    rw [h.depth]
    exact Nat.succ_ne_zero _
  unfold Writer.field Container.takes
  rw [if_neg (not_not_intro hs), h.ensureDocument]
  show (ite (w.depth = 0) _ _ : Writer × Option Nat) = _
  rw [if_neg hdepth, h.innermost, h.isObj]
  -- an object asks for a key and an array for none; only then is a node asked for
  cases decide (f.label = .obj) <;> cases key <;> cases hnode : g.node <;>
    simp [Writer.fieldObj, Writer.fieldArray, fieldName, keyNode, hnode]

theorem Builds.field_status (h : Builds w doc c path f frames) (hs : w.status = .success)
    (g : Grants)
    (key : Option (List UInt8)) (escapeKey : Bool) :
    (w.field g key escapeKey).1.status = .success ↔ f.takes key = true ∧ g.node = true := by
  rw [h.field_eq hs, h.append]
  cases f.takes key <;> cases g.node <;> simp [Writer.recordError_status hs, Writer.grown, hs]

end Built

section Accepted

variable {w : Writer} {frames rest : List Container} {f : Container}

/-- Where a path has an innermost container a document is built there. -/
theorem Follows.builds (hf : Follows w (f :: rest)) : ∃ doc c path, Builds w doc c path f rest := by
  rcases hf with ⟨_, _, _, hnil⟩ | ⟨doc, c, path, f', rest', hframes, hb⟩
  · cases hnil
  · cases hframes
    exact ⟨doc, c, path, hb⟩

/-- A document stands, or the path is that of the root object which is about to be begun. -/
theorem Follows.cases_start (hf : Follows w frames) (hstart : start w frames = f :: rest) :
    (∃ doc c path, Builds w doc c path f rest) ∨
      (w.doc = none ∧ f :: rest = rootPath false ∧ w.stack.length = writerMaxDepth) := by
  rcases hf with ⟨hdoc, _, hstack, _⟩ | ⟨doc, c, path, f', rest', rfl, hb⟩
  · refine Or.inr ⟨hdoc, ?_, hstack⟩
    rw [← hstart, start, hdoc]
    rfl
  · rw [hb.start_eq] at hstart
    cases hstart
    exact Or.inl ⟨doc, c, path, hb⟩

theorem Begun.builds {w' : Writer} (h : Begun false w w') (hstack : w.stack.length = writerMaxDepth)
    (hroot : f :: rest = rootPath false) : ∃ doc c path, Builds w' doc c path f rest := by
  have hf := h.follows hstack
  rw [← hroot] at hf
  exact hf.builds

theorem Follows.field_status (hf : Follows w frames) (hs : w.status = .success)
    (hstart : start w frames = f :: rest) (g : Grants) (key : Option (List UInt8))
    (escapeKey : Bool) :
    (w.field g key escapeKey).1.status = .success ↔ Admits w g f key := by
  rcases hf.cases_start hstart with ⟨doc, c, path, hb⟩ | ⟨hdoc, hroot, hstack⟩
  · rw [hb.field_status hs, Admits, hb.ensureDocument]
    simp
  · rcases w.ensureDocument_cases hdoc g with ⟨hgoes, hbegun⟩ | ⟨hends, hnone⟩
    · obtain ⟨doc, c, path, hb⟩ := hbegun.builds hstack hroot
      rw [Writer.field_of_begun hs hbegun hgoes, hb.field_status hbegun.status, Admits]
      simp [hgoes]
    · rw [Writer.field_of_refused hs hends, hnone.status, Admits]
      simp [hends]

theorem Follows.withText_status (hf : Follows w frames) (hs : w.status = .success)
    (hstart : start w frames = f :: rest) (g : Grants) (key : Option (List UInt8))
    (escapeKey : Bool) (label : Label) :
    (w.withText g key fun w => Writer.fill (w.field g key escapeKey) label).status = .success ↔
      Admits w g f key ∧ g.text = true := by
  rcases hf.cases_start hstart with ⟨doc, c, path, hb⟩ | ⟨hdoc, hroot, hstack⟩
  · rw [Writer.withText, Admits, hb.ensureDocument]
    cases g.text <;> simp [Writer.recordError_status hs, hb.field_status hs]
  · rcases w.ensureDocument_cases hdoc g with ⟨hgoes, hbegun⟩ | ⟨hends, hnone⟩
    · obtain ⟨doc, c, path, hb⟩ := hbegun.builds hstack hroot
      rw [Writer.withText, Admits, hgoes]
      cases g.text <;>
        simp [Writer.recordError_status hbegun.status, hb.field_status hbegun.status]
    · rw [Writer.withText, Admits, hends]
      simp [hnone.status]

/-- An adder adds its value where a field is taken, if a block is not too large and there is room
for a text. -/
theorem Follows.add_status (hf : Follows w frames) (hs : w.status = .success)
    (hstart : start w frames = f :: rest) (g : Grants) (key : Option (List UInt8))
    (escapeKey : Bool)
    (added : Added) :
    (added.run g key escapeKey w).status = .success ↔
      Admits w g f key ∧ added.Sized ∧ (added.copies = true → g.text = true) := by
  have hfield := hf.field_status hs hstart g key escapeKey
  have htext := hf.withText_status hs hstart g key escapeKey
  have hplain : ∀ label : Label, (Writer.fill (w.field g key escapeKey) label).status = .success ↔
      Admits w g f key ∧ True ∧ (false = true → g.text = true) := by
    intro label
    rw [Writer.fill_status, hfield]
    simp
  have hblock : ∀ (maxBytes : Nat) (encode : List UInt8 → List UInt8) (data : Option (List UInt8)),
      (w.addBlock g key escapeKey maxBytes encode data).status = .success ↔
        Admits w g f key ∧ (data.getD []).length ≤ maxBytes ∧
          ((!(data.getD []).isEmpty) = true → g.text = true) := by
    intro maxBytes encode data
    rw [Writer.addBlock, if_neg (not_not_intro hs)]
    cases hempty : (data.getD []).isEmpty with
    | true =>
        rw [if_pos rfl, Writer.fill_status, hfield, List.isEmpty_iff.mp hempty]
        simp
    | false =>
        rw [if_neg Bool.false_ne_true]
        by_cases hlarge : maxBytes < (data.getD []).length
        · rw [if_pos hlarge, Writer.recordError_status hs]
          simp [Nat.not_le.mpr hlarge]
        · rw [if_neg hlarge, htext]
          simp [Nat.not_lt.mp hlarge]
  cases added with
  | null => exact hplain _
  | bool value => exact hplain _
  | int64 value => exact hplain _
  | uint64 value => exact hplain _
  | double bits => exact hplain _
  | string value => exact hplain _
  | hex data => exact hblock jsonHexMaxBytes Hex.encodeText data
  | base64 data => exact hblock jsonBase64MaxBytes Base64.encodeText data
  | stringFlags value flags =>
      show (w.addStringFlags g key escapeKey value flags).status = .success ↔ _ ∧ True ∧
        ((value.isSome && Writer.isStringCopy flags) = true → _)
      rw [Writer.addStringFlags, if_neg (not_not_intro hs)]
      cases value.isSome && Writer.isStringCopy flags with
      | false => exact hplain _
      | true =>
          rw [if_pos rfl, htext]
          simp
  | uuid value =>
      show (w.addUuid g key escapeKey value).status = .success ↔
        _ ∧ True ∧ (value.isSome = true → _)
      rw [Writer.addUuid.eq_def, if_neg (not_not_intro hs)]
      cases value with
      | none => exact hplain _
      | some uuid =>
          dsimp only
          rw [htext]
          simp

/-- An open is accepted where a field is taken, up to the bound on the depth. -/
theorem Follows.open_status (hf : Follows w frames) (hs : w.status = .success)
    (hstart : start w frames = f :: rest) (g : Grants) (key : Option (List UInt8))
    (escapeKey isArray : Bool) :
    ((openCall key escapeKey isArray).run g w).status = .success ↔
      Admits w g f key ∧ w.depth < writerMaxDepth := by
  have hopen :
      (openCall key escapeKey isArray).run g w = w.openContainer g key escapeKey isArray := by
    cases isArray <;> rfl
  rw [hopen, Writer.openContainer, if_neg (not_not_intro hs)]
  by_cases hdeep : writerMaxDepth ≤ w.depth
  · rw [if_pos hdeep, Writer.recordError_status hs]
    simp [Nat.not_lt.mpr hdeep]
  · rw [if_neg hdeep, Writer.enter_status, hf.field_status hs hstart]
    simp [Nat.lt_of_not_le hdeep]

/-- A call that wants a field finds a container: the innermost one, or the root that is begun. -/
theorem Follows.start_eq_cons (hf : Follows w frames) :
    ∃ f rest, start w frames = f :: rest ∧ rest.length ≤ w.depth - 1 := by
  rcases hf with ⟨hdoc, _⟩ | ⟨doc, c, path, f, rest, rfl, hb⟩
  · refine ⟨⟨none, containerLabel false, []⟩, [], ?_, Nat.zero_le _⟩
    rw [start, hdoc]
    rfl
  · have hlen := hb.stands.length_eq
    rw [List.length_cons, List.length_cons] at hlen
    refine ⟨f, rest, hb.start_eq _, ?_⟩
    rw [hb.depth]
    omega

/-- A close is accepted while a container below the root is open. -/
theorem Follows.close_status (hf : Follows w frames) (hs : w.status = .success) :
    w.close.status = .success ↔ 2 ≤ frames.length := by
  have hdepth : w.depth = frames.length := by
    rcases hf with ⟨_, hdepth, _, rfl⟩ | ⟨doc, c, path, f', rest', rfl, hb⟩
    · exact hdepth
    · have hlen := hb.stands.length_eq
      rw [hb.depth, ← List.length_cons (a := c), hlen]
  rw [Writer.close, if_neg (not_not_intro hs), hdepth]
  by_cases hroot : frames.length ≤ 1
  · rw [if_pos hroot, Writer.recordError_status hs]
    simp
    omega
  · rw [if_neg hroot]
    simp [hs]
    omega

/-- An accepted add, open or close makes its edit. -/
theorem Follows.run_edit (hf : Follows w frames) (hs : w.status = .success) {g : Grants}
    {c : WriterCall} {edit : Edit} (hc : c.edit = some edit) (hok : (c.run g w).status = .success) :
    Follows (c.run g w) (edit.apply (start w frames)) := by
  cases c.ended hf hs g hc with
  | refused h => exact absurd hok h.1
  | rooted _ hstatus _ _ _ => exact absurd hok hstatus
  | done _ _ hfollows => exact hfollows

end Accepted

/-! ## A walk writes its outline -/

/-- Every piece is granted. -/
def Grants.Full (g : Grants) : Prop := g.doc = true ∧ g.root = true ∧ g.text = true ∧ g.node = true

theorem Writer.beginCall_full (w : Writer) {g : Grants} (hg : g.Full) (isArray : Bool) :
    Begun isArray w ((beginCall isArray).run g w) := by
  have hrun : (beginCall isArray).run g w = (w.beginDocument g isArray).2 := by
    cases isArray <;> rfl
  obtain ⟨hdoc, hroot, _, _⟩ := hg
  rw [hrun, Writer.beginDocument, Writer.disposeDocument_doc, hdoc, hroot]
  exact ⟨rfl, rfl, rfl, rfl⟩

/-- The calls of a walk, each with what it is granted. -/
def Outline.calls (o : Outline) (g : Grants) : List (WriterCall × Grants) :=
  o.walk.map fun c => (c, g)

theorem Writer.runAll_append (w : Writer) (calls later : List (WriterCall × Grants)) :
    w.runAll (calls ++ later) = (w.runAll calls).runAll later := List.foldl_append

theorem Writer.runAll_cons (w : Writer) (c : WriterCall) (g : Grants)
    (calls : List (WriterCall × Grants)) :
    w.runAll ((c, g) :: calls) = (c.run g w).runAll calls := rfl

/-- Behind an error the calls of walks leave the error. -/
theorem Writer.runAll_of_error {w : Writer} (hs : w.status ≠ .success)
    {calls : List (WriterCall × Grants)} (hclears : ∀ c ∈ calls, c.1.clears = false) :
    (w.runAll calls).status ≠ .success := by
  rw [(Writer.runAll_sticks hs calls hclears).status]
  exact hs

theorem Outline.calls_clear (o : Outline) (g : Grants) : ∀ c ∈ o.calls g, c.1.clears = false := by
  intro c hc
  obtain ⟨call, hcall, rfl⟩ := List.mem_map.mp hc
  exact o.walk_clears call hcall

theorem Outline.calls_container (key : Option (List UInt8)) (escapeKey isArray : Bool)
    (inner rest : Outline) (g : Grants) (w : Writer) :
    w.runAll ((container key escapeKey isArray inner rest).calls g) =
      (WriterCall.close.run g (((openCall key escapeKey isArray).run g w).runAll
        (inner.calls g))).runAll (rest.calls g) := by
  rw [calls, walk, List.map_cons, List.map_append, Writer.runAll_cons, Writer.runAll_append]
  rfl

theorem Writer.close_of_error {w : Writer} (g : Grants) (hs : w.status ≠ .success) :
    (WriterCall.close.run g w).status ≠ .success := by
  have hclose : WriterCall.edit .close = some .closed := rfl
  rw [WriterCall.run_of_error hs g hclose]
  exact hs

theorem takes_containerLabel {f : Container} {isArray : Bool}
    (hlabel : f.label = containerLabel isArray)
    (key : Option (List UInt8)) : f.takes key = true ↔ key.isSome = !isArray := by
  rw [Container.takes, hlabel]
  cases isArray <;> cases key <;> simp [containerLabel]

theorem Follows.start_cons {w : Writer} {f : Container} {frames : List Container}
    (hf : Follows w (f :: frames)) : start w (f :: frames) = f :: frames := by
  obtain ⟨doc, c, path, hb⟩ := hf.builds
  exact hb.start_eq _

theorem Follows.admits {w : Writer} {f : Container} {frames : List Container}
    (hf : Follows w (f :: frames)) {g : Grants} (hg : g.Full) {isArray : Bool}
    (hlabel : f.label = containerLabel isArray) (key : Option (List UInt8)) :
    Admits w g f key ↔ key.isSome = !isArray := by
  obtain ⟨doc, c, path, hb⟩ := hf.builds
  rw [Admits, hb.ensureDocument, hg.2.2.2, takes_containerLabel hlabel]
  simp

theorem Follows.depth_cons {w : Writer} {f : Container} {frames : List Container}
    (hf : Follows w (f :: frames)) : w.depth = frames.length + 1 := by
  obtain ⟨doc, c, path, hb⟩ := hf.builds
  have hlen := hb.stands.length_eq
  rw [List.length_cons, List.length_cons] at hlen
  rw [hb.depth]
  exact hlen

theorem openCall_edit (key : Option (List UInt8)) (escapeKey isArray : Bool) :
    (openCall key escapeKey isArray).edit = some (.opened (keyNode key escapeKey) isArray) := by
  cases isArray <;> rfl

/-- Entries that were added one after the other. -/
theorem Container.add_add (f : Container) (key : Option Key) (t : Tree Label (Option Key))
    (later : List (Option Key × Tree Label (Option Key))) :
    ({ f.add key t with entries := (f.add key t).entries ++ later } : Container) =
      { f with entries := f.entries ++ (key, t) :: later } := by
  simp [Frame.add]

/-- The container `f` is the innermost one and open on a path of so many others; the walk of an
outline that suits it ends without an error, and only the entries are more. -/
theorem Outline.run_calls (o : Outline) {g : Grants} (hg : g.Full) :
    ∀ {w : Writer} {f : Container} {frames : List Container} {isArray : Bool},
      Follows w (f :: frames) → w.status = .success → f.label = containerLabel isArray →
      frames.length + 1 ≤ writerMaxDepth →
      ((w.runAll (o.calls g)).status = .success ↔
        o.Suits isArray ∧ frames.length + 1 + o.depth ≤ writerMaxDepth) ∧
      ((w.runAll (o.calls g)).status = .success →
        Follows (w.runAll (o.calls g))
          ({ f with entries := f.entries ++ o.entries } :: frames)) := by
  induction o with
  | nil =>
      intro w f frames isArray hf hs _ hle
      refine ⟨iff_of_true hs ⟨trivial, hle⟩, ?_⟩
      intro _
      rw [Outline.entries, List.append_nil]
      exact hf
  | value key escapeKey added rest ih =>
      intro w f frames isArray hf hs hlabel hle
      have hstatus := hf.add_status hs hf.start_cons g key escapeKey added
      rw [hf.admits hg hlabel] at hstatus
      have hrun : w.runAll ((Outline.value key escapeKey added rest).calls g) =
          ((WriterCall.add key escapeKey added).run g w).runAll (rest.calls g) := rfl
      rw [hrun]
      by_cases hok : ((WriterCall.add key escapeKey added).run g w).status = .success
      · obtain ⟨hkey, hsized, _⟩ := hstatus.mp hok
        have hadded := hf.run_edit hs (c := .add key escapeKey added) rfl hok
        rw [hf.start_cons] at hadded
        obtain ⟨hiff, hend⟩ := ih hadded hok hlabel hle
        rw [Container.add_add] at hend
        refine ⟨?_, hend⟩
        rw [hiff, Outline.Suits, Outline.depth]
        simp [hkey, hsized]
      · have herror := Writer.runAll_of_error hok (rest.calls_clear g)
        refine ⟨iff_of_false herror ?_, fun hend => absurd hend herror⟩
        rintro ⟨⟨hkey, hsized, _⟩, _⟩
        exact hok (hstatus.mpr ⟨hkey, hsized, fun _ => hg.2.2.1⟩)
  | container key escapeKey inside inner rest ihi ihr =>
      intro w f frames isArray hf hs hlabel hle
      have hopens := hf.open_status hs hf.start_cons g key escapeKey inside
      rw [hf.admits hg hlabel, hf.depth_cons] at hopens
      have hopened := hf.run_edit hs (g := g) (openCall_edit key escapeKey inside)
      rw [hf.start_cons] at hopened
      rw [Outline.calls_container, Outline.Suits, Outline.depth]
      generalize (openCall key escapeKey inside).run g w = w₁ at hopens hopened ⊢
      by_cases hok : w₁.status = .success
      · obtain ⟨hkey, hdeep⟩ := hopens.mp hok
        obtain ⟨hinner, hentries⟩ := ihi (hopened hok) hok rfl hdeep
        rw [List.nil_append] at hentries
        generalize w₁.runAll (inner.calls g) = w₂ at hinner hentries ⊢
        by_cases hin : w₂.status = .success
        · have hopen := hentries hin
          have hclosed : (WriterCall.close.run g w₂).status = .success :=
            (hopen.close_status hin).mpr (Nat.le_add_left 2 _)
          have hadded := hopen.run_edit hin (c := .close) rfl hclosed
          rw [hopen.start_cons] at hadded
          obtain ⟨hrest, hend⟩ := ihr hadded hclosed hlabel hle
          obtain ⟨hsuits, hdepth⟩ := hinner.mp hin
          rw [List.length_cons] at hdepth
          refine ⟨?_, ?_⟩
          · rw [hrest]
            simp only [hkey, hsuits, true_and]
            apply and_congr_right
            intro _
            omega
          · rw [Container.add_add] at hend
            exact hend
        · have herror := Writer.runAll_of_error (Writer.close_of_error g hin) (rest.calls_clear g)
          refine ⟨iff_of_false herror ?_, fun hend => absurd hend herror⟩
          rintro ⟨⟨_, hsuits, _⟩, hdepth⟩
          refine hin (hinner.mpr ⟨hsuits, ?_⟩)
          rw [List.length_cons]
          omega
      · have herror := Writer.runAll_of_error
          (Writer.close_of_error g (Writer.runAll_of_error hok (inner.calls_clear g)))
          (rest.calls_clear g)
        refine ⟨iff_of_false herror ?_, fun hend => absurd hend herror⟩
        rintro ⟨⟨hkey, _, _⟩, hdepth⟩
        refine hok (hopens.mpr ⟨hkey, ?_⟩)
        omega

/-! ## Every document is one of an outline -/

/-- A container on a level holds the entries of an outline that suits it. -/
def Container.Shaped (f : Container) (level : Nat) : Prop :=
  ∃ isArray o, f.label = containerLabel isArray ∧ f.entries = o.entries ∧ Outline.Suits isArray o ∧
    level + o.depth ≤ writerMaxDepth

/-- So do all containers of a path, each with a key the next one takes. -/
def Shaped : List Container → Prop
  | [] => True
  | [f] => f.Shaped 1
  | f :: g :: frames =>
    f.Shaped (frames.length + 2) ∧
      (∃ key escapeKey, f.key = keyNode key escapeKey ∧ g.takes key = true) ∧
      Shaped (g :: frames)

/-- What an edit asks of the path it is made on. -/
def Edit.Allowed : List Container → Edit → Prop
  | f :: _, .added key label =>
    ∃ text escapeKey, ∃ added : Added, key = keyNode text escapeKey ∧ label = added.label ∧
      f.takes text = true ∧ added.Sized
  | f :: frames, .opened key _ =>
    (∃ text escapeKey, key = keyNode text escapeKey ∧ f.takes text = true) ∧
      frames.length + 1 < writerMaxDepth
  | _, _ => True

theorem shaped_root (isArray : Bool) : Shaped (rootPath isArray) :=
  ⟨isArray, .nil, rfl, rfl, trivial, by decide⟩

/-- The innermost container of a path. -/
theorem Shaped.head {f : Container} {frames : List Container} (h : Shaped (f :: frames)) :
    f.Shaped (frames.length + 1) := by
  cases frames with
  | nil => exact h
  | cons g frames => exact h.1

/-- More entries in the innermost container. -/
theorem Shaped.extend {f : Container} {frames : List Container} (h : Shaped (f :: frames))
    {o : Outline} (hsuits : ∀ isArray, f.label = containerLabel isArray → o.Suits isArray)
    (hdepth : frames.length + 1 + o.depth ≤ writerMaxDepth) :
    Shaped ({ f with entries := f.entries ++ o.entries } :: frames) := by
  obtain ⟨isArray, before, hlabel, hentries, hbefore, hlevel⟩ := h.head
  have hhead :
      Container.Shaped { f with entries := f.entries ++ o.entries } (frames.length + 1) := by
    refine ⟨isArray, before.append o, hlabel, ?_, ?_, ?_⟩
    · rw [Outline.entries_append, ← hentries]
    · exact (Outline.suits_append isArray before o).mpr ⟨hbefore, hsuits isArray hlabel⟩
    · rw [Outline.depth_append]
      omega
  cases frames with
  | nil => exact hhead
  | cons g frames => exact ⟨hhead, h.2⟩

theorem Shaped.add {f : Container} {frames : List Container} (h : Shaped (f :: frames))
    {key : Option (List UInt8)} (escapeKey : Bool) {added : Added} (hkey : f.takes key = true)
    (hsized : added.Sized) :
    Shaped (f.add (keyNode key escapeKey) (.node added.label []) :: frames) := by
  apply h.extend (o := .value key escapeKey added .nil)
  · intro isArray hlabel
    exact ⟨(takes_containerLabel hlabel key).mp hkey, hsized, trivial⟩
  · obtain ⟨_, _, _, _, _, hlevel⟩ := h.head
    rw [Outline.depth, Outline.depth]
    omega

/-- The innermost container is closed. -/
theorem Shaped.close {g f : Container} {frames : List Container} (h : Shaped (g :: f :: frames)) :
    Shaped (f.add g.key g.tree :: frames) := by
  obtain ⟨⟨isArray, o, hlabel, hentries, hsuits, hlevel⟩, ⟨key, escapeKey, hkey, htakes⟩, hrest⟩ :=
    h
  have hclosed := hrest.extend (o := .container key escapeKey isArray o .nil) ?_ ?_
  · rw [Frame.add, hkey, Frame.tree, hlabel, hentries]
    exact hclosed
  · intro inside hinside
    exact ⟨(takes_containerLabel hinside key).mp htakes, hsuits, trivial⟩
  · rw [Outline.depth, Outline.depth]
    omega

/-- The tree of a path. -/
theorem Shaped.zipFrom : ∀ {frames : List Container} {f : Container}, Shaped (f :: frames) →
    ∃ isArray o, Outline.Suits isArray o ∧ o.depth < writerMaxDepth ∧
      zipFrom f frames = .node (containerLabel isArray) o.entries
  | [], f, h => by
      obtain ⟨isArray, o, hlabel, hentries, hsuits, hlevel⟩ := h
      refine ⟨isArray, o, hsuits, by omega, ?_⟩
      rw [Forest.zipFrom, Frame.tree, hlabel, hentries]
  | g :: frames, f, h => h.close.zipFrom

theorem Shaped.apply {frames : List Container} (h : Shaped frames) {edit : Edit}
    (hallowed : edit.Allowed frames) : Shaped (edit.apply frames) := by
  cases edit with
  | began isArray => exact shaped_root isArray
  | added key label =>
      cases frames with
      | nil => trivial
      | cons f frames =>
          obtain ⟨text, escapeKey, added, rfl, rfl, htakes, hsized⟩ := hallowed
          exact h.add escapeKey htakes hsized
  | opened key isArray =>
      cases frames with
      | nil => trivial
      | cons f frames =>
          obtain ⟨⟨text, escapeKey, rfl, htakes⟩, hdeep⟩ := hallowed
          refine ⟨⟨isArray, .nil, rfl, rfl, trivial, ?_⟩, ⟨text, escapeKey, rfl, htakes⟩, h⟩
          rw [Outline.depth]
          omega
  | closed =>
      cases frames with
      | nil => trivial
      | cons g frames =>
          cases frames with
          | nil => exact h
          | cons f frames => exact h.close
  | dropped => trivial

/-- What was accepted was allowed. -/
theorem WriterCall.allowed {w : Writer} {frames : List Container} (hf : Follows w frames)
    (hs : w.status = .success) {g : Grants} {c : WriterCall} {edit : Edit} (hc : c.edit = some edit)
    (hok : (c.run g w).status = .success) : edit.Allowed (start w frames) := by
  obtain ⟨f, rest, hstart, hdepth⟩ := hf.start_eq_cons
  rw [hstart]
  have hopened : ∀ (key : Option (List UInt8)) (escapeKey isArray : Bool),
      ((openCall key escapeKey isArray).run g w).status = .success →
        (Edit.opened (keyNode key escapeKey) isArray).Allowed (f :: rest) := by
    intro key escapeKey isArray hopen
    obtain ⟨hadmits, hdeep⟩ := (hf.open_status hs hstart g key escapeKey isArray).mp hopen
    have hmax : writerMaxDepth = 16 := rfl
    exact ⟨⟨key, escapeKey, rfl, hadmits.2.1⟩, by omega⟩
  cases c with
  | add key escapeKey added =>
      obtain rfl := Option.some.inj hc
      obtain ⟨hadmits, hsized, _⟩ := (hf.add_status hs hstart g key escapeKey added).mp hok
      exact ⟨key, escapeKey, added, rfl, rfl, hadmits.2.1, hsized⟩
  | openObject key escapeKey =>
      obtain rfl := Option.some.inj hc
      exact hopened key escapeKey false hok
  | openArray key escapeKey =>
      obtain rfl := Option.some.inj hc
      exact hopened key escapeKey true hok
  | close =>
      obtain rfl := Option.some.inj hc
      trivial
  | beginObject => cases hc
  | beginArray => cases hc
  | clearError => cases hc
  | release => cases hc

/-- The path of a writer and what it holds after any calls. -/
theorem Follows.run_shaped {w : Writer} {frames : List Container} (hf : Follows w frames)
    (hshaped : Shaped frames) (g : Grants) (c : WriterCall) :
    ∃ frames', Follows (c.run g w) frames' ∧ Shaped frames' := by
  have hbegin : ∀ isArray : Bool,
      ∃ frames', Follows (w.beginDocument g isArray).2 frames' ∧ Shaped frames' := by
    intro isArray
    rcases w.beginDocument_cases g isArray with ⟨_, hbegun⟩ | ⟨_, hnone⟩
    · exact ⟨_, hbegun.follows hf.stackLength, shaped_root isArray⟩
    · exact ⟨[], hnone.follows hf.stackLength, trivial⟩
  have hedit : ∀ edit : Edit, c.edit = some edit →
      ∃ frames', Follows (c.run g w) frames' ∧ Shaped frames' := by
    intro edit hc
    by_cases hs : w.status = .success
    · cases c.ended hf hs g hc with
      | refused h => exact ⟨frames, hf.same h.2, hshaped⟩
      | rooted _ _ _ _ hfollows => exact ⟨_, hfollows, shaped_root false⟩
      | done hok _ hfollows =>
          refine ⟨_, hfollows, Shaped.apply ?_ (WriterCall.allowed hf hs hc hok)⟩
          unfold start
          split
          · exact shaped_root false
          · exact hshaped
    · rw [c.run_of_error hs g hc]
      exact ⟨frames, hf, hshaped⟩
  cases c with
  | beginObject => exact hbegin false
  | beginArray => exact hbegin true
  | clearError => exact ⟨frames, hf.same ⟨rfl, rfl, rfl⟩, hshaped⟩
  | release => exact ⟨[], w.release_follows hf g.kept, trivial⟩
  | add key escapeKey added => exact hedit _ rfl
  | openObject key escapeKey => exact hedit _ rfl
  | openArray key escapeKey => exact hedit _ rfl
  | close => exact hedit _ rfl

theorem Follows.runAll_shaped : ∀ (calls : List (WriterCall × Grants)) {w : Writer}
    {frames : List Container}, Follows w frames → Shaped frames →
      ∃ frames', Follows (w.runAll calls) frames' ∧ Shaped frames'
  | [], _, frames, hf, hshaped => ⟨frames, hf, hshaped⟩
  | (c, g) :: calls, _, _, hf, hshaped => by
      obtain ⟨frames', hf', hshaped'⟩ := hf.run_shaped hshaped g c
      exact hf'.runAll_shaped calls hshaped'

/-- Behind any calls a begin and the walk of an outline write the outline, or end with an error. -/
theorem Outline.written (o : Outline) (isArray : Bool) {g : Grants} (hg : g.Full)
    (before : List (WriterCall × Grants)) :
    ((Writer.init.runAll (before ++ (beginCall isArray, g) :: o.calls g)).status = .success ↔
      o.Suits isArray ∧ o.depth < writerMaxDepth) ∧
      ((Writer.init.runAll (before ++ (beginCall isArray, g) :: o.calls g)).status = .success →
        Follows (Writer.init.runAll (before ++ (beginCall isArray, g) :: o.calls g))
          [⟨none, containerLabel isArray, o.entries⟩]) := by
  have hf := follows_init.runAll before
  have hbegun := Writer.beginCall_full (Writer.init.runAll before) hg isArray
  rw [Writer.runAll_append, Writer.runAll_cons]
  obtain ⟨hstatus, hend⟩ := o.run_calls hg (hbegun.follows hf.stackLength) hbegun.status rfl
    (by decide)
  refine ⟨?_, hend⟩
  rw [hstatus, List.length_nil]
  apply and_congr_right
  intro _
  omega

/-- Behind any calls a begin and the walk of an outline leave no error exactly when the outline
suits its root and is not too deep, and then the document is the outline; and there is no other
document: whatever was called and granted, the tree that stands is that of such an outline. -/
theorem documents_written (before : List (WriterCall × Grants)) :
    (∀ (isArray : Bool) (o : Outline) (g : Grants), g.Full →
      let w := Writer.init.runAll (before ++ (beginCall isArray, g) :: o.calls g)
      (w.status = .success ↔ o.Suits isArray ∧ o.depth < writerMaxDepth) ∧
        (w.status = .success →
          w.tree = some (.node (containerLabel isArray) o.entries) ∧ w.depth = 1)) ∧
      ∀ t, (Writer.init.runAll before).tree = some t →
        ∃ isArray o, Outline.Suits isArray o ∧ o.depth < writerMaxDepth ∧
          t = .node (containerLabel isArray) o.entries := by
  constructor
  · intro isArray o g hg w
    obtain ⟨hstatus, hend⟩ := o.written isArray hg before
    exact ⟨hstatus, fun hok => ⟨(hend hok).tree, (hend hok).depth_cons⟩⟩
  · intro t ht
    obtain ⟨frames, hf, hshaped⟩ := follows_init.runAll_shaped before trivial
    rw [hf.tree] at ht
    cases frames with
    | nil => cases ht
    | cons f frames =>
        obtain ⟨isArray, o, hsuits, hdepth, hzip⟩ := hshaped.zipFrom
        refine ⟨isArray, o, hsuits, hdepth, ?_⟩
        rw [← hzip]
        exact (Option.some.inj ht).symm

/-- An array of one number as a member. -/
def sampleOutline : Outline :=
  .container (some [0x61]) false true (.value none false (.uint64 7) .nil) .nil

theorem documents_written_sample :
    (Writer.init.runAll ((beginCall false, ⟨true, true, true, true, false⟩) ::
      sampleOutline.calls ⟨true, true, true, true, false⟩)).tree =
        some (.node .obj [(some ⟨[0x61], false⟩, .node .arr [(none, .node (.uint 7) [])])]) := by
  obtain ⟨hstatus, hend⟩ := (documents_written []).1 false sampleOutline
    ⟨true, true, true, true, false⟩ ⟨rfl, rfl, rfl, rfl⟩
  exact (hend (hstatus.mpr ⟨⟨rfl, ⟨rfl, trivial, trivial⟩, trivial⟩, by decide⟩)).1

end Arnm.Json
