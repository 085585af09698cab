import Arnm.Json.HookRuns

set_option autoImplicit false

/-! # The JSON reader

A reader holds at most one document, which the JSON library builds and lets go through the headered
hooks, and the message and position of the last refusal. The library is a parameter: what it calls
while it reads is any sequence of calls of the hooks, and it either leaves a document that has all
the blocks it was lent, or an error and none. -/

namespace Arnm.Json

open Memory

/-! ## What the library does -/

/-- A call of a hook, or a write into a block the library was lent. -/
inductive HookCall where
  | alloc (host : Host) (size : Nat)
  | realloc (host : Host) (l : Lent) (size : Nat)
  | dispose (l : Lent)
  | write (l : Lent) (offset : Nat) (values : List UInt8)

def HookState.hook (s : HookState) : HookCall → HookState
  | .alloc host size => s.blockAlloc host size
  | .realloc host l size => s.blockRealloc host l size
  | .dispose l => s.blockDispose l
  | .write l offset values => s.blockWrite l offset values

/-- The block is one that is lent, and the resize is no growth of a buried block within its
bytes. -/
def HookCall.Proper (s : HookState) : HookCall → Prop
  | .alloc host _ => Fresh host s.heap.memory.arenas
  | .realloc host l size =>
    Fresh host s.heap.memory.arenas ∧ l ∈ s.lent ∧ Recordable s.heap l.block (size + headerSize)
  | .dispose l => l ∈ s.lent
  | .write l offset values => l ∈ s.lent ∧ offset + values.length ≤ l.payload.length

/-- Every call is proper when it is made. -/
def ProperCalls : HookState → List HookCall → Prop
  | _, [] => True
  | s, call :: calls => call.Proper s ∧ ProperCalls (s.hook call) calls

/-- `yyjson_doc`: its root, and the two numbers the reader asks for. -/
structure ReadDocument where
  root : Nat
  valueCount : Nat
  readSize : Nat
  deriving DecidableEq, Repr

/-- The codes the reader tells apart. -/
inductive ReadCode where
  | memoryAllocation
  | invalidParameter
  | other
  deriving DecidableEq, Repr

/-- `yyjson_read_err` -/
structure ReadError where
  code : ReadCode
  message : String
  position : Nat
  deriving DecidableEq, Repr

/-- What a read does: its calls of the hooks, and what it answers. -/
structure Reading where
  calls : List HookCall
  verdict : Except ReadError ReadDocument

/-- What `yyjson_read_opts` is called with. -/
structure ReadInput where
  bytes : List UInt8
  insitu : Bool
  stopWhenDone : Bool

/-! ## The reader -/

/-- `ARNM_JSON_READER_INSITU_PADDING` -/
def readerInsituPadding : Nat := 4

/-- `ARNM_JSON_READER_MAX_INPUT_SIZE` -/
def readerMaxInputSize : Nat := maxAllocSize - readerInsituPadding

/-- `json_reader_state`; the context of its hooks is the one of the hook state. -/
structure Reader where
  hooks : HookState
  doc : Option ReadDocument
  errorMessage : Option String
  errorPosition : Nat
  magic : Bool

/-- A call's answer, the root it wrote to `doc_root_out`, if it wrote, and the reader. -/
structure ReaderAnswer where
  result : Result
  root : Option Nat
  reader : Reader

/-- `narrow_count` -/
def narrowCount (count : Nat) : Nat := if 2 ^ 32 - 1 < count then 2 ^ 32 - 1 else count

/-- `translate_read_error` -/
def translateReadError : ReadCode → Result
  | .memoryAllocation => .errorOutOfMemory
  | .invalidParameter => .errorInvalidParam
  | .other => .errorDecodeFailed

namespace Reader

/-- `arnm_json_reader_init` -/
def init (hooks : HookState) : Reader :=
  ⟨{ hooks with context := .init }, none, none, 0, true⟩

/-- `dispose_document`; `order` is the one in which `yyjson_doc_free` disposes of the blocks. -/
def disposeDocument (order : List Lent) (r : Reader) : Result × Reader :=
  match r.doc with
  | none => (.success, r)
  | some _ =>
    let hooks := { r.hooks with context := { r.hooks.context with arenaKeptBytes := false } }
    let hooks := order.foldl (fun s l => s.blockDispose l) hooks
    (if hooks.context.arenaKeptBytes then .warningArenaMemoryNotReclaimed else .success,
      { r with hooks := hooks, doc := none })

/-- `arnm_json_reader_release` -/
def release (order : List Lent) (r : Reader) : Result × Reader :=
  if !r.magic then (.errorNotInitialized, r) else r.disposeDocument order

/-- `begin_parse` -/
def beginParse (order : List Lent) (length : Nat) (r : Reader) : Result × Reader :=
  let r := { (r.disposeDocument order).2 with errorMessage := none, errorPosition := 0 }
  if length = 0 then (.errorInvalidParam, r)
  else if readerMaxInputSize < length then (.errorArithmeticOverflow, r)
  else (.success, r)

/-- `run_parse` -/
def runParse (library : ReadInput → HookState → Reading) (input : ReadInput) (r : Reader) :
    ReaderAnswer :=
  let reading := library input r.hooks
  let r := { r with hooks := reading.calls.foldl HookState.hook r.hooks }
  match reading.verdict with
  | .error error =>
    ⟨translateReadError error.code, none,
      { r with errorMessage := some error.message, errorPosition := narrowCount error.position }⟩
  | .ok doc => ⟨.success, some doc.root, { r with doc := some doc }⟩

/-- `arnm_json_reader_parse`; `json` is what the pointer points to, if one is given. -/
def parse (library : ReadInput → HookState → Reading) (order : List Lent)
    (json : Option (List UInt8)) (stopWhenDone : Bool) (r : Reader) : ReaderAnswer :=
  match json with
  | none => ⟨.errorNullPointer, none, r⟩
  | some bytes =>
    if !r.magic then ⟨.errorNotInitialized, none, r⟩
    else
      let (checked, r) := r.beginParse order bytes.length
      if checked ≠ .success then ⟨checked, none, r⟩
      else r.runParse library ⟨bytes, false, stopWhenDone⟩

/-- `arnm_json_reader_parse_insitu` -/
def parseInsitu (library : ReadInput → HookState → Reading) (order : List Lent)
    (buffer : Option (List UInt8)) (capacity : Nat) (stopWhenDone : Bool) (r : Reader) :
    ReaderAnswer :=
  match buffer with
  | none => ⟨.errorNullPointer, none, r⟩
  | some bytes =>
    if !r.magic then ⟨.errorNotInitialized, none, r⟩
    else
      let (checked, r) := r.beginParse order bytes.length
      if checked ≠ .success then ⟨checked, none, r⟩
      -- the length is bounded, so the sum is one of 32 bits
      else if capacity < bytes.length + readerInsituPadding then ⟨.errorInvalidParam, none, r⟩
      else r.runParse library ⟨bytes, true, stopWhenDone⟩

/-- `arnm_json_reader_status` -/
def status (r : Reader) : Result :=
  if !r.magic then .errorNotInitialized
  else if r.errorMessage.isSome then .errorDecodeFailed else .success

/-- `arnm_json_reader_error_message` -/
def message (r : Reader) : String :=
  if !r.magic then "no error" else r.errorMessage.getD "no error"

/-- `arnm_json_reader_error_position` -/
def position (r : Reader) : Nat := if r.magic then r.errorPosition else 0

/-- `arnm_json_reader_has_document` -/
def hasDocument (r : Reader) : Bool := r.magic && r.doc.isSome

/-- `arnm_json_reader_value_count` -/
def valueCount (r : Reader) : Nat :=
  if !r.magic then 0 else (r.doc.map fun doc => narrowCount doc.valueCount).getD 0

/-- `arnm_json_reader_bytes_read` -/
def bytesRead (r : Reader) : Nat :=
  if !r.magic then 0 else (r.doc.map fun doc => narrowCount doc.readSize).getD 0

end Reader

/-! ## What comes back -/

/-- The bytes in use in the arenas. -/
def usedBytes (memory : Allocator) : Nat := (memory.arenas.map Arena.lastIndex).sum

/-- The bytes the arenas reserve for lent blocks. -/
def reservedBytes (lent : List Lent) : Nat := (lent.map fun l => align8U32 l.block.size).sum

theorem sum_modify {α : Type} (f : α → Nat) (g : α → α) {l : List α} {i : Nat} {a : α}
    (ha : l[i]? = some a) {k : Nat} (hk : f (g a) + k = f a) :
    ((l.modify i g).map f).sum + k = (l.map f).sum := by
  induction l generalizing i with
  | nil => cases ha
  | cons b l ih =>
      cases i with
      | zero =>
          cases ha
          simp only [List.modify_zero_cons, List.map_cons, List.sum_cons]
          omega
      | succ i =>
          have hrest := ih (i := i) ha
          simp only [List.modify_succ_cons, List.map_cons, List.sum_cons]
          omega

/-- A block that is taken back leaves that many bytes less in use. -/
theorem usedBytes_free {memory : Allocator} {b : Block} {held : List Block}
    (hs : Sound memory.arenas (b :: held)) (hok : (free b.addr b.size memory).1 = .success) :
    usedBytes (free b.addr b.size memory).2 + align8U32 b.size = usedBytes memory := by
  obtain ⟨i, a, hown, hi, hin⟩ := hs.owner List.mem_cons_self
  have hpass : ¬ (b.size ≠ 0 ∧ align8U32 b.size = 0) :=
    fun hz => hs.size_ne b List.mem_cons_self hz.2
  unfold free at hok ⊢
  rw [if_neg hpass] at hok ⊢
  simp only [hown] at hok ⊢
  by_cases hrec : a.isReclaimable b.addr (align8U32 b.size) = true
  · rw [if_pos hrec]
    -- the arena has at least the block's room in use
    have hroom : align8U32 b.size ≤ a.lastIndex := by
      obtain ⟨-, -, hnewest⟩ := Arena.isReclaimable_iff.mp hrec
      have hlo : a.data ≤ b.addr := hin.1
      omega
    have hlast : (a.rewind (align8U32 b.size)).lastIndex + align8U32 b.size = a.lastIndex := by
      rw [Arena.rewind_lastIndex]
      omega
    unfold usedBytes
    rw [Allocator.giveBack_arenas _ (List.getElem?_eq_some_iff.mp hi).1]
    exact sum_modify Arena.lastIndex (Arena.rewind (align8U32 b.size)) hi hlast
  · rw [if_neg hrec] at hok
    cases hok

/-- What disposing of blocks that reserve `bytes` comes to. -/
structure Disposed (s s' : HookState) (bytes : Nat) : Prop where
  sound : s'.Sound
  atMost : usedBytes s.heap.memory ≤ usedBytes s'.heap.memory + bytes
  kept : s'.context.arenaKeptBytes = false ↔
    s.context.arenaKeptBytes = false ∧
      usedBytes s'.heap.memory + bytes = usedBytes s.heap.memory

theorem Disposed.refl {s : HookState} (hs : s.Sound) : Disposed s s 0 :=
  ⟨hs, Nat.le_refl _, ⟨fun h => ⟨h, rfl⟩, And.left⟩⟩

theorem Disposed.trans {s s' s'' : HookState} {m n : Nat} (h : Disposed s s' m)
    (h' : Disposed s' s'' n) : Disposed s s'' (m + n) := by
  have hfirst := h.atMost
  have hsecond := h'.atMost
  refine ⟨h'.sound, by omega, ?_⟩
  rw [h'.kept, h.kept]
  constructor
  · intro hboth
    exact ⟨hboth.1.1, by omega⟩
  · intro hboth
    exact ⟨⟨hboth.1, by omega⟩, by omega⟩

namespace HookState.Sound

variable {s : HookState} (hs : s.Sound)
include hs

/-- The hook tells whether the block's bytes came back. -/
theorem disposed {l : Lent} (hl : l ∈ s.lent) :
    Disposed s (s.blockDispose l) (align8U32 l.block.size) := by
  have hhead := hs.head hl
  have hpos := hs.size_ne hl
  obtain ⟨-, hanswer⟩ := jsonBlockDispose_spec s.context (hs.lent l hl).headered hhead
  have hheap : (s.blockDispose l).heap = (jsonBlockDispose l.pointer s.context s.heap).2 := rfl
  have hcontext :
      (s.blockDispose l).context = (jsonBlockDispose l.pointer s.context s.heap).1 := rfl
  rcases hanswer with ⟨hok, hc, hmemory, -⟩ | ⟨-, hc, hsame⟩
  · have hused := usedBytes_free hhead hok
    have hafter :
        (s.blockDispose l).heap.memory = (free l.block.addr l.block.size s.heap.memory).2 :=
      hheap ▸ hmemory
    have hleft := hcontext.trans hc
    have hflag : (s.blockDispose l).context.arenaKeptBytes = s.context.arenaKeptBytes := by
      rw [hleft]
    refine ⟨hs.blockDispose hl, ?_, ?_⟩
    · rw [hafter]
      omega
    · rw [hafter, hflag]
      exact ⟨fun h => ⟨h, hused⟩, And.left⟩
  · have hafter : (s.blockDispose l).heap = s.heap := hheap.trans hsame
    have hflag : (s.blockDispose l).context.arenaKeptBytes = true :=
      congrArg AlcContext.arenaKeptBytes (hcontext.trans hc)
    refine ⟨hs.blockDispose hl, ?_, ?_⟩
    · rw [hafter]
      omega
    · rw [hafter, hflag]
      exact iff_of_false (by decide) (fun h => hpos (by omega))

/-- Disposing of everything that is lent, in any order. -/
theorem disposedAll {order : List Lent} (horder : order.Perm s.lent) :
    Disposed s (order.foldl (fun s l => s.blockDispose l) s) (reservedBytes s.lent) ∧
      (order.foldl (fun s l => s.blockDispose l) s).lent = [] := by
  have hbytes : reservedBytes s.lent = reservedBytes order :=
    (horder.map fun l : Lent => align8U32 l.block.size).sum_nat.symm
  rw [hbytes]
  clear hbytes
  induction order generalizing s with
  | nil => exact ⟨Disposed.refl hs, horder.nil_eq.symm⟩
  | cons l order ih =>
      have hl : l ∈ s.lent := horder.subset List.mem_cons_self
      have hstep := hs.disposed hl
      -- what is left to dispose of is what the rest of the order names
      have hrest : order.Perm (s.blockDispose l).lent := by
        have herased := horder.erase l
        rw [List.erase_cons_head] at herased
        exact herased
      obtain ⟨hrun, hnone⟩ := ih hstep.sound hrest
      exact ⟨hstep.trans hrun, hnone⟩

theorem hook {call : HookCall} (hcall : call.Proper s) : (s.hook call).Sound := by
  cases call with
  | alloc host size => exact hs.blockAlloc size hcall
  | realloc host l size => exact hs.blockRealloc hcall.2.1 hcall.1 hcall.2.2
  | dispose l => exact hs.blockDispose hcall
  | write l offset values => exact hs.blockWrite hcall.1 hcall.2

theorem hooks {calls : List HookCall} (hcalls : ProperCalls s calls) :
    (calls.foldl HookState.hook s).Sound := by
  induction calls generalizing s with
  | nil => exact hs
  | cons call calls ih => exact ih (hs.hook hcalls.1) hcalls.2

end HookState.Sound

/-! ## Where a reader stands -/

/-- What a reader is to its caller: without a document, with one whose blocks hold what the
library left in them, or after a refusal. -/
inductive Phase where
  | idle
  | standing (doc : ReadDocument) (lent : List Lent)
  | refused (error : ReadError)

namespace Phase

def status : Phase → Result
  | .refused _ => .errorDecodeFailed
  | _ => .success

def message : Phase → String
  | .refused error => error.message
  | _ => "no error"

def position : Phase → Nat
  | .refused error => error.position
  | _ => 0

def document : Phase → Option ReadDocument
  | .standing doc _ => some doc
  | _ => none

def lent : Phase → List Lent
  | .standing _ lent => lent
  | _ => []

/-- A reading over the hooks it found. -/
def read (reading : Reading) (hooks : HookState) : Phase :=
  match reading.verdict with
  | .error error => .refused error
  | .ok doc => .standing doc (reading.calls.foldl HookState.hook hooks).lent

/-- A parse: no pointer leaves the phase, bytes that cannot be handed over leave nothing. -/
def parsed (bytes : Option (List UInt8)) (room insitu stopWhenDone : Bool)
    (library : ReadInput → HookState → Reading) (hooks : HookState) (p : Phase) : Phase :=
  bytes.elim p fun bytes =>
    if bytes.length = 0 ∨ readerMaxInputSize < bytes.length ∨ room = false then .idle
    else .read (library ⟨bytes, insitu, stopWhenDone⟩ hooks) hooks

def released : Phase → Phase
  | .standing _ _ => .idle
  | p => p

end Phase

/-- What the JSON library's documentation says of a read: it uses the hooks as they are meant to be
used, it keeps nothing when it refuses, and it counts within the bytes it was given. -/
structure Documented (library : ReadInput → HookState → Reading) : Prop where
  proper : ∀ input s, s.Sound → s.lent = [] → ProperCalls s (library input s).calls
  refused : ∀ input s error, s.Sound → s.lent = [] → (library input s).verdict = .error error →
    ((library input s).calls.foldl HookState.hook s).lent = [] ∧ error.position ≤ input.bytes.length
  counted : ∀ input s doc, s.Sound → s.lent = [] → (library input s).verdict = .ok doc →
    doc.valueCount ≤ input.bytes.length ∧ doc.readSize ≤ input.bytes.length

/-- The buffer has room for what the library writes behind the bytes. -/
def roomFor (buffer : Option (List UInt8)) (capacity : Nat) : Bool :=
  buffer.elim true fun bytes => decide (bytes.length + readerInsituPadding ≤ capacity)

/-- The hooks of a reader whose document was let go. -/
def Reader.cleared (order : List Lent) (r : Reader) : HookState := (r.disposeDocument order).2.hooks

/-- The states of a reader over an allocator that others use, which go on in between. -/
inductive ReaderRun (library : ReadInput → HookState → Reading) : Reader → Phase → Prop where
  | start (s : State) (reached : Reachable s) (context : AlcContext) :
      ReaderRun library (.init ⟨s.heap, context, [], .empty, [], s.held⟩) .idle
  | parse (r : Reader) (p : Phase) (order : List Lent) (json : Option (List UInt8))
      (stopWhenDone : Bool) (run : ReaderRun library r p) (disposes : order.Perm r.hooks.lent) :
      ReaderRun library (r.parse library order json stopWhenDone).reader
        (p.parsed json true false stopWhenDone library (r.cleared order))
  | parseInsitu (r : Reader) (p : Phase) (order : List Lent) (buffer : Option (List UInt8))
      (capacity : Nat) (stopWhenDone : Bool) (run : ReaderRun library r p)
      (disposes : order.Perm r.hooks.lent) :
      ReaderRun library (r.parseInsitu library order buffer capacity stopWhenDone).reader
        (p.parsed buffer (roomFor buffer capacity) true stopWhenDone library (r.cleared order))
  | release (r : Reader) (p : Phase) (order : List Lent) (run : ReaderRun library r p)
      (disposes : order.Perm r.hooks.lent) : ReaderRun library (r.release order).2 p.released
  | elsewhere (r : Reader) (p : Phase) (heap : Heap) (others : List Block)
      (run : ReaderRun library r p) (step : Elsewhere r.hooks.heap r.hooks.others heap others) :
      ReaderRun library { r with hooks := { r.hooks with heap := heap, others := others } } p

/-- A reader is where its phase says, over hooks that are in order. -/
structure Reader.At (r : Reader) (p : Phase) : Prop where
  sound : r.hooks.Sound
  magic : r.magic = true
  doc : r.doc = p.document
  lent : r.hooks.lent = p.lent
  status : r.errorMessage.isSome = (p.status == .errorDecodeFailed)
  message : r.errorMessage.getD "no error" = p.message
  position : r.errorPosition = p.position
  narrow : p.position < 2 ^ 32 ∧
    ∀ doc ∈ p.document, doc.valueCount < 2 ^ 32 ∧ doc.readSize < 2 ^ 32

/-- A parse answers success exactly when a document stands afterwards, and it writes its root then
and only then. -/
structure Answered (a : ReaderAnswer) (p : Phase) : Prop where
  reader : a.reader.At p
  success : a.result = .success ↔ p.document.isSome = true
  root : a.root = p.document.map ReadDocument.root

theorem translateReadError_ne (code : ReadCode) : translateReadError code ≠ .success := by
  cases code <;> decide

namespace Reader.At

variable {library : ReadInput → HookState → Reading} {r : Reader} {p : Phase}

theorem init {hooks : HookState} (hs : HookState.Sound { hooks with context := .init })
    (hnone : hooks.lent = []) : (Reader.init hooks).At .idle where
  sound := hs
  magic := rfl
  doc := rfl
  lent := hnone
  status := rfl
  message := rfl
  position := rfl
  narrow := ⟨Nat.two_pow_pos 32, fun _ h => by cases h⟩

/-- Letting the document go. -/
theorem dispose (h : r.At p) {order : List Lent} (horder : order.Perm r.hooks.lent) :
    (r.disposeDocument order).2.At p.released ∧
    (r.disposeDocument order).2.hooks.lent = [] ∧
    ((r.disposeDocument order).1 = .success ∨
      (r.disposeDocument order).1 = .warningArenaMemoryNotReclaimed) ∧
    ((r.disposeDocument order).1 = .success ↔
      usedBytes (r.disposeDocument order).2.hooks.heap.memory + reservedBytes r.hooks.lent =
        usedBytes r.hooks.heap.memory) := by
  unfold disposeDocument
  cases hdoc : r.doc with
  | none =>
      have hsame : p.released = p ∧ p.lent = [] := by
        have hphase := h.doc
        rw [hdoc] at hphase
        cases p with
        | idle => exact ⟨rfl, rfl⟩
        | standing doc lent => cases hphase
        | refused error => exact ⟨rfl, rfl⟩
      have hnone := h.lent.trans hsame.2
      rw [hsame.1]
      refine ⟨h, hnone, Or.inl rfl, iff_of_true rfl ?_⟩
      rw [hnone]
      rfl
  | some doc =>
      have hphase : ∃ lent, p = .standing doc lent := by
        have hphase := h.doc
        rw [hdoc] at hphase
        cases p with
        | idle => cases hphase
        | standing doc' lent =>
            cases hphase
            exact ⟨lent, rfl⟩
        | refused error => cases hphase
      obtain ⟨lent, rfl⟩ := hphase
      have hs : HookState.Sound
          { r.hooks with context := { r.hooks.context with arenaKeptBytes := false } } :=
        ⟨h.sound.sound, h.sound.lent, h.sound.buffer⟩
      obtain ⟨hall, hnone⟩ := hs.disposedAll horder
      dsimp only
      generalize order.foldl _ _ = hooks at hall hnone
      have hkept := hall.kept
      simp only [true_and] at hkept
      refine ⟨⟨hall.sound, h.magic, rfl, hnone, h.status, h.message, h.position,
        Nat.two_pow_pos 32, fun _ hno => by cases hno⟩, hnone, ?_, ?_⟩
      · split
        · exact Or.inr rfl
        · exact Or.inl rfl
      · cases hflag : hooks.context.arenaKeptBytes with
        | false => exact iff_of_true rfl (hkept.mp hflag)
        | true =>
            refine iff_of_false (by decide) fun hback => ?_
            rw [hkept.mpr hback] at hflag
            cases hflag

/-- What `begin_parse` leaves behind, whether or not it lets the parse run. -/
theorem beginParse (h : r.At p) {order : List Lent} (horder : order.Perm r.hooks.lent)
    (length : Nat) :
    (r.beginParse order length).2.At .idle ∧
    (r.beginParse order length).2.hooks = r.cleared order ∧
    ((r.beginParse order length).1 = .success ↔ ¬ (length = 0 ∨ readerMaxInputSize < length)) := by
  obtain ⟨hat, hnone, -, -⟩ := h.dispose horder
  have hidle : Reader.At { (r.disposeDocument order).2 with
      errorMessage := none, errorPosition := 0 } .idle := by
    refine ⟨hat.sound, hat.magic, ?_, hnone, rfl, rfl, rfl, Nat.two_pow_pos 32,
      fun _ hno => by cases hno⟩
    refine hat.doc.trans ?_
    cases p with
    | idle => rfl
    | standing doc lent => rfl
    | refused error => rfl
  unfold Reader.beginParse
  split
  · rename_i hzero
    exact ⟨hidle, rfl, iff_of_false (fun hno => by cases hno) (fun hno => hno (Or.inl hzero))⟩
  · rename_i hzero
    split
    · rename_i hlong
      exact ⟨hidle, rfl, iff_of_false (fun hno => by cases hno) (fun hno => hno (Or.inr hlong))⟩
    · rename_i hshort
      exact ⟨hidle, rfl, iff_of_true rfl (not_or.mpr ⟨hzero, hshort⟩)⟩

/-- A read over hooks that lend nothing. -/
theorem runParse (documented : Documented library) (h : r.At .idle) {input : ReadInput}
    (hlen : input.bytes.length ≤ readerMaxInputSize) :
    Answered (r.runParse library input) (.read (library input r.hooks) r.hooks) := by
  have hnone : r.hooks.lent = [] := h.lent
  have hbound : readerMaxInputSize < 2 ^ 32 := by decide
  have hsound := h.sound.hooks (documented.proper input r.hooks h.sound hnone)
  unfold Reader.runParse Phase.read
  cases hverdict : (library input r.hooks).verdict with
  | error error =>
      obtain ⟨hleft, hpos⟩ := documented.refused input r.hooks error h.sound hnone hverdict
      have hnarrow : narrowCount error.position = error.position := by
        unfold narrowCount
        rw [if_neg (by omega)]
      simp only [hverdict]
      refine ⟨⟨hsound, h.magic, h.doc, hleft, rfl, rfl, hnarrow, ?_, fun _ hno => by cases hno⟩,
        iff_of_false (translateReadError_ne _) Bool.false_ne_true, rfl⟩
      show error.position < 2 ^ 32
      omega
  | ok doc =>
      obtain ⟨hvalues, hread⟩ := documented.counted input r.hooks doc h.sound hnone hverdict
      simp only [hverdict]
      refine ⟨⟨hsound, h.magic, rfl, rfl, h.status, h.message, h.position, Nat.two_pow_pos 32, ?_⟩,
        iff_of_true rfl rfl, rfl⟩
      intro doc' hdoc'
      cases hdoc'
      exact ⟨by omega, by omega⟩

/-- A parse that is handed bytes. -/
theorem parse (documented : Documented library) (h : r.At p) {order : List Lent}
    (horder : order.Perm r.hooks.lent) (json : Option (List UInt8)) (stopWhenDone : Bool) :
    (r.parse library order json stopWhenDone).reader.At
      (p.parsed json true false stopWhenDone library (r.cleared order)) ∧
    (json.isSome → Answered (r.parse library order json stopWhenDone)
      (p.parsed json true false stopWhenDone library (r.cleared order))) := by
  cases json with
  | none => exact ⟨h, fun hno => by cases hno⟩
  | some bytes =>
      obtain ⟨hidle, hhooks, hruns⟩ := h.beginParse horder bytes.length
      have hanswer : Answered (r.parse library order (some bytes) stopWhenDone)
          (p.parsed (some bytes) true false stopWhenDone library (r.cleared order)) := by
        unfold Reader.parse Phase.parsed
        rw [← hhooks]
        simp only [h.magic, Bool.not_true, Bool.false_eq_true, if_false, Option.elim_some,
          Bool.true_eq_false, or_false]
        by_cases hok : (r.beginParse order bytes.length).1 = .success
        · have hfits := hruns.mp hok
          rw [if_neg (fun hno => hno hok), if_neg hfits]
          exact hidle.runParse documented (Nat.not_lt.mp (not_or.mp hfits).2)
        · have hrefused := not_not.mp (mt hruns.mpr hok)
          rw [if_pos hok, if_pos hrefused]
          exact ⟨hidle, iff_of_false hok Bool.false_ne_true, rfl⟩
      exact ⟨hanswer.reader, fun _ => hanswer⟩

theorem parseInsitu (documented : Documented library) (h : r.At p) {order : List Lent}
    (horder : order.Perm r.hooks.lent) (buffer : Option (List UInt8)) (capacity : Nat)
    (stopWhenDone : Bool) :
    (r.parseInsitu library order buffer capacity stopWhenDone).reader.At
      (p.parsed buffer (roomFor buffer capacity) true stopWhenDone library (r.cleared order)) ∧
    (buffer.isSome → Answered (r.parseInsitu library order buffer capacity stopWhenDone)
      (p.parsed buffer (roomFor buffer capacity) true stopWhenDone library (r.cleared order))) := by
  cases buffer with
  | none => exact ⟨h, fun hno => by cases hno⟩
  | some bytes =>
      obtain ⟨hidle, hhooks, hruns⟩ := h.beginParse horder bytes.length
      have hanswer : Answered (r.parseInsitu library order (some bytes) capacity stopWhenDone)
          (p.parsed (some bytes) (roomFor (some bytes) capacity) true stopWhenDone library
            (r.cleared order)) := by
        unfold Reader.parseInsitu Phase.parsed roomFor
        rw [← hhooks]
        simp only [h.magic, Bool.not_true, Bool.false_eq_true, if_false, Option.elim_some,
          decide_eq_false_iff_not, Nat.not_le]
        by_cases hok : (r.beginParse order bytes.length).1 = .success
        · have hfits := hruns.mp hok
          obtain ⟨hpos, hshort⟩ := not_or.mp hfits
          rw [if_neg (fun hno => hno hok)]
          by_cases hroom : capacity < bytes.length + readerInsituPadding
          · rw [if_pos hroom, if_pos (Or.inr (Or.inr hroom))]
            exact ⟨hidle, iff_of_false (fun hno => by cases hno) Bool.false_ne_true, rfl⟩
          · rw [if_neg hroom, if_neg (not_or.mpr ⟨hpos, not_or.mpr ⟨hshort, hroom⟩⟩)]
            exact hidle.runParse documented (Nat.not_lt.mp hshort)
        · have hrefused := not_not.mp (mt hruns.mpr hok)
          have hnone : bytes.length = 0 ∨ readerMaxInputSize < bytes.length ∨
              capacity < bytes.length + readerInsituPadding :=
            hrefused.imp_right Or.inl
          rw [if_pos hok, if_pos hnone]
          exact ⟨hidle, iff_of_false hok Bool.false_ne_true, rfl⟩
      exact ⟨hanswer.reader, fun _ => hanswer⟩

theorem elsewhere (h : r.At p) {heap : Heap} {others : List Block}
    (step : Elsewhere r.hooks.heap r.hooks.others heap others) :
    Reader.At { r with hooks := { r.hooks with heap := heap, others := others } } p :=
  ⟨h.sound.elsewhere step, h.magic, h.doc, h.lent, h.status, h.message, h.position, h.narrow⟩

end Reader.At

/-- Every state of a run. -/
theorem ReaderRun.follows {library : ReadInput → HookState → Reading}
    (documented : Documented library)
    {r : Reader} {p : Phase} (run : ReaderRun library r p) : r.At p := by
  induction run with
  | start s reached context =>
      refine Reader.At.init ⟨reached.sound, fun l hl => absurd hl List.not_mem_nil, ?_⟩ rfl
      exact ⟨Nat.le_refl _, rfl, fun _ => rfl⟩
  | parse r p order json stopWhenDone _ disposes ih =>
      exact (ih.parse documented disposes json stopWhenDone).1
  | parseInsitu r p order buffer capacity stopWhenDone _ disposes ih =>
      exact (ih.parseInsitu documented disposes buffer capacity stopWhenDone).1
  | release r p order _ disposes ih =>
      unfold Reader.release
      rw [ih.magic]
      exact (ih.dispose disposes).1
  | elsewhere r p heap others _ step ih => exact ih.elsewhere step

/-- What the calls about the reader answer is what the phase says; the sizes are not narrowed. -/
theorem Reader.At.shows {r : Reader} {p : Phase} (h : r.At p) :
    r.status = p.status ∧ r.message = p.message ∧ r.position = p.position ∧
    r.hasDocument = p.document.isSome ∧
    r.valueCount = (p.document.map ReadDocument.valueCount).getD 0 ∧
    r.bytesRead = (p.document.map ReadDocument.readSize).getD 0 := by
  have hnarrow := h.narrow.2
  have hcount : ∀ n, n < 2 ^ 32 → narrowCount n = n := by
    intro n hn
    unfold narrowCount
    rw [if_neg (by omega)]
  refine ⟨?_, ?_, ?_, ?_, ?_, ?_⟩
  · unfold Reader.status
    rw [h.magic, h.status]
    cases p <;> rfl
  · unfold Reader.message
    rw [h.magic]
    exact h.message
  · unfold Reader.position
    rw [h.magic]
    exact h.position
  · unfold Reader.hasDocument
    rw [h.magic, h.doc]
    rfl
  · unfold Reader.valueCount
    rw [h.magic, h.doc]
    cases hdoc : p.document with
    | none => rfl
    | some doc => exact hcount _ (hnarrow doc hdoc).1
  · unfold Reader.bytesRead
    rw [h.magic, h.doc]
    cases hdoc : p.document with
    | none => rfl
    | some doc => exact hcount _ (hnarrow doc hdoc).2

/-- In every run of a reader over an allocator that others use, the calls about it answer as the
last parse and release left it. The blocks of a document that stands hold what the library left in
them, and without one none are held. A parse that is handed bytes answers success and writes a root
exactly when a document stands afterwards; without bytes it fails and the reader is as it was. A
release leaves no block behind, and answers success exactly when the arenas took every reserved
byte back. -/
theorem reader_follows_phase {library : ReadInput → HookState → Reading}
    (documented : Documented library) {r : Reader} {p : Phase} (run : ReaderRun library r p) :
    (r.status = p.status ∧ r.message = p.message ∧ r.position = p.position ∧
      r.hasDocument = p.document.isSome ∧
      r.valueCount = (p.document.map ReadDocument.valueCount).getD 0 ∧
      r.bytesRead = (p.document.map ReadDocument.readSize).getD 0) ∧
    (Memory.Sound r.hooks.heap.memory.arenas r.hooks.blocks ∧ r.hooks.lent = p.lent ∧
      ∀ l ∈ p.lent, l.Intact r.hooks.heap.bytes) ∧
    (∀ order bytes stopWhenDone, order.Perm r.hooks.lent →
      let a := r.parse library order (some bytes) stopWhenDone
      (a.result = .success ↔ a.reader.hasDocument = true) ∧
      (a.root.isSome ↔ a.reader.hasDocument = true)) ∧
    (∀ order bytes capacity stopWhenDone, order.Perm r.hooks.lent →
      let a := r.parseInsitu library order (some bytes) capacity stopWhenDone
      (a.result = .success ↔ a.reader.hasDocument = true) ∧
      (a.root.isSome ↔ a.reader.hasDocument = true)) ∧
    (∀ order capacity stopWhenDone,
      r.parse library order none stopWhenDone = ⟨.errorNullPointer, none, r⟩ ∧
      r.parseInsitu library order none capacity stopWhenDone = ⟨.errorNullPointer, none, r⟩) ∧
    ∀ order, order.Perm r.hooks.lent →
      (r.release order).2.hooks.lent = [] ∧
      ((r.release order).1 = .success ∨
        (r.release order).1 = .warningArenaMemoryNotReclaimed) ∧
      ((r.release order).1 = .success ↔
        usedBytes (r.release order).2.hooks.heap.memory + reservedBytes p.lent =
          usedBytes r.hooks.heap.memory) := by
  have hat := run.follows documented
  have hanswered : ∀ {a : ReaderAnswer} {q : Phase}, Answered a q →
      (a.result = .success ↔ a.reader.hasDocument = true) ∧
      (a.root.isSome ↔ a.reader.hasDocument = true) := by
    intro a q ha
    rw [ha.reader.shows.2.2.2.1, ha.success, ha.root, Option.isSome_map]
    exact ⟨Iff.rfl, Iff.rfl⟩
  refine ⟨hat.shows, ⟨hat.sound.sound, hat.lent, hat.lent ▸ hat.sound.lent⟩,
    ?_, ?_, fun _ _ _ => ⟨rfl, rfl⟩, ?_⟩
  · intro order bytes stopWhenDone disposes
    exact hanswered ((hat.parse documented disposes (some bytes) stopWhenDone).2 rfl)
  · intro order bytes capacity stopWhenDone disposes
    exact hanswered ((hat.parseInsitu documented disposes (some bytes) capacity stopWhenDone).2 rfl)
  · intro order disposes
    obtain ⟨-, hnone, hanswers, hback⟩ := hat.dispose disposes
    have hrelease : r.release order = r.disposeDocument order := by
      unfold Reader.release
      rw [hat.magic]
      rfl
    rw [hrelease, ← hat.lent]
    exact ⟨hnone, hanswers, hback⟩

/-- The bytes of the values: the document's four, one for each six bytes expected, and four more. -/
def valuesSize (input : ReadInput) : Nat :=
  (4 + (if input.stopWhenDone then 256 else input.bytes.length) / 6 + 4) * 16

/-- A library that reads `{}` from a copy of it, with four zeros behind it, into a block of values,
the root behind the document; it knows no other text and does not read in place. -/
def objectLibrary (input : ReadInput) (s : HookState) : Reading :=
  if input.insitu = true ∨ input.bytes ≠ [123, 125] then
    ⟨[], .error ⟨.other, "unexpected character", 0⟩⟩
  else
    let copied := s.blockAlloc silentHost 6
    match copied.lent with
    | [] => ⟨[.alloc silentHost 6], .error ⟨.memoryAllocation, "memory allocation failed", 0⟩⟩
    | text :: _ =>
      let written := copied.blockWrite text 0 [123, 125, 0, 0, 0, 0]
      let calls : List HookCall := [.alloc silentHost 6, .write text 0 [123, 125, 0, 0, 0, 0],
        .alloc silentHost (valuesSize input)]
      match (written.blockAlloc silentHost (valuesSize input)).lent with
      | [values, _] =>
        -- the tag of an object without members, and how far the next value lies behind it
        ⟨calls ++ [.write values 64 [7, 0, 0, 0, 0, 0, 0, 0, 16, 0, 0, 0, 0, 0, 0, 0]],
          .ok ⟨values.pointer + 64, 1, 2⟩⟩
      | lent =>
        ⟨calls ++ lent.map .dispose, .error ⟨.memoryAllocation, "memory allocation failed", 0⟩⟩

/-- A request that is granted lends a block of its size. -/
theorem HookState.blockAlloc_lent (host : Host) (size : Nat) (s : HookState) :
    (s.blockAlloc host size).lent = s.lent ∨
      ∃ l, (s.blockAlloc host size).lent = l :: s.lent ∧ l.payload.length = size := by
  unfold HookState.blockAlloc
  dsimp only
  split
  · exact Or.inl rfl
  · exact Or.inr ⟨_, rfl, Bytes.length_read _ _ _⟩

/-- What the library does of the four things it can do. -/
theorem objectLibrary_cases (input : ReadInput) {s : HookState} (hnone : s.lent = []) :
    (∃ error, objectLibrary input s = ⟨[], .error error⟩ ∧ error.position = 0) ∨
    input.bytes = [123, 125] ∧
      ((∃ error, objectLibrary input s = ⟨[.alloc silentHost 6], .error error⟩ ∧
          error.position = 0 ∧ (s.blockAlloc silentHost 6).lent = []) ∨
        ∃ text copy, (s.blockAlloc silentHost 6).lent = [text] ∧ text.payload.length = 6 ∧
          let written := (s.blockAlloc silentHost 6).blockWrite text 0 [123, 125, 0, 0, 0, 0]
          let last := written.blockAlloc silentHost (valuesSize input)
          let calls : List HookCall := [.alloc silentHost 6, .write text 0 [123, 125, 0, 0, 0, 0],
            .alloc silentHost (valuesSize input)]
          (∃ error, objectLibrary input s = ⟨calls ++ [.dispose copy], .error error⟩ ∧
            error.position = 0 ∧ last.lent = [copy]) ∨
          ∃ values, objectLibrary input s =
              ⟨calls ++ [.write values 64 [7, 0, 0, 0, 0, 0, 0, 0, 16, 0, 0, 0, 0, 0, 0, 0]],
                .ok ⟨values.pointer + 64, 1, 2⟩⟩ ∧
            last.lent = [values, copy] ∧ values.payload.length = valuesSize input) := by
  unfold objectLibrary
  by_cases hother : input.insitu = true ∨ input.bytes ≠ [123, 125]
  · rw [if_pos hother]
    exact Or.inl ⟨_, rfl, rfl⟩
  · rw [if_neg hother]
    refine Or.inr ⟨not_not.mp (not_or.mp hother).2, ?_⟩
    dsimp only
    rcases s.blockAlloc_lent silentHost 6 with hlent | ⟨text, hlent, hlength⟩
    · rw [hlent, hnone]
      exact Or.inl ⟨_, rfl, rfl, rfl⟩
    · rw [hlent, hnone]
      refine Or.inr ⟨text, ⟨text.block, overwritten text.payload 0 [123, 125, 0, 0, 0, 0]⟩, rfl,
        hlength, ?_⟩
      have hcopy : ((s.blockAlloc silentHost 6).blockWrite text 0 [123, 125, 0, 0, 0, 0]).lent =
          [⟨text.block, overwritten text.payload 0 [123, 125, 0, 0, 0, 0]⟩] := by
        unfold HookState.blockWrite
        rw [hlent, hnone, List.erase_cons_head]
      rcases HookState.blockAlloc_lent silentHost (valuesSize input)
        ((s.blockAlloc silentHost 6).blockWrite text 0 [123, 125, 0, 0, 0, 0]) with
        hlast | ⟨values, hlast, hroom⟩
      · dsimp only
        rw [hlast, hcopy]
        exact Or.inl ⟨_, rfl, rfl, rfl⟩
      · dsimp only
        rw [hlast, hcopy]
        exact Or.inr ⟨values, rfl, rfl, hroom⟩

theorem objectLibrary_documented : Documented objectLibrary where
  proper input s hs hnone := by
    rcases objectLibrary_cases input hnone with ⟨_, hdoes, -⟩ | ⟨-, ⟨_, hdoes, -⟩ |
      ⟨text, copy, hlent, hlength, ⟨_, hdoes, -, hlast⟩ | ⟨values, hdoes, hlast, hroom⟩⟩⟩
    · rw [hdoes]
      trivial
    · rw [hdoes]
      exact ⟨silentHost_fresh _, trivial⟩
    · rw [hdoes]
      refine ⟨silentHost_fresh _, ⟨?_, hlength.ge⟩, silentHost_fresh _, ?_, trivial⟩
      · exact hlent ▸ List.mem_singleton_self _
      · show copy ∈ (HookState.blockAlloc silentHost _ (HookState.blockWrite text 0 _ _)).lent
        exact hlast ▸ List.mem_singleton_self copy
    · rw [hdoes]
      refine ⟨silentHost_fresh _, ⟨?_, hlength.ge⟩, silentHost_fresh _, ⟨?_, ?_⟩, trivial⟩
      · exact hlent ▸ List.mem_singleton_self _
      · show values ∈ (HookState.blockAlloc silentHost _ (HookState.blockWrite text 0 _ _)).lent
        exact hlast ▸ List.mem_cons_self
      · rw [hroom, valuesSize]
        simp only [List.length_cons, List.length_nil]
        omega
  refused input s error hs hnone herror := by
    rcases objectLibrary_cases input hnone with ⟨_, hdoes, hstart⟩ | ⟨-, ⟨_, hdoes, hstart, hlent⟩ |
      ⟨text, copy, -, -, ⟨_, hdoes, hstart, hlast⟩ | ⟨values, hdoes, -⟩⟩⟩
    · rw [hdoes] at herror ⊢
      cases herror
      exact ⟨hnone, hstart ▸ Nat.zero_le _⟩
    · rw [hdoes] at herror ⊢
      cases herror
      exact ⟨hlent, hstart ▸ Nat.zero_le _⟩
    · rw [hdoes] at herror ⊢
      cases herror
      refine ⟨?_, hstart ▸ Nat.zero_le _⟩
      show (HookState.blockWrite text 0 [123, 125, 0, 0, 0, 0] (s.blockAlloc silentHost 6)
        |>.blockAlloc silentHost (valuesSize input)).lent.erase copy = []
      rw [hlast, List.erase_cons_head]
    · rw [hdoes] at herror
      cases herror
  counted input s doc hs hnone hdoc := by
    rcases objectLibrary_cases input hnone with ⟨_, hdoes, -⟩ | ⟨hbytes, ⟨_, hdoes, -⟩ |
      ⟨text, copy, -, -, ⟨_, hdoes, -⟩ | ⟨values, hdoes, -⟩⟩⟩
    · rw [hdoes] at hdoc
      cases hdoc
    · rw [hdoes] at hdoc
      cases hdoc
    · rw [hdoes] at hdoc
      cases hdoc
    · rw [hdoes] at hdoc
      cases hdoc
      rw [hbytes]
      exact ⟨show 1 ≤ 2 by decide, Nat.le_refl 2⟩

/-- A reader of `{}` over a lent arena of 256 bytes. -/
def objectReader : Reader :=
  ((Reader.init ⟨lentArena 256, .init, [], .empty, [], []⟩).parse objectLibrary []
    (some [123, 125]) false).reader

/-- The copy of the text is disposed of first, while it is buried, so the arena keeps its bytes; the
text is read again behind them. -/
theorem reader_follows_phase_sample :
    objectReader.hasDocument = true ∧ objectReader.valueCount = 1 ∧ objectReader.bytesRead = 2 ∧
    (objectReader.release objectReader.hooks.lent.reverse).2.hooks.lent = [] ∧
    (objectReader.release objectReader.hooks.lent.reverse).1 = .warningArenaMemoryNotReclaimed ∧
    (objectReader.parse objectLibrary objectReader.hooks.lent.reverse (some [123, 125])
      false).root.isSome := by
  have start : ReaderRun objectLibrary (.init ⟨lentArena 256, .init, [], .empty, [], []⟩) .idle :=
    .start ⟨lentArena 256, []⟩ (.borrowed 8 256 _ _ (by norm_num) rfl) .init
  have run := ReaderRun.parse _ _ [] (some [123, 125]) false start (List.Perm.refl _)
  obtain ⟨⟨-, -, -, hdoc, hcount, hread⟩, -, hparse, -, -, hrelease⟩ :=
    reader_follows_phase objectLibrary_documented run
  have horder : objectReader.hooks.lent.reverse.Perm objectReader.hooks.lent := List.reverse_perm _
  obtain ⟨hnone, hanswer, hback⟩ := hrelease _ horder
  refine ⟨hdoc.trans (by decide), hcount.trans (by decide), hread.trans (by decide), hnone, ?_, ?_⟩
  · exact hanswer.resolve_left fun hok => absurd (hback.mp hok) (by decide)
  · exact (hparse _ [123, 125] false horder).2.mpr (by decide)

end Arnm.Json
