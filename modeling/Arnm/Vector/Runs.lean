import Arnm.Vector.Append

set_option autoImplicit false

/-! # Runs of a bucket vector

`Serves` is what a plain list answers to the calls of a bucket vector; a refused call leaves it as
it is. In a run the calls alternate with whatever others do with the allocator, as long as they
leave the vector's blocks alone, so any pattern of refusals and warnings can be met. After every
run the vector shows the list (`vector_is_list`), and the elements that were in it throughout are
where they were (`elements_stay`). -/

namespace Arnm.Vector

open Memory

/-! ## A plain list -/

/-- A list of elements of one size. -/
structure Elements where
  elementSize : Nat
  items : List (List UInt8)
  whole : ∀ x ∈ items, x.length = elementSize

namespace Elements

/-- No elements. -/
def empty (elementSize : Nat) : Elements :=
  ⟨elementSize, [], fun _ hx => absurd hx List.not_mem_nil⟩

variable (q : Elements)

/-- One more element at the end. -/
def append (x : List UInt8) (hx : x.length = q.elementSize) : Elements where
  elementSize := q.elementSize
  items := q.items ++ [x]
  whole y hy := by
    rcases List.mem_append.mp hy with hy | hy
    · exact q.whole y hy
    · rw [List.mem_singleton.mp hy]
      exact hx

/-- The last element gone. -/
def dropLast : Elements where
  elementSize := q.elementSize
  items := q.items.dropLast
  whole x hx := q.whole x (List.mem_of_mem_dropLast hx)

/-- An element written anew. -/
def set (i : Nat) (x : List UInt8) (hx : x.length = q.elementSize) : Elements where
  elementSize := q.elementSize
  items := q.items.set i x
  whole y hy := by
    rcases List.mem_or_eq_of_mem_set hy with hy | rfl
    · exact q.whole y hy
    · exact hx

/-- The element behind a pointer. -/
def bytesBehind (value : Nat → UInt8) : List UInt8 := (List.range q.elementSize).map value

theorem length_bytesBehind (value : Nat → UInt8) :
    (q.bytesBehind value).length = q.elementSize := by
  simp [bytesBehind]

end Elements

/-- The calls of a client. `fill` writes an element through its pointer. -/
inductive Call where
  | init (bucketCapacityLog2 indexGrowStepSize elementSize : Nat)
  | reserve (elementCount : Nat)
  | emplace (outSlot : Bool)
  | pushPtr (value : Option (Nat → UInt8))
  | pop
  | clear
  | shrink
  | free
  | fill (index : Nat) (value : Nat → UInt8)

/-- What a plain list answers. What a slot handed out holds before the client writes it is not
said, nor which requests the allocator refuses. -/
inductive Serves (q : Elements) : Call → Result → Elements → Prop where
  | init (bucketCapacityLog2 indexGrowStepSize elementSize : Nat) :
      Serves q (.init bucketCapacityLog2 indexGrowStepSize elementSize) .success
        (.empty elementSize)
  | initRefused (bucketCapacityLog2 indexGrowStepSize elementSize : Nat) :
      Serves q (.init bucketCapacityLog2 indexGrowStepSize elementSize) .errorInvalidParam q
  | reserve (elementCount : Nat) {result : Result} (valid : result ≠ .errorInvalidState) :
      Serves q (.reserve elementCount) result q
  | emplace (left : List UInt8) (whole : left.length = q.elementSize) :
      Serves q (.emplace true) .success (q.append left whole)
  | emplaceRefused {result : Result} (error : result.isError = true)
      (valid : result ≠ .errorInvalidState) : Serves q (.emplace true) result q
  | emplaceNull : Serves q (.emplace false) .errorNullPointer q
  | push (value : Nat → UInt8) : Serves q (.pushPtr (some value)) .success
      (q.append (q.bytesBehind value) (q.length_bytesBehind value))
  | pushRefused (value : Nat → UInt8) {result : Result} (error : result.isError = true)
      (valid : result ≠ .errorInvalidState) : Serves q (.pushPtr (some value)) result q
  | pushNull : Serves q (.pushPtr none) .errorNullPointer q
  | pop (some : q.items ≠ []) : Serves q .pop .success q.dropLast
  | popEmpty (none : q.items = []) : Serves q .pop .errorArrayIndexOutOfBounds q
  | clear : Serves q .clear .success (.empty q.elementSize)
  | shrink {result : Result} (valid : result ≠ .errorInvalidState) : Serves q .shrink result q
  | free : Serves q .free .success (.empty q.elementSize)
  | fill (index : Nat) (value : Nat → UInt8) : Serves q (.fill index value) .success
      (q.set index (q.bytesBehind value) (q.length_bytesBehind value))

theorem Serves.valid {q q' : Elements} {c : Call} {result : Result} (h : Serves q c result q') :
    result ≠ .errorInvalidState := by
  cases h <;> first | assumption | nofun

/-- A call that fails leaves the list as it is. -/
theorem Serves.failed {q q' : Elements} {c : Call} {result : Result} (h : Serves q c result q')
    (herr : result.isError = true) : q' = q := by
  cases h <;> first | rfl | cases herr

section

variable {σ : Type}

/-! ## Calls and runs -/

/-- What a client's write through the pointer of an element leaves. -/
def fill (allocator : Calls σ) (st : State σ) (index : Nat) (value : Nat → UInt8) : State σ :=
  if index < st.vector.size then
    let m := allocator.bytes st.heap
    let m := m.put (st.vector.get m index) (st.vector.element value)
    { st with heap := allocator.write m st.heap }
  else st

/-- Carry out a call. -/
def State.call (allocator : Calls σ) (st : State σ) : Call → Result × State σ
  | .init bucketCapacityLog2 indexGrowStepSize elementSize =>
    let r := init st.vector bucketCapacityLog2 indexGrowStepSize elementSize
    (r.1, { st with vector := r.2 })
  | .reserve elementCount => reserve allocator st elementCount
  | .emplace outSlot =>
    let r := emplace allocator st outSlot
    (r.1, r.2.2)
  | .pushPtr value => pushPtr allocator st value
  | .pop => pop allocator st
  | .clear => (.success, { st with vector := st.vector.clear })
  | .shrink => shrink allocator st
  | .free => (.success, free allocator st)
  | .fill index value => (.success, fill allocator st index value)

/-- A call with its answer and the state it left. -/
structure Step (σ : Type) where
  call : Call
  result : Result
  after : State σ

/-- Calls, and between them whatever others do while they leave the vector's blocks alone. -/
inductive Run (p : Provider σ) : State σ → List (Step σ) → State σ → Prop where
  | nil (st : State σ) : Run p st [] st
  | call {st st' : State σ} {c : Call} {steps : List (Step σ)}
      (rest : Run p (st.call p.toCalls c).2 steps st') :
      Run p st (⟨c, (st.call p.toCalls c).1, (st.call p.toCalls c).2⟩ :: steps) st'
  | elsewhere {st st' : State σ} {heap : σ} {others : List Block} {steps : List (Step σ)}
      (held : p.holds heap (st.vector.blocks (st.mem p) ++ others))
      (kept : Keeps (st.vector.blocks (st.mem p)) (st.mem p) (p.bytes heap))
      (rest : Run p { st with heap := heap } steps st') : Run p st steps st'

/-- A plain list answers the calls of a run. -/
inductive ServesRun : Elements → List (Step σ) → Elements → Prop where
  | nil (q : Elements) : ServesRun q [] q
  | cons {q q' q'' : Elements} {step : Step σ} {steps : List (Step σ)}
      (one : Serves q step.call step.result q') (rest : ServesRun q' steps q'') :
      ServesRun q (step :: steps) q''

/-! ## The vector is the list -/

variable {p : Provider σ} {st st' : State σ} {q : Elements}

/-- The vector holds its blocks and its elements are those of the list. -/
def Represents (p : Provider σ) (st : State σ) (q : Elements) : Prop :=
  st.vector.elementSize = q.elementSize ∧ ∃ others, Sound p st q.items others

theorem element_eq_bytesBehind (h : st.vector.elementSize = q.elementSize) (value : Nat → UInt8) :
    st.vector.element value = q.bytesBehind value := by
  rw [BucketVector.element, Elements.bytesBehind, h]

/-- A client's write, wherever the index is. -/
theorem Sound.fill {items : List (List UInt8)} {others : List Block} (h : Sound p st items others)
    (index : Nat) (value : Nat → UInt8) :
    Sound p (fill p.toCalls st index value) (items.set index (st.vector.element value)) others ∧
      Stays p st (Vector.fill p.toCalls st index value) items.length [index] := by
  unfold Vector.fill
  rw [h.filled.size]
  split
  · rename_i hlt
    have hlen : (st.vector.element value).length = st.vector.elementSize := by
      simp [BucketVector.element]
    have hput := h.put hlt hlen
    rw [← h.get_eq_place hlt] at hput
    exact hput
  · rename_i hle
    rw [List.set_eq_of_length_le (Nat.le_of_not_lt hle)]
    exact ⟨h, Stays.refl p st _ _⟩

theorem Sound.call_pop_nil {others : List Block} (h : Sound p st [] others) :
    st.call p.toCalls .pop = (.errorArrayIndexOutOfBounds, st) := if_pos h.filled.size

/-- A call answers as the list does. -/
theorem Represents.call (h : Represents p st q) (c : Call) :
    ∃ q', Serves q c (st.call p.toCalls c).1 q' ∧ Represents p (st.call p.toCalls c).2 q' := by
  obtain ⟨hsize, others, hsound⟩ := h
  cases c with
  | init bucketCapacityLog2 indexGrowStepSize elementSize =>
      by_cases hok : (Vector.init st.vector bucketCapacityLog2 indexGrowStepSize elementSize).1 =
          .success
      · obtain ⟨hinit, helem⟩ := init_sound (v := st.vector) hsound.holding.held hok
        refine ⟨.empty elementSize, ?_, helem, _, hinit⟩
        simp only [State.call, hok]
        exact .init _ _ _
      · -- init looks at its parameters before it writes
        have hrefused : Vector.init st.vector bucketCapacityLog2 indexGrowStepSize elementSize =
            (.errorInvalidParam, st.vector) := by
          unfold Vector.init at hok ⊢
          split
          · rfl
          · rename_i hparam
            rw [if_neg hparam] at hok
            exact absurd rfl hok
        simp only [State.call, hrefused]
        exact ⟨q, .initRefused _ _ _, hsize, others, hsound⟩
  | reserve elementCount =>
      obtain ⟨hvalid, hsound', hstay⟩ := hsound.reserve elementCount
      exact ⟨q, .reserve _ hvalid, hstay.elementSize.trans hsize, others, hsound'⟩
  | emplace outSlot =>
      cases outSlot with
      | false => exact ⟨q, .emplaceNull, hsize, others, hsound⟩
      | true =>
          obtain ⟨hstay, hcase⟩ := hsound.emplace
          have hsize' := hstay.elementSize.trans hsize
          rcases hcase with ⟨herr, hvalid, hsound'⟩ | ⟨hok, -, hsound'⟩
          · exact ⟨q, .emplaceRefused herr hvalid, hsize', others, hsound'⟩
          · refine ⟨q.append _ ((Bytes.length_read _ _ _).trans hsize'), ?_, hsize',
              others, hsound'⟩
            simp only [State.call, hok]
            exact .emplace _ _
  | pushPtr value =>
      cases value with
      | none => exact ⟨q, .pushNull, hsize, others, hsound⟩
      | some value =>
          obtain ⟨hstay, hcase⟩ := hsound.pushPtr value
          have hsize' := hstay.elementSize.trans hsize
          rw [element_eq_bytesBehind hsize] at hcase
          rcases hcase with ⟨herr, hvalid, hsound'⟩ | ⟨hok, hsound'⟩
          · exact ⟨q, .pushRefused _ herr hvalid, hsize', others, hsound'⟩
          · refine ⟨q.append _ (q.length_bytesBehind value), ?_, hsize', others, hsound'⟩
            simp only [State.call, hok]
            exact .push value
  | pop =>
      by_cases hnil : q.items = []
      · rw [(hnil ▸ hsound : Sound p st [] others).call_pop_nil]
        exact ⟨q, .popEmpty hnil, hsize, others, hsound⟩
      · obtain ⟨hok, hsound', hstay⟩ := hsound.pop hnil
        refine ⟨q.dropLast, ?_, (hstay 0).elementSize.trans hsize, others, hsound'⟩
        simp only [State.call, hok]
        exact .pop hnil
  | clear => exact ⟨.empty q.elementSize, .clear, hsize, others, hsound.clear⟩
  | shrink =>
      obtain ⟨hvalid, hsound', hstay⟩ := hsound.shrink
      exact ⟨q, .shrink hvalid, hstay.elementSize.trans hsize, others, hsound'⟩
  | free =>
      obtain ⟨hsound', helem⟩ := hsound.free
      exact ⟨.empty q.elementSize, .free, helem.trans hsize, others, hsound'⟩
  | fill index value =>
      obtain ⟨hsound', hstay⟩ := hsound.fill index value
      rw [element_eq_bytesBehind hsize] at hsound'
      exact ⟨_, .fill index value, hstay.elementSize.trans hsize, others, hsound'⟩

/-- What others do to the allocator leaves the list. -/
theorem Represents.elsewhere (h : Represents p st q) {heap : σ} {others : List Block}
    (hheld : p.holds heap (st.vector.blocks (st.mem p) ++ others))
    (hkept : Keeps (st.vector.blocks (st.mem p)) (st.mem p) (p.bytes heap)) :
    Represents p { st with heap := heap } q ∧
      Stays p st { st with heap := heap } q.items.length [] := by
  obtain ⟨hsize, others₀, hsound⟩ := h
  obtain ⟨hsound', hstay⟩ := hsound.elsewhere hheld hkept
  exact ⟨⟨hsize, others, hsound'⟩, hstay⟩

theorem Represents.isList (h : Represents p st q) : IsList p st q.items := by
  obtain ⟨-, others, hsound⟩ := h
  exact hsound.isList

/-- A run answers as the list does. -/
theorem Represents.run {steps : List (Step σ)} (h : Represents p st q) (hrun : Run p st steps st') :
    (∃ q', ServesRun q steps q' ∧ Represents p st' q') ∧
      ∀ step ∈ steps, step.result ≠ .errorInvalidState ∧
        step.after.vector.isStateValid = true := by
  induction hrun generalizing q with
  | nil st => exact ⟨⟨q, .nil q, h⟩, fun step hstep => absurd hstep List.not_mem_nil⟩
  | @call st st' c steps rest ih =>
      obtain ⟨q', hserves, h'⟩ := h.call c
      obtain ⟨⟨q'', hrest, h''⟩, hsteps⟩ := ih h'
      refine ⟨⟨q'', .cons hserves hrest, h''⟩, fun step hstep => ?_⟩
      rcases List.mem_cons.mp hstep with rfl | hstep
      · exact ⟨hserves.valid, h'.isList.valid⟩
      · exact hsteps step hstep
  | elsewhere held kept rest ih => exact ih (h.elsewhere held kept).1

/-- From a vector that init accepted, every run answers as a plain list does and leaves the vector
showing that list; no call answers that the state is invalid, and one that fails leaves the
elements as they are. -/
theorem vector_is_list (p : Provider σ) (v : BucketVector)
    (bucketCapacityLog2 indexGrowStepSize elementSize : Nat) {s : σ} {others : List Block}
    (hheld : p.holds s others)
    (hok : (init v bucketCapacityLog2 indexGrowStepSize elementSize).1 = .success)
    {steps : List (Step σ)} {st : State σ}
    (hrun : Run p ⟨(init v bucketCapacityLog2 indexGrowStepSize elementSize).2, s⟩ steps st) :
    ∃ q, ServesRun (.empty elementSize) steps q ∧ st.vector.elementSize = q.elementSize ∧
      IsList p st q.items ∧
      (∀ step ∈ steps, step.result ≠ .errorInvalidState ∧ step.after.vector.isStateValid = true) ∧
      ∀ c, (st.call p.toCalls c).1.isError = true → IsList p (st.call p.toCalls c).2 q.items := by
  obtain ⟨hinit, helem⟩ := init_sound hheld hok
  have hstart : Represents p ⟨(init v bucketCapacityLog2 indexGrowStepSize elementSize).2, s⟩
      (.empty elementSize) := ⟨helem, others, hinit⟩
  obtain ⟨⟨q, hserves, hq⟩, hsteps⟩ := hstart.run hrun
  refine ⟨q, hserves, hq.1, hq.isList, hsteps, fun c herr => ?_⟩
  obtain ⟨q', hone, hq'⟩ := hq.call c
  rw [hone.failed herr] at hq'
  exact hq'.isList

/-- Carry out calls with nothing between them. -/
def State.run (allocator : Calls σ) (st : State σ) : List Call → List (Step σ) × State σ
  | [] => ([], st)
  | c :: calls =>
    let r := st.call allocator c
    let rest := r.2.run allocator calls
    (⟨c, r.1, r.2⟩ :: rest.1, rest.2)

theorem Run.of_calls (p : Provider σ) (st : State σ) (calls : List Call) :
    Run p st (st.run p.toCalls calls).1 (st.run p.toCalls calls).2 := by
  induction calls generalizing st with
  | nil => exact .nil st
  | cons c calls ih => exact .call (ih _)

/-- A vector of one-byte elements, two to a bucket, over an arena of 48 bytes. -/
def sampleVector : State (Heap × Nat) :=
  ⟨(init ⟨0, 0, 0, 0, 0, 0, 0, 0, 0, 0⟩ 1 1 1).2, (lentArena 48, 0)⟩

theorem lentArena_48_holds : (Provider.ofArena noHost).holds (lentArena 48, 0) [] :=
  lentArena_sound (by decide) (by decide) (by decide)

/-- Pushes until the arena has no room for a larger index array, pops, and a shrink. -/
def sampleCalls : List Call :=
  [.pushPtr (some fun _ => 1), .pushPtr (some fun _ => 2), .pushPtr (some fun _ => 3),
    .emplace true,
    .pushPtr (some fun _ => 5), .pop, .pop, .shrink, .fill 0 fun _ => 7]

/-- A push is refused for want of memory, and the vector still shows its list. -/
theorem vector_is_list_sample :
    ((sampleVector.run (Provider.ofArena noHost).toCalls sampleCalls).1.map Step.result =
      [.success, .success, .success, .success, .errorOutOfMemory, .success, .success, .success,
        .success]) ∧
    ∃ q, ServesRun (.empty 1) (sampleVector.run (Provider.ofArena noHost).toCalls sampleCalls).1 q ∧
      IsList (Provider.ofArena noHost)
        (sampleVector.run (Provider.ofArena noHost).toCalls sampleCalls).2 q.items := by
  refine ⟨by decide +kernel, ?_⟩
  obtain ⟨q, hserves, -, hlist, -⟩ := vector_is_list (Provider.ofArena noHost)
    ⟨0, 0, 0, 0, 0, 0, 0, 0, 0, 0⟩ 1 1 1 lentArena_48_holds (by decide)
    (Run.of_calls (Provider.ofArena noHost) sampleVector sampleCalls)
  exact ⟨q, hserves, hlist⟩

/-! ## Elements stay where they are -/

/-- The calls that remove no element but the last. -/
def Call.keeps : Call → Bool
  | .reserve _ | .emplace _ | .pushPtr _ | .pop | .shrink | .fill _ _ => true
  | .init _ _ _ | .clear | .free => false

/-- The elements a call writes through their pointers. -/
def Call.written : Call → List Nat
  | .fill index _ => [index]
  | _ => []

/-- The smallest size in a run. -/
def lowest (st : State σ) : List (Step σ) → Nat
  | [] => st.vector.size
  | step :: steps => min st.vector.size (lowest step.after steps)

theorem lowest_le (st : State σ) (steps : List (Step σ)) : lowest st steps ≤ st.vector.size := by
  cases steps with
  | nil => exact Nat.le_refl _
  | cons step steps => exact Nat.min_le_left _ _

/-- What others do does not change the size. -/
theorem lowest_elsewhere (st : State σ) (heap : σ) (steps : List (Step σ)) :
    lowest { st with heap := heap } steps = lowest st steps := by
  cases steps with
  | nil => rfl
  | cons step steps => rfl

theorem lowest_le_last {p : Provider σ} {st st' : State σ} {steps : List (Step σ)}
    (hrun : Run p st steps st') : lowest st steps ≤ st'.vector.size := by
  induction hrun with
  | nil st => exact Nat.le_refl _
  | call rest ih => exact Nat.le_trans (Nat.min_le_right _ _) ih
  | @elsewhere st st' heap others steps held kept rest ih =>
      rw [← lowest_elsewhere st heap]
      exact ih

/-- A call that keeps elements keeps those it does not remove where they are. -/
theorem Represents.call_stays (h : Represents p st q) {c : Call} (hc : c.keeps = true) :
    Stays p st (st.call p.toCalls c).2 st.vector.size c.written := by
  obtain ⟨-, others, hsound⟩ := h
  rw [hsound.filled.size]
  cases c with
  | init bucketCapacityLog2 indexGrowStepSize elementSize => cases hc
  | clear => cases hc
  | free => cases hc
  | reserve elementCount => exact (hsound.reserve elementCount).2.2
  | emplace outSlot =>
      cases outSlot with
      | false => exact Stays.refl p st _ _
      | true => exact hsound.emplace.1
  | pushPtr value =>
      cases value with
      | none => exact Stays.refl p st _ _
      | some value => exact (hsound.pushPtr value).1
  | pop =>
      by_cases hnil : q.items = []
      · rw [(hnil ▸ hsound : Sound p st [] others).call_pop_nil]
        exact Stays.refl p st _ _
      · exact (hsound.pop hnil).2.2 _
  | shrink => exact hsound.shrink.2.2
  | fill index value => exact (hsound.fill index value).2

/-- Over a run, the elements below its smallest size stay. -/
theorem Represents.run_stays {steps : List (Step σ)} (h : Represents p st q)
    (hrun : Run p st steps st') (hkeeps : ∀ step ∈ steps, step.call.keeps = true) :
    Stays p st st' (lowest st steps) (steps.flatMap fun step => step.call.written) := by
  induction hrun generalizing q with
  | nil st => exact Stays.refl p st _ _
  | @call st st' c steps rest ih =>
      have hc := hkeeps _ List.mem_cons_self
      obtain ⟨q', -, h'⟩ := h.call c
      have hlater := ih h' fun step hstep => hkeeps step (List.mem_cons_of_mem _ hstep)
      rw [List.flatMap_cons]
      exact ((h.call_stays hc).mono (Nat.min_le_left _ _)).trans
        (hlater.mono (Nat.min_le_right _ _))
  | @elsewhere st st' heap others steps held kept rest ih =>
      obtain ⟨h', hstay⟩ := h.elsewhere held kept
      have hlater := ih h' hkeeps
      have hsize := h.isList.size
      rw [lowest_elsewhere] at hlater
      exact (hstay.mono (hsize ▸ lowest_le st steps)).trans hlater

/-- In a run of pushes, reserves, shrinks and pops from a state that can be reached, every index
below the smallest size has the bucket pointer and the offset it had, and the bytes it had unless
the client wrote them. -/
theorem elements_stay (p : Provider σ) (v : BucketVector)
    (bucketCapacityLog2 indexGrowStepSize elementSize : Nat) {s : σ} {others : List Block}
    (hheld : p.holds s others)
    (hok : (init v bucketCapacityLog2 indexGrowStepSize elementSize).1 = .success)
    {before steps : List (Step σ)} {st st' : State σ}
    (hreached : Run p ⟨(init v bucketCapacityLog2 indexGrowStepSize elementSize).2, s⟩ before st)
    (hrun : Run p st steps st') (hkeeps : ∀ step ∈ steps, step.call.keeps = true) :
    ∀ i < lowest st steps,
      st'.vector.bucketData (st'.mem p) (i / st'.vector.perBucket) =
        st.vector.bucketData (st.mem p) (i / st.vector.perBucket) ∧
      i % st'.vector.perBucket * st'.vector.elementSize =
        i % st.vector.perBucket * st.vector.elementSize ∧
      st'.vector.get (st'.mem p) i = st.vector.get (st.mem p) i ∧
      ((∀ step ∈ steps, i ∉ step.call.written) →
        (st'.mem p).read (st'.vector.get (st'.mem p) i) st'.vector.elementSize =
          (st.mem p).read (st.vector.get (st.mem p) i) st.vector.elementSize) := by
  obtain ⟨hinit, helem⟩ := init_sound hheld hok
  have hstart : Represents p ⟨(init v bucketCapacityLog2 indexGrowStepSize elementSize).2, s⟩
      (.empty elementSize) := ⟨helem, others, hinit⟩
  obtain ⟨⟨q, -, hq⟩, -⟩ := hstart.run hreached
  obtain ⟨⟨q', -, hq'⟩, -⟩ := hq.run hrun
  have hstays := hq.run_stays hrun hkeeps
  intro i hi
  -- below the sizes of both states the bounds check of get passes
  have hplace : st.vector.get (st.mem p) i = st.vector.place (st.mem p) i := by
    obtain ⟨-, others, hsound⟩ := hq
    exact hsound.get_eq_place (hsound.filled.size ▸ Nat.lt_of_lt_of_le hi (lowest_le st steps))
  have hplace' : st'.vector.get (st'.mem p) i = st'.vector.place (st'.mem p) i := by
    obtain ⟨-, others, hsound⟩ := hq'
    exact hsound.get_eq_place (hsound.filled.size ▸ Nat.lt_of_lt_of_le hi (lowest_le_last hrun))
  rw [hplace, hplace']
  refine ⟨?_, ?_, hstays.place hi, fun hout => hstays.read hi fun hmem => ?_⟩
  · rw [hstays.perBucket]
    exact hstays.slot i hi
  · rw [hstays.perBucket, hstays.elementSize]
  · obtain ⟨step, hstep, hin⟩ := List.mem_flatMap.mp hmem
    exact hout step hstep hin

/-- The first element is where it was after the index array moved and buckets went. -/
theorem elements_stay_sample :
    let st := (sampleVector.run (Provider.ofArena noHost).toCalls
      [.pushPtr (some fun _ => 1), .pushPtr (some fun _ => 2)]).2
    let later := (st.run (Provider.ofArena noHost).toCalls
      [.pushPtr (some fun _ => 3), .pop, .pop, .shrink]).2
    later.vector.buckets ≠ st.vector.buckets ∧
      later.vector.get (later.mem (Provider.ofArena noHost)) 0 =
        st.vector.get (st.mem (Provider.ofArena noHost)) 0 := by
  refine ⟨by decide +kernel, ?_⟩
  exact (elements_stay (Provider.ofArena noHost) ⟨0, 0, 0, 0, 0, 0, 0, 0, 0, 0⟩ 1 1 1
    lentArena_48_holds (by decide) (Run.of_calls _ sampleVector _) (Run.of_calls _ _ _)
    (by decide +kernel) 0 (by decide +kernel)).2.2.1

end

end Arnm.Vector
