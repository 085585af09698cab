import Arnm.Lib.Sorted

set_option autoImplicit false

/-! # Buffers of a fixed size

A buffer is filled from its first entry on and never holds more than `size` entries: a write past
its end is refused. A loop that fills a buffer is the list function that says what it writes,
carried through the buffer; `Fills` ties the two. A loop whose fuel runs out is refused as well.
-/

/-- The filled part of a buffer of `size` entries. -/
structure Buffer (α : Type) (size : Nat) where
  entries : List α
  fits : entries.length ≤ size

namespace Buffer

variable {α τ : Type} {size : Nat}

/-- The count starts at 0. -/
def empty (α : Type) (size : Nat) : Buffer α size := ⟨[], Nat.zero_le size⟩

/-- What fits into the whole buffer fits behind no entries. -/
theorem empty_room {n : Nat} (h : n ≤ size) : (empty α size).entries.length + n ≤ size := by
  rw [empty, List.length_nil, Nat.zero_add]
  exact h

theorem fits_append {b : Buffer α size} (h : b.entries.length < size) (value : α) :
    (b.entries ++ [value]).length ≤ size := by
  rw [List.length_append, List.length_singleton]
  exact h

/-- `buffer[count++] = value` -/
def put (b : Buffer α size) (value : α) : Option (Buffer α size) :=
  if h : b.entries.length < size then some ⟨b.entries ++ [value], fits_append h value⟩ else none

/-- `buffer[count] = value; count += moves`: the entry is written whether it stays or not. -/
def putIf (b : Buffer α size) (moves : Bool) (value : α) : Option (Buffer α size) :=
  (b.put value).map fun filled => if moves then filled else b

/-! ## What a loop leaves -/

/-- The loop went through, with `l` behind what the buffer held. -/
def Fills (b : Buffer α size) (l : List α) (r : Option (Buffer α size)) : Prop :=
  ∃ filled, r = some filled ∧ filled.entries = b.entries ++ l

variable {b : Buffer α size} {l l' : List α} {r : Option (Buffer α size)} {value : α}

theorem fills_nil (b : Buffer α size) : b.Fills [] (some b) := ⟨b, rfl, (List.append_nil _).symm⟩

theorem put_fills (h : b.entries.length < size) (value : α) : b.Fills [value] (b.put value) := by
  rw [put, dif_pos h]
  exact ⟨_, rfl, rfl⟩

/-- A written entry stays only where the count moves, but needs its room in any case. -/
theorem putIf_fills (h : b.entries.length < size) (moves : Bool) (value : α) :
    b.Fills (if moves then [value] else []) (b.putIf moves value) := by
  obtain ⟨filled, hput, hentries⟩ := put_fills h value
  rw [putIf, hput, Option.map_some]
  cases moves with
  | true => exact ⟨filled, rfl, hentries⟩
  | false => exact fills_nil b

/-- One part of a loop after the other. -/
theorem Fills.bind (h : b.Fills l r) {next : Buffer α size → Option (Buffer α size)}
    (hnext : ∀ filled : Buffer α size, filled.entries = b.entries ++ l →
      filled.Fills l' (next filled)) : b.Fills (l ++ l') (r.bind next) := by
  obtain ⟨filled, rfl, hentries⟩ := h
  obtain ⟨filled', hrun, hentries'⟩ := hnext filled hentries
  refine ⟨filled', hrun, ?_⟩
  rw [hentries', hentries, List.append_assoc]

/-- A write and the loop that goes on behind it. -/
theorem Fills.cons (h : b.entries.length + (value :: l).length ≤ size)
    {next : Buffer α size → Option (Buffer α size)}
    (hnext : ∀ filled : Buffer α size, filled.entries.length + l.length ≤ size →
      filled.Fills l (next filled)) : b.Fills (value :: l) ((b.put value).bind next) := by
  rw [List.length_cons] at h
  have hput := put_fills (b := b) (by omega) value
  refine hput.bind fun filled hentries => hnext filled ?_
  rw [hentries, List.length_append, List.length_singleton]
  omega

/-- What is done with the entries of a buffer filled from its start. -/
theorem Fills.map {γ : Type} (h : (empty α size).Fills l r) (f : List α → γ) :
    (r.map fun filled => f filled.entries) = some (f l) := by
  obtain ⟨filled, rfl, hentries⟩ := h
  rw [Option.map_some, hentries]
  rfl

/-! ## Loops over one list -/

/-- Parts written one after the other, each by a loop of its own. -/
theorem fills_foldlM {write : Buffer α size → τ → Option (Buffer α size)} {part : τ → List α}
    {xs : List τ} (hpart : ∀ x ∈ xs, ∀ b : Buffer α size,
      b.entries.length + (part x).length ≤ size → b.Fills (part x) (write b x))
    (h : b.entries.length + (xs.flatMap part).length ≤ size) :
    b.Fills (xs.flatMap part) (xs.foldlM write b) := by
  induction xs generalizing b with
  | nil => exact fills_nil b
  | cons x xs ih =>
      rw [List.flatMap_cons, List.length_append] at h
      rw [List.flatMap_cons, List.foldlM_cons]
      have hx := hpart x List.mem_cons_self b (by omega)
      refine hx.bind fun filled hentries => ih (fun y hy => hpart y (List.mem_cons_of_mem x hy)) ?_
      rw [hentries, List.length_append]
      omega

/-- `for (...) { buffer[count++] = value; }` -/
def putAll (values : List α) (b : Buffer α size) : Option (Buffer α size) := values.foldlM put b

theorem putAll_fills {values : List α} (h : b.entries.length + values.length ≤ size) :
    b.Fills values (b.putAll values) := by
  unfold putAll
  induction values generalizing b with
  | nil => exact fills_nil b
  | cons value values ih =>
      rw [List.foldlM_cons]
      exact Fills.cons h fun filled hroom => ih hroom

/-- `for (...) { if (p(value)) { buffer[count++] = value; } }` -/
def putWhere (p : α → Bool) (values : List α) (b : Buffer α size) : Option (Buffer α size) :=
  values.foldlM (fun b value => if p value then b.put value else some b) b

theorem putWhere_fills {p : α → Bool} {values : List α}
    (h : b.entries.length + (values.filter p).length ≤ size) :
    b.Fills (values.filter p) (b.putWhere p values) := by
  unfold putWhere
  induction values generalizing b with
  | nil => exact fills_nil b
  | cons value values ih =>
      rw [List.foldlM_cons]
      cases hp : p value with
      | true =>
          rw [List.filter_cons_of_pos hp] at h ⊢
          exact Fills.cons h fun filled hroom => ih hroom
      | false =>
          rw [List.filter_cons_of_neg (by rw [hp]; decide)] at h ⊢
          exact ih h

/-- `for (...) { buffer[count] = value; count += p(value); }` -/
def storeWhere (p : α → Bool) (values : List α) (b : Buffer α size) : Option (Buffer α size) :=
  values.foldlM (fun b value => b.putIf (p value) value) b

/-- Written without a branch: with room for every value, the dropped ones as well, no write is
refused. -/
theorem storeWhere_fills {p : α → Bool} {values : List α}
    (h : b.entries.length + values.length ≤ size) :
    b.Fills (values.filter p) (b.storeWhere p values) := by
  unfold storeWhere
  induction values generalizing b with
  | nil => exact fills_nil b
  | cons value values ih =>
      rw [List.length_cons] at h
      rw [List.foldlM_cons, List.filter_cons]
      have hput := putIf_fills (b := b) (by omega) (p value) value
      have hstep := hput.bind fun filled hentries => ih (b := filled) <| by
        have hle : (if p value then [value] else []).length ≤ 1 := by split <;> simp
        rw [hentries, List.length_append]
        omega
      cases hp : p value with
      | true =>
          rw [hp] at hstep
          exact hstep
      | false =>
          rw [hp] at hstep
          exact hstep

-- the last value is dropped, but it is written behind a full buffer
example : (empty Nat 2).storeWhere (fun value => decide (value < 7)) [5, 6, 7] = none := by
  simp [storeWhere, putIf, put, empty]

/-! ## Reading by index -/

/-- What a loop over the indices from `begin` to `endAt` reads out of `l`. -/
def readOut (l : List α) (default : α) (begin endAt : Nat) : List α :=
  (List.range' begin (endAt - begin)).map fun i => l.getD i default

/-- Inside the list the loop reads the slice. -/
theorem readOut_eq {l : List α} {default : α} {begin endAt : Nat} (h : endAt ≤ l.length) :
    readOut l default begin endAt = (l.drop begin).take (endAt - begin) := by
  unfold readOut
  apply List.ext_getElem
  · rw [List.length_map, List.length_range', List.length_take, List.length_drop]
    omega
  · intro i h1 h2
    rw [List.length_map, List.length_range'] at h1
    rw [List.getElem_map, List.getElem_range', List.getElem_take, List.getElem_drop, Nat.one_mul]
    exact (List.getElem_eq_getD default).symm

/-! ## Walks through two sorted lists -/

section Merges

variable [LinearOrder α] {xs ys : List α}

/-- `Sorted.common`, written into a buffer. -/
def common : Nat → List α → List α → Buffer α size → Option (Buffer α size)
  | 0, _ :: _, _ :: _, _ => none
  | fuel + 1, x :: xs, y :: ys, b =>
    if x < y then common fuel xs (y :: ys) b
    else if y < x then common fuel (x :: xs) ys b
    else (b.put x).bind (common fuel xs ys)
  | _, _, _, b => some b

theorem common_fills (fuel : Nat) (hfuel : xs.length + ys.length ≤ fuel)
    (h : b.entries.length + (Sorted.common fuel xs ys).length ≤ size) :
    b.Fills (Sorted.common fuel xs ys) (common fuel xs ys b) := by
  induction fuel generalizing xs ys b with
  | zero =>
      -- without a round left there is nothing left to merge
      obtain rfl : xs = [] := List.length_eq_zero_iff.mp (by omega)
      exact fills_nil b
  | succ fuel ih =>
      cases xs with
      | nil => cases ys <;> exact fills_nil b
      | cons x xs =>
          cases ys with
          | nil => exact fills_nil b
          | cons y ys =>
              simp only [List.length_cons] at hfuel
              unfold Sorted.common at h ⊢
              unfold common
              by_cases hlt : x < y
              · rw [if_pos hlt] at h ⊢
                rw [if_pos hlt]
                exact ih (by simp only [List.length_cons]; omega) h
              rw [if_neg hlt] at h ⊢
              rw [if_neg hlt]
              by_cases hgt : y < x
              · rw [if_pos hgt] at h ⊢
                rw [if_pos hgt]
                exact ih (by simp only [List.length_cons]; omega) h
              -- equal heads: the entry is written once, and both lists move on
              rw [if_neg hgt] at h ⊢
              rw [if_neg hgt]
              exact Fills.cons h fun filled hroom => ih (by omega) hroom

/-- `Sorted.either`, written into a buffer. -/
def either : Nat → List α → List α → Buffer α size → Option (Buffer α size)
  | 0, _ :: _, _ :: _, _ => none
  | fuel + 1, x :: xs, y :: ys, b =>
    if x < y then (b.put x).bind (either fuel xs (y :: ys))
    else if y < x then (b.put y).bind (either fuel (x :: xs) ys)
    else (b.put x).bind (either fuel xs ys)
  | _, xs, [], b => b.putAll xs
  | _, [], ys, b => b.putAll ys

theorem either_fills (fuel : Nat) (hfuel : xs.length + ys.length ≤ fuel)
    (h : b.entries.length + (Sorted.either fuel xs ys).length ≤ size) :
    b.Fills (Sorted.either fuel xs ys) (either fuel xs ys b) := by
  induction fuel generalizing xs ys b with
  | zero =>
      obtain rfl : xs = [] := List.length_eq_zero_iff.mp (by omega)
      obtain rfl : ys = [] := List.length_eq_zero_iff.mp (by omega)
      exact fills_nil b
  | succ fuel ih =>
      cases xs with
      | nil =>
          -- one list is at its end: the rest of the other follows
          cases ys with
          | nil => exact fills_nil b
          | cons y ys => exact putAll_fills h
      | cons x xs =>
          cases ys with
          | nil => exact putAll_fills h
          | cons y ys =>
              simp only [List.length_cons] at hfuel
              unfold Sorted.either at h ⊢
              unfold either
              by_cases hlt : x < y
              · rw [if_pos hlt] at h ⊢
                rw [if_pos hlt]
                exact Fills.cons h fun filled hroom =>
                  ih (by simp only [List.length_cons]; omega) hroom
              rw [if_neg hlt] at h ⊢
              rw [if_neg hlt]
              by_cases hgt : y < x
              · rw [if_pos hgt] at h ⊢
                rw [if_pos hgt]
                exact Fills.cons h fun filled hroom =>
                  ih (by simp only [List.length_cons]; omega) hroom
              -- equal heads: the entry is written once, and both lists move on
              rw [if_neg hgt] at h ⊢
              rw [if_neg hgt]
              exact Fills.cons h fun filled hroom => ih (by omega) hroom

/-- `Sorted.kept`, written into a buffer. -/
def kept (keep : Bool) : List α → List α → Buffer α size → Option (Buffer α size)
  | [], _, b => some b
  | x :: xs, ys, b =>
    let ys := ys.dropWhile (· < x)
    let has := decide (ys.head? = some x)
    if has = keep then (b.put x).bind (kept keep xs ys) else kept keep xs ys b

theorem kept_fills (keep : Bool) (h : b.entries.length + (Sorted.kept keep xs ys).length ≤ size) :
    b.Fills (Sorted.kept keep xs ys) (kept keep xs ys b) := by
  induction xs generalizing ys b with
  | nil => exact fills_nil b
  | cons x xs ih =>
      unfold Sorted.kept at h ⊢
      unfold kept
      simp only at h ⊢
      by_cases hkeep : decide ((ys.dropWhile (· < x)).head? = some x) = keep
      · rw [if_pos hkeep] at h ⊢
        rw [if_pos hkeep]
        exact Fills.cons h fun filled hroom => ih hroom
      · rw [if_neg hkeep] at h ⊢
        rw [if_neg hkeep]
        exact ih h

end Merges

end Buffer
