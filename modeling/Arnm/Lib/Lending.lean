import Mathlib.Tactic

set_option autoImplicit false

/-! # Lenders

A lender hands out blocks of a size and takes them back; its client owes it the loans it has not
given back. `Accounts` is about a predicate that keeps the list of them along with the lender's
state, and `Balanced` about a client that went from one list to another and left the rest alone.
A lender that is `recorded` writes down what it lent and what it got back.
-/

namespace Lending

/-- What a client can do: ask for a block of a size, and give a block back with its size. -/
structure Lender (ε σ : Type) where
  alloc : Nat → σ → Except ε Nat × σ
  free : Nat → Nat → σ → σ

/-- A block with the size it was asked for. -/
structure Loan where
  addr : Nat
  size : Nat
  deriving DecidableEq, Repr

variable {ε σ : Type}

/-- Every request is granted. -/
def Lender.Grants (lender : Lender ε σ) : Prop :=
  ∀ size s, ∃ addr, (lender.alloc size s).1 = .ok addr

theorem Lender.Grants.ne_error {lender : Lender ε σ} (h : lender.Grants) {size : Nat}
    {s : σ} {e : ε} :
    (lender.alloc size s).1 ≠ .error e := by
  obtain ⟨addr, ha⟩ := h size s
  rw [ha]
  exact fun hc => by cases hc

/-- A lender that answers its requests one after the other; its state is their number. -/
def Lender.answering (answer : Nat → Except ε Nat) : Lender ε Nat where
  alloc _ asked := (answer asked, asked + 1)
  free _ _ asked := asked

/-! ## Accounts -/

/-- `owes s loans` is kept by the lender: a granted request adds a loan, a refused one adds none,
and a loan given back is taken off. -/
structure Accounts (lender : Lender ε σ) (owes : σ → List Loan → Prop) : Prop where
  perm : ∀ {s loans loans'}, loans.Perm loans' → owes s loans → owes s loans'
  granted : ∀ {s loans size addr}, (lender.alloc size s).1 = .ok addr → owes s loans →
    owes (lender.alloc size s).2 (⟨addr, size⟩ :: loans)
  refused : ∀ {s loans size e}, (lender.alloc size s).1 = .error e → owes s loans →
    owes (lender.alloc size s).2 loans
  returned : ∀ {s loans addr size}, owes s (⟨addr, size⟩ :: loans) →
    owes (lender.free addr size s) loans

/-- From `s` to `s'` the client exchanged the loans `before` for `after`, whatever else it owes:
every account of the lender says so. -/
def Balanced (lender : Lender ε σ) (s : σ) (before : List Loan) (s' : σ)
    (after : List Loan) : Prop :=
  ∀ owes, Accounts lender owes → ∀ rest, owes s (before ++ rest) → owes s' (after ++ rest)

namespace Balanced

variable {L : Lender ε σ} {s s' s'' : σ} {l l' l'' : List Loan}

theorem refl (s : σ) (l : List Loan) : Balanced L s l s l := fun _ _ _ h => h

theorem trans (h : Balanced L s l s' l') (h' : Balanced L s' l' s'' l'') :
    Balanced L s l s'' l'' := fun owes acc rest ho => h' owes acc rest (h owes acc rest ho)

/-- Loans that were not touched come along. -/
theorem frame (h : Balanced L s l s' l') (k : List Loan) :
    Balanced L s (l ++ k) s' (l' ++ k) := fun owes acc rest ho => by
  rw [List.append_assoc] at ho ⊢
  exact h owes acc _ ho

theorem of_perm (s : σ) (hp : l.Perm l') : Balanced L s l s l' := fun _ acc rest ho =>
  acc.perm (hp.append_right rest) ho

theorem granted {size addr : Nat} (h : (L.alloc size s).1 = .ok addr) (l : List Loan) :
    Balanced L s l (L.alloc size s).2 (⟨addr, size⟩ :: l) :=
  fun _ acc _ ho => acc.granted h ho

theorem refused {size : Nat} {e : ε} (h : (L.alloc size s).1 = .error e) (l : List Loan) :
    Balanced L s l (L.alloc size s).2 l := fun _ acc _ ho => acc.refused h ho

theorem returned (s : σ) (addr size : Nat) (l : List Loan) :
    Balanced L s (⟨addr, size⟩ :: l) (L.free addr size s) l :=
  fun _ acc _ ho => acc.returned ho

/-- All loans of a list are given back, one after the other. -/
theorem returned_all (given : List Loan) (s : σ) (l : List Loan) :
    Balanced L s (given ++ l) (given.foldl (fun s b => L.free b.addr b.size s) s) l := by
  induction given generalizing s with
  | nil => exact refl s l
  | cons b given ih => exact (returned s b.addr b.size _).trans (ih _)

end Balanced

theorem Accounts.balance {lender : Lender ε σ} {owes : σ → List Loan → Prop} {s s' : σ}
    {l l' : List Loan} (acc : Accounts lender owes) (h : Balanced lender s l s' l')
    (rest : List Loan) (ho : owes s (l ++ rest)) : owes s' (l' ++ rest) := h owes acc rest ho

/-! ## The record of a lender -/

/-- A block was lent, or came back. -/
inductive Event where
  | took (loan : Loan)
  | gave (loan : Loan)
  deriving DecidableEq, Repr

/-- The loans outstanding after the events, the youngest first; `none` once a block came back that
was not out, or not for the size it was lent for. -/
def outstanding : List Event → Option (List Loan)
  | [] => some []
  | .took loan :: events => (outstanding events).map (loan :: ·)
  | .gave loan :: events =>
    (outstanding events).bind fun out => if loan ∈ out then some (out.erase loan) else none

/-- The lender with a record of what it lent and what came back. -/
def Lender.recorded (lender : Lender ε σ) : Lender ε (σ × List Event) where
  alloc size s :=
    match lender.alloc size s.1 with
    | (.ok addr, s') => (.ok addr, s', .took ⟨addr, size⟩ :: s.2)
    | (.error e, s') => (.error e, s', s.2)
  free addr size s := (lender.free addr size s.1, .gave ⟨addr, size⟩ :: s.2)

/-- The record agrees with the account. -/
def Records (owes : σ → List Loan → Prop) (s : σ × List Event) (loans : List Loan) : Prop :=
  owes s.1 loans ∧ ∃ out, outstanding s.2 = some out ∧ out.Perm loans

theorem Accounts.recorded {lender : Lender ε σ} {owes : σ → List Loan → Prop}
    (acc : Accounts lender owes) : Accounts lender.recorded (Records owes) where
  perm hp := by
    rintro ⟨ho, out, hout, hperm⟩
    exact ⟨acc.perm hp ho, out, hout, hperm.trans hp⟩
  granted {s loans size addr} h := by
    rintro ⟨ho, out, hout, hperm⟩
    unfold Lender.recorded at h ⊢
    cases ha : lender.alloc size s.1 with
    | mk answer s' =>
        simp only [ha] at h ⊢
        cases answer with
        | error e => cases h
        | ok a =>
            cases h
            have howes := acc.granted (by rw [ha]) ho
            rw [ha] at howes
            refine ⟨howes, ⟨addr, size⟩ :: out, ?_, hperm.cons _⟩
            simp only [outstanding, hout, Option.map_some]
  refused {s loans size e} h := by
    rintro ⟨ho, hout⟩
    unfold Lender.recorded at h ⊢
    cases ha : lender.alloc size s.1 with
    | mk answer s' =>
        simp only [ha] at h ⊢
        cases answer with
        | ok a => cases h
        | error e' =>
            have howes := acc.refused (by rw [ha]) ho
            rw [ha] at howes
            exact ⟨howes, hout⟩
  returned {s loans addr size} := by
    rintro ⟨ho, out, hout, hperm⟩
    -- what is owed is what the record has outstanding, so the loan is found there
    have hmem : (⟨addr, size⟩ : Loan) ∈ out := hperm.mem_iff.mpr List.mem_cons_self
    refine ⟨acc.returned ho, out.erase ⟨addr, size⟩, ?_, ?_⟩
    · simp only [Lender.recorded, outstanding, hout, Option.bind_some, if_pos hmem]
    · have := hperm.erase ⟨addr, size⟩
      rwa [List.erase_cons_head] at this

end Lending
