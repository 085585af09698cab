import Arnm.Lib.Lending
import Arnm.Pool.Runs

set_option autoImplicit false

/-! # The pool as a lender

A client that keeps the exponents of its blocks sees the pool as a lender of blocks by exponent.
`Owes` is its account: the pool's ledger holds the client's loans, each in the grade its exponent
is served in.
-/

namespace Arnm.Pool

open Arnm.Memory Lending

/-- What the pool meets outside, request by request: the host it asks for arenas, and refusals of
its own at any time. -/
structure Surroundings where
  host : Nat → PoolHeap → Host
  refuses : Nat → PoolHeap → Bool
  fresh : ∀ n h, PoolFresh (host n h) h

/-- An answer of the pool that is not a success. -/
def refusalOf (result : Result) : Refusal :=
  if h : result.isError = true then ⟨result, h⟩ else ⟨.errorOutOfMemory, Result.isError_outOfMemory⟩

/-- The pool as its clients call it, with the number of requests so far. -/
def poolLender (world : Surroundings) : Lender Refusal (PoolHeap × Nat) where
  alloc log2 s :=
    if world.refuses s.2 s.1 then
      (.error ⟨.errorOutOfMemory, Result.isError_outOfMemory⟩, s.1, s.2 + 1)
    else
      let r := allocLog2 (world.host s.2 s.1) 0 log2 s.1
      if r.result = .success then (.ok r.buffer, r.state, s.2 + 1)
      else (.error (refusalOf r.result), r.state, s.2 + 1)
  free buffer log2 s := ((freeLog2 buffer log2 s.1).2, s.2)

/-- The block of a loan. -/
def blockOf (pool : GradedBlockPool) (loan : Loan) : PoolBlock :=
  ⟨loan.addr, gradeOf pool loan.size⟩

/-- The pool, whose smallest grade is `minLog2`, has lent exactly these loans. -/
def Owes (minLog2 : Nat) (s : PoolHeap × Nat) (loans : List Loan) : Prop :=
  s.1.pool.minLog2 = minLog2 ∧ ∃ cached, Ledger s.1 (loans.map (blockOf s.1.pool)) cached

theorem blockOf_congr {h h' : PoolHeap} (hmin : h'.pool.minLog2 = h.pool.minLog2) :
    blockOf h'.pool = blockOf h.pool := by
  funext loan
  rw [blockOf, blockOf, gradeOf, gradeOf, hmin]

/-- Each call of the pool keeps the account. -/
theorem accounts_poolLender (world : Surroundings) (minLog2 : Nat) :
    Accounts (poolLender world) (Owes minLog2) where
  perm hp := by
    rintro ⟨hmin, cached, hl⟩
    exact ⟨hmin, cached, hl.perm (hp.map _)⟩
  granted {s loans log2 addr} hok := by
    rintro ⟨hmin, cached, hl⟩
    unfold poolLender at hok ⊢
    simp only at hok ⊢
    by_cases hr : world.refuses s.2 s.1 = true
    · rw [if_pos hr] at hok
      cases hok
    rw [if_neg hr] at hok ⊢
    rcases hl.allocLog2 (world.fresh s.2 s.1) 0 log2 with ⟨herr, -⟩ | ⟨hs, hgrades, cached', hl'⟩
    · rw [if_neg (fun hs => by rw [hs] at herr; cases herr)] at hok
      cases hok
    · rw [if_pos hs] at hok ⊢
      cases hok
      refine ⟨hgrades.1.trans hmin, cached', ?_⟩
      rw [blockOf_congr hgrades.1, List.map_cons]
      exact hl'
  refused {s loans log2 e} herr := by
    rintro ⟨hmin, cached, hl⟩
    unfold poolLender at herr ⊢
    simp only at herr ⊢
    by_cases hr : world.refuses s.2 s.1 = true
    · rw [if_pos hr]
      exact ⟨hmin, cached, hl⟩
    rw [if_neg hr] at herr ⊢
    rcases hl.allocLog2 (world.fresh s.2 s.1) 0 log2 with ⟨hres, -, hl'⟩ | ⟨hs, -⟩
    · rw [if_neg (fun hs => by rw [hs] at hres; cases hres)]
      -- the chain behind the pool may have changed, its grades have not
      obtain ⟨source, hsame⟩ := allocLog2_refused hres
      have hmin' : (allocLog2 (world.host s.2 s.1) 0 log2 s.1).state.pool.minLog2
          = s.1.pool.minLog2 := by rw [hsame]
      refine ⟨hmin'.trans hmin, cached, ?_⟩
      rw [blockOf_congr hmin']
      exact hl'
    · rw [if_pos hs] at herr
      cases herr
  returned {s loans addr log2} := by
    rintro ⟨hmin, cached, hl⟩
    have hlent :
        Ledger s.1 (⟨addr, gradeOf s.1.pool log2⟩ :: loans.map (blockOf s.1.pool)) cached := hl
    obtain ⟨-, hgrades, hl'⟩ := hlent.freeLog2 List.mem_cons_self
    refine ⟨hgrades.1.trans hmin, ⟨addr, gradeOf s.1.pool log2⟩ :: cached, ?_⟩
    show Ledger (freeLog2 addr log2 s.1).2 (loans.map (blockOf (freeLog2 addr log2 s.1).2.pool)) _
    rw [List.erase_cons_head] at hl'
    rw [blockOf_congr hgrades.1]
    exact hl'

/-- The bytes of the loans, counted in whole grades. -/
def lentFor (pool : GradedBlockPool) (loans : List Loan) : Nat :=
  (loans.map fun loan => 2 ^ gradeOf pool loan.size).sum

theorem lentFor_congr {pool pool' : GradedBlockPool} (hmin : pool'.minLog2 = pool.minLog2)
    (loans : List Loan) : lentFor pool' loans = lentFor pool loans := by
  simp only [lentFor, gradeOf, hmin]

variable {minLog2 : Nat}

theorem Owes.lentBytes {s : PoolHeap × Nat} {loans : List Loan} (h : Owes minLog2 s loans) :
    s.1.pool.lentBytes = lentFor s.1.pool loans := by
  obtain ⟨-, cached, hl⟩ := h
  rw [hl.lentBytes, weight, List.map_map]
  rfl

theorem Owes.nodup {s : PoolHeap × Nat} {loans : List Loan} (h : Owes minLog2 s loans) :
    (loans.map Loan.addr).Nodup := by
  obtain ⟨-, cached, hl⟩ := h
  have hnodup := hl.laid.nodup_addr
  rw [List.map_append, List.map_map] at hnodup
  exact (List.nodup_append.mp hnodup).1

/-- What a client writes into its blocks leaves the account alone. -/
theorem Owes.write {h : PoolHeap} {asked : Nat} {loans : List Loan}
    (ho : Owes minLog2 (h, asked) loans)
    {bytes : Bytes}
    (inside : ∀ x, (∀ loan ∈ loans, ¬ (blockOf h.pool loan).room.Has x) → bytes x = h.bytes x) :
    Owes minLog2 ({ h with bytes := bytes }, asked) loans := by
  obtain ⟨hmin, cached, hl⟩ := ho
  refine ⟨hmin, cached, hl.write bytes fun x hx => inside x fun loan hloan => ?_⟩
  exact hx _ (List.mem_map_of_mem hloan)

end Arnm.Pool
