import Arnm.Roaring.Build
import Arnm.Roaring.KeyEmit

set_option autoImplicit false

/-! # Appending containers

A set that is built container by container has keys below a frontier (`Under`); appending a valid
container of a later key keeps it valid and appends the container's values. `Emits` is what the
emitters do: they append the low parts of one key, or refuse and leave the set and its loans as
they were.
-/

namespace Arnm.Roaring

open Listing Words Memory Lending

/-! ## The loans of a set -/

def Container.loan (c : Container) : Loan := ⟨c.data, c.blockLog2⟩

namespace Bitmap

/-- The block of the directory or of the sparse values. -/
def blockLoan (set : Bitmap) : List Loan :=
  set.block.toList.map fun block => ⟨block, set.directoryLog2⟩

/-- The blocks a set holds, with the exponents they were taken with. -/
def loans (set : Bitmap) : List Loan := set.blockLoan ++ set.containers.map Container.loan

@[simp] theorem loans_init : init.loans = [] := rfl

/-- A set without a block has no containers. -/
def Anchored (set : Bitmap) : Prop := set.block = none → set.containers = []

theorem Valid.anchored {set : Bitmap} (h : set.Valid) : set.Anchored := fun hb => by
  rcases h.form with hf | hf
  · exact hf.containers_eq
  · exact absurd hb hf.block_ne

end Bitmap

variable {σ : Type} {L : BlockPool σ} {s : σ}

theorem free_fst (set : Bitmap) : (free L set s).1 = Bitmap.init := by
  unfold free
  split
  · cases set.block <;> rfl
  · rfl

/-- Freeing a set gives back all its blocks. -/
theorem free_balanced {set : Bitmap} (h : set.Anchored) :
    Balanced L s set.loans (free L set s).2 [] := by
  unfold free Bitmap.loans Bitmap.blockLoan
  by_cases hs : set.isSparse = true
  · rw [if_pos hs, Bitmap.isSparse_iff.mp hs]
    cases hb : set.block with
    | none => exact Balanced.refl s []
    | some block => exact Balanced.returned s block set.directoryLog2 []
  · rw [if_neg hs]
    cases hb : set.block with
    | none => exact absurd (Bitmap.isSparse_iff.mpr (h hb)) hs
    | some block =>
        -- the containers' blocks go back first, the directory last
        have hall := Balanced.returned_all (L := L) (set.containers.map Container.loan) s
          [⟨block, set.directoryLog2⟩]
        rw [List.foldl_map] at hall
        have hperm :
            ([(⟨block, set.directoryLog2⟩ : Loan)] ++ set.containers.map Container.loan).Perm
            (set.containers.map Container.loan ++ [⟨block, set.directoryLog2⟩]) :=
          List.perm_append_comm
        exact ((Balanced.of_perm s hperm).trans hall).trans (Balanced.returned _ _ _ [])

/-! ## Pushing a container -/

/-- The directory holds the containers of the set. -/
def Bitmap.Fits (set : Bitmap) : Prop := set.block ≠ none → 16 * set.count ≤ 2 ^ set.directoryLog2

theorem Bitmap.Valid.fits {set : Bitmap} (h : set.Valid) : set.Fits := fun hb => by
  rcases h.form with hf | hf
  · simp [Bitmap.count, hf.containers_eq]
  · exact hf.in_block

/-- What pushing a container changes. -/
structure Pushed (set : Bitmap) (c : Container) (set' : Bitmap) : Prop where
  block_ne : set'.block ≠ none
  fits : 16 * (set.count + 1) ≤ 2 ^ set'.directoryLog2
  containers : set'.containers = set.containers ++ [c]
  values : set'.values = set.values
  cardinality : set'.cardinality = set.cardinality
  maximum : set'.maximum = set.maximum

/-- A directory that was full has room for one more entry when it is moved. -/
theorem Bitmap.Fits.grown {set : Bitmap} (hf : set.Fits)
    (hdir : set.containers = [] → set.block = none)
    (hfull : set.count = if set.block.isSome then 2 ^ set.directoryLog2 / 16 else 0) :
    16 * (set.count + 1) ≤
      2 ^ (if set.block.isSome then set.directoryLog2 + 1 else directoryLog2First) := by
  cases hb : set.block with
  | none =>
      rw [hb] at hfull
      simp only [Option.isSome_none, Bool.false_eq_true, if_false] at hfull ⊢
      rw [hfull]
      decide
  | some old =>
      have hle := hf (by rw [hb]; simp)
      rw [hb] at hfull
      simp only [Option.isSome_some, if_true] at hfull ⊢
      rw [Nat.pow_succ]
      -- a directory holds at least one entry
      have hne : set.count ≠ 0 := fun h0 => by
        have := hdir (List.length_eq_zero_iff.mp h0)
        rw [hb] at this
        cases this
      omega

/-- A directory that is not full has room for one more entry. -/
theorem Bitmap.Fits.pushed {set : Bitmap} (ha : set.Anchored) (hf : set.Fits)
    (hroom : set.count ≠ if set.block.isSome then 2 ^ set.directoryLog2 / 16 else 0) :
    set.block ≠ none ∧ 16 * (set.count + 1) ≤ 2 ^ set.directoryLog2 := by
  cases hb : set.block with
  | none =>
      rw [hb] at hroom
      exact absurd (by simp [Bitmap.count, ha hb]) hroom
  | some old =>
      have hle := hf (by rw [hb]; simp)
      rw [hb] at hroom
      simp only [Option.isSome_some, if_true] at hroom
      exact ⟨by simp, by omega⟩

/-- The container is appended, the directory moved when it was full; or the pool refused. -/
theorem pushContainer_cases {set : Bitmap} {c : Container} (ha : set.Anchored) (hf : set.Fits)
    (hdir : set.containers = [] → set.block = none) :
    ((pushContainer L set c s).result = .success ∧
      Pushed set c (pushContainer L set c s).set ∧
      Balanced L s (c.loan :: set.loans) (pushContainer L set c s).pool
        (pushContainer L set c s).set.loans) ∨
    ((pushContainer L set c s).result.isError = true ∧
      (pushContainer L set c s).set = set ∧ ¬ L.Grants ∧
      ∀ l, Balanced L s l (pushContainer L set c s).pool l) := by
  unfold pushContainer
  simp only
  by_cases hfull : set.count = if set.block.isSome then 2 ^ set.directoryLog2 / 16 else 0
  · rw [if_pos hfull]
    rcases hgot : L.alloc (if set.block.isSome then set.directoryLog2 + 1
      else directoryLog2First) s with ⟨answer, s'⟩
    cases answer with
    | error refusal =>
        refine Or.inr ⟨refusal.isError, rfl, fun hg => ?_, fun l => ?_⟩
        · exact hg.ne_error (by rw [hgot])
        · have := Balanced.refused (L := L) (s := s) (by rw [hgot]) l
          rwa [hgot] at this
    | ok block =>
        refine Or.inl ⟨rfl, ⟨by simp, hf.grown hdir hfull, rfl, rfl, rfl, rfl⟩, ?_⟩
        have htake := Balanced.granted (L := L) (s := s) (by rw [hgot])
          (c.loan :: set.loans)
        rw [hgot] at htake
        refine htake.trans ?_
        simp only [Bitmap.loans, Bitmap.blockLoan, List.map_append, List.map_cons, List.map_nil]
        cases hb : set.block with
        | none =>
            refine Balanced.of_perm _ ?_
            simp only [Option.toList, List.map_nil, List.map_cons, List.nil_append,
              List.singleton_append, Option.isSome_none]
            exact List.Perm.cons _ (List.perm_append_singleton _ _).symm
        | some old =>
            have hperm :
                (⟨block, set.directoryLog2 + 1⟩ :: c.loan ::
                ([(⟨old, set.directoryLog2⟩ : Loan)] ++
                set.containers.map Container.loan)).Perm (⟨old, set.directoryLog2⟩ ::
                  ([⟨block, set.directoryLog2 + 1⟩] ++
                    (set.containers.map Container.loan ++ [c.loan]))) := by
              refine List.perm_iff_count.mpr fun a => ?_
              simp only [List.count_cons, List.count_append, List.count_nil]
              omega
            exact (Balanced.of_perm _ hperm).trans (Balanced.returned _ _ _ _)
  · obtain ⟨hne, hfits⟩ := hf.pushed ha hfull
    rw [if_neg hfull]
    refine Or.inl ⟨rfl, ⟨hne, hfits, rfl, rfl, rfl, rfl⟩, ?_⟩
    refine Balanced.of_perm _ ?_
    simp only [Bitmap.loans, Bitmap.blockLoan, List.map_append, List.map_cons, List.map_nil]
    rw [← List.append_assoc]
    exact (List.perm_append_singleton _ _).symm

/-! ## A set under construction -/

namespace Bitmap

/-- A valid set that has containers or is empty, all its keys below `k`. -/
structure Under (set : Bitmap) (k : Nat) : Prop where
  valid : set.Valid
  dir : set.containers = [] → set.block = none
  lt : ∀ key ∈ set.keys, key < k

variable {set set' : Bitmap} {k k' : Nat}

theorem Under.mono (h : set.Under k) (hk : k ≤ k') : set.Under k' :=
  ⟨h.valid, h.dir, fun key hkey => Nat.lt_of_lt_of_le (h.lt key hkey) hk⟩

theorem under_init (k : Nat) : init.Under k :=
  ⟨valid_init, fun _ => rfl, fun _ hkey => absurd hkey List.not_mem_nil⟩

/-- Without containers nothing is held. -/
theorem Under.members_nil (h : set.Under k) (hc : set.containers = []) : set.members = [] := by
  rcases h.valid.form with hf | hf
  · rw [members_sparse hc, hf.block_none (h.dir hc)]
  · exact absurd hc hf.containers_ne

theorem Under.members_eq (h : set.Under k) :
    set.members = set.containers.flatMap fun c => c.lows.map (valueOf c.key) := by
  by_cases hc : set.containers = []
  · rw [h.members_nil hc, hc]
    rfl
  · exact members_containers hc

theorem Under.valid_container (h : set.Under k) {c : Container} (hc : c ∈ set.containers) :
    c.Valid := by
  rcases h.valid.form with hf | hf
  · rw [hf.containers_eq] at hc
    cases hc
  · exact hf.valid c hc

theorem Valid.cardinality_eq (h : set.Valid) : set.cardinality = set.members.length := by
  rcases h.form with hf | hf
  · rw [members_sparse hf.containers_eq, hf.cardinality_eq]
  · rw [members_containers hf.containers_ne, hf.cardinality_eq, List.length_flatMap]
    refine congrArg List.sum (List.map_congr_left fun c hc => ?_)
    rw [List.length_map, (hf.valid c hc).cardinality_eq]

theorem Under.cardinality_eq (h : set.Under k) :
    set.cardinality = (set.containers.map Container.cardinality).sum := by
  rcases h.valid.form with hf | hf
  · rw [h.valid.cardinality_eq, h.members_nil hf.containers_eq, hf.containers_eq]
    rfl
  · exact hf.cardinality_eq

theorem Valid.cardinality_lt (h : set.Valid) : set.cardinality < 2 ^ 32 := by
  rcases h.form with hf | hf
  · have := hf.length_le
    rw [hf.cardinality_eq]
    simp only [sparseMax] at this
    omega
  · exact hf.cardinality_lt

/-- A valid container of a later key is appended: the set stays valid and its values follow. -/
theorem Under.append {c : Container} (h : set.Under k) (set' : Bitmap) (low : Nat) (hc : c.Valid)
    (hk : k ≤ c.key)
    (hcontainers : set'.containers = set.containers ++ [c])
    (hblock : set'.block ≠ none) (hfits : 16 * (set.count + 1) ≤ 2 ^ set'.directoryLog2)
    (hcard : set'.cardinality = set.cardinality + c.cardinality)
    (hlt : set.cardinality + c.cardinality < 2 ^ 32)
    (hmax : set'.maximum = valueOf c.key low) (hlow : c.lows.getLast? = some low) :
    set'.Under (c.key + 1) ∧ set'.members = set.members ++ c.lows.map (valueOf c.key) := by
  have hne : set'.containers ≠ [] := by
    rw [hcontainers]
    simp
  have hkeys : set'.keys = set.keys ++ [c.key] := by simp [keys, hcontainers]
  have hsorted : set.keys.Pairwise (· < ·) := by
    rcases h.valid.form with hf | hf
    · simp [keys, hf.containers_eq]
    · exact hf.sorted
  -- with a container the set is no longer sparse, and its values are those of all of them
  have hmembers : set'.members = set.members ++ c.lows.map (valueOf c.key) := by
    rw [members_containers hne, hcontainers, h.members_eq]
    simp
  refine ⟨⟨⟨Or.inr ⟨hne, ?_, ?_, ?_, ?_, hblock, ?_⟩, ?_⟩, fun hcn => absurd hcn hne, ?_⟩, hmembers⟩
  · rw [hkeys]
    exact pairwise_concat hsorted fun a ha => Nat.lt_of_lt_of_le (h.lt a ha) hk
  · intro d hd
    rw [hcontainers] at hd
    rcases List.mem_append.mp hd with hd | hd
    · exact h.valid_container hd
    · rw [List.mem_singleton.mp hd]
      exact hc
  · rw [hcard, hcontainers, List.map_append, List.sum_append, ← h.cardinality_eq]
    simp
  · omega
  · simpa [count, hcontainers] using hfits
  · intro v hv
    rw [hmembers, List.getLast?_append, List.getLast?_map, hlow] at hv
    simp only [Option.map_some, Option.some_or, Option.mem_def, Option.some.injEq] at hv
    rw [hmax, hv]
  · intro key hkey
    rw [hkeys] at hkey
    rcases List.mem_append.mp hkey with hkey | hkey
    · have := h.lt key hkey
      omega
    · rw [List.mem_singleton.mp hkey]
      omega

end Bitmap

/-! ## Emitting -/

/-- The low parts are appended to `out` under `key`, or nothing is changed: because the pool
refused, or because the count would not fit. -/
def Emits (L : BlockPool σ) (out : Bitmap) (key : Nat) (lows : List Nat) (s : σ) (r : Built σ) :
    Prop :=
  (r.result = .success ∧ r.set.Under (key + 1) ∧
    r.set.members = out.members ++ lows.map (valueOf key) ∧
    Balanced L s out.loans r.pool r.set.loans) ∨
  (r.result.isError = true ∧ r.set = out ∧ Balanced L s out.loans r.pool out.loans ∧
    (L.Grants → uint32Max < out.members.length + lows.length))

variable {out : Bitmap} {key : Nat}

/-- Nothing to append is a success. -/
theorem emits_nil (h : out.Under key) : Emits L out key [] s ⟨.success, out, s⟩ :=
  Or.inl ⟨rfl, h.mono (Nat.le_succ key), by simp, Balanced.refl s _⟩

theorem le_log2From {bytes : Nat} (fuel log2 : Nat) (h : bytes ≤ 2 ^ (fuel + log2)) :
    bytes ≤ 2 ^ log2From bytes fuel log2 := by
  induction fuel generalizing log2 with
  | zero => simpa [log2From] using h
  | succ fuel ih =>
      unfold log2From
      split
      · exact ih (log2 + 1) (by rwa [show fuel + (log2 + 1) = fuel + 1 + log2 by omega])
      · omega

theorem le_log2ForBytes {bytes : Nat} (h : bytes ≤ 2 ^ 36) : bytes ≤ 2 ^ log2ForBytes bytes :=
  le_log2From 32 4 h

/-- A sorted list's largest member is its last. -/
theorem getLast?_of_le {l : List Nat} {m : Nat} (hs : l.Pairwise (· < ·)) (hm : m ∈ l)
    (hle : ∀ a ∈ l, a ≤ m) : l.getLast? = some m := by
  have hne := List.ne_nil_of_mem hm
  rw [List.getLast?_eq_some_getLast hne, Option.some.injEq]
  refine le_antisymm (hle _ (List.getLast_mem hne)) ?_
  rw [← List.dropLast_append_getLast hne] at hm hs
  rcases List.mem_append.mp hm with hm | hm
  · exact ((List.pairwise_append.mp hs).2.2 m hm _ (List.mem_singleton_self _)).le
  · exact (List.mem_singleton.mp hm).le

/-- The shared end of the emitters: the block for the data was taken, the container is pushed, and
a refusal gives the block back. -/
theorem emit_pushed (h : out.Under key) {size data low : Nat} {c : Container}
    (hgot : (L.alloc size s).1 = .ok data) (hc : c.Valid) (hkey : c.key = key)
    (hloan : c.loan = ⟨data, size⟩) (hlow : c.lows.getLast? = some low)
    (hroom : out.cardinality + c.cardinality ≤ uint32Max) :
    let pushed := pushContainer L out c (L.alloc size s).2
    Emits L out key c.lows s
      (if pushed.result = .success then
        ⟨.success, { pushed.set with
          cardinality := pushed.set.cardinality + c.cardinality
          maximum := valueOf key low }, pushed.pool⟩
      else ⟨pushed.result, pushed.set, L.free data size pushed.pool⟩) := by
  intro pushed
  have htake := Balanced.granted hgot out.loans
  -- the block taken is the container's from here on, or goes back when the push is refused
  rcases pushContainer_cases (L := L) (s := (L.alloc size s).2) (c := c)
      h.valid.anchored h.valid.fits h.dir with
    ⟨hok, hp, hbal⟩ | ⟨herr, hset, hrefused, hbal⟩
  · rw [if_pos hok]
    obtain ⟨hunder, hmembers⟩ := h.append
      { pushed.set with
        cardinality := pushed.set.cardinality + c.cardinality
        maximum := valueOf key low }
      low
      hc (by omega) hp.containers hp.block_ne hp.fits (by simp [pushed, hp.cardinality])
      (by simp only [uint32Max] at hroom; omega) (by rw [hkey]) hlow
    rw [hkey] at hunder hmembers
    refine Or.inl ⟨rfl, hunder, hmembers, ?_⟩
    rw [hloan] at hbal
    exact htake.trans hbal
  · rw [if_neg (Result.ne_success_of_isError herr)]
    refine Or.inr ⟨herr, hset, ?_, fun hg => absurd hg hrefused⟩
    exact (htake.trans (hbal _)).trans (Balanced.returned _ _ _ _)

/-- The array emitter appends what it is given. -/
theorem emitArray_emits (values : List Nat) (h : out.Under key) (hk : key < 65536)
    (hs : values.Pairwise (· < ·)) (hlt : ∀ v ∈ values, v < 65536)
    (hlen : values.length ≤ arrayMax) :
    Emits L out key values s (emitArray L out key values values.length s) := by
  unfold emitArray
  by_cases h0 : values.length = 0
  · rw [if_pos h0, List.length_eq_zero_iff.mp h0]
    exact emits_nil h
  rw [if_neg h0]
  by_cases hroom : uint32Max - values.length < out.cardinality
  · rw [if_pos hroom]
    refine Or.inr ⟨rfl, rfl, Balanced.refl s _, fun _ => ?_⟩
    rw [h.valid.cardinality_eq] at hroom
    omega
  rw [if_neg hroom]
  simp only [arrayMax] at hlen
  simp only
  rcases hgot : L.alloc (log2ForBytes (values.length * 2)) s with ⟨answer, s'⟩
  cases answer with
  | error refusal =>
      have hbal := Balanced.refused (L := L) (s := s) (by rw [hgot]) out.loans
      rw [hgot] at hbal
      exact Or.inr ⟨refusal.isError, rfl, hbal, fun hg => absurd (by rw [hgot]) hg.ne_error⟩
  | ok data =>
      simp only [List.take_length]
      -- two bytes for each value, rounded up to a grade
      have hfit : values.length * 2 ≤ 2 ^ log2ForBytes (values.length * 2) :=
        le_log2ForBytes (by omega)
      have hvalid : Container.Valid ⟨data, .array values, values.length, key,
          log2ForBytes (values.length * 2)⟩ := by
        refine ⟨hk, ⟨hs, hlt, hlen, ?_⟩, rfl, Nat.pos_of_ne_zero h0⟩
        show 2 * values.length ≤ 2 ^ log2ForBytes (values.length * 2)
        omega
      have hlast : values.getLast? = some (values.getD (values.length - 1) 0) := by
        rw [List.getLast?_eq_getElem?, List.getD_eq_getElem?_getD,
          List.getElem?_eq_getElem (by omega)]
        rfl
      have := emit_pushed (L := L) (s := s) h (by rw [hgot]) hvalid rfl rfl hlast
        (show out.cardinality + values.length ≤
          uint32Max by simp only [uint32Max] at hroom ⊢; omega)
      rw [hgot] at this
      exact this

/-! ## Emitting words -/

/-- The loop over a word takes its bits. -/
theorem wordLoop_eq (w fuel : Nat) (word : BitVec 64) (h : (bits word).length ≤ fuel) :
    wordLoop w fuel word = (bits word).map (w * 64 + ·) := by
  induction fuel generalizing word with
  | zero =>
      rw [List.length_eq_zero_iff.mp (Nat.le_zero.mp h)]
      rfl
  | succ fuel ih =>
      unfold wordLoop
      by_cases hz : word = 0#64
      · rw [if_pos hz, bits_eq_nil.mpr hz]
        rfl
      · rw [if_neg hz, bits_eq_ctz_cons hz, List.map_cons, and_sub_one hz, ih, Nat.shiftLeft_eq]
        rw [bits_eq_ctz_cons hz, List.length_cons] at h
        omega

theorem length_bits_le (word : BitVec 64) : (bits word).length ≤ 64 := length_below_le 64 _

/-- The bits of the words `first` to `last`. -/
def bitsBetween (words : Array64) (first last : Nat) : List Nat :=
  below 65536 fun i => first ≤ i / 64 ∧ i / 64 ≤ last ∧ Has words i

theorem mem_bitsBetween {words : Array64} {first last i : Nat} :
    i ∈ bitsBetween words first last ↔
      i < 65536 ∧ first ≤ i / 64 ∧ i / 64 ≤ last ∧ Has words i := mem_below

theorem flatMap_wordLoop (words : Array64) (first : Nat) {last : Nat} (hl : last < 1024) :
    ((List.range' first (last + 1 - first)).flatMap fun w => wordLoop w 64 (words w)) =
      bitsBetween words first last := by
  have := flatMap_listing false words first last 65536 (by omega)
  simp only [ordered_false] at this
  rw [bitsBetween, ← this, span, ordered_false]
  refine List.flatMap_congr fun w _ => ?_
  rw [wordLoop_eq w 64 _ (length_bits_le _), listing]

/-- The last word that is not zero. -/
theorem topWord_spec (words : Array64) (top : Nat) (h : ∃ w ≤ top, words w ≠ 0#64) :
    topWord words top ≤ top ∧ words (topWord words top) ≠ 0#64 ∧
      ∀ w ≤ top, words w ≠ 0#64 → w ≤ topWord words top := by
  induction top with
  | zero =>
      obtain ⟨w, hw, hne⟩ := h
      obtain rfl := Nat.le_zero.mp hw
      exact ⟨le_rfl, hne, fun w hw _ => hw⟩
  | succ top ih =>
      unfold topWord
      by_cases hz : words (top + 1) = 0#64
      · rw [if_pos hz]
        have hlow : ∀ w ≤ top + 1, words w ≠ 0#64 → w ≤ top := by
          intro w hw hne
          rcases Nat.lt_or_ge top w with hlt | hge
          · obtain rfl : w = top + 1 := by omega
            exact absurd hz hne
          · exact hge
        obtain ⟨w, hw, hne⟩ := h
        obtain ⟨h1, h2, h3⟩ := ih ⟨w, hlow w hw hne, hne⟩
        exact ⟨by omega, h2, fun w hw hne => h3 w (hlow w hw hne) hne⟩
      · rw [if_neg hz]
        exact ⟨le_rfl, hz, fun w hw _ => hw⟩

/-- The top bit of the last word that is not zero is the last of the bits. -/
theorem getLast?_bitsBetween {words : Array64} {first last : Nat} (hl : last < 1024)
    (hne : bitsBetween words first last ≠ []) :
    (bitsBetween words first last).getLast? =
      some (topWord words last <<< 6 ||| (63 - (words (topWord words last)).clz.toNat)) := by
  obtain ⟨i, hi⟩ := List.exists_mem_of_ne_nil _ hne
  have hword : ∀ j, Has words j → words (j / 64) ≠ 0#64 := by
    intro j hj hz
    rw [Has, hz] at hj
    simp at hj
  obtain ⟨-, hfirst, hlast, hhas⟩ := mem_bitsBetween.mp hi
  obtain ⟨h1, h2, h3⟩ := topWord_spec words last ⟨i / 64, hlast, hword i hhas⟩
  -- no bit stands in a later word, and none above the top bit of this one
  set top := topWord words last
  have hb := toNat_clz_lt h2
  have hbit : 63 - (words top).clz.toNat < 64 := by omega
  rw [shiftLeft_6_or top hbit]
  have hdiv : (top * 64 + (63 - (words top).clz.toNat)) / 64 = top := by omega
  have hmod : (top * 64 + (63 - (words top).clz.toNat)) % 64 =
    63 - (words top).clz.toNat := by omega
  refine getLast?_of_le (pairwise_below _ _) (mem_bitsBetween.mpr ⟨by omega, ?_, by omega, ?_⟩) ?_
  · rw [hdiv]
    exact Nat.le_trans hfirst (h3 _ hlast (hword i hhas))
  · rw [Has, hdiv, hmod]
    exact getLsbD_top h2
  · intro j hj
    obtain ⟨-, -, hjl, hjhas⟩ := mem_bitsBetween.mp hj
    have hle := h3 _ hjl (hword j hjhas)
    rcases Nat.lt_or_ge (j / 64) top with hlt | hge
    · omega
    · have heq : j / 64 = top := by omega
      rw [Has, heq] at hjhas
      have := le_top_of_mem (mem_bits.mpr hjhas)
      omega

/-- The word emitter appends the bits, whichever kind of container they make. -/
theorem emitWords_emits {words : Array64} {first last cardinality : Nat} (h : out.Under key)
    (hk : key < 65536) (hl : last < 1024)
    (hcard : cardinality = (bitsBetween words first last).length) :
    Emits L out key (bitsBetween words first last) s
      (emitWords L out key words first last cardinality s) := by
  unfold emitWords
  have hsorted : (bitsBetween words first last).Pairwise (· < ·) := pairwise_below _ _
  have hlt : ∀ v ∈ bitsBetween words first last, v < 65536 := fun v hv => (mem_bitsBetween.mp hv).1
  by_cases h0 : cardinality = 0
  · have hnil : bitsBetween words first last = [] :=
      List.length_eq_zero_iff.mp (hcard.symm.trans h0)
    rw [if_pos h0, hnil]
    exact emits_nil h
  rw [if_neg h0]
  by_cases hsmall : cardinality ≤ arrayMax
  · rw [if_pos hsmall, flatMap_wordLoop words first hl]
    exact emitArray_emits _ h hk hsorted hlt (hcard ▸ hsmall)
  rw [if_neg hsmall]
  by_cases hroom : uint32Max - cardinality < out.cardinality
  · rw [if_pos hroom]
    refine Or.inr ⟨rfl, rfl, Balanced.refl s _, fun _ => ?_⟩
    rw [h.valid.cardinality_eq] at hroom
    omega
  rw [if_neg hroom]
  rcases hgot : L.alloc bitmapLog2 s with ⟨answer, s'⟩
  cases answer with
  | error refusal =>
      have hbal := Balanced.refused (L := L) (s := s) (by rw [hgot]) out.loans
      rw [hgot] at hbal
      exact Or.inr ⟨refusal.isError, rfl, hbal, fun hg => absurd (by rw [hgot]) hg.ne_error⟩
  | ok data =>
      have hne : bitsBetween words first last ≠ [] := fun hn => h0 (by rw [hcard, hn]; rfl)
      -- the words copied are those in the range; all others are zeroed
      set copied : Array64 := fun w => if first ≤ w ∧ w ≤ last then words w else 0#64 with hcopied
      have hlows : below 65536 (Has copied) = bitsBetween words first last := by
        refine below_congr fun i _ => ?_
        by_cases hin : first ≤ i / 64 ∧ i / 64 ≤ last
        · simp only [Has, hcopied, if_pos hin]
          tauto
        · simp only [Has, hcopied, if_neg hin]
          constructor
          · intro hz
            simp at hz
          · intro hz
            exact absurd ⟨hz.1, hz.2.1⟩ hin
      have hvalid : Container.Valid ⟨data, .bitmap copied, cardinality, key, bitmapLog2⟩ := by
        refine ⟨hk, ⟨?_, rfl⟩, ?_, Nat.pos_of_ne_zero h0⟩
        · rw [hlows, ← hcard]
          omega
        · show cardinality = (below 65536 (Has copied)).length
          rw [hlows, hcard]
      have hlast := getLast?_bitsBetween hl hne
      rw [← hlows] at hlast
      have hsum : out.cardinality + cardinality ≤ uint32Max := by
        have hmax : cardinality ≤ uint32Max := by
          rw [hcard]
          exact Nat.le_trans (length_below_le 65536 _) (by decide)
        omega
      have :=
        emit_pushed (L := L) (s := s) (c := ⟨data, .bitmap copied, cardinality, key, bitmapLog2⟩)
        h (by rw [hgot]) hvalid rfl rfl hlast hsum
      rw [hgot] at this
      rw [← hlows]
      exact this

end Arnm.Roaring
