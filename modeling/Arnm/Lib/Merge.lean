import Arnm.Lib.Listing

set_option autoImplicit false

/-! # Merging ordered lists

The next value of a merge is the first of the lists' heads in walking order (`pick`), and every
list standing on it moves on (`pass`). `Lists d L ls` says that `L` is the merge of the lists
`ls`; a merge loop is then an induction on `L`.

An array whose entries run out one by one is kept dense by moving its last entry into the gap:
`sweep` is one pass of this kind, and up to the order of the entries it is a `filterMap`.
-/

namespace Merge

open Listing

/-! ## The next value -/

/-- The entry of `head :: heads` a walk in direction `d` meets first. -/
def pick (d : Bool) (head : Nat) (heads : List Nat) : Nat :=
  heads.foldl (fun best a => if Before d a best then a else best) head

theorem pick_eq {d : Bool} {v : Nat} :
    ∀ {head : Nat} {heads : List Nat}, v ∈ head :: heads →
      (∀ a ∈ head :: heads, a = v ∨ Before d v a) → pick d head heads = v := by
  intro head heads
  induction heads generalizing head with
  | nil => intro hv _; exact (List.mem_singleton.mp hv).symm
  | cons a l ih =>
      intro hv hb
      show pick d (if Before d a head then a else head) l = v
      by_cases hah : Before d a head
      · rw [if_pos hah]
        refine ih ?_ (fun b hm => hb b (List.mem_cons_of_mem _ hm))
        rcases List.mem_cons.mp hv with rfl | hv
        · rcases hb a (by simp) with rfl | h
          · exact absurd hah (Before.irrefl _ _)
          · exact absurd h hah.asymm
        · exact hv
      · rw [if_neg hah]
        refine ih ?_ (fun b hm => hb b ?_)
        · rcases List.mem_cons.mp hv with rfl | hv
          · simp
          · rcases List.mem_cons.mp hv with rfl | hv
            · rcases hb head (by simp) with rfl | h
              · simp
              · exact absurd h hah
            · exact List.mem_cons_of_mem _ hv
        · rcases List.mem_cons.mp hm with rfl | hm
          · simp
          · exact List.mem_cons_of_mem _ (List.mem_cons_of_mem _ hm)

/-- The entry picked is one of the heads, and no head comes before it. -/
theorem pick_spec (d : Bool) (heads : List Nat) :
    ∀ head, pick d head heads ∈ head :: heads ∧
      ∀ a ∈ head :: heads, ¬ Before d a (pick d head heads) := by
  induction heads with
  | nil =>
      intro head
      refine ⟨by simp [pick], fun a ha => ?_⟩
      rw [List.mem_singleton.mp ha]
      exact Before.irrefl d head
  | cons b l ih =>
      intro head
      obtain ⟨h1, h2⟩ := ih (if Before d b head then b else head)
      have hb : pick d head (b :: l) = pick d (if Before d b head then b else head) l := rfl
      rw [hb]
      -- the entry picked comes after neither the head nor the entry compared with it
      have hbest := h2 _ List.mem_cons_self
      refine ⟨?_, fun a ha => ?_⟩
      · rcases List.mem_cons.mp h1 with h | h
        · rw [h]
          split <;> simp
        · exact List.mem_cons_of_mem _ (List.mem_cons_of_mem _ h)
      · intro hap
        rcases List.mem_cons.mp ha with rfl | ha
        · by_cases hba : Before d b a
          · rw [if_pos hba] at hbest hap
            exact hbest (hba.trans hap)
          · rw [if_neg hba] at hbest hap
            exact hbest hap
        · rcases List.mem_cons.mp ha with rfl | ha
          · by_cases hba : Before d a head
            · rw [if_pos hba] at hbest hap
              exact hbest hap
            · rw [if_neg hba] at hbest hap
              rcases before_or_eq_or_before d a head with h | h | h
              · exact hba h
              · rw [h] at hap; exact hbest hap
              · exact hbest (h.trans hap)
          · exact h2 a (List.mem_cons_of_mem _ ha) hap

/-! ## Moving on -/

/-- A list whose walk stands on `v` moves on. -/
def pass (v : Nat) : List Nat → List Nat
  | [] => []
  | a :: l => if a = v then l else a :: l

theorem pass_sublist (v : Nat) (l : List Nat) : (pass v l).Sublist l := by
  cases l with
  | nil => exact List.Sublist.refl _
  | cons a l =>
      rw [pass]
      split
      · exact List.sublist_cons_self a l
      · exact List.Sublist.refl _

/-- In a strictly ordered list nothing but `v` itself is lost, and `v` does not come again. -/
theorem mem_pass {d : Bool} {v : Nat} {l : List Nat} (h : l.Pairwise (Before d))
    (hv : ∀ a ∈ l, a = v ∨ Before d v a) (a : Nat) : a ∈ pass v l ↔ a ∈ l ∧ a ≠ v := by
  cases l with
  | nil => simp [pass]
  | cons b l =>
      obtain ⟨hb, hl⟩ := List.pairwise_cons.mp h
      rw [pass]
      by_cases hbv : b = v
      · rw [if_pos hbv]
        subst hbv
        constructor
        · intro ha
          refine ⟨List.mem_cons_of_mem _ ha, ?_⟩
          rintro rfl
          exact Before.irrefl d _ (hb _ ha)
        · rintro ⟨ha, hne⟩
          exact (List.mem_cons.mp ha).resolve_left hne
      · rw [if_neg hbv]
        refine ⟨fun ha => ⟨ha, ?_⟩, fun ha => ha.1⟩
        rintro rfl
        have hvb : Before d a b := (hv b (by simp)).resolve_left hbv
        rcases List.mem_cons.mp ha with hab | ha
        · exact hbv hab.symm
        · exact hvb.asymm (hb a ha)

/-! ## Merges -/

/-- `L` lists, in strict walking order, what the strictly ordered lists `ls` hold. -/
structure Lists (d : Bool) (L : List Nat) (ls : List (List Nat)) : Prop where
  pairwise : L.Pairwise (Before d)
  parts : ∀ l ∈ ls, l.Pairwise (Before d)
  mem : ∀ a, a ∈ L ↔ ∃ l ∈ ls, a ∈ l

variable {d : Bool} {v : Nat} {L : List Nat} {ls ls' : List (List Nat)}

theorem Lists.eq_nil (h : Lists d [] ls) : ∀ l ∈ ls, l = [] := by
  intro l hl
  refine List.eq_nil_iff_forall_not_mem.mpr (fun a ha => ?_)
  have := (h.mem a).mpr ⟨l, hl, ha⟩
  simp at this

/-- Every entry of every list is the first value of the merge or comes after it. -/
theorem Lists.before (h : Lists d (v :: L) ls) :
    ∀ l ∈ ls, ∀ a ∈ l, a = v ∨ Before d v a := by
  intro l hl a ha
  rcases List.mem_cons.mp ((h.mem a).mpr ⟨l, hl, ha⟩) with rfl | hm
  · exact Or.inl rfl
  · exact Or.inr ((List.pairwise_cons.mp h.pairwise).1 a hm)

/-- Some list starts with the first value of the merge. -/
theorem Lists.exists_head (h : Lists d (v :: L) ls) : ∃ l ∈ ls, ∃ t, l = v :: t := by
  obtain ⟨l, hl, hv⟩ := (h.mem v).mp (by simp)
  refine ⟨l, hl, ?_⟩
  cases l with
  | nil => simp at hv
  | cons b t =>
      rcases h.before _ hl b (by simp) with rfl | hb
      · exact ⟨t, rfl⟩
      · rcases List.mem_cons.mp hv with rfl | hvt
        · exact absurd hb (Before.irrefl _ _)
        · exact absurd hb ((List.pairwise_cons.mp (h.parts _ hl)).1 v hvt).asymm

/-- The rest of the merge is the merge of the lists that moved on. -/
theorem Lists.pass (h : Lists d (v :: L) ls) : Lists d L (ls.map (pass v)) := by
  obtain ⟨hv, hL⟩ := List.pairwise_cons.mp h.pairwise
  refine ⟨hL, fun l hl => ?_, fun a => ?_⟩
  · obtain ⟨l', hl', rfl⟩ := List.mem_map.mp hl
    exact (h.parts l' hl').sublist (pass_sublist v l')
  · constructor
    · intro ha
      obtain ⟨l, hl, hal⟩ := (h.mem a).mp (List.mem_cons_of_mem _ ha)
      refine ⟨_, List.mem_map_of_mem hl, (mem_pass (h.parts l hl) (h.before l hl) a).mpr ⟨hal, ?_⟩⟩
      rintro rfl
      exact Before.irrefl d a (hv a ha)
    · rintro ⟨l', hl', ha⟩
      obtain ⟨l, hl, rfl⟩ := List.mem_map.mp hl'
      obtain ⟨hal, hne⟩ := (mem_pass (h.parts l hl) (h.before l hl) a).mp ha
      exact (List.mem_cons.mp ((h.mem a).mpr ⟨l, hl, hal⟩)).resolve_left hne

/-- A merge depends only on which nonempty lists there are. -/
theorem Lists.congr (h : Lists d L ls) (h' : ∀ l, l ≠ [] → (l ∈ ls' ↔ l ∈ ls)) :
    Lists d L ls' := by
  refine ⟨h.pairwise, fun l hl => ?_, fun a => ?_⟩
  · by_cases hn : l = []
    · rw [hn]; exact List.Pairwise.nil
    · exact h.parts l ((h' l hn).mp hl)
  · rw [h.mem]
    constructor
    · rintro ⟨l, hl, ha⟩; exact ⟨l, (h' l (List.ne_nil_of_mem ha)).mpr hl, ha⟩
    · rintro ⟨l, hl, ha⟩; exact ⟨l, (h' l (List.ne_nil_of_mem ha)).mp hl, ha⟩

/-- The merge of one list is the list. -/
theorem Lists.eq_of_singleton {l : List Nat} (h : Lists d L [l]) : L = l :=
  eq_of_mem_iff h.pairwise (h.parts l (by simp)) (fun a => by rw [h.mem]; simp)

/-! ## One pass over an array that is kept dense -/

/-- One pass over the entries of an array. `step x` is what is collected from `x` and what
becomes of it; an entry that runs out has the last entry take its place, which is looked at
next. -/
def sweep {α β : Type} (step : α → Option β × Option α) : List α → List β × List α
  | [] => ([], [])
  | x :: rest =>
      match (step x).2 with
      | some y =>
          let r := sweep step rest
          ((step x).1.toList ++ r.1, y :: r.2)
      | none =>
          match rest with
          | [] => ((step x).1.toList, [])
          | z :: zs =>
              let r := sweep step ((z :: zs).getLast (by simp) :: (z :: zs).dropLast)
              ((step x).1.toList ++ r.1, r.2)
termination_by l => l.length

theorem sweep_perm {α β : Type} (step : α → Option β × Option α) (l : List α) :
    (sweep step l).1.Perm (l.filterMap (fun x => (step x).1)) ∧
      (sweep step l).2.Perm (l.filterMap (fun x => (step x).2)) := by
  induction l using sweep.induct step with
  | case1 => simp [sweep]
  | case2 x rest y hy ih =>
      rw [sweep.eq_def]
      simp only [List.filterMap_cons, hy]
      refine ⟨?_, ih.2.cons y⟩
      cases (step x).1 with
      | none => exact ih.1
      | some b => exact ih.1.cons b
  | case3 x hx =>
      rw [sweep.eq_def]
      simp only [List.filterMap_cons, hx, List.filterMap_nil]
      cases (step x).1 <;> simp
  | case4 x hx z zs ih =>
      have hp : ((z :: zs).getLast (by simp) :: (z :: zs).dropLast).Perm (z :: zs) := by
        conv_rhs => rw [← List.dropLast_append_getLast (l := z :: zs) (by simp)]
        exact (List.perm_append_singleton _ _).symm
      rw [sweep.eq_def]
      simp only [List.filterMap_cons (a := x), hx]
      refine ⟨?_, ih.2.trans (hp.filterMap _)⟩
      cases (step x).1 with
      | none => exact ih.1.trans (hp.filterMap _)
      | some b => exact (ih.1.trans (hp.filterMap _)).cons b

/-! ### Merges of what a sweep keeps and collects -/

variable {σ β : Type} {rest f : σ → List Nat} {entries : List σ}

theorem Lists.filter (h : Lists d L (entries.map rest)) (p : Nat → Bool) :
    Lists d (L.filter p) (entries.map (fun x => (rest x).filter p)) := by
  refine ⟨h.pairwise.filter p, fun l hl => ?_, fun a => ?_⟩
  · obtain ⟨x, hx, rfl⟩ := List.mem_map.mp hl
    exact (h.parts _ (List.mem_map_of_mem hx)).filter p
  · rw [List.mem_filter, h.mem]
    constructor
    · rintro ⟨⟨l, hl, ha⟩, hp⟩
      obtain ⟨x, hx, rfl⟩ := List.mem_map.mp hl
      exact ⟨_, List.mem_map_of_mem hx, List.mem_filter.mpr ⟨ha, hp⟩⟩
    · rintro ⟨l, hl, ha⟩
      obtain ⟨x, hx, rfl⟩ := List.mem_map.mp hl
      obtain ⟨ha, hp⟩ := List.mem_filter.mp ha
      exact ⟨⟨_, List.mem_map_of_mem hx, ha⟩, hp⟩

/-- Entries that stand for the lists `f`, the empty ones left out. -/
theorem Lists.filterMap {τ : Type} {rest' : τ → List Nat} {g : σ → Option τ} {kept : List τ}
    (h : Lists d L (entries.map f)) (hk : kept.Perm (entries.filterMap g))
    (hg : ∀ x ∈ entries, match g x with
      | some y => rest' y = f x
      | none => f x = []) :
    Lists d L (kept.map rest') := by
  refine h.congr (fun l hl => ?_)
  simp only [List.mem_map, hk.mem_iff, List.mem_filterMap]
  constructor
  · rintro ⟨y, ⟨x, hx, hxy⟩, rfl⟩
    have := hg x hx
    rw [hxy] at this
    exact ⟨x, hx, this.symm⟩
  · rintro ⟨x, hx, rfl⟩
    have := hg x hx
    cases hxy : g x with
    | none => rw [hxy] at this; exact absurd this hl
    | some y => rw [hxy] at this; exact ⟨y, ⟨x, hx, hxy⟩, this⟩

/-- A sweep that moves every entry standing on the first value on, and drops those that ran out,
leaves the rest of the merge. -/
theorem Lists.sweep {step : σ → Option β × Option σ} (h : Lists d (v :: L) (entries.map rest))
    (hs : ∀ x ∈ entries, match (step x).2 with
      | some y => rest y = Merge.pass v (rest x)
      | none => Merge.pass v (rest x) = []) :
    Lists d L ((sweep step entries).2.map rest) := by
  have hp := h.pass
  rw [List.map_map] at hp
  exact hp.filterMap (sweep_perm step entries).2 hs

/-- The first value is the one picked from the heads. -/
theorem Lists.pick_eq {head : σ → Nat} {x : σ} (h : Lists d (v :: L) ((x :: entries).map rest))
    (hh : ∀ y ∈ x :: entries, (rest y).head? = some (head y)) :
    pick d (head x) (entries.map head) = v := by
  have hmem : ∀ y ∈ x :: entries, head y ∈ rest y := fun y hy => List.mem_of_mem_head? (hh y hy)
  refine Merge.pick_eq ?_ ?_
  · rw [← List.map_cons]
    obtain ⟨l, hl, t, rfl⟩ := h.exists_head
    obtain ⟨y, hy, he⟩ := List.mem_map.mp hl
    have := hh y hy
    rw [he, List.head?_cons, Option.some.injEq] at this
    exact List.mem_map.mpr ⟨y, hy, this.symm⟩
  · intro a ha
    rw [← List.map_cons] at ha
    obtain ⟨y, hy, rfl⟩ := List.mem_map.mp ha
    exact h.before _ (List.mem_map_of_mem hy) _ (hmem y hy)

theorem Lists.length_le (h : Lists d L (entries.map rest)) :
    L.length ≤ (entries.map (fun x => (rest x).length)).sum := by
  have hn : L.Nodup := h.pairwise.imp (fun {a b} hab => by
    rintro rfl
    exact Before.irrefl d _ hab)
  have hsub : L ⊆ entries.flatMap rest := by
    intro a ha
    obtain ⟨l, hl, ha⟩ := (h.mem a).mp ha
    obtain ⟨x, hx, rfl⟩ := List.mem_map.mp hl
    exact List.mem_flatMap.mpr ⟨x, hx, ha⟩
  rw [← List.length_flatMap]
  exact (hn.subperm hsub).length_le

end Merge
