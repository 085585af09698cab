import Mathlib.Tactic

set_option autoImplicit false

/-! # Open addressing

A table of `2 ^ c` slots. An entry is searched from its home on, slot by slot and around the end,
until the search meets the entry or a free slot (`seek`). The search is right as long as every
entry lies behind its home with no free slot between (`Clustered`). An entry put where a search
for a free slot ends keeps that, and so does a table filled anew (`refill`). -/

namespace Probing

/-! ## The search -/

/-- Search from a slot on until `stop`, at most `fuel` slots; the mask takes the search around the
end. -/
def seek (stop : Nat → Bool) (mask : Nat) : Nat → Nat → Option Nat
  | 0, _ => none
  | fuel + 1, index =>
    if stop index then some index else seek stop mask fuel ((index + 1) &&& mask)

variable {stop : Nat → Bool} {c n start : Nat}

/-- Every slot is met within one round. -/
theorem exists_place (start : Nat) {pos : Nat} (hpos : pos < n) :
    ∃ k < n, (start + k) % n = pos := by
  have hn : 0 < n := Nat.zero_lt_of_lt hpos
  have hr : start % n < n := Nat.mod_lt _ hn
  by_cases h : start % n ≤ pos
  · refine ⟨pos - start % n, by omega, ?_⟩
    rw [← Nat.mod_add_mod, show start % n + (pos - start % n) = pos by omega, Nat.mod_eq_of_lt hpos]
  · refine ⟨pos + n - start % n, by omega, ?_⟩
    rw [← Nat.mod_add_mod, show start % n + (pos + n - start % n) = pos + n by omega,
      Nat.add_mod_right, Nat.mod_eq_of_lt hpos]

/-- No slot is met twice in one round. -/
theorem place_inj {i k : Nat} (hi : i < n) (hk : k < n) (h : (start + i) % n = (start + k) % n) :
    i = k := by
  have hmod : i ≡ k [MOD n] := Nat.ModEq.add_left_cancel' start h
  rwa [Nat.ModEq, Nat.mod_eq_of_lt hi, Nat.mod_eq_of_lt hk] at hmod

/-- The search ends at the first slot that stops it. -/
theorem seek_first {fuel k : Nat} (hk : k < fuel) (hstop : stop ((start + k) % 2 ^ c) = true)
    (hbefore : ∀ i < k, stop ((start + i) % 2 ^ c) = false) :
    seek stop (2 ^ c - 1) fuel (start % 2 ^ c) = some ((start + k) % 2 ^ c) := by
  induction k generalizing fuel start with
  | zero =>
      obtain ⟨fuel, rfl⟩ := Nat.exists_eq_add_one.mpr hk
      rw [Nat.add_zero] at hstop
      rw [seek, if_pos hstop, Nat.add_zero]
  | succ k ih =>
      obtain ⟨fuel, rfl⟩ := Nat.exists_eq_add_one.mpr (Nat.zero_lt_of_lt hk)
      have hfirst := hbefore 0 (Nat.succ_pos k)
      rw [Nat.add_zero] at hfirst
      have hnext : ∀ i, (start + (i + 1)) % 2 ^ c = (start + 1 + i) % 2 ^ c := fun i => by
        rw [Nat.add_comm i 1, Nat.add_assoc]
      rw [hnext] at hstop ⊢
      have hlater := @ih (start + 1) fuel (Nat.lt_of_succ_lt_succ hk) hstop fun i hi => by
        rw [← hnext]
        exact hbefore (i + 1) (Nat.succ_lt_succ hi)
      rw [seek, if_neg (by rw [hfirst]; decide), Nat.and_two_pow_sub_one_eq_mod, Nat.mod_add_mod]
      exact hlater

/-- A search ends as soon as one slot stops it. -/
theorem seek_ends (start : Nat) {pos : Nat} (hpos : pos < 2 ^ c) (hstop : stop pos = true) :
    ∃ k < 2 ^ c, seek stop (2 ^ c - 1) (2 ^ c) (start % 2 ^ c) = some ((start + k) % 2 ^ c) ∧
      stop ((start + k) % 2 ^ c) = true ∧ ∀ i < k, stop ((start + i) % 2 ^ c) = false := by
  obtain ⟨k, hk, hplace⟩ := exists_place start hpos
  have hex : ∃ k, stop ((start + k) % 2 ^ c) = true := ⟨k, by rw [hplace, hstop]⟩
  have hfirst := Nat.find_spec hex
  have hbefore : ∀ i < Nat.find hex, stop ((start + i) % 2 ^ c) = false := fun i hi =>
    Bool.eq_false_iff.mpr (Nat.find_min hex hi)
  have hle : Nat.find hex ≤ k := Nat.find_min' hex (by rw [hplace, hstop])
  exact ⟨Nat.find hex, by omega, seek_first (by omega) hfirst hbefore, hfirst, hbefore⟩

/-! ## Tables -/

section Table

variable {α : Type} (free : α → Bool) (hash : α → Nat)

/-- The slot is there and has an entry. -/
def Occupied (t : List α) (pos : Nat) : Prop := ∃ s, t[pos]? = some s ∧ free s = false

/-- The slot is there and has none. -/
def freeAt (t : List α) (pos : Nat) : Bool := t[pos]?.any free

/-- The entries of a table, in the order of their slots. -/
def entries (t : List α) : List α := t.filter fun s => !free s

/-- Every entry lies behind its home, with no free slot between. -/
structure Clustered (c : Nat) (t : List α) : Prop where
  length : t.length = 2 ^ c
  reach : ∀ pos s, t[pos]? = some s → free s = false → ∃ k < 2 ^ c,
    pos = (hash s + k) % 2 ^ c ∧ ∀ i < k, Occupied free t ((hash s + i) % 2 ^ c)

/-- Put the entries of an old table into the next free slots from their homes on. -/
def refill (mask : Nat) : List α → List α → Option (List α)
  | [], t => some t
  | s :: old, t =>
    if free s then refill mask old t
    else
      (seek (freeAt free t) mask (mask + 1) (hash s &&& mask)).bind fun index =>
        refill mask old (t.set index s)

variable {free hash} {t : List α}

theorem freeAt_iff {pos : Nat} :
    freeAt free t pos = true ↔ ∃ s, t[pos]? = some s ∧ free s = true := by
  unfold freeAt
  cases t[pos]? with
  | none => simp
  | some s => simp

/-- Every slot of the table is free or occupied. -/
theorem occupied_iff {pos : Nat} (hpos : pos < t.length) :
    Occupied free t pos ↔ freeAt free t pos = false := by
  unfold Occupied freeAt
  rw [List.getElem?_eq_getElem hpos]
  simp

/-- A table with fewer entries than slots has a free one. -/
theorem exists_free (h : (entries free t).length < t.length) :
    ∃ pos < t.length, freeAt free t pos = true := by
  by_contra hnone
  push Not at hnone
  refine Nat.lt_irrefl t.length (Nat.lt_of_le_of_lt ?_ h)
  rw [entries, List.filter_eq_self.mpr]
  intro s hs
  obtain ⟨pos, hpos, rfl⟩ := List.getElem_of_mem hs
  have hocc := hnone pos hpos
  rw [ne_eq, freeAt_iff, not_exists] at hocc
  have := hocc t[pos]
  rw [List.getElem?_eq_getElem hpos] at this
  simpa using this

/-- An entry put into a free slot is one more. -/
theorem entries_set {pos : Nat} {s : α} (hfree : freeAt free t pos = true) (hs : free s = false) :
    (entries free (t.set pos s)).Perm (s :: entries free t) := by
  unfold entries
  induction t generalizing pos with
  | nil => cases hfree
  | cons a t ih =>
      cases pos with
      | zero =>
          have ha : free a = true := hfree
          rw [List.set_cons_zero, List.filter_cons_of_pos (by rw [hs]; rfl),
            List.filter_cons_of_neg (by rw [ha]; decide)]
      | succ pos =>
          have hrest := @ih pos hfree
          rw [List.set_cons_succ]
          cases ha : free a with
          | true =>
              rw [List.filter_cons_of_neg (by rw [ha]; decide),
                List.filter_cons_of_neg (by rw [ha]; decide)]
              exact hrest
          | false =>
              rw [List.filter_cons_of_pos (by rw [ha]; rfl),
                List.filter_cons_of_pos (by rw [ha]; rfl)]
              exact (hrest.cons a).trans (List.Perm.swap s a _)

/-- Two slots with the same value, where no two entries have the same. -/
theorem entries_inj {β : Type} (f : α → β) (hnodup : ((entries free t).map f).Nodup)
    {i j : Nat} {s s' : α} (hi : t[i]? = some s) (hj : t[j]? = some s') (hs : free s = false)
    (hs' : free s' = false) (heq : f s = f s') : i = j := by
  rw [entries, List.nodup_iff_pairwise_ne, List.pairwise_map, List.pairwise_filter,
    List.pairwise_iff_getElem] at hnodup
  obtain ⟨hilt, rfl⟩ := List.getElem?_eq_some_iff.mp hi
  obtain ⟨hjlt, rfl⟩ := List.getElem?_eq_some_iff.mp hj
  rcases Nat.lt_trichotomy i j with hlt | rfl | hgt
  · exact absurd heq (hnodup i j hilt hjlt hlt (by rw [hs]; rfl) (by rw [hs']; rfl))
  · rfl
  · exact absurd heq.symm (hnodup j i hjlt hilt hgt (by rw [hs']; rfl) (by rw [hs]; rfl))

/-- A table without entries. -/
theorem clustered_replicate (hash : α → Nat) {s : α} (hs : free s = true) :
    Clustered free hash c (List.replicate (2 ^ c) s) := by
  refine ⟨List.length_replicate, fun pos s' hget hocc => ?_⟩
  rw [List.getElem?_replicate] at hget
  split at hget
  · cases hget
    rw [hs] at hocc
    cases hocc
  · cases hget

theorem entries_replicate (n : Nat) {s : α} (hs : free s = true) :
    entries free (List.replicate n s) = [] :=
  List.filter_eq_nil_iff.mpr fun a ha => by
    rw [List.eq_of_mem_replicate ha, hs]
    decide

namespace Clustered

variable (h : Clustered free hash c t)
include h

theorem pos_lt {pos : Nat} {s : α} (hget : t[pos]? = some s) : pos < 2 ^ c := by
  rw [← h.length]
  exact (List.getElem?_eq_some_iff.mp hget).1

/-- An entry is found from its home on by any search that stops at it and at no other. -/
theorem seek_entry {pos : Nat} {s : α} (hget : t[pos]? = some s) (hocc : free s = false)
    (hstop : stop pos = true)
    (honly : ∀ i, Occupied free t i → stop i = true → i = pos) :
    seek stop (2 ^ c - 1) (2 ^ c) (hash s % 2 ^ c) = some pos := by
  obtain ⟨k, hk, hpos, hbefore⟩ := h.reach pos s hget hocc
  rw [hpos] at hstop ⊢
  refine seek_first hk hstop fun i hi => ?_
  by_contra hne
  have heq := honly _ (hbefore i hi) (Bool.not_eq_false _ ▸ hne)
  rw [hpos] at heq
  exact Nat.ne_of_lt hi (place_inj (Nat.lt_trans hi hk) hk heq)

/-- A search for what is not there ends at a free slot, the first from its start on. -/
theorem seek_free (start : Nat) (hroom : (entries free t).length < 2 ^ c)
    (hstop : ∀ i < 2 ^ c, stop i = freeAt free t i) :
    ∃ k < 2 ^ c, seek stop (2 ^ c - 1) (2 ^ c) (start % 2 ^ c) = some ((start + k) % 2 ^ c) ∧
      freeAt free t ((start + k) % 2 ^ c) = true ∧
      ∀ i < k, Occupied free t ((start + i) % 2 ^ c) := by
  obtain ⟨pos, hpos, hfree⟩ := exists_free (h.length.symm ▸ hroom)
  rw [h.length] at hpos
  have hlt : ∀ i, (start + i) % 2 ^ c < 2 ^ c := fun i => Nat.mod_lt _ (Nat.two_pow_pos c)
  obtain ⟨k, hk, hseek, hend, hbefore⟩ := seek_ends start hpos (hstop pos hpos ▸ hfree)
  refine ⟨k, hk, hseek, hstop _ (hlt k) ▸ hend, fun i hi => ?_⟩
  rw [occupied_iff (h.length ▸ hlt i), ← hstop _ (hlt i)]
  exact hbefore i hi

/-- An entry put where no slot between its home and its place is free. -/
theorem insert {s : α} {k : Nat} (hk : k < 2 ^ c) (hs : free s = false)
    (hbefore : ∀ i < k, Occupied free t ((hash s + i) % 2 ^ c)) :
    Clustered free hash c (t.set ((hash s + k) % 2 ^ c) s) := by
  have hlt : (hash s + k) % 2 ^ c < t.length := by
    rw [h.length]
    exact Nat.mod_lt _ (Nat.two_pow_pos c)
  -- slots that were occupied still are
  have hkeep : ∀ {pos}, Occupied free t pos →
      Occupied free (t.set ((hash s + k) % 2 ^ c) s) pos := by
    rintro pos ⟨s', hget, hocc⟩
    by_cases heq : pos = (hash s + k) % 2 ^ c
    · refine ⟨s, ?_, hs⟩
      rw [heq, List.getElem?_set_self hlt]
    · refine ⟨s', ?_, hocc⟩
      rw [List.getElem?_set_ne (Ne.symm heq)]
      exact hget
  refine ⟨by rw [List.length_set, h.length], fun pos s' hget hocc => ?_⟩
  by_cases heq : pos = (hash s + k) % 2 ^ c
  · rw [heq, List.getElem?_set_self hlt] at hget
    cases hget
    exact ⟨k, hk, heq, fun i hi => hkeep (hbefore i hi)⟩
  · rw [List.getElem?_set_ne (Ne.symm heq)] at hget
    obtain ⟨k', hk', hpos, hbefore'⟩ := h.reach pos s' hget hocc
    exact ⟨k', hk', hpos, fun i hi => hkeep (hbefore' i hi)⟩

/-- A table with room for the entries of an old one takes them all. -/
theorem refill (old : List α)
    (hroom : (entries free old).length + (entries free t).length < 2 ^ c) :
    ∃ t', refill free hash (2 ^ c - 1) old t = some t' ∧ Clustered free hash c t' ∧
      (entries free t').Perm (entries free old ++ entries free t) := by
  induction old generalizing t with
  | nil => exact ⟨t, rfl, h, List.Perm.refl _⟩
  | cons s old ih =>
      cases hs : free s with
      | true =>
          have hskip : entries free (s :: old) = entries free old := by
            rw [entries, List.filter_cons_of_neg (by rw [hs]; decide), entries]
          rw [hskip] at hroom ⊢
          rw [Probing.refill, if_pos hs]
          exact ih h hroom
      | false =>
          have htake : entries free (s :: old) = s :: entries free old := by
            rw [entries, List.filter_cons_of_pos (by rw [hs]; rfl), entries]
          rw [htake, List.length_cons] at hroom
          obtain ⟨k, hk, hseek, hfree, hbefore⟩ := h.seek_free (hash s) (by omega) fun _ _ => rfl
          have hadd := entries_set hfree hs
          obtain ⟨t', hrest, hclustered, hperm⟩ := ih (h.insert hk hs hbefore) (by
            rw [hadd.length_eq, List.length_cons]
            omega)
          refine ⟨t', ?_, hclustered, ?_⟩
          · rw [Probing.refill, if_neg (by rw [hs]; decide), Nat.and_two_pow_sub_one_eq_mod,
              Nat.sub_add_cancel (Nat.two_pow_pos c), hseek]
            exact hrest
          · rw [htake, List.cons_append]
            exact hperm.trans ((hadd.append_left _).trans List.perm_middle)

end Clustered

end Table

end Probing
