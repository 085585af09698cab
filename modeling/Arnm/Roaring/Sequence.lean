import Arnm.Roaring.Add

set_option autoImplicit false

/-! # Sequences of adds

With a pool that grants, an ascending sequence of values is added in full, up to the number of
values the set can count.
-/

namespace Arnm.Roaring

open Listing Memory Lending

variable {σ : Type} {L : BlockPool σ} {s : σ}

theorem addAll_cons (set : Bitmap) (v : Nat) (values : List Nat) :
    addAll L set (v :: values) s
      = addAll L (add L set v s).set values (add L set v s).pool := rfl

/-- The number of different values in two lists. -/
def together (l l' : List Nat) : Nat := (l ++ l').dedup.length

theorem together_congr {l l' k k' : List Nat}
    (h : ∀ v, v ∈ l ∨ v ∈ l' ↔ v ∈ k ∨ v ∈ k') : together l l' = together k k' := by
  refine List.Perm.length_eq ?_
  rw [List.perm_ext_iff_of_nodup (List.nodup_dedup _) (List.nodup_dedup _)]
  intro v
  rw [List.mem_dedup, List.mem_dedup, List.mem_append, List.mem_append, h v]

/-- A value that is not held yet counts once more. -/
theorem length_lt_together {l l' : List Nat} {v : Nat} (hs : l.Pairwise (· < ·)) (hv : v ∉ l)
    (hl' : v ∈ l') : l.length < together l l' := by
  have hnodup : (v :: l).Nodup := List.nodup_cons.mpr ⟨hv, hs.imp fun h => Nat.ne_of_lt h⟩
  have hsub : v :: l ⊆ (l ++ l').dedup := by
    intro a ha
    rw [List.mem_dedup, List.mem_append]
    rcases List.mem_cons.mp ha with rfl | ha
    · exact Or.inr hl'
    · exact Or.inl ha
  exact (hnodup.subperm hsub).length_le

/-- With a pool that grants, the values of an ascending sequence all get in. -/
theorem addAll_members (hg : L.Grants) {set : Bitmap} (hw : set.WellFormed) {values : List Nat}
    (hlt : ∀ v ∈ values, v < 2 ^ 32) (hasc : values.Pairwise (· ≤ ·))
    (habove : ∀ m ∈ set.members, ∀ v ∈ values, m ≤ v)
    (hroom : together set.members values ≤ uint32Max) :
    (addAll L set values s).1.WellFormed ∧
      ∀ v, v ∈ (addAll L set values s).1.members ↔ v ∈ set.members ∨ v ∈ values := by
  induction values generalizing set s with
  | nil => exact ⟨hw, fun v => by simp [addAll]⟩
  | cons v values ih =>
      rw [addAll_cons]
      obtain ⟨hfirst, hrest⟩ := List.pairwise_cons.mp hasc
      have hv := hlt v List.mem_cons_self
      have hlt' : ∀ u ∈ values, u < 2 ^ 32 := fun u hu => hlt u (List.mem_cons_of_mem _ hu)
      by_cases hin : v ∈ set.members
      · -- it is the maximum already
        have hnot : ¬ set.Takes v := fun ht => Nat.lt_irrefl v (ht.1 v hin)
        rw [add_not_takes hw.valid hnot]
        obtain ⟨hwell, hmem⟩ := ih (s := s) hw hlt' hrest
          (fun m hm u hu => habove m hm u (List.mem_cons_of_mem _ hu)) (by
            refine Nat.le_trans (Nat.le_of_eq (together_congr fun u => ?_)) hroom
            rw [List.mem_cons]
            constructor
            · rintro (h | h)
              · exact Or.inl h
              · exact Or.inr (Or.inr h)
            · rintro (h | rfl | h)
              · exact Or.inl h
              · exact Or.inl hin
              · exact Or.inr h)
        refine ⟨hwell, fun u => ?_⟩
        rw [hmem, List.mem_cons]
        constructor
        · rintro (h | h)
          · exact Or.inl h
          · exact Or.inr (Or.inr h)
        · rintro (h | rfl | h)
          · exact Or.inl h
          · exact Or.inl hin
          · exact Or.inr h
      · have htakes : set.Takes v := by
          refine ⟨fun m hm => ?_, ?_⟩
          · have := habove m hm v List.mem_cons_self
            rcases Nat.lt_or_eq_of_le this with h | rfl
            · exact h
            · exact absurd hm hin
          · have := length_lt_together hw.valid.pairwise_members hin
              (List.mem_cons_self (l := values))
            omega
        rcases add_takes (L := L) (s := s) hw hv htakes with
          ⟨-, hwell, hmembers, -⟩ | ⟨-, -, -, hrefused, -⟩
        · have hiff : ∀ u, u ∈ (add L set v s).set.members ∨ u ∈ values ↔
              u ∈ set.members ∨ u ∈ v :: values := fun u => by
            rw [hmembers, List.mem_append, List.mem_singleton, List.mem_cons, or_assoc]
          obtain ⟨hwell', hmem⟩ := ih (s := (add L set v s).pool) hwell hlt' hrest
            (fun m hm u hu => by
              rw [hmembers] at hm
              rcases List.mem_append.mp hm with hm | hm
              · exact habove m hm u (List.mem_cons_of_mem _ hu)
              · rw [List.mem_singleton.mp hm]
                exact hfirst u hu)
            (Nat.le_trans (Nat.le_of_eq (together_congr hiff)) hroom)
          exact ⟨hwell', fun u => (hmem u).trans (hiff u)⟩
        · exact absurd hg hrefused

/-- With a pool that grants, an ascending sequence of values is added in full, provided old and new
values are together no more than the set can count: the set then holds exactly these and is well
formed. The maximum again changes nothing, and a smaller value is refused. -/
theorem add_sequence (hg : L.Grants) {set : Bitmap} (hw : set.WellFormed) (pool : σ) :
    (∀ values : List Nat, (∀ v ∈ values, v < 2 ^ 32) → values.Pairwise (· ≤ ·) →
      (∀ m ∈ set.members, ∀ v ∈ values, m ≤ v) →
      together set.members values ≤ uint32Max →
      (addAll L set values pool).1.WellFormed ∧
        ∀ v, v ∈ (addAll L set values pool).1.members ↔ v ∈ set.members ∨ v ∈ values) ∧
    (set.members ≠ [] → add L set set.maximum pool = ⟨.success, set, pool⟩) ∧
    ∀ v < set.maximum, set.members ≠ [] → add L set v pool = ⟨.errorInvalidParam, set, pool⟩ := by
  refine ⟨fun values hlt hasc habove hroom => addAll_members hg hw hlt hasc habove hroom,
    fun hne => ?_, fun v hv hne => ?_⟩
  · have hmax := List.mem_of_getLast? (hw.valid.maximum_of_ne hne)
    rw [add_not_takes hw.valid (fun ht => Nat.lt_irrefl _ (ht.1 _ hmax)), if_pos ⟨hmax, rfl⟩]
  · have hmax := List.mem_of_getLast? (hw.valid.maximum_of_ne hne)
    rw [add_not_takes hw.valid (fun ht => by have := ht.1 _ hmax; omega),
      if_neg (fun hc => by omega), if_pos hv]

/-- A pool that grants every request. -/
def grantingPool : BlockPool Nat := Lender.answering fun asked => .ok (2 ^ 20 * (asked + 1))

theorem grantingPool_grants : grantingPool.Grants := fun _ _ => ⟨_, rfl⟩

/-- Three values behind 7, one of them twice and one of a later key; then 8 comes too late. -/
theorem add_sequence_sample :
    let set := (addAll grantingPool (Bitmap.mk (some 4096) [] [7] 1 7 4) [7, 9, 9, 65536] 0).1
    set.WellFormed ∧ 9 ∈ set.members ∧ 65536 ∈ set.members ∧ 8 ∉ set.members ∧
      add grantingPool set 8 0 = ⟨.errorInvalidParam, set, 0⟩ := by
  intro set
  have hw : (Bitmap.mk (some 4096) [] [7] 1 7 4).WellFormed :=
    ⟨Bitmap.valid_single (by decide) 4096, fun h => by cases h⟩
  obtain ⟨hwell, hmem⟩ := (add_sequence grantingPool_grants hw 0).1 [7, 9, 9, 65536]
    (by decide) (by decide) (by decide) (by decide)
  have h9 : 9 ∈ set.members := (hmem 9).mpr (Or.inr (by decide))
  refine ⟨hwell, h9, (hmem 65536).mpr (Or.inr (by decide)),
    fun h8 => absurd ((hmem 8).mp h8) (by decide), ?_⟩
  exact (add_sequence grantingPool_grants hwell 0).2.2 8 (by decide) (List.ne_nil_of_mem h9)

/-- A set that counts as many values as it can refuses one more. -/
theorem add_full {set : Bitmap} {v : Nat} (hw : set.WellFormed)
    (hfull : set.members.length = uint32Max)
    (habove : ∀ m ∈ set.members, m < v) :
    add L set v s = ⟨.errorResourceExhausted, set, s⟩ := by
  have hne : set.members ≠ [] := fun hn => by
    rw [hn] at hfull
    cases hfull
  have hmax := habove _ (List.mem_of_getLast? (hw.valid.maximum_of_ne hne))
  have hnot : ¬ set.Takes v := fun ht => by
    have := ht.2
    omega
  rw [add_not_takes hw.valid hnot, if_neg (fun hc => by omega), if_neg (by omega)]

/-- The set built of the `n` smallest values. -/
def builtUpTo (n : Nat) : Bitmap := (addAll grantingPool Bitmap.init (List.range n) 0).1

theorem members_builtUpTo {n : Nat} (hn : n ≤ uint32Max) :
    (builtUpTo n).WellFormed ∧ (builtUpTo n).members = List.range n := by
  have hnil : Bitmap.init.members = [] := rfl
  have hlt : ∀ v ∈ List.range n, v < 2 ^ 32 := fun v hv => by
    rw [List.mem_range] at hv
    simp only [uint32Max] at hn
    omega
  have hroom : together Bitmap.init.members (List.range n) ≤ uint32Max := by
    rw [together, hnil, List.nil_append, List.dedup_eq_self.mpr List.nodup_range,
      List.length_range]
    exact hn
  obtain ⟨hwell, hmem⟩ := addAll_members (s := 0) grantingPool_grants Bitmap.wellFormed_init hlt
    (List.pairwise_lt_range.imp Nat.le_of_lt) (fun m hm => absurd hm List.not_mem_nil) hroom
  refine ⟨hwell, eq_of_mem_iff_lt hwell.valid.pairwise_members List.pairwise_lt_range fun v => ?_⟩
  rw [builtUpTo, hmem, hnil]
  exact or_iff_right List.not_mem_nil

/-- One more value lies above all that a full set holds, and is refused. -/
theorem add_full_refused {n : Nat} (hn : n = uint32Max) :
    (builtUpTo n).WellFormed ∧ (∀ m ∈ (builtUpTo n).members, m ≤ n) ∧
      (add grantingPool (builtUpTo n) n 0).result = .errorResourceExhausted ∧
      ¬ ∀ v, v ∈ (addAll grantingPool (builtUpTo n) [n] 0).1.members ↔
        v ∈ (builtUpTo n).members ∨ v ∈ [n] := by
  obtain ⟨hwell, hmembers⟩ := members_builtUpTo (Nat.le_of_eq hn)
  have hbelow : ∀ m ∈ (builtUpTo n).members, m < n := fun m hm => by
    rwa [hmembers, List.mem_range] at hm
  have hadd := add_full (L := grantingPool) (s := 0) hwell
    (by rw [hmembers, List.length_range, hn]) hbelow
  refine ⟨hwell, fun m hm => (hbelow m hm).le, by rw [hadd], fun hall => ?_⟩
  have hin := (hall n).mpr (Or.inr List.mem_cons_self)
  rw [addAll_cons, hadd] at hin
  exact Nat.lt_irrefl _ (hbelow _ hin)

theorem add_sequence_full :
    uint32Max < 2 ^ 32 ∧ (builtUpTo uint32Max).WellFormed ∧
      (∀ m ∈ (builtUpTo uint32Max).members, m ≤ uint32Max) ∧
      (add grantingPool (builtUpTo uint32Max) uint32Max 0).result = .errorResourceExhausted ∧
      ¬ ∀ v, v ∈ (addAll grantingPool (builtUpTo uint32Max) [uint32Max] 0).1.members ↔
        v ∈ (builtUpTo uint32Max).members ∨ v ∈ [uint32Max] :=
  ⟨by decide, add_full_refused rfl⟩

end Arnm.Roaring
