import Mathlib.Tactic

set_option autoImplicit false

/-! # Regions of a byte memory

A `Region` is a run of addresses. Two regions are `Apart` when one ends before the other starts,
and a region is `Within` another when it starts and ends inside it. A memory of bytes is a
function on addresses; `copy` is a block copy between regions, and the lemmas say what it leaves
alone. -/

namespace Arnm

/-- The addresses `addr`, …, `addr + size - 1`. -/
structure Region where
  addr : Nat
  size : Nat
  deriving DecidableEq, Repr

namespace Region

/-- The first address behind the region. -/
def stop (r : Region) : Nat := r.addr + r.size

/-- The region has the address. -/
def Has (r : Region) (x : Nat) : Prop := r.addr ≤ x ∧ x < r.stop

/-- One region ends before the other starts. -/
def Apart (r s : Region) : Prop := r.stop ≤ s.addr ∨ s.stop ≤ r.addr

/-- The first region lies inside the second. -/
def Within (r s : Region) : Prop := s.addr ≤ r.addr ∧ r.stop ≤ s.stop

instance (r s : Region) : Decidable (r.Apart s) := inferInstanceAs (Decidable (_ ∨ _))

instance (r s : Region) : Decidable (r.Within s) := inferInstanceAs (Decidable (_ ∧ _))

@[simp] theorem stop_mk (addr size : Nat) : (Region.mk addr size).stop = addr + size := rfl

theorem Within.refl (r : Region) : r.Within r := ⟨Nat.le_refl _, Nat.le_refl _⟩

theorem Within.trans {r s t : Region} (h : r.Within s) (k : s.Within t) : r.Within t :=
  ⟨Nat.le_trans k.1 h.1, Nat.le_trans h.2 k.2⟩

theorem Within.has {r s : Region} (h : r.Within s) {x : Nat} (hx : r.Has x) : s.Has x :=
  ⟨Nat.le_trans h.1 hx.1, Nat.lt_of_lt_of_le hx.2 h.2⟩

theorem Apart.symm {r s : Region} (h : r.Apart s) : s.Apart r := Or.symm h

/-- Parts of regions apart are apart. -/
theorem Apart.within {r s r' s' : Region} (h : r.Apart s) (hr : r'.Within r) (hs : s'.Within s) :
    r'.Apart s' := by
  obtain ⟨hr₁, hr₂⟩ := hr
  obtain ⟨hs₁, hs₂⟩ := hs
  unfold Apart at *
  omega

/-- Regions apart share no address. -/
theorem Apart.not_has {r s : Region} (h : r.Apart s) {x : Nat} (hr : r.Has x) : ¬ s.Has x := by
  rintro ⟨hs₁, hs₂⟩
  obtain ⟨hr₁, hr₂⟩ := hr
  unfold Apart at h
  omega

/-- A region that has an address lies within at most one of two regions apart. -/
theorem Apart.not_within {r s t : Region} (h : s.Apart t) (hr : 0 < r.size)
    (hs : r.Within s) : ¬ r.Within t := by
  intro ht
  have hself := h.within hs ht
  simp only [Apart, stop] at hself
  omega

/-- Different slots of one size are apart. -/
theorem apart_slots (base size : Nat) {i j : Nat} (h : i ≠ j) :
    Apart ⟨base + i * size, size⟩ ⟨base + j * size, size⟩ := by
  rcases Nat.lt_or_gt_of_ne h with hlt | hgt
  · have := Nat.mul_le_mul_right size hlt
    rw [Nat.succ_mul] at this
    refine Or.inl ?_
    simp only [stop_mk]
    omega
  · have := Nat.mul_le_mul_right size hgt
    rw [Nat.succ_mul] at this
    refine Or.inr ?_
    simp only [stop_mk]
    omega

/-- Whether a list of regions is pairwise apart does not depend on its order. -/
theorem pairwise_apart_perm {α : Type} (f : α → Region) {l l' : List α} (h : l.Perm l') :
    l.Pairwise (fun a b => (f a).Apart (f b)) ↔ l'.Pairwise (fun a b => (f a).Apart (f b)) :=
  h.pairwise_iff (fun hab => Apart.symm hab)

/-- Two members at different places of a list pairwise apart are apart. -/
theorem apart_of_getElem? {α : Type} (f : α → Region) {l : List α}
    (h : l.Pairwise (fun a b => (f a).Apart (f b))) {i j : Nat} {a b : α}
    (hi : l[i]? = some a) (hj : l[j]? = some b) (hij : i ≠ j) : (f a).Apart (f b) := by
  obtain ⟨hi', rfl⟩ := List.getElem?_eq_some_iff.mp hi
  obtain ⟨hj', rfl⟩ := List.getElem?_eq_some_iff.mp hj
  rcases Nat.lt_or_gt_of_ne hij with hlt | hgt
  · exact List.pairwise_iff_getElem.mp h i j hi' hj' hlt
  · exact (List.pairwise_iff_getElem.mp h j i hj' hi' hgt).symm

/-- The regions lie apart from each other. -/
def AllApart (l : List Region) : Prop := l.Pairwise Apart

theorem AllApart.perm {l l' : List Region} (h : AllApart l) (hp : l.Perm l') : AllApart l' :=
  (hp.pairwise_iff (fun hab => Apart.symm hab)).mp h

theorem allApart_cons {r : Region} {l : List Region} :
    AllApart (r :: l) ↔ (∀ s ∈ l, r.Apart s) ∧ AllApart l := List.pairwise_cons

/-- A region cut in two leaves the regions apart. -/
theorem AllApart.cut {addr k n : Nat} {l : List Region} (h : AllApart (⟨addr, k + n⟩ :: l)) :
    AllApart (⟨addr, k⟩ :: ⟨addr + k, n⟩ :: l) := by
  obtain ⟨hfirst, hrest⟩ := allApart_cons.mp h
  have hleft : Within ⟨addr, k⟩ ⟨addr, k + n⟩ := ⟨Nat.le_refl _, by simp⟩
  have hright : Within ⟨addr + k, n⟩ ⟨addr, k + n⟩ :=
    ⟨Nat.le_add_right _ _, by simp [Nat.add_assoc]⟩
  refine allApart_cons.mpr ⟨fun s hs => ?_, allApart_cons.mpr ⟨fun s hs => ?_, hrest⟩⟩
  · rcases List.mem_cons.mp hs with rfl | hs
    · exact Or.inl (Nat.le_refl _)
    · exact (hfirst s hs).within hleft (Within.refl s)
  · exact (hfirst s hs).within hright (Within.refl s)

/-! ### The addresses of a list of regions -/

/-- The addresses the regions have. -/
def cells (l : List Region) : Finset Nat := l.foldr (fun r s => Finset.Ico r.addr r.stop ∪ s) ∅

theorem mem_cells {l : List Region} {x : Nat} : x ∈ cells l ↔ ∃ r ∈ l, r.Has x := by
  induction l with
  | nil => simp [cells]
  | cons r l ih =>
      show x ∈ Finset.Ico r.addr r.stop ∪ cells l ↔ _
      rw [Finset.mem_union, Finset.mem_Ico, ih, List.exists_mem_cons_iff]
      rfl

/-- Regions apart have as many addresses as their sizes say. -/
theorem AllApart.card_cells {l : List Region} (h : AllApart l) :
    (cells l).card = (l.map Region.size).sum := by
  induction l with
  | nil => rfl
  | cons r l ih =>
      obtain ⟨hfirst, hrest⟩ := allApart_cons.mp h
      have hdisjoint : Disjoint (Finset.Ico r.addr r.stop) (cells l) := by
        rw [Finset.disjoint_left]
        intro x hx hxl
        obtain ⟨s, hs, hsx⟩ := mem_cells.mp hxl
        exact (hfirst s hs).not_has (Finset.mem_Ico.mp hx) hsx
      calc (cells (r :: l)).card
          = (Finset.Ico r.addr r.stop).card + (cells l).card :=
            Finset.card_union_of_disjoint hdisjoint
        _ = r.size + (l.map Region.size).sum := by
            rw [ih hrest, Nat.card_Ico, stop, Nat.add_sub_cancel_left]

theorem cells_subset {l : List Region} {r : Region} (hin : ∀ s ∈ l, s.Within r) :
    cells l ⊆ Finset.Ico r.addr r.stop := by
  intro x hx
  obtain ⟨s, hs, hsx⟩ := mem_cells.mp hx
  exact Finset.mem_Ico.mpr ((hin s hs).has hsx)

/-- Regions apart within a region are no larger than it together. -/
theorem AllApart.sum_le {l : List Region} {r : Region} (h : AllApart l)
    (hin : ∀ s ∈ l, s.Within r) : (l.map Region.size).sum ≤ r.size := by
  have hle := Finset.card_le_card (cells_subset hin)
  rwa [h.card_cells, Nat.card_Ico, stop, Nat.add_sub_cancel_left] at hle

/-- Regions apart that are as large as the region they are within leave no address of it out. -/
theorem AllApart.covers {l : List Region} {r : Region} (h : AllApart l)
    (hin : ∀ s ∈ l, s.Within r) (hfull : (l.map Region.size).sum = r.size) {x : Nat}
    (hx : r.Has x) : ∃ s ∈ l, s.Has x := by
  have hcard : (Finset.Ico r.addr r.stop).card ≤ (cells l).card := by
    rw [h.card_cells, hfull, Nat.card_Ico, stop, Nat.add_sub_cancel_left]
  have hsame := Finset.eq_of_subset_of_card_le (cells_subset hin) hcard
  rw [← mem_cells, hsame]
  exact Finset.mem_Ico.mpr hx

end Region

/-! ## Bytes -/

/-- What a memory holds at every address. -/
abbrev Bytes := Nat → UInt8

namespace Bytes

/-- Copy `n` bytes from `src` to `dst`. -/
def copy (m : Bytes) (dst src n : Nat) : Bytes :=
  fun x => if dst ≤ x ∧ x < dst + n then m (src + (x - dst)) else m x

/-- The two memories hold the same bytes throughout the region. -/
def AgreeOn (m m' : Bytes) (r : Region) : Prop := ∀ x, r.Has x → m' x = m x

theorem AgreeOn.refl (m : Bytes) (r : Region) : AgreeOn m m r := fun _ _ => rfl

theorem AgreeOn.trans {m₁ m₂ m₃ : Bytes} {r : Region} (h : AgreeOn m₁ m₂ r)
    (k : AgreeOn m₂ m₃ r) : AgreeOn m₁ m₃ r := fun x hx => (k x hx).trans (h x hx)

theorem AgreeOn.within {m m' : Bytes} {r s : Region} (h : AgreeOn m m' s) (hr : r.Within s) :
    AgreeOn m m' r := fun x hx => h x (hr.has hx)

/-- What was copied. -/
theorem copy_apply {m : Bytes} {dst src n k : Nat} (hk : k < n) :
    m.copy dst src n (dst + k) = m (src + k) := by
  have hin : dst ≤ dst + k ∧ dst + k < dst + n := by omega
  simp only [copy, if_pos hin, Nat.add_sub_cancel_left]

/-- A copy leaves every region apart from its destination alone. -/
theorem copy_agreeOn {m : Bytes} {dst src n : Nat} {r : Region}
    (h : Region.Apart ⟨dst, n⟩ r) : AgreeOn m (m.copy dst src n) r := by
  intro x hx
  have hout : ¬ (dst ≤ x ∧ x < dst + n) := fun hd => h.not_has (x := x) hd hx
  simp only [copy, if_neg hout]

/-! ### Runs of bytes -/

/-- The `n` bytes from `addr` on. -/
def read (m : Bytes) (addr n : Nat) : List UInt8 := (List.range n).map fun k => m (addr + k)

/-- The memory with the bytes written from `addr` on. -/
def put (m : Bytes) (addr : Nat) (values : List UInt8) : Bytes :=
  fun x => if addr ≤ x ∧ x < addr + values.length then values.getD (x - addr) 0 else m x

@[simp] theorem length_read (m : Bytes) (addr n : Nat) : (m.read addr n).length = n := by
  simp [read]

@[simp] theorem read_zero (m : Bytes) (addr : Nat) : m.read addr 0 = [] := rfl

/-- Two runs that follow each other are one. -/
theorem read_add (m : Bytes) (addr k n : Nat) :
    m.read addr (k + n) = m.read addr k ++ m.read (addr + k) n := by
  simp only [read, List.range_add, List.map_append, List.map_map, Function.comp_def, Nat.add_assoc]

/-- A run of slots of one size is read slot by slot. -/
theorem read_slots (m : Bytes) (addr size n : Nat) :
    m.read addr (n * size) = (List.range n).flatMap fun k => m.read (addr + k * size) size := by
  induction n with
  | zero => simp
  | succ n ih =>
      rw [Nat.succ_mul, read_add, ih, List.range_succ, List.flatMap_append, List.flatMap_singleton]

theorem read_congr {m m' : Bytes} {addr n : Nat} (h : AgreeOn m m' ⟨addr, n⟩) :
    m'.read addr n = m.read addr n := by
  refine List.map_congr_left fun k hk => h (addr + k) ⟨Nat.le_add_right _ _, ?_⟩
  rw [Region.stop_mk]
  exact Nat.add_lt_add_left (List.mem_range.mp hk) addr

/-- Bytes that were copied elsewhere read the same there. -/
theorem read_shift {m m' : Bytes} {addr addr' n : Nat} (h : ∀ k < n, m' (addr' + k) = m (addr + k))
    {j k : Nat} (hjk : j + k ≤ n) : m'.read (addr' + j) k = m.read (addr + j) k := by
  refine List.map_congr_left fun i hi => ?_
  have hik := List.mem_range.mp hi
  rw [Nat.add_assoc, h (j + i) (by omega), Nat.add_assoc]

@[simp] theorem read_getElem (m : Bytes) (addr n k : Nat) (hk : k < (m.read addr n).length) :
    (m.read addr n)[k] = m (addr + k) := by
  simp only [read, List.getElem_map, List.getElem_range]

theorem read_take (m : Bytes) (addr n k : Nat) :
    (m.read addr n).take k = m.read addr (min n k) := by
  rw [read, ← List.map_take, List.take_range, Nat.min_comm]
  rfl

/-- What is found of a run of bytes that was kept as far as both lengths reach. -/
theorem read_of_kept {m m' : Bytes} {addr addr' n : Nat} {contents : List UInt8}
    (hread : m.read addr contents.length = contents)
    (h : ∀ k < min contents.length n, m' (addr' + k) = m (addr + k)) :
    m'.read addr' (min contents.length n) = contents.take n := by
  calc m'.read addr' (min contents.length n)
      = m.read addr (min contents.length n) :=
        List.map_congr_left fun k hk => h k (List.mem_range.mp hk)
    _ = (m.read addr contents.length).take n := (read_take _ _ _ _).symm
    _ = contents.take n := by rw [hread]

/-- Bytes that were kept as far as both lengths reach: the front of the old run, and what is found
behind it. -/
theorem read_kept {m m' : Bytes} {addr addr' old new : Nat}
    (h : ∀ k < min old new, m' (addr' + k) = m (addr + k)) :
    m'.read addr' new = (m.read addr old).take new ++ m'.read (addr' + old) (new - old) := by
  refine List.ext_getElem (by simp; omega) fun k hk hk' => ?_
  rw [length_read] at hk
  rw [read_getElem, List.getElem_append]
  split
  · rename_i hlt
    rw [List.length_take, length_read] at hlt
    rw [List.getElem_take, read_getElem, h k (by omega)]
  · rename_i hlt
    rw [List.length_take, length_read] at hlt
    simp only [read_getElem, List.length_take, length_read]
    congr 1
    omega

/-- What was written. -/
theorem read_put (m : Bytes) (addr : Nat) (values : List UInt8) :
    (m.put addr values).read addr values.length = values := by
  refine List.ext_getElem (length_read _ _ _) fun k hk hk' => ?_
  have hin : addr ≤ addr + k ∧ addr + k < addr + values.length := by omega
  simp only [read, List.getElem_map, List.getElem_range, put, if_pos hin, Nat.add_sub_cancel_left]
  exact (List.getElem_eq_getD 0).symm

/-- A run of bytes a part of which was written. -/
theorem read_put_part {m : Bytes} {addr n offset : Nat} {values : List UInt8}
    (h : offset + values.length ≤ n) :
    (m.put (addr + offset) values).read addr n =
      (m.read addr n).take offset ++ values ++ (m.read addr n).drop (offset + values.length) := by
  refine List.ext_getElem (by simp; omega) fun k hk hk' => ?_
  rw [read_getElem]
  by_cases hin : addr + offset ≤ addr + k ∧ addr + k < addr + offset + values.length
  · rw [List.getElem_append_left (by simp; omega), List.getElem_append_right (by simp; omega)]
    simp only [put, if_pos hin]
    rw [← List.getElem_eq_getD (h := by omega) 0]
    congr 1
    simp only [List.length_take, length_read]
    omega
  · simp only [put, if_neg hin]
    by_cases hlt : k < offset
    · rw [List.getElem_append_left (by simp; omega), List.getElem_append_left (by simp; omega),
        List.getElem_take, read_getElem]
    · rw [List.getElem_append_right (by simp; omega), List.getElem_drop, read_getElem]
      simp only [List.length_append, List.length_take, length_read]
      congr 1
      omega

/-- A write leaves every region apart from its place alone. -/
theorem put_agreeOn {m : Bytes} {addr : Nat} {values : List UInt8} {r : Region}
    (h : Region.Apart ⟨addr, values.length⟩ r) : AgreeOn m (m.put addr values) r := by
  intro x hx
  have hout : ¬ (addr ≤ x ∧ x < addr + values.length) := fun hd => h.not_has (x := x) hd hx
  simp only [put, if_neg hout]

end Bytes

end Arnm
