import Arnm.Memory.Calls

set_option autoImplicit false

/-! # The blocks a client holds

A client keeps the blocks it was handed, each with the size it goes by: the size asked for after a
success and after a growth, the old size when a shrink could not be carried out. It frees and
resizes only those. `Sound` is what then holds of the arenas and the blocks in every state of a
run: the blocks lie apart from each other, each inside the used part of an arena. -/

namespace Arnm.Memory

/-- A block as its client knows it. -/
structure Block where
  addr : Nat
  size : Nat
  deriving DecidableEq, Repr

/-- The bytes an arena reserves for the block. -/
def Block.room (b : Block) : Region := ⟨b.addr, align8U32 b.size⟩

/-- All bytes of an arena. -/
def Arena.region (a : Arena) : Region := ⟨a.data, a.capacity⟩

/-- The bytes in front of `last_index`. -/
def Arena.used (a : Arena) : Region := ⟨a.data, a.lastIndex⟩

/-- An arena over an aligned buffer, its `last_index` aligned and within the capacity. -/
structure Arena.Sound (a : Arena) : Prop where
  data_ne : a.data ≠ 0
  data_dvd : 8 ∣ a.data
  index_dvd : 8 ∣ a.lastIndex
  index_le : a.lastIndex ≤ a.capacity
  stop_le : a.data + a.capacity ≤ 2 ^ 64

/-- The arenas lie apart, and so do the blocks; each block starts aligned and lies inside the used
part of an arena. -/
structure Sound (arenas : List Arena) (held : List Block) : Prop where
  arena : ∀ a ∈ arenas, a.Sound
  apart : arenas.Pairwise fun a b => a.region.Apart b.region
  size_ne : ∀ b ∈ held, align8U32 b.size ≠ 0
  addr_dvd : ∀ b ∈ held, 8 ∣ b.addr
  within : ∀ b ∈ held, ∃ (i : Nat) (a : Arena), arenas[i]? = some a ∧ b.room.Within a.used
  heldApart : held.Pairwise fun b c => b.room.Apart c.room

theorem Arena.used_within {a : Arena} (h : a.lastIndex ≤ a.capacity) : a.used.Within a.region :=
  ⟨Nat.le_refl _, Nat.add_le_add_left h _⟩

namespace Sound

variable {arenas : List Arena} {held : List Block}

theorem region_within (h : Sound arenas held) {a : Arena} (ha : a ∈ arenas) :
    a.used.Within a.region := Arena.used_within (h.arena a ha).index_le

theorem sublist {held' : List Block} (h : Sound arenas held) (hs : held'.Sublist held) :
    Sound arenas held' where
  arena := h.arena
  apart := h.apart
  size_ne b hb := h.size_ne b (hs.subset hb)
  addr_dvd b hb := h.addr_dvd b (hs.subset hb)
  within b hb := h.within b (hs.subset hb)
  heldApart := h.heldApart.sublist hs

theorem perm {held' : List Block} (h : Sound arenas held) (hp : held.Perm held') :
    Sound arenas held' where
  arena := h.arena
  apart := h.apart
  size_ne b hb := h.size_ne b (hp.mem_iff.mpr hb)
  addr_dvd b hb := h.addr_dvd b (hp.mem_iff.mpr hb)
  within b hb := h.within b (hp.mem_iff.mpr hb)
  heldApart := (Region.pairwise_apart_perm Block.room hp).mp h.heldApart

/-- A block lies in the used part of one arena only. -/
theorem within_unique (h : Sound arenas held) {b : Block} (hb : b ∈ held) {i j : Nat}
    {a a' : Arena} (hi : arenas[i]? = some a) (hj : arenas[j]? = some a')
    (ha : b.room.Within a.region) (ha' : b.room.Within a'.region) : i = j := by
  by_contra hij
  have hapart := Region.apart_of_getElem? Arena.region h.apart hi hj hij
  exact hapart.not_within (Nat.pos_of_ne_zero (h.size_ne b hb)) ha ha'

theorem addr_ne (h : Sound arenas held) {b : Block} (hb : b ∈ held) : b.addr ≠ 0 := by
  obtain ⟨i, a, hi, hin⟩ := h.within b hb
  have hd := (h.arena a (List.mem_of_getElem? hi)).data_ne
  have hle : a.data ≤ b.addr := hin.1
  omega

/-! ## What keeps the arenas and the blocks sound -/

/-- One arena moves its `last_index`, no block of it left outside. -/
theorem modify {i : Nat} {f : Arena → Arena} (h : Sound arenas held)
    (hf : ∀ a, arenas[i]? = some a →
      (f a).data = a.data ∧ (f a).capacity = a.capacity ∧ 8 ∣ (f a).lastIndex ∧
      (f a).lastIndex ≤ a.capacity ∧
      ∀ b ∈ held, b.room.Within a.used → b.room.Within (f a).used) :
    Sound (arenas.modify i f) held where
  arena a ha := by
    obtain ⟨j, hj⟩ := List.mem_iff_getElem?.mp ha
    obtain ⟨b, hb, hba⟩ := getElem?_modify_eq_some.mp hj
    have hs := h.arena b (List.mem_of_getElem? hb)
    subst hba
    split
    · rename_i hij
      subst hij
      obtain ⟨hd, hc, hdvd, hle, -⟩ := hf b hb
      exact ⟨hd ▸ hs.data_ne, hd ▸ hs.data_dvd, hdvd, hc ▸ hle, by rw [hd, hc]; exact hs.stop_le⟩
    · exact hs
  apart := by
    -- an arena keeps its region, so the regions stay apart
    have hregion : ∀ (j : Nat) (a : Arena), (arenas.modify i f)[j]? = some a →
        ∃ b : Arena, arenas[j]? = some b ∧ a.region = b.region := by
      intro j a hj
      obtain ⟨b, hb, hba⟩ := getElem?_modify_eq_some.mp hj
      refine ⟨b, hb, ?_⟩
      subst hba
      split
      · rename_i hij
        subst hij
        obtain ⟨hd, hc, -⟩ := hf b hb
        rw [Arena.region, Arena.region, hd, hc]
      · rfl
    rw [List.pairwise_iff_getElem]
    intro j k hj hk hjk
    obtain ⟨b, hb, hjb⟩ := hregion j _ (List.getElem?_eq_getElem hj)
    obtain ⟨c, hc, hkc⟩ := hregion k _ (List.getElem?_eq_getElem hk)
    rw [hjb, hkc]
    exact Region.apart_of_getElem? Arena.region h.apart hb hc (Nat.ne_of_lt hjk)
  size_ne := h.size_ne
  addr_dvd := h.addr_dvd
  within b hb := by
    obtain ⟨j, a, hj, hin⟩ := h.within b hb
    by_cases hij : i = j
    · subst hij
      exact ⟨i, f a, getElem?_modify_eq_some.mpr ⟨a, hj, if_pos rfl⟩, (hf a hj).2.2.2.2 b hb hin⟩
    · exact ⟨j, a, getElem?_modify_eq_some.mpr ⟨a, hj, if_neg hij⟩, hin⟩
  heldApart := h.heldApart

/-- The next bytes of an arena become a block. -/
theorem bump {i size : Nat} {a : Arena} (h : Sound arenas held) (hi : arenas[i]? = some a)
    (hn : align8U32 size ≠ 0) (hroom : align8U32 size ≤ a.remainingBytes) :
    Sound (arenas.modify i (Arena.bump (align8U32 size)))
      (⟨a.data + a.lastIndex, size⟩ :: held) := by
  have hs := h.arena a (List.mem_of_getElem? hi)
  have hfit : a.lastIndex + align8U32 size ≤ a.capacity := by
    have := hs.index_le
    unfold Arena.remainingBytes at hroom
    omega
  have hgrown := h.modify (i := i) (f := Arena.bump (align8U32 size)) fun b hb => by
    rw [hi, Option.some.injEq] at hb
    subst hb
    refine ⟨rfl, rfl, ?_, hfit, fun c _ hin => hin.trans ⟨Nat.le_refl _, ?_⟩⟩
    · exact (Nat.dvd_add_right hs.index_dvd).mpr (align8U32_dvd size)
    · simp only [Arena.used, Region.stop_mk, Arena.bump_data, Arena.bump_lastIndex]
      omega
  refine ⟨hgrown.arena, hgrown.apart, ?_, ?_, ?_, ?_⟩
  · intro b hb
    rcases List.mem_cons.mp hb with rfl | hb
    · exact hn
    · exact h.size_ne b hb
  · intro b hb
    rcases List.mem_cons.mp hb with rfl | hb
    · exact (Nat.dvd_add_right hs.data_dvd).mpr hs.index_dvd
    · exact h.addr_dvd b hb
  · intro b hb
    rcases List.mem_cons.mp hb with rfl | hb
    · refine ⟨i, _, getElem?_modify_eq_some.mpr ⟨a, hi, if_pos rfl⟩, ?_⟩
      simp only [Region.Within, Block.room, Arena.used, Region.stop_mk, Arena.bump_data,
        Arena.bump_lastIndex]
      omega
    · exact hgrown.within b hb
  · refine List.pairwise_cons.mpr ⟨fun b hb => ?_, h.heldApart⟩
    -- in its own arena the block lies behind all others, in another one elsewhere
    obtain ⟨j, c, hj, hin⟩ := h.within b hb
    by_cases hij : i = j
    · subst hij
      rw [hi, Option.some.injEq] at hj
      subst hj
      exact Or.inr hin.2
    · have hapart := Region.apart_of_getElem? Arena.region h.apart hi hj hij
      refine hapart.within ⟨Nat.le_add_right _ _, ?_⟩
        (hin.trans (h.region_within (List.mem_of_getElem? hj)))
      simp only [Arena.region, Block.room, Region.stop_mk]
      omega

/-- The newest block of an arena goes back. -/
theorem rewind {i : Nat} {a : Arena} {b : Block} (h : Sound arenas (b :: held))
    (hi : arenas[i]? = some a) (hnewest : a.data + a.lastIndex = b.addr + align8U32 b.size)
    (hin : b.room.Within a.used) :
    Sound (arenas.modify i (Arena.rewind (align8U32 b.size))) held := by
  have hs := h.arena a (List.mem_of_getElem? hi)
  have hle : align8U32 b.size ≤ a.lastIndex := by
    have hlo : a.data ≤ b.addr := hin.1
    omega
  refine (h.sublist (List.sublist_cons_self b held)).modify fun c hc => ?_
  rw [hi, Option.some.injEq] at hc
  subst hc
  refine ⟨rfl, rfl, ?_, ?_, fun c hc hcin => ?_⟩
  · exact (Nat.dvd_sub hs.index_dvd (align8U32_dvd b.size))
  · exact Nat.le_trans (Nat.sub_le _ _) hs.index_le
  · -- the block was the last of its arena, so the others end in front of it
    have hapart := (List.pairwise_cons.mp h.heldApart).1 c hc
    have hpos := Nat.pos_of_ne_zero (h.size_ne c (List.mem_cons_of_mem b hc))
    have hlo : a.data ≤ c.addr := hcin.1
    have hhi : c.addr + align8U32 c.size ≤ a.data + a.lastIndex := hcin.2
    have hor : b.addr + align8U32 b.size ≤ c.addr ∨ c.addr + align8U32 c.size ≤ b.addr := hapart
    refine ⟨hlo, ?_⟩
    simp only [Block.room, Arena.used, Region.stop_mk, Arena.rewind_data, Arena.rewind_lastIndex]
    omega

/-- A block goes by another size that takes as many bytes. -/
theorem resize {b : Block} {size : Nat} (h : Sound arenas (b :: held))
    (hsize : align8U32 size = align8U32 b.size) : Sound arenas (⟨b.addr, size⟩ :: held) := by
  have hroom : Block.room ⟨b.addr, size⟩ = b.room := by rw [Block.room, Block.room, hsize]
  refine ⟨h.arena, h.apart, ?_, ?_, ?_, ?_⟩
  · intro c hc
    rcases List.mem_cons.mp hc with rfl | hc
    · exact hsize ▸ h.size_ne b List.mem_cons_self
    · exact h.size_ne c (List.mem_cons_of_mem b hc)
  · intro c hc
    rcases List.mem_cons.mp hc with rfl | hc
    · exact h.addr_dvd b List.mem_cons_self
    · exact h.addr_dvd c (List.mem_cons_of_mem b hc)
  · intro c hc
    rcases List.mem_cons.mp hc with rfl | hc
    · rw [hroom]
      exact h.within b List.mem_cons_self
    · exact h.within c (List.mem_cons_of_mem b hc)
  · obtain ⟨hfirst, hrest⟩ := List.pairwise_cons.mp h.heldApart
    exact List.pairwise_cons.mpr ⟨fun c hc => hroom ▸ hfirst c hc, hrest⟩

/-- A further arena. -/
theorem push {a : Arena} (h : Sound arenas held) (ha : a.Sound)
    (hapart : ∀ b ∈ arenas, b.region.Apart a.region) : Sound (arenas ++ [a]) held where
  arena b hb := by
    rw [List.mem_append, List.mem_singleton] at hb
    rcases hb with hb | rfl
    · exact h.arena b hb
    · exact ha
  apart := by
    rw [List.pairwise_append]
    refine ⟨h.apart, List.pairwise_singleton _ _, fun b hb c hc => ?_⟩
    rw [List.mem_singleton] at hc
    exact hc ▸ hapart b hb
  size_ne := h.size_ne
  addr_dvd := h.addr_dvd
  within b hb := by
    obtain ⟨i, c, hi, hin⟩ := h.within b hb
    refine ⟨i, c, ?_, hin⟩
    rw [List.getElem?_append_left (List.getElem?_eq_some_iff.mp hi).1]
    exact hi
  heldApart := h.heldApart

/-- Arenas at the end that hold nothing go. -/
theorem drop {arenas' rest : List Arena} (h : Sound arenas held) (hcut : arenas' ++ rest = arenas)
    (hempty : ∀ a ∈ rest, a.lastIndex = 0) : Sound arenas' held where
  arena a ha := h.arena a (hcut ▸ List.mem_append_left rest ha)
  apart := (List.pairwise_append.mp (hcut ▸ h.apart)).1
  size_ne := h.size_ne
  addr_dvd := h.addr_dvd
  within b hb := by
    obtain ⟨i, a, hi, hin⟩ := h.within b hb
    refine ⟨i, a, ?_, hin⟩
    rw [← hcut] at hi
    by_cases hlt : i < arenas'.length
    · rw [← List.getElem?_append_left hlt]
      exact hi
    · rw [List.getElem?_append_right (by omega)] at hi
      have hzero := hempty a (List.mem_of_getElem? hi)
      have hpos := h.size_ne b hb
      have hlo : a.data ≤ b.addr := hin.1
      have hhi : b.addr + align8U32 b.size ≤ a.data + a.lastIndex := hin.2
      omega
  heldApart := h.heldApart

/-- Every arena emptied, and every block gone. -/
theorem reset (h : Sound arenas held) : Sound (arenas.map Arena.reset) [] where
  arena a ha := by
    obtain ⟨b, hb, rfl⟩ := List.mem_map.mp ha
    have hs := h.arena b hb
    exact ⟨hs.data_ne, hs.data_dvd, Nat.dvd_zero 8, Nat.zero_le _, hs.stop_le⟩
  apart := List.pairwise_map.mpr h.apart
  size_ne b hb := absurd hb List.not_mem_nil
  addr_dvd b hb := absurd hb List.not_mem_nil
  within b hb := absurd hb List.not_mem_nil
  heldApart := List.Pairwise.nil

theorem recount (h : Sound arenas held) (i total : Nat) :
    Sound (arenas.modify i (Arena.recount total)) held :=
  h.modify fun a ha =>
    have hs := h.arena a (List.mem_of_getElem? ha)
    ⟨rfl, rfl, hs.index_dvd, hs.index_le, fun _ _ hin => hin⟩

/-- The newest block of an arena goes by another size, its arena having room for it. -/
theorem retail {i size : Nat} {a : Arena} {b : Block} (h : Sound arenas (b :: held))
    (hi : arenas[i]? = some a) (hnewest : a.data + a.lastIndex = b.addr + align8U32 b.size)
    (hin : b.room.Within a.used) (hn : align8U32 size ≠ 0)
    (hroom : align8U32 size ≤ a.remainingBytes + align8U32 b.size) :
    Sound (arenas.modify i (Arena.bump (align8U32 size) ∘ Arena.rewind (align8U32 b.size)))
      (⟨b.addr, size⟩ :: held) := by
  have hs := h.arena a (List.mem_of_getElem? hi)
  have hlo : a.data ≤ b.addr := hin.1
  have hback := h.rewind hi hnewest hin
  have hget : (arenas.modify i (Arena.rewind (align8U32 b.size)))[i]? =
      some (a.rewind (align8U32 b.size)) :=
    getElem?_modify_eq_some.mpr ⟨a, hi, if_pos rfl⟩
  have hagain := hback.bump hget hn (by
    have := hs.index_le
    unfold Arena.remainingBytes at *
    simp only [Arena.rewind_lastIndex, Arena.rewind_capacity]
    omega)
  rw [List.modify_modify_eq] at hagain
  have haddr : (a.rewind (align8U32 b.size)).data + (a.rewind (align8U32 b.size)).lastIndex =
      b.addr := by
    simp only [Arena.rewind_data, Arena.rewind_lastIndex]
    omega
  rwa [haddr] at hagain

end Sound

end Arnm.Memory
