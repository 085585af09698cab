import Arnm.Memory.Resize

set_option autoImplicit false

/-! # Clients beside each other

Several clients share an arena or a chain. What the others do, calls on their own blocks and writes
into them, leaves the blocks of this client sound and their bytes as they were. -/

namespace Arnm.Memory

variable {host : Host} {h h' : Heap} {mine others others' : List Block}

/-- A step of the others: a call of theirs other than a reset, or a write into their blocks. -/
inductive Elsewhere (h : Heap) (others : List Block) : Heap → List Block → Prop where
  | call (host : Host) (c : Call) (fresh : Fresh host h.memory.arenas)
      (honest : Honest ⟨h, others⟩ c) (keeps : c ≠ .reset) :
      Elsewhere h others (h.call host c).state (ledger others (h.call host c) c)
  | write (bytes : Bytes) (inside : ∀ x, (∀ b ∈ others, ¬ b.room.Has x) → bytes x = h.bytes x) :
      Elsewhere h others { h with bytes := bytes } others

/-- Nobody else holds a block of this client. -/
theorem Sound.not_mem_of_mem {arenas : List Arena} (hs : Sound arenas (mine ++ others)) {b : Block}
    (hb : b ∈ others) : b ∉ mine := by
  intro hmine
  have hapart := (List.pairwise_append.mp hs.heldApart).2.2 b hmine b hb
  have hpos := Nat.pos_of_ne_zero (hs.size_ne b (List.mem_append_right _ hb))
  exact hapart.not_within (r := b.room) hpos (Region.Within.refl _) (Region.Within.refl _)

theorem Sound.not_mem_null {arenas : List Arena} {held : List Block} (hs : Sound arenas held)
    (size : Nat) : ⟨0, size⟩ ∉ held := fun hb => hs.addr_ne hb rfl

/-- What an honest call names is no block of the other clients. -/
theorem Sound.honest_not_mem (hs : Sound h.memory.arenas (mine ++ others)) {buffer size : Nat}
    (honest : buffer = 0 ∨ ⟨buffer, size⟩ ∈ others) : ⟨buffer, size⟩ ∉ mine := by
  rcases honest with rfl | hb
  · exact fun hb => hs.not_mem_null size (List.mem_append_left _ hb)
  · exact hs.not_mem_of_mem hb

/-- The blocks the others hold after a call of theirs are theirs after it was carried out on all
blocks. -/
theorem ledger_append (hs : Sound h.memory.arenas (mine ++ others)) {c : Call}
    (honest : Honest ⟨h, others⟩ c) (keeps : c ≠ .reset) (r : Answer Heap) :
    (ledger (mine ++ others) r c).Perm (mine ++ ledger others r c) := by
  -- a block granted stands in front of theirs as well as in front of all
  have hgrant : ∀ b : Block, (b :: (mine ++ others)).Perm (mine ++ b :: others) :=
    fun b => List.perm_middle.symm
  cases c with
  | alloc size =>
      simp only [ledger]
      split
      · exact hgrant _
      · exact List.Perm.refl _
  | clone src size =>
      simp only [ledger]
      split
      · exact hgrant _
      · exact List.Perm.refl _
  | free buffer size =>
      simp only [ledger]
      split
      · exact List.Perm.refl _
      · rw [List.erase_append_right _ (hs.honest_not_mem honest)]
  | realloc buffer oldSize newSize =>
      simp only [ledger]
      rw [List.erase_append_right _ (hs.honest_not_mem honest)]
      split
      · exact List.Perm.refl _
      · split
        · exact List.Perm.refl _
        · split
          · exact List.Perm.refl _
          · split
            · exact List.Perm.refl _
            · exact List.perm_middle.symm
  | reset => exact absurd rfl keeps
  | release => exact honest.elim
  | reserve arenaCount => exact List.Perm.refl _
  | borrow data capacity => exact List.Perm.refl _
  | shrink => exact List.Perm.refl _

theorem Honest.mono {c : Call} (honest : Honest ⟨h, others⟩ c) : Honest ⟨h, mine ++ others⟩ c := by
  cases c with
  | free buffer size => exact honest.imp_right fun hb => List.mem_append_right _ hb
  | realloc buffer oldSize newSize => exact honest.imp_right fun hb => List.mem_append_right _ hb
  | borrow data capacity => exact honest
  | release => exact honest
  | _ => trivial

/-- A resize without a block copies nothing. -/
theorem realloc_null_bytes (host : Host) (oldSize newSize : Nat) (h : Heap) :
    (realloc host 0 oldSize newSize h).state.bytes = h.bytes := by
  -- the copy is made under a check of the pointer
  have hburied : ∀ old new, (reallocBuried host 0 oldSize old new h).state.bytes = h.bytes := by
    intro old new
    unfold reallocBuried
    split
    · simp only
      split
      · rw [if_neg fun hz : (0 : Nat) ≠ 0 ∧ oldSize ≠ 0 => hz.1 rfl]
      · rfl
    · rfl
  unfold realloc
  split
  · rfl
  · split
    · rfl
    · split
      · rfl
      · cases h.memory.owner 0 with
        | none =>
            simp only
            split
            · rfl
            · exact hburied _ _
        | some found =>
            simp only
            split
            · rename_i hrec
              exact absurd rfl (Arena.isReclaimable_iff.mp hrec).1
            · exact hburied _ _

/-- What a client copies into its new block lies apart from the blocks there are. -/
theorem clone_keeps {src size : Nat} {held : List Block} (hs : Sound h.memory.arenas held)
    (hfresh : Fresh host h.memory.arenas) {b : Block} (hb : b ∈ held) :
    Bytes.AgreeOn h.bytes (clone host 0 src size h).state.bytes b.room := by
  unfold clone
  split
  · exact Bytes.AgreeOn.refl _ _
  · split
    · exact Bytes.AgreeOn.refl _ _
    · simp only
      rcases alloc_sound 0 size hs hfresh with ⟨herr, -, -⟩ | ⟨hok, hst⟩
      · rw [if_neg (Result.ne_success_of_isError herr)]
        exact Bytes.AgreeOn.refl _ _
      · rw [if_pos hok]
        refine Bytes.copy_agreeOn ?_
        have hapart := (List.pairwise_cons.mp hst.heldApart).1 b hb
        refine hapart.within ⟨Nat.le_refl _, ?_⟩ (Region.Within.refl _)
        exact Nat.add_le_add_left (le_align8U32 (hst.size_ne _ List.mem_cons_self)) _

/-- A call other than a reset leaves the bytes of every block the caller does not name. -/
theorem call_keeps {held : List Block} (hs : Sound h.memory.arenas held)
    (hfresh : Fresh host h.memory.arenas) {c : Call} (honest : Honest ⟨h, held⟩ c)
    {b : Block} (hb : b ∈ held) :
    Bytes.AgreeOn h.bytes (h.call host c).state.bytes b.room := by
  cases c with
  | clone src size => exact clone_keeps hs hfresh hb
  | realloc buffer oldSize newSize =>
      show Bytes.AgreeOn h.bytes (realloc host buffer oldSize newSize h).state.bytes b.room
      rcases honest with rfl | hmem
      · rw [realloc_null_bytes]
        exact Bytes.AgreeOn.refl _ _
      · -- a resize to nothing is a free, which writes no byte
        by_cases hnew : newSize = 0
        · have hsame : (realloc host buffer oldSize newSize h).state.bytes = h.bytes := by
            unfold realloc
            split
            · rfl
            · rw [if_pos (by rw [hnew]; decide)]
          rw [hsame]
          exact Bytes.AgreeOn.refl _ _
        · exact ((realloc_copiesApart hs hfresh hmem hnew).keeps (hs.size_ne _ hmem)).2 b hb
  | reserve arenaCount =>
      simp only [Heap.call]
      split <;> exact Bytes.AgreeOn.refl _ _
  | borrow data capacity =>
      simp only [Heap.call]
      split <;> exact Bytes.AgreeOn.refl _ _
  | shrink =>
      simp only [Heap.call]
      split <;> exact Bytes.AgreeOn.refl _ _
  | _ => exact Bytes.AgreeOn.refl _ _

/-- A step of the others leaves this client's blocks and their bytes. -/
theorem Elsewhere.sound (step : Elsewhere h others h' others')
    (hs : Sound h.memory.arenas (mine ++ others)) :
    Sound h'.memory.arenas (mine ++ others') ∧
      ∀ b ∈ mine, Bytes.AgreeOn h.bytes h'.bytes b.room := by
  cases step with
  | call host c fresh honest keeps =>
      have hall : State.Sound ⟨h, mine ++ others⟩ := hs
      refine ⟨(call_sound c hall fresh honest.mono).perm (ledger_append hs honest keeps _), ?_⟩
      intro b hb
      exact call_keeps hs fresh honest.mono (List.mem_append_left _ hb)
  | write bytes inside =>
      refine ⟨hs, fun b hb x hx => inside x fun c hc hcx => ?_⟩
      exact ((List.pairwise_append.mp hs.heldApart).2.2 b hb c hc).not_has hx hcx

end Arnm.Memory
