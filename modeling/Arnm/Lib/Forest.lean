import Mathlib.Tactic

set_option autoImplicit false

/-! # Trees grown in a pool

A pool is a list of nodes that name their children by their indices; `treeAt` is the tree below a
node. A tree is grown at the end of a path of open nodes, and the path is a stack of frames, the
innermost first. `Stands` says that the nodes of a path are the frames: every child lies behind its
parent, so what is grown at the end of the path is below its nodes and nowhere else. -/

namespace Forest

variable {α κ : Type}

inductive Tree (α κ : Type) where
  | node (label : α) (entries : List (κ × Tree α κ))

/-! ## Paths -/

/-- A node whose last child is still open: what it holds so far, and the key it has
in its parent. -/
structure Frame (α κ : Type) where
  key : κ
  label : α
  entries : List (κ × Tree α κ)

def Frame.tree (f : Frame α κ) : Tree α κ := .node f.label f.entries

def Frame.add (f : Frame α κ) (k : κ) (t : Tree α κ) : Frame α κ :=
  { f with entries := f.entries ++ [(k, t)] }

/-- Every open node becomes the last child of the next. -/
def zipFrom : Frame α κ → List (Frame α κ) → Tree α κ
  | f, [] => f.tree
  | f, g :: frames => zipFrom (g.add f.key f.tree) frames

/-- The tree of a path; without a node there is none. -/
def zip : List (Frame α κ) → Option (Tree α κ)
  | [] => none
  | f :: frames => some (zipFrom f frames)

theorem zip_close (g f : Frame α κ) (frames : List (Frame α κ)) :
    zip (g :: f :: frames) = zip (f.add g.key g.tree :: frames) := rfl

/-! ## Pools -/

/-- The nodes: their labels and, under its key, the index of each child. -/
abbrev Pool (α κ : Type) := List (α × List (κ × Nat))

section Trees

variable [Inhabited α]

/-- The tree below a node, so many levels deep. -/
def treeOf (pool : Pool α κ) : Nat → Nat → Tree α κ
  | 0, _ => .node default []
  | fuel + 1, i =>
    match pool[i]? with
    | none => .node default []
    | some node => .node node.1 (node.2.map fun e => (e.1, treeOf pool fuel e.2))

def treeAt (pool : Pool α κ) (i : Nat) : Tree α κ := treeOf pool pool.length i

end Trees

/-- A new node, as the last child of another. -/
def grow (pool : Pool α κ) (c : Nat) (k : κ) (label : α) : Pool α κ :=
  pool.modify c (fun node => (node.1, node.2 ++ [(k, pool.length)])) ++ [(label, [])]

def setLabel (pool : Pool α κ) (i : Nat) (label : α) : Pool α κ :=
  pool.modify i (fun node => (label, node.2))

theorem length_grow (pool : Pool α κ) (c : Nat) (k : κ) (label : α) :
    (grow pool c k label).length = pool.length + 1 := by
  rw [grow, List.length_append, List.length_modify]
  rfl

/-- The nodes that were there, but for the parent of the new one. -/
theorem grow_other {pool : Pool α κ} {c j : Nat} (k : κ) (label : α) (hj : j < pool.length)
    (hne : c ≠ j) : (grow pool c k label)[j]? = pool[j]? := by
  rw [grow, List.getElem?_append_left (by rwa [List.length_modify]),
    List.getElem?_modify_ne _ _ hne]

theorem grow_parent {pool : Pool α κ} {c : Nat} {node : α × List (κ × Nat)} (k : κ) (label : α)
    (hc : pool[c]? = some node) :
    (grow pool c k label)[c]? = some (node.1, node.2 ++ [(k, pool.length)]) := by
  have hlt : c < pool.length := (List.getElem?_eq_some_iff.mp hc).1
  rw [grow, List.getElem?_append_left (by rwa [List.length_modify]), List.getElem?_modify_eq, hc]
  rfl

theorem grow_new (pool : Pool α κ) (c : Nat) (k : κ) (label : α) :
    (grow pool c k label)[pool.length]? = some (label, []) := by
  rw [grow, List.getElem?_append_right (by rw [List.length_modify]), List.length_modify,
    Nat.sub_self]
  rfl

/-- A node may get its label after it was made. -/
theorem setLabel_grow (pool : Pool α κ) (c : Nat) (k : κ) (blank label : α) :
    setLabel (grow pool c k blank) pool.length label = grow pool c k label := by
  have hlast :=
    List.modifyTailIdx_add (List.modifyHead fun node : α × List (κ × Nat) => (label, node.2))
    0 (pool.modify c fun node => (node.1, node.2 ++ [(k, pool.length)])) [(blank, [])]
  rw [List.length_modify] at hlast
  exact hlast

/-! ## The tree below a node -/

/-- The children of the nodes from `lo` on and before `hi` lie behind their parents
and before `hi`. -/
def Within (pool : Pool α κ) (lo hi : Nat) : Prop :=
  ∀ i node, lo ≤ i → i < hi → pool[i]? = some node → ∀ e ∈ node.2, i < e.2 ∧ e.2 < hi

theorem Within.nil (pool : Pool α κ) {lo hi : Nat} (h : hi ≤ lo) : Within pool lo hi := by
  intro i node hlo hhi
  omega

theorem Within.congr {pool pool' : Pool α κ} {lo hi : Nat} (h : Within pool lo hi)
    (hsame : ∀ j, lo ≤ j → j < hi → pool'[j]? = pool[j]?) : Within pool' lo hi := by
  intro i node hlo hhi hnode
  rw [hsame i hlo hhi] at hnode
  exact h i node hlo hhi hnode

/-- A node in front of closed ones whose children are among them. -/
theorem Within.cons {pool : Pool α κ} {c hi : Nat} (h : Within pool (c + 1) hi)
    {node : α × List (κ × Nat)} (hc : pool[c]? = some node)
    (hchildren : ∀ e ∈ node.2, c < e.2 ∧ e.2 < hi) : Within pool c hi := by
  intro i other hlo hhi hother
  rcases Nat.eq_or_lt_of_le hlo with rfl | hlt
  · obtain rfl : node = other := Option.some.inj (hc.symm.trans hother)
    exact hchildren
  · exact h i other hlt hhi hother

/-- Closed nodes and closed nodes behind them. -/
theorem Within.append {pool : Pool α κ} {lo mid hi : Nat} (h : Within pool lo mid)
    (hbehind : Within pool mid hi) (hle : mid ≤ hi) : Within pool lo hi := by
  intro i node hlo hhi hnode e he
  by_cases hmid : i < mid
  · obtain ⟨hfront, hback⟩ := h i node hlo hmid hnode e he
    exact ⟨hfront, by omega⟩
  · exact hbehind i node (by omega) hhi hnode e he

section Trees

variable [Inhabited α]

/-- The tree below a closed node is the same in all pools that agree on the nodes it can reach, and
however deep it is followed, when that is deep enough. -/
theorem treeOf_congr {pool pool' : Pool α κ} {lo hi : Nat} (hin : Within pool lo hi)
    (hsame : ∀ j, lo ≤ j → j < hi → pool'[j]? = pool[j]?) :
    ∀ (fuel fuel' i : Nat), lo ≤ i → i < hi → hi - i ≤ fuel → hi - i ≤ fuel' →
      treeOf pool' fuel' i = treeOf pool fuel i := by
  intro fuel
  induction fuel with
  | zero => intro fuel' i _ hi hfuel; omega
  | succ fuel ih =>
      intro fuel' i hlo hhi hfuel hfuel'
      obtain ⟨fuel', rfl⟩ := Nat.exists_eq_succ_of_ne_zero (show fuel' ≠ 0 by omega)
      rw [treeOf, treeOf, hsame i hlo hhi]
      cases hnode : pool[i]? with
      | none => rfl
      | some node =>
          show Tree.node node.1 _ = Tree.node node.1 _
          congr 1
          apply List.map_congr_left
          intro e he
          obtain ⟨hbehind, hbefore⟩ := hin i node hlo hhi hnode e he
          rw [ih fuel' e.2 (by omega) hbefore (by omega) (by omega)]

theorem treeAt_congr {pool pool' : Pool α κ} {lo hi i : Nat} (hin : Within pool lo hi)
    (hsame : ∀ j, lo ≤ j → j < hi → pool'[j]? = pool[j]?) (hlen : hi ≤ pool.length)
    (hlen' : hi ≤ pool'.length) (hlo : lo ≤ i) (hhi : i < hi) : treeAt pool' i = treeAt pool i := by
  apply treeOf_congr hin hsame _ _ i hlo hhi <;> omega

/-- The tree below a node is the node and the trees below its children. -/
theorem treeAt_node {pool : Pool α κ} {i : Nat} {node : α × List (κ × Nat)}
    (hin : Within pool (i + 1) pool.length) (hnode : pool[i]? = some node)
    (hchildren : ∀ e ∈ node.2, i < e.2 ∧ e.2 < pool.length) :
    treeAt pool i = .node node.1 (node.2.map fun e => (e.1, treeAt pool e.2)) := by
  have hlt : i < pool.length := (List.getElem?_eq_some_iff.mp hnode).1
  obtain ⟨fuel, hfuel⟩ := Nat.exists_eq_succ_of_ne_zero (show pool.length ≠ 0 by omega)
  have hunfold :
      treeAt pool i = .node node.1 (node.2.map fun e => (e.1, treeOf pool fuel e.2)) := by
    rw [treeAt, hfuel, treeOf, hnode]
  rw [hunfold]
  congr 1
  apply List.map_congr_left
  intro e he
  obtain ⟨hbehind, hbefore⟩ := hchildren e he
  congr 1
  apply treeOf_congr hin (fun _ _ _ => rfl) _ _ e.2 hbehind hbefore <;> omega

/-! ## Paths in a pool -/

/-- The nodes of a path, the innermost first, are the frames. Every node up to `hi` belongs to the
path or is closed; `last` is the child of the first node that is on the path behind it, and not in
its frame. -/
def Stands (pool : Pool α κ) : Nat → List (κ × Nat) → List Nat → List (Frame α κ) → Prop
  | _, _, [], [] => True
  | hi, last, c :: path, f :: frames =>
    (∃ es, c < hi ∧ pool[c]? = some (f.label, es ++ last) ∧ (∀ e ∈ es, c < e.2 ∧ e.2 < hi) ∧
      (es.map fun e => (e.1, treeAt pool e.2)) = f.entries ∧ Within pool (c + 1) hi) ∧
      Stands pool c [(f.key, c)] path frames
  | _, _, _, _ => False

/-- What lies behind a path is not seen from it. -/
theorem Stands.congr {pool pool' : Pool α κ} :
    ∀ {hi : Nat} {last : List (κ × Nat)} {path : List Nat} {frames : List (Frame α κ)},
      Stands pool hi last path frames → (∀ j, j < hi → pool'[j]? = pool[j]?) → hi ≤ pool.length →
      hi ≤ pool'.length → Stands pool' hi last path frames
  | _, _, [], [], _, _, _, _ => trivial
  | hi, last, c :: path, f :: frames, h, hsame, hlen, hlen' => by
      obtain ⟨⟨es, hc, hnode, hchildren, hentries, hin⟩, hrest⟩ := h
      have hsame' : ∀ j, c + 1 ≤ j → j < hi → pool'[j]? = pool[j]? := fun j _ hj => hsame j hj
      have hmap : (es.map fun e => (e.1, treeAt pool' e.2)) = f.entries := by
        rw [← hentries]
        apply List.map_congr_left
        intro e he
        rw [treeAt_congr hin hsame' hlen hlen' (hchildren e he).1 (hchildren e he).2]
      refine ⟨⟨es, hc, by rw [hsame c hc, hnode], hchildren, hmap, hin.congr hsame'⟩, ?_⟩
      exact hrest.congr (fun j hj => hsame j (by omega)) (by omega) (by omega)

theorem Stands.length_eq {pool : Pool α κ} :
    ∀ {hi : Nat} {last : List (κ × Nat)} {path : List Nat} {frames : List (Frame α κ)},
      Stands pool hi last path frames → path.length = frames.length
  | _, _, [], [], _ => rfl
  | _, _, _ :: _, _ :: _, h => by rw [List.length_cons, h.2.length_eq, List.length_cons]
  | _, _, [], _ :: _, h => h.elim
  | _, _, _ :: _, [], h => h.elim

/-- A pool of one node, which is open. -/
theorem stands_root (k : κ) (label : α) :
    Stands [(label, [])] 1 [] [0] [(⟨k, label, []⟩ : Frame α κ)] := by
  refine ⟨⟨[], Nat.one_pos, rfl, ?_, rfl, Within.nil _ (Nat.le_refl 1)⟩, trivial⟩
  intro e he
  cases he

/-- A node below the innermost one, which is left open. -/
theorem Stands.push {pool : Pool α κ} {c : Nat} {path : List Nat} {f : Frame α κ}
    {frames : List (Frame α κ)} (h : Stands pool pool.length [] (c :: path) (f :: frames)) (k : κ)
    (label : α) :
    Stands (grow pool c k label) (pool.length + 1) [] (pool.length :: c :: path)
      (⟨k, label, []⟩ :: f :: frames) := by
  obtain ⟨⟨es, hc, hnode, hchildren, hentries, hin⟩, hrest⟩ := h
  rw [List.append_nil] at hnode
  have hlen := length_grow pool c k label
  -- only the parent of the new node is written, and it is in front of all its children
  have hother : ∀ j, c + 1 ≤ j → j < pool.length → (grow pool c k label)[j]? = pool[j]? := by
    intro j hlo hhi
    exact grow_other k label hhi (by omega)
  have hmap : (es.map fun e => (e.1, treeAt (grow pool c k label) e.2)) = f.entries := by
    rw [← hentries]
    apply List.map_congr_left
    intro e he
    obtain ⟨hbehind, hbefore⟩ := hchildren e he
    rw [treeAt_congr hin hother (Nat.le_refl _) (by omega) hbehind hbefore]
  refine ⟨⟨[], Nat.lt_succ_self _, grow_new pool c k label, ?_, rfl, Within.nil _ (Nat.le_refl _)⟩,
    ⟨es, hc, grow_parent k label hnode, hchildren, hmap, hin.congr hother⟩, ?_⟩
  · intro e he
    cases he
  · apply hrest.congr _ (by omega) (by omega)
    intro j hj
    exact grow_other k label (by omega) (by omega)

/-- The innermost node is closed: it becomes the last child of the next. -/
theorem Stands.pop {pool : Pool α κ} {d c : Nat} {path : List Nat} {g f : Frame α κ}
    {frames : List (Frame α κ)}
    (h : Stands pool pool.length [] (d :: c :: path) (g :: f :: frames)) :
    Stands pool pool.length [] (c :: path) (f.add g.key g.tree :: frames) := by
  obtain ⟨⟨es', hd, hnode', hchildren', hentries', hin'⟩,
    ⟨es, hc, hnode, hchildren, hentries, hin⟩, hrest⟩ := h
  rw [List.append_nil] at hnode'
  have htree : treeAt pool d = g.tree := by
    rw [treeAt_node hin' hnode' hchildren', hentries']
    rfl
  have hall : Within pool (c + 1) pool.length := hin.append (hin'.cons hnode' hchildren') (by omega)
  refine ⟨⟨es ++ [(g.key, d)], by omega, by rw [hnode, List.append_nil]; rfl, ?_, ?_, hall⟩, hrest⟩
  · intro e he
    rcases List.mem_append.mp he with hold | hlast
    · obtain ⟨hbehind, hbefore⟩ := hchildren e hold
      exact ⟨hbehind, by omega⟩
    · rw [List.mem_singleton.mp hlast]
      exact ⟨hc, hd⟩
  · rw [List.map_append, hentries]
    show f.entries ++ [(g.key, treeAt pool d)] = f.entries ++ [(g.key, g.tree)]
    rw [htree]

/-- A node below the innermost one, closed at once. -/
theorem Stands.grow {pool : Pool α κ} {c : Nat} {path : List Nat} {f : Frame α κ}
    {frames : List (Frame α κ)} (h : Stands pool pool.length [] (c :: path) (f :: frames)) (k : κ)
    (label : α) :
    Stands (grow pool c k label) (pool.length + 1) [] (c :: path)
      (f.add k (.node label []) :: frames) := by
  have hopen := h.push k label
  rw [← length_grow pool c k label] at hopen ⊢
  exact hopen.pop

/-- The tree of the path is the tree below its outermost node. -/
theorem Stands.zip_eq {pool : Pool α κ} {root : Nat} :
    ∀ {path : List Nat} {c : Nat} {f : Frame α κ} {frames : List (Frame α κ)},
      Stands pool pool.length [] (c :: path) (f :: frames) → (c :: path).getLast? = some root →
      zip (f :: frames) = some (treeAt pool root)
  | [], c, f, [], h, hroot => by
      obtain ⟨⟨es, _, hnode, hchildren, hentries, hin⟩, _⟩ := h
      rw [List.append_nil] at hnode
      obtain rfl : c = root := Option.some.inj hroot
      rw [treeAt_node hin hnode hchildren, hentries]
      rfl
  | [], _, _, _ :: _, h, _ => h.2.elim
  | _ :: _, _, _, [], h, _ => h.2.elim
  | d :: path, c, f, g :: frames, h, hroot => by
      -- the innermost node is closed first, which leaves the root where it is
      rw [zip_close]
      apply h.pop.zip_eq
      rwa [List.getLast?_cons_cons] at hroot

end Trees

end Forest
