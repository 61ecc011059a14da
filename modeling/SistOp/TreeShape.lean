import SistOp.SearchTree
import SistOp.TreeInsertion
import Mathlib.Tactic

/-!
# The search tree in the heap

`TreeAt` relates the nodes below a root to a tree of their addresses and data, and
`Sized` says that the size fields are right.  Searching the heap is searching this
tree, and `h_tree_insert` is insertion into it.
-/

namespace SistOp.FatFuse

open SearchTree

variable {α κ : Type}

/-- The nodes below `root` form the tree `t` of their addresses and data. -/
def TreeAt (nodes : Heap (HNode α)) : HTree → BinaryTree (ℕ × α) → Prop
  | root, .nil => root = none
  | root, .node x l r =>
      root = some x.1 ∧ ∃ n, nodes.get x.1 = some n ∧ n.data = x.2 ∧
        TreeAt nodes n.left l ∧ TreeAt nodes n.right r

/-- The size field of every node is the number of nodes of its subtree. -/
def Sized (nodes : Heap (HNode α)) : BinaryTree (ℕ × α) → Prop
  | .nil => True
  | .node x l r =>
      (∃ n, nodes.get x.1 = some n ∧ n.size = ((BinaryTree.node x l r).numNodes : ℤ)) ∧
        Sized nodes l ∧ Sized nodes r

def addresses (t : BinaryTree (ℕ × α)) : List ℕ := (inorder t).map Prod.fst

@[simp] theorem addresses_nil : addresses (.nil : BinaryTree (ℕ × α)) = [] := rfl

@[simp] theorem addresses_node (x : ℕ × α) (l r : BinaryTree (ℕ × α)) :
    addresses (.node x l r) = addresses l ++ x.1 :: addresses r := by
  simp [addresses]

theorem mem_addresses_left {x : ℕ × α} {l r : BinaryTree (ℕ × α)} {a : ℕ}
    (ha : a ∈ addresses l) : a ∈ addresses (.node x l r) := by
  rw [addresses_node]
  exact List.mem_append_left _ ha

theorem mem_addresses_right {x : ℕ × α} {l r : BinaryTree (ℕ × α)} {a : ℕ}
    (ha : a ∈ addresses r) : a ∈ addresses (.node x l r) := by
  rw [addresses_node]
  exact List.mem_append_right _ (List.mem_cons_of_mem _ ha)

/-- The part of a node that the hierarchy does not change. -/
def HNode.shape (n : HNode α) : α × HTree × HTree × ℤ :=
  (n.data, n.left, n.right, n.size)

theorem get_of_shape {nodes nodes' : Heap (HNode α)} {a : ℕ} {n : HNode α}
    (hsame : (nodes'.get a).map HNode.shape = (nodes.get a).map HNode.shape)
    (hn : nodes.get a = some n) :
    ∃ n', nodes'.get a = some n' ∧ n'.data = n.data ∧ n'.left = n.left ∧
      n'.right = n.right ∧ n'.size = n.size := by
  rw [hn, Option.map_some, Option.map_eq_some_iff] at hsame
  obtain ⟨n', hn', hshape⟩ := hsame
  simp only [HNode.shape, Prod.mk.injEq] at hshape
  exact ⟨n', hn', hshape⟩

section Shape

variable {nodes nodes' : Heap (HNode α)} {root : HTree} {t : BinaryTree (ℕ × α)}

/-- The shape of a tree only depends on its own nodes. -/
theorem TreeAt.congr (h : TreeAt nodes root t)
    (hsame : ∀ a ∈ addresses t,
      (nodes'.get a).map HNode.shape = (nodes.get a).map HNode.shape) :
    TreeAt nodes' root t := by
  induction t generalizing root with
  | nil => exact h
  | node x l r ihl ihr =>
      obtain ⟨hroot, n, hn, hdata, hl, hr⟩ := h
      obtain ⟨n', hn', hdata', hleft, hright, -⟩ := get_of_shape (hsame x.1 (by simp)) hn
      refine ⟨hroot, n', hn', hdata'.trans hdata, ?_, ?_⟩
      · rw [hleft]
        exact ihl hl fun a ha => hsame a (by simp [ha])
      · rw [hright]
        exact ihr hr fun a ha => hsame a (by simp [ha])

theorem Sized.congr (h : Sized nodes t)
    (hsame : ∀ a ∈ addresses t,
      (nodes'.get a).map HNode.shape = (nodes.get a).map HNode.shape) :
    Sized nodes' t := by
  induction t with
  | nil => trivial
  | node x l r ihl ihr =>
      obtain ⟨⟨n, hn, hsize⟩, hl, hr⟩ := h
      obtain ⟨n', hn', -, -, -, hsize'⟩ := get_of_shape (hsame x.1 (by simp)) hn
      exact ⟨⟨n', hn', hsize'.trans hsize⟩, ihl hl fun a ha => hsame a (by simp [ha]),
        ihr hr fun a ha => hsame a (by simp [ha])⟩

theorem TreeAt.mem (h : TreeAt nodes root t) {x : ℕ × α} (hx : x ∈ inorder t) :
    ∃ n, nodes.get x.1 = some n ∧ n.data = x.2 := by
  induction t generalizing root with
  | nil => simp at hx
  | node y l r ihl ihr =>
      obtain ⟨-, n, hn, hdata, hl, hr⟩ := h
      rw [inorder_node, List.mem_append, List.mem_cons] at hx
      rcases hx with hx | rfl | hx
      · exact ihl hl hx
      · exact ⟨n, hn, hdata⟩
      · exact ihr hr hx

theorem TreeAt.live (h : TreeAt nodes root t) {a : ℕ} (ha : a ∈ addresses t) :
    ∃ n, nodes.get a = some n := by
  obtain ⟨x, hx, rfl⟩ := List.mem_map.mp ha
  obtain ⟨n, hn, -⟩ := h.mem hx
  exact ⟨n, hn⟩

theorem TreeAt.root_mem {a : ℕ} (h : TreeAt nodes (some a) t) : a ∈ addresses t := by
  cases t with
  | nil => exact absurd h (by simp [TreeAt])
  | node x l r =>
      obtain rfl := Option.some.inj h.1
      simp

/-- A tree in the heap is determined by its root. -/
theorem TreeAt.unique {t' : BinaryTree (ℕ × α)} (h : TreeAt nodes root t)
    (h' : TreeAt nodes root t') : t = t' := by
  induction t generalizing root t' with
  | nil =>
      cases t' with
      | nil => rfl
      | node y l' r' =>
          obtain ⟨hroot, -⟩ := h'
          rw [show root = none from h] at hroot
          contradiction
  | node x l r ihl ihr =>
      obtain ⟨hroot, n, hn, hdata, hl, hr⟩ := h
      cases t' with
      | nil =>
          rw [show root = none from h'] at hroot
          contradiction
      | node y l' r' =>
          obtain ⟨hroot', n', hn', hdata', hl', hr'⟩ := h'
          have haddr : x.1 = y.1 := Option.some.inj (hroot.symm.trans hroot')
          rw [haddr, hn'] at hn
          obtain rfl := Option.some.inj hn
          rw [ihl hl hl', ihr hr hr', Prod.ext haddr (hdata.symm.trans hdata')]

theorem hTreeSize_eq (h : TreeAt nodes root t) (hsized : Sized nodes t) :
    hTreeSize nodes root = some (t.numNodes : ℤ) := by
  cases t with
  | nil =>
      rw [show root = none from h]
      rfl
  | node x l r =>
      obtain ⟨⟨n, hn, hsize⟩, -, -⟩ := hsized
      rw [h.1]
      simp only [hTreeSize, hn, Option.bind_eq_bind, Option.bind_some, hsize]

variable [LinearOrder κ] {key : α → κ}

/-- The nodes of an ordered tree lie at distinct addresses. -/
theorem TreeAt.nodup (h : TreeAt nodes root t) (hord : Ordered (fun x => key x.2) t) :
    (addresses t).Nodup := by
  apply List.Nodup.map_on _ (List.Nodup.of_map _ hord.nodup_keys)
  intro x hx y hy haddr
  obtain ⟨n, hn, hdata⟩ := h.mem hx
  obtain ⟨n', hn', hdata'⟩ := h.mem hy
  rw [haddr, hn'] at hn
  obtain rfl := Option.some.inj hn
  exact Prod.ext haddr (hdata.symm.trans hdata')

theorem TreeAt.numNodes_le (h : TreeAt nodes root t) (hnodup : (addresses t).Nodup) :
    t.numNodes ≤ nodes.next := by
  have hlength := Heap.length_le_next hnodup fun a ha => h.live ha
  rwa [addresses, List.length_map, length_inorder] at hlength

/-! ## Search -/

/-- The key that is searched for may be represented by another one in the order of the tree. -/
theorem TreeAt.searchLoop {κ' : Type} {dataCmpKey : α → κ' → Option Ordering} {k' : κ'} {k : κ}
    {fuel : ℕ} (h : TreeAt nodes root t)
    (hcmp : ∀ x ∈ inorder t, dataCmpKey x.2 k' = some (compare (key x.2) k))
    (hfuel : t.numNodes < fuel) :
    hTreeSearchLoop dataCmpKey nodes k' fuel root =
      some ((find? (fun x => key x.2) k t).map Prod.fst) := by
  induction t generalizing root fuel with
  | nil =>
      obtain ⟨rest, rfl⟩ : ∃ rest, fuel = rest + 1 := ⟨fuel - 1, by omega⟩
      rw [show root = none from h]
      rfl
  | node x l r ihl ihr =>
      obtain ⟨rest, rfl⟩ : ∃ rest, fuel = rest + 1 := ⟨fuel - 1, by omega⟩
      obtain ⟨hroot, n, hn, hdata, hl, hr⟩ := h
      rw [BinaryTree.numNodes] at hfuel
      rw [hroot]
      simp only [hTreeSearchLoop, hn, hdata, hcmp x (by simp), find?, Option.bind_eq_bind,
        Option.bind_some]
      cases compare (key x.2) k with
      | lt => exact ihr hr (fun y hy => hcmp y (by simp [hy])) (by omega)
      | gt => exact ihl hl (fun y hy => hcmp y (by simp [hy])) (by omega)
      | eq => rfl

/-! ## Insertion -/

/-- `update_size` at the root of a tree whose subtrees have the right sizes. -/
theorem exists_updateSize {x : ℕ × α} {l r : BinaryTree (ℕ × α)} {n : HNode α}
    (hn : nodes.get x.1 = some n) (hdata : n.data = x.2) (hl : TreeAt nodes n.left l)
    (hr : TreeAt nodes n.right r) (hsl : Sized nodes l) (hsr : Sized nodes r)
    (hxl : x.1 ∉ addresses l) (hxr : x.1 ∉ addresses r) :
    ∃ nodes', updateSize nodes x.1 = some nodes' ∧
      TreeAt nodes' (some x.1) (.node x l r) ∧ Sized nodes' (.node x l r) ∧
      nodes'.next = nodes.next ∧ ∀ a, a ≠ x.1 → nodes'.get a = nodes.get a := by
  have hsize : 1 + (l.numNodes : ℤ) + r.numNodes = ((BinaryTree.node x l r).numNodes : ℤ) := by
    rw [BinaryTree.numNodes]
    push_cast
    ring
  obtain ⟨nodes', hwrite⟩ := Heap.exists_write hn
    { n with size := 1 + (l.numNodes : ℤ) + r.numNodes }
  obtain ⟨-, hnext, hself, hothers⟩ := Heap.write_eq_some hwrite
  have hkeep : ∀ t' : BinaryTree (ℕ × α), x.1 ∉ addresses t' → ∀ a ∈ addresses t',
      (nodes'.get a).map HNode.shape = (nodes.get a).map HNode.shape := by
    intro t' hout a ha
    rw [hothers a fun heq => hout (heq ▸ ha)]
  refine ⟨nodes', ?_, ⟨rfl, _, hself, hdata, hl.congr (hkeep l hxl), hr.congr (hkeep r hxr)⟩,
    ⟨⟨_, hself, hsize⟩, hsl.congr (hkeep l hxl), hsr.congr (hkeep r hxr)⟩, hnext, hothers⟩
  simp only [updateSize, hn, hTreeSize_eq hl hsl, hTreeSize_eq hr hsr, Option.bind_eq_bind,
    Option.bind_some, hwrite]

theorem NodeAdded.shape {newData : α} {hParent : HTree}
    (h : NodeAdded nodes nodes' newData hParent) {a : ℕ} (ha : a ≠ nodes.next) :
    (nodes'.get a).map HNode.shape = (nodes.get a).map HNode.shape := by
  by_cases hpa : hParent = some a
  · obtain ⟨m, hm⟩ := h.parentLive a hpa
    rw [h.parent a m hpa hm, hm]
    rfl
  · rw [h.others a ha hpa]

/-- What an operation makes of a tree of the heap. -/
structure TreeUpdated (nodes nodes' : Heap (HNode α)) (root' : HTree)
    (t t' : BinaryTree (ℕ × α)) : Prop where
  tree : TreeAt nodes' root' t'
  sized : Sized nodes' t'
  others : ∀ a, a ≠ nodes.next → a ∉ addresses t →
    (nodes'.get a).map HNode.shape = (nodes.get a).map HNode.shape

/-- Storing the root of a changed subtree, by `f`, and updating the size. -/
theorem exists_relink {nodes₁ : Heap (HNode α)} {x : ℕ × α} {n : HNode α}
    {l r l' r' s s' : BinaryTree (ℕ × α)} {sub : HTree} {f : HNode α → HNode α}
    (hn : nodes.get x.1 = some n) (hdata : n.data = x.2)
    (hxs : x.1 ∉ addresses s) (hsub : TreeUpdated nodes nodes₁ sub s s')
    (hdataF : ∀ m : HNode α, (f m).data = m.data)
    (hl : ∀ m, nodes₁.get x.1 = some m → m.shape = n.shape → TreeAt nodes₁ (f m).left l')
    (hr : ∀ m, nodes₁.get x.1 = some m → m.shape = n.shape → TreeAt nodes₁ (f m).right r')
    (hsl : Sized nodes₁ l') (hsr : Sized nodes₁ r')
    (hxl : x.1 ∉ addresses l') (hxr : x.1 ∉ addresses r')
    (hlr : ∀ a, a ∈ addresses s → a ∈ addresses (.node x l r)) :
    ∃ nodes₂ nodes', nodes₁.modify x.1 f = some nodes₂ ∧
      updateSize nodes₂ x.1 = some nodes' ∧
      TreeUpdated nodes nodes' (some x.1) (.node x l r) (.node x l' r') := by
  have hne : x.1 ≠ nodes.next := ne_of_lt (Heap.lt_next hn)
  have hshape := hsub.others x.1 hne hxs
  rw [hn, Option.map_some, Option.map_eq_some_iff] at hshape
  obtain ⟨m, hm, hmn⟩ := hshape
  obtain ⟨nodes₂, hwrite⟩ := Heap.exists_write hm (f m)
  obtain ⟨-, -, hself, hothers⟩ := Heap.write_eq_some hwrite
  have hkeep : ∀ t' : BinaryTree (ℕ × α), x.1 ∉ addresses t' → ∀ a ∈ addresses t',
      (nodes₂.get a).map HNode.shape = (nodes₁.get a).map HNode.shape := by
    intro t' hout a ha
    rw [hothers a fun heq => hout (heq ▸ ha)]
  have hdata₂ : (f m).data = x.2 := by
    have hdatas := congrArg Prod.fst hmn
    exact (hdataF m).trans (Eq.trans hdatas hdata)
  obtain ⟨nodes', hsize, htree, hsized, -, hrest⟩ :=
    exists_updateSize hself hdata₂ ((hl m hm hmn).congr (hkeep l' hxl))
      ((hr m hm hmn).congr (hkeep r' hxr)) (hsl.congr (hkeep l' hxl))
      (hsr.congr (hkeep r' hxr)) hxl hxr
  refine ⟨nodes₂, nodes', ?_, hsize, htree, hsized, fun a ha hout => ?_⟩
  · simp only [Heap.modify, hm, Option.bind_eq_bind, Option.bind_some, hwrite]
  · have hax : a ≠ x.1 := by
      rintro rfl
      exact hout (by simp)
    rw [hrest a hax, hothers a hax]
    exact hsub.others a ha fun hmem => hout (hlr a hmem)

theorem mem_addresses_treeInsert {x : ℕ × α} {a : ℕ}
    (ha : a ∈ addresses (treeInsert (fun x => key x.2) x t)) : a = x.1 ∨ a ∈ addresses t := by
  obtain ⟨y, hy, rfl⟩ := List.mem_map.mp ha
  rcases mem_of_mem_treeInsert hy with rfl | hold
  · exact Or.inl rfl
  · exact Or.inr (List.mem_map_of_mem hold)

theorem TreeAt.insertLoop {dataCmp : α → α → Option Ordering} {newData : α} {hParent : HTree}
    {fuel : ℕ} (h : TreeAt nodes root t) (hsized : Sized nodes t)
    (hnodup : (addresses t).Nodup)
    (hcmp : ∀ x ∈ inorder t, dataCmp newData x.2 = some (compare (key newData) (key x.2)))
    (hlive : ∀ p, hParent = some p → ∃ m, nodes.get p = some m)
    (hfuel : t.numNodes < fuel) :
    ∃ nodes' root', hTreeInsertLoop dataCmp newData hParent fuel nodes root =
        some (nodes', root') ∧
      TreeUpdated nodes nodes' root' t
        (treeInsert (fun x => key x.2) (nodes.next, newData) t) := by
  induction t generalizing root fuel with
  | nil =>
      obtain ⟨rest, rfl⟩ : ∃ rest, fuel = rest + 1 := ⟨fuel - 1, by omega⟩
      obtain ⟨nodes', hinit⟩ := exists_hNodeInit newData hlive
      obtain ⟨-, hadded⟩ := hNodeInit_eq_some hinit
      obtain ⟨n, hn, hleft, hright, hsize, hdata, -⟩ := hadded.new
      refine ⟨nodes', some nodes.next, ?_, ⟨rfl, n, hn, hdata, hleft, hright⟩,
        ⟨⟨n, hn, ?_⟩, trivial, trivial⟩, fun a ha _ => hadded.shape ha⟩
      · rw [show root = none from h]
        simp only [hTreeInsertLoop, hinit, Option.bind_eq_bind, Option.bind_some]
      · simpa using hsize
  | node x l r ihl ihr =>
      obtain ⟨rest, rfl⟩ : ∃ rest, fuel = rest + 1 := ⟨fuel - 1, by omega⟩
      obtain ⟨hroot, n, hn, hdata, hl, hr⟩ := h
      obtain ⟨hsizeRoot, hsl, hsr⟩ := hsized
      rw [addresses_node, List.nodup_append, List.nodup_cons] at hnodup
      obtain ⟨hndl, ⟨hxr, hndr⟩, hdisjoint⟩ := hnodup
      have hxl : x.1 ∉ addresses l := fun hmem => hdisjoint _ hmem _ (by simp) rfl
      have hne : x.1 ≠ nodes.next := ne_of_lt (Heap.lt_next hn)
      rw [BinaryTree.numNodes] at hfuel
      rw [hroot]
      simp only [hTreeInsertLoop, hn, hdata, hcmp x (by simp), treeInsert, Option.bind_eq_bind,
        Option.bind_some]
      cases hc : compare (key newData) (key x.2) with
      | gt =>
          obtain ⟨nodes₁, right, hrec, hsub⟩ :=
            ihr hr hsr hndr (fun y hy => hcmp y (by simp [hy]))
              (show r.numNodes < rest by omega)
          have hkeep : ∀ a ∈ addresses l,
              (nodes₁.get a).map HNode.shape = (nodes.get a).map HNode.shape := by
            intro a ha
            obtain ⟨m, hm⟩ := hl.live ha
            exact hsub.others a (ne_of_lt (Heap.lt_next hm)) fun hmem =>
              hdisjoint a ha a (by simp [hmem]) rfl
          obtain ⟨nodes₂, nodes', hlink, hsize, hinserted⟩ :=
            exists_relink (l := l) (r := r) (f := fun m => { m with right := right }) hn hdata hxr
              hsub
              (fun _ => rfl)
              (fun m _ hm => by
                simp only [HNode.shape, Prod.mk.injEq] at hm
                rw [show m.left = n.left from hm.2.1]
                exact hl.congr hkeep)
              (fun _ _ _ => hsub.tree) (hsl.congr hkeep) hsub.sized hxl
              (fun hmem => (mem_addresses_treeInsert hmem).elim hne hxr)
              (fun _ ha => mem_addresses_right ha)
          exact ⟨nodes', some x.1, by simp [hrec, hlink, hsize], hinserted⟩
      | lt =>
          obtain ⟨nodes₁, left, hrec, hsub⟩ :=
            ihl hl hsl hndl (fun y hy => hcmp y (by simp [hy]))
              (show l.numNodes < rest by omega)
          have hkeep : ∀ a ∈ addresses r,
              (nodes₁.get a).map HNode.shape = (nodes.get a).map HNode.shape := by
            intro a ha
            obtain ⟨m, hm⟩ := hr.live ha
            exact hsub.others a (ne_of_lt (Heap.lt_next hm)) fun hmem =>
              hdisjoint a hmem a (by simp [ha]) rfl
          obtain ⟨nodes₂, nodes', hlink, hsize, hinserted⟩ :=
            exists_relink (l := l) (r := r) (f := fun m => { m with left := left }) hn hdata hxl
              hsub
              (fun _ => rfl) (fun _ _ _ => hsub.tree)
              (fun m _ hm => by
                simp only [HNode.shape, Prod.mk.injEq] at hm
                rw [show m.right = n.right from hm.2.2.1]
                exact hr.congr hkeep)
              hsub.sized (hsr.congr hkeep)
              (fun hmem => (mem_addresses_treeInsert hmem).elim hne hxl) hxr
              (fun _ ha => mem_addresses_left ha)
          exact ⟨nodes', some x.1, by simp [hrec, hlink, hsize], hinserted⟩
      | eq =>
          obtain ⟨nodes', hsize, htree, hsized', -, hothers⟩ :=
            exists_updateSize hn hdata hl hr hsl hsr hxl hxr
          refine ⟨nodes', some x.1, ?_, htree, hsized', fun a _ hout => ?_⟩
          · simp only [Option.bind_some, hsize]
          · rw [hothers a]
            rintro rfl
            exact hout (by simp)

end Shape

end SistOp.FatFuse
