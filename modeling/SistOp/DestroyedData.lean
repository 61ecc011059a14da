import SistOp.DeletionHistory
import Mathlib.Tactic

/-!
# The data that a deletion destroys

`delete_root` passes the data of its root to `data_destroy` before it looks at the children.
When the minimum of the right subtree is not the right child, it calls itself on the same root,
and the data is destroyed a second time.  No other data are destroyed.
-/

namespace SistOp.FatFuse

open SearchTree

variable {α κ : Type}

/-- One subtree of `n` is empty, or the right child is the minimum of the right one. -/
def MinimumIsChild (nodes : Heap (HNode α)) (n : HNode α) : Prop :=
  n.left = none ∨ n.right = none ∨
    ∃ r rn, n.right = some r ∧ nodes.get r = some rn ∧ rn.left = none

theorem MinimumIsChild.congr {nodes nodes' : Heap (HNode α)} {n n' : HNode α}
    (h : MinimumIsChild nodes n) (hsame : SameBranches nodes nodes')
    (hn : n'.branches = n.branches) : MinimumIsChild nodes' n' := by
  have hleft : n'.left = n.left := congrArg Prod.fst hn
  have hright : n'.right = n.right := congrArg Prod.snd hn
  rw [MinimumIsChild, hleft, hright]
  rcases h with h | h | ⟨r, rn, hr, hrn, hnone⟩
  · exact .inl h
  · exact .inr (.inl h)
  · have hbranches := hsame r
    rw [hrn, Option.map_some, Option.map_eq_some_iff] at hbranches
    obtain ⟨rn', hrn', heq⟩ := hbranches
    exact .inr (.inr ⟨r, rn', hr, hrn', (congrArg Prod.fst heq).trans hnone⟩)

/-! ## What stays in the cells -/

/-- Cells outside of `gone` keep their data, and cells outside of `changed` their links. -/
structure CellsKept (gone changed : Set ℕ) (nodes nodes' : Heap (HNode α)) : Prop where
  data : ∀ a ∉ gone, (nodes'.get a).map HNode.data = (nodes.get a).map HNode.data
  branches : ∀ a ∉ changed, (nodes'.get a).map HNode.branches = (nodes.get a).map HNode.branches

namespace CellsKept

variable {gone changed : Set ℕ} {nodes nodes' nodes'' : Heap (HNode α)} {a : ℕ} {n : HNode α}

theorem trans (h : CellsKept gone changed nodes nodes')
    (h' : CellsKept gone changed nodes' nodes'') : CellsKept gone changed nodes nodes'' :=
  ⟨fun a ha => (h'.data a ha).trans (h.data a ha),
    fun a ha => (h'.branches a ha).trans (h.branches a ha)⟩

theorem mono {gone' changed' : Set ℕ} (h : CellsKept gone changed nodes nodes')
    (hgone : gone ⊆ gone') (hchanged : changed ⊆ changed') :
    CellsKept gone' changed' nodes nodes' :=
  ⟨fun a ha => h.data a fun hmem => ha (hgone hmem),
    fun a ha => h.branches a fun hmem => ha (hchanged hmem)⟩

theorem of_shape (h : ∀ a, (nodes'.get a).map HNode.shape = (nodes.get a).map HNode.shape) :
    CellsKept gone changed nodes nodes' where
  data a _ := by
    have hdata := congrArg (Option.map Prod.fst) (h a)
    rwa [Option.map_map, Option.map_map] at hdata
  branches a _ := branches_of_shape (h a)

theorem write {x : HNode α} (hn : nodes.get a = some n) (h : nodes.write a x = some nodes')
    (hdata : x.data = n.data) : CellsKept ∅ {a} nodes nodes' where
  data b _ := Heap.map_get_write hn h hdata b
  branches b hb := by rw [(Heap.write_eq_some h).2.2.2 b hb]

theorem modify {f : HNode α → HNode α} (h : nodes.modify a f = some nodes')
    (hf : ∀ n, (f n).data = n.data) : CellsKept ∅ {a} nodes nodes' := by
  obtain ⟨n, hn, hwrite⟩ := Heap.modify_eq_some h
  exact .write hn hwrite (hf n)

/-- A change of other fields than the data and the links. -/
theorem modify_other {f : HNode α → HNode α} (h : nodes.modify a f = some nodes')
    (hdata : ∀ n, (f n).data = n.data) (hbranches : ∀ n, (f n).branches = n.branches) :
    CellsKept ∅ ∅ nodes nodes' :=
  ⟨(CellsKept.modify h hdata).data, fun b _ => SameBranches.modify h hbranches b⟩

theorem updateSize (h : updateSize nodes a = some nodes') : CellsKept ∅ {a} nodes nodes' := by
  obtain ⟨n, i, j, hn, -, -, hwrite⟩ := updateSize_eq_some h
  exact .write hn hwrite rfl

theorem free (h : nodes.free a = some nodes') : CellsKept {a} {a} nodes nodes' := by
  obtain ⟨-, -, -, hothers⟩ := Heap.free_eq_some h
  exact ⟨fun b hb => by rw [hothers b hb], fun b hb => by rw [hothers b hb]⟩

/-- A cell that is kept is live as before. -/
theorem get (h : CellsKept gone changed nodes nodes') (hn : nodes.get a = some n)
    (ha : a ∉ gone) : ∃ n', nodes'.get a = some n' ∧ n'.data = n.data := by
  have hdata := h.data a ha
  rwa [hn, Option.map_some, Option.map_eq_some_iff] at hdata

theorem get_branches (h : CellsKept gone changed nodes nodes') (hn : nodes.get a = some n)
    (ha : a ∉ changed) : ∃ n', nodes'.get a = some n' ∧ n'.branches = n.branches := by
  have hbranches := h.branches a ha
  rwa [hn, Option.map_some, Option.map_eq_some_iff] at hbranches

end CellsKept

/-- The links of a node lead to live cells. -/
def ChildrenLive (nodes : Heap (HNode α)) (n : HNode α) : Prop :=
  ∀ a, n.left = some a ∨ n.right = some a → ∃ an, nodes.get a = some an

theorem ChildrenLive.congr {gone changed : Set ℕ} {nodes nodes' : Heap (HNode α)} {n n' : HNode α}
    (h : ChildrenLive nodes n) (hkept : CellsKept gone changed nodes nodes')
    (hout : ∀ a, n.left = some a ∨ n.right = some a → a ∉ gone)
    (hn : n'.branches = n.branches) : ChildrenLive nodes' n' := by
  have hleft : n'.left = n.left := congrArg Prod.fst hn
  have hright : n'.right = n.right := congrArg Prod.snd hn
  intro a ha
  rw [hleft, hright] at ha
  obtain ⟨an, han⟩ := h a ha
  obtain ⟨an', han', -⟩ := hkept.get han (hout a ha)
  exact ⟨an', han'⟩

theorem exists_updateSize_live {nodes : Heap (HNode α)} {a : ℕ} {n : HNode α}
    (hn : nodes.get a = some n) (hlive : ChildrenLive nodes n) :
    ∃ nodes', updateSize nodes a = some nodes' := by
  have hsize : ∀ child, (∀ b, child = some b → n.left = some b ∨ n.right = some b) →
      ∃ i, hTreeSize nodes child = some i := by
    intro child hchild
    cases child with
    | none => exact ⟨0, rfl⟩
    | some b =>
        obtain ⟨bn, hbn⟩ := hlive b (hchild b rfl)
        exact ⟨bn.size, by simp [hTreeSize, hbn]⟩
  obtain ⟨i, hi⟩ := hsize n.left fun b hb => .inl hb
  obtain ⟨j, hj⟩ := hsize n.right fun b hb => .inr hb
  obtain ⟨nodes', hupdate, -⟩ := exists_updateSize_of_sizes hn hi hj
  exact ⟨nodes', hupdate⟩

theorem exists_swapNodes {nodes : Heap (HNode α)} {a b : ℕ} {old new : HNode α} (hab : a ≠ b)
    (hold : nodes.get a = some old) (hnew : nodes.get b = some new)
    (hliveOld : ChildrenLive nodes old) (hliveNew : ChildrenLive nodes new) :
    ∃ nodes', swapNodes nodes a b = some nodes' ∧ CellsKept ∅ {a, b} nodes nodes' := by
  have hsub : ∀ c, c = a ∨ c = b → ({c} : Set ℕ) ⊆ {a, b} := by
    rintro c (rfl | rfl) <;> simp
  obtain ⟨nodes₁, hmodify₁, hself₁, hothers₁, -⟩ :=
    exists_modify hold (f := fun n => { n with left := new.left, right := new.right }) rfl
  have hkept₁ := (CellsKept.modify hmodify₁ fun _ => rfl).mono le_rfl (hsub a (.inl rfl))
  obtain ⟨nodes₂, hmodify₂, hself₂, hothers₂, -⟩ :=
    exists_modify ((hothers₁ b hab.symm).trans hnew)
      (f := fun n => { n with left := old.left, right := old.right }) rfl
  have hkept₂ := hkept₁.trans
    ((CellsKept.modify hmodify₂ fun _ => rfl).mono le_rfl (hsub b (.inr rfl)))
  obtain ⟨nodes₃, hsize₃⟩ := exists_updateSize_live hself₂
    (hliveOld.congr hkept₂ (fun _ _ => Set.notMem_empty _) rfl)
  have hkept₃ := hkept₂.trans ((CellsKept.updateSize hsize₃).mono le_rfl (hsub b (.inr rfl)))
  have ha₂ : nodes₂.get a = some { old with left := new.left, right := new.right } := by
    rw [hothers₂ a hab, hself₁]
  obtain ⟨old', hold', hbranches⟩ := (CellsKept.updateSize hsize₃).get_branches ha₂ (by simpa)
  obtain ⟨nodes₄, hsize₄⟩ := exists_updateSize_live hold'
    (hliveNew.congr hkept₃ (fun _ _ => Set.notMem_empty _) hbranches)
  refine ⟨nodes₄, ?_,
    hkept₃.trans ((CellsKept.updateSize hsize₄).mono le_rfl (hsub a (.inl rfl)))⟩
  simp only [swapNodes, hold, hnew, hmodify₁, hmodify₂, hsize₃, hsize₄, Option.bind_eq_bind,
    Option.bind_some]

theorem TreeAt.cellsKept {gone changed : Set ℕ} {nodes nodes' : Heap (HNode α)} {root : HTree}
    {t : BinaryTree (ℕ × α)} (h : TreeAt nodes root t)
    (hkept : CellsKept gone changed nodes nodes')
    (hout : ∀ a ∈ addresses t, a ∉ gone ∧ a ∉ changed) : TreeAt nodes' root t := by
  induction t generalizing root with
  | nil => exact h
  | node x l r ihl ihr =>
      obtain ⟨hroot, n, hn, hdata, hl, hr⟩ := h
      have hx := hout x.1 (by simp)
      obtain ⟨n', hn', hdata'⟩ := hkept.get hn hx.1
      obtain ⟨n'', hn'', hbranches⟩ := hkept.get_branches hn hx.2
      obtain rfl := Option.some.inj (hn'.symm.trans hn'')
      refine ⟨hroot, n', hn', hdata'.trans hdata, ?_, ?_⟩
      · rw [show n'.left = n.left from congrArg Prod.fst hbranches]
        exact ihl hl fun a ha => hout a (mem_addresses_left ha)
      · rw [show n'.right = n.right from congrArg Prod.snd hbranches]
        exact ihr hr fun a ha => hout a (mem_addresses_right ha)

theorem TreeAt.childrenLive {nodes : Heap (HNode α)} {root : HTree} {t : BinaryTree (ℕ × α)}
    {a : ℕ} {n : HNode α} (h : TreeAt nodes root t) (ha : a ∈ addresses t)
    (hn : nodes.get a = some n) : ChildrenLive nodes n := by
  induction t generalizing root with
  | nil => simp at ha
  | node x l r ihl ihr =>
      obtain ⟨-, n', hn', -, hl, hr⟩ := h
      rw [addresses_node, List.mem_append, List.mem_cons] at ha
      rcases ha with ha | rfl | ha
      · exact ihl hl ha
      · obtain rfl := Option.some.inj (hn'.symm.trans hn)
        rintro b (hb | hb)
        · rw [hb] at hl
          exact hl.live hl.root_mem
        · rw [hb] at hr
          exact hr.live hr.root_mem
      · exact ihr hr ha

/-! ## The root -/

theorem TreeAt.exists_minimumLoop {nodes : Heap (HNode α)} {a fuel : ℕ}
    {t : BinaryTree (ℕ × α)} (h : TreeAt nodes (some a) t) (hfuel : t.numNodes ≤ fuel)
    (minimumParent : ℕ) :
    ∃ nodes' min par, minimumLoop fuel nodes a minimumParent = some (nodes', min, par) ∧
      CellsKept ∅ ∅ nodes nodes' := by
  induction t generalizing nodes a fuel minimumParent with
  | nil => exact absurd h (by simp [TreeAt])
  | node x l r ihl _ =>
      rw [BinaryTree.numNodes] at hfuel
      obtain ⟨rest, rfl⟩ : ∃ rest, fuel = rest + 1 := ⟨fuel - 1, by omega⟩
      obtain ⟨hroot, n, hn, -, hl, -⟩ := h
      obtain rfl := Option.some.inj hroot
      cases hleft : n.left with
      | none =>
          refine ⟨nodes, x.1, minimumParent, ?_, fun _ _ => rfl, fun _ _ => rfl⟩
          simp only [minimumLoop, hn, hleft, Option.bind_eq_bind, Option.bind_some]
      | some next =>
          rw [hleft] at hl
          obtain ⟨nn, hnn⟩ := hl.live hl.root_mem
          obtain ⟨nodes₁, hdecrement, -⟩ :=
            exists_modify hnn (f := fun n => { n with size := n.size - 1 }) rfl
          have hkept := CellsKept.modify_other hdecrement (fun _ => rfl) fun _ => rfl
          obtain ⟨nodes', min, par, hloop, hkept'⟩ :=
            ihl (hl.cellsKept hkept fun _ _ => ⟨id, id⟩) (show l.numNodes ≤ rest by omega) next
          refine ⟨nodes', min, par, ?_, hkept.trans hkept'⟩
          simp only [minimumLoop, hn, hleft, decrementSize, hdecrement, hloop,
            Option.bind_eq_bind, Option.bind_some]

/-- What `delete_root` does to the data of its root and to the other nodes. -/
structure RootDestroyed (m m' : HMemory α) (n : HNode α) (x : ℕ × α)
    (l r : BinaryTree (ℕ × α)) (root' : HTree) : Prop where
  once : MinimumIsChild m.nodes n → m'.destroyed = m.destroyed ++ [n.data]
  twice : ¬ MinimumIsChild m.nodes n → m'.destroyed = m.destroyed ++ [n.data, n.data]
  kept : CellsKept {x.1} {a | a ∈ addresses (.node x l r)} m.nodes m'.nodes
  live : ∀ a, root' = some a → ∃ an, m'.nodes.get a = some an

section Root

variable {m : HMemory α} {x : ℕ × α} {l r : BinaryTree (ℕ × α)} {n : HNode α}

/-- A root without one of its children is only freed. -/
theorem exists_deleteRoot_free (fuel : ℕ) (hn : m.nodes.get x.1 = some n)
    (hleaf : n.left = none ∨ n.right = none) :
    ∃ m' root', deleteRoot (fuel + 1) m x.1 = some (m', root') ∧
      m'.destroyed = m.destroyed ++ [n.data] ∧ m.nodes.free x.1 = some m'.nodes ∧
      (n.left = none → root' = n.right) ∧ (n.right = none → root' = n.left) := by
  obtain ⟨nodes', hfree⟩ := Heap.exists_free hn
  rw [deleteRoot]
  cases hleft : n.left with
  | none =>
      refine ⟨{ m with nodes := nodes', destroyed := m.destroyed ++ [n.data] }, n.right, ?_,
        rfl, hfree, fun _ => rfl, id⟩
      simp only [hn, hleft, hfree, Option.bind_eq_bind, Option.bind_some]
  | some left =>
      have hright : n.right = none := hleaf.resolve_left (by simp [hleft])
      refine ⟨{ m with nodes := nodes', destroyed := m.destroyed ++ [n.data] }, some left, ?_,
        rfl, hfree, fun hnone => by contradiction, fun _ => rfl⟩
      simp only [hn, hleft, hright, hfree, Option.bind_eq_bind, Option.bind_some]

/-- The minimum lies deeper: the root changes places with it and is deleted again. -/
theorem exists_deleteRoot_swap (fuel : ℕ) {left y z : ℕ} {yn : HNode α}
    (htree : TreeAt m.nodes (some x.1) (.node x l r)) (hn : m.nodes.get x.1 = some n)
    (hnodup : (addresses (.node x l r)).Nodup) (hleft : n.left = some left)
    (hright : n.right = some y) (hyn : m.nodes.get y = some yn) (hz : yn.left = some z) :
    ∃ m' root', deleteRoot (fuel + 2) m x.1 = some (m', root') ∧
      m'.destroyed = m.destroyed ++ [n.data, n.data] ∧
      CellsKept {x.1} {a | a ∈ addresses (.node x l r)} m.nodes m'.nodes ∧
      ∀ a, root' = some a → ∃ an, m'.nodes.get a = some an := by
  obtain ⟨-, n', hn', -, -, hr⟩ := id htree
  obtain rfl := Option.some.inj (hn'.symm.trans hn)
  cases r with
  | nil =>
      rw [show n'.right = none from hr] at hright
      contradiction
  | node w rl rr =>
      obtain ⟨hw, wn, hwn, -, hrl, -⟩ := hr
      obtain rfl := Option.some.inj (hw.symm.trans hright)
      obtain rfl := Option.some.inj (hwn.symm.trans hyn)
      rw [hz] at hrl
      have hparts := hnodup
      rw [addresses_node x, List.nodup_append, List.nodup_cons, addresses_node w,
        List.nodup_append] at hparts
      obtain ⟨-, ⟨hxr, hndrl, -⟩, -⟩ := hparts
      -- the walk to the minimum
      obtain ⟨nodes₁, hdecrement, -⟩ :=
        exists_modify hyn (f := fun n => { n with size := n.size - 1 }) rfl
      have hkept₁ := CellsKept.modify_other hdecrement (fun _ => rfl) fun _ => rfl
      have hrl₁ := hrl.cellsKept hkept₁ fun _ _ => ⟨id, id⟩
      obtain ⟨nodes₂, min, par, hloop, hkept₂⟩ :=
        hrl₁.exists_minimumLoop ((hrl₁.numNodes_le hndrl).trans (Nat.le_succ _)) w.1
      obtain ⟨-, ⟨minNode, hmin, hminLeft⟩, hpath, hfirst, hlater⟩ := minimumLoop_eq_some hloop
      obtain ⟨-, hminrl⟩ := hrl₁.leftPath hpath
      have hminr : min ∈ addresses (.node w rl rr) := mem_addresses_left hminrl
      have hparr : par ∈ addresses (.node w rl rr) := by
        by_cases hnone : leftOf nodes₁ z = none
        · rw [(hfirst hnone).2, addresses_node]
          simp
        · rwa [hlater (.inl hnone)]
      have hxmin : x.1 ≠ min := fun heq => hxr (by simpa [heq] using hminr)
      have hxpar : x.1 ≠ par := fun heq => hxr (by simpa [heq] using hparr)
      -- the root changes places with the minimum
      have hkept₁₂ := hkept₁.trans hkept₂
      have htree₂ := htree.cellsKept hkept₁₂ fun _ _ => ⟨id, id⟩
      obtain ⟨old, hold, holdData⟩ := hkept₁₂.get hn (Set.notMem_empty _)
      obtain ⟨nodes₃, hswap, hkept₃⟩ := exists_swapNodes hxmin hold hmin
        (htree₂.childrenLive (by simp) hold)
        (htree₂.childrenLive (mem_addresses_right hminr) hmin)
      obtain ⟨-, new, -, hnew, hx₃, -, -⟩ := swapNodes_eq_some hxmin hswap
      obtain rfl := Option.some.inj (hnew.symm.trans hmin)
      obtain ⟨k, hk, hkData⟩ := hkept₃.get hold (Set.notMem_empty _)
      rw [hk, Option.map_some, Option.some.injEq] at hx₃
      -- it has no left child there, so it is only freed
      obtain ⟨m₄, left', hagain, hdestroyed, hfree, -⟩ := exists_deleteRoot_free fuel
        (m := { m with nodes := nodes₃, destroyed := m.destroyed ++ [n'.data] }) hk
        (.inl ((congrArg Prod.fst hx₃).trans hminLeft))
      -- all of this changes only nodes of the tree
      have hchanged : ∀ a ∈ addresses (.node w rl rr),
          ({x.1, a} : Set ℕ) ⊆ {a | a ∈ addresses (.node x l (.node w rl rr))} := by
        intro a ha b hb
        rcases hb with rfl | rfl
        · exact (by simp)
        · exact mem_addresses_right ha
      have hkept₄ := ((hkept₁₂.mono (Set.empty_subset {x.1}) (Set.empty_subset _)).trans
        (hkept₃.mono (Set.empty_subset _) (hchanged min hminr))).trans
        ((CellsKept.free hfree).mono le_rfl fun b hb => hchanged min hminr (.inl hb))
      obtain ⟨parNode, hparNode⟩ := htree.live (mem_addresses_right hparr)
      obtain ⟨parNode₄, hparNode₄, -⟩ := hkept₄.get hparNode hxpar.symm
      obtain ⟨nodes₅, hlink, -⟩ :=
        exists_modify hparNode₄ (f := fun n => { n with left := left' }) rfl
      have hkept₅ := CellsKept.modify hlink fun _ => rfl
      refine ⟨{ m₄ with nodes := nodes₅ }, some min, ?_, ?_,
        hkept₄.trans (hkept₅.mono (Set.empty_subset _) fun b hb =>
          hchanged par hparr (.inr hb)), fun a ha => ?_⟩
      · rw [deleteRoot]
        simp only [hn, hleft, hright, hyn, hz, decrementSize, hdecrement, hloop, hswap, hagain,
          hlink, Option.bind_eq_bind, Option.bind_some]
      · rw [hdestroyed, hkData, holdData, List.append_assoc]
        rfl
      · obtain rfl := Option.some.inj ha
        obtain ⟨minNode₀, hminNode₀⟩ := htree.live (mem_addresses_right hminr)
        obtain ⟨minNode₄, hminNode₄, -⟩ := hkept₄.get hminNode₀ hxmin.symm
        obtain ⟨minNode₅, hminNode₅, -⟩ := hkept₅.get hminNode₄ (Set.notMem_empty _)
        exact ⟨minNode₅, hminNode₅⟩

theorem MinimumIsChild.of_leaf {nodes : Heap (HNode α)} (h : n.left = none ∨ n.right = none) :
    MinimumIsChild nodes n := h.elim .inl fun hright => .inr (.inl hright)

/-- `delete_root` returns; it destroys the data of its root again when the minimum lies
deeper. -/
theorem exists_deleteRoot {fuel : ℕ} (hn : m.nodes.get x.1 = some n)
    (htree : TreeAt m.nodes (some x.1) (.node x l r)) (hnodup : (addresses (.node x l r)).Nodup)
    (hfuel : 2 ≤ fuel) :
    ∃ m' root', deleteRoot fuel m x.1 = some (m', root') ∧
      RootDestroyed m m' n x l r root' := by
  obtain ⟨k, rfl⟩ : ∃ k, fuel = k + 2 := ⟨fuel - 2, by omega⟩
  have hlive := htree.childrenLive (by simp) hn
  have hin : ({x.1} : Set ℕ) ⊆ {a | a ∈ addresses (.node x l r)} := by simp
  have hchild : ∀ a, n.left = some a ∨ n.right = some a →
      a ∈ addresses (.node x l r) ∧ a ≠ x.1 := by
    obtain ⟨-, n', hn', -, hl, hr⟩ := id htree
    obtain rfl := Option.some.inj (hn'.symm.trans hn)
    rw [addresses_node, List.nodup_append, List.nodup_cons] at hnodup
    obtain ⟨-, ⟨hxr, -⟩, hdisjoint⟩ := hnodup
    rintro a (ha | ha)
    · rw [ha] at hl
      exact ⟨mem_addresses_left hl.root_mem, hdisjoint a hl.root_mem x.1 (by simp)⟩
    · rw [ha] at hr
      exact ⟨mem_addresses_right hr.root_mem, fun heq => hxr (heq ▸ hr.root_mem)⟩
  by_cases hleaf : n.left = none ∨ n.right = none
  · obtain ⟨m', root', hdelete, hdestroyed, hfree, hroot'⟩ :=
      exists_deleteRoot_free (k + 1) hn hleaf
    have hkept := (CellsKept.free hfree).mono le_rfl hin
    refine ⟨m', root', hdelete, fun _ => hdestroyed,
      fun hnot => absurd (MinimumIsChild.of_leaf hleaf) hnot, hkept, fun a ha => ?_⟩
    have ha' : n.left = some a ∨ n.right = some a := by
      rcases hleaf with hleft | hright
      · exact .inr ((hroot'.1 hleft).symm.trans ha)
      · exact .inl ((hroot'.2 hright).symm.trans ha)
    obtain ⟨an, han⟩ := hlive a ha'
    obtain ⟨an', han', -⟩ := hkept.get han (hchild a ha').2
    exact ⟨an', han'⟩
  · push Not at hleaf
    obtain ⟨left, hleft⟩ := Option.ne_none_iff_exists'.mp hleaf.1
    obtain ⟨y, hright⟩ := Option.ne_none_iff_exists'.mp hleaf.2
    obtain ⟨yn, hyn⟩ := hlive y (.inr hright)
    cases hz : yn.left with
    | none =>
        have hy := hchild y (.inr hright)
        obtain ⟨nodes₁, hmodify, hself, -⟩ :=
          exists_modify hyn (f := fun n => { n with left := some left }) rfl
        have hkept₁ := CellsKept.modify hmodify fun _ => rfl
        have hlive₁ : ChildrenLive nodes₁ { yn with left := some left } := by
          intro a ha
          obtain ⟨an, han⟩ : ∃ an, m.nodes.get a = some an := by
            rcases ha with ha | ha
            · exact hlive a (.inl (hleft.trans ha))
            · exact htree.childrenLive hy.1 hyn a (.inr ha)
          obtain ⟨an', han', -⟩ := hkept₁.get han (Set.notMem_empty _)
          exact ⟨an', han'⟩
        obtain ⟨nodes₂, hsize⟩ := exists_updateSize_live hself hlive₁
        have hkept₂ := hkept₁.trans (CellsKept.updateSize hsize)
        obtain ⟨n₂, hn₂, -⟩ := hkept₂.get hn (Set.notMem_empty _)
        obtain ⟨nodes₃, hfree⟩ := Heap.exists_free hn₂
        have hkept₃ := (hkept₂.mono (Set.empty_subset {x.1}) (Set.singleton_subset_iff.mpr hy.1)
          ).trans ((CellsKept.free hfree).mono le_rfl hin)
        refine ⟨{ m with nodes := nodes₃, destroyed := m.destroyed ++ [n.data] }, some y, ?_,
          fun _ => rfl, fun hfar => absurd (.inr (.inr ⟨y, yn, hright, hyn, hz⟩)) hfar, hkept₃,
          fun a ha => ?_⟩
        · rw [deleteRoot]
          simp only [hn, hleft, hright, hyn, hz, hmodify, hsize, hfree, Option.bind_eq_bind,
            Option.bind_some]
        · obtain rfl := Option.some.inj ha
          obtain ⟨yn₃, hyn₃, -⟩ := hkept₃.get hyn hy.2
          exact ⟨yn₃, hyn₃⟩
    | some z =>
        obtain ⟨m', root', hdelete, hdestroyed, hkept, hroot'⟩ :=
          exists_deleteRoot_swap k htree hn hnodup hleft hright hyn hz
        refine ⟨m', root', hdelete, fun hnear => ?_, fun _ => hdestroyed, hkept, hroot'⟩
        rcases hnear with hnone | hnone | ⟨r', rn, hr', hrn, hnone⟩
        · exact absurd hnone hleaf.1
        · exact absurd hnone hleaf.2
        · obtain rfl := Option.some.inj (hright.symm.trans hr')
          obtain rfl := Option.some.inj (hyn.symm.trans hrn)
          rw [hz] at hnone
          contradiction

end Root

/-! ## The whole deletion -/

/-- The hierarchy changes neither the search tree nor the data destroyed so far. -/
theorem removeChildFromH_shape {m m' : HMemory α} {a : ℕ}
    (h : removeChildFromH m a = some m') :
    m'.destroyed = m.destroyed ∧
      ∀ b, (m'.nodes.get b).map HNode.shape = (m.nodes.get b).map HNode.shape := by
  simp only [removeChildFromH, Option.bind_eq_bind, Option.bind_eq_some_iff] at h
  obtain ⟨child, -, h⟩ := h
  cases hparent : child.hParent with
  | none =>
      simp only [hparent, Option.some.injEq] at h
      subst h
      exact ⟨rfl, fun _ => rfl⟩
  | some parent =>
      simp only [hparent, Option.bind_eq_some_iff] at h
      obtain ⟨parentNode, -, h⟩ := h
      cases hfirst : parentNode.hChildren with
      | none =>
          simp only [hfirst, Option.some.injEq] at h
          subst h
          exact ⟨rfl, fun _ => rfl⟩
      | some first =>
          simp only [hfirst] at h
          split at h
          · simp only [Option.bind_eq_some_iff, Option.some.injEq] at h
            obtain ⟨nodes, hmodify, rfl⟩ := h
            exact ⟨rfl, Heap.map_get_modify hmodify fun _ => rfl⟩
          · simp only [Option.bind_eq_some_iff, Option.some.injEq] at h
            obtain ⟨_, -, nodes, hmodify, rfl⟩ := h
            exact ⟨rfl, Heap.map_get_modify hmodify fun _ => rfl⟩

section Deletion

variable {key : α → κ} {k : κ} {dataCmpKey : α → κ → Option Ordering}

/-- What `h_tree_delete` passes to `data_destroy`: a datum of key `k` once, and again when
the minimum of the right subtree of its node lies deeper. -/
structure DataDestroyed (key : α → κ) (k : κ) (m m' : HMemory α) (t : BinaryTree (ℕ × α)) :
    Prop where
  absent : (∀ x ∈ inorder t, key x.2 ≠ k) → m'.destroyed = m.destroyed
  once : ∀ x ∈ inorder t, key x.2 = k → ∀ n, m.nodes.get x.1 = some n →
    MinimumIsChild m.nodes n → m'.destroyed = m.destroyed ++ [x.2]
  twice : ∀ x ∈ inorder t, key x.2 = k → ∀ n, m.nodes.get x.1 = some n →
    ¬ MinimumIsChild m.nodes n → m'.destroyed = m.destroyed ++ [x.2, x.2]

theorem DataDestroyed.of_mem_iff {m m' : HMemory α} {t t' : BinaryTree (ℕ × α)}
    (h : DataDestroyed key k m m' t)
    (hmem : ∀ x, key x.2 = k → (x ∈ inorder t' ↔ x ∈ inorder t)) :
    DataDestroyed key k m m' t' where
  absent habsent := h.absent fun x hx hxk => habsent x ((hmem x hxk).mpr hx) hxk
  once x hx hxk := h.once x ((hmem x hxk).mp hx) hxk
  twice x hx hxk := h.twice x ((hmem x hxk).mp hx) hxk

/-- The root stores, by `f`, what the deletion made of its subtree `s`. -/
theorem exists_deleteBelow {m m₁ : HMemory α} {x : ℕ × α} {n : HNode α}
    {s t : BinaryTree (ℕ × α)} {f : HNode α → HNode α} (hn : m.nodes.get x.1 = some n)
    (hxs : x.1 ∉ addresses s) (hsub : ∀ a ∈ addresses s, a ∈ addresses t)
    (hx : x.1 ∈ addresses t) (hdestroyed : DataDestroyed key k m m₁ s)
    (hmem : ∀ y, key y.2 = k → (y ∈ inorder t ↔ y ∈ inorder s))
    (hkept : CellsKept {a | a ∈ addresses s} {a | a ∈ addresses s} m.nodes m₁.nodes)
    (hdata : ∀ n, (f n).data = n.data) (hlinks : ∀ n, (f n).links = n.links)
    (hlive : ∀ n₁ : HNode α, n₁.branches = n.branches → ChildrenLive m₁.nodes (f n₁)) :
    ∃ nodes₂ nodes₃, m₁.nodes.modify x.1 f = some nodes₂ ∧
      updateSize nodes₂ x.1 = some nodes₃ ∧
      DataDestroyed key k m { m₁ with nodes := nodes₃ } t ∧
      CellsKept {a | a ∈ addresses t} {a | a ∈ addresses t} m.nodes nodes₃ ∧
      ∃ an, nodes₃.get x.1 = some an := by
  obtain ⟨n₁, hn₁, hbranches⟩ := hkept.get_branches hn hxs
  obtain ⟨nodes₂, hmodify, hself, -⟩ := exists_modify hn₁ (hlinks n₁)
  have hkept₂ := CellsKept.modify hmodify hdata
  obtain ⟨nodes₃, hsize⟩ := exists_updateSize_live hself
    ((hlive n₁ hbranches).congr hkept₂ (fun _ _ => Set.notMem_empty _) rfl)
  have hkept₃ := hkept₂.trans (CellsKept.updateSize hsize)
  obtain ⟨n₃, hn₃, -⟩ := hkept₃.get hn₁ (Set.notMem_empty _)
  have hdestroyed' := hdestroyed.of_mem_iff hmem
  exact ⟨nodes₂, nodes₃, hmodify, hsize,
    ⟨hdestroyed'.absent, hdestroyed'.once, hdestroyed'.twice⟩,
    (hkept.mono hsub hsub).trans
      (hkept₃.mono (Set.empty_subset _) (Set.singleton_subset_iff.mpr hx)), n₃, hn₃⟩

variable [LinearOrder κ]

/-- The found node is taken out of the list of its parent and deleted. -/
theorem TreeAt.exists_deleteFound {m : HMemory α} {x : ℕ × α} {l r : BinaryTree (ℕ × α)}
    (h : TreeAt m.nodes (some x.1) (.node x l r)) (hord : Ordered (fun x => key x.2) (.node x l r))
    (hxk : key x.2 = k) (hremove : removeChildFromH m x.1 ≠ none) :
    ∃ m' root', ((removeChildFromH m x.1).bind fun m =>
        deleteRoot (m.nodes.next + 1) m x.1) = some (m', root') ∧
      DataDestroyed key k m m' (.node x l r) ∧
      CellsKept {a | a ∈ addresses (.node x l r)} {a | a ∈ addresses (.node x l r)}
        m.nodes m'.nodes ∧
      ∀ a, root' = some a → ∃ an, m'.nodes.get a = some an := by
  obtain ⟨m₁, hm₁⟩ := Option.ne_none_iff_exists'.mp hremove
  obtain ⟨hdestroyed₁, hshape⟩ := removeChildFromH_shape hm₁
  have htree₁ := h.congr fun a _ => hshape a
  obtain ⟨-, n, hn, hdata, -⟩ := id h
  obtain ⟨n₁, hn₁, hdata₁, hleft₁, hright₁, -⟩ := get_of_shape (hshape x.1) hn
  have hnext : 2 ≤ m₁.nodes.next + 1 := by
    have := Heap.lt_next hn₁
    omega
  obtain ⟨m', root', hdelete, hgone⟩ :=
    exists_deleteRoot hn₁ htree₁ (h.nodup hord) hnext
  have hsame : SameBranches m.nodes m₁.nodes := fun a => branches_of_shape (hshape a)
  have hbranches : n₁.branches = n.branches := by
    rw [HNode.branches, hleft₁, hright₁]
    rfl
  have hat : ∀ y ∈ inorder (.node x l r), key y.2 = k → y = x := fun y hy hyk =>
    hord.eq_of_key hy (by simp) (hyk.trans hxk.symm)
  refine ⟨m', root', ?_, ⟨fun habsent => ?_, ?_, ?_⟩, ?_, hgone.live⟩
  · rw [hm₁, Option.bind_some, hdelete]
  · exact absurd hxk (habsent x (by simp))
  · intro y hy hyk n' hn' hnear
    obtain rfl := hat y hy hyk
    obtain rfl := Option.some.inj (hn.symm.trans hn')
    rw [hgone.once (hnear.congr hsame hbranches), hdestroyed₁, hdata₁, hdata]
  · intro y hy hyk n' hn' hfar
    obtain rfl := hat y hy hyk
    obtain rfl := Option.some.inj (hn.symm.trans hn')
    have hfar₁ : ¬ MinimumIsChild m₁.nodes n₁ := fun hnear =>
      hfar (hnear.congr (fun a => (hsame a).symm) hbranches.symm)
    rw [hgone.twice hfar₁, hdestroyed₁, hdata₁, hdata]
  · exact (CellsKept.of_shape hshape).trans (hgone.kept.mono (by simp) le_rfl)

theorem TreeAt.exists_deleteLoop {fuel : ℕ} {m : HMemory α} {root : HTree}
    {t : BinaryTree (ℕ × α)} (h : TreeAt m.nodes root t)
    (hord : Ordered (fun x => key x.2) t)
    (hcmp : ∀ x ∈ inorder t, dataCmpKey x.2 k = some (compare (key x.2) k))
    (hremove : ∀ x ∈ inorder t, key x.2 = k → removeChildFromH m x.1 ≠ none)
    (hfuel : t.numNodes < fuel) :
    ∃ m' root', hTreeDeleteLoop dataCmpKey k fuel m root = some (m', root') ∧
      DataDestroyed key k m m' t ∧
      CellsKept {a | a ∈ addresses t} {a | a ∈ addresses t} m.nodes m'.nodes ∧
      ∀ a, root' = some a → ∃ an, m'.nodes.get a = some an := by
  induction t generalizing root fuel with
  | nil =>
      obtain ⟨rest, rfl⟩ : ∃ rest, fuel = rest + 1 := ⟨fuel - 1, by omega⟩
      refine ⟨m, none, ?_, ⟨fun _ => rfl, by simp, by simp⟩, ⟨fun _ _ => rfl, fun _ _ => rfl⟩,
        fun _ hnone => by contradiction⟩
      rw [show root = none from h]
      rfl
  | node x l r ihl ihr =>
      obtain ⟨rest, rfl⟩ : ∃ rest, fuel = rest + 1 := ⟨fuel - 1, by omega⟩
      have hnodup := h.nodup hord
      have htree := h
      obtain ⟨hroot, n, hn, hdata, hl, hr⟩ := h
      obtain ⟨hordl, hordr, -, -⟩ := ordered_node_iff.mp hord
      rw [addresses_node, List.nodup_append, List.nodup_cons] at hnodup
      obtain ⟨-, ⟨hxrout, -⟩, hdisjoint⟩ := hnodup
      have hxlout : x.1 ∉ addresses l := fun hmem => hdisjoint _ hmem _ (by simp) rfl
      rw [BinaryTree.numNodes] at hfuel
      subst hroot
      simp only [hTreeDeleteLoop, hn, hdata, hcmp x (by simp), Option.bind_eq_bind,
        Option.bind_some]
      cases hc : compare (key x.2) k with
      | eq =>
          have hxk := compare_eq_iff_eq.mp hc
          exact htree.exists_deleteFound hord hxk (hremove x (by simp) hxk)
      | lt =>
          have hxk := compare_lt_iff_lt.mp hc
          obtain ⟨m₁, right, hrec, hdestroyed, hkept, hlive⟩ :=
            ihr hr hordr (fun y hy => hcmp y (by simp [hy]))
              (fun y hy => hremove y (by simp [hy])) (show r.numNodes < rest by omega)
          have hlive₁ : ∀ n₁ : HNode α, n₁.branches = n.branches →
              ChildrenLive m₁.nodes { n₁ with right := right } := by
            rintro n₁ hbranches b (hb | hb)
            · rw [show n₁.left = n.left from congrArg Prod.fst hbranches] at hb
              rw [hb] at hl
              obtain ⟨bn, hbn⟩ := hl.live hl.root_mem
              obtain ⟨bn', hbn', -⟩ := hkept.get hbn fun hmem =>
                hdisjoint b hl.root_mem b (List.mem_cons_of_mem _ hmem) rfl
              exact ⟨bn', hbn'⟩
            · exact hlive b hb
          have hmem : ∀ y : ℕ × α, key y.2 = k →
              (y ∈ inorder (.node x l r) ↔ y ∈ inorder r) := by
            intro y hyk
            exact ⟨fun hy => hord.mem_right hy (hxk.trans_eq hyk.symm), fun hy => by simp [hy]⟩
          obtain ⟨nodes₂, nodes₃, hlink, hsize, hdestroyed₃, hkept₃, an, han⟩ :=
            exists_deleteBelow (f := fun n => { n with right := right }) hn hxrout
              (fun a ha => mem_addresses_right ha) (htree.root_mem) hdestroyed hmem hkept
              (fun _ => rfl) (fun _ => rfl) hlive₁
          refine ⟨{ m₁ with nodes := nodes₃ }, some x.1, ?_, hdestroyed₃, hkept₃, fun a ha => ?_⟩
          · simp only [hrec, hlink, hsize, Option.bind_some]
          · obtain rfl := Option.some.inj ha
            exact ⟨an, han⟩
      | gt =>
          have hxk := compare_gt_iff_gt.mp hc
          obtain ⟨m₁, left, hrec, hdestroyed, hkept, hlive⟩ :=
            ihl hl hordl (fun y hy => hcmp y (by simp [hy]))
              (fun y hy => hremove y (by simp [hy])) (show l.numNodes < rest by omega)
          have hlive₁ : ∀ n₁ : HNode α, n₁.branches = n.branches →
              ChildrenLive m₁.nodes { n₁ with left := left } := by
            rintro n₁ hbranches b (hb | hb)
            · exact hlive b hb
            · rw [show n₁.right = n.right from congrArg Prod.snd hbranches] at hb
              rw [hb] at hr
              obtain ⟨bn, hbn⟩ := hr.live hr.root_mem
              obtain ⟨bn', hbn', -⟩ := hkept.get hbn fun hmem =>
                hdisjoint b hmem b (List.mem_cons_of_mem _ hr.root_mem) rfl
              exact ⟨bn', hbn'⟩
          have hmem : ∀ y : ℕ × α, key y.2 = k →
              (y ∈ inorder (.node x l r) ↔ y ∈ inorder l) := by
            intro y hyk
            exact ⟨fun hy => hord.mem_left hy (hyk.trans_lt hxk), fun hy => by simp [hy]⟩
          obtain ⟨nodes₂, nodes₃, hlink, hsize, hdestroyed₃, hkept₃, an, han⟩ :=
            exists_deleteBelow (f := fun n => { n with left := left }) hn hxlout
              (fun a ha => mem_addresses_left ha) (htree.root_mem) hdestroyed hmem hkept
              (fun _ => rfl) (fun _ => rfl) hlive₁
          refine ⟨{ m₁ with nodes := nodes₃ }, some x.1, ?_, hdestroyed₃, hkept₃, fun a ha => ?_⟩
          · simp only [hrec, hlink, hsize, Option.bind_some]
          · obtain rfl := Option.some.inj ha
            exact ⟨an, han⟩

/-- A deletion that returns took the found node out of the list of its parent. -/
theorem TreeAt.deleteLoop_removes {fuel : ℕ} {m m' : HMemory α} {root root' : HTree}
    {t : BinaryTree (ℕ × α)} (h : TreeAt m.nodes root t)
    (hord : Ordered (fun x => key x.2) t)
    (hcmp : ∀ x ∈ inorder t, dataCmpKey x.2 k = some (compare (key x.2) k))
    (hdelete : hTreeDeleteLoop dataCmpKey k fuel m root = some (m', root'))
    {y : ℕ × α} (hy : y ∈ inorder t) (hyk : key y.2 = k) : removeChildFromH m y.1 ≠ none := by
  induction t generalizing root fuel m' root' with
  | nil => simp at hy
  | node x l r ihl ihr =>
      cases fuel with
      | zero => simp [hTreeDeleteLoop] at hdelete
      | succ fuel =>
          obtain ⟨hroot, n, hn, hdata, hl, hr⟩ := h
          obtain ⟨hordl, hordr, -, -⟩ := ordered_node_iff.mp hord
          subst hroot
          simp only [hTreeDeleteLoop, hn, hdata, hcmp x (by simp), Option.bind_eq_bind,
            Option.bind_some] at hdelete
          cases hc : compare (key x.2) k with
          | eq =>
              have hxk := compare_eq_iff_eq.mp hc
              obtain rfl : y = x := hord.eq_of_key hy (by simp) (hyk.trans hxk.symm)
              simp only [hc, Option.bind_eq_some_iff] at hdelete
              obtain ⟨m₁, hremove, -⟩ := hdelete
              rw [hremove]
              exact Option.some_ne_none m₁
          | lt =>
              have hxk := compare_lt_iff_lt.mp hc
              simp only [hc, Option.bind_eq_some_iff, Prod.exists] at hdelete
              obtain ⟨m₁, right, hrec, -⟩ := hdelete
              exact ihr hr hordr (fun y hy => hcmp y (by simp [hy])) hrec
                (hord.mem_right hy (hxk.trans_eq hyk.symm))
          | gt =>
              have hxk := compare_gt_iff_gt.mp hc
              simp only [hc, Option.bind_eq_some_iff, Prod.exists] at hdelete
              obtain ⟨m₁, left, hrec, -⟩ := hdelete
              exact ihl hl hordl (fun y hy => hcmp y (by simp [hy])) hrec
                (hord.mem_left hy (hyk.trans_lt hxk))

variable (key k) in
/-- The calls of `data_destroy` are one on the datum of key `k`, none when there is no such
datum, and none on the data of the other nodes. -/
def DestroysOnce (t : BinaryTree (ℕ × α)) (m m' : HMemory α) : Prop :=
  ∃ calls, m'.destroyed = m.destroyed ++ calls ∧
    calls = ((inorder t).filter fun x => key x.2 = k).map Prod.snd ∧
    ∀ x ∈ inorder t, key x.2 ≠ k → x.2 ∉ calls

theorem destroysOnce_of_eq {t : BinaryTree (ℕ × α)} {m m' : HMemory α}
    (h : m'.destroyed =
      m.destroyed ++ ((inorder t).filter fun x => key x.2 = k).map Prod.snd) :
    DestroysOnce key k t m m' := by
  refine ⟨_, h, rfl, fun x _ hxk hcall => ?_⟩
  obtain ⟨y, hy, heq⟩ := List.mem_map.mp hcall
  have hyk : key y.2 = k := by simpa using (List.mem_filter.mp hy).2
  rw [heq] at hyk
  exact hxk hyk

/-- A datum that is destroyed twice in a row was destroyed too often. -/
theorem not_destroysOnce {t : BinaryTree (ℕ × α)} {m m' : HMemory α} {x : ℕ × α}
    (hord : Ordered (fun x => key x.2) t) (hx : x ∈ inorder t) (hxk : key x.2 = k)
    (h : m'.destroyed = m.destroyed ++ [x.2, x.2]) : ¬ DestroysOnce key k t m m' := by
  rintro ⟨calls, hcalls, heq, -⟩
  have htwice : [x.2, x.2] = calls := List.append_cancel_left (h.symm.trans hcalls)
  have honce := hord.filter_key hx
  simp only [hxk] at honce
  rw [honce, ← htwice] at heq
  simp at heq

/-- A deletion in a search tree destroys exactly the datum of its key, when there is one,
unless the minimum of the right subtree lies deeper than the right child.  It returns
whenever the hierarchy lets go of the node. -/
theorem deletion_destroys_iff {m : HMemory α} {root : HTree} {t : BinaryTree (ℕ × α)}
    (h : TreeAt m.nodes root t) (hord : Ordered (fun x => key x.2) t) (k : κ) :
    (∀ m' root', hTreeDelete (cmpKey key) m root k = some (m', root') →
      (DestroysOnce key k t m m' ↔ ∀ x ∈ inorder t, key x.2 = k →
        ∀ n, m.nodes.get x.1 = some n → MinimumIsChild m.nodes n)) ∧
      ((∀ x ∈ inorder t, key x.2 = k → removeChildFromH m x.1 ≠ none) →
        hTreeDelete (cmpKey key) m root k ≠ none) := by
  have hreturns : (∀ x ∈ inorder t, key x.2 = k → removeChildFromH m x.1 ≠ none) →
      ∃ m' root', hTreeDelete (cmpKey key) m root k = some (m', root') ∧
        DataDestroyed key k m m' t := by
    intro hremove
    have hcmp : ∀ x ∈ inorder t, cmpKey key x.2 k = some (compare (key x.2) k) := fun _ _ => rfl
    obtain ⟨m', root', hdelete, hdestroyed, -⟩ := h.exists_deleteLoop hord hcmp hremove
      (Nat.lt_succ_of_le (h.numNodes_le (h.nodup hord)))
    exact ⟨m', root', hdelete, hdestroyed⟩
  refine ⟨fun m' root' hdelete => ?_, fun hremove => ?_⟩
  · obtain ⟨m₁, root₁, hdelete₁, hdestroyed⟩ := hreturns fun x hx hxk =>
      h.deleteLoop_removes hord (fun _ _ => rfl) hdelete hx hxk
    obtain ⟨rfl, rfl⟩ := Prod.mk.inj (Option.some.inj (hdelete₁.symm.trans hdelete))
    constructor
    · intro honce x hx hxk n hn
      by_contra hfar
      exact not_destroysOnce hord hx hxk (hdestroyed.twice x hx hxk n hn hfar) honce
    · intro hnear
      apply destroysOnce_of_eq
      by_cases habsent : ∀ x ∈ inorder t, key x.2 ≠ k
      · rw [hdestroyed.absent habsent, List.filter_eq_nil_iff.mpr (by simpa using habsent),
          List.map_nil, List.append_nil]
      · push Not at habsent
        obtain ⟨x, hx, rfl⟩ := habsent
        obtain ⟨n, hn, -⟩ := h.mem hx
        have hcalls := hdestroyed.once x hx rfl n hn (hnear x hx rfl n hn)
        rw [hcalls, hord.filter_key hx, List.map_singleton]
  · obtain ⟨m', root', hdelete, -⟩ := hreturns hremove
    rw [hdelete]
    exact Option.some_ne_none _

end Deletion

/-- The memory after the insertions of `insertAll`, before anything is deleted. -/
def insertedMemory (nodes : Heap (HNode ℕ)) : HMemory ℕ :=
  { nodes := nodes, errno := 0, destroyed := [] }

/-- The root of 2, 1, 3 has its right child as minimum. -/
theorem deletion_destroys_iff_three :
    ∃ (m m' : HMemory ℕ) (root root' : HTree) (t : BinaryTree (ℕ × ℕ)),
      SearchTreeAt id m.nodes root t ∧
      hTreeDelete (cmpKey id) m root 2 = some (m', root') ∧ DestroysOnce id 2 t m m' := by
  obtain ⟨⟨nodes, root⟩, hstate⟩ : ∃ s, insertAll [2, 1, 3] = some s :=
    Option.isSome_iff_exists.mp (by decide)
  have hfound : (insertAll [2, 1, 3]).bind (fun s =>
      hTreeSearch (cmpKey id) s.1 s.2 2) = some (some 0) := by decide
  have hright : (insertAll [2, 1, 3]).bind (fun s =>
      (s.1.get 0).map HNode.right) = some (some 2) := by decide
  have hchild : (insertAll [2, 1, 3]).bind (fun s =>
      (s.1.get 2).map HNode.left) = some none := by decide
  have hreturns : (insertAll [2, 1, 3]).bind (fun s =>
      (hTreeDelete (cmpKey id) (insertedMemory s.1) s.2 2).map fun r => r.1.destroyed) =
        some [2] := by decide
  rw [hstate, Option.bind_some] at hfound hright hchild hreturns
  rw [Option.map_eq_some_iff] at hright hchild hreturns
  obtain ⟨n, hn, hright⟩ := hright
  obtain ⟨rn, hrn, hnone⟩ := hchild
  obtain ⟨⟨m', root'⟩, hdelete, -⟩ := hreturns
  have hhistory : TreeHistory id (DeletesCleanly id) (insertedMemory nodes) root :=
    treeHistory_insertAll hstate
  obtain ⟨t, ht⟩ := hhistory.searchTree
  refine ⟨insertedMemory nodes, m', root, root', t, ht, hdelete,
    ((deletion_destroys_iff ht.tree ht.ordered 2).1 m' root' hdelete).mpr ?_⟩
  intro x hx hxk n' hn'
  have haddr := hfound.symm.trans (ht.search 2)
  rw [ht.ordered.find?_eq_some_iff.mpr ⟨hx, hxk⟩, Option.map_some, Option.some.injEq,
    Option.some.injEq] at haddr
  rw [← haddr] at hn'
  obtain rfl := Option.some.inj (hn.symm.trans hn')
  exact .inr (.inr ⟨2, rn, hright, hrn, hnone⟩)

/-- The root of 2, 1, 4, 3 has the left child of its right child as minimum: its datum is
destroyed twice. -/
theorem deletion_destroys_twice :
    ∃ (m m' : HMemory ℕ) (root root' : HTree) (t : BinaryTree (ℕ × ℕ)),
      SearchTreeAt id m.nodes root t ∧
      hTreeDelete (cmpKey id) m root 2 = some (m', root') ∧ m'.destroyed = [2, 2] ∧
      ¬ DestroysOnce id 2 t m m' := by
  obtain ⟨⟨nodes, root⟩, hstate⟩ : ∃ s, insertAll [2, 1, 4, 3] = some s :=
    Option.isSome_iff_exists.mp (by decide)
  have hfound : (insertAll [2, 1, 4, 3]).bind (fun s =>
      hTreeSearch (cmpKey id) s.1 s.2 2) = some (some 0) := by decide
  have hreturns : (insertAll [2, 1, 4, 3]).bind (fun s =>
      (hTreeDelete (cmpKey id) (insertedMemory s.1) s.2 2).map fun r => r.1.destroyed) =
        some [2, 2] := by decide
  rw [hstate, Option.bind_some] at hfound hreturns
  rw [Option.map_eq_some_iff] at hreturns
  obtain ⟨⟨m', root'⟩, hdelete, htwice⟩ := hreturns
  have hhistory : TreeHistory id (DeletesCleanly id) (insertedMemory nodes) root :=
    treeHistory_insertAll hstate
  obtain ⟨t, ht⟩ := hhistory.searchTree
  refine ⟨insertedMemory nodes, m', root, root', t, ht, hdelete, htwice, ?_⟩
  have hsearch := (ht.search 2).symm.trans hfound
  rw [Option.some.injEq, Option.map_eq_some_iff] at hsearch
  obtain ⟨x, hx, -⟩ := hsearch
  obtain ⟨hmem, hxk⟩ := ht.ordered.find?_eq_some_iff.mp hx
  refine not_destroysOnce ht.ordered hmem hxk ?_
  rw [show x.2 = 2 from hxk]
  exact htwice

end SistOp.FatFuse
