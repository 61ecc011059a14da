import SistOp.InsertionOrder
import SistOp.SiblingLists
import Mathlib.Tactic

/-!
# Deleting from the search tree

`delete_root` moves the minimum of the right subtree to the place of a root with two
children.  This works when the minimum is the right child or its left child: the
parent of the minimum, which it links to the rest, is the right child then.  Behind a
longer walk it takes the minimum for its own parent and builds a cycle.
-/

namespace SistOp.FatFuse

open SearchTree

variable {α κ : Type}

/-- One subtree of `n` is empty, or the minimum of the right one is its root or the left
child of its root. -/
def MinimumNear (nodes : Heap (HNode α)) (n : HNode α) : Prop :=
  n.left = none ∨ n.right = none ∨
    ∃ r rn, n.right = some r ∧ nodes.get r = some rn ∧
      (rn.left = none ∨ ∃ l ln, rn.left = some l ∧ nodes.get l = some ln ∧ ln.left = none)

/-- What `delete_root` makes of the tree `.node x l r` when it works. -/
structure RootRemoved (nodes nodes' : Heap (HNode α)) (x : ℕ × α) (l r : BinaryTree (ℕ × α))
    (root' : HTree) (t' : BinaryTree (ℕ × α)) : Prop where
  tree : TreeAt nodes' root' t'
  sized : Sized nodes' t'
  elements : inorder t' = inorder l ++ inorder r
  dead : nodes'.get x.1 = none
  others : ∀ a, a ∉ addresses (.node x l r) → nodes'.get a = nodes.get a
  links : ∀ a, a ≠ x.1 → (nodes'.get a).map HNode.links = (nodes.get a).map HNode.links

section Memory

variable {nodes nodes' : Heap (HNode α)}

theorem get_of_hTreeSize {root : HTree} {size : ℤ} (h : hTreeSize nodes root = some size)
    (hsame : ∀ a, root = some a → nodes'.get a = nodes.get a) :
    hTreeSize nodes' root = some size := by
  cases root with
  | none => exact h
  | some a => rwa [hTreeSize, hsame a rfl]

theorem exists_updateSize_of_sizes {a : ℕ} {n : HNode α} {i j : ℤ}
    (hn : nodes.get a = some n) (hleft : hTreeSize nodes n.left = some i)
    (hright : hTreeSize nodes n.right = some j) :
    ∃ nodes', updateSize nodes a = some nodes' ∧
      nodes'.get a = some { n with size := 1 + i + j } ∧
      ∀ b, b ≠ a → nodes'.get b = nodes.get b := by
  obtain ⟨nodes', hwrite⟩ := Heap.exists_write hn { n with size := 1 + i + j }
  obtain ⟨-, -, hself, hothers⟩ := Heap.write_eq_some hwrite
  refine ⟨nodes', ?_, hself, hothers⟩
  simp only [updateSize, hn, hleft, hright, Option.bind_eq_bind, Option.bind_some, hwrite]

/-- A change of a node that the hierarchy does not see. -/
theorem exists_modify {a : ℕ} {n : HNode α} (hn : nodes.get a = some n)
    {f : HNode α → HNode α} (hlinks : (f n).links = n.links) :
    ∃ nodes', nodes.modify a f = some nodes' ∧ nodes'.get a = some (f n) ∧
      (∀ b, b ≠ a → nodes'.get b = nodes.get b) ∧ SameHierarchy nodes nodes' := by
  obtain ⟨nodes', hwrite⟩ := Heap.exists_write hn (f n)
  obtain ⟨-, -, hself, hothers⟩ := Heap.write_eq_some hwrite
  refine ⟨nodes', ?_, hself, hothers, SameHierarchy.write hn hwrite hlinks⟩
  simp only [Heap.modify, hn, Option.bind_eq_bind, Option.bind_some, hwrite]

theorem keepTree {root : HTree} {t : BinaryTree (ℕ × α)} (h : TreeAt nodes root t)
    (hsized : Sized nodes t) (hsame : ∀ a ∈ addresses t, nodes'.get a = nodes.get a) :
    TreeAt nodes' root t ∧ Sized nodes' t := by
  have hshape : ∀ a ∈ addresses t,
      (nodes'.get a).map HNode.shape = (nodes.get a).map HNode.shape := fun a ha => by
    rw [hsame a ha]
  exact ⟨h.congr hshape, hsized.congr hshape⟩

end Memory

/-! ## Roots that are removed well -/

section Root

variable {m : HMemory α} {x : ℕ × α} {l r : BinaryTree (ℕ × α)} {n : HNode α}

/-- A root without one of its children: the other one takes its place. -/
theorem rootRemoved_free {nodes' : Heap (HNode α)} {root' : HTree} {t' : BinaryTree (ℕ × α)}
    (hfree : m.nodes.free x.1 = some nodes') (htree : TreeAt m.nodes root' t')
    (hsized : Sized m.nodes t') (hout : x.1 ∉ addresses t')
    (helements : inorder t' = inorder l ++ inorder r) :
    RootRemoved m.nodes nodes' x l r root' t' := by
  obtain ⟨-, -, hdead, hothers⟩ := Heap.free_eq_some hfree
  obtain ⟨htree', hsized'⟩ := keepTree htree hsized fun a ha =>
    hothers a fun heq => hout (heq ▸ ha)
  exact ⟨htree', hsized', helements, hdead,
    fun a ha => hothers a fun heq => ha (by simp [heq]), fun a ha => by rw [hothers a ha]⟩

/-- The right child is the minimum: it gets the left subtree. -/
theorem deleteRoot_child (fuel : ℕ) {z : ℕ × α} {rr : BinaryTree (ℕ × α)} {zn : HNode α}
    {left : ℕ} (hn : m.nodes.get x.1 = some n) (hleft : n.left = some left)
    (hright : n.right = some z.1) (hl : TreeAt m.nodes n.left l) (hsl : Sized m.nodes l)
    (hzn : m.nodes.get z.1 = some zn) (hzdata : zn.data = z.2) (hznull : zn.left = none)
    (hrr : TreeAt m.nodes zn.right rr) (hsrr : Sized m.nodes rr) (hxl : x.1 ∉ addresses l)
    (hxz : x.1 ≠ z.1) (hxrr : x.1 ∉ addresses rr) (hzl : z.1 ∉ addresses l)
    (hzrr : z.1 ∉ addresses rr) :
    ∃ m', deleteRoot (fuel + 1) m x.1 = some (m', some z.1) ∧
      RootRemoved m.nodes m'.nodes x l (.node z .nil rr) (some z.1) (.node z l rr) := by
  obtain ⟨nodes₁, hmodify, hself₁, hothers₁, hsame₁⟩ :=
    exists_modify hzn (f := fun n => { n with left := some left }) rfl
  obtain ⟨hl₁, hsl₁⟩ := keepTree hl hsl fun a ha => hothers₁ a fun heq => hzl (heq ▸ ha)
  obtain ⟨hrr₁, hsrr₁⟩ := keepTree hrr hsrr fun a ha => hothers₁ a fun heq => hzrr (heq ▸ ha)
  rw [hleft] at hl₁
  obtain ⟨nodes₂, hsize, htree, hsized, -, hothers₂⟩ :=
    exists_updateSize hself₁ hzdata hl₁ hrr₁ hsl₁ hsrr₁ hzl hzrr
  have hn₂ : nodes₂.get x.1 = some n := by rw [hothers₂ _ hxz, hothers₁ _ hxz, hn]
  obtain ⟨nodes₃, hfree⟩ := Heap.exists_free hn₂
  obtain ⟨-, -, hdead, hothers₃⟩ := Heap.free_eq_some hfree
  have hout : x.1 ∉ addresses (.node z l rr) := by simp [hxl, hxz, hxrr]
  obtain ⟨htree', hsized'⟩ := keepTree htree hsized fun a ha =>
    hothers₃ a fun heq => hout (heq ▸ ha)
  refine ⟨{ m with nodes := nodes₃, destroyed := m.destroyed ++ [n.data] }, ?_, htree', hsized',
    by simp, hdead, fun a ha => ?_, fun a ha => ?_⟩
  · rw [deleteRoot]
    simp only [hn, hleft, hright, hzn, hznull, hmodify, hsize, hfree, Option.bind_eq_bind,
      Option.bind_some]
  · simp only [addresses_node, addresses_nil, List.nil_append, List.mem_append, List.mem_cons,
      not_or] at ha
    rw [hothers₃ a ha.2.1, hothers₂ a ha.2.2.1, hothers₁ a ha.2.2.1]
  · rw [hothers₃ a ha, (hsame₁.trans (updateSize_same hsize).2).links]

/-- The left child of the right child is the minimum: it takes the place of the root. -/
theorem deleteRoot_grandchild (fuel : ℕ) {y z : ℕ × α} {zr rr : BinaryTree (ℕ × α)}
    {yn zn : HNode α} {left : ℕ} (hn : m.nodes.get x.1 = some n) (hleft : n.left = some left)
    (hright : n.right = some y.1) (hl : TreeAt m.nodes n.left l) (hsl : Sized m.nodes l)
    (hyn : m.nodes.get y.1 = some yn) (hydata : yn.data = y.2)
    (hysize : yn.size = ((BinaryTree.node y (.node z .nil zr) rr).numNodes : ℤ))
    (hyleft : yn.left = some z.1) (hzn : m.nodes.get z.1 = some zn) (hzdata : zn.data = z.2)
    (hznull : zn.left = none) (hzr : TreeAt m.nodes zn.right zr) (hszr : Sized m.nodes zr)
    (hrr : TreeAt m.nodes yn.right rr) (hsrr : Sized m.nodes rr)
    (hnodup : (addresses (.node x l (.node y (.node z .nil zr) rr))).Nodup) :
    ∃ m', deleteRoot (fuel + 2) m x.1 = some (m', some z.1) ∧
      RootRemoved m.nodes m'.nodes x l (.node y (.node z .nil zr) rr) (some z.1)
        (.node z l (.node y zr rr)) := by
  simp only [addresses_node, addresses_nil, List.nil_append, List.nodup_append,
    List.nodup_cons, List.mem_append, List.mem_cons] at hnodup
  obtain ⟨-, ⟨hx, ⟨hz, -⟩, ⟨hy, -⟩, hzy⟩, hl'⟩ := hnodup
  have hxy : x.1 ≠ y.1 := by grind
  have hxz : x.1 ≠ z.1 := by grind
  have hyz : y.1 ≠ z.1 := by grind
  have hout : ∀ t' : BinaryTree (ℕ × α), t' = l ∨ t' = zr ∨ t' = rr →
      x.1 ∉ addresses t' ∧ y.1 ∉ addresses t' ∧ z.1 ∉ addresses t' := by
    rintro t' (rfl | rfl | rfl) <;> grind
  -- the sizes on the way to the minimum
  obtain ⟨nodes₁, hmodify₁, hself₁, hothers₁, hsame₁⟩ :=
    exists_modify hyn (f := fun n => { n with size := n.size - 1 }) rfl
  -- the minimum and the root change places
  obtain ⟨nodes₂, hmodify₂, hself₂, hothers₂, hsame₂⟩ :=
    exists_modify ((hothers₁ _ hxy).trans hn)
      (f := fun n => { n with left := zn.left, right := zn.right }) rfl
  obtain ⟨nodes₃, hmodify₃, hself₃, hothers₃, hsame₃⟩ :=
    exists_modify ((hothers₂ _ hxz.symm).trans ((hothers₁ _ hyz.symm).trans hzn))
      (f := fun m => { m with left := n.left, right := n.right }) rfl
  have hkeep₃ : ∀ a, a ≠ x.1 → a ≠ y.1 → a ≠ z.1 → nodes₃.get a = m.nodes.get a := by
    intro a hax hay haz
    rw [hothers₃ a haz, hothers₂ a hax, hothers₁ a hay]
  have htrees : ∀ t' : BinaryTree (ℕ × α), t' = l ∨ t' = zr ∨ t' = rr → ∀ a ∈ addresses t',
      a ≠ x.1 ∧ a ≠ y.1 ∧ a ≠ z.1 := by
    intro t' ht' a ha
    obtain ⟨hx', hy', hz'⟩ := hout t' ht'
    exact ⟨fun heq => hx' (heq ▸ ha), fun heq => hy' (heq ▸ ha), fun heq => hz' (heq ▸ ha)⟩
  have hkeepTree : ∀ t' root', t' = l ∨ t' = zr ∨ t' = rr → TreeAt m.nodes root' t' →
      Sized m.nodes t' → TreeAt nodes₃ root' t' ∧ Sized nodes₃ t' := by
    intro t' root' ht' htree hsized
    apply keepTree htree hsized
    intro a ha
    obtain ⟨hax, hay, haz⟩ := htrees t' ht' a ha
    exact hkeep₃ a hax hay haz
  obtain ⟨hl₃, hsl₃⟩ := hkeepTree l n.left (by simp) hl hsl
  obtain ⟨hzr₃, hszr₃⟩ := hkeepTree zr zn.right (by simp) hzr hszr
  have hysize₃ : hTreeSize nodes₃ (some y.1) = some (yn.size - 1) := by
    simp [hTreeSize, hothers₃ _ hyz, hothers₂ _ hxy.symm, hself₁]
  obtain ⟨nodes₄, hsize₄, hself₄, hothers₄⟩ :=
    exists_updateSize_of_sizes hself₃ (hTreeSize_eq hl₃ hsl₃) (by rw [hright]; exact hysize₃)
  have hn₄ : nodes₄.get x.1 = some { n with left := zn.left, right := zn.right } := by
    rw [hothers₄ _ hxz, hothers₃ _ hxz, hself₂]
  obtain ⟨nodes₅, hsize₅, hself₅, hothers₅⟩ :=
    exists_updateSize_of_sizes hn₄ (i := 0) (by rw [hznull]; rfl)
      (get_of_hTreeSize (hTreeSize_eq hzr₃ hszr₃) fun a ha =>
        hothers₄ a (htrees zr (by simp) a (by rw [ha] at hzr; exact hzr.root_mem)).2.2)
  -- now the root has no left child
  obtain ⟨nodes₆, hfree⟩ := Heap.exists_free hself₅
  obtain ⟨-, -, hdead, hothers₆⟩ := Heap.free_eq_some hfree
  have hy₆ : nodes₆.get y.1 = some { yn with size := yn.size - 1 } := by
    rw [hothers₆ _ hxy.symm, hothers₅ _ hxy.symm, hothers₄ _ hyz, hothers₃ _ hyz,
      hothers₂ _ hxy.symm, hself₁]
  obtain ⟨nodes₇, hmodify₇, hself₇, hothers₇, hsame₇⟩ :=
    exists_modify hy₆ (f := fun n => { n with left := zn.right }) rfl
  have hkeep₇ : ∀ a, a ≠ x.1 → a ≠ y.1 → a ≠ z.1 → nodes₇.get a = m.nodes.get a := by
    intro a hax hay haz
    rw [hothers₇ a hay, hothers₆ a hax, hothers₅ a hax, hothers₄ a haz, hkeep₃ a hax hay haz]
  have hz₇ := (hothers₇ _ hyz.symm).trans ((hothers₆ _ hxz.symm).trans
    ((hothers₅ _ hxz.symm).trans hself₄))
  have hkeepTree₇ : ∀ t' root', t' = l ∨ t' = zr ∨ t' = rr → TreeAt m.nodes root' t' →
      Sized m.nodes t' → TreeAt nodes₇ root' t' ∧ Sized nodes₇ t' := by
    intro t' root' ht' htree hsized
    apply keepTree htree hsized
    intro a ha
    obtain ⟨hax, hay, haz⟩ := htrees t' ht' a ha
    exact hkeep₇ a hax hay haz
  obtain ⟨hl₇, hsl₇⟩ := hkeepTree₇ l n.left (by simp) hl hsl
  obtain ⟨hzr₇, hszr₇⟩ := hkeepTree₇ zr zn.right (by simp) hzr hszr
  obtain ⟨hrr₇, hsrr₇⟩ := hkeepTree₇ rr yn.right (by simp) hrr hsrr
  have hysize' : yn.size - 1 = ((BinaryTree.node y zr rr).numNodes : ℤ) := by
    rw [hysize]
    simp only [BinaryTree.numNodes]
    push_cast
    ring
  refine ⟨{ m with nodes := nodes₇, destroyed := m.destroyed ++ [n.data] ++ [n.data] }, ?_,
    ⟨rfl, _, hz₇, hzdata, hl₇, hright, _, hself₇, hydata, hzr₇, hrr₇⟩,
    ⟨⟨_, hz₇, ?_⟩, hsl₇, ⟨_, hself₇, hysize'⟩, hszr₇, hsrr₇⟩, by simp, ?_, fun a ha => ?_,
    fun a ha => ?_⟩
  · have hz₁ : nodes₁.get z.1 = some zn := (hothers₁ _ hyz.symm).trans hzn
    have hdeleteAgain : ∀ m' : HMemory α, m'.nodes = nodes₅ →
        deleteRoot (fuel + 1) m' x.1 =
          some ({ m' with nodes := nodes₆, destroyed := m'.destroyed ++ [n.data] }, zn.right) := by
      rintro m' rfl
      rw [deleteRoot]
      simp only [hself₅, hznull, hfree, Option.bind_eq_bind, Option.bind_some]
    simp only [hznull] at hmodify₂
    simp only [hleft, hright] at hmodify₃
    rw [deleteRoot]
    simp only [hn, hleft, hright, hyn, hyleft, decrementSize, hmodify₁, minimumLoop, hz₁, hznull,
      swapNodes, (hothers₁ _ hxy).trans hn, hmodify₂, hmodify₃, hsize₄, hsize₅, Option.bind_eq_bind,
      Option.bind_some, hdeleteAgain, hmodify₇]
  · simp only [BinaryTree.numNodes]
    push_cast [hysize]
    simp only [BinaryTree.numNodes]
    push_cast
    ring
  · rw [hothers₇ _ hxy, hdead]
  · simp only [addresses_node, addresses_nil, List.nil_append, List.mem_append, List.mem_cons,
      not_or] at ha
    exact hkeep₇ a ha.2.1 ha.2.2.2.1 ha.2.2.1.1
  · rw [hsame₇.links, hothers₆ a ha, (updateSize_same hsize₅).2.links,
      (updateSize_same hsize₄).2.links, hsame₃.links, hsame₂.links, hsame₁.links]

theorem deleteRoot_near {fuel : ℕ} (hn : m.nodes.get x.1 = some n)
    (hl : TreeAt m.nodes n.left l) (hr : TreeAt m.nodes n.right r) (hsl : Sized m.nodes l)
    (hsr : Sized m.nodes r) (hnodup : (addresses (.node x l r)).Nodup)
    (hnear : MinimumNear m.nodes n) (hfuel : 2 ≤ fuel) :
    ∃ m' root' t', deleteRoot fuel m x.1 = some (m', root') ∧
      RootRemoved m.nodes m'.nodes x l r root' t' := by
  obtain ⟨k, rfl⟩ : ∃ k, fuel = k + 2 := ⟨fuel - 2, by omega⟩
  have hparts := hnodup
  rw [addresses_node, List.nodup_append, List.nodup_cons] at hparts
  obtain ⟨-, ⟨hxr, hndr⟩, hdisjoint⟩ := hparts
  have hxl : x.1 ∉ addresses l := fun hmem => hdisjoint _ hmem _ (by simp) rfl
  cases hleft : n.left with
  | none =>
      obtain ⟨nodes', hfree⟩ := Heap.exists_free hn
      have hlnil : l = .nil := by
        rw [hleft] at hl
        exact hl.unique rfl
      refine ⟨{ m with nodes := nodes', destroyed := m.destroyed ++ [n.data] }, n.right, r, ?_,
        rootRemoved_free hfree hr hsr hxr (by simp [hlnil])⟩
      rw [deleteRoot]
      simp only [hn, hleft, hfree, Option.bind_eq_bind, Option.bind_some]
  | some left =>
      cases hright : n.right with
      | none =>
          obtain ⟨nodes', hfree⟩ := Heap.exists_free hn
          have hrnil : r = .nil := by
            rw [hright] at hr
            exact hr.unique rfl
          refine ⟨{ m with nodes := nodes', destroyed := m.destroyed ++ [n.data] }, n.left, l, ?_,
            rootRemoved_free hfree hl hsl hxl (by simp [hrnil])⟩
          rw [deleteRoot]
          simp only [hn, hleft, hright, hfree, Option.bind_eq_bind, Option.bind_some]
      | some right =>
          cases r with
          | nil =>
              rw [show n.right = none from hr] at hright
              contradiction
          | node z rl rr =>
              obtain ⟨hz, zn, hzn, hzdata, hrl, hrr⟩ := hr
              obtain ⟨⟨zn', hzn', hzsize⟩, hsrl, hsrr⟩ := hsr
              obtain rfl := Option.some.inj (hzn.symm.trans hzn')
              rw [addresses_node, List.nodup_append, List.nodup_cons] at hndr
              cases rl with
              | nil =>
                  simp only [addresses_node, addresses_nil, List.nil_append, List.mem_cons,
                    not_or] at hxr
                  obtain ⟨m', hdelete, hremoved⟩ := deleteRoot_child (k + 1) hn hleft hz
                    hl hsl hzn hzdata hrl hrr hsrr hxl hxr.1 hxr.2
                    (fun hmem => hdisjoint _ hmem _ (by simp) rfl) hndr.2.1.1
                  exact ⟨m', _, _, hdelete, hremoved⟩
              | node y rll rlr =>
                  obtain ⟨hy, yn, hyn, hydata, hrll, hrlr⟩ := hrl
                  -- only the near minimum is left
                  rcases hnear with hnone | hnone | ⟨r', rn, hr', hrn, hrnear⟩
                  · rw [hleft] at hnone
                    contradiction
                  · rw [hright] at hnone
                    contradiction
                  · obtain rfl := Option.some.inj (hz.symm.trans hr')
                    obtain rfl := Option.some.inj (hzn.symm.trans hrn)
                    rcases hrnear with hnone | ⟨l', ln, hl', hln, hnone⟩
                    · rw [hy] at hnone
                      contradiction
                    · obtain rfl := Option.some.inj (hy.symm.trans hl')
                      obtain rfl := Option.some.inj (hyn.symm.trans hln)
                      have hrllnil : rll = .nil := by
                        rw [hnone] at hrll
                        exact hrll.unique rfl
                      subst hrllnil
                      obtain ⟨m', hdelete, hremoved⟩ := deleteRoot_grandchild k hn hleft
                        hz hl hsl hzn hzdata hzsize hy hyn hydata hnone hrlr hsrl.2.2 hrr hsrr
                        hnodup
                      exact ⟨m', _, _, hdelete, hremoved⟩

end Root

/-! ## The cycle -/

def HNode.branches (n : HNode α) : HTree × HTree := (n.left, n.right)

/-- The same links of the search tree. -/
def SameBranches (nodes nodes' : Heap (HNode α)) : Prop :=
  ∀ a, (nodes'.get a).map HNode.branches = (nodes.get a).map HNode.branches

theorem branches_of_shape {nodes nodes' : Heap (HNode α)} {a : ℕ}
    (h : (nodes'.get a).map HNode.shape = (nodes.get a).map HNode.shape) :
    (nodes'.get a).map HNode.branches = (nodes.get a).map HNode.branches := by
  have hbranches := congrArg (Option.map fun x : α × HTree × HTree × ℤ => (x.2.1, x.2.2.1)) h
  rw [Option.map_map, Option.map_map] at hbranches
  exact hbranches

/-- One link of the search tree, from a node of `S`. -/
def TreeLink (nodes : Heap (HNode α)) (S : Set ℕ) (a b : ℕ) : Prop :=
  a ∈ S ∧ ∃ n, nodes.get a = some n ∧ (n.left = some b ∨ n.right = some b)

theorem TreeLink.congr {nodes nodes' : Heap (HNode α)} {S S' : Set ℕ} {a b : ℕ}
    (h : TreeLink nodes S a b) (ha : a ∈ S')
    (hsame : (nodes'.get a).map HNode.branches = (nodes.get a).map HNode.branches) :
    TreeLink nodes' S' a b := by
  obtain ⟨-, n, hn, hlink⟩ := h
  rw [hn, Option.map_some, Option.map_eq_some_iff] at hsame
  obtain ⟨n', hn', hbranches⟩ := hsame
  simp only [HNode.branches, Prod.mk.injEq] at hbranches
  exact ⟨ha, n', hn', by rw [hbranches.1, hbranches.2]; exact hlink⟩

/-- From `root` the links lead to a node that they lead back to. -/
def Cyclic (nodes : Heap (HNode α)) (S : Set ℕ) (root : HTree) : Prop :=
  ∃ a c, root = some a ∧ Relation.ReflTransGen (TreeLink nodes S) a c ∧
    Relation.TransGen (TreeLink nodes S) c c

theorem Cyclic.congr {nodes nodes' : Heap (HNode α)} {S S' : Set ℕ} {root : HTree}
    (h : Cyclic nodes S root) (hsub : S ⊆ S')
    (hsame : ∀ a ∈ S, (nodes'.get a).map HNode.branches = (nodes.get a).map HNode.branches) :
    Cyclic nodes' S' root := by
  have hlinks : ∀ a b, TreeLink nodes S a b → TreeLink nodes' S' a b := fun a b hlink =>
    hlink.congr (hsub hlink.1) (hsame a hlink.1)
  obtain ⟨a, c, hroot, hpath, hcycle⟩ := h
  exact ⟨a, c, hroot, hpath.lift id hlinks, hcycle.lift id hlinks⟩

/-- A path to `b` does not depend on the links of `b`. -/
theorem pathTo_congr {nodes nodes' : Heap (HNode α)} {S S' : Set ℕ} {a b : ℕ}
    (h : Relation.ReflTransGen (TreeLink nodes S) a b)
    (hsame : ∀ c ∈ S, c ≠ b → c ∈ S' ∧
      (nodes'.get c).map HNode.branches = (nodes.get c).map HNode.branches) :
    Relation.ReflTransGen (TreeLink nodes' S') a b := by
  induction h using Relation.ReflTransGen.head_induction_on with
  | refl => exact Relation.ReflTransGen.refl
  | @head a c hlink _ ih =>
      by_cases hab : a = b
      · rw [hab]
      · obtain ⟨ha, hbranches⟩ := hsame a hlink.1 hab
        exact Relation.ReflTransGen.head (hlink.congr ha hbranches) ih

/-- A new root above a cycle. -/
theorem Cyclic.cons {nodes : Heap (HNode α)} {S : Set ℕ} {sub : HTree} {x : ℕ}
    (h : Cyclic nodes S sub) (hlink : ∀ a, sub = some a → TreeLink nodes S x a) :
    Cyclic nodes S (some x) := by
  obtain ⟨a, c, hroot, hpath, hcycle⟩ := h
  exact ⟨x, c, rfl, Relation.ReflTransGen.head (hlink a hroot) hpath, hcycle⟩

section Trees

variable {nodes : Heap (HNode α)} {S : Set ℕ}

theorem TreeAt.link {a b : ℕ} {t : BinaryTree (ℕ × α)} (h : TreeAt nodes (some a) t)
    (hlink : TreeLink nodes S a b) :
    ∃ t', TreeAt nodes (some b) t' ∧ t'.numNodes < t.numNodes := by
  obtain ⟨-, n, hn, hlink⟩ := hlink
  cases t with
  | nil => exact absurd h (by simp [TreeAt])
  | node x l r =>
      obtain ⟨hroot, n', hn', -, hl, hr⟩ := h
      obtain rfl := Option.some.inj hroot
      obtain rfl := Option.some.inj (hn.symm.trans hn')
      rw [BinaryTree.numNodes]
      rcases hlink with hb | hb
      · rw [hb] at hl
        exact ⟨l, hl, by omega⟩
      · rw [hb] at hr
        exact ⟨r, hr, by omega⟩

theorem TreeAt.reachable {a b : ℕ} {t : BinaryTree (ℕ × α)} (h : TreeAt nodes (some a) t)
    (hpath : Relation.ReflTransGen (TreeLink nodes S) a b) :
    ∃ t', TreeAt nodes (some b) t' ∧ t'.numNodes ≤ t.numNodes := by
  induction hpath with
  | refl => exact ⟨t, h, le_rfl⟩
  | tail _ hlink ih =>
      obtain ⟨t', ht', hle⟩ := ih
      obtain ⟨t'', ht'', hlt⟩ := ht'.link hlink
      exact ⟨t'', ht'', by omega⟩

/-- No tree lies at a root from which a cycle is reached. -/
theorem Cyclic.not_treeAt {root : HTree} (h : Cyclic nodes S root) (t : BinaryTree (ℕ × α)) :
    ¬ TreeAt nodes root t := by
  intro htree
  obtain ⟨a, c, rfl, hpath, hcycle⟩ := h
  obtain ⟨tc, htc, -⟩ := htree.reachable hpath
  obtain ⟨b, hlink, hback⟩ := Relation.TransGen.head'_iff.mp hcycle
  obtain ⟨tb, htb, hlt⟩ := htc.link hlink
  obtain ⟨tc', htc', hle⟩ := htb.reachable hback
  rw [htc.unique htc'] at hlt
  omega

end Trees

/-! ## Roots that are removed badly -/

def leftOf (nodes : Heap (HNode α)) (a : ℕ) : HTree := (nodes.get a).bind HNode.left

theorem SameBranches.leftOf {nodes nodes' : Heap (HNode α)} (h : SameBranches nodes nodes') :
    leftOf nodes' = leftOf nodes := by
  funext a
  have hleft := congrArg (Option.map Prod.fst) (h a)
  simp only [Option.map_map, Function.comp_def, HNode.branches] at hleft
  unfold FatFuse.leftOf
  cases hn : nodes.get a <;> cases hn' : nodes'.get a <;> simp_all

theorem SameBranches.trans {nodes nodes' nodes'' : Heap (HNode α)}
    (h : SameBranches nodes nodes') (h' : SameBranches nodes' nodes'') :
    SameBranches nodes nodes'' := fun a => (h' a).trans (h a)

theorem SameBranches.modify {nodes nodes' : Heap (HNode α)} {a : ℕ} {f : HNode α → HNode α}
    (h : nodes.modify a f = some nodes') (hf : ∀ n, (f n).branches = n.branches) :
    SameBranches nodes nodes' := Heap.map_get_modify h hf

theorem SameBranches.updateSize {nodes nodes' : Heap (HNode α)} {a : ℕ}
    (h : updateSize nodes a = some nodes') : SameBranches nodes nodes' := by
  obtain ⟨n, i, j, hn, -, -, hwrite⟩ := updateSize_eq_some h
  exact Heap.map_get_write hn hwrite rfl

/-- The walk ends at a node without left child; after a step it has the same node as
minimum and as its parent. -/
theorem minimumLoop_eq_some {fuel : ℕ} {nodes nodes' : Heap (HNode α)}
    {minimum minimumParent min par : ℕ}
    (h : minimumLoop fuel nodes minimum minimumParent = some (nodes', min, par)) :
    SameBranches nodes nodes' ∧ (∃ n, nodes'.get min = some n ∧ n.left = none) ∧
      Relation.ReflTransGen (fun a b => leftOf nodes a = some b) minimum min ∧
      (leftOf nodes minimum = none → min = minimum ∧ par = minimumParent) ∧
      (leftOf nodes minimum ≠ none ∨ minimum = minimumParent → par = min) := by
  induction fuel generalizing nodes minimum minimumParent with
  | zero => simp [minimumLoop] at h
  | succ fuel ih =>
      simp only [minimumLoop, Option.bind_eq_bind, Option.bind_eq_some_iff] at h
      obtain ⟨n, hn, h⟩ := h
      have hleftOf : leftOf nodes minimum = n.left := by simp [leftOf, hn]
      cases hleft : n.left with
      | none =>
          simp only [hleft, Option.some.injEq, Prod.mk.injEq] at h
          obtain ⟨rfl, rfl, rfl⟩ := h
          refine ⟨fun _ => rfl, ⟨n, hn, hleft⟩, Relation.ReflTransGen.refl,
            fun _ => ⟨rfl, rfl⟩, ?_⟩
          rintro (hne | rfl)
          · rw [hleftOf, hleft] at hne
            contradiction
          · rfl
      | some next =>
          simp only [hleft, Option.bind_eq_some_iff] at h
          obtain ⟨nodes₁, hdecrement, hloop⟩ := h
          have hsame := SameBranches.modify hdecrement fun _ => rfl
          obtain ⟨hsame', hend, hpath, -, hpar⟩ := ih hloop
          rw [hsame.leftOf] at hpath
          refine ⟨hsame.trans hsame', hend, Relation.ReflTransGen.head ?_ hpath, fun hnone => ?_,
            fun _ => hpar (Or.inr rfl)⟩
          · rw [hleftOf, hleft]
          · rw [hleftOf, hleft] at hnone
            contradiction

/-- A walk to the left stays in the tree. -/
theorem TreeAt.leftPath {nodes : Heap (HNode α)} {a b : ℕ} {t : BinaryTree (ℕ × α)}
    (h : TreeAt nodes (some a) t)
    (hpath : Relation.ReflTransGen (fun a b => leftOf nodes a = some b) a b) :
    Relation.ReflTransGen (TreeLink nodes {c | c ∈ addresses t}) a b ∧ b ∈ addresses t := by
  suffices hsub : Relation.ReflTransGen (TreeLink nodes {c | c ∈ addresses t}) a b ∧
      ∃ t', TreeAt nodes (some b) t' ∧ ∀ c ∈ addresses t', c ∈ addresses t by
    obtain ⟨hlinks, t', ht', hmem⟩ := hsub
    exact ⟨hlinks, hmem b ht'.root_mem⟩
  induction hpath with
  | refl => exact ⟨Relation.ReflTransGen.refl, t, h, fun _ hc => hc⟩
  | tail _ hleft ih =>
      obtain ⟨hlinks, t', ht', hmem⟩ := ih
      obtain ⟨n, hn, hnleft⟩ := Option.bind_eq_some_iff.mp hleft
      refine ⟨hlinks.tail ⟨hmem _ ht'.root_mem, n, hn, Or.inl hnleft⟩, ?_⟩
      cases t' with
      | nil => exact absurd ht' (by simp [TreeAt])
      | node x l r =>
          obtain ⟨hroot, n', hn', -, hl, -⟩ := ht'
          obtain rfl := Option.some.inj hroot
          obtain rfl := Option.some.inj (hn.symm.trans hn')
          rw [hnleft] at hl
          exact ⟨l, hl, fun c hc => hmem c (by simp [hc])⟩

theorem swapNodes_eq_some {nodes nodes' : Heap (HNode α)} {a b : ℕ} (hab : a ≠ b)
    (h : swapNodes nodes a b = some nodes') :
    ∃ old new, nodes.get a = some old ∧ nodes.get b = some new ∧
      (nodes'.get a).map HNode.branches = some new.branches ∧
      (nodes'.get b).map HNode.branches = some old.branches ∧
      ∀ c, c ≠ a → c ≠ b →
        (nodes'.get c).map HNode.branches = (nodes.get c).map HNode.branches := by
  simp only [swapNodes, Option.bind_eq_bind, Option.bind_eq_some_iff] at h
  obtain ⟨old, hold, new, hnew, nodes₁, hmodify₁, nodes₂, hmodify₂, nodes₃, hsize₃, hsize₄⟩ := h
  obtain ⟨k₁, -, hwrite₁⟩ := Heap.modify_eq_some hmodify₁
  obtain ⟨-, -, hself₁, hothers₁⟩ := Heap.write_eq_some hwrite₁
  obtain ⟨k₂, -, hwrite₂⟩ := Heap.modify_eq_some hmodify₂
  obtain ⟨-, -, hself₂, hothers₂⟩ := Heap.write_eq_some hwrite₂
  have hsame := (SameBranches.updateSize hsize₃).trans (SameBranches.updateSize hsize₄)
  refine ⟨old, new, hold, hnew, ?_, ?_, fun c hca hcb => ?_⟩
  · rw [hsame, hothers₂ _ hab, hself₁]
    rfl
  · rw [hsame, hself₂]
    rfl
  · rw [hsame, hothers₂ _ hcb, hothers₁ _ hca]

/-- Behind a longer walk the minimum is linked to the right subtree, which still leads
to it. -/
theorem deleteRoot_far {m m' : HMemory α} {x : ℕ × α} {l r : BinaryTree (ℕ × α)} {n : HNode α}
    {fuel : ℕ} {root' : HTree} (hn : m.nodes.get x.1 = some n)
    (hr : TreeAt m.nodes n.right r) (hxr : x.1 ∉ addresses r)
    (hfar : ¬ MinimumNear m.nodes n)
    (h : deleteRoot fuel m x.1 = some (m', root')) :
    Cyclic m'.nodes {c | c ∈ addresses (.node x l r)} root' := by
  obtain ⟨left, hleft⟩ := Option.ne_none_iff_exists'.mp fun hnone => hfar (Or.inl hnone)
  obtain ⟨y, hy⟩ := Option.ne_none_iff_exists'.mp fun hnone => hfar (Or.inr (Or.inl hnone))
  cases fuel with
  | zero => simp [deleteRoot] at h
  | succ fuel =>
      rw [deleteRoot] at h
      simp only [hn, hleft, hy, Option.bind_eq_bind, Option.bind_some,
        Option.bind_eq_some_iff] at h
      obtain ⟨yn, hyn, h⟩ := h
      cases hz : yn.left with
      | none => exact absurd (Or.inr (Or.inr ⟨y, yn, hy, hyn, Or.inl hz⟩)) hfar
      | some z =>
          simp only [hz, Option.bind_eq_some_iff, Prod.exists, Option.some.injEq,
            Prod.mk.injEq] at h
          obtain ⟨nodes₁, hdecrement, nodes₂, min, par, hloop, nodes₃, hswap, m₄, left', hagain,
            nodes₅, hlink, rfl, rfl⟩ := h
          have hsame₁ := SameBranches.modify hdecrement fun _ => rfl
          obtain ⟨hsame₂, ⟨minNode, hmin, hminLeft⟩, hpath, -, hpar⟩ := minimumLoop_eq_some hloop
          rw [hsame₁.leftOf] at hpath hpar
          -- the walk takes a step, and it stays in the right subtree
          cases r with
          | nil =>
              rw [show n.right = none from hr] at hy
              contradiction
          | node w rl rr =>
              obtain ⟨hw, wn, hwn, -, hrl, -⟩ := hr
              obtain rfl := Option.some.inj (hw.symm.trans hy)
              obtain rfl := Option.some.inj (hwn.symm.trans hyn)
              rw [hz] at hrl
              obtain ⟨zn, hzn⟩ := hrl.live hrl.root_mem
              have hstep : leftOf m.nodes z ≠ none := by
                intro hnone
                rw [leftOf, hzn, Option.bind_some] at hnone
                exact hfar (Or.inr (Or.inr ⟨_, wn, hy, hyn, Or.inr ⟨z, zn, hz, hzn, hnone⟩⟩))
              obtain rfl := hpar (Or.inl hstep)
              obtain ⟨hlinks, hminmem⟩ := hrl.leftPath hpath
              have hxmin : x.1 ≠ par := by
                rintro heq
                exact hxr (by simp [heq, hminmem])
              obtain ⟨old, new, hold, hnew, hx₃, hmin₃, hothers₃⟩ := swapNodes_eq_some hxmin hswap
              obtain rfl := Option.some.inj (hmin.symm.trans hnew)
              have holdRight : old.right = some w.1 := by
                have hsame := (hsame₁.trans hsame₂) x.1
                rw [hold, hn, Option.map_some, Option.map_some, Option.some.injEq] at hsame
                rw [show old.right = n.right from congrArg Prod.snd hsame, hy]
              -- the root has no left child now, so it is only freed
              have hfreed : nodes₃.free x.1 = some m₄.nodes := by
                rw [Option.map_eq_some_iff] at hx₃
                obtain ⟨k, hk, hkbranches⟩ := hx₃
                have hkleft : k.left = none := (congrArg Prod.fst hkbranches).trans hminLeft
                cases fuel with
                | zero => simp [deleteRoot] at hagain
                | succ fuel =>
                    rw [deleteRoot] at hagain
                    simp only [hk, hkleft, Option.bind_eq_bind, Option.bind_some,
                      Option.bind_eq_some_iff, Option.some.injEq, Prod.mk.injEq] at hagain
                    obtain ⟨nodes₄, hfree, rfl, -⟩ := hagain
                    exact hfree
              obtain ⟨-, -, -, hothers₄⟩ := Heap.free_eq_some hfreed
              obtain ⟨k, hk, hwrite⟩ := Heap.modify_eq_some hlink
              obtain ⟨-, -, hself₅, hothers₅⟩ := Heap.write_eq_some hwrite
              have hkright : k.right = some w.1 := by
                rw [hothers₄ _ hxmin.symm] at hk
                rw [hk, Option.map_some, Option.some.injEq] at hmin₃
                exact (congrArg Prod.snd hmin₃).trans holdRight
              have hkeep : ∀ a, a ≠ x.1 → a ≠ par → (nodes₅.get a).map HNode.branches =
                  (m.nodes.get a).map HNode.branches := by
                intro a hax hap
                rw [hothers₅ a hap, hothers₄ a hax, hothers₃ a hax hap, hsame₂, hsame₁]
              have hmem : ∀ c ∈ addresses (.node w rl rr),
                  c ∈ addresses (.node x l (.node w rl rr)) := fun c hc => by
                rw [addresses_node x]
                exact List.mem_append_right _ (List.mem_cons_of_mem _ hc)
              have hwz : TreeLink m.nodes {c | c ∈ addresses (.node w rl rr)} w.1 z :=
                ⟨by simp, wn, hwn, Or.inl hz⟩
              have hsub : ∀ a b, TreeLink m.nodes {c | c ∈ addresses rl} a b →
                  TreeLink m.nodes {c | c ∈ addresses (.node w rl rr)} a b := fun a b hab =>
                hab.congr (by simp [show a ∈ addresses rl from hab.1]) rfl
              have hout : ∀ c ∈ addresses (.node w rl rr), c ≠ x.1 := fun c hc heq =>
                hxr (heq ▸ hc)
              -- from the right child the links still lead to the minimum
              have hback : Relation.ReflTransGen
                  (TreeLink nodes₅ {c | c ∈ addresses (.node x l (.node w rl rr))}) w.1 par :=
                pathTo_congr (Relation.ReflTransGen.head hwz (hlinks.lift id hsub))
                  fun a ha hap => ⟨hmem a ha, hkeep a (hout a ha) hap⟩
              refine ⟨par, par, rfl, Relation.ReflTransGen.refl, ?_⟩
              exact Relation.TransGen.head' ⟨by simp [hminmem], _, hself₅, Or.inr hkright⟩ hback

end SistOp.FatFuse
