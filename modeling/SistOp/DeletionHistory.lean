import SistOp.TreeDeletion
import Mathlib.Tactic

/-!
# Trees built by insertions and deletions

A deletion returns the tree without the key exactly when the node of the key has a
near minimum on its right and a parent in the hierarchy that is still live.  A run
whose deletions are of this kind keeps the search tree and the sibling lists.
-/

namespace SistOp.FatFuse

open SearchTree

variable {α κ : Type}

section Deletion

variable [LinearOrder κ] {key : α → κ} {k : κ} {dataCmpKey : α → κ → Option Ordering}

/-- What the node of the deleted key must satisfy. -/
def CleanNode (nodes : Heap (HNode α)) (a : ℕ) : Prop :=
  ∀ n, nodes.get a = some n →
    (∀ p, n.hParent = some p → ∃ pn, nodes.get p = some pn) ∧ MinimumNear nodes n

theorem MinimumNear.congr {nodes nodes' : Heap (HNode α)} {n n' : HNode α}
    (h : MinimumNear nodes n) (hsame : SameBranches nodes nodes')
    (hn : n'.branches = n.branches) : MinimumNear nodes' n' := by
  have hget : ∀ a x, nodes.get a = some x → ∃ x', nodes'.get a = some x' ∧ x'.left = x.left := by
    intro a x hx
    have hbranches := hsame a
    rw [hx, Option.map_some, Option.map_eq_some_iff] at hbranches
    obtain ⟨x', hx', heq⟩ := hbranches
    exact ⟨x', hx', congrArg Prod.fst heq⟩
  have hleft : n'.left = n.left := congrArg Prod.fst hn
  have hright : n'.right = n.right := congrArg Prod.snd hn
  unfold MinimumNear
  rw [hleft, hright]
  rcases h with h | h | ⟨r, rn, hr, hrn, hnear⟩
  · exact Or.inl h
  · exact Or.inr (Or.inl h)
  · obtain ⟨rn', hrn', hrnleft⟩ := hget r rn hrn
    refine Or.inr (Or.inr ⟨r, rn', hr, hrn', ?_⟩)
    rcases hnear with hnone | ⟨l, ln, hl, hln, hlnleft⟩
    · exact Or.inl (hrnleft.trans hnone)
    · obtain ⟨ln', hln', hlnleft'⟩ := hget l ln hln
      exact Or.inr ⟨l, ln', hrnleft.trans hl, hln', hlnleft'.trans hlnleft⟩

theorem ChildRemoved.shape {nodes nodes' : Heap (HNode α)} {c : ℕ}
    (h : ChildRemoved nodes nodes' c) (a : ℕ) :
    (nodes'.get a).map HNode.shape = (nodes.get a).map HNode.shape := by
  have hshape := congrArg
    (Option.map fun x : α × HTree × HTree × ℤ × HTree => (x.1, x.2.1, x.2.2.1, x.2.2.2.1))
    (h.body a)
  rw [Option.map_map, Option.map_map] at hshape
  exact hshape

theorem filter_elements {l r : List (ℕ × α)} (x : ℕ × α) (hl : ∀ y ∈ l, key y.2 ≠ k)
    (hr : ∀ y ∈ r, key y.2 ≠ k) (hx : key x.2 = k) :
    (l ++ x :: r).filter (fun y => key y.2 ≠ k) = l ++ r := by
  rw [List.filter_append, List.filter_cons_of_neg (by simp [hx]),
    List.filter_eq_self.mpr (by simpa using hl), List.filter_eq_self.mpr (by simpa using hr)]

/-- The found node is taken out of the list of its parent and then out of the tree. -/
theorem TreeAt.deleteFound {m : HMemory α} {x : ℕ × α} {l r : BinaryTree (ℕ × α)} {n : HNode α}
    (hn : m.nodes.get x.1 = some n) (hl : TreeAt m.nodes n.left l) (hr : TreeAt m.nodes n.right r)
    (hsl : Sized m.nodes l) (hsr : Sized m.nodes r) (hnodup : (addresses (.node x l r)).Nodup)
    (hlists : SiblingLists m.nodes none) (hclean : CleanNode m.nodes x.1)
    (hlk : ∀ y ∈ inorder l, key y.2 ≠ k) (hrk : ∀ y ∈ inorder r, key y.2 ≠ k)
    (hxk : key x.2 = k) :
    ∃ m' root' t', ((removeChildFromH m x.1).bind fun m =>
        deleteRoot (m.nodes.next + 1) m x.1) = some (m', root') ∧
      TreeUpdated m.nodes m'.nodes root' (.node x l r) t' ∧ SiblingLists m'.nodes none ∧
      inorder t' = (inorder (.node x l r)).filter fun x => key x.2 ≠ k := by
  obtain ⟨hparent, hnear⟩ := hclean n hn
  obtain ⟨nodes₁, hremove, hremoved⟩ := removeChildFromH_eq hlists hn hparent
  have hshape := hremoved.shape
  obtain ⟨n₁, hn₁, -, hleft₁, hright₁, -⟩ := get_of_shape (hshape x.1) hn
  have hl₁ : TreeAt nodes₁ n₁.left l := by
    rw [hleft₁]
    exact hl.congr fun a _ => hshape a
  have hr₁ : TreeAt nodes₁ n₁.right r := by
    rw [hright₁]
    exact hr.congr fun a _ => hshape a
  have hnear₁ : MinimumNear nodes₁ n₁ :=
    hnear.congr (fun a => branches_of_shape (hshape a))
      (by rw [HNode.branches, hleft₁, hright₁]; rfl)
  have hnext : 2 ≤ nodes₁.next + 1 := by
    have := Heap.lt_next hn₁
    omega
  obtain ⟨m', root', t', hdelete, hgone⟩ :=
    deleteRoot_near (m := { m with nodes := nodes₁ }) hn₁ hl₁ hr₁
      (hsl.congr fun a _ => hshape a) (hsr.congr fun a _ => hshape a) hnodup hnear₁ hnext
  refine ⟨m', root', t', ?_, ⟨hgone.tree, hgone.sized, fun a _ ha => ?_⟩,
    hremoved.lists.of_dead hgone.dead hgone.links, ?_⟩
  · simp only [hremove, Option.bind_some, hdelete]
  · rw [hgone.others a ha]
    exact hshape a
  · rw [hgone.elements, inorder_node, filter_elements x hlk hrk hxk]

theorem TreeAt.deleteLoop {fuel : ℕ} {m : HMemory α} {root : HTree} {t : BinaryTree (ℕ × α)}
    (h : TreeAt m.nodes root t) (hsized : Sized m.nodes t)
    (hord : Ordered (fun x => key x.2) t) (hlists : SiblingLists m.nodes none)
    (hcmp : ∀ x ∈ inorder t, dataCmpKey x.2 k = some (compare (key x.2) k))
    (hclean : ∀ x ∈ inorder t, key x.2 = k → CleanNode m.nodes x.1)
    (hfuel : t.numNodes < fuel) :
    ∃ m' root' t', hTreeDeleteLoop dataCmpKey k fuel m root = some (m', root') ∧
      TreeUpdated m.nodes m'.nodes root' t t' ∧ SiblingLists m'.nodes none ∧
      inorder t' = (inorder t).filter fun x => key x.2 ≠ k := by
  induction t generalizing root fuel with
  | nil =>
      obtain ⟨rest, rfl⟩ : ∃ rest, fuel = rest + 1 := ⟨fuel - 1, by omega⟩
      refine ⟨m, none, .nil, ?_, ⟨rfl, trivial, fun _ _ _ => rfl⟩, hlists, rfl⟩
      rw [show root = none from h]
      rfl
  | node x l r ihl ihr =>
      obtain ⟨rest, rfl⟩ : ∃ rest, fuel = rest + 1 := ⟨fuel - 1, by omega⟩
      have hnodup := h.nodup hord
      obtain ⟨hroot, n, hn, hdata, hl, hr⟩ := h
      obtain ⟨hsizeRoot, hsl, hsr⟩ := hsized
      obtain ⟨hordl, hordr, hlx, hxr⟩ := ordered_node_iff.mp hord
      have hparts := hnodup
      rw [addresses_node, List.nodup_append, List.nodup_cons] at hparts
      obtain ⟨-, ⟨hxrout, -⟩, hdisjoint⟩ := hparts
      have hxlout : x.1 ∉ addresses l := fun hmem => hdisjoint _ hmem _ (by simp) rfl
      rw [BinaryTree.numNodes] at hfuel
      rw [hroot]
      simp only [hTreeDeleteLoop, hn, hdata, hcmp x (by simp), Option.bind_eq_bind,
        Option.bind_some]
      cases hc : compare (key x.2) k with
      | eq =>
          have hxk := compare_eq_iff_eq.mp hc
          exact TreeAt.deleteFound hn hl hr hsl hsr hnodup hlists (hclean x (by simp) hxk)
            (fun y hy hyk => absurd (hlx y hy) (by simp [hyk, hxk]))
            (fun y hy hyk => absurd (hxr y hy) (by simp [hyk, hxk])) hxk
      | lt =>
          have hxk := compare_lt_iff_lt.mp hc
          obtain ⟨m₁, right, r', hrec, hsub, hlists₁, helements⟩ :=
            ihr hr hsr hordr (fun y hy => hcmp y (by simp [hy]))
              (fun y hy => hclean y (by simp [hy])) (show r.numNodes < rest by omega)
          have hsubset : ∀ a ∈ addresses r', a ∈ addresses r := by
            intro a ha
            rw [addresses, helements] at ha
            exact List.map_subset _ (List.filter_subset_self _) ha
          have hkeep : ∀ a ∈ addresses l,
              (m₁.nodes.get a).map HNode.shape = (m.nodes.get a).map HNode.shape := by
            intro a ha
            obtain ⟨y, hy⟩ := hl.live ha
            exact hsub.others a (ne_of_lt (Heap.lt_next hy)) fun hmem =>
              hdisjoint a ha a (by simp [hmem]) rfl
          obtain ⟨nodes₂, nodes₃, hlink, hsize, hupdated⟩ :=
            exists_relink (l := l) (r := r) (f := fun m => { m with right := right }) hn hdata
              hxrout hsub (fun _ => rfl)
              (fun m _ hm => by
                simp only [HNode.shape, Prod.mk.injEq] at hm
                rw [show m.left = n.left from hm.2.1]
                exact hl.congr hkeep)
              (fun _ _ _ => hsub.tree) (hsl.congr hkeep) hsub.sized hxlout
              (fun hmem => hxrout (hsubset _ hmem)) (fun a ha => by simp [ha])
          refine ⟨{ m₁ with nodes := nodes₃ }, some x.1, _, ?_, hupdated,
            hlists₁.congr ((SameHierarchy.modify hlink fun _ => rfl).trans
              (updateSize_same hsize).2), ?_⟩
          · simp only [hrec, hlink, hsize, Option.bind_some]
          · have hleft : (inorder l).filter (fun y => key y.2 ≠ k) = inorder l := by
              apply List.filter_eq_self.mpr
              intro y hy
              simpa using ((hlx y hy).trans hxk).ne
            rw [inorder_node, helements, inorder_node, List.filter_append,
              List.filter_cons_of_pos (by simpa using hxk.ne), hleft]
      | gt =>
          have hxk := compare_gt_iff_gt.mp hc
          obtain ⟨m₁, left, l', hrec, hsub, hlists₁, helements⟩ :=
            ihl hl hsl hordl (fun y hy => hcmp y (by simp [hy]))
              (fun y hy => hclean y (by simp [hy])) (show l.numNodes < rest by omega)
          have hsubset : ∀ a ∈ addresses l', a ∈ addresses l := by
            intro a ha
            rw [addresses, helements] at ha
            exact List.map_subset _ (List.filter_subset_self _) ha
          have hkeep : ∀ a ∈ addresses r,
              (m₁.nodes.get a).map HNode.shape = (m.nodes.get a).map HNode.shape := by
            intro a ha
            obtain ⟨y, hy⟩ := hr.live ha
            exact hsub.others a (ne_of_lt (Heap.lt_next hy)) fun hmem =>
              hdisjoint a hmem a (by simp [ha]) rfl
          obtain ⟨nodes₂, nodes₃, hlink, hsize, hupdated⟩ :=
            exists_relink (l := l) (r := r) (f := fun m => { m with left := left }) hn hdata
              hxlout hsub (fun _ => rfl) (fun _ _ _ => hsub.tree)
              (fun m _ hm => by
                simp only [HNode.shape, Prod.mk.injEq] at hm
                rw [show m.right = n.right from hm.2.2.1]
                exact hr.congr hkeep)
              hsub.sized (hsr.congr hkeep) (fun hmem => hxlout (hsubset _ hmem)) hxrout
              (fun a ha => by simp [ha])
          refine ⟨{ m₁ with nodes := nodes₃ }, some x.1, _, ?_, hupdated,
            hlists₁.congr ((SameHierarchy.modify hlink fun _ => rfl).trans
              (updateSize_same hsize).2), ?_⟩
          · simp only [hrec, hlink, hsize, Option.bind_some]
          · have hright : (inorder r).filter (fun y => key y.2 ≠ k) = inorder r := by
              apply List.filter_eq_self.mpr
              intro y hy
              simpa using (hxk.trans (hxr y hy)).ne'
            rw [inorder_node, helements, inorder_node, List.filter_append,
              List.filter_cons_of_pos (by simpa using hxk.ne'), hright]

/-- The links after a root was changed by `f` and its size was updated. -/
theorem branches_of_relink {nodes₁ nodes₂ nodes₃ : Heap (HNode α)} {a : ℕ}
    {f : HNode α → HNode α} (hlink : nodes₁.modify a f = some nodes₂)
    (hsize : updateSize nodes₂ a = some nodes₃) :
    ∃ n, (nodes₃.get a).map HNode.branches = some (f n).branches ∧ ∀ b, b ≠ a →
      (nodes₃.get b).map HNode.branches = (nodes₁.get b).map HNode.branches := by
  obtain ⟨n, -, hwrite⟩ := Heap.modify_eq_some hlink
  obtain ⟨-, -, hself, hothers⟩ := Heap.write_eq_some hwrite
  refine ⟨n, ?_, fun b hb => ?_⟩
  · rw [SameBranches.updateSize hsize a, hself, Option.map_some]
  · rw [SameBranches.updateSize hsize b, hothers b hb]

theorem treeLink_of_branches {nodes : Heap (HNode α)} {S : Set ℕ} {a b : ℕ} {n : HNode α}
    (ha : a ∈ S) (hbranches : (nodes.get a).map HNode.branches = some n.branches)
    (hlink : n.left = some b ∨ n.right = some b) : TreeLink nodes S a b := by
  rw [Option.map_eq_some_iff] at hbranches
  obtain ⟨n', hn', heq⟩ := hbranches
  simp only [HNode.branches, Prod.mk.injEq] at heq
  exact ⟨ha, n', hn', by rw [heq.1, heq.2]; exact hlink⟩

/-- Without a clean node the deletion faults or returns a root that leads to a cycle. -/
theorem TreeAt.deleteLoop_cyclic {fuel : ℕ} {m m' : HMemory α} {root root' : HTree}
    {t : BinaryTree (ℕ × α)} (h : TreeAt m.nodes root t)
    (hord : Ordered (fun x => key x.2) t) (hlists : SiblingLists m.nodes none)
    (hcmp : ∀ x ∈ inorder t, dataCmpKey x.2 k = some (compare (key x.2) k))
    {y : ℕ × α} (hy : y ∈ inorder t) (hyk : key y.2 = k) (hbad : ¬ CleanNode m.nodes y.1)
    (hdelete : hTreeDeleteLoop dataCmpKey k fuel m root = some (m', root')) :
    Cyclic m'.nodes {c | c ∈ addresses t} root' := by
  induction t generalizing root fuel m' root' with
  | nil => simp at hy
  | node x l r ihl ihr =>
      cases fuel with
      | zero => simp [hTreeDeleteLoop] at hdelete
      | succ fuel =>
          have hnodup := h.nodup hord
          obtain ⟨hroot, n, hn, hdata, hl, hr⟩ := h
          obtain ⟨hordl, hordr, -, -⟩ := ordered_node_iff.mp hord
          rw [addresses_node, List.nodup_append, List.nodup_cons] at hnodup
          obtain ⟨-, ⟨hxrout, -⟩, hdisjoint⟩ := hnodup
          have hxlout : x.1 ∉ addresses l := fun hmem => hdisjoint _ hmem _ (by simp) rfl
          rw [hroot] at hdelete
          simp only [hTreeDeleteLoop, hn, hdata, hcmp x (by simp), Option.bind_eq_bind,
            Option.bind_some] at hdelete
          cases hc : compare (key x.2) k with
          | eq =>
              have hxk := compare_eq_iff_eq.mp hc
              obtain rfl : y = x := hord.eq_of_key hy (by simp) (hyk.trans hxk.symm)
              simp only [hc, Option.bind_eq_some_iff] at hdelete
              obtain ⟨m₁, hremove, hdelete⟩ := hdelete
              by_cases hparent : ∀ p, n.hParent = some p → ∃ pn, m.nodes.get p = some pn
              · obtain ⟨nodes₁, hremove', hremoved⟩ := removeChildFromH_eq hlists hn hparent
                obtain rfl := Option.some.inj (hremove'.symm.trans hremove)
                have hshape := hremoved.shape
                obtain ⟨n₁, hn₁, -, hleft₁, hright₁, -⟩ := get_of_shape (hshape y.1) hn
                have hr₁ : TreeAt nodes₁ n₁.right r := by
                  rw [hright₁]
                  exact hr.congr fun a _ => hshape a
                refine deleteRoot_far (m := { m with nodes := nodes₁ }) hn₁ hr₁ hxrout ?_ hdelete
                intro hnear
                apply hbad
                intro n' hn'
                obtain rfl := Option.some.inj (hn.symm.trans hn')
                exact ⟨hparent, hnear.congr (fun a => (branches_of_shape (hshape a)).symm)
                  (by rw [HNode.branches, ← hleft₁, ← hright₁]; rfl)⟩
              · -- the parent was freed
                push Not at hparent
                obtain ⟨p, hp, hdead⟩ := hparent
                have hnone : m.nodes.get p = none := Option.eq_none_iff_forall_ne_some.mpr hdead
                simp [removeChildFromH, hn, hp, hnone] at hremove
          | lt =>
              have hxk := compare_lt_iff_lt.mp hc
              have hyr : y ∈ inorder r := hord.mem_right hy (hxk.trans_eq hyk.symm)
              simp only [hc, Option.bind_eq_some_iff, Prod.exists, Option.some.injEq,
                Prod.mk.injEq] at hdelete
              obtain ⟨m₁, right, hrec, nodes₂, hlink, nodes₃, hsize, rfl, rfl⟩ := hdelete
              have hcyclic := ihr hr hordr (fun z hz => hcmp z (by simp [hz])) hyr hrec
              obtain ⟨c, hself, hothers⟩ := branches_of_relink hlink hsize
              refine (hcyclic.congr (fun a ha => ?_) fun a ha =>
                hothers a fun heq => hxrout (heq ▸ ha)).cons fun a ha => ?_
              · exact mem_addresses_right ha
              · exact treeLink_of_branches (by simp) hself (Or.inr ha)
          | gt =>
              have hxk := compare_gt_iff_gt.mp hc
              have hyl : y ∈ inorder l := hord.mem_left hy (hyk.trans_lt hxk)
              simp only [hc, Option.bind_eq_some_iff, Prod.exists, Option.some.injEq,
                Prod.mk.injEq] at hdelete
              obtain ⟨m₁, left, hrec, nodes₂, hlink, nodes₃, hsize, rfl, rfl⟩ := hdelete
              have hcyclic := ihl hl hordl (fun z hz => hcmp z (by simp [hz])) hyl hrec
              obtain ⟨c, hself, hothers⟩ := branches_of_relink hlink hsize
              refine (hcyclic.congr (fun a ha => ?_) fun a ha =>
                hothers a fun heq => hxlout (heq ▸ ha)).cons fun a ha => ?_
              · exact mem_addresses_left ha
              · exact treeLink_of_branches (by simp) hself (Or.inl ha)

end Deletion

/-! ## Histories -/

section Histories

variable [LinearOrder κ]

/-- `TreeHistory key ok m root`: insertions and deletions of keys that `ok` allows, from
the empty tree, led to the tree at `root`. -/
inductive TreeHistory (key : α → κ) (ok : Heap (HNode α) → HTree → κ → Prop) :
    HMemory α → HTree → Prop
  | empty (errno : ℤ) (destroyed : List α) :
      TreeHistory key ok { nodes := Heap.empty, errno := errno, destroyed := destroyed } none
  | insert {m : HMemory α} {nodes : Heap (HNode α)} {root root' hParent : HTree} {x : α}
      (before : TreeHistory key ok m root) (parent : NullOrNode m.nodes root hParent)
      (step : hTreeInsert (cmpData key) m.nodes root x hParent = some (nodes, root')) :
      TreeHistory key ok { m with nodes := nodes } root'
  | delete {m m' : HMemory α} {root root' : HTree} {k : κ}
      (before : TreeHistory key ok m root) (allowed : ok m.nodes root k)
      (step : hTreeDelete (cmpKey key) m root k = some (m', root')) :
      TreeHistory key ok m' root'

/-- The key is absent, or its node has a near minimum and no dead parent. -/
def DeletesCleanly (key : α → κ) (nodes : Heap (HNode α)) (root : HTree) (k : κ) : Prop :=
  ∀ a, hTreeSearch (cmpKey key) nodes root k = some (some a) → CleanNode nodes a

/-- `h_tree_delete` returns the tree without `k`, with the right sizes, and a search
finds what it found before, but not `k`. -/
def DeletedProperly (key : α → κ) (m : HMemory α) (root : HTree) (k : κ) : Prop :=
  ∃ t m' root' t', TreeAt m.nodes root t ∧
    hTreeDelete (cmpKey key) m root k = some (m', root') ∧ TreeAt m'.nodes root' t' ∧
    Ordered (fun x => key x.2) t' ∧
    (inorder t').map (fun x => key x.2) =
      ((inorder t).map fun x => key x.2).filter (fun k' => k' ≠ k) ∧
    Sized m'.nodes t' ∧ hTreeSearch (cmpKey key) m'.nodes root' k = some none ∧
    ∀ k', k' ≠ k → hTreeSearch (cmpKey key) m'.nodes root' k' =
      hTreeSearch (cmpKey key) m.nodes root k'

variable {key : α → κ} {ok : Heap (HNode α) → HTree → κ → Prop}

/-- The invariant of such histories. -/
structure SearchTreeAt (key : α → κ) (nodes : Heap (HNode α)) (root : HTree)
    (t : BinaryTree (ℕ × α)) : Prop where
  tree : TreeAt nodes root t
  sized : Sized nodes t
  ordered : Ordered (fun x => key x.2) t
  lists : SiblingLists nodes none

theorem SearchTreeAt.lt_fuel {nodes : Heap (HNode α)} {root : HTree}
    {t : BinaryTree (ℕ × α)} (h : SearchTreeAt key nodes root t) :
    t.numNodes < nodes.next + 1 :=
  Nat.lt_succ_of_le (h.tree.numNodes_le (h.tree.nodup h.ordered))

theorem SearchTreeAt.search {nodes : Heap (HNode α)} {root : HTree} {t : BinaryTree (ℕ × α)}
    (h : SearchTreeAt key nodes root t) (k : κ) :
    hTreeSearch (cmpKey key) nodes root k =
      some ((find? (fun x => key x.2) k t).map Prod.fst) :=
  h.tree.searchLoop (fun _ _ => rfl) h.lt_fuel

theorem SearchTreeAt.insert {nodes : Heap (HNode α)} {root hParent : HTree}
    {t : BinaryTree (ℕ × α)} (h : SearchTreeAt key nodes root t) (x : α)
    (hparent : NullOrNode nodes root hParent) :
    ∃ nodes' root' t', hTreeInsert (cmpData key) nodes root x hParent = some (nodes', root') ∧
      SearchTreeAt key nodes' root' t' := by
  have hcmp : ∀ y ∈ inorder t, cmpData key x y.2 = some (compare (key x) (key y.2)) :=
    fun _ _ => rfl
  obtain ⟨nodes', root', hinsert, hinto⟩ :=
    h.tree.insertLoop h.sized (h.tree.nodup h.ordered) hcmp hparent.live h.lt_fuel
  refine ⟨nodes', root', _, hinsert, hinto.tree, hinto.sized, h.ordered.treeInsert _, ?_⟩
  rcases (hTreeInsert_eq_some hinsert).hierarchy with hsame | ⟨added, hadded, hsame⟩
  · exact h.lists.congr hsame
  · exact (h.lists.nodeAdded hadded).congr hsame

theorem SearchTreeAt.delete {m : HMemory α} {root : HTree} {t : BinaryTree (ℕ × α)}
    (h : SearchTreeAt key m.nodes root t) {k : κ}
    (hclean : DeletesCleanly key m.nodes root k) :
    ∃ m' root' t', hTreeDelete (cmpKey key) m root k = some (m', root') ∧
      SearchTreeAt key m'.nodes root' t' ∧
      inorder t' = (inorder t).filter fun x => key x.2 ≠ k := by
  have hnode : ∀ x ∈ inorder t, key x.2 = k → CleanNode m.nodes x.1 := by
    intro x hx hxk
    apply hclean
    rw [h.search, h.ordered.find?_eq_some_iff.mpr ⟨hx, hxk⟩, Option.map_some]
  have hcmp : ∀ x ∈ inorder t, cmpKey key x.2 k = some (compare (key x.2) k) :=
    fun _ _ => rfl
  obtain ⟨m', root', t', hdelete, hupdated, hlists, helements⟩ :=
    h.tree.deleteLoop h.sized h.ordered h.lists hcmp hnode h.lt_fuel
  refine ⟨m', root', t', hdelete, ⟨hupdated.tree, hupdated.sized, ?_, hlists⟩, helements⟩
  rw [Ordered, helements]
  exact h.ordered.filter _

theorem TreeHistory.searchTree {m : HMemory α} {root : HTree}
    (h : TreeHistory key (DeletesCleanly key) m root) :
    ∃ t, SearchTreeAt key m.nodes root t := by
  induction h with
  | empty errno destroyed =>
      exact ⟨.nil, rfl, trivial, List.Pairwise.nil, siblingLists_empty⟩
  | insert before parent step ih =>
      obtain ⟨t, ht⟩ := ih
      obtain ⟨nodes', root', t', hinsert, ht'⟩ := ht.insert _ parent
      obtain ⟨rfl, rfl⟩ := Prod.mk.inj (Option.some.inj (step.symm.trans hinsert))
      exact ⟨t', ht'⟩
  | delete before allowed step ih =>
      obtain ⟨t, ht⟩ := ih
      obtain ⟨m', root', t', hdelete, ht', -⟩ := ht.delete allowed
      obtain ⟨rfl, rfl⟩ := Prod.mk.inj (Option.some.inj (step.symm.trans hdelete))
      exact ⟨t', ht'⟩

theorem SearchTreeAt.deletedProperly {m : HMemory α} {root : HTree} {t : BinaryTree (ℕ × α)}
    (h : SearchTreeAt key m.nodes root t) {k : κ}
    (hclean : DeletesCleanly key m.nodes root k) : DeletedProperly key m root k := by
  obtain ⟨m', root', t', hdelete, ht', helements⟩ := h.delete hclean
  have hfind : ∀ k', k' ≠ k → find? (fun x => key x.2) k' t' = find? (fun x => key x.2) k' t := by
    intro k' hk'
    apply Option.ext
    intro x
    rw [ht'.ordered.find?_eq_some_iff, h.ordered.find?_eq_some_iff, helements,
      List.mem_filter, decide_eq_true_iff]
    constructor
    · rintro ⟨⟨hx, -⟩, hxk⟩
      exact ⟨hx, hxk⟩
    · rintro ⟨hx, hxk⟩
      exact ⟨⟨hx, by rw [hxk]; exact hk'⟩, hxk⟩
  refine ⟨t, m', root', t', h.tree, hdelete, ht'.tree, ht'.ordered, ?_, ht'.sized, ?_,
    fun k' hk' => ?_⟩
  · rw [helements, List.filter_map]
    rfl
  · rw [ht'.search, Option.some.injEq, Option.map_eq_none_iff, ht'.ordered.find?_eq_none_iff,
      helements]
    intro x hx
    simpa using (List.mem_filter.mp hx).2
  · rw [ht'.search, h.search, hfind k' hk']

/-- With a node that is not clean, the deletion does not return a tree. -/
theorem SearchTreeAt.not_deletedProperly {m : HMemory α} {root : HTree}
    {t : BinaryTree (ℕ × α)} (h : SearchTreeAt key m.nodes root t) {k : κ} {a : ℕ}
    (hfound : hTreeSearch (cmpKey key) m.nodes root k = some (some a))
    (hbad : ¬ CleanNode m.nodes a) : ¬ DeletedProperly key m root k := by
  rintro ⟨-, m', root', t', -, hdelete, htree, -⟩
  rw [h.search, Option.some.injEq, Option.map_eq_some_iff] at hfound
  obtain ⟨x, hx, rfl⟩ := hfound
  obtain ⟨hmem, hxk⟩ := h.ordered.find?_eq_some_iff.mp hx
  exact (h.tree.deleteLoop_cyclic h.ordered h.lists (fun _ _ => rfl) hmem hxk hbad
    hdelete).not_treeAt t' htree

/-- In every history of clean deletions, a further deletion leaves the right tree exactly when
it is clean.  This is about the tree only: where the right child of the node has a left child,
the datum of the node goes to `data_destroy` twice. -/
theorem deletion_proper_iff {m : HMemory α} {root : HTree}
    (h : TreeHistory key (DeletesCleanly key) m root) (k : κ) :
    DeletedProperly key m root k ↔ DeletesCleanly key m.nodes root k := by
  obtain ⟨t, ht⟩ := h.searchTree
  constructor
  · intro hproper a hfound
    by_contra hbad
    exact ht.not_deletedProperly hfound hbad hproper
  · exact ht.deletedProperly

end Histories

/-- Inserting numbers, each as its own key, without parents. -/
def insertAll (xs : List ℕ) : Option (Heap (HNode ℕ) × HTree) :=
  xs.foldlM (fun s x => hTreeInsert (cmpData id) s.1 s.2 x none) (Heap.empty, none)

theorem treeHistory_insertAll {ok : Heap (HNode ℕ) → HTree → ℕ → Prop} {xs : List ℕ}
    {nodes : Heap (HNode ℕ)} {root : HTree} (h : insertAll xs = some (nodes, root)) :
    TreeHistory id ok { nodes := nodes, errno := 0, destroyed := [] } root := by
  have hfold : ∀ (xs : List ℕ) (s : Heap (HNode ℕ) × HTree),
      TreeHistory id ok { nodes := s.1, errno := 0, destroyed := [] } s.2 →
        xs.foldlM (fun s x => hTreeInsert (cmpData id) s.1 s.2 x none) s = some (nodes, root) →
          TreeHistory id ok { nodes := nodes, errno := 0, destroyed := [] } root := by
    intro xs
    induction xs with
    | nil =>
        intro s hs hend
        obtain rfl := Option.some.inj hend
        exact hs
    | cons x xs ih =>
        intro s hs hrest
        simp only [List.foldlM_cons, Option.bind_eq_bind, Option.bind_eq_some_iff] at hrest
        obtain ⟨s', hinsert, hrest⟩ := hrest
        have hnull : NullOrNode s.1 s.2 none := fun p hp => by contradiction
        exact ih s' (hs.insert hnull hinsert) hrest
  exact hfold xs _ (TreeHistory.empty 0 []) h

/-- The root of 2, 1, 3 is deleted well. -/
theorem deletion_proper_iff_three :
    ∃ (m : HMemory ℕ) (root : HTree), TreeHistory id (DeletesCleanly id) m root ∧
      DeletedProperly id m root 2 := by
  obtain ⟨⟨nodes, root⟩, hstate⟩ : ∃ s, insertAll [2, 1, 3] = some s :=
    Option.isSome_iff_exists.mp (by decide)
  have hfound : (insertAll [2, 1, 3]).bind (fun s =>
      hTreeSearch (cmpKey id) s.1 s.2 2) = some (some 0) := by decide
  have hroot : (insertAll [2, 1, 3]).bind (fun s =>
      (s.1.get 0).map fun n => (n.right, n.hParent)) = some (some 2, none) := by decide
  have hchild : (insertAll [2, 1, 3]).bind (fun s =>
      (s.1.get 2).map HNode.left) = some none := by decide
  rw [hstate, Option.bind_some] at hfound hroot hchild
  rw [Option.map_eq_some_iff] at hroot hchild
  obtain ⟨n, hn, hlinks⟩ := hroot
  obtain ⟨rn, hrn, hnone⟩ := hchild
  obtain ⟨hright, hparent⟩ := Prod.mk.inj hlinks
  have hhistory : TreeHistory id (DeletesCleanly id) _ root := treeHistory_insertAll hstate
  refine ⟨_, root, hhistory, (deletion_proper_iff hhistory 2).mpr fun a ha n' hn' => ?_⟩
  obtain rfl := Option.some.inj (Option.some.inj (hfound.symm.trans ha))
  obtain rfl := Option.some.inj (hn.symm.trans hn')
  refine ⟨fun p hp => ?_, Or.inr (Or.inr ⟨2, rn, hright, hrn, Or.inl hnone⟩)⟩
  rw [hparent] at hp
  contradiction

/-- Deleting 4 after 4, 2, 8, 6, 5: the minimum 5 lies two steps below the right child. -/
theorem deletion_builds_cycle :
    ∃ (m : HMemory ℕ) (root : HTree), TreeHistory id (fun _ _ _ => True) m root ∧
      ¬ DeletedProperly id m root 4 := by
  obtain ⟨⟨nodes, root⟩, hstate⟩ : ∃ s, insertAll [4, 2, 8, 6, 5] = some s :=
    Option.isSome_iff_exists.mp (by decide)
  have hfound : (insertAll [4, 2, 8, 6, 5]).bind (fun s =>
      hTreeSearch (cmpKey id) s.1 s.2 4) = some (some 0) := by decide
  have hlinks : ∀ a : Fin 4, (insertAll [4, 2, 8, 6, 5]).bind (fun s =>
      (s.1.get a).map HNode.branches) =
        some (![(some 1, some 2), (none, none), (some 3, none), (some 4, none)] a) := by decide
  rw [hstate, Option.bind_some] at hfound
  simp only [hstate, Option.bind_some, Option.map_eq_some_iff] at hlinks
  have hhistory : TreeHistory id (DeletesCleanly id) _ root := treeHistory_insertAll hstate
  obtain ⟨t, ht⟩ := hhistory.searchTree
  refine ⟨_, root, treeHistory_insertAll hstate, ht.not_deletedProperly hfound fun hclean => ?_⟩
  obtain ⟨n, hn, hbranches⟩ := hlinks 0
  obtain ⟨n₂, hn₂, hbranches₂⟩ := hlinks 2
  obtain ⟨n₃, hn₃, hbranches₃⟩ := hlinks 3
  obtain ⟨hleft, hright⟩ := Prod.mk.inj hbranches
  have hleft₂ : n₂.left = some 3 := congrArg Prod.fst hbranches₂
  have hleft₃ : n₃.left = some 4 := congrArg Prod.fst hbranches₃
  rcases (hclean n hn).2 with hnone | hnone | ⟨r, rn, hr, hrn, hnear⟩
  · rw [hleft] at hnone
    contradiction
  · rw [hright] at hnone
    contradiction
  · obtain rfl := Option.some.inj (hr.symm.trans hright)
    obtain rfl := Option.some.inj (hrn.symm.trans hn₂)
    rcases hnear with hnone | ⟨l, ln, hl, hln, hnone⟩
    · rw [hleft₂] at hnone
      contradiction
    · obtain rfl := Option.some.inj (hl.symm.trans hleft₂)
      obtain rfl := Option.some.inj (hln.symm.trans hn₃)
      rw [hleft₃] at hnone
      contradiction

end SistOp.FatFuse
