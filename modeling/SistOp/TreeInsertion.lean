import SistOp.FatFsTree
import Mathlib.Tactic

/-!
# What an insertion leaves alone

`h_tree_insert` adds at most one node, below a null link, so every search that
found a node still finds it.  In the hierarchy an insertion is `h_node_init` or,
for a key that is there, nothing.
-/

namespace SistOp.FatFuse

variable {α κ : Type}

/-- The part of a node that the search tree does not change. -/
def HNode.links (n : HNode α) : α × HTree × HTree × HTree :=
  (n.data, n.hParent, n.hNextSibling, n.hChildren)

structure SameHierarchy (nodes nodes' : Heap (HNode α)) : Prop where
  next : nodes'.next = nodes.next
  links : ∀ a, (nodes'.get a).map HNode.links = (nodes.get a).map HNode.links

theorem SameHierarchy.refl (nodes : Heap (HNode α)) : SameHierarchy nodes nodes :=
  ⟨rfl, fun _ => rfl⟩

theorem SameHierarchy.trans {nodes nodes' nodes'' : Heap (HNode α)}
    (h : SameHierarchy nodes nodes') (h' : SameHierarchy nodes' nodes'') :
    SameHierarchy nodes nodes'' :=
  ⟨h'.next.trans h.next, fun a => (h'.links a).trans (h.links a)⟩

theorem SameHierarchy.write {nodes nodes' : Heap (HNode α)} {a : ℕ} {n n' : HNode α}
    (hget : nodes.get a = some n) (hwrite : nodes.write a n' = some nodes')
    (hlinks : n'.links = n.links) : SameHierarchy nodes nodes' := by
  obtain ⟨-, hnext, hself, hothers⟩ := Heap.write_eq_some hwrite
  refine ⟨hnext, fun b => ?_⟩
  by_cases hb : b = a
  · subst hb
    rw [hself, hget, Option.map_some, Option.map_some, hlinks]
  · rw [hothers b hb]

theorem SameHierarchy.modify {nodes nodes' : Heap (HNode α)} {a : ℕ} {f : HNode α → HNode α}
    (h : nodes.modify a f = some nodes') (hf : ∀ n, (f n).links = n.links) :
    SameHierarchy nodes nodes' := by
  obtain ⟨n, hn, hwrite⟩ := Heap.modify_eq_some h
  exact SameHierarchy.write hn hwrite (hf n)

theorem SameHierarchy.get {nodes nodes' : Heap (HNode α)} (h : SameHierarchy nodes nodes')
    {a : ℕ} {n : HNode α} (hget : nodes.get a = some n) :
    ∃ n', nodes'.get a = some n' ∧ n'.links = n.links := by
  have hlinks := h.links a
  rwa [hget, Option.map_some, Option.map_eq_some_iff] at hlinks

/-- `n'` is `n` with links of the search tree added where there were none. -/
structure HNode.Grown (n n' : HNode α) : Prop where
  data : n'.data = n.data
  hParent : n'.hParent = n.hParent
  hNextSibling : n'.hNextSibling = n.hNextSibling
  left : ∀ x, n.left = some x → n'.left = some x
  right : ∀ x, n.right = some x → n'.right = some x

theorem HNode.Grown.refl (n : HNode α) : n.Grown n :=
  ⟨rfl, rfl, rfl, fun _ h => h, fun _ h => h⟩

theorem HNode.Grown.trans {n n' n'' : HNode α} (h : n.Grown n') (h' : n'.Grown n'') :
    n.Grown n'' :=
  ⟨h'.data.trans h.data, h'.hParent.trans h.hParent, h'.hNextSibling.trans h.hNextSibling,
    fun x hx => h'.left x (h.left x hx), fun x hx => h'.right x (h.right x hx)⟩

/-- No node counts as an empty tree. -/
def SizesPositive (nodes : Heap (HNode α)) : Prop :=
  ∀ a n, nodes.get a = some n → 0 < n.size

theorem SizesPositive.hTreeSize_nonneg {nodes : Heap (HNode α)} (h : SizesPositive nodes)
    {root : HTree} {size : ℤ} (hsize : hTreeSize nodes root = some size) : 0 ≤ size := by
  cases root with
  | none =>
      obtain rfl := Option.some.inj hsize
      exact le_rfl
  | some a =>
      simp only [hTreeSize, Option.bind_eq_bind, Option.bind_eq_some_iff,
        Option.some.injEq] at hsize
      obtain ⟨n, hn, rfl⟩ := hsize
      exact (h a n hn).le

/-- Every node is still there, with its links. -/
structure TreeGrown (nodes nodes' : Heap (HNode α)) : Prop where
  next_le : nodes.next ≤ nodes'.next
  node : ∀ a n, nodes.get a = some n → ∃ n', nodes'.get a = some n' ∧ n.Grown n'
  sizes : SizesPositive nodes → SizesPositive nodes'

theorem TreeGrown.refl (nodes : Heap (HNode α)) : TreeGrown nodes nodes :=
  ⟨le_rfl, fun _ n h => ⟨n, h, HNode.Grown.refl n⟩, id⟩

theorem TreeGrown.trans {nodes nodes' nodes'' : Heap (HNode α)}
    (h : TreeGrown nodes nodes') (h' : TreeGrown nodes' nodes'') :
    TreeGrown nodes nodes'' := by
  refine ⟨h.next_le.trans h'.next_le, fun a n hget => ?_, fun hsizes => h'.sizes (h.sizes hsizes)⟩
  obtain ⟨n', hget', hgrown⟩ := h.node a n hget
  obtain ⟨n'', hget'', hgrown'⟩ := h'.node a n' hget'
  exact ⟨n'', hget'', hgrown.trans hgrown'⟩

theorem TreeGrown.write {nodes nodes' : Heap (HNode α)} {a : ℕ} {n n' : HNode α}
    (hget : nodes.get a = some n) (hwrite : nodes.write a n' = some nodes')
    (hgrown : n.Grown n') (hsize : SizesPositive nodes → 0 < n'.size) :
    TreeGrown nodes nodes' := by
  obtain ⟨-, hnext, hself, hothers⟩ := Heap.write_eq_some hwrite
  refine ⟨hnext.ge, fun b m hb => ?_, fun hsizes b m hb => ?_⟩
  · by_cases heq : b = a
    · subst heq
      obtain rfl := Option.some.inj (hget.symm.trans hb)
      exact ⟨n', hself, hgrown⟩
    · exact ⟨m, (hothers b heq).trans hb, HNode.Grown.refl m⟩
  · by_cases heq : b = a
    · subst heq
      obtain rfl := Option.some.inj (hself.symm.trans hb)
      exact hsize hsizes
    · exact hsizes b m ((hothers b heq).symm.trans hb)

/-! ## Creating a node -/

/-- What `h_node_init` does: a new node at the head of its parent's children. -/
structure NodeAdded (nodes nodes' : Heap (HNode α)) (newData : α) (hParent : HTree) :
    Prop where
  next : nodes'.next = nodes.next + 1
  parentLive : ∀ p, hParent = some p → ∃ m, nodes.get p = some m
  new : ∃ n, nodes'.get nodes.next = some n ∧ n.left = none ∧ n.right = none ∧
    n.size = 1 ∧ n.data = newData ∧ n.hParent = hParent ∧ n.hChildren = none ∧
    n.hNextSibling = hParent.bind fun p => (nodes.get p).bind HNode.hChildren
  parent : ∀ p m, hParent = some p → nodes.get p = some m →
    nodes'.get p = some { m with hChildren := some nodes.next }
  others : ∀ a, a ≠ nodes.next → hParent ≠ some a → nodes'.get a = nodes.get a

theorem hNodeInit_eq_some {nodes nodes' : Heap (HNode α)} {newData : α} {hParent : HTree}
    {new : ℕ} (h : hNodeInit nodes newData hParent = some (nodes', new)) :
    new = nodes.next ∧ NodeAdded nodes nodes' newData hParent := by
  cases hParent with
  | none =>
      simp only [hNodeInit, Option.some.injEq, Prod.mk.injEq] at h
      obtain ⟨rfl, rfl⟩ := h
      refine ⟨rfl, rfl, by simp, ⟨_, Heap.get_alloc_self _ _, rfl, rfl, rfl, rfl, rfl, rfl,
        rfl⟩, by simp, ?_⟩
      intro a ha _
      exact Heap.get_alloc_of_ne _ _ ha
  | some p =>
      simp only [hNodeInit, Option.bind_eq_bind, Option.bind_eq_some_iff,
        Option.some.injEq, Prod.mk.injEq] at h
      obtain ⟨m, hm, linked, hlink, rfl, rfl⟩ := h
      obtain ⟨m', hm', hwrite⟩ := Heap.modify_eq_some hlink
      obtain ⟨-, hnext, hself, hothers⟩ := Heap.write_eq_some hwrite
      have hne : p ≠ nodes.next := ne_of_lt (Heap.lt_next hm)
      rw [Heap.get_alloc_of_ne _ _ hne, hm] at hm'
      obtain rfl := Option.some.inj hm'
      refine ⟨rfl, hnext, fun q hq => ⟨m, by obtain rfl := Option.some.inj hq; exact hm⟩,
        ⟨_, (hothers _ hne.symm).trans (Heap.get_alloc_self _ _), rfl, rfl, rfl, rfl, rfl,
          rfl, by simp [hm]⟩, ?_, ?_⟩
      · intro q m' hq hm'
        obtain rfl := Option.some.inj hq
        obtain rfl := Option.some.inj (hm.symm.trans hm')
        exact hself
      · intro a ha hpa
        have hap : a ≠ p := fun heq => hpa (by rw [heq])
        rw [hothers a hap, Heap.get_alloc_of_ne _ _ ha]

theorem exists_hNodeInit {nodes : Heap (HNode α)} (newData : α) {hParent : HTree}
    (hlive : ∀ p, hParent = some p → ∃ m, nodes.get p = some m) :
    ∃ nodes', hNodeInit nodes newData hParent = some (nodes', nodes.next) := by
  cases hParent with
  | none => exact ⟨_, rfl⟩
  | some p =>
      obtain ⟨m, hm⟩ := hlive p rfl
      let new : HNode α :=
        { data := newData, right := none, left := none, hParent := some p
          hNextSibling := m.hChildren, hChildren := none, size := 1 }
      have hm' : (nodes.alloc new).get p = some m := Heap.get_alloc_of_live new hm
      obtain ⟨nodes', hwrite⟩ :=
        Heap.exists_write hm' { m with hChildren := some nodes.next }
      refine ⟨nodes', ?_⟩
      simp only [hNodeInit, hm, Heap.modify, hm', new, hwrite, Option.bind_eq_bind,
        Option.bind_some]

theorem NodeAdded.grown {nodes nodes' : Heap (HNode α)} {newData : α} {hParent : HTree}
    (h : NodeAdded nodes nodes' newData hParent) : TreeGrown nodes nodes' := by
  refine ⟨by rw [h.next]; omega, fun a n hget => ?_, fun hsizes a n hget => ?_⟩
  · by_cases hpa : hParent = some a
    · exact ⟨_, h.parent a n hpa hget, ⟨rfl, rfl, rfl, fun _ hx => hx, fun _ hx => hx⟩⟩
    · exact ⟨n, (h.others a (ne_of_lt (Heap.lt_next hget)) hpa).trans hget, HNode.Grown.refl n⟩
  · by_cases hpa : hParent = some a
    · obtain ⟨m, hm⟩ := h.parentLive a hpa
      obtain rfl := Option.some.inj ((h.parent a m hpa hm).symm.trans hget)
      exact hsizes a m hm
    · by_cases hnew : a = nodes.next
      · subst hnew
        obtain ⟨m, hm, -, -, hsize, -⟩ := h.new
        obtain rfl := Option.some.inj (hm.symm.trans hget)
        omega
      · exact hsizes a n ((h.others a hnew hpa).symm.trans hget)

/-! ## Insertion -/

theorem updateSize_eq_some {nodes nodes' : Heap (HNode α)} {root : ℕ}
    (h : updateSize nodes root = some nodes') :
    ∃ n leftSize rightSize, nodes.get root = some n ∧
      hTreeSize nodes n.left = some leftSize ∧ hTreeSize nodes n.right = some rightSize ∧
      nodes.write root { n with size := 1 + leftSize + rightSize } = some nodes' := by
  simp only [updateSize, Option.bind_eq_bind, Option.bind_eq_some_iff] at h
  obtain ⟨n, hn, l, hl, r, hr, h⟩ := h
  exact ⟨n, l, r, hn, hl, hr, h⟩

/-- The hierarchy after an insertion: as before, or with one node more. -/
def InsertedOnce (nodes nodes' : Heap (HNode α)) (newData : α) (hParent : HTree) : Prop :=
  SameHierarchy nodes nodes' ∨
    ∃ added, NodeAdded nodes added newData hParent ∧ SameHierarchy added nodes'

theorem InsertedOnce.trans_same {nodes nodes' nodes'' : Heap (HNode α)} {newData : α}
    {hParent : HTree} (h : InsertedOnce nodes nodes' newData hParent)
    (hsame : SameHierarchy nodes' nodes'') : InsertedOnce nodes nodes'' newData hParent := by
  rcases h with hnone | ⟨added, hadded, hrest⟩
  · exact Or.inl (hnone.trans hsame)
  · exact Or.inr ⟨added, hadded, hrest.trans hsame⟩

theorem updateSize_same {nodes nodes' : Heap (HNode α)} {root : ℕ}
    (h : updateSize nodes root = some nodes') :
    TreeGrown nodes nodes' ∧ SameHierarchy nodes nodes' := by
  obtain ⟨n, l, r, hn, hl, hr, hwrite⟩ := updateSize_eq_some h
  refine ⟨TreeGrown.write hn hwrite ⟨rfl, rfl, rfl, fun _ hx => hx, fun _ hx => hx⟩ ?_,
    SameHierarchy.write hn hwrite rfl⟩
  intro hsizes
  have hleft := hsizes.hTreeSize_nonneg hl
  have hright := hsizes.hTreeSize_nonneg hr
  show 0 < 1 + l + r
  omega

/-- What `h_tree_insert` does to the heap, at any root. -/
structure HeapInserted (nodes nodes' : Heap (HNode α)) (root root' : HTree)
    (newData : α) (hParent : HTree) : Prop where
  keepsRoot : ∀ a, root = some a → root' = some a
  grown : TreeGrown nodes nodes'
  hierarchy : InsertedOnce nodes nodes' newData hParent
  atNull : root = none → root' = some nodes.next ∧ NodeAdded nodes nodes' newData hParent

/-- Storing the root of a subtree that an insertion returned. -/
theorem HeapInserted.link {nodes nodes₁ nodes₂ nodes' : Heap (HNode α)} {a : ℕ}
    {n : HNode α} {sub sub' hParent : HTree} {newData : α} {f : HNode α → HNode α}
    (hn : nodes.get a = some n) (hrec : HeapInserted nodes nodes₁ sub sub' newData hParent)
    (hlink : nodes₁.modify a f = some nodes₂) (hsize : updateSize nodes₂ a = some nodes')
    (hlinks : ∀ m, (f m).links = m.links) (hkept : ∀ m, (f m).size = m.size)
    (hf : ∀ m, n.Grown m → (sub = none → m.left = n.left ∧ m.right = n.right) →
      m.Grown (f m)) :
    TreeGrown nodes nodes' ∧ InsertedOnce nodes nodes' newData hParent := by
  obtain ⟨m, hm, hwrite⟩ := Heap.modify_eq_some hlink
  obtain ⟨m', hm', hgrown⟩ := hrec.grown.node a n hn
  obtain rfl := Option.some.inj (hm.symm.trans hm')
  obtain ⟨hgrownSize, hsameSize⟩ := updateSize_same hsize
  have hnull : sub = none → m.left = n.left ∧ m.right = n.right := by
    intro hsub
    obtain ⟨-, hadded⟩ := hrec.atNull hsub
    by_cases hpa : hParent = some a
    · obtain rfl := Option.some.inj ((hadded.parent a n hpa hn).symm.trans hm)
      exact ⟨rfl, rfl⟩
    · rw [hadded.others a (ne_of_lt (Heap.lt_next hn)) hpa, hn] at hm
      obtain rfl := Option.some.inj hm
      exact ⟨rfl, rfl⟩
  have hgrownLink := TreeGrown.write hm hwrite (hf m hgrown hnull) fun hsizes => by
    rw [hkept]
    exact hsizes a m hm
  exact ⟨(hrec.grown.trans hgrownLink).trans hgrownSize,
    (hrec.hierarchy.trans_same (SameHierarchy.write hm hwrite (hlinks m))).trans_same
      hsameSize⟩

theorem hTreeInsertLoop_eq_some {dataCmp : α → α → Option Ordering} {newData : α}
    {hParent : HTree} {fuel : ℕ} {nodes nodes' : Heap (HNode α)} {root root' : HTree}
    (h : hTreeInsertLoop dataCmp newData hParent fuel nodes root = some (nodes', root')) :
    HeapInserted nodes nodes' root root' newData hParent := by
  induction fuel generalizing nodes nodes' root root' with
  | zero => simp [hTreeInsertLoop] at h
  | succ fuel ih =>
      cases root with
      | none =>
          simp only [hTreeInsertLoop, Option.bind_eq_bind, Option.bind_eq_some_iff,
            Option.some.injEq, Prod.mk.injEq, Prod.exists] at h
          obtain ⟨nodes₁, new, hinit, rfl, rfl⟩ := h
          obtain ⟨rfl, hadded⟩ := hNodeInit_eq_some hinit
          exact ⟨by simp, hadded.grown, Or.inr ⟨_, hadded, SameHierarchy.refl _⟩,
            fun _ => ⟨rfl, hadded⟩⟩
      | some a =>
          simp only [hTreeInsertLoop, Option.bind_eq_bind, Option.bind_eq_some_iff] at h
          obtain ⟨n, hn, cmp, -, h⟩ := h
          have hdone : root' = some a ∧ TreeGrown nodes nodes' ∧
              InsertedOnce nodes nodes' newData hParent := by
            cases cmp with
            | gt =>
                simp only [Option.bind_eq_some_iff, Prod.exists, Option.some.injEq,
                  Prod.mk.injEq] at h
                obtain ⟨nodes₁, right, hrec, nodes₂, hlink, nodes₃, hsize, rfl, rfl⟩ := h
                have hinserted := ih hrec
                refine ⟨rfl, hinserted.link hn hlink hsize (fun _ => rfl) (fun _ => rfl)
                  fun m hgrown hnull => ?_⟩
                refine ⟨rfl, rfl, rfl, fun _ hx => hx, fun x hx => ?_⟩
                cases hright : n.right with
                | none =>
                    rw [(hnull hright).2, hright] at hx
                    contradiction
                | some y =>
                    rw [hgrown.right y hright] at hx
                    rw [← hx]
                    exact hinserted.keepsRoot y hright
            | lt =>
                simp only [Option.bind_eq_some_iff, Prod.exists, Option.some.injEq,
                  Prod.mk.injEq] at h
                obtain ⟨nodes₁, left, hrec, nodes₂, hlink, nodes₃, hsize, rfl, rfl⟩ := h
                have hinserted := ih hrec
                refine ⟨rfl, hinserted.link hn hlink hsize (fun _ => rfl) (fun _ => rfl)
                  fun m hgrown hnull => ?_⟩
                refine ⟨rfl, rfl, rfl, fun x hx => ?_, fun _ hx => hx⟩
                cases hleft : n.left with
                | none =>
                    rw [(hnull hleft).1, hleft] at hx
                    contradiction
                | some y =>
                    rw [hgrown.left y hleft] at hx
                    rw [← hx]
                    exact hinserted.keepsRoot y hleft
            | eq =>
                simp only [Option.bind_some, Option.bind_eq_some_iff, Option.some.injEq,
                  Prod.mk.injEq] at h
                obtain ⟨nodes₁, hsize, rfl, rfl⟩ := h
                obtain ⟨hgrown, hsame⟩ := updateSize_same hsize
                exact ⟨rfl, hgrown, Or.inl hsame⟩
          obtain ⟨rfl, hgrown, hinserted⟩ := hdone
          exact ⟨fun _ hx => hx, hgrown, hinserted, by simp⟩

theorem hTreeInsert_eq_some {dataCmp : α → α → Option Ordering} {newData : α}
    {hParent : HTree} {nodes nodes' : Heap (HNode α)} {root root' : HTree}
    (h : hTreeInsert dataCmp nodes root newData hParent = some (nodes', root')) :
    HeapInserted nodes nodes' root root' newData hParent :=
  hTreeInsertLoop_eq_some h

/-! ## Searching after an insertion -/

/-- A search that found a node finds it in a grown tree too, if the comparisons are
as before. -/
theorem hTreeSearchLoop_more {cmp cmp' : α → κ → Option Ordering}
    {nodes nodes' : Heap (HNode α)} {key : κ} {fuel fuel' a : ℕ} {root : HTree}
    (hgrown : TreeGrown nodes nodes') (hfuel : fuel ≤ fuel')
    (hcmp : ∀ x o, cmp x key = some o → cmp' x key = some o)
    (h : hTreeSearchLoop cmp nodes key fuel root = some (some a)) :
    hTreeSearchLoop cmp' nodes' key fuel' root = some (some a) := by
  induction fuel generalizing fuel' root with
  | zero => simp [hTreeSearchLoop] at h
  | succ fuel ih =>
      obtain ⟨rest, rfl⟩ : ∃ rest, fuel' = rest + 1 := ⟨fuel' - 1, by omega⟩
      cases root with
      | none => simp [hTreeSearchLoop] at h
      | some b =>
          simp only [hTreeSearchLoop, Option.bind_eq_bind, Option.bind_eq_some_iff] at h ⊢
          obtain ⟨n, hn, o, ho, h⟩ := h
          obtain ⟨n', hn', hsame⟩ := hgrown.node b n hn
          refine ⟨n', hn', o, by rw [hsame.data]; exact hcmp _ _ ho, ?_⟩
          cases o with
          | eq => exact h
          | lt =>
              cases hright : n.right with
              | none =>
                  rw [hright] at h
                  cases fuel <;> simp [hTreeSearchLoop] at h
              | some x =>
                  rw [hright] at h
                  simp only [hsame.right x hright]
                  exact ih (by omega) h
          | gt =>
              cases hleft : n.left with
              | none =>
                  rw [hleft] at h
                  cases fuel <;> simp [hTreeSearchLoop] at h
              | some x =>
                  rw [hleft] at h
                  simp only [hsame.left x hleft]
                  exact ih (by omega) h

/-! ## States that only grow -/

/-- Files and nodes of `s` are still there in `s'`, under their paths and clusters. -/
structure FsGrown (s s' : FsState) : Prop where
  tree : ∀ root, s.fileTree = some root →
    ∃ root', s'.fileTree = some root' ∧ ∀ a, root = some a → root' = some a
  nodes : TreeGrown s.nodes s'.nodes
  files : ∀ a f, s.files.get a = some f → ∃ f', s'.files.get a = some f' ∧
    f'.filepath = f.filepath ∧ f'.startCluster = f.startCluster

theorem FsGrown.of_same {s s' : FsState} (htree : s'.fileTree = s.fileTree)
    (hnodes : s'.nodes = s.nodes) (hfiles : s'.files = s.files) : FsGrown s s' := by
  refine ⟨fun root h => ⟨root, htree.trans h, fun _ ha => ha⟩, ?_, fun a f h => ?_⟩
  · rw [hnodes]
    exact TreeGrown.refl _
  · exact ⟨f, by rw [hfiles]; exact h, rfl, rfl⟩

theorem FsGrown.refl (s : FsState) : FsGrown s s := FsGrown.of_same rfl rfl rfl

theorem FsGrown.trans {s s' s'' : FsState} (h : FsGrown s s') (h' : FsGrown s' s'') :
    FsGrown s s'' := by
  refine ⟨fun root hroot => ?_, h.nodes.trans h'.nodes, fun a f hf => ?_⟩
  · obtain ⟨root', hroot', hkeep⟩ := h.tree root hroot
    obtain ⟨root'', hroot'', hkeep'⟩ := h'.tree root' hroot'
    exact ⟨root'', hroot'', fun a ha => hkeep' a (hkeep a ha)⟩
  · obtain ⟨f', hf', hpath, hstart⟩ := h.files a f hf
    obtain ⟨f'', hf'', hpath', hstart'⟩ := h'.files a f' hf'
    exact ⟨f'', hf'', hpath'.trans hpath, hstart'.trans hstart⟩

theorem FsGrown.allocFile (s : FsState) (file : FatFile) : FsGrown s (s.allocFile file) := by
  refine ⟨fun root h => ⟨root, h, fun _ ha => ha⟩, TreeGrown.refl _, fun a f h => ?_⟩
  exact ⟨f, Heap.get_alloc_of_live file h, rfl, rfl⟩

/-- Overwriting a file with one of the same path and cluster. -/
theorem FsGrown.writeFile {s : FsState} {v : Volume} {files : Heap FatFile} {a : ℕ}
    {f f' : FatFile} (hf : s.files.get a = some f) (hwrite : s.files.write a f' = some files)
    (hpath : f'.filepath = f.filepath) (hstart : f'.startCluster = f.startCluster) :
    FsGrown s { s with vol := v, files := files } := by
  obtain ⟨-, -, hself, hothers⟩ := Heap.write_eq_some hwrite
  refine ⟨fun root h => ⟨root, h, fun _ ha => ha⟩, TreeGrown.refl _, fun b g hg => ?_⟩
  by_cases hb : b = a
  · subst hb
    obtain rfl := Option.some.inj (hf.symm.trans hg)
    exact ⟨f', hself, hpath, hstart⟩
  · exact ⟨g, (hothers b hb).trans hg, rfl, rfl⟩

theorem fatTreeInsert_eq_some {s s' : FsState} {parent : HTree} {file : ℕ} {root : HTree}
    (hroot : s.fileTree = some root) (h : fatTreeInsert s parent (some file) = some s') :
    ∃ nodes root', hTreeInsert (fatFileCmp s.files) s.nodes root file parent =
        some (nodes, root') ∧
      s' = { s with nodes := nodes, fileTree := some root' } := by
  simp only [fatTreeInsert, hroot, Option.bind_eq_bind, Option.bind_eq_some_iff,
    Option.some.injEq, Prod.exists] at h
  obtain ⟨nodes, root', hinsert, rfl⟩ := h
  exact ⟨nodes, root', hinsert, rfl⟩

theorem FsGrown.insert {s s' : FsState} {parent : HTree} {file : ℕ} {root : HTree}
    (hroot : s.fileTree = some root) (h : fatTreeInsert s parent (some file) = some s') :
    FsGrown s s' := by
  obtain ⟨nodes, root', hinsert, rfl⟩ := fatTreeInsert_eq_some hroot h
  have hdone := hTreeInsert_eq_some hinsert
  refine ⟨fun root₀ h₀ => ⟨root', rfl, fun a ha => ?_⟩, hdone.grown,
    fun a f hf => ⟨f, hf, rfl, rfl⟩⟩
  obtain rfl := Option.some.inj (hroot.symm.trans h₀)
  exact hdone.keepsRoot a ha

theorem FsGrown.search {s s' : FsState} (h : FsGrown s s') {key : CString} {node : ℕ}
    (hfound : fatTreeNodeSearch s key = some (some node)) :
    fatTreeNodeSearch s' key = some (some node) := by
  simp only [fatTreeNodeSearch, Option.bind_eq_bind, Option.bind_eq_some_iff] at hfound ⊢
  obtain ⟨root, hroot, hfound⟩ := hfound
  obtain ⟨root', hroot', hkeep⟩ := h.tree root hroot
  refine ⟨root', hroot', ?_⟩
  cases root with
  | none => simp [hTreeSearch, hTreeSearchLoop] at hfound
  | some a =>
      rw [hkeep a rfl]
      apply hTreeSearchLoop_more h.nodes (Nat.succ_le_succ h.nodes.next_le) _ hfound
      intro x o ho
      simp only [fatFileCmpPath, Option.bind_eq_bind, Option.bind_eq_some_iff,
        Option.some.injEq] at ho ⊢
      obtain ⟨f, hf, rfl⟩ := ho
      obtain ⟨f', hf', hpath, -⟩ := h.files x f hf
      exact ⟨f', hf', by rw [hpath]⟩

end SistOp.FatFuse
