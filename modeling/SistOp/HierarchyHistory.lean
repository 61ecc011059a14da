import SistOp.SiblingLists
import Mathlib.Tactic

/-!
# Histories of the hierarchy

Nodes are created below null or a live node, and a node without children may be
taken out and freed.  After every such history the sibling lists mirror the
hierarchy, and the walks along siblings and along parents end.
-/

namespace SistOp.FatFuse

variable {α : Type}

/-- `HierarchyHistory live m`: creations and removals led to `m`, and `live` are the
nodes that were created and not removed, newest first. -/
inductive HierarchyHistory : List ℕ → HMemory α → Prop
  | start (errno : ℤ) (destroyed : List α) :
      HierarchyHistory [] { nodes := Heap.empty, errno := errno, destroyed := destroyed }
  | create {live : List ℕ} {m : HMemory α} {newData : α} {hParent : HTree}
      {nodes : Heap (HNode α)} {new : ℕ} (before : HierarchyHistory live m)
      (parent : ∀ p, hParent = some p → p ∈ live)
      (step : hNodeInit m.nodes newData hParent = some (nodes, new)) :
      HierarchyHistory (new :: live) { m with nodes := nodes }
  | remove {live : List ℕ} {m m' : HMemory α} {c : ℕ} {n : HNode α} {nodes : Heap (HNode α)}
      (before : HierarchyHistory live m) (node : m.nodes.get c = some n)
      (noChildren : n.hChildren = none) (step : removeChildFromH m c = some m')
      (freed : m'.nodes.free c = some nodes) :
      HierarchyHistory (live.erase c) { m' with nodes := nodes }

def hParentOf (nodes : Heap (HNode α)) (c : ℕ) : HTree :=
  (nodes.get c).bind HNode.hParent

theorem hParentOf_eq_some_iff {nodes : Heap (HNode α)} {p c : ℕ} :
    hParentOf nodes c = some p ↔ IsHChild nodes p c := by
  simp [hParentOf, IsHChild, Option.bind_eq_some_iff]

/-! ## The walks -/

/-- The data of the nodes `as`. -/
def DataOf (nodes : Heap (HNode α)) (as : List ℕ) (ds : List α) : Prop :=
  List.Forall₂ (fun a d => ∃ n, nodes.get a = some n ∧ n.data = d) as ds

theorem hChildrenLoop_eq {nodes : Heap (HNode α)} {start : HTree} {cs : List ℕ} {fuel : ℕ}
    (hlist : nodes.ListFrom HNode.hNextSibling start cs) (hfuel : cs.length < fuel) :
    ∃ ds, hChildrenLoop nodes fuel start = some ds ∧ DataOf nodes cs ds := by
  induction cs generalizing start fuel with
  | nil =>
      obtain ⟨rest, rfl⟩ : ∃ rest, fuel = rest + 1 := ⟨fuel - 1, by simp at hfuel; omega⟩
      rw [show start = none from hlist]
      exact ⟨[], rfl, List.Forall₂.nil⟩
  | cons c cs ih =>
      rw [List.length_cons] at hfuel
      obtain ⟨rest, rfl⟩ : ∃ rest, fuel = rest + 1 := ⟨fuel - 1, by omega⟩
      obtain ⟨hstart, n, hn, hrest⟩ := hlist
      obtain ⟨ds, hds, hdata⟩ := ih hrest (show cs.length < rest by omega)
      refine ⟨n.data :: ds, ?_, List.Forall₂.cons ⟨n, hn, rfl⟩ hdata⟩
      rw [hstart]
      simp only [hChildrenLoop, hn, hds, Option.bind_eq_bind, Option.bind_some]

theorem hTreeAncestorsLoop_eq {nodes : Heap (HNode α)} {start : HTree} {as : List ℕ}
    {fuel : ℕ} (hlist : nodes.ListFrom HNode.hParent start as) (hfuel : as.length < fuel) :
    ∃ ds, hTreeAncestorsLoop nodes fuel start = some ds ∧ DataOf nodes as ds := by
  induction as generalizing start fuel with
  | nil =>
      obtain ⟨rest, rfl⟩ : ∃ rest, fuel = rest + 1 := ⟨fuel - 1, by simp at hfuel; omega⟩
      rw [show start = none from hlist]
      exact ⟨[], rfl, List.Forall₂.nil⟩
  | cons a as ih =>
      rw [List.length_cons] at hfuel
      obtain ⟨rest, rfl⟩ : ∃ rest, fuel = rest + 1 := ⟨fuel - 1, by omega⟩
      obtain ⟨hstart, n, hn, hrest⟩ := hlist
      obtain ⟨ds, hds, hdata⟩ := ih hrest (show as.length < rest by omega)
      refine ⟨n.data :: ds, ?_, List.Forall₂.cons ⟨n, hn, rfl⟩ hdata⟩
      rw [hstart]
      simp only [hTreeAncestorsLoop, hn, hds, Option.bind_eq_bind, Option.bind_some]

/-- The path from a node to the top of the hierarchy. -/
theorem exists_ancestors {nodes : Heap (HNode α)} {gone : HTree} (h : SiblingLists nodes gone)
    (hlive : ParentsLive nodes) {a : ℕ} {n : HNode α} (hn : nodes.get a = some n) :
    ∃ as ds, nodes.ListFrom HNode.hParent (some a) as ∧ as.Nodup ∧
      hTreeAncestors nodes (some a) = some ds ∧ DataOf nodes as ds := by
  have hstart : ∀ c, some a = some c → ∃ x, nodes.get c = some x := by
    rintro c ⟨⟩
    exact ⟨n, hn⟩
  have holder : ∀ c x p, nodes.get c = some x → x.hParent = some p →
      p < c ∧ ∃ y, nodes.get p = some y := fun c x p hc hp =>
    ⟨h.older p c ⟨x, hc, hp⟩, hlive p c ⟨x, hc, hp⟩⟩
  obtain ⟨as, hlist, hdecreasing, -⟩ := Heap.exists_listFrom_of_older holder hstart
  have hnodup : as.Nodup := hdecreasing.imp ne_of_gt
  have hlength := Heap.length_le_next hnodup fun c hc => hlist.live hc
  obtain ⟨ds, hds, hdata⟩ := hTreeAncestorsLoop_eq hlist (Nat.lt_succ_of_le hlength)
  exact ⟨as, ds, hlist, hnodup, hds, hdata⟩

/-! ## The invariant -/

structure Mirrored (live : List ℕ) (nodes : Heap (HNode α)) : Prop where
  lists : SiblingLists nodes none
  parents : ParentsLive nodes
  mem_iff : ∀ a, a ∈ live ↔ ∃ n, nodes.get a = some n
  decreasing : live.Pairwise (· > ·)

theorem Mirrored.create {live : List ℕ} {nodes nodes' : Heap (HNode α)} {newData : α}
    {hParent : HTree} (h : Mirrored live nodes)
    (hadded : NodeAdded nodes nodes' newData hParent) :
    Mirrored (nodes.next :: live) nodes' := by
  refine ⟨h.lists.nodeAdded hadded, h.parents.nodeAdded hadded, fun a => ?_,
    List.pairwise_cons.mpr ⟨fun a ha => ?_, h.decreasing⟩⟩
  · rw [List.mem_cons, h.mem_iff]
    by_cases ha : a = nodes.next
    · subst ha
      obtain ⟨n, hn, -⟩ := hadded.new
      simp [hn]
    · have hshape := hadded.hNextSibling ha
      cases hget : nodes.get a <;> cases hget' : nodes'.get a <;> simp_all
  · obtain ⟨n, hn⟩ := (h.mem_iff a).mp ha
    exact Heap.lt_next hn

theorem Mirrored.remove {live : List ℕ} {nodes₁ nodes₂ nodes₃ : Heap (HNode α)} {c : ℕ}
    {n : HNode α} (h : Mirrored live nodes₁) (hn : nodes₁.get c = some n)
    (hnone : n.hChildren = none) (hremoved : ChildRemoved nodes₁ nodes₂ c)
    (hfree : nodes₂.free c = some nodes₃) : Mirrored (live.erase c) nodes₃ := by
  obtain ⟨-, -, hdead, hothers⟩ := Heap.free_eq_some hfree
  have hget : ∀ a, a ≠ c → (nodes₃.get a).map HNode.body = (nodes₁.get a).map HNode.body := by
    intro a ha
    rw [hothers a ha, hremoved.body]
  have hchild : ∀ p x, IsHChild nodes₃ p x → IsHChild nodes₁ p x ∧ x ≠ c := by
    rintro p x ⟨m, hm, hp⟩
    have hx : x ≠ c := by
      rintro rfl
      rw [hdead] at hm
      contradiction
    rw [hothers x hx] at hm
    exact ⟨(isHChild_of_body hremoved.body).mp ⟨m, hm, hp⟩, hx⟩
  refine ⟨hremoved.lists.free hfree, fun p x hx => ?_, fun a => ?_,
    List.Pairwise.sublist List.erase_sublist h.decreasing⟩
  · obtain ⟨hold, -⟩ := hchild p x hx
    have hpc : p ≠ c := by
      -- `c` has no children
      rintro rfl
      obtain ⟨cs, hlist, -, hmem⟩ := h.lists.lists p n hn
      rw [hnone] at hlist
      have hempty : nodes₁.ListFrom HNode.hNextSibling none [] := rfl
      have hnil := hlist.unique hempty
      have := (hmem x).mpr ⟨hold, by simp⟩
      simp [hnil] at this
    obtain ⟨m, hm⟩ := h.parents p x hold
    have hkept := hget p hpc
    rw [hm, Option.map_some, Option.map_eq_some_iff] at hkept
    obtain ⟨m', hm', -⟩ := hkept
    exact ⟨m', hm'⟩
  · have hnodup : live.Nodup := h.decreasing.imp ne_of_gt
    rw [hnodup.mem_erase_iff, h.mem_iff]
    by_cases ha : a = c
    · subst ha
      simp [hdead]
    · have hkept := hget a ha
      cases hget₁ : nodes₁.get a <;> cases hget₃ : nodes₃.get a <;> simp_all

/-- A node without children can be taken out and freed. -/
theorem Mirrored.exists_remove {live : List ℕ} {m : HMemory α} {c : ℕ} {n : HNode α}
    (h : Mirrored live m.nodes) (hn : m.nodes.get c = some n) :
    ∃ nodes nodes', removeChildFromH m c = some { m with nodes := nodes } ∧
      ChildRemoved m.nodes nodes c ∧ nodes.free c = some nodes' := by
  obtain ⟨nodes, hremove, hremoved⟩ :=
    removeChildFromH_eq h.lists hn fun p hp => h.parents p c ⟨n, hn, hp⟩
  have hbody := hremoved.body c
  rw [hn, Option.map_some, Option.map_eq_some_iff] at hbody
  obtain ⟨n', hn', -⟩ := hbody
  obtain ⟨nodes', hfree⟩ := Heap.exists_free hn'
  exact ⟨nodes, nodes', hremove, hremoved, hfree⟩

theorem HierarchyHistory.mirrored {live : List ℕ} {m : HMemory α}
    (h : HierarchyHistory live m) : Mirrored live m.nodes := by
  induction h with
  | start errno destroyed =>
      exact ⟨siblingLists_empty, fun p c ⟨n, hn, _⟩ => by simp at hn, by simp,
        List.Pairwise.nil⟩
  | create before parent step ih =>
      obtain ⟨rfl, hadded⟩ := hNodeInit_eq_some step
      exact ih.create hadded
  | remove before node noChildren step freed ih =>
      obtain ⟨nodes, nodes', hremove, hremoved, -⟩ := ih.exists_remove node
      obtain rfl := Option.some.inj (step.symm.trans hremove)
      exact ih.remove node noChildren hremoved freed

/-- After any history of creations and removals the sibling list of every live node
holds its live children, newest first, and the walks along siblings and parents end.
A further creation or removal returns. -/
theorem hierarchyHistory_mirrors {live : List ℕ} {m : HMemory α}
    (h : HierarchyHistory live m) :
    (∀ a, a ∈ live ↔ ∃ n, m.nodes.get a = some n) ∧ live.Nodup ∧
      (∀ p n, m.nodes.get p = some n → ∃ ds,
        m.nodes.ListFrom HNode.hNextSibling n.hChildren
          (live.filter fun c => hParentOf m.nodes c = some p) ∧
        hTreeFlattenHChildren m.nodes p = some ds ∧
        DataOf m.nodes (live.filter fun c => hParentOf m.nodes c = some p) ds) ∧
      (∀ a n, m.nodes.get a = some n →
        (∀ p, n.hParent = some p → ∃ n', m.nodes.get p = some n') ∧
        ∃ as ds, m.nodes.ListFrom HNode.hParent (some a) as ∧
          hTreeAncestors m.nodes (some a) = some ds ∧ DataOf m.nodes as ds) ∧
      (∀ newData hParent, (∀ p, hParent = some p → p ∈ live) →
        (hNodeInit m.nodes newData hParent).isSome) ∧
      ∀ c n, m.nodes.get c = some n → n.hChildren = none →
        ∃ m' nodes, removeChildFromH m c = some m' ∧ m'.nodes.free c = some nodes := by
  have hgood := h.mirrored
  refine ⟨hgood.mem_iff, hgood.decreasing.imp ne_of_gt, fun p n hn => ?_, fun a n hn => ?_,
    fun newData hParent hparent => ?_, fun c n hn _ => ?_⟩
  · obtain ⟨cs, hlist, hdecreasing, hmem⟩ := hgood.lists.lists p n hn
    have hcs : cs = live.filter fun c => hParentOf m.nodes c = some p := by
      apply hdecreasing.eq_of_mem_iff (hgood.decreasing.filter _)
      intro c
      rw [hmem, List.mem_filter, decide_eq_true_iff, hParentOf_eq_some_iff, hgood.mem_iff]
      constructor
      · rintro ⟨⟨x, hx, hp⟩, -⟩
        exact ⟨⟨x, hx⟩, x, hx, hp⟩
      · rintro ⟨-, hc⟩
        exact ⟨hc, by simp⟩
    have hlength := Heap.length_le_next (hdecreasing.imp ne_of_gt) fun a ha => hlist.live ha
    obtain ⟨ds, hds, hdata⟩ := hChildrenLoop_eq hlist (Nat.lt_succ_of_le hlength)
    rw [← hcs]
    refine ⟨ds, hlist, ?_, hdata⟩
    simp only [hTreeFlattenHChildren, hn, hds, Option.bind_eq_bind, Option.bind_some]
  · obtain ⟨as, ds, hlist, -, hancestors, hdata⟩ := exists_ancestors hgood.lists hgood.parents hn
    exact ⟨fun p hp => hgood.parents p a ⟨n, hn, hp⟩, as, ds, hlist, hancestors, hdata⟩
  · obtain ⟨nodes', hinit⟩ := exists_hNodeInit newData fun p hp =>
      (hgood.mem_iff p).mp (hparent p hp)
    simp [hinit]
  · obtain ⟨nodes, nodes', hremove, -, hfree⟩ := hgood.exists_remove hn
    exact ⟨_, nodes', hremove, hfree⟩

/-- A node and its child. -/
theorem hierarchyHistory_mirrors_child :
    ∃ m : HMemory Bool, HierarchyHistory [1, 0] m ∧ ∃ ds,
      hTreeFlattenHChildren m.nodes 0 = some ds ∧
        DataOf m.nodes ([1, 0].filter fun c => hParentOf m.nodes c = some 0) ds := by
  have h₀ := @HierarchyHistory.start Bool 0 []
  obtain ⟨nodes₁, hinit₁⟩ : ∃ nodes₁, hNodeInit (Heap.empty : Heap (HNode Bool)) true none =
      some (nodes₁, 0) := exists_hNodeInit true (by simp)
  have h₁ := h₀.create (by simp) hinit₁
  have hnext : nodes₁.next = 1 := (hNodeInit_eq_some hinit₁).2.next
  obtain ⟨hlive, -, -, -, hcreate, -⟩ := hierarchyHistory_mirrors h₁
  have hparent : ∀ p, some 0 = some p → p ∈ [0] := by
    simp
  obtain ⟨⟨nodes₂, new⟩, hinit₂⟩ := Option.isSome_iff_exists.mp (hcreate false (some 0) hparent)
  obtain ⟨rfl, -⟩ := hNodeInit_eq_some hinit₂
  have h₂ := h₁.create hparent hinit₂
  rw [hnext] at h₂
  obtain ⟨hlive₂, -, hlists, -⟩ := hierarchyHistory_mirrors h₂
  obtain ⟨n, hn⟩ := (hlive₂ 0).mp (by simp)
  obtain ⟨ds, -, hflatten, hdata⟩ := hlists 0 n hn
  exact ⟨_, h₂, ds, hflatten, hdata⟩

end SistOp.FatFuse
