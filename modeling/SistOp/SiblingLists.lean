import SistOp.LinkedCells
import SistOp.TreeInsertion
import Mathlib.Tactic

/-!
# Sibling lists

`SiblingLists` is the invariant of the hierarchy: the list of `h_children` of every
live node holds exactly the live nodes that have it as `h_parent`, newest first.
Nodes are numbered in the order of their creation, so newest first means that the
numbers decrease.  `h_node_init` and `remove_child_from_h` keep the invariant.
-/

namespace SistOp.FatFuse

variable {α : Type}

/-- `c` is a live node with the parent `p`. -/
def IsHChild (nodes : Heap (HNode α)) (p c : ℕ) : Prop :=
  ∃ m, nodes.get c = some m ∧ m.hParent = some p

/-- Every live node lists its children, except the node `gone`. -/
structure SiblingLists (nodes : Heap (HNode α)) (gone : HTree) : Prop where
  lists : ∀ p n, nodes.get p = some n → ∃ cs,
    nodes.ListFrom HNode.hNextSibling n.hChildren cs ∧ cs.Pairwise (· > ·) ∧
      ∀ c, c ∈ cs ↔ IsHChild nodes p c ∧ gone ≠ some c
  older : ∀ p c, IsHChild nodes p c → p < c

/-- The parent of every live node is live. -/
def ParentsLive (nodes : Heap (HNode α)) : Prop :=
  ∀ p c, IsHChild nodes p c → ∃ n, nodes.get p = some n

theorem siblingLists_empty : SiblingLists (Heap.empty : Heap (HNode α)) none where
  lists := fun p n h => by simp at h
  older := fun p c ⟨m, hm, _⟩ => by simp at hm

section Links

variable {nodes nodes' : Heap (HNode α)} {gone : HTree}

theorem IsHChild.unique {p q c : ℕ} (h : IsHChild nodes p c) (h' : IsHChild nodes q c) :
    p = q := by
  obtain ⟨m, hm, hp⟩ := h
  obtain ⟨m', hm', hq⟩ := h'
  obtain rfl := Option.some.inj (hm.symm.trans hm')
  exact Option.some.inj (hp.symm.trans hq)

theorem SameHierarchy.isHChild_iff (h : SameHierarchy nodes nodes') {p c : ℕ} :
    IsHChild nodes' p c ↔ IsHChild nodes p c := by
  have hlinks := h.links c
  unfold IsHChild
  cases hc : nodes.get c with
  | none =>
      rw [hc, Option.map_none, Option.map_eq_none_iff] at hlinks
      simp [hlinks]
  | some m =>
      obtain ⟨m', hm', hmm'⟩ := h.get hc
      simp only [HNode.links, Prod.mk.injEq] at hmm'
      simp [hm', hmm'.2.1]

/-- Changes of the search tree do not matter. -/
theorem SiblingLists.congr (h : SiblingLists nodes gone) (hsame : SameHierarchy nodes nodes') :
    SiblingLists nodes' gone := by
  refine ⟨fun p n' hn' => ?_, fun p c hc => h.older p c (hsame.isHChild_iff.mp hc)⟩
  have hlinks := hsame.links p
  rw [hn', Option.map_some, eq_comm, Option.map_eq_some_iff] at hlinks
  obtain ⟨n, hn, hnn'⟩ := hlinks
  simp only [HNode.links, Prod.mk.injEq] at hnn'
  obtain ⟨cs, hlist, hdecreasing, hmem⟩ := h.lists p n hn
  refine ⟨cs, ?_, hdecreasing, fun c => (hmem c).trans (by rw [hsame.isHChild_iff])⟩
  rw [← hnn'.2.2.2]
  apply hlist.congr
  intro a ha
  have hlinksA := congrArg (Option.map fun x : α × HTree × HTree × HTree => x.2.2.1)
    (hsame.links a)
  simpa [Option.map_map, Function.comp_def, HNode.links] using hlinksA

theorem ParentsLive.congr (h : ParentsLive nodes) (hsame : SameHierarchy nodes nodes') :
    ParentsLive nodes' := by
  intro p c hc
  obtain ⟨n, hn⟩ := h p c (hsame.isHChild_iff.mp hc)
  obtain ⟨n', hn', -⟩ := hsame.get hn
  exact ⟨n', hn'⟩

/-- The list of a node's children. -/
theorem SiblingLists.list_unique (h : SiblingLists nodes gone) {p : ℕ} {n : HNode α}
    (hn : nodes.get p = some n) {cs : List ℕ}
    (hlist : nodes.ListFrom HNode.hNextSibling n.hChildren cs) :
    cs.Pairwise (· > ·) ∧ ∀ c, c ∈ cs ↔ IsHChild nodes p c ∧ gone ≠ some c := by
  obtain ⟨ds, hlist', hrest⟩ := h.lists p n hn
  rwa [hlist.unique hlist']

/-! ## Creation -/

theorem NodeAdded.isHChild_iff {newData : α} {hParent : HTree}
    (h : NodeAdded nodes nodes' newData hParent) {p c : ℕ} :
    IsHChild nodes' p c ↔ IsHChild nodes p c ∨ c = nodes.next ∧ hParent = some p := by
  obtain ⟨new, hnew, -, -, -, -, hparentNew, -⟩ := h.new
  unfold IsHChild
  by_cases hc : c = nodes.next
  · subst hc
    simp [hnew, hparentNew]
  · by_cases hpc : hParent = some c
    · obtain ⟨m, hm⟩ := h.parentLive c hpc
      simp [h.parent c m hpc hm, hm, hc]
    · simp [h.others c hc hpc, hc]

theorem NodeAdded.hNextSibling {newData : α} {hParent : HTree}
    (h : NodeAdded nodes nodes' newData hParent) {a : ℕ} (ha : a ≠ nodes.next) :
    (nodes'.get a).map HNode.hNextSibling = (nodes.get a).map HNode.hNextSibling := by
  by_cases hpa : hParent = some a
  · obtain ⟨m, hm⟩ := h.parentLive a hpa
    simp [h.parent a m hpa hm, hm]
  · rw [h.others a ha hpa]

theorem SiblingLists.nodeAdded (h : SiblingLists nodes none) {newData : α} {hParent : HTree}
    (hadded : NodeAdded nodes nodes' newData hParent) : SiblingLists nodes' none := by
  have hlistKept : ∀ {start : HTree} {cs : List ℕ},
      nodes.ListFrom HNode.hNextSibling start cs →
        nodes'.ListFrom HNode.hNextSibling start cs := by
    intro start cs hlist
    apply hlist.congr
    intro a ha
    obtain ⟨x, hx⟩ := hlist.live ha
    exact hadded.hNextSibling (ne_of_lt (Heap.lt_next hx))
  refine ⟨fun p n hn => ?_, fun p c hc => ?_⟩
  · by_cases hpnew : p = nodes.next
    · -- nothing has the new node as its parent
      subst hpnew
      obtain ⟨new, hnew, -, -, -, -, -, hnone, -⟩ := hadded.new
      obtain rfl := Option.some.inj (hn.symm.trans hnew)
      refine ⟨[], hnone, List.Pairwise.nil, fun c => ?_⟩
      simp only [List.not_mem_nil, false_iff, not_and]
      intro hc
      rcases hadded.isHChild_iff.mp hc with ⟨m, hm, hm'⟩ | ⟨-, hself⟩
      · have hold := h.older _ c ⟨m, hm, hm'⟩
        have := Heap.lt_next hm
        omega
      · obtain ⟨m, hm⟩ := hadded.parentLive _ hself
        exact absurd (Heap.lt_next hm) (lt_irrefl _)
    · by_cases hparent : hParent = some p
      · obtain ⟨m, hm⟩ := hadded.parentLive p hparent
        obtain rfl := Option.some.inj (hn.symm.trans (hadded.parent p m hparent hm))
        obtain ⟨cs, hlist, hdecreasing, hmem⟩ := h.lists p m hm
        obtain ⟨new, hnew, -, -, -, -, -, -, hnext⟩ := hadded.new
        rw [hparent, Option.bind_some, hm, Option.bind_some] at hnext
        refine ⟨nodes.next :: cs, ⟨rfl, new, hnew, by rw [hnext]; exact hlistKept hlist⟩,
          List.pairwise_cons.mpr ⟨fun c hc => ?_, hdecreasing⟩, fun c => ?_⟩
        · obtain ⟨x, hx⟩ := hlist.live hc
          exact Heap.lt_next hx
        · rw [List.mem_cons, hmem, hadded.isHChild_iff]
          simp only [hparent]
          tauto
      · rw [hadded.others p hpnew hparent] at hn
        obtain ⟨cs, hlist, hdecreasing, hmem⟩ := h.lists p n hn
        refine ⟨cs, hlistKept hlist, hdecreasing, fun c => ?_⟩
        rw [hmem, hadded.isHChild_iff]
        simp [hparent]
  · rcases hadded.isHChild_iff.mp hc with hold | ⟨rfl, hp⟩
    · exact h.older p c hold
    · obtain ⟨m, hm⟩ := hadded.parentLive p hp
      exact Heap.lt_next hm

theorem ParentsLive.nodeAdded (h : ParentsLive nodes) {newData : α} {hParent : HTree}
    (hadded : NodeAdded nodes nodes' newData hParent) : ParentsLive nodes' := by
  intro p c hc
  have hlive : ∃ n, nodes.get p = some n := by
    rcases hadded.isHChild_iff.mp hc with hold | ⟨-, hp⟩
    · exact h p c hold
    · exact hadded.parentLive p hp
  obtain ⟨n, hn⟩ := hlive
  obtain ⟨n', hn', -⟩ := hadded.grown.node p n hn
  exact ⟨n', hn'⟩

/-! ## Removal -/

/-- Everything of a node but its two links to other siblings and children. -/
def HNode.body (n : HNode α) : α × HTree × HTree × ℤ × HTree :=
  (n.data, n.left, n.right, n.size, n.hParent)

theorem isHChild_of_body (hbody : ∀ a, (nodes'.get a).map HNode.body =
      (nodes.get a).map HNode.body) {p c : ℕ} :
    IsHChild nodes' p c ↔ IsHChild nodes p c := by
  have hparent := congrArg (Option.map fun x : α × HTree × HTree × ℤ × HTree => x.2.2.2.2)
    (hbody c)
  simp only [Option.map_map, Function.comp_def, HNode.body] at hparent
  unfold IsHChild
  cases hc : nodes.get c <;> cases hc' : nodes'.get c <;> simp_all

/-- The walk of `remove_child_from_h` ends in front of the child. -/
theorem siblingLoop_eq {front rest : List ℕ} {first prev c fuel : ℕ}
    (hlist : nodes.ListFrom HNode.hNextSibling (some first) (front ++ prev :: c :: rest))
    (hc : c ∉ front ++ [prev]) (hfuel : front.length < fuel) :
    siblingLoop nodes c fuel first = some prev := by
  induction front generalizing first fuel with
  | nil =>
      obtain ⟨k, rfl⟩ : ∃ k, fuel = k + 1 := ⟨fuel - 1, by simp at hfuel; omega⟩
      obtain ⟨hfirst, x, hx, hnext, -⟩ := hlist
      obtain rfl := Option.some.inj hfirst
      simp [siblingLoop, hx, hnext]
  | cons b front ih =>
      rw [List.length_cons] at hfuel
      obtain ⟨k, rfl⟩ : ∃ k, fuel = k + 1 := ⟨fuel - 1, by omega⟩
      obtain ⟨hfirst, x, hx, hrest⟩ := hlist
      obtain rfl := Option.some.inj hfirst
      obtain ⟨next, hnext, hne⟩ : ∃ next, x.hNextSibling = some next ∧ next ≠ c := by
        cases front with
        | nil => exact ⟨prev, hrest.1, fun heq => hc (by simp [heq])⟩
        | cons d front => exact ⟨d, hrest.1, fun heq => hc (by simp [heq])⟩
      rw [hnext] at hrest
      simp only [siblingLoop, hx, hnext, if_neg hne, Option.bind_eq_bind, Option.bind_some]
      exact ih hrest (fun hmem => hc (List.mem_cons_of_mem _ hmem)) (by omega)

/-- Taking `c` out of the list of its parent `p` takes it out of the hierarchy. -/
theorem SiblingLists.unlink (h : SiblingLists nodes none) {p c : ℕ} {cs ds : List ℕ}
    {pn pn' : HNode α} (hchild : IsHChild nodes p c) (hp : nodes.get p = some pn)
    (hlist : nodes.ListFrom HNode.hNextSibling pn.hChildren cs)
    (hbody : ∀ a, (nodes'.get a).map HNode.body = (nodes.get a).map HNode.body)
    (hp' : nodes'.get p = some pn')
    (hlist' : nodes'.ListFrom HNode.hNextSibling pn'.hChildren ds)
    (hdecreasing : ds.Pairwise (· > ·)) (hds : ∀ x, x ∈ ds ↔ x ∈ cs ∧ x ≠ c)
    (hsiblings : ∀ a, a ∉ cs →
      (nodes'.get a).map HNode.hNextSibling = (nodes.get a).map HNode.hNextSibling)
    (hchildren : ∀ a, a ≠ p →
      (nodes'.get a).map HNode.hChildren = (nodes.get a).map HNode.hChildren) :
    SiblingLists nodes' (some c) := by
  obtain ⟨-, hcs⟩ := h.list_unique hp hlist
  refine ⟨fun q n' hn' => ?_, fun q x hx => h.older q x ((isHChild_of_body hbody).mp hx)⟩
  by_cases hq : q = p
  · subst hq
    obtain rfl := Option.some.inj (hn'.symm.trans hp')
    refine ⟨ds, hlist', hdecreasing, fun x => ?_⟩
    rw [hds, hcs, isHChild_of_body hbody]
    constructor
    · rintro ⟨⟨hx, -⟩, hne⟩
      exact ⟨hx, fun heq => hne (Option.some.inj heq).symm⟩
    · rintro ⟨hx, hne⟩
      exact ⟨⟨hx, by simp⟩, fun heq => hne (by rw [heq])⟩
  · have hlinks := hchildren q hq
    rw [hn', Option.map_some, eq_comm, Option.map_eq_some_iff] at hlinks
    obtain ⟨n, hn, hnn'⟩ := hlinks
    obtain ⟨es, hes, hdec, hmem⟩ := h.lists q n hn
    refine ⟨es, ?_, hdec, fun x => ?_⟩
    · rw [← hnn']
      apply hes.congr
      intro a ha
      exact hsiblings a fun hacs => hq (((hmem a).mp ha).1.unique ((hcs a).mp hacs).1)
    · rw [hmem, isHChild_of_body hbody]
      constructor
      · rintro ⟨hx, -⟩
        refine ⟨hx, fun heq => hq ?_⟩
        obtain rfl := Option.some.inj heq
        exact hx.unique hchild
      · rintro ⟨hx, -⟩
        exact ⟨hx, by simp⟩

/-- What `remove_child_from_h` does to the nodes. -/
structure ChildRemoved (nodes nodes' : Heap (HNode α)) (c : ℕ) : Prop where
  next : nodes'.next = nodes.next
  body : ∀ a, (nodes'.get a).map HNode.body = (nodes.get a).map HNode.body
  lists : SiblingLists nodes' (some c)

section RemoveChild

variable {m : HMemory α} {c p : ℕ} {n pn : HNode α} (h : SiblingLists m.nodes none)
  (hn : m.nodes.get c = some n)

include h hn

theorem removeChildFromH_root (hp : n.hParent = none) :
    ∃ nodes', removeChildFromH m c = some { m with nodes := nodes' } ∧
      ChildRemoved m.nodes nodes' c := by
  refine ⟨m.nodes, by simp [removeChildFromH, hn, hp], rfl, fun _ => rfl,
    fun q x hx => ?_, h.older⟩
  obtain ⟨cs, hlist, hdecreasing, hmem⟩ := h.lists q x hx
  refine ⟨cs, hlist, hdecreasing, fun y => ?_⟩
  rw [hmem]
  constructor
  · rintro ⟨hy, -⟩
    refine ⟨hy, fun heq => ?_⟩
    obtain rfl := Option.some.inj heq
    obtain ⟨n', hn', hq⟩ := hy
    obtain rfl := Option.some.inj (hn.symm.trans hn')
    rw [hp] at hq
    contradiction
  · rintro ⟨hy, -⟩
    exact ⟨hy, by simp⟩

variable (hp : n.hParent = some p) (hpn : m.nodes.get p = some pn)

include hp hpn

theorem removeChildFromH_first {rest : List ℕ}
    (hlist : m.nodes.ListFrom HNode.hNextSibling pn.hChildren (c :: rest))
    (hdecreasing : (c :: rest).Pairwise (· > ·)) :
    ∃ nodes', removeChildFromH m c = some { m with nodes := nodes' } ∧
      ChildRemoved m.nodes nodes' c := by
  have hchild : IsHChild m.nodes p c := ⟨n, hn, hp⟩
  have hcrest : c ∉ rest := (List.nodup_cons.mp (hdecreasing.imp ne_of_gt)).1
  have hlist₀ := hlist
  obtain ⟨hfirst, n', hn', hrest⟩ := hlist
  obtain rfl := Option.some.inj (hn.symm.trans hn')
  obtain ⟨nodes', hwrite⟩ :=
    Heap.exists_write hpn { pn with hChildren := n.hNextSibling }
  obtain ⟨-, hnext, hself, hothers⟩ := Heap.write_eq_some hwrite
  have hsiblings : ∀ a, (nodes'.get a).map HNode.hNextSibling =
      (m.nodes.get a).map HNode.hNextSibling := Heap.map_get_write hpn hwrite rfl
  have hbody : ∀ a, (nodes'.get a).map HNode.body =
      (m.nodes.get a).map HNode.body := Heap.map_get_write hpn hwrite rfl
  refine ⟨nodes', ?_, hnext, hbody, ?_⟩
  · simp only [removeChildFromH, hn, hp, hpn, hfirst, if_true, Heap.modify, hwrite,
      Option.bind_eq_bind, Option.bind_some]
  · exact h.unlink hchild hpn hlist₀ hbody hself
      (hrest.congr fun a _ => hsiblings a) (List.pairwise_cons.mp hdecreasing).2
      (fun x => by
        rw [List.mem_cons]
        constructor
        · exact fun hx => ⟨Or.inr hx, fun heq => hcrest (heq ▸ hx)⟩
        · exact fun hx => hx.1.resolve_left hx.2)
      (fun a _ => hsiblings a) (fun a ha => by rw [hothers a ha])

/-- The links around a child that follows `prev` in the list of its parent. -/
theorem removeChildFromH_later {front rest : List ℕ} {prev : ℕ}
    (hlist : m.nodes.ListFrom HNode.hNextSibling pn.hChildren (front ++ prev :: c :: rest))
    (hdecreasing : (front ++ prev :: c :: rest).Pairwise (· > ·)) :
    ∃ nodes', removeChildFromH m c = some { m with nodes := nodes' } ∧
      ChildRemoved m.nodes nodes' c := by
  have hchild : IsHChild m.nodes p c := ⟨n, hn, hp⟩
  have hnodup : (front ++ prev :: c :: rest).Nodup := hdecreasing.imp ne_of_gt
  have hlength := Heap.length_le_next hnodup fun a ha => hlist.live ha
  have hcfront : c ∉ front ++ [prev] := by
    intro hmem
    simp only [List.mem_append, List.mem_singleton] at hmem
    simp only [List.nodup_append, List.nodup_cons, List.mem_cons] at hnodup
    grind
  have hprevout : prev ∉ front ++ rest := by
    intro hmem
    simp only [List.mem_append] at hmem
    simp only [List.nodup_append, List.nodup_cons, List.mem_cons] at hnodup
    grind
  obtain ⟨first, hfirst, hfirstne⟩ :
      ∃ first, pn.hChildren = some first ∧ first ≠ c := by
    cases front with
    | nil => exact ⟨prev, hlist.1, fun heq => hcfront (by simp [heq])⟩
    | cons d front => exact ⟨d, hlist.1, fun heq => hcfront (by simp [heq])⟩
  have hloop : siblingLoop m.nodes c (m.nodes.next + 1) first = some prev := by
    have hfrom := hlist
    rw [hfirst] at hfrom
    apply siblingLoop_eq hfrom hcfront
    simp at hlength
    omega
  obtain ⟨x, hx⟩ := hlist.live (a := prev) (by simp)
  have hprevchild : IsHChild m.nodes p prev :=
    (((h.list_unique hpn hlist).2 prev).mp (by simp)).1
  have hprevp : prev ≠ p := (h.older p prev hprevchild).ne'
  obtain ⟨nodes', hwrite⟩ :=
    Heap.exists_write hx { x with hNextSibling := n.hNextSibling }
  obtain ⟨-, hnext, hself, hothers⟩ := Heap.write_eq_some hwrite
  have hbody : ∀ a, (nodes'.get a).map HNode.body =
      (m.nodes.get a).map HNode.body := Heap.map_get_write hx hwrite rfl
  have hunlinked : nodes'.ListFrom HNode.hNextSibling pn.hChildren
      (front ++ prev :: rest) := by
    apply hlist.unlink hn (by rw [hself]; rfl)
    intro a ha
    rw [hothers a fun heq => hprevout (heq ▸ ha)]
  refine ⟨nodes', ?_, hnext, hbody, ?_⟩
  · simp only [removeChildFromH, hn, hp, hpn, hfirst, if_neg hfirstne, hloop,
      Heap.modify, hx, hwrite, Option.bind_eq_bind, Option.bind_some]
  · refine h.unlink hchild hpn hlist hbody ((hothers p hprevp.symm).trans hpn)
      hunlinked ?_ (fun y => ?_) (fun a ha => ?_) fun a ha => ?_
    · refine hdecreasing.sublist ?_
      exact List.Sublist.append_left ((List.sublist_cons_self c rest).cons_cons prev) front
    · simp only [List.nodup_append, List.nodup_cons, List.mem_cons] at hnodup
      simp only [List.mem_append, List.mem_cons] at hcfront ⊢
      grind
    · rw [hothers a]
      rintro rfl
      exact ha (by simp)
    · by_cases hap : a = prev
      · subst hap
        simp [hself, hx]
      · rw [hothers a hap]

end RemoveChild

theorem removeChildFromH_eq {m : HMemory α} (h : SiblingLists m.nodes none) {c : ℕ}
    {n : HNode α} (hn : m.nodes.get c = some n)
    (hparent : ∀ p, n.hParent = some p → ∃ pn, m.nodes.get p = some pn) :
    ∃ nodes', removeChildFromH m c = some { m with nodes := nodes' } ∧
      ChildRemoved m.nodes nodes' c := by
  cases hp : n.hParent with
  | none => exact removeChildFromH_root h hn hp
  | some p =>
      obtain ⟨pn, hpn⟩ := hparent p hp
      obtain ⟨cs, hlist, hdecreasing, hmem⟩ := h.lists p pn hpn
      have hc : c ∈ cs := (hmem c).mpr ⟨⟨n, hn, hp⟩, by simp⟩
      obtain ⟨front, rest, rfl⟩ := List.append_of_mem hc
      rcases List.eq_nil_or_concat front with rfl | ⟨front, prev, rfl⟩
      · exact removeChildFromH_first h hn hp hpn hlist hdecreasing
      · rw [List.concat_eq_append, List.append_assoc, List.singleton_append] at hlist hdecreasing
        exact removeChildFromH_later h hn hp hpn hlist hdecreasing

/-- A node that was taken out dies. -/
theorem SiblingLists.of_dead {c : ℕ} (h : SiblingLists nodes (some c))
    (hdead : nodes'.get c = none)
    (hlinks : ∀ a, a ≠ c → (nodes'.get a).map HNode.links = (nodes.get a).map HNode.links) :
    SiblingLists nodes' none := by
  have hget : ∀ a n', nodes'.get a = some n' → ∃ n, nodes.get a = some n ∧
      n.hChildren = n'.hChildren ∧ n.hParent = n'.hParent ∧ a ≠ c := by
    intro a n' hn'
    have hac : a ≠ c := by
      rintro rfl
      rw [hdead] at hn'
      contradiction
    have hsame := hlinks a hac
    rw [hn', Option.map_some, eq_comm, Option.map_eq_some_iff] at hsame
    obtain ⟨n, hn, hnn'⟩ := hsame
    simp only [HNode.links, Prod.mk.injEq] at hnn'
    exact ⟨n, hn, hnn'.2.2.2, hnn'.2.1, hac⟩
  have hchild : ∀ p x, IsHChild nodes' p x ↔ IsHChild nodes p x ∧ some c ≠ some x := by
    intro p x
    constructor
    · rintro ⟨n', hn', hp⟩
      obtain ⟨n, hn, -, hparent, hxc⟩ := hget x n' hn'
      exact ⟨⟨n, hn, hparent.trans hp⟩, fun heq => hxc (Option.some.inj heq).symm⟩
    · rintro ⟨⟨n, hn, hp⟩, hne⟩
      have hsame := hlinks x fun heq => hne (by rw [heq])
      rw [hn, Option.map_some, Option.map_eq_some_iff] at hsame
      obtain ⟨n', hn', hnn'⟩ := hsame
      simp only [HNode.links, Prod.mk.injEq] at hnn'
      exact ⟨n', hn', hnn'.2.1.trans hp⟩
  refine ⟨fun p n' hn' => ?_, fun p x hx => h.older p x ((hchild p x).mp hx).1⟩
  obtain ⟨n, hn, hchildren, -⟩ := hget p n' hn'
  obtain ⟨cs, hlist, hdecreasing, hmem⟩ := h.lists p n hn
  rw [hchildren] at hlist
  refine ⟨cs, hlist.congr fun a ha => ?_, hdecreasing, fun x => ?_⟩
  · have hac : a ≠ c := by
      rintro rfl
      exact ((hmem a).mp ha).2 rfl
    have hsibling := congrArg (Option.map fun x : α × HTree × HTree × HTree => x.2.2.1)
      (hlinks a hac)
    rw [Option.map_map, Option.map_map] at hsibling
    exact hsibling
  · rw [hmem, hchild]
    simp

theorem SiblingLists.free {c : ℕ} (h : SiblingLists nodes (some c))
    (hfree : nodes.free c = some nodes') : SiblingLists nodes' none := by
  obtain ⟨-, -, hdead, hothers⟩ := Heap.free_eq_some hfree
  exact h.of_dead hdead fun a ha => by rw [hothers a ha]

end Links

end SistOp.FatFuse
