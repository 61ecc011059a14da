import Mathlib.Data.Tree.Basic
import Mathlib.Tactic

/-!
# Binary search trees

Trees carry elements with keys of a linear order.  `Ordered` says that the keys
increase from left to right.  Search, insertion below a null link and removal are
specified by the list `inorder` of the elements.
-/

namespace SistOp.SearchTree

variable {β κ : Type*}

def inorder : BinaryTree β → List β
  | .nil => []
  | .node x l r => inorder l ++ x :: inorder r

def preorder : BinaryTree β → List β
  | .nil => []
  | .node x l r => x :: (preorder l ++ preorder r)

@[simp] theorem inorder_nil : inorder (.nil : BinaryTree β) = [] := rfl

@[simp] theorem inorder_node (x : β) (l r : BinaryTree β) :
    inorder (.node x l r) = inorder l ++ x :: inorder r := rfl

theorem length_inorder (t : BinaryTree β) : (inorder t).length = t.numNodes := by
  induction t with
  | nil => rfl
  | node x l r ihl ihr =>
      simp only [inorder_node, List.length_append, List.length_cons,
        BinaryTree.numNodes, ihl, ihr]
      omega

theorem preorder_perm_inorder (t : BinaryTree β) : (preorder t).Perm (inorder t) := by
  induction t with
  | nil => exact List.Perm.refl _
  | node x l r ihl ihr =>
      calc
        (x :: (preorder l ++ preorder r)).Perm (x :: (inorder l ++ inorder r)) :=
          (ihl.append ihr).cons x
        _ |>.Perm (inorder l ++ x :: inorder r) := List.perm_middle.symm

variable [LinearOrder κ] (key : β → κ)

/-- The keys increase from left to right. -/
def Ordered (t : BinaryTree β) : Prop :=
  (inorder t).Pairwise fun x y => key x < key y

def find? (k : κ) : BinaryTree β → Option β
  | .nil => none
  | .node y l r =>
      match compare (key y) k with
      | .lt => find? k r
      | .gt => find? k l
      | .eq => some y

/-- Insertion below a null link; an element with the key of `x` stays. -/
def treeInsert (x : β) : BinaryTree β → BinaryTree β
  | .nil => .node x .nil .nil
  | .node y l r =>
      match compare (key x) (key y) with
      | .gt => .node y l (treeInsert x r)
      | .lt => .node y (treeInsert x l) r
      | .eq => .node y l r

variable {key}

theorem ordered_node_iff {x : β} {l r : BinaryTree β} :
    Ordered key (.node x l r) ↔
      Ordered key l ∧ Ordered key r ∧ (∀ y ∈ inorder l, key y < key x) ∧
        ∀ y ∈ inorder r, key x < key y := by
  simp only [Ordered, inorder_node, List.pairwise_append, List.pairwise_cons,
    List.mem_cons, forall_eq_or_imp]
  constructor
  · rintro ⟨hl, ⟨hxr, hr⟩, hlr⟩
    exact ⟨hl, hr, fun y hy => (hlr y hy).1, hxr⟩
  · rintro ⟨hl, hr, hlx, hxr⟩
    exact ⟨hl, ⟨hxr, hr⟩, fun y hy => ⟨hlx y hy, fun z hz => (hlx y hy).trans (hxr z hz)⟩⟩

theorem Ordered.nodup_keys {t : BinaryTree β} (h : Ordered key t) :
    ((inorder t).map key).Nodup := by
  apply List.Pairwise.imp ne_of_lt
  exact List.pairwise_map.mpr h

/-- Two elements with one key are the same. -/
theorem Ordered.eq_of_key {t : BinaryTree β} (h : Ordered key t) {x y : β}
    (hx : x ∈ inorder t) (hy : y ∈ inorder t) (hkey : key x = key y) : x = y :=
  List.inj_on_of_nodup_map h.nodup_keys hx hy hkey

theorem Ordered.mem_left {x y : β} {l r : BinaryTree β} (h : Ordered key (.node x l r))
    (hy : y ∈ inorder (.node x l r)) (hlt : key y < key x) : y ∈ inorder l := by
  obtain ⟨-, -, -, hxr⟩ := ordered_node_iff.mp h
  rw [inorder_node, List.mem_append, List.mem_cons] at hy
  rcases hy with hl | rfl | hr
  · exact hl
  · exact absurd hlt (lt_irrefl _)
  · exact absurd (hlt.trans (hxr y hr)) (lt_irrefl _)

theorem Ordered.mem_right {x y : β} {l r : BinaryTree β} (h : Ordered key (.node x l r))
    (hy : y ∈ inorder (.node x l r)) (hlt : key x < key y) : y ∈ inorder r := by
  obtain ⟨-, -, hlx, -⟩ := ordered_node_iff.mp h
  rw [inorder_node, List.mem_append, List.mem_cons] at hy
  rcases hy with hl | rfl | hr
  · exact absurd (hlt.trans (hlx y hl)) (lt_irrefl _)
  · exact absurd hlt (lt_irrefl _)
  · exact hr

/-- An element is the only one with its key. -/
theorem Ordered.filter_key {t : BinaryTree β} (h : Ordered key t) {x : β}
    (hx : x ∈ inorder t) : (inorder t).filter (fun y => key y = key x) = [x] := by
  obtain ⟨front, rest, hsplit⟩ := List.append_of_mem hx
  have hnodup := h.nodup_keys
  rw [hsplit, List.map_append, List.map_cons, List.nodup_append, List.nodup_cons] at hnodup
  obtain ⟨-, ⟨hrest, -⟩, hfront⟩ := hnodup
  rw [hsplit, List.filter_append, List.filter_cons_of_pos (by simp),
    List.filter_eq_nil_iff.mpr, List.filter_eq_nil_iff.mpr, List.nil_append]
  · intro y hy heq
    exact hrest (List.mem_map.mpr ⟨y, hy, of_decide_eq_true heq⟩)
  · intro y hy heq
    exact hfront _ (List.mem_map_of_mem hy) _ List.mem_cons_self (of_decide_eq_true heq)

/-! ## Search -/

theorem Ordered.find?_eq_some_iff {t : BinaryTree β} (h : Ordered key t) {k : κ} {x : β} :
    find? key k t = some x ↔ x ∈ inorder t ∧ key x = k := by
  induction t with
  | nil => simp [find?]
  | node y l r ihl ihr =>
      obtain ⟨hl, hr, hly, hyr⟩ := ordered_node_iff.mp h
      rw [find?, inorder_node, List.mem_append, List.mem_cons]
      cases hcmp : compare (key y) k with
      | lt =>
          have hlt := compare_lt_iff_lt.mp hcmp
          simp only [ihr hr]
          constructor
          · rintro ⟨hx, hxk⟩
            exact ⟨Or.inr (Or.inr hx), hxk⟩
          · rintro ⟨hx | rfl | hx, rfl⟩
            · exact absurd (hly x hx) hlt.asymm
            · exact absurd hlt (lt_irrefl _)
            · exact ⟨hx, rfl⟩
      | gt =>
          have hgt := compare_gt_iff_gt.mp hcmp
          simp only [ihl hl]
          constructor
          · rintro ⟨hx, hxk⟩
            exact ⟨Or.inl hx, hxk⟩
          · rintro ⟨hx | rfl | hx, rfl⟩
            · exact ⟨hx, rfl⟩
            · exact absurd hgt (lt_irrefl _)
            · exact absurd (hyr x hx) hgt.asymm
      | eq =>
          have heq := compare_eq_iff_eq.mp hcmp
          simp only [Option.some.injEq]
          constructor
          · rintro rfl
            exact ⟨Or.inr (Or.inl rfl), heq⟩
          · rintro ⟨hx, hxk⟩
            have hmem : x ∈ inorder (.node y l r) := by simpa using hx
            exact h.eq_of_key (by simp) hmem (heq.trans hxk.symm)

theorem Ordered.find?_eq_none_iff {t : BinaryTree β} (h : Ordered key t) {k : κ} :
    find? key k t = none ↔ ∀ x ∈ inorder t, key x ≠ k := by
  rw [Option.eq_none_iff_forall_ne_some]
  constructor
  · intro hnone x hx hxk
    exact hnone x (h.find?_eq_some_iff.mpr ⟨hx, hxk⟩)
  · intro habsent x hfound
    obtain ⟨hx, hxk⟩ := h.find?_eq_some_iff.mp hfound
    exact habsent x hx hxk

/-! ## Insertion -/

theorem mem_of_mem_treeInsert {t : BinaryTree β} {x y : β}
    (hy : y ∈ inorder (treeInsert key x t)) : y = x ∨ y ∈ inorder t := by
  induction t with
  | nil => exact Or.inl (by simpa [treeInsert] using hy)
  | node w l r ihl ihr =>
      rw [treeInsert] at hy
      cases hcmp : compare (key x) (key w) <;>
        simp only [hcmp, inorder_node, List.mem_append, List.mem_cons] at hy ⊢ <;>
        tauto

/-- The elements after an insertion: one more, unless its key was there. -/
theorem Ordered.mem_treeInsert {t : BinaryTree β} (h : Ordered key t) {x y : β} :
    y ∈ inorder (treeInsert key x t) ↔
      y ∈ inorder t ∨ y = x ∧ ∀ z ∈ inorder t, key z ≠ key x := by
  induction t with
  | nil => simp [treeInsert]
  | node w l r ihl ihr =>
      obtain ⟨hl, hr, hlw, hwr⟩ := ordered_node_iff.mp h
      rw [treeInsert]
      cases hcmp : compare (key x) (key w) with
      | lt =>
          have hlt := compare_lt_iff_lt.mp hcmp
          have hright : ∀ z ∈ inorder r, key z ≠ key x := fun z hz =>
            (hlt.trans (hwr z hz)).ne'
          simp only [inorder_node, List.mem_append, List.mem_cons, ihl hl]
          constructor
          · rintro ((hy | ⟨rfl, hno⟩) | hy)
            · exact Or.inl (Or.inl hy)
            · refine Or.inr ⟨rfl, ?_⟩
              rintro z (hz | rfl | hz)
              · exact hno z hz
              · exact hlt.ne'
              · exact hright z hz
            · exact Or.inl (Or.inr hy)
          · rintro ((hy | hy) | ⟨rfl, hno⟩)
            · exact Or.inl (Or.inl hy)
            · exact Or.inr hy
            · exact Or.inl (Or.inr ⟨rfl, fun z hz => hno z (Or.inl hz)⟩)
      | gt =>
          have hgt := compare_gt_iff_gt.mp hcmp
          have hleft : ∀ z ∈ inorder l, key z ≠ key x := fun z hz =>
            ((hlw z hz).trans hgt).ne
          simp only [inorder_node, List.mem_append, List.mem_cons, ihr hr]
          constructor
          · rintro (hy | hy | hy | ⟨rfl, hno⟩)
            · exact Or.inl (Or.inl hy)
            · exact Or.inl (Or.inr (Or.inl hy))
            · exact Or.inl (Or.inr (Or.inr hy))
            · refine Or.inr ⟨rfl, ?_⟩
              rintro z (hz | rfl | hz)
              · exact hleft z hz
              · exact hgt.ne
              · exact hno z hz
          · rintro ((hy | hy | hy) | ⟨rfl, hno⟩)
            · exact Or.inl hy
            · exact Or.inr (Or.inl hy)
            · exact Or.inr (Or.inr (Or.inl hy))
            · exact Or.inr (Or.inr (Or.inr ⟨rfl, fun z hz => hno z (Or.inr (Or.inr hz))⟩))
      | eq =>
          have heq := compare_eq_iff_eq.mp hcmp
          constructor
          · exact Or.inl
          · rintro (hy | ⟨-, hno⟩)
            · exact hy
            · exact absurd heq.symm (hno w (by simp))

theorem Ordered.treeInsert {t : BinaryTree β} (h : Ordered key t) (x : β) :
    Ordered key (treeInsert key x t) := by
  induction t with
  | nil => simp [SearchTree.treeInsert, Ordered]
  | node w l r ihl ihr =>
      obtain ⟨hl, hr, hlw, hwr⟩ := ordered_node_iff.mp h
      rw [SearchTree.treeInsert]
      cases hcmp : compare (key x) (key w) with
      | lt =>
          refine ordered_node_iff.mpr ⟨ihl hl, hr, fun y hy => ?_, hwr⟩
          rcases hl.mem_treeInsert.mp hy with hold | ⟨rfl, -⟩
          · exact hlw y hold
          · exact compare_lt_iff_lt.mp hcmp
      | gt =>
          refine ordered_node_iff.mpr ⟨hl, ihr hr, hlw, fun y hy => ?_⟩
          rcases hr.mem_treeInsert.mp hy with hold | ⟨rfl, -⟩
          · exact hwr y hold
          · exact compare_gt_iff_gt.mp hcmp
      | eq => exact h

end SistOp.SearchTree
