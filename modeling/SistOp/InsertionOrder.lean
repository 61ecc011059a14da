import SistOp.TreeShape
import Mathlib.Tactic

/-!
# Trees built by insertions

The tree after any sequence of `h_tree_insert` calls on a tree that was empty is a
map from keys to the data that was inserted first.
-/

namespace SistOp.FatFuse

open SearchTree

variable {α κ : Type}

/-- `data_cmp` and `data_cmp_key` for data with keys of a linear order. -/
def cmpData [LinearOrder κ] (key : α → κ) (x y : α) : Option Ordering :=
  some (compare (key x) (key y))

def cmpKey [LinearOrder κ] (key : α → κ) (x : α) (k : κ) : Option Ordering :=
  some (compare (key x) k)

/-- `p` is a node of the tree at `root`. -/
def HNodeOf (nodes : Heap (HNode α)) (root : HTree) (p : ℕ) : Prop :=
  ∃ t, TreeAt nodes root t ∧ p ∈ addresses t

/-- A parent that `h_tree_insert` may get: null, or a node of the tree. -/
def NullOrNode (nodes : Heap (HNode α)) (root hParent : HTree) : Prop :=
  ∀ p, hParent = some p → HNodeOf nodes root p

theorem NullOrNode.live {nodes : Heap (HNode α)} {root hParent : HTree}
    (h : NullOrNode nodes root hParent) (p : ℕ) (hp : hParent = some p) :
    ∃ m, nodes.get p = some m := by
  obtain ⟨t, ht, hmem⟩ := h p hp
  exact ht.live hmem

/-- `InsertedInOrder key xs nodes root`: inserting the data `xs` in order, into a tree
that was empty, led to the tree at `root`. -/
inductive InsertedInOrder [LinearOrder κ] (key : α → κ) :
    List α → Heap (HNode α) → HTree → Prop
  | empty (nodes : Heap (HNode α)) : InsertedInOrder key [] nodes none
  | insert {xs : List α} {nodes nodes' : Heap (HNode α)} {root root' hParent : HTree} {x : α}
      (before : InsertedInOrder key xs nodes root) (parent : NullOrNode nodes root hParent)
      (step : hTreeInsert (cmpData key) nodes root x hParent = some (nodes', root')) :
      InsertedInOrder key (xs ++ [x]) nodes' root'

/-- The data that was inserted first with a key. -/
def firstInserted [DecidableEq κ] (key : α → κ) (xs : List α) (k : κ) : Option α :=
  xs.find? fun x => key x = k

theorem firstInserted_append [DecidableEq κ] (key : α → κ) (xs : List α) (x : α) (k : κ) :
    firstInserted key (xs ++ [x]) k =
      (firstInserted key xs k).or (if key x = k then some x else none) := by
  rw [firstInserted, List.find?_append, firstInserted]
  by_cases hk : key x = k <;> simp [hk]

theorem firstInserted_eq_none_iff [DecidableEq κ] {key : α → κ} {xs : List α} {k : κ} :
    firstInserted key xs k = none ↔ ∀ x ∈ xs, key x ≠ k := by
  simp [firstInserted]

theorem key_of_firstInserted [DecidableEq κ] {key : α → κ} {xs : List α} {k : κ} {x : α}
    (h : firstInserted key xs k = some x) : key x = k := by
  simpa using List.find?_some h

/-! ## Flattening -/

/-- The writes that store a list from a position on. -/
def writesFrom (pos : ℤ) : List α → List (ℤ × α)
  | [] => []
  | x :: xs => (pos, x) :: writesFrom (pos + 1) xs

theorem writesFrom_append (pos : ℤ) (xs ys : List α) :
    writesFrom pos (xs ++ ys) = writesFrom pos xs ++ writesFrom (pos + xs.length) ys := by
  induction xs generalizing pos with
  | nil => simp [writesFrom]
  | cons x xs ih =>
      rw [List.cons_append, writesFrom, writesFrom, ih, List.cons_append, List.length_cons]
      push_cast
      rw [show pos + 1 + (xs.length : ℤ) = pos + (xs.length + 1) by ring]

theorem writesFrom_data (pos : ℤ) (xs : List α) : (writesFrom pos xs).map Prod.snd = xs := by
  induction xs generalizing pos with
  | nil => rfl
  | cons x xs ih => rw [writesFrom, List.map_cons, ih]

theorem writesFrom_positions (n : ℕ) (xs : List α) :
    (writesFrom n xs).map Prod.fst = (List.range' n xs.length).map ((↑) : ℕ → ℤ) := by
  induction xs generalizing n with
  | nil => rfl
  | cons x xs ih =>
      have hrest := ih (n + 1)
      push_cast at hrest
      rw [writesFrom, List.map_cons, hrest, List.length_cons, List.range'_succ, List.map_cons]

theorem TreeAt.flattenLoop {nodes : Heap (HNode α)} {root : HTree} {t : BinaryTree (ℕ × α)}
    {fuel : ℕ} (h : TreeAt nodes root t) (hsized : Sized nodes t) (pos : ℤ)
    (hfuel : t.numNodes < fuel) :
    hTreeFlattenPreorderLoop nodes fuel root pos =
      some (writesFrom pos ((preorder t).map Prod.snd)) := by
  induction t generalizing root fuel pos with
  | nil =>
      obtain ⟨rest, rfl⟩ : ∃ rest, fuel = rest + 1 := ⟨fuel - 1, by omega⟩
      rw [show root = none from h]
      rfl
  | node x l r ihl ihr =>
      obtain ⟨rest, rfl⟩ : ∃ rest, fuel = rest + 1 := ⟨fuel - 1, by omega⟩
      obtain ⟨hroot, n, hn, hdata, hl, hr⟩ := h
      obtain ⟨-, hsl, hsr⟩ := hsized
      rw [BinaryTree.numNodes] at hfuel
      have hlength : ((preorder l).map Prod.snd).length = l.numNodes := by
        rw [List.length_map, (preorder_perm_inorder l).length_eq, length_inorder]
      rw [hroot]
      simp only [hTreeFlattenPreorderLoop, hn, ihl hl hsl (pos + 1) (show _ < rest by omega),
        hTreeSize_eq hl hsl, ihr hr hsr _ (show _ < rest by omega), Option.bind_eq_bind,
        Option.bind_some, preorder, List.map_cons, List.map_append, writesFrom,
        writesFrom_append, hlength, hdata]

/-! ## The tree after a sequence of insertions -/

section Insertions

variable [LinearOrder κ] {key : α → κ}

/-- The tree in the heap is ordered, its sizes are right, and it holds the data that
was inserted first with each key. -/
structure HoldsFirst (key : α → κ) (xs : List α) (nodes : Heap (HNode α)) (root : HTree)
    (t : BinaryTree (ℕ × α)) : Prop where
  tree : TreeAt nodes root t
  sized : Sized nodes t
  ordered : Ordered (fun x => key x.2) t
  mem_iff : ∀ x, x ∈ (inorder t).map Prod.snd ↔ firstInserted key xs (key x) = some x

theorem HoldsFirst.key_mem_iff {xs : List α} {nodes : Heap (HNode α)} {root : HTree}
    {t : BinaryTree (ℕ × α)} (h : HoldsFirst key xs nodes root t) {k : κ} :
    (∃ x ∈ inorder t, key x.2 = k) ↔ ∃ x ∈ xs, key x = k := by
  constructor
  · rintro ⟨x, hx, rfl⟩
    exact ⟨x.2, List.mem_of_find?_eq_some ((h.mem_iff x.2).mp (List.mem_map_of_mem hx)), rfl⟩
  · rintro ⟨y, hy, hyk⟩
    cases hfirst : firstInserted key xs k with
    | none => exact absurd hyk (firstInserted_eq_none_iff.mp hfirst y hy)
    | some z =>
        have hzk := key_of_firstInserted hfirst
        rw [← hzk] at hfirst
        obtain ⟨x, hx, rfl⟩ := List.mem_map.mp ((h.mem_iff z).mpr hfirst)
        exact ⟨x, hx, hzk⟩

/-- An insertion returns, and it keeps the tree. -/
theorem HoldsFirst.insert {xs : List α} {nodes : Heap (HNode α)} {root hParent : HTree}
    {t : BinaryTree (ℕ × α)} (h : HoldsFirst key xs nodes root t) (x : α)
    (hparent : NullOrNode nodes root hParent) :
    ∃ nodes' root' t', hTreeInsert (cmpData key) nodes root x hParent = some (nodes', root') ∧
      HoldsFirst key (xs ++ [x]) nodes' root' t' := by
  have hnodup := h.tree.nodup h.ordered
  have hfuel : t.numNodes < nodes.next + 1 := Nat.lt_succ_of_le (h.tree.numNodes_le hnodup)
  have hcmp : ∀ y ∈ inorder t, cmpData key x y.2 = some (compare (key x) (key y.2)) :=
    fun _ _ => rfl
  obtain ⟨nodes', root', hinsert, hinto⟩ :=
    h.tree.insertLoop h.sized hnodup hcmp hparent.live hfuel
  refine ⟨nodes', root', _, hinsert, hinto.tree, hinto.sized, h.ordered.treeInsert _,
    fun y => ?_⟩
  have hsplit : y ∈ (inorder (treeInsert (fun x => key x.2) (nodes.next, x) t)).map Prod.snd ↔
      y ∈ (inorder t).map Prod.snd ∨ y = x ∧ ∀ z ∈ inorder t, key z.2 ≠ key x := by
    simp only [List.mem_map, h.ordered.mem_treeInsert]
    constructor
    · rintro ⟨z, hz | ⟨rfl, hno⟩, rfl⟩
      · exact Or.inl ⟨z, hz, rfl⟩
      · exact Or.inr ⟨rfl, hno⟩
    · rintro (⟨z, hz, rfl⟩ | ⟨rfl, hno⟩)
      · exact ⟨z, Or.inl hz, rfl⟩
      · exact ⟨(nodes.next, y), Or.inr ⟨rfl, hno⟩, rfl⟩
  rw [hsplit, h.mem_iff, firstInserted_append]
  cases hfirst : firstInserted key xs (key y) with
  | some z =>
      obtain ⟨w, hw, hwy⟩ := h.key_mem_iff.mpr
        ⟨z, List.mem_of_find?_eq_some hfirst, key_of_firstInserted hfirst⟩
      rw [Option.some_or]
      constructor
      · rintro (hy | ⟨rfl, hno⟩)
        · exact hy
        · exact absurd hwy (hno w hw)
      · exact Or.inl
  | none =>
      have hno : ∀ z ∈ inorder t, key z.2 ≠ key y := by
        intro z hz hzy
        obtain ⟨w, hw, hwy⟩ := h.key_mem_iff.mp ⟨z, hz, hzy⟩
        exact firstInserted_eq_none_iff.mp hfirst w hw hwy
      rw [Option.none_or]
      constructor
      · rintro (hy | ⟨rfl, -⟩)
        · contradiction
        · simp
      · intro hy
        split at hy
        · obtain rfl := Option.some.inj hy
          exact Or.inr ⟨rfl, hno⟩
        · contradiction

theorem InsertedInOrder.holdsFirst {xs : List α} {nodes : Heap (HNode α)} {root : HTree}
    (h : InsertedInOrder key xs nodes root) : ∃ t, HoldsFirst key xs nodes root t := by
  induction h with
  | empty nodes =>
      exact ⟨.nil, rfl, trivial, List.Pairwise.nil, fun x => by simp [firstInserted]⟩
  | insert before parent step ih =>
      obtain ⟨t, ht⟩ := ih
      obtain ⟨nodes', root', t', hinsert, ht'⟩ := ht.insert _ parent
      rw [step] at hinsert
      obtain ⟨rfl, rfl⟩ := Prod.mk.inj (Option.some.inj hinsert)
      exact ⟨t', ht'⟩

/-- The tree that insertions build is a map from keys to the data inserted first.
Search, sizes and flattening agree on it, and a further insertion returns. -/
theorem insertions_refine_map {xs : List α} {nodes : Heap (HNode α)} {root : HTree}
    (h : InsertedInOrder key xs nodes root) :
    (∃ t, TreeAt nodes root t ∧ Ordered (fun x => key x.2) t ∧ Sized nodes t) ∧
      (∀ k x, firstInserted key xs k = some x →
        ∃ a n, hTreeSearch (cmpKey key) nodes root k = some (some a) ∧
          nodes.get a = some n ∧ n.data = x) ∧
      (∀ k, hTreeSearch (cmpKey key) nodes root k = some none ↔ ∀ x ∈ xs, key x ≠ k) ∧
      hTreeSize nodes root = some ((xs.map key).toFinset.card : ℤ) ∧
      (∃ writes, hTreeFlattenPreorder nodes root = some writes ∧
        writes.map Prod.fst = (List.range (xs.map key).toFinset.card).map ((↑) : ℕ → ℤ) ∧
        (writes.map fun w => key w.2).Nodup ∧
        ∀ x, x ∈ writes.map Prod.snd ↔ firstInserted key xs (key x) = some x) ∧
      ∀ x hParent, NullOrNode nodes root hParent →
        ∃ nodes' root', hTreeInsert (cmpData key) nodes root x hParent =
          some (nodes', root') := by
  obtain ⟨t, ht⟩ := h.holdsFirst
  have hnodup := ht.tree.nodup ht.ordered
  have hfuel : t.numNodes < nodes.next + 1 := Nat.lt_succ_of_le (ht.tree.numNodes_le hnodup)
  have hsearch : ∀ k, hTreeSearch (cmpKey key) nodes root k =
      some ((find? (fun x => key x.2) k t).map Prod.fst) := fun k =>
    ht.tree.searchLoop (fun _ _ => rfl) hfuel
  have hcard : (xs.map key).toFinset.card = t.numNodes := by
    have hkeys : (xs.map key).toFinset = ((inorder t).map fun x => key x.2).toFinset := by
      ext k
      simp only [List.mem_toFinset, List.mem_map]
      exact ht.key_mem_iff.symm
    rw [hkeys, List.toFinset_card_of_nodup ht.ordered.nodup_keys, List.length_map,
      length_inorder]
  have hperm := (preorder_perm_inorder t).map Prod.snd
  refine ⟨⟨t, ht.tree, ht.ordered, ht.sized⟩, fun k x hfirst => ?_, fun k => ?_, ?_, ?_,
    fun x hParent hparent => ?_⟩
  · have hxk := key_of_firstInserted hfirst
    rw [← hxk] at hfirst
    obtain ⟨y, hy, rfl⟩ := List.mem_map.mp ((ht.mem_iff x).mpr hfirst)
    obtain ⟨n, hn, hdata⟩ := ht.tree.mem hy
    have hfound := ht.ordered.find?_eq_some_iff.mpr ⟨hy, hxk⟩
    exact ⟨y.1, n, by rw [hsearch, hfound, Option.map_some], hn, hdata⟩
  · rw [hsearch, Option.some.injEq, Option.map_eq_none_iff, ht.ordered.find?_eq_none_iff]
    constructor
    · intro habsent x hx hxk
      obtain ⟨y, hy, hyk⟩ := ht.key_mem_iff.mpr ⟨x, hx, hxk⟩
      exact habsent y hy hyk
    · intro habsent y hy hyk
      obtain ⟨x, hx, hxk⟩ := ht.key_mem_iff.mp ⟨y, hy, hyk⟩
      exact habsent x hx hxk
  · rw [hcard, hTreeSize_eq ht.tree ht.sized]
  · refine ⟨_, ht.tree.flattenLoop ht.sized 0 hfuel, ?_, ?_, ?_⟩
    · have hpositions := writesFrom_positions 0 ((preorder t).map Prod.snd)
      rw [hperm.length_eq, List.length_map, length_inorder, ← List.range_eq_range'] at hpositions
      rw [hcard]
      exact_mod_cast hpositions
    · have hkeys := (preorder_perm_inorder t).map fun x => key x.2
      have hdata := congrArg (List.map key) (writesFrom_data 0 ((preorder t).map Prod.snd))
      rw [List.map_map, List.map_map] at hdata
      rw [show (fun w : ℤ × α => key w.2) = key ∘ Prod.snd from rfl, hdata]
      exact hkeys.nodup_iff.mpr ht.ordered.nodup_keys
    · intro x
      rw [writesFrom_data, hperm.mem_iff]
      exact ht.mem_iff x
  · obtain ⟨nodes', root', -, hinsert, -⟩ := ht.insert x hparent
    exact ⟨nodes', root', hinsert⟩

theorem InsertedInOrder.exists_insert {xs : List α} {nodes : Heap (HNode α)} {root : HTree}
    (h : InsertedInOrder key xs nodes root) (x : α) :
    ∃ nodes' root', InsertedInOrder key (xs ++ [x]) nodes' root' := by
  obtain ⟨t, ht⟩ := h.holdsFirst
  have hnull : NullOrNode nodes root none := fun p hp => by contradiction
  obtain ⟨nodes', root', -, hinsert, -⟩ := ht.insert x hnull
  exact ⟨nodes', root', h.insert hnull hinsert⟩

end Insertions

/-- A second datum with key 2 is ignored. -/
theorem insertions_refine_map_duplicate :
    ∃ nodes root, InsertedInOrder (Prod.fst : ℕ × Bool → ℕ)
        [(2, true), (1, true), (2, false)] nodes root ∧
      hTreeSize nodes root = some 2 ∧
      ∃ a n, hTreeSearch (cmpKey Prod.fst) nodes root 2 = some (some a) ∧
        nodes.get a = some n ∧ n.data = (2, true) := by
  have h₀ := @InsertedInOrder.empty (ℕ × Bool) ℕ _ Prod.fst Heap.empty
  obtain ⟨nodes₁, root₁, h₁⟩ := h₀.exists_insert (2, true)
  obtain ⟨nodes₂, root₂, h₂⟩ := h₁.exists_insert (1, true)
  obtain ⟨nodes, root, h⟩ := h₂.exists_insert (2, false)
  obtain ⟨-, hfound, -, hsize, -⟩ := insertions_refine_map h
  exact ⟨nodes, root, h, hsize, hfound 2 (2, true) rfl⟩

end SistOp.FatFuse
