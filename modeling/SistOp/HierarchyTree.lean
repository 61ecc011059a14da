import SistOp.PointerHeap
import Mathlib.Tactic

/-!
# The hierarchy tree (`hierarchy_tree.c`)

A node belongs to two structures: a binary search tree (`left`, `right`, `size`)
and a hierarchy (`hParent`, `hChildren`, `hNextSibling`).  Data are non-null
pointers of an arbitrary type.  Comparing data may read other memory, so a
comparison may fault.  A recursion or loop over nodes gets one round for each
node ever allocated and one more; on a cycle it runs out and the result is `none`.
-/

namespace SistOp.FatFuse

/-- A node pointer that may be null. -/
abbrev HTree := Option ℕ

structure HNode (α : Type) where
  data : α
  right : HTree
  left : HTree
  hParent : HTree
  hNextSibling : HTree
  hChildren : HTree
  size : ℤ
  deriving DecidableEq, Repr

variable {α κ : Type}

/-- `h_node_init`. -/
def hNodeInit (nodes : Heap (HNode α)) (newData : α) (hParent : HTree) :
    Option (Heap (HNode α) × ℕ) :=
  match hParent with
  | none =>
      some
        (nodes.alloc
          { data := newData, right := none, left := none, hParent := none
            hNextSibling := none, hChildren := none, size := 1 },
          nodes.next)
  | some parent => do
      let parentNode ← nodes.get parent
      let allocated := nodes.alloc
        { data := newData, right := none, left := none, hParent := some parent
          hNextSibling := parentNode.hChildren, hChildren := none, size := 1 }
      let linked ← allocated.modify parent fun n =>
        { n with hChildren := some nodes.next }
      some (linked, nodes.next)

def hTreeSize (nodes : Heap (HNode α)) (root : HTree) : Option ℤ :=
  match root with
  | none => some 0
  | some node => do
      let n ← nodes.get node
      some n.size

/-- The recursion of `h_tree_search`; `dataCmpKey` is the sign of
`data_cmp_key`. -/
def hTreeSearchLoop (dataCmpKey : α → κ → Option Ordering)
    (nodes : Heap (HNode α)) (key : κ) : ℕ → HTree → Option HTree
  | 0, _ => none
  | _ + 1, none => some none
  | fuel + 1, some node => do
      let n ← nodes.get node
      let cmp ← dataCmpKey n.data key
      match cmp with
      | .lt => hTreeSearchLoop dataCmpKey nodes key fuel n.right
      | .gt => hTreeSearchLoop dataCmpKey nodes key fuel n.left
      | .eq => some (some node)

def hTreeSearch (dataCmpKey : α → κ → Option Ordering) (nodes : Heap (HNode α))
    (root : HTree) (key : κ) : Option HTree :=
  hTreeSearchLoop dataCmpKey nodes key (nodes.next + 1) root

/-- A node that is found compares equal to the key. -/
theorem hTreeSearchLoop_found {dataCmpKey : α → κ → Option Ordering}
    {nodes : Heap (HNode α)} {key : κ} {fuel node : ℕ} {root : HTree}
    (h : hTreeSearchLoop dataCmpKey nodes key fuel root = some (some node)) :
    ∃ n, nodes.get node = some n ∧ dataCmpKey n.data key = some .eq := by
  induction fuel generalizing root with
  | zero => simp [hTreeSearchLoop] at h
  | succ fuel ih =>
      cases root with
      | none => simp [hTreeSearchLoop] at h
      | some a =>
          simp only [hTreeSearchLoop, Option.bind_eq_bind, Option.bind_eq_some_iff] at h
          obtain ⟨n, hn, cmp, hcmp, h⟩ := h
          cases cmp with
          | lt => exact ih h
          | gt => exact ih h
          | eq =>
              simp only [Option.some.injEq] at h
              subst h
              exact ⟨n, hn, hcmp⟩

def updateSize (nodes : Heap (HNode α)) (root : ℕ) : Option (Heap (HNode α)) := do
  let n ← nodes.get root
  let leftSize ← hTreeSize nodes n.left
  let rightSize ← hTreeSize nodes n.right
  nodes.write root { n with size := 1 + leftSize + rightSize }

/-- The recursion of `h_tree_insert`. -/
def hTreeInsertLoop (dataCmp : α → α → Option Ordering) (newData : α)
    (hParent : HTree) :
    ℕ → Heap (HNode α) → HTree → Option (Heap (HNode α) × HTree)
  | 0, _, _ => none
  | _ + 1, nodes, none => do
      let (nodes, new) ← hNodeInit nodes newData hParent
      some (nodes, some new)
  | fuel + 1, nodes, some root => do
      let n ← nodes.get root
      let cmp ← dataCmp newData n.data
      let nodes ←
        match cmp with
        | .gt => do
            let (nodes, right) ←
              hTreeInsertLoop dataCmp newData hParent fuel nodes n.right
            nodes.modify root fun n => { n with right := right }
        | .lt => do
            let (nodes, left) ←
              hTreeInsertLoop dataCmp newData hParent fuel nodes n.left
            nodes.modify root fun n => { n with left := left }
        | .eq => some nodes
      let nodes ← updateSize nodes root
      some (nodes, some root)

def hTreeInsert (dataCmp : α → α → Option Ordering) (nodes : Heap (HNode α))
    (root : HTree) (newData : α) (hParent : HTree) :
    Option (Heap (HNode α) × HTree) :=
  hTreeInsertLoop dataCmp newData hParent (nodes.next + 1) nodes root

/-! ## Deletion -/

/-- The memory that deletion changes: the nodes, `errno`, and the data passed to
`data_destroy` so far. -/
structure HMemory (α : Type) where
  nodes : Heap (HNode α)
  errno : ℤ
  destroyed : List α

def swapNodes (nodes : Heap (HNode α)) (oldFile newFile : ℕ) :
    Option (Heap (HNode α)) := do
  let old ← nodes.get oldFile
  let new ← nodes.get newFile
  let nodes ← nodes.modify oldFile fun n =>
    { n with left := new.left, right := new.right }
  let nodes ← nodes.modify newFile fun n =>
    { n with left := old.left, right := old.right }
  let nodes ← updateSize nodes newFile
  updateSize nodes oldFile

/-- The walk of `remove_child_from_h` along the siblings of `hChild`: it ends at
the sibling in front of it, or at the last one. -/
def siblingLoop (nodes : Heap (HNode α)) (hChild : ℕ) : ℕ → ℕ → Option ℕ
  | 0, _ => none
  | fuel + 1, iterator => do
      let n ← nodes.get iterator
      match n.hNextSibling with
      | none => some iterator
      | some next =>
          if next = hChild then some iterator
          else siblingLoop nodes hChild fuel next

def removeChildFromH (m : HMemory α) (hChild : ℕ) : Option (HMemory α) := do
  let child ← m.nodes.get hChild
  match child.hParent with
  | none => some m
  | some parent => do
      let parentNode ← m.nodes.get parent
      match parentNode.hChildren with
      | none => some { m with errno := 22 }
      | some first =>
          if first = hChild then do
            let nodes ← m.nodes.modify parent fun n =>
              { n with hChildren := child.hNextSibling }
            some { m with nodes := nodes }
          else do
            let iterator ← siblingLoop m.nodes hChild (m.nodes.next + 1) first
            let nodes ← m.nodes.modify iterator fun n =>
              { n with hNextSibling := child.hNextSibling }
            some { m with nodes := nodes }

def decrementSize (nodes : Heap (HNode α)) (node : ℕ) :
    Option (Heap (HNode α)) :=
  nodes.modify node fun n => { n with size := n.size - 1 }

/-- The `while` loop of `delete_root`.  It sets `minimum_parent` after it moved
`minimum` on, so after the first round both are the same node. -/
def minimumLoop :
    ℕ → Heap (HNode α) → ℕ → ℕ → Option (Heap (HNode α) × ℕ × ℕ)
  | 0, _, _, _ => none
  | fuel + 1, nodes, minimum, minimumParent => do
      let n ← nodes.get minimum
      match n.left with
      | none => some (nodes, minimum, minimumParent)
      | some next => do
          let nodes ← decrementSize nodes next
          minimumLoop fuel nodes next next

def deleteRoot : ℕ → HMemory α → ℕ → Option (HMemory α × HTree)
  | 0, _, _ => none
  | fuel + 1, m, root => do
      let n ← m.nodes.get root
      let m := { m with destroyed := m.destroyed ++ [n.data] }
      match n.left, n.right with
      | none, child => do
          let nodes ← m.nodes.free root
          some ({ m with nodes := nodes }, child)
      | some left, none => do
          let nodes ← m.nodes.free root
          some ({ m with nodes := nodes }, some left)
      | some left, some minimumParent => do
          let parentNode ← m.nodes.get minimumParent
          match parentNode.left with
          | none => do
              let nodes ← m.nodes.modify minimumParent fun n =>
                { n with left := some left }
              let nodes ← updateSize nodes minimumParent
              let nodes ← nodes.free root
              some ({ m with nodes := nodes }, some minimumParent)
          | some minimum => do
              let nodes ← decrementSize m.nodes minimumParent
              let (nodes, minimum, minimumParent) ←
                minimumLoop (nodes.next + 1) nodes minimum minimumParent
              let nodes ← swapNodes nodes root minimum
              let (m, left) ← deleteRoot fuel { m with nodes := nodes } root
              let nodes ← m.nodes.modify minimumParent fun n =>
                { n with left := left }
              some ({ m with nodes := nodes }, some minimum)

/-- The recursion of `h_tree_delete`. -/
def hTreeDeleteLoop (dataCmpKey : α → κ → Option Ordering) (key : κ) :
    ℕ → HMemory α → HTree → Option (HMemory α × HTree)
  | 0, _, _ => none
  | _ + 1, m, none => some (m, none)
  | fuel + 1, m, some root => do
      let n ← m.nodes.get root
      let cmp ← dataCmpKey n.data key
      match cmp with
      | .eq => do
          let m ← removeChildFromH m root
          deleteRoot (m.nodes.next + 1) m root
      | .lt => do
          let (m, right) ← hTreeDeleteLoop dataCmpKey key fuel m n.right
          let nodes ← m.nodes.modify root fun n => { n with right := right }
          let nodes ← updateSize nodes root
          some ({ m with nodes := nodes }, some root)
      | .gt => do
          let (m, left) ← hTreeDeleteLoop dataCmpKey key fuel m n.left
          let nodes ← m.nodes.modify root fun n => { n with left := left }
          let nodes ← updateSize nodes root
          some ({ m with nodes := nodes }, some root)

def hTreeDelete (dataCmpKey : α → κ → Option Ordering) (m : HMemory α)
    (root : HTree) (key : κ) : Option (HMemory α × HTree) :=
  hTreeDeleteLoop dataCmpKey key (m.nodes.next + 1) m root

/-! ## Iterators -/

/-- The data in the order of `h_tree_iterate_preorder`. -/
def hTreePreorderLoop (nodes : Heap (HNode α)) : ℕ → HTree → Option (List α)
  | 0, _ => none
  | _ + 1, none => some []
  | fuel + 1, some root => do
      let n ← nodes.get root
      let left ← hTreePreorderLoop nodes fuel n.left
      let right ← hTreePreorderLoop nodes fuel n.right
      some (n.data :: (left ++ right))

def hTreePreorder (nodes : Heap (HNode α)) (root : HTree) : Option (List α) :=
  hTreePreorderLoop nodes (nodes.next + 1) root

/-- The writes of `h_tree_flatten_preorder` to the array at `elemArray`, in order:
their positions and data. -/
def hTreeFlattenPreorderLoop (nodes : Heap (HNode α)) :
    ℕ → HTree → ℤ → Option (List (ℤ × α))
  | 0, _, _ => none
  | _ + 1, none, _ => some []
  | fuel + 1, some root, elemArray => do
      let n ← nodes.get root
      let left ← hTreeFlattenPreorderLoop nodes fuel n.left (elemArray + 1)
      let leftSize ← hTreeSize nodes n.left
      let right ←
        hTreeFlattenPreorderLoop nodes fuel n.right (elemArray + 1 + leftSize)
      some ((elemArray, n.data) :: (left ++ right))

def hTreeFlattenPreorder (nodes : Heap (HNode α)) (root : HTree) :
    Option (List (ℤ × α)) :=
  hTreeFlattenPreorderLoop nodes (nodes.next + 1) root 0

/-- The data that `h_tree_iterate_h_ancestors` visits. -/
def hTreeAncestorsLoop (nodes : Heap (HNode α)) : ℕ → HTree → Option (List α)
  | 0, _ => none
  | _ + 1, none => some []
  | fuel + 1, some node => do
      let n ← nodes.get node
      let rest ← hTreeAncestorsLoop nodes fuel n.hParent
      some (n.data :: rest)

def hTreeAncestors (nodes : Heap (HNode α)) (node : HTree) : Option (List α) :=
  hTreeAncestorsLoop nodes (nodes.next + 1) node

/-- The data that `h_tree_flatten_h_children` lists from `child` on. -/
def hChildrenLoop (nodes : Heap (HNode α)) : ℕ → HTree → Option (List α)
  | 0, _ => none
  | _ + 1, none => some []
  | fuel + 1, some child => do
      let n ← nodes.get child
      let rest ← hChildrenLoop nodes fuel n.hNextSibling
      some (n.data :: rest)

def hTreeFlattenHChildren (nodes : Heap (HNode α)) (root : ℕ) :
    Option (List α) := do
  let n ← nodes.get root
  hChildrenLoop nodes (nodes.next + 1) n.hChildren

end SistOp.FatFuse
