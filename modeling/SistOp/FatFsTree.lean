import SistOp.FatFile
import SistOp.HierarchyTree
import Mathlib.Tactic

/-!
# The file tree (`fat_fs_tree.c`)

`FsState` is the state of a mounted volume: what lies outside the driver, the
files and the tree nodes it allocated, and `vol->file_tree`.  A tree node carries
a pointer to its file, and trees are ordered by the paths of the files, so a
comparison with a file that was destroyed is a fault.
-/

namespace SistOp.FatFuse

structure FsState where
  vol : Volume
  files : Heap FatFile
  nodes : Heap (HNode ℕ)
  /-- `none` is a null `vol->file_tree`; otherwise the root of its `h_tree`. -/
  fileTree : Option HTree

namespace FsState

def errno (s : FsState) : ℤ := s.vol.errno

def setErrno (s : FsState) (e : ℤ) : FsState :=
  { s with vol := { s.vol with errno := e } }

/-- Dereferences a file pointer that may be null; null stays null. -/
def deref (s : FsState) (p : Option ℕ) : Option (Option FatFile) :=
  match p with
  | none => some none
  | some a => do
      let file ← s.files.get a
      some (some file)

def modifyFile (s : FsState) (a : ℕ) (f : FatFile → FatFile) : Option FsState := do
  let files ← s.files.modify a f
  some { s with files := files }

def modifyFiles (f : FatFile → FatFile) : List ℕ → FsState → Option FsState
  | [], s => some s
  | a :: as, s => do
      let s ← s.modifyFile a f
      modifyFiles f as s

def allocFile (s : FsState) (file : FatFile) : FsState :=
  { s with files := s.files.alloc file }

end FsState

/-- `fat_file_cmp`. -/
def fatFileCmp (files : Heap FatFile) (file1 file2 : ℕ) : Option Ordering := do
  let f1 ← files.get file1
  let f2 ← files.get file2
  some (strcmp f1.filepath f2.filepath)

/-- `fat_file_cmp_path`. -/
def fatFileCmpPath (files : Heap FatFile) (file1 : ℕ) (filepath : CString) :
    Option Ordering := do
  let f1 ← files.get file1
  some (strcmp f1.filepath filepath)

/-- `vol->file_tree = fat_tree_insert(vol->file_tree, parent, new_file)`. -/
def fatTreeInsert (s : FsState) (parent : HTree) (newFile : Option ℕ) :
    Option FsState :=
  match s.fileTree, newFile with
  | some root, some file => do
      let (nodes, root) ← hTreeInsert (fatFileCmp s.files) s.nodes root file parent
      some { s with nodes := nodes, fileTree := some root }
  | _, _ => some { s.setErrno Errno.einval with fileTree := none }

def fatTreeNodeSearch (s : FsState) (key : CString) : Option HTree := do
  let root ← s.fileTree
  hTreeSearch (fatFileCmpPath s.files) s.nodes root key

theorem fatTreeNodeSearch_found {s : FsState} {key : CString} {node : ℕ}
    (h : fatTreeNodeSearch s key = some (some node)) :
    ∃ n f, s.nodes.get node = some n ∧ s.files.get n.data = some f ∧ f.filepath = key := by
  simp only [fatTreeNodeSearch, Option.bind_eq_bind, Option.bind_eq_some_iff] at h
  obtain ⟨root, -, h⟩ := h
  obtain ⟨n, hn, hcmp⟩ := hTreeSearchLoop_found h
  simp only [fatFileCmpPath, Option.bind_eq_bind, Option.bind_eq_some_iff,
    Option.some.injEq] at hcmp
  obtain ⟨f, hf, hcmp⟩ := hcmp
  exact ⟨n, f, hn, hf, (strcmp_eq_iff _ _).mp hcmp⟩

/-- `fat_tree_search`: a key that is not found sets `errno`. -/
def fatTreeSearch (s : FsState) (key : CString) : Option (Option ℕ × FsState) :=
  match s.fileTree with
  | some (some _) => do
      match ← fatTreeNodeSearch s key with
      | none => some (none, s.setErrno Errno.einval)
      | some node => do
          let n ← s.nodes.get node
          some (some n.data, s)
  | _ => some (none, s)

/-- `fat_tree_get_file` of a node that is not null. -/
def fatTreeGetFile (s : FsState) (node : ℕ) : Option ℕ := do
  let n ← s.nodes.get node
  some n.data

/-- `fat_tree_get_parent` of a node that is not null: a node without parent gives
a null file and sets `errno`. -/
def fatTreeGetParent (s : FsState) (node : ℕ) : Option (Option ℕ × FsState) := do
  let n ← s.nodes.get node
  match n.hParent with
  | none => some (none, s.setErrno Errno.einval)
  | some parent => do
      let p ← s.nodes.get parent
      some (some p.data, s)

def fatTreeIncNumTimesOpened (s : FsState) (node : ℕ) : Option FsState := do
  let ancestors ← hTreeAncestors s.nodes (some node)
  FsState.modifyFiles fatFileIncNumTimesOpened ancestors s

def fatTreeDecNumTimesOpened (s : FsState) (node : ℕ) : Option FsState := do
  let ancestors ← hTreeAncestors s.nodes (some node)
  FsState.modifyFiles fatFileDecNumTimesOpened ancestors s

/-- `fat_file_destroy` of each file in turn. -/
def fatFileDestroyAll : List ℕ → Heap FatFile → Option (Heap FatFile)
  | [], files => some files
  | a :: as, files => do
      let files ← files.free a
      fatFileDestroyAll as files

/-- `fat_tree_delete` on `vol->file_tree`. -/
def fatTreeDelete (s : FsState) (key : CString) : Option FsState :=
  match s.fileTree with
  | none => some (s.setErrno Errno.einval)
  | some none => some s
  | some (some root) => do
      let (m, root) ← hTreeDelete (fatFileCmpPath s.files)
        { nodes := s.nodes, errno := s.errno, destroyed := [] } (some root) key
      let files ← fatFileDestroyAll m.destroyed s.files
      some
        { s.setErrno m.errno with
          files := files, nodes := m.nodes, fileTree := some root }

/-- `fat_tree_print_preorder`: the paths it prints. -/
def fatTreePrintPreorder (s : FsState) : Option (List CString) :=
  match s.fileTree with
  | none => some []
  | some root => do
      let files ← hTreePreorder s.nodes root
      files.mapM fun a => do
        let file ← s.files.get a
        some file.filepath

/-- `fat_tree_flatten_h_children`.  The array has room for `nentries` files and the null
pointer behind them; more children are a fault.  A node of size 0 gives a null array,
which every caller reads. -/
def fatTreeFlattenHChildren (s : FsState) (dirNode : ℕ) : Option (List ℕ) := do
  let size ← hTreeSize s.nodes (some dirNode)
  if size = 0 then none
  else
    let n ← s.nodes.get dirNode
    let f ← s.files.get n.data
    let children ← hTreeFlattenHChildren s.nodes dirNode
    if children.length ≤ f.nentries then some children else none

theorem fatTreeFlattenHChildren_eq_some {s : FsState} {dirNode : ℕ} {children : List ℕ}
    (h : fatTreeFlattenHChildren s dirNode = some children) :
    ∃ n f, s.nodes.get dirNode = some n ∧ s.files.get n.data = some f ∧
      hTreeFlattenHChildren s.nodes dirNode = some children ∧ children.length ≤ f.nentries := by
  simp only [fatTreeFlattenHChildren, Option.bind_eq_bind, Option.bind_eq_some_iff] at h
  obtain ⟨size, -, h⟩ := h
  split at h
  · contradiction
  · simp only [Option.bind_eq_some_iff] at h
    obtain ⟨n, hn, f, hf, children', hchildren, h⟩ := h
    split at h
    · rename_i hfits
      obtain rfl := Option.some.inj h
      exact ⟨n, f, hn, hf, hchildren, hfits⟩
    · contradiction

end SistOp.FatFuse
