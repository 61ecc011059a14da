import SistOp.InsertedKeys
import SistOp.LinkedCells
import SistOp.LogDirectory
import Mathlib.Tactic

/-!
# The children that a listing shows

`Shows s node names` says which names `fat_fuse_readdir` passes on for the children of a
node.  An insertion below the node puts one name in front, unless the tree has the path
or the path is the hidden `/bb`; what the driver does for its log leaves the children of
other directories alone.
-/

namespace SistOp.FatFuse

variable {t : FatTable} {env : FuseEnv}

/-! ## Insertion of a file -/

theorem strcmp_swap (xs ys : CString) : (strcmp xs ys).swap = strcmp ys xs := by
  induction xs generalizing ys with
  | nil => cases ys <;> rfl
  | cons x xs ih =>
      cases ys with
      | nil => rfl
      | cons y ys =>
          by_cases hlt : x < y
          · have hgt : ¬ y < x := fun h => absurd (UInt8.lt_trans hlt h) (UInt8.lt_irrefl x)
            simp [strcmp, hlt, hgt]
          · by_cases hgt : y < x
            · simp [strcmp, hlt, hgt]
            · simpa [strcmp, hlt, hgt] using ih ys

/-- Every path that `s` compares is one of `s'`. -/
def PathsKept (files files' : Heap FatFile) : Prop :=
  ∀ a f, files.get a = some f → ∃ f', files'.get a = some f' ∧ f'.filepath = f.filepath

theorem PathsKept.cmp {files files' : Heap FatFile} (h : PathsKept files files')
    {key : CString} (x : ℕ) (o : Ordering) (ho : fatFileCmpPath files x key = some o) :
    fatFileCmpPath files' x key = some o := by
  simp only [fatFileCmpPath, Option.bind_eq_bind, Option.bind_eq_some_iff,
    Option.some.injEq] at ho ⊢
  obtain ⟨f, hf, rfl⟩ := ho
  obtain ⟨f', hf', hpath⟩ := h x f hf
  exact ⟨f', hf', by rw [hpath]⟩

theorem pathsKept_alloc (files : Heap FatFile) (file : FatFile) :
    PathsKept files (files.alloc file) :=
  fun _ f hf => ⟨f, Heap.get_alloc_of_live file hf, rfl⟩

/-- A search that failed fails with more files too. -/
theorem fatTreeNodeSearch_mono {s s' : FsState} (hnodes : s'.nodes = s.nodes)
    (htree : s'.fileTree = s.fileTree) (hfiles : PathsKept s.files s'.files)
    {key : CString} {found : HTree} (h : fatTreeNodeSearch s key = some found) :
    fatTreeNodeSearch s' key = some found := by
  simp only [fatTreeNodeSearch, hTreeSearch, Option.bind_eq_bind, Option.bind_eq_some_iff] at h ⊢
  obtain ⟨root, hroot, h⟩ := h
  rw [htree, hnodes]
  exact ⟨root, hroot, hTreeSearchLoop_mono hfiles.cmp h⟩

theorem fatTreeNodeSearch_allocFile {s : FsState} (file : FatFile) {key : CString}
    {found : HTree} (h : fatTreeNodeSearch s key = some found) :
    fatTreeNodeSearch (s.allocFile file) key = some found := by
  have hnodes : (s.allocFile file).nodes = s.nodes := rfl
  exact fatTreeNodeSearch_mono hnodes rfl (pathsKept_alloc s.files file) h

/-- What inserting the new file of `s.allocFile file` below `parent` leads to. -/
structure PathInserted (s s' : FsState) (file : FatFile) (parent : HTree) : Prop where
  known_or_added :
    (∃ node, fatTreeNodeSearch (s.allocFile file) file.filepath = some (some node)) ∧
        SameHierarchy s.nodes s'.nodes ∨
      fatTreeNodeSearch (s.allocFile file) file.filepath = some none ∧
        fatTreeNodeSearch s' file.filepath = some (some s.nodes.next) ∧
        ∃ added, NodeAdded s.nodes added s.files.next parent ∧ SameHierarchy added s'.nodes
  absent : ∀ key, key ≠ file.filepath → fatTreeNodeSearch s key = some none →
    fatTreeNodeSearch s' key = some none

theorem pathInserted_of_eq_some {s s' : FsState} {file : FatFile} {parent root root' : HTree}
    (hroot : s.fileTree = some root)
    (h : hTreeInsert (fatFileCmp (s.files.alloc file)) s.nodes root s.files.next parent =
      some (s'.nodes, root'))
    (htree : s'.fileTree = some root')
    (hfiles : PathsKept (s.files.alloc file) s'.files) : PathInserted s s' file parent := by
  have hnew : (s.files.alloc file).get s.files.next = some file := Heap.get_alloc_self _ _
  have hmirror : ∀ x o, fatFileCmp (s.files.alloc file) s.files.next x = some o →
      fatFileCmpPath (s.files.alloc file) x file.filepath = some o.swap := by
    intro x o ho
    simp only [fatFileCmp, fatFileCmpPath, hnew, Option.bind_eq_bind, Option.bind_some,
      Option.bind_eq_some_iff, Option.some.injEq] at ho ⊢
    obtain ⟨f, hf, rfl⟩ := ho
    exact ⟨f, hf, (strcmp_swap _ _).symm⟩
  have hself : fatFileCmpPath (s.files.alloc file) s.files.next file.filepath = some .eq := by
    simp [fatFileCmpPath, hnew, (strcmp_eq_iff _ _).mpr rfl]
  have hgrown := (hTreeInsert_eq_some h).grown
  have hfuel : s.nodes.next + 1 ≤ s'.nodes.next + 1 := Nat.succ_le_succ hgrown.next_le
  have halloc : fatTreeNodeSearch (s.allocFile file) file.filepath =
      hTreeSearchLoop (fatFileCmpPath (s.files.alloc file)) s.nodes file.filepath
        (s.nodes.next + 1) root := by
    simp [fatTreeNodeSearch, FsState.allocFile, hroot, hTreeSearch]
  rcases hTreeInsertLoop_key hmirror hself h with hknown | hadded
  · obtain ⟨node, hnode⟩ := hknown.found
    refine ⟨Or.inl ⟨⟨node, halloc.trans hnode⟩, hknown.hierarchy⟩, fun key _ habsent => ?_⟩
    simp only [fatTreeNodeSearch, hroot, htree, hTreeSearch, Option.bind_eq_bind,
      Option.bind_some] at habsent ⊢
    rw [hknown.hierarchy.next, hknown.keepsRoot]
    have hmore := hTreeSearchLoop_mono (pathsKept_alloc s.files file).cmp habsent
    exact hTreeSearchLoop_mono hfiles.cmp
      (hknown.links.absent hknown.hierarchy hmore)
  · obtain ⟨added, hnode, hsame⟩ := hadded.hierarchy
    have hnext : s'.nodes.next = s.nodes.next + 1 := hsame.next.trans hnode.next
    refine ⟨Or.inr ⟨halloc.trans hadded.absent, ?_, added, hnode, hsame⟩,
      fun key hkey habsent => ?_⟩
    · simp only [fatTreeNodeSearch, htree, hTreeSearch, Option.bind_eq_bind, Option.bind_some]
      exact hTreeSearchLoop_more (TreeGrown.refl _) hfuel hfiles.cmp hadded.found
    · simp only [fatTreeNodeSearch, hroot, htree, hTreeSearch, Option.bind_eq_bind,
        Option.bind_some] at habsent ⊢
      obtain ⟨n, hn, -, -, -, hdata, -⟩ := hnode.new
      obtain ⟨n', hn', hlinks⟩ := hsame.get hn
      have hdata' : n'.data = s.files.next := ((Prod.mk.inj hlinks).1).trans hdata
      have hmore := hTreeSearchLoop_mono (pathsKept_alloc s.files file).cmp habsent
      have hcmp : fatFileCmpPath (s.files.alloc file) n'.data key =
          some (strcmp file.filepath key) := by
        simp [fatFileCmpPath, hdata', hnew]
      have hne : strcmp file.filepath key ≠ .eq := fun heq =>
        hkey ((strcmp_eq_iff _ _).mp heq).symm
      rw [hnext]
      exact hTreeSearchLoop_mono hfiles.cmp
        (hadded.links.absent hgrown hn' hcmp hne hadded.keepsRoot hmore)

theorem pathInserted_of_fatTreeInsert {s s' : FsState} {file : FatFile} {parent root : HTree}
    (hroot : s.fileTree = some root)
    (h : fatTreeInsert (s.allocFile file) parent (some s.files.next) = some s') :
    PathInserted s s' file parent := by
  obtain ⟨nodes, root', hinsert, rfl⟩ :=
    fatTreeInsert_eq_some (s := s.allocFile file) hroot h
  exact pathInserted_of_eq_some hroot hinsert rfl fun a f hf => ⟨f, hf, rfl⟩

/-! ## Shown names -/

/-- The listing shows the name of a child, unless it is the hidden directory. -/
def shownName (f : FatFile) : List CString :=
  if f.filepath ≠ bbDirname then [f.name] else []

/-- The node `c` carries the file `f`. -/
def Carries (s : FsState) (c : ℕ) (f : FatFile) : Prop :=
  ∃ m, s.nodes.get c = some m ∧ s.files.get m.data = some f

/-- The children of `node`, first to last, have the shown names `names`. -/
def Shows (s : FsState) (node : ℕ) (names : List CString) : Prop :=
  ∃ n cs files, s.nodes.get node = some n ∧
    s.nodes.ListFrom HNode.hNextSibling n.hChildren cs ∧
    List.Forall₂ (Carries s) cs files ∧ names = files.flatMap shownName

/-- The path of a file and its name. -/
def FatFile.label (f : FatFile) : CString × CString := (f.filepath, f.name)

def shownLabel (label : CString × CString) : List CString :=
  if label.1 ≠ bbDirname then [label.2] else []

/-- The children of `node`, first to last, have the labels; the hidden directory counts. -/
def Labelled (s : FsState) (node : ℕ) (labels : List (CString × CString)) : Prop :=
  ∃ n cs files, s.nodes.get node = some n ∧
    s.nodes.ListFrom HNode.hNextSibling n.hChildren cs ∧
    List.Forall₂ (Carries s) cs files ∧ labels = files.map FatFile.label

theorem flatMap_shownLabel (files : List FatFile) :
    (files.map FatFile.label).flatMap shownLabel = files.flatMap shownName := by
  rw [List.flatMap_map]
  rfl

theorem Labelled.shows {s : FsState} {node : ℕ} {labels : List (CString × CString)}
    (h : Labelled s node labels) : Shows s node (labels.flatMap shownLabel) := by
  obtain ⟨n, cs, files, hn, hlist, hfiles, rfl⟩ := h
  exact ⟨n, cs, files, hn, hlist, hfiles, flatMap_shownLabel files⟩

theorem Shows.exists_labelled {s : FsState} {node : ℕ} {names : List CString}
    (h : Shows s node names) :
    ∃ labels, Labelled s node labels ∧ names = labels.flatMap shownLabel := by
  obtain ⟨n, cs, files, hn, hlist, hfiles, rfl⟩ := h
  exact ⟨_, ⟨n, cs, files, hn, hlist, hfiles, rfl⟩, (flatMap_shownLabel files).symm⟩

theorem Labelled.unique {s : FsState} {node : ℕ} {labels labels' : List (CString × CString)}
    (h : Labelled s node labels) (h' : Labelled s node labels') : labels = labels' := by
  obtain ⟨n, cs, files, hn, hlist, hfiles, rfl⟩ := h
  obtain ⟨n', cs', files', hn', hlist', hfiles', rfl⟩ := h'
  obtain rfl := Option.some.inj (hn.symm.trans hn')
  obtain rfl := hlist.unique hlist'
  have hsame : Relator.RightUnique (Carries s) := by
    rintro c f f' ⟨m, hm, hf⟩ ⟨m', hm', hf'⟩
    obtain rfl := Option.some.inj (hm.symm.trans hm')
    exact Option.some.inj (hf.symm.trans hf')
  rw [List.right_unique_forall₂' hsame hfiles hfiles']

/-- A filler that takes every name. -/
def takesAll : FillDir := fun _ _ => false

theorem hChildrenLoop_listFrom {nodes : Heap (HNode ℕ)} {fuel : ℕ} {start : HTree}
    {cs ds : List ℕ} (hlist : nodes.ListFrom HNode.hNextSibling start cs)
    (h : hChildrenLoop nodes fuel start = some ds) :
    List.Forall₂ (fun c d => ∃ m, nodes.get c = some m ∧ m.data = d) cs ds := by
  induction cs generalizing start fuel ds with
  | nil =>
      cases fuel with
      | zero => simp [hChildrenLoop] at h
      | succ fuel =>
          rw [show start = none from hlist, hChildrenLoop, Option.some.injEq] at h
          subst h
          exact List.Forall₂.nil
  | cons c cs ih =>
      cases fuel with
      | zero => simp [hChildrenLoop] at h
      | succ fuel =>
          obtain ⟨rfl, m, hm, hrest⟩ := hlist
          simp only [hChildrenLoop, hm, Option.bind_eq_bind, Option.bind_some,
            Option.bind_eq_some_iff, Option.some.injEq] at h
          obtain ⟨rest, hloop, rfl⟩ := h
          exact List.Forall₂.cons ⟨m, hm, rfl⟩ (ih hrest hloop)

theorem fillChildren_takesAll {s : FsState} {cs ds : List ℕ} {files : List FatFile}
    (hdata : List.Forall₂ (fun c d => ∃ m, s.nodes.get c = some m ∧ m.data = d) cs ds)
    (hfiles : List.Forall₂ (Carries s) cs files) (names : List CString) :
    fillChildren takesAll s ds names = some (names ++ files.flatMap shownName, false) := by
  induction hdata generalizing files names with
  | nil =>
      cases hfiles
      simp [fillChildren]
  | cons hd hrest ih =>
      cases hfiles with
      | cons hf hfiles =>
          obtain ⟨m, hm, rfl⟩ := hd
          obtain ⟨m', hm', hf⟩ := hf
          obtain rfl := Option.some.inj (hm.symm.trans hm')
          simp only [fillChildren, hf, Option.bind_eq_bind, Option.bind_some]
          rename_i f _
          by_cases hbb : f.filepath = bbDirname
          · simp [hbb, shownName, ih hfiles]
          · simp [hbb, shownName, takesAll, ih hfiles]

/-- What a listing passes on for the children. -/
theorem Shows.fill {s : FsState} {node : ℕ} {names : List CString} (h : Shows s node names)
    {children : List ℕ} (hflatten : fatTreeFlattenHChildren s node = some children)
    (front : List CString) :
    fillChildren takesAll s children front = some (front ++ names, false) := by
  obtain ⟨n, cs, files, hn, hlist, hfiles, rfl⟩ := h
  obtain ⟨-, -, -, -, hloop, -⟩ := fatTreeFlattenHChildren_eq_some hflatten
  simp only [hTreeFlattenHChildren, hn, Option.bind_eq_bind, Option.bind_some] at hloop
  exact fillChildren_takesAll (hChildrenLoop_listFrom hlist hloop) hfiles front

/-! ## What leaves the children alone -/

/-- The files of `s` are still there, under their paths and names. -/
def NamesKept (files files' : Heap FatFile) : Prop :=
  ∀ a f, files.get a = some f →
    ∃ f', files'.get a = some f' ∧ f'.filepath = f.filepath ∧ f'.name = f.name

/-- The nodes of `s` and the children of `node` are still there in `s'`. -/
structure DirKept (node : ℕ) (s s' : FsState) : Prop where
  grown : TreeGrown s.nodes s'.nodes
  children : (s'.nodes.get node).map HNode.hChildren = (s.nodes.get node).map HNode.hChildren
  files : NamesKept s.files s'.files

theorem namesKept_refl (files : Heap FatFile) : NamesKept files files :=
  fun _ f hf => ⟨f, hf, rfl, rfl⟩

theorem NamesKept.trans {files files' files'' : Heap FatFile} (h : NamesKept files files')
    (h' : NamesKept files' files'') : NamesKept files files'' := by
  intro a f hf
  obtain ⟨f', hf', hpath, hname⟩ := h a f hf
  obtain ⟨f'', hf'', hpath', hname'⟩ := h' a f' hf'
  exact ⟨f'', hf'', hpath'.trans hpath, hname'.trans hname⟩

theorem namesKept_alloc (files : Heap FatFile) (file : FatFile) :
    NamesKept files (files.alloc file) :=
  fun _ f hf => ⟨f, Heap.get_alloc_of_live file hf, rfl, rfl⟩

theorem NamesKept.write {files files' : Heap FatFile} {a : ℕ} {f f' : FatFile}
    (hf : files.get a = some f) (hwrite : files.write a f' = some files')
    (hpath : f'.filepath = f.filepath) (hname : f'.name = f.name) :
    NamesKept files files' := by
  obtain ⟨-, -, hself, hothers⟩ := Heap.write_eq_some hwrite
  intro b g hg
  by_cases hb : b = a
  · subst hb
    obtain rfl := Option.some.inj (hf.symm.trans hg)
    exact ⟨f', hself, hpath, hname⟩
  · exact ⟨g, (hothers b hb).trans hg, rfl, rfl⟩

theorem parentAfter_name (p : FatFile) (errno : ℤ) :
    (parentAfter p errno).filepath = p.filepath ∧ (parentAfter p errno).name = p.name := by
  unfold parentAfter
  split <;> exact ⟨rfl, rfl⟩

/-- A creation renames no file. -/
theorem made_namesKept {s : FsState} {addr : ℕ} {p file : FatFile} {errno : ℤ}
    {files₁ files₂ : Heap FatFile} (hlive : s.files.get addr = some p)
    (hwriteParent : (s.files.alloc file).write addr (parentAfter p errno) = some files₁)
    (hwriteChild : files₁.write s.files.next (placedChild p file) = some files₂) :
    NamesKept (s.files.alloc file) files₂ := by
  have hparent := parentAfter_name p errno
  have hne : s.files.next ≠ addr := (ne_of_lt (Heap.lt_next hlive)).symm
  have hnew : files₁.get s.files.next = some file := by
    obtain ⟨-, -, -, hothers⟩ := Heap.write_eq_some hwriteParent
    rw [hothers _ hne]
    exact Heap.get_alloc_self s.files file
  exact (NamesKept.write (Heap.get_alloc_of_live file hlive) hwriteParent hparent.1
    hparent.2).trans (NamesKept.write hnew hwriteChild rfl rfl)

theorem siblings_kept {nodes nodes' : Heap (HNode ℕ)} (hgrown : TreeGrown nodes nodes')
    {start : HTree} {cs : List ℕ} (hlist : nodes.ListFrom HNode.hNextSibling start cs) :
    nodes'.ListFrom HNode.hNextSibling start cs := by
  apply hlist.congr
  intro c hc
  obtain ⟨m, hm⟩ := hlist.live hc
  obtain ⟨m', hm', hsame⟩ := hgrown.node c m hm
  rw [hm, hm', Option.map_some, Option.map_some, hsame.hNextSibling]

theorem carries_kept {s s' : FsState} (hgrown : TreeGrown s.nodes s'.nodes)
    (hkept : NamesKept s.files s'.files) {cs : List ℕ} {files : List FatFile}
    (h : List.Forall₂ (Carries s) cs files) :
    ∃ files', List.Forall₂ (Carries s') cs files' ∧
      files'.map FatFile.label = files.map FatFile.label := by
  induction h with
  | nil => exact ⟨[], .nil, rfl⟩
  | cons hf _ ih =>
      obtain ⟨files', hfiles', hnames⟩ := ih
      obtain ⟨m, hm, hf⟩ := hf
      obtain ⟨m', hm', hsame⟩ := hgrown.node _ m hm
      obtain ⟨f', hf', hpath, hname⟩ := hkept _ _ hf
      refine ⟨f' :: files', .cons ⟨m', hm', by rw [hsame.data]; exact hf'⟩ hfiles', ?_⟩
      rw [List.map_cons, List.map_cons, hnames, FatFile.label, FatFile.label, hpath, hname]

section DirKept

variable {node : ℕ} {s s' s'' : FsState}

theorem DirKept.of_nodes (hnodes : s'.nodes = s.nodes) (hfiles : NamesKept s.files s'.files) :
    DirKept node s s' :=
  ⟨hnodes ▸ TreeGrown.refl _, by rw [hnodes], hfiles⟩

theorem DirKept.refl (node : ℕ) (s : FsState) : DirKept node s s :=
  DirKept.of_nodes rfl (namesKept_refl _)

theorem DirKept.trans (h : DirKept node s s') (h' : DirKept node s' s'') :
    DirKept node s s'' :=
  ⟨h.grown.trans h'.grown, h'.children.trans h.children, h.files.trans h'.files⟩

theorem DirKept.of_vol (node : ℕ) (s : FsState) (v : Volume) :
    DirKept node s { s with vol := v } := DirKept.of_nodes rfl (namesKept_refl _)

theorem DirKept.allocResult (node : ℕ) (s : FsState) (r : Option FatFile × Volume) :
    DirKept node s (allocResult s r).2 := by
  obtain ⟨file | file, v⟩ := r
  · exact DirKept.of_vol node s v
  · exact DirKept.of_nodes rfl (namesKept_alloc _ _)

theorem DirKept.sameHierarchy (hgrown : TreeGrown s.nodes s'.nodes)
    (hsame : SameHierarchy s.nodes s'.nodes) (hfiles : NamesKept s.files s'.files) :
    DirKept node s s' := by
  refine ⟨hgrown, ?_, hfiles⟩
  have hlinks := congrArg (Option.map fun x : ℕ × HTree × HTree × HTree => x.2.2.2)
    (hsame.links node)
  simpa [Option.map_map, Function.comp_def, HNode.links] using hlinks

/-- The children keep their nodes, labels and order. -/
theorem DirKept.labelled (h : DirKept node s s') {labels : List (CString × CString)}
    (hlabels : Labelled s node labels) : Labelled s' node labels := by
  obtain ⟨n, cs, files, hn, hlist, hfiles, rfl⟩ := hlabels
  have hchildren := h.children
  rw [hn, Option.map_some, Option.map_eq_some_iff] at hchildren
  obtain ⟨n', hn', hfirst⟩ := hchildren
  obtain ⟨files', hfiles', hnames⟩ := carries_kept h.grown h.files hfiles
  refine ⟨n', cs, files', hn', ?_, hfiles', hnames.symm⟩
  rw [hfirst]
  exact siblings_kept h.grown hlist

theorem DirKept.shows (h : DirKept node s s') {names : List CString}
    (hshows : Shows s node names) : Shows s' node names := by
  obtain ⟨labels, hlabels, rfl⟩ := hshows.exists_labelled
  exact (h.labelled hlabels).shows

/-- A new node below `node` is the first child. -/
theorem Labelled.added {added : Heap (HNode ℕ)} {file : FatFile}
    {labels : List (CString × CString)} (h : Labelled s node labels)
    (hadded : NodeAdded s.nodes added s.files.next (some node))
    (hsame : SameHierarchy added s'.nodes) (hgrown : TreeGrown s.nodes s'.nodes)
    (hkept : NamesKept (s.files.alloc file) s'.files) :
    Labelled s' node (file.label :: labels) := by
  obtain ⟨n, cs, files, hn, hlist, hfiles, rfl⟩ := h
  obtain ⟨n', hn', hlinks⟩ := hsame.get (hadded.parent node n rfl hn)
  obtain ⟨m, hm, -, -, -, hdata, -, -, hsibling⟩ := hadded.new
  obtain ⟨m', hm', hlinks'⟩ := hsame.get hm
  obtain ⟨f', hf', hpath, hname⟩ := hkept _ file (Heap.get_alloc_self _ _)
  obtain ⟨files', hfiles', hnames⟩ :=
    carries_kept hgrown ((namesKept_alloc _ file).trans hkept) hfiles
  have hfirst : n'.hChildren = some s.nodes.next := congrArg (fun x => x.2.2.2) hlinks
  have hnext : m'.hNextSibling = n.hChildren := by
    have hkeep : m'.hNextSibling = m.hNextSibling := congrArg (fun x => x.2.2.1) hlinks'
    rw [hkeep, hsibling, Option.bind_some, hn, Option.bind_some]
  have hdata' : m'.data = s.files.next :=
    (congrArg (fun x => x.1) hlinks').trans hdata
  refine ⟨n', s.nodes.next :: cs, f' :: files', hn', ⟨hfirst, m', hm', ?_⟩,
    .cons ⟨m', hm', by rw [hdata']; exact hf'⟩ hfiles', ?_⟩
  · rw [hnext]
    exact siblings_kept hgrown hlist
  · rw [List.map_cons, hnames, FatFile.label, FatFile.label, hpath, hname]

theorem Shows.added {added : Heap (HNode ℕ)} {file : FatFile} {names : List CString}
    (h : Shows s node names) (hadded : NodeAdded s.nodes added s.files.next (some node))
    (hsame : SameHierarchy added s'.nodes) (hgrown : TreeGrown s.nodes s'.nodes)
    (hkept : NamesKept (s.files.alloc file) s'.files) :
    Shows s' node (shownName file ++ names) := by
  obtain ⟨labels, hlabels, rfl⟩ := h.exists_labelled
  exact (hlabels.added hadded hsame hgrown hkept).shows

/-- `node` carries a file with the path `path`. -/
def NodePath (s : FsState) (node : ℕ) (path : CString) : Prop :=
  ∃ n f, NodeFile s node n f ∧ f.filepath = path

theorem DirKept.nodePath {other : ℕ} {path : CString} (h : DirKept node s s')
    (hpath : NodePath s other path) : NodePath s' other path := by
  obtain ⟨n, f, hf, rfl⟩ := hpath
  obtain ⟨n', hn', hgrown⟩ := h.grown.node other n hf.node
  obtain ⟨f', hf', hpath, -⟩ := h.files n.data f hf.live
  exact ⟨n', f', ⟨hn', by rw [hgrown.data]; exact hf'⟩, hpath⟩

/-- A search for another path does not find the node. -/
theorem NodePath.search_ne {path key : CString} (h : NodePath s node path)
    {found : HTree} (hfound : fatTreeNodeSearch s key = some found) (hne : key ≠ path) :
    found ≠ some node := by
  rintro rfl
  obtain ⟨n, f, hf, rfl⟩ := h
  obtain ⟨n', f', hn', hf', rfl⟩ := fatTreeNodeSearch_found hfound
  obtain rfl := Option.some.inj (hn'.symm.trans hf.node)
  obtain rfl := Option.some.inj (hf'.symm.trans hf.live)
  exact hne rfl

theorem InsertedOnce.dirKept {newData : ℕ} {parent : HTree}
    (h : InsertedOnce s.nodes s'.nodes newData parent)
    (hgrown : TreeGrown s.nodes s'.nodes) (hfiles : NamesKept s.files s'.files)
    (hparent : parent ≠ some node) (hlive : ∃ n, s.nodes.get node = some n) :
    DirKept node s s' := by
  rcases h with hsame | ⟨added, hadded, hsame⟩
  · exact DirKept.sameHierarchy hgrown hsame hfiles
  · obtain ⟨n, hn⟩ := hlive
    have hothers := hadded.others node (ne_of_lt (Heap.lt_next hn)) hparent
    have hlinks := congrArg (Option.map fun x : ℕ × HTree × HTree × HTree => x.2.2.2)
      (hsame.links node)
    rw [hothers] at hlinks
    refine ⟨hgrown, ?_, hfiles⟩
    simpa [Option.map_map, Function.comp_def, HNode.links] using hlinks

/-- Inserting below another node. -/
theorem fatTreeInsert_dirKept {parent : HTree} {newFile : Option ℕ} {path : CString}
    (h : fatTreeInsert s parent newFile = some s') (hparent : parent ≠ some node)
    (hpath : NodePath s node path) : DirKept node s s' := by
  obtain ⟨n, f, hf, -⟩ := hpath
  cases hroot : s.fileTree with
  | none =>
      simp only [fatTreeInsert, hroot, Option.some.injEq] at h
      subst h
      exact DirKept.of_nodes rfl (namesKept_refl _)
  | some root =>
      cases newFile with
      | none =>
          simp only [fatTreeInsert, hroot, Option.some.injEq] at h
          subst h
          exact DirKept.of_nodes rfl (namesKept_refl _)
      | some file =>
          obtain ⟨nodes, root', hinsert, rfl⟩ := fatTreeInsert_eq_some hroot h
          have hdone := hTreeInsert_eq_some hinsert
          exact InsertedOnce.dirKept (s := s) hdone.hierarchy hdone.grown (namesKept_refl _)
            hparent ⟨n, hf.node⟩

theorem insertChildren_dirKept {parent : HTree} {children : List FatFile} {path : CString}
    (h : insertChildren parent children s = some s') (hparent : parent ≠ some node)
    (hpath : NodePath s node path) : DirKept node s s' := by
  induction children generalizing s with
  | nil =>
      obtain rfl := Option.some.inj h
      exact DirKept.refl node s
  | cons file rest ih =>
      simp only [insertChildren, Option.bind_eq_bind, Option.bind_eq_some_iff] at h
      obtain ⟨s₁, hinsert, h⟩ := h
      have halloc : DirKept node s (s.allocFile file) :=
        DirKept.of_nodes rfl (namesKept_alloc _ _)
      have hkept := halloc.trans
        (fatTreeInsert_dirKept hinsert hparent (halloc.nodePath hpath))
      exact hkept.trans (ih h (hkept.nodePath hpath))

/-- Children that the tree knows are inserted without effect. -/
theorem insertChildren_known {children : List FatFile}
    (h : insertChildren (some node) children s = some s')
    (hknown : ∀ child ∈ children, ∃ a, fatTreeNodeSearch s child.filepath = some (some a)) :
    DirKept node s s' := by
  induction children generalizing s with
  | nil =>
      obtain rfl := Option.some.inj h
      exact DirKept.refl node s
  | cons file rest ih =>
      simp only [insertChildren, Option.bind_eq_bind, Option.bind_eq_some_iff] at h
      obtain ⟨s₁, hinsert, h⟩ := h
      obtain ⟨a, ha⟩ := hknown file (by simp)
      have hroot := ha
      simp only [fatTreeNodeSearch, Option.bind_eq_bind, Option.bind_eq_some_iff] at hroot
      obtain ⟨root, hroot, -⟩ := hroot
      have hgrown : FsGrown s s₁ :=
        (FsGrown.allocFile s file).trans (FsGrown.insert (s := s.allocFile file) hroot hinsert)
      obtain ⟨nodes, root', -, hs₁⟩ :=
        fatTreeInsert_eq_some (s := s.allocFile file) hroot hinsert
      have hkept : NamesKept s.files s₁.files := by
        rw [hs₁]
        exact namesKept_alloc s.files file
      rcases (pathInserted_of_fatTreeInsert hroot hinsert).known_or_added with
        ⟨-, hsame⟩ | ⟨habsent, -⟩
      · refine (DirKept.sameHierarchy hgrown.nodes hsame hkept).trans (ih h fun child hchild => ?_)
        obtain ⟨b, hb⟩ := hknown child (List.mem_cons_of_mem _ hchild)
        exact ⟨b, hgrown.search hb⟩
      · rw [(FsGrown.allocFile s file).search ha] at habsent
        simp at habsent

theorem insertChildren_fileTree {parent : HTree} {children : List FatFile}
    (h : insertChildren parent children s = some s') (htree : s.fileTree ≠ none) :
    s'.fileTree ≠ none := by
  induction children generalizing s with
  | nil =>
      obtain rfl := Option.some.inj h
      exact htree
  | cons file rest ih =>
      simp only [insertChildren, Option.bind_eq_bind, Option.bind_eq_some_iff] at h
      obtain ⟨s₁, hinsert, h⟩ := h
      obtain ⟨root, hroot⟩ := Option.ne_none_iff_exists'.mp htree
      obtain ⟨nodes, root', -, rfl⟩ :=
        fatTreeInsert_eq_some (s := s.allocFile file) hroot hinsert
      exact ih h (by simp)

/-- The tree has the path. -/
def InTree (s : FsState) (path : CString) : Prop :=
  ∃ node, fatTreeNodeSearch s path = some (some node)

theorem FsGrown.inTree (h : FsGrown s s') {path : CString} (hpath : InTree s path) :
    InTree s' path := by
  obtain ⟨a, ha⟩ := hpath
  exact ⟨a, h.search ha⟩

/-- `added` are the files that inserting `children` below a node puts in front of its children:
one for each path that the tree lacks. -/
structure ChildrenAdded (s s' : FsState) (children added : List FatFile) : Prop where
  nodup : (added.map FatFile.filepath).Nodup
  subset : ∀ g ∈ added, g ∈ children
  new : ∀ g ∈ added, ¬ InTree s g.filepath
  missing : ∀ child ∈ children, fatTreeNodeSearch s child.filepath = some none →
    child.filepath ∈ added.map FatFile.filepath
  inTree : ∀ child ∈ children, InTree s' child.filepath

theorem insertChildren_added {children : List FatFile} {labels : List (CString × CString)}
    (h : insertChildren (some node) children s = some s') (hlabels : Labelled s node labels)
    (htree : s.fileTree ≠ none) :
    ∃ added, ChildrenAdded s s' children added ∧
      Labelled s' node (added.map FatFile.label ++ labels) := by
  induction children generalizing s labels with
  | nil =>
      obtain rfl := Option.some.inj h
      exact ⟨[], ⟨List.nodup_nil, by simp, by simp, by simp, by simp⟩, hlabels⟩
  | cons file rest ih =>
      simp only [insertChildren, Option.bind_eq_bind, Option.bind_eq_some_iff] at h
      obtain ⟨s₁, hinsert, h⟩ := h
      obtain ⟨root, hroot⟩ := Option.ne_none_iff_exists'.mp htree
      have halloc : FsGrown s (s.allocFile file) := FsGrown.allocFile s file
      have hinsertion : FsGrown (s.allocFile file) s₁ :=
        FsGrown.insert (s := s.allocFile file) hroot hinsert
      have hgrown : FsGrown s s₁ := halloc.trans hinsertion
      have hinserted := pathInserted_of_fatTreeInsert hroot hinsert
      obtain ⟨nodes, root', -, hs₁⟩ :=
        fatTreeInsert_eq_some (s := s.allocFile file) hroot hinsert
      have hfiles : s₁.files = s.files.alloc file := by rw [hs₁]; rfl
      have htree₁ : s₁.fileTree ≠ none := by rw [hs₁]; simp
      have hmono : fatTreeNodeSearch s file.filepath = some none →
          fatTreeNodeSearch (s.allocFile file) file.filepath = some none :=
        fatTreeNodeSearch_allocFile file
      have hrest : FsGrown s₁ s' :=
        (insertChildren_kept h).1.grown.resolve_left (insertChildren_fileTree h htree₁)
      have hnew : ∀ path, ¬ InTree s₁ path → ¬ InTree s path :=
        fun path habsent hpath => habsent (hgrown.inTree hpath)
      rcases hinserted.known_or_added with
        ⟨hknown, hsame⟩ | ⟨habsent, hfound, node', hadded, hsame⟩
      · have hkept : DirKept node s s₁ := DirKept.sameHierarchy hgrown.nodes hsame
          (by rw [hfiles]; exact namesKept_alloc s.files file)
        obtain ⟨added, hall, hlabels'⟩ := ih h (hkept.labelled hlabels) htree₁
        have hfile : InTree s' file.filepath := hrest.inTree (hinsertion.inTree hknown)
        refine ⟨added, ⟨hall.nodup, fun g hg => List.mem_cons_of_mem _ (hall.subset g hg),
          fun g hg => hnew _ (hall.new g hg), fun child hchild hnone => ?_, ?_⟩, hlabels'⟩
        · have hne : child.filepath ≠ file.filepath := by
            intro heq
            obtain ⟨a, ha⟩ := hknown
            rw [hmono (heq ▸ hnone)] at ha
            simp at ha
          rcases List.mem_cons.mp hchild with rfl | hchild
          · exact absurd rfl hne
          · exact hall.missing child hchild (hinserted.absent _ hne hnone)
        · simpa using ⟨hfile, hall.inTree⟩
      · have hlabels₁ := hlabels.added hadded hsame hgrown.nodes
          (by rw [hfiles]; exact namesKept_refl _)
        obtain ⟨added, hall, hlabels'⟩ := ih h hlabels₁ htree₁
        have hfile : InTree s₁ file.filepath := ⟨_, hfound⟩
        refine ⟨added ++ [file], ⟨?_, ?_, ?_, fun child hchild hnone => ?_, ?_⟩, ?_⟩
        · rw [List.map_append, List.map_singleton]
          refine List.Nodup.append hall.nodup (List.nodup_singleton _) ?_
          rw [List.disjoint_singleton]
          intro hmem
          obtain ⟨g, hg, hpath⟩ := List.mem_map.mp hmem
          exact hall.new g hg (hpath ▸ hfile)
        · intro g hg
          rcases List.mem_append.mp hg with hg | hg
          · exact List.mem_cons_of_mem _ (hall.subset g hg)
          · rw [List.mem_singleton.mp hg]
            exact List.mem_cons_self
        · intro g hg
          rcases List.mem_append.mp hg with hg | hg
          · exact hnew _ (hall.new g hg)
          · rw [List.mem_singleton.mp hg]
            intro hpath
            obtain ⟨a, ha⟩ := halloc.inTree hpath
            simp [habsent] at ha
        · rw [List.map_append, List.map_singleton, List.mem_append, List.mem_singleton]
          by_cases hpath : child.filepath = file.filepath
          · exact Or.inr hpath
          · rcases List.mem_cons.mp hchild with rfl | hchild
            · exact absurd rfl hpath
            · exact Or.inl (hall.missing child hchild (hinserted.absent _ hpath hnone))
        · simpa using ⟨hrest.inTree hfile, hall.inTree⟩
        · rw [List.map_append, List.map_singleton, List.append_assoc]
          exact hlabels'

/-- Inserting children below the node puts names in front, and none only if the tree has
every path that is not hidden. -/
theorem insertChildren_shows {children : List FatFile} {names : List CString}
    (h : insertChildren (some node) children s = some s') (hshows : Shows s node names)
    (htree : s.fileTree ≠ none) :
    ∃ more, Shows s' node (more ++ names) ∧
      (more = [] → ∀ child ∈ children, child.filepath ≠ bbDirname →
        fatTreeNodeSearch s child.filepath ≠ some none) := by
  obtain ⟨labels, hlabels, rfl⟩ := hshows.exists_labelled
  obtain ⟨added, hadded, hlabels'⟩ := insertChildren_added h hlabels htree
  have hshows' := hlabels'.shows
  rw [List.flatMap_append, flatMap_shownLabel] at hshows'
  refine ⟨added.flatMap shownName, hshows', fun hnone child hchild hvisible habsent => ?_⟩
  obtain ⟨g, hg, hpath⟩ := List.mem_map.mp (hadded.missing child hchild habsent)
  have hhidden := List.flatMap_eq_nil_iff.mp hnone g hg
  rw [shownName, if_pos (by rw [hpath]; exact hvisible)] at hhidden
  contradiction

end DirKept

/-! ## The log -/

section Log

variable {node : ℕ} {s s' : FsState} {path : CString} {r : ℤ} (hpath : NodePath s node path)
  (hroot : path ≠ rootPath) (hbb : path ≠ bbDirname)

include hpath

include hroot in
theorem bbCreateNewOrphanDir_dirKept (h : bbCreateNewOrphanDir t s = some (r, s')) :
    DirKept node s s' := by
  simp only [bbCreateNewOrphanDir, Option.bind_eq_bind, Option.bind_eq_some_iff, Prod.exists,
    Option.some.injEq, Prod.mk.injEq] at h
  obtain ⟨cluster, -, v₁, -, result, v₂, -, root, hsearch, s₁, hinsert, -, rfl⟩ := h
  have hfirst : DirKept node s _ := (DirKept.of_vol node s _).trans
    (DirKept.allocResult node (s.setErrno 0) (result, v₂))
  have hpath' := hfirst.nodePath hpath
  exact hfirst.trans (fatTreeInsert_dirKept hinsert (hpath'.search_ne hsearch hroot.symm) hpath')

include hroot hbb in
theorem bbLoadLogDir_dirKept {stack : ℤ → UInt8} {start : ℕ}
    (h : bbLoadLogDir t stack s start = some s') : DirKept node s s' := by
  simp only [bbLoadLogDir, Option.bind_eq_bind, Option.bind_eq_some_iff, Prod.exists] at h
  obtain ⟨result, v₁, -, rootNode, hroot', s₁, hinsert, dirNode, hdir', loaded, -, dir, hdir,
    dir', children, v₂, hlist, files, hwrite, h⟩ := h
  have hfirst : DirKept node s _ := (DirKept.allocResult node s (result, v₁)).trans
    (DirKept.of_vol node _ (fullPwrite (allocResult s (result, v₁)).2.vol
      (fullPread s.vol stack fatDirEntryByteSize (fatTableClusterOffset t start : ℕ)).2.1
      fatDirEntryByteSize (fatTableClusterOffset t start : ℕ)).2)
  have hpath₁ := hfirst.nodePath hpath
  have hsecond := hfirst.trans
    (fatTreeInsert_dirKept hinsert (hpath₁.search_ne hroot' hroot.symm) hpath₁)
  obtain ⟨-, e, b, rfl⟩ := fatFileReadChildren_reads hlist
  have hthird : DirKept node s { s₁ with vol := v₂, files := files } :=
    hsecond.trans (DirKept.of_nodes rfl (NamesKept.write hdir hwrite rfl rfl))
  have hpath₂ := hsecond.nodePath hpath
  exact hthird.trans (insertChildren_dirKept h (hpath₂.search_ne hdir' hbb.symm)
    (hthird.nodePath hpath))

include hroot hbb in
theorem bbInitLogDir_dirKept {stack : ℤ → UInt8} {start : ℕ}
    (h : bbInitLogDir t stack s start = some (r, s')) : DirKept node s s' := by
  unfold bbInitLogDir at h
  have hof := DirKept.of_vol node s (s.setErrno 0).vol
  by_cases hzero : start = 0
  · simp only [if_pos hzero, Option.bind_eq_bind, Option.bind_eq_some_iff, Prod.exists,
      Option.some.injEq, Prod.mk.injEq] at h
    obtain ⟨result, s₂, hcreate, s₁, rfl, -, rfl⟩ := h
    exact (hof.trans (bbCreateNewOrphanDir_dirKept (hof.nodePath hpath) hroot hcreate)).trans
      (DirKept.of_vol node s₂ _)
  · simp only [if_neg hzero, Option.bind_eq_bind, Option.bind_eq_some_iff,
      Option.some.injEq, Prod.mk.injEq] at h
    obtain ⟨s₁, h, -, rfl⟩ := h
    exact hof.trans (bbLoadLogDir_dirKept (hof.nodePath hpath) hroot hbb h)

/-- A creation in another directory. -/
theorem createEntry_dirKept [t.Formatted] {isDir : Bool} {failed : ℤ → Bool}
    (hfailed : failed 0 = false) {newPath : CString} (hdir : dirname newPath ≠ path)
    (h : createEntry t isDir failed s newPath = some (r, s')) : DirKept node s s' := by
  cases createEntry_outcome hfailed h with
  | noParent => exact DirKept.of_vol node s _
  | notDirectory => exact DirKept.of_vol node s _
  | initFailed => exact DirKept.of_vol node s _
  | made hat hdir' hinit hroot hinsert hentry hwriteParent hwriteChild =>
      rename_i parent addr p file v₁ v₂ root root' nodes' files₁ files₂
      have hdone := hTreeInsert_eq_some hinsert
      obtain ⟨n, f, hf, -⟩ := id hpath
      have hparent : some parent ≠ some node := hpath.search_ne hat.search hdir
      have hfiles : NamesKept s.files files₂ :=
        (namesKept_alloc s.files file).trans (made_namesKept hat.live hwriteParent hwriteChild)
      exact InsertedOnce.dirKept (s := s) hdone.hierarchy hdone.grown hfiles hparent
        ⟨n, hf.node⟩

include hroot hbb in
/-- What the driver does for its log. -/
theorem createLogFile_dirKept [t.Formatted] (h : createLogFile t env s = some (r, s')) :
    DirKept node s s' := by
  simp only [createLogFile, Option.bind_eq_bind, Option.bind_eq_some_iff, Prod.exists] at h
  obtain ⟨cluster, v₁, -, result, s₁, hinit, h⟩ := h
  have hof : DirKept node s { s.setErrno 0 with vol := v₁ } := DirKept.of_vol node s v₁
  have hfirst := hof.trans (bbInitLogDir_dirKept (hof.nodePath hpath) hroot hbb hinit)
  have hfirst' : DirKept node s (s₁.setErrno result) :=
    hfirst.trans (DirKept.of_vol node s₁ _)
  split at h
  · obtain rfl := (Prod.mk.inj (Option.some.inj h)).2
    exact hfirst'
  · split at h
    · simp only [Option.bind_eq_some_iff, Prod.exists] at h
      obtain ⟨mknod, s₂, hmknod, h⟩ := h
      have hdir : dirname bbLogFile ≠ path := by
        rw [dirname_bbLogFile]
        exact hbb.symm
      have hdone := hfirst'.trans
        (createEntry_dirKept (hfirst'.nodePath hpath) (by decide) hdir hmknod)
      split at h <;> obtain rfl := (Prod.mk.inj (Option.some.inj h)).2 <;> exact hdone
    · obtain rfl := (Prod.mk.inj (Option.some.inj h)).2
      exact hfirst'

end Log

/-! ## The chain of one cluster -/

/-- A cluster that ends a chain keeps its mark in the FAT. -/
def EndKept (c : ℕ) (v v' : Volume) : Prop :=
  v.fatMap c = fatClusterEndOfChainMax → v'.fatMap c = fatClusterEndOfChainMax

theorem EndKept.of_fatMap {c : ℕ} {v v' : Volume} (h : v'.fatMap = v.fatMap) :
    EndKept c v v' := by
  intro hend
  rw [h]
  exact hend

theorem EndKept.trans {c : ℕ} {v v' v'' : Volume} (h : EndKept c v v')
    (h' : EndKept c v' v'') : EndKept c v v'' := fun hend => h' (h hend)

theorem setNextCluster_endKept {v v' : Volume} {c d n : ℕ}
    (hne : v.fatMap c = fatClusterEndOfChainMax → d ≠ c)
    (h : fatTableSetNextCluster t v d n = some v') : EndKept c v v' := by
  intro hend
  rcases (setNextCluster_cases h).2.2.2 with ⟨-, hmap, -⟩ | ⟨-, -, hmap, -⟩
  · rw [hmap]
    exact hend
  · rw [hmap, Function.update_of_ne (hne hend).symm]
    exact hend

theorem searchBbOrphanDirCluster_endKept {stack : ℤ → UInt8} {v v' : Volume} {c d : ℕ}
    (h : searchBbOrphanDirCluster t stack v = some (d, v')) : EndKept c v v' := by
  simp only [searchBbOrphanDirCluster, Option.bind_eq_bind, Option.bind_eq_some_iff] at h
  obtain ⟨found, -, entry, hentry, h⟩ := h
  have hread := fullPread_reads v stack fatDirEntryByteSize (fatTableClusterOffset t found : ℕ)
  unfold fatMapRead at hentry
  split at hentry
  · obtain rfl := Option.some.inj hentry
    split at h
    · obtain ⟨-, rfl⟩ := Prod.mk.inj (Option.some.inj h)
      exact EndKept.of_fatMap rfl
    · rename_i hbad
      have hmark : v.fatMap found = fatClusterBadSector := by
        simpa [fatTableClusterIsBadSector] using hbad
      split at h
      · simp only [Option.bind_eq_some_iff, Option.some.injEq, Prod.mk.injEq] at h
        obtain ⟨v₁, hset, -, rfl⟩ := h
        refine (EndKept.of_fatMap hread.fatMap).trans (setNextCluster_endKept ?_ hset)
        rintro hend rfl
        rw [hread.fatMap, hmark] at hend
        exact absurd hend (by decide)
      · obtain ⟨-, rfl⟩ := Prod.mk.inj (Option.some.inj h)
        exact EndKept.of_fatMap hread.fatMap
  · contradiction

theorem fatFileInit_endKept [t.Formatted] {v v' : Volume} {isDir : Bool} {path : CString}
    {result : Option FatFile} {c : ℕ} (herrno : v.errno = 0)
    (h : fatFileInit t v isDir path = some (result, v')) : EndKept c v v' := by
  rcases (fatFileInit_eq_some herrno h).2 with ⟨-, -, -, hmap, -⟩ |
    ⟨d, file, -, -, hfree, -, -, -, -, -, -, -, -, -, hmap, -⟩
  · exact EndKept.of_fatMap hmap
  · intro hend
    have hne : c ≠ d := by
      rintro rfl
      rw [hfree] at hend
      exact absurd hend (by decide)
    rw [hmap, Function.update_of_ne hne]
    exact hend

theorem createEntry_endKept [t.Formatted] {isDir : Bool} {failed : ℤ → Bool}
    (hfailed : failed 0 = false) {s s' : FsState} {path : CString} {r : ℤ} {c : ℕ}
    (h : createEntry t isDir failed s path = some (r, s')) : EndKept c s.vol s'.vol := by
  cases createEntry_outcome hfailed h with
  | noParent => exact EndKept.of_fatMap rfl
  | notDirectory => exact EndKept.of_fatMap rfl
  | initFailed _ _ hinit =>
      have hkept := fatFileInit_endKept (c := c) (by rfl) hinit
      exact hkept
  | made _ _ hinit _ _ hentry =>
      have hkept := fatFileInit_endKept (c := c) (by rfl) hinit
      have hslot : EndKept c _ _ := EndKept.of_fatMap (writeDirEntry_cases hentry).2.1
      exact EndKept.trans (v := s.vol) hkept hslot

theorem bbLoadLogDir_fatMap {stack : ℤ → UInt8} {s s' : FsState} {start : ℕ}
    (h : bbLoadLogDir t stack s start = some s') : s'.vol.fatMap = s.vol.fatMap := by
  simp only [bbLoadLogDir, Option.bind_eq_bind, Option.bind_eq_some_iff, Prod.exists] at h
  obtain ⟨result, v₁, hinit, rootNode, -, s₁, hinsert, dirNode, -, loaded, -, dir, -, dir',
    children, v₂, hlist, files, -, h⟩ := h
  have hread := (fullPread_reads s.vol stack fatDirEntryByteSize
    (fatTableClusterOffset t start : ℕ)).fatMap
  have hmade := (fatFileInitOrphanDir_eq_some hinit).1.fatMap
  have hinserted := (fatTreeInsert_kept hinsert).2.fatMap
  have hlisted := (fatFileReadChildren_reads hlist).1.fatMap
  have hchildren := (insertChildren_kept h).2.fatMap
  rw [hchildren, hlisted, hinserted]
  simp only [fullPwrite, fullPwriteLoop_fatMap, allocResult_vol]
  exact hmade.trans hread

theorem bbCreateNewOrphanDir_endKept {s s' : FsState} {r : ℤ} {c : ℕ}
    (hc : c ≠ fatClusterEndOfChainMax) (h : bbCreateNewOrphanDir t s = some (r, s')) :
    EndKept c s.vol s'.vol := by
  simp only [bbCreateNewOrphanDir, Option.bind_eq_bind, Option.bind_eq_some_iff, Prod.exists,
    Option.some.injEq, Prod.mk.injEq] at h
  obtain ⟨cluster, hfree, v₁, hset, result, v₂, hinit, root, -, s₁, hinsert, rfl, rfl⟩ := h
  have hmade := (fatFileInitOrphanDir_eq_some hinit).1.fatMap
  have hinserted := (fatTreeInsert_kept hinsert).2.fatMap
  rw [allocResult_vol] at hinserted
  have hset' : EndKept c (s.setErrno 0).vol v₁ := by
    refine setNextCluster_endKept (fun hend hcluster => ?_) hset
    subst hcluster
    rcases getNextFreeCluster_eq_some hfree with ⟨-, hentry⟩ | hmax
    · rw [hentry] at hend
      exact absurd hend (by decide)
    · exact hc hmax
  have hrest : EndKept c v₁ s₁.vol := EndKept.of_fatMap (hinserted.trans hmade)
  exact fun hend => hrest (hset' hend)

theorem bbInitLogDir_endKept {stack : ℤ → UInt8} {s s' : FsState} {start c : ℕ} {r : ℤ}
    (hc : c ≠ fatClusterEndOfChainMax) (h : bbInitLogDir t stack s start = some (r, s')) :
    EndKept c s.vol s'.vol := by
  unfold bbInitLogDir at h
  by_cases hzero : start = 0
  · simp only [if_pos hzero, Option.bind_eq_bind, Option.bind_eq_some_iff, Prod.exists,
      Option.some.injEq, Prod.mk.injEq] at h
    obtain ⟨result, s₂, hcreate, s₁, rfl, -, rfl⟩ := h
    have hkept := bbCreateNewOrphanDir_endKept hc hcreate
    exact hkept
  · simp only [if_neg hzero, Option.bind_eq_bind, Option.bind_eq_some_iff,
      Option.some.injEq, Prod.mk.injEq] at h
    obtain ⟨s₁, h, -, rfl⟩ := h
    have hmap := bbLoadLogDir_fatMap h
    exact EndKept.of_fatMap hmap

theorem createLogFile_endKept [t.Formatted] {s s' : FsState} {r : ℤ} {c : ℕ}
    (hc : c ≠ fatClusterEndOfChainMax) (h : createLogFile t env s = some (r, s')) :
    EndKept c s.vol s'.vol := by
  simp only [createLogFile, Option.bind_eq_bind, Option.bind_eq_some_iff, Prod.exists] at h
  obtain ⟨cluster, v₁, hsearch, result, s₁, hinit, h⟩ := h
  have hsearched : EndKept c (s.setErrno 0).vol v₁ := searchBbOrphanDirCluster_endKept hsearch
  have hinit' : EndKept c v₁ s₁.vol := bbInitLogDir_endKept hc hinit
  have hfirst : EndKept c s.vol (s₁.setErrno result).vol := fun hend => hinit' (hsearched hend)
  split at h
  · obtain rfl := (Prod.mk.inj (Option.some.inj h)).2
    exact hfirst
  · split at h
    · simp only [Option.bind_eq_some_iff, Prod.exists] at h
      obtain ⟨mknod, s₂, hmknod, h⟩ := h
      have hdone := hfirst.trans (createEntry_endKept (by decide) hmknod)
      split at h <;> obtain rfl := (Prod.mk.inj (Option.some.inj h)).2 <;> exact hdone
    · obtain rfl := (Prod.mk.inj (Option.some.inj h)).2
      exact hfirst

end SistOp.FatFuse
