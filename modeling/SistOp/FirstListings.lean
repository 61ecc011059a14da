import SistOp.NewDirectories
import Mathlib.Tactic

/-!
# The first listing of a directory

`fat_fuse_read_children` puts a child in front for each decoded path that the tree lacks.  Behind
it `create_log_file` may put `/bb` below the root, or the log below `/bb`; it leaves the file of
every directory but `/bb` alone, so the number of entries is what the reading made it.
-/

namespace SistOp.FatFuse

variable {t : FatTable} {env : FuseEnv} {s s' s'' : FsState} {node : ℕ} {p : CString} {r : ℤ}

/-! ## Decoded files -/

theorem filepathFromName_inj {path name name' : CString}
    (h : filepathFromName path name = filepathFromName path name') : name = name' := by
  unfold filepathFromName at h
  split at h <;> simpa using h

/-- What a listing of the clusters decodes. -/
def decodedChildren (t : FatTable) (disk : ℕ → UInt8) (dir : FatFile) (cs : List ℕ) :
    List FatFile :=
  cs.flatMap fun c => (listedEntries (clusterSlots t disk c) 0).map (numberedChild dir)

/-- A path below `path`. -/
def FatFile.Below (path : CString) (f : FatFile) : Prop :=
  f.filepath = filepathFromName path f.name

theorem below_numberedChild (dir : FatFile) (e : FatDirEntry × ℕ) :
    (numberedChild dir e).Below dir.filepath := rfl

theorem below_decodedChild {disk : ℕ → UInt8} {dir : FatFile} {cs : List ℕ} {child : FatFile}
    (h : child ∈ decodedChildren t disk dir cs) : child.Below dir.filepath := by
  obtain ⟨c, -, hmem⟩ := List.mem_flatMap.mp h
  obtain ⟨e, -, rfl⟩ := List.mem_map.mp hmem
  exact below_numberedChild dir e

/-- A listing decodes files below the directory. -/
theorem readChildrenLoop_below {fuel cur : ℕ} {v v' : Volume} {dir dir' : FatFile}
    {elems elems' : List FatFile} {path : CString} (hdir : dir.filepath = path)
    (h : readChildrenLoop t fuel v cur dir elems = some (dir', elems', v'))
    (helems : ∀ g ∈ elems, g.Below path) : ∀ g ∈ elems', g.Below path := by
  induction fuel generalizing v cur dir elems with
  | zero => simp [readChildrenLoop] at h
  | succ fuel ih =>
      unfold readChildrenLoop at h
      split at h
      · simp only at h
        split at h
        · simp only [Option.some.injEq, Prod.mk.injEq] at h
          obtain ⟨-, rfl, -⟩ := h
          simp
        · simp only [Option.bind_eq_bind, Option.bind_eq_some_iff] at h
          obtain ⟨next, -, h⟩ := h
          refine ih ?_ h ?_
          · obtain ⟨⟨e, b, hrelisted⟩, -⟩ := readClusterDirEntries_eq _ _ 0 dir elems
            rw [hrelisted]
            exact hdir
          · intro g hg
            rw [(readClusterDirEntries_eq _ _ 0 dir elems).2] at hg
            rcases List.mem_append.mp hg with hg | hg
            · exact helems g hg
            · obtain ⟨e, -, rfl⟩ := List.mem_map.mp hg
              rw [← hdir]
              exact below_numberedChild dir (e.2, e.1)
      · simp only [Option.some.injEq, Prod.mk.injEq] at h
        obtain ⟨-, rfl, -⟩ := h
        exact helems

theorem fatFileReadChildren_below {v v' : Volume} {dir dir' : FatFile} {children : List FatFile}
    (h : fatFileReadChildren t v dir = some (dir', children, v')) :
    ∀ g ∈ children, g.Below dir.filepath := by
  unfold fatFileReadChildren at h
  split at h
  · exact readChildrenLoop_below rfl h (by simp)
  · simp only [Option.some.injEq, Prod.mk.injEq] at h
    obtain ⟨-, rfl, -⟩ := h
    simp

theorem filepath_ne_bbDirname {g : FatFile} (h : g.Below bbDirname) : g.filepath ≠ bbDirname := by
  intro hsame
  have hlength := congrArg List.length (h.symm.trans hsame)
  have hslash : (98 : UInt8) ≠ charSlash := by decide
  simp [filepathFromName, bbDirname, hslash] at hlength

/-- A path that the tree lacks is still missing when other files came in. -/
theorem insertChildren_absent {children : List FatFile} {key : CString}
    (h : insertChildren (some node) children s = some s') (htree : s.fileTree ≠ none)
    (hother : key ∉ children.map FatFile.filepath)
    (habsent : fatTreeNodeSearch s key = some none) : fatTreeNodeSearch s' key = some none := by
  induction children generalizing s with
  | nil =>
      obtain rfl := Option.some.inj h
      exact habsent
  | cons file rest ih =>
      simp only [insertChildren, Option.bind_eq_bind, Option.bind_eq_some_iff] at h
      obtain ⟨s₁, hinsert, h⟩ := h
      obtain ⟨root, hroot⟩ := Option.ne_none_iff_exists'.mp htree
      rw [List.map_cons, List.mem_cons, not_or] at hother
      obtain ⟨nodes, root', -, hs₁⟩ :=
        fatTreeInsert_eq_some (s := s.allocFile file) hroot hinsert
      exact ih h (by rw [hs₁]; simp) hother.2
        ((pathInserted_of_fatTreeInsert hroot hinsert).absent key hother.1 habsent)

/-! ## What the log adds -/

/-- `added` came in front of the children of a node at `p`: `/bb` below the root, or new files
below `/bb`. -/
structure LogAdded (node : ℕ) (p : CString) (s s' : FsState) (added : List FatFile) : Prop where
  nodup : (added.map FatFile.filepath).Nodup
  new : ∀ g ∈ added, s.fileTree ≠ none ∧ ¬ InTree s g.filepath
  inTree : ∀ g ∈ added, s'.fileTree ≠ none → InTree s' g.filepath
  place : ∀ g ∈ added, g.filepath = bbDirname ∧ p = rootPath ∨ p = bbDirname ∧ g.Below bbDirname
  bb : fatTreeNodeSearch s rootPath = some (some node) →
    fatTreeNodeSearch s bbDirname = some none → s'.fileTree ≠ none →
      fatTreeNodeSearch s' bbDirname = some none ∨ bbDirname ∈ added.map FatFile.filepath

/-- What making or loading the log does to a node at `p`. -/
structure LogFronted (node : ℕ) (p : CString) (s s' : FsState) : Prop where
  tree : TreeKept s s'
  path : NodePath s' node p
  sizes : SizesPositive s.nodes → SizesPositive s'.nodes
  file : p ≠ bbDirname → ∀ n f, NodeFile s node n f → ∃ n', NodeFile s' node n' f
  labelled : ∀ labels, Labelled s node labels → ∃ added,
    Labelled s' node (added.map FatFile.label ++ labels) ∧ LogAdded node p s s' added

theorem LogFronted.of_dirKept (htree : TreeKept s s') (hpath : NodePath s node p)
    (h : DirKept node s s')
    (hfile : p ≠ bbDirname → ∀ n f, NodeFile s node n f → s'.files.get n.data = some f)
    (habsent : fatTreeNodeSearch s rootPath = some (some node) →
      fatTreeNodeSearch s bbDirname = some none → s'.fileTree ≠ none →
        fatTreeNodeSearch s' bbDirname = some none) : LogFronted node p s s' := by
  refine ⟨htree, h.nodePath hpath, h.grown.sizes, fun hbb n f hf => ?_, fun labels hlabels =>
    ⟨[], h.labelled hlabels, by simp, by simp, by simp, by simp, fun hroot hbb hnull =>
      Or.inl (habsent hroot hbb hnull)⟩⟩
  obtain ⟨n', hn', hgrown⟩ := h.grown.node node n hf.node
  exact ⟨n', hn', by rw [hgrown.data]; exact hfile hbb n f hf⟩

theorem LogFronted.of_vol (v : Volume) (hpath : NodePath s node p) :
    LogFronted node p s { s with vol := v } :=
  LogFronted.of_dirKept (TreeKept.of_vol s v) hpath (DirKept.of_vol node s v)
    (fun _ _ _ hf => hf.live) fun _ habsent _ => habsent

theorem LogAdded.trans {first second : List FatFile} (htree : TreeKept s s')
    (htree' : TreeKept s' s'') (h : LogAdded node p s s' first)
    (h' : LogAdded node p s' s'' second) : LogAdded node p s s'' (second ++ first) := by
  have hback : s''.fileTree ≠ none → s'.fileTree ≠ none := fun hne hnone => hne (htree'.null hnone)
  refine ⟨?_, fun g hg => ?_, fun g hg hne => ?_, fun g hg => ?_, fun hroot hbb hne => ?_⟩
  · rw [List.map_append]
    refine h'.nodup.append h.nodup fun path hsecond hfirst => ?_
    obtain ⟨g', hg', rfl⟩ := List.mem_map.mp hsecond
    obtain ⟨g, hg, hpath⟩ := List.mem_map.mp hfirst
    obtain ⟨hne, hnew⟩ := h'.new g' hg'
    exact hnew (hpath ▸ h.inTree g hg hne)
  · rcases List.mem_append.mp hg with hg | hg
    · obtain ⟨hne, hnew⟩ := h'.new g hg
      exact ⟨fun hnone => hne (htree.null hnone),
        fun hpath => hnew ((htree.grown.resolve_left hne).inTree hpath)⟩
    · exact h.new g hg
  · rcases List.mem_append.mp hg with hg | hg
    · exact h'.inTree g hg hne
    · exact (htree'.grown.resolve_left hne).inTree (h.inTree g hg (hback hne))
  · rcases List.mem_append.mp hg with hg | hg
    · exact h'.place g hg
    · exact h.place g hg
  · rw [List.map_append, List.mem_append]
    rcases h.bb hroot hbb (hback hne) with hbb | hmem
    · have hroot' := (htree.grown.resolve_left (hback hne)).search hroot
      exact (h'.bb hroot' hbb hne).imp_right Or.inl
    · exact Or.inr (Or.inr hmem)

theorem LogFronted.trans (h : LogFronted node p s s') (h' : LogFronted node p s' s'') :
    LogFronted node p s s'' := by
  refine ⟨h.tree.trans h'.tree, h'.path, fun hsizes => h'.sizes (h.sizes hsizes),
    fun hbb n f hf => ?_, fun labels hlabels => ?_⟩
  · obtain ⟨n', hf'⟩ := h.file hbb n f hf
    exact h'.file hbb n' f hf'
  · obtain ⟨first, hfirst, hadded⟩ := h.labelled labels hlabels
    obtain ⟨second, hsecond, hadded'⟩ := h'.labelled _ hfirst
    refine ⟨second ++ first, ?_, hadded.trans h.tree h'.tree hadded'⟩
    rwa [List.map_append, List.append_assoc]

/-- The insertion of `/bb` below the root, or of a file below `/bb`. -/
theorem LogFronted.insert {root root' parent : HTree} {file : FatFile}
    (hroot : s.fileTree = some root)
    (h : hTreeInsert (fatFileCmp (s.files.alloc file)) s.nodes root s.files.next parent =
      some (s'.nodes, root'))
    (htree : s'.fileTree = some root') (hkept : TreeKept s s')
    (hfiles : NamesKept (s.files.alloc file) s'.files)
    (hfile : p ≠ bbDirname → ∀ n f, NodeFile s node n f → s'.files.get n.data = some f)
    (hpath : NodePath s node p)
    (hplace : file.filepath = bbDirname ∧
        fatTreeNodeSearch (s.allocFile file) rootPath = some parent ∨
      file.Below bbDirname ∧ (parent = some node → p = bbDirname)) : LogFronted node p s s' := by
  have hdone := hTreeInsert_eq_some h
  have hnames : NamesKept s.files s'.files := (namesKept_alloc s.files file).trans hfiles
  have hinserted := pathInserted_of_eq_some hroot h htree hfiles.pathsKept
  have halloc : DirKept node s (s.allocFile file) :=
    DirKept.of_nodes rfl (namesKept_alloc s.files file)
  have hpath₁ : NodePath (s.allocFile file) node p := halloc.nodePath hpath
  by_cases hparent : parent = some node
  · subst hparent
    rcases hinserted.known_or_added with
      ⟨⟨a, hknown⟩, hsame⟩ | ⟨habsent, hfound, added, hadded, hsame⟩
    · refine LogFronted.of_dirKept hkept hpath (DirKept.sameHierarchy hdone.grown hsame hnames)
        hfile fun _ hbb _ => hinserted.absent _ (fun heq => ?_) hbb
      have hmissing := fatTreeNodeSearch_allocFile file hbb
      rw [heq, hknown] at hmissing
      simp at hmissing
    · refine ⟨hkept, ?_, hdone.grown.sizes, fun hbb n f hf => ?_, fun labels hlabels =>
        ⟨[file], hlabels.added hadded hsame hdone.grown hfiles, ?_⟩⟩
      · obtain ⟨n, f, hf, rfl⟩ := hpath
        obtain ⟨n', hn', hgrown⟩ := hdone.grown.node node n hf.node
        obtain ⟨f', hf', hpath', -⟩ := hnames n.data f hf.live
        exact ⟨n', f', ⟨hn', by rw [hgrown.data]; exact hf'⟩, hpath'⟩
      · obtain ⟨n', hn', hgrown⟩ := hdone.grown.node node n hf.node
        exact ⟨n', hn', by rw [hgrown.data]; exact hfile hbb n f hf⟩
      · refine ⟨List.nodup_singleton _, fun g hg => ?_, fun g hg _ => ?_, fun g hg => ?_,
          fun _ hbb _ => ?_⟩
        · rw [List.mem_singleton.mp hg]
          refine ⟨by simp [hroot], ?_⟩
          rintro ⟨a, ha⟩
          simp [(FsGrown.allocFile s file).search ha] at habsent
        · rw [List.mem_singleton.mp hg]
          exact ⟨_, hfound⟩
        · rw [List.mem_singleton.mp hg]
          refine hplace.imp (fun hbb => ⟨hbb.1, ?_⟩) fun hbelow => ⟨hbelow.2 rfl, hbelow.1⟩
          by_contra hother
          exact hpath₁.search_ne hbb.2 (Ne.symm hother) rfl
        · by_cases heq : bbDirname = file.filepath
          · exact Or.inr (by simp [heq])
          · exact Or.inl (hinserted.absent _ heq hbb)
  · obtain ⟨n, f, hf, -⟩ := id hpath
    refine LogFronted.of_dirKept hkept hpath
      (InsertedOnce.dirKept hdone.hierarchy hdone.grown hnames hparent ⟨n, hf.node⟩) hfile
      fun hrootNode hbb _ => hinserted.absent _ (fun heq => ?_) hbb
    rcases hplace with ⟨-, hsearch⟩ | ⟨hbelow, -⟩
    · have hsame := hsearch.symm.trans (fatTreeNodeSearch_allocFile file hrootNode)
      exact hparent (Option.some.inj hsame)
    · exact filepath_ne_bbDirname hbelow heq.symm

theorem LogFronted.fatTreeInsert {parent : HTree} {file : FatFile}
    (h : SistOp.FatFuse.fatTreeInsert (s.allocFile file) parent (some s.files.next) = some s')
    (hpath : NodePath s node p)
    (hplace : file.filepath = bbDirname ∧
        fatTreeNodeSearch (s.allocFile file) rootPath = some parent ∨
      file.Below bbDirname ∧ (parent = some node → p = bbDirname)) : LogFronted node p s s' := by
  have hkept : TreeKept s s' := (TreeKept.allocFile s file).trans (fatTreeInsert_kept h).1
  have hfile : ∀ n f, NodeFile s node n f → (s.files.alloc file).get n.data = some f :=
    fun n f hf => Heap.get_alloc_of_live file hf.live
  cases hroot : s.fileTree with
  | none =>
      have hnull : (s.allocFile file).fileTree = none := hroot
      simp only [SistOp.FatFuse.fatTreeInsert, hnull, Option.some.injEq] at h
      subst h
      exact LogFronted.of_dirKept hkept hpath
        (DirKept.of_nodes rfl (namesKept_alloc s.files file)) (fun _ => hfile)
        fun _ _ hne => absurd rfl hne
  | some root =>
      obtain ⟨nodes, root', hinsert, rfl⟩ :=
        fatTreeInsert_eq_some (s := s.allocFile file) hroot h
      exact LogFronted.insert hroot hinsert rfl hkept (namesKept_refl _) (fun _ => hfile) hpath
        hplace

/-- Without a file the tree is lost. -/
theorem fatTreeInsert_null (s : FsState) (parent : HTree) :
    SistOp.FatFuse.fatTreeInsert s parent none =
      some { s.setErrno Errno.einval with fileTree := none } := by
  unfold SistOp.FatFuse.fatTreeInsert
  split
  · contradiction
  · rfl

/-- The log directory is inserted below the root. -/
theorem LogFronted.bbDirectory {v v₁ w : Volume} {cluster : ℕ} {result : Option FatFile}
    {parent : HTree} (hpath : NodePath s node p)
    (hinit : fatFileInitOrphanDir v bbDirname cluster = some (result, v₁))
    (hsearch : fatTreeNodeSearch { (allocResult s (result, v₁)).2 with vol := w } rootPath =
      some parent)
    (h : SistOp.FatFuse.fatTreeInsert { (allocResult s (result, v₁)).2 with vol := w } parent
      (allocResult s (result, v₁)).1 = some s') : LogFronted node p s s' := by
  have hvol : LogFronted node p s { s with vol := w } := LogFronted.of_vol w hpath
  cases result with
  | none =>
      have hkept : TreeKept { s with vol := w } s' := (fatTreeInsert_kept h).1
      obtain rfl := Option.some.inj ((fatTreeInsert_null { s with vol := w } parent).symm.trans h)
      exact hvol.trans (LogFronted.of_dirKept hkept hvol.path
        (DirKept.of_nodes rfl (namesKept_refl _)) (fun _ _ _ hf => hf.live)
        fun _ _ hne => absurd rfl hne)
  | some file =>
      have hhidden : file.filepath = bbDirname :=
        ((fatFileInitOrphanDir_eq_some hinit).2.2.2 file rfl).2.1
      exact hvol.trans (LogFronted.fatTreeInsert (s := { s with vol := w }) h hvol.path
        (Or.inl ⟨hhidden, hsearch⟩))

theorem insertChildren_fronted {parent : HTree} {children : List FatFile}
    (h : insertChildren parent children s = some s') (hpath : NodePath s node p)
    (hparent : parent = some node → p = bbDirname)
    (hbelow : ∀ child ∈ children, child.Below bbDirname) : LogFronted node p s s' := by
  induction children generalizing s with
  | nil =>
      obtain rfl := Option.some.inj h
      exact LogFronted.of_vol s.vol hpath
  | cons file rest ih =>
      simp only [insertChildren, Option.bind_eq_bind, Option.bind_eq_some_iff] at h
      obtain ⟨s₁, hinsert, h⟩ := h
      have hfirst : LogFronted node p s s₁ := LogFronted.fatTreeInsert hinsert hpath
        (Or.inr ⟨hbelow file List.mem_cons_self, hparent⟩)
      exact hfirst.trans (ih h hfirst.path fun child hchild =>
        hbelow child (List.mem_cons_of_mem _ hchild))

/-- Another file than the one of a node with another path. -/
theorem NodePath.data_ne {n : HNode ℕ} {f dir : FatFile} {a : ℕ} (hpath : NodePath s node p)
    (hf : NodeFile s node n f) (hdir : s.files.get a = some dir) (hne : p ≠ dir.filepath) :
    n.data ≠ a := by
  rintro rfl
  obtain ⟨n', f', hf', rfl⟩ := hpath
  obtain ⟨rfl, rfl⟩ := hf.unique hf'
  obtain rfl := Option.some.inj (hdir.symm.trans hf'.live)
  exact hne rfl

theorem bbLoadLogDir_fronted {stack : ℤ → UInt8} {start : ℕ} (hpath : NodePath s node p)
    (h : bbLoadLogDir t stack s start = some s') : LogFronted node p s s' := by
  simp only [bbLoadLogDir, Option.bind_eq_bind, Option.bind_eq_some_iff, Prod.exists] at h
  obtain ⟨result, v₁, hinit, rootNode, hroot', s₁, hinsert, dirNode, hdir', loaded, hloaded, dir,
    hdir, dir', children, v₂, hlist, files, hwrite, h⟩ := h
  have hfirst : LogFronted node p s s₁ := LogFronted.bbDirectory hpath hinit hroot' hinsert
  cases result with
  | none => simp [allocResult] at hloaded
  | some file =>
      obtain rfl : s.files.next = loaded := Option.some.inj hloaded
      -- the listed directory is the one that was inserted
      have hbb : dir.filepath = bbDirname := by
        obtain ⟨root, hroot⟩ : ∃ root, s.fileTree = some root := by
          simp only [fatTreeNodeSearch, Option.bind_eq_bind, Option.bind_eq_some_iff] at hroot'
          obtain ⟨root, hroot, -⟩ := hroot'
          exact ⟨root, hroot⟩
        obtain ⟨nodes, root', -, rfl⟩ := fatTreeInsert_eq_some
          (s := ({ s with vol := _ } : FsState).allocFile file) hroot hinsert
        obtain rfl := Option.some.inj ((Heap.get_alloc_self s.files file).symm.trans hdir)
        exact ((fatFileInitOrphanDir_eq_some hinit).2.2.2 file rfl).2.1
      have hbelow := fatFileReadChildren_below hlist
      rw [hbb] at hbelow
      obtain ⟨hreads, e, b, rfl⟩ := fatFileReadChildren_reads hlist
      have hnames : NamesKept s₁.files files := NamesKept.write hdir hwrite rfl rfl
      have hlisted : LogFronted node p s₁ { s₁ with vol := v₂, files := files } := by
        refine LogFronted.of_dirKept (TreeKept.writeFile hdir hwrite rfl rfl) hfirst.path
          (DirKept.of_nodes rfl hnames) (fun hne n f hf => ?_) fun _ habsent _ => ?_
        · obtain ⟨-, -, -, hothers⟩ := Heap.write_eq_some hwrite
          have hother := hfirst.path.data_ne hf hdir (by rwa [hbb])
          exact (hothers _ hother).trans hf.live
        · have hnodes : ({ s₁ with vol := v₂, files := files } : FsState).nodes = s₁.nodes := rfl
          exact fatTreeNodeSearch_mono hnodes rfl hnames.pathsKept habsent
      have hparent : dirNode = some node → p = bbDirname := by
        intro hnode
        by_contra hne
        exact hfirst.path.search_ne hdir' (Ne.symm hne) hnode
      exact (hfirst.trans hlisted).trans
        (insertChildren_fronted h hlisted.path hparent hbelow)

theorem bbInitLogDir_fronted {stack : ℤ → UInt8} {start : ℕ} (hpath : NodePath s node p)
    (h : bbInitLogDir t stack s start = some (r, s')) : LogFronted node p s s' := by
  have hreset : LogFronted node p s (s.setErrno 0) := LogFronted.of_vol _ hpath
  unfold bbInitLogDir at h
  by_cases hzero : start = 0
  · simp only [if_pos hzero, bbCreateNewOrphanDir, Option.bind_eq_bind, Option.bind_eq_some_iff,
      Prod.exists, Option.some.injEq, Prod.mk.injEq] at h
    obtain ⟨e, s₁, ⟨cluster, -, v₁, -, result, v₂, hinit, root, hsearch, s₂, hinsert, -, rfl⟩,
      s₃, rfl, -, rfl⟩ := h
    have hmade : LogFronted node p s s₂ := LogFronted.bbDirectory hpath hinit hsearch hinsert
    exact hmade.trans (LogFronted.of_vol _ hmade.path)
  · simp only [if_neg hzero, Option.bind_eq_bind, Option.bind_eq_some_iff,
      Option.some.injEq, Prod.mk.injEq] at h
    obtain ⟨s₁, hload, -, rfl⟩ := h
    exact hreset.trans (bbLoadLogDir_fronted hreset.path hload)

/-- The name of the log file. -/
def logFileName : ShortName where
  base := [0x66, 0x73]
  extension := some [0x6c, 0x6f, 0x67]
  base_length := by decide
  base_chars := nameChar_of_all (by decide)
  base_head := by decide
  extension_length := by
    rintro e ⟨⟩
    decide
  extension_chars := by
    rintro e ⟨⟩
    exact nameChar_of_all (by decide)

theorem basename_bbLogFile : basename bbLogFile = logFileName.bytes := by decide

theorem ParentAt.filepath {path : CString} {parent addr : ℕ} {dir : FatFile}
    (hat : ParentAt s path parent addr dir) : dir.filepath = dirname path := by
  obtain ⟨n, f, hn, hf, hpath⟩ := fatTreeNodeSearch_found hat.search
  have hfile := hat.file
  simp only [fatTreeGetFile, hn, Option.bind_eq_bind, Option.bind_some,
    Option.some.injEq] at hfile
  subst hfile
  obtain rfl := Option.some.inj (hf.symm.trans hat.live)
  exact hpath

theorem createEntry_log_fronted [t.Formatted] {failed : ℤ → Bool} (hfailed : failed 0 = false)
    (hpath : NodePath s node p) (h : createEntry t false failed s bbLogFile = some (r, s')) :
    LogFronted node p s s' := by
  have hkept := createEntry_treeKept hfailed h
  cases createEntry_outcome hfailed h with
  | noParent => exact LogFronted.of_vol _ hpath
  | notDirectory => exact LogFronted.of_vol _ hpath
  | initFailed => exact LogFronted.of_vol _ hpath
  | made hat hdir hinit hroot hinsert hentry hwriteParent hwriteChild =>
      rename_i parent addr dir file v₁ v₂ root root' nodes' files₁ files₂
      have hname : file.name = basename bbLogFile :=
        fatFileInit_name (by rfl)
          (basename_bbLogFile ▸ reappears_of_dotInReach (.inr (by decide))) hinit
      have hfile : file.filepath = bbLogFile := by
        rcases (fatFileInit_eq_some (by rfl) hinit).2 with ⟨hnone, -⟩ |
          ⟨c, file', hsome, -, -, -, -, -, -, -, hfilepath, -⟩
        · contradiction
        · obtain rfl := Option.some.inj hsome
          exact hfilepath
      have hbelow : file.Below bbDirname := by
        rw [FatFile.Below, hfile, hname]
        decide
      have hfiles : NamesKept (s.files.alloc file) files₂ :=
        made_namesKept hat.live hwriteParent hwriteChild
      refine LogFronted.insert hroot hinsert rfl hkept hfiles (fun hbb n f hf => ?_) hpath
        (Or.inr ⟨hbelow, fun hnode => ?_⟩)
      · -- the file of the parent is the one of `/bb`
        have hlive : s.files.get addr = some dir := hat.live
        have hother : n.data ≠ addr := hpath.data_ne hf hlive (by
          rwa [hat.filepath, dirname_bbLogFile])
        have hnew : n.data ≠ s.files.next := ne_of_lt (Heap.lt_next hf.live)
        obtain ⟨-, -, -, hothersChild⟩ := Heap.write_eq_some hwriteChild
        obtain ⟨-, -, -, hothersParent⟩ := Heap.write_eq_some hwriteParent
        exact (hothersChild _ hnew).trans ((hothersParent _ hother).trans
          (Heap.get_alloc_of_live file hf.live))
      · by_contra hother
        rw [← dirname_bbLogFile] at hother
        exact hpath.search_ne hat.search (Ne.symm hother) hnode

theorem createLogFile_fronted [t.Formatted] (hpath : NodePath s node p)
    (h : createLogFile t env s = some (r, s')) : LogFronted node p s s' := by
  simp only [createLogFile, Option.bind_eq_bind, Option.bind_eq_some_iff, Prod.exists] at h
  obtain ⟨cluster, v₁, -, result, s₁, hinit, h⟩ := h
  have hof : LogFronted node p s { s.setErrno 0 with vol := v₁ } := LogFronted.of_vol v₁ hpath
  have hloaded : LogFronted node p s s₁ := hof.trans (bbInitLogDir_fronted hof.path hinit)
  have hfirst : LogFronted node p s (s₁.setErrno result) :=
    hloaded.trans (LogFronted.of_vol _ hloaded.path)
  split at h
  · obtain rfl := (Prod.mk.inj (Option.some.inj h)).2
    exact hfirst
  · split at h
    · simp only [Option.bind_eq_some_iff, Prod.exists] at h
      obtain ⟨mknod, s₂, hmknod, h⟩ := h
      have hdone := hfirst.trans (createEntry_log_fronted (by decide) hfirst.path hmknod)
      split at h <;> obtain rfl := (Prod.mk.inj (Option.some.inj h)).2 <;> exact hdone
    · obtain rfl := (Prod.mk.inj (Option.some.inj h)).2
      exact hfirst


/-! ## The log directory comes -/

theorem fatTreeInsert_inTree {root parent : HTree} {file : FatFile} (hroot : s.fileTree = some root)
    (h : fatTreeInsert (s.allocFile file) parent (some s.files.next) = some s') :
    s'.fileTree ≠ none ∧ InTree s' file.filepath := by
  have hroot' : (s.allocFile file).fileTree = some root := hroot
  have hgrown := FsGrown.insert hroot' h
  have hinserted := pathInserted_of_fatTreeInsert hroot h
  obtain ⟨nodes, root', -, rfl⟩ := fatTreeInsert_eq_some hroot' h
  refine ⟨by simp, ?_⟩
  rcases hinserted.known_or_added with ⟨hknown, -⟩ | ⟨-, hfound, -⟩
  · exact hgrown.inTree hknown
  · exact ⟨_, hfound⟩

theorem fileTree_of_search {key : CString} {found : HTree}
    (h : fatTreeNodeSearch s key = some found) : ∃ root, s.fileTree = some root := by
  simp only [fatTreeNodeSearch, Option.bind_eq_bind, Option.bind_eq_some_iff] at h
  obtain ⟨root, hroot, -⟩ := h
  exact ⟨root, hroot⟩

theorem bbCreateNewOrphanDir_inTree (hio : s.vol.IoSucceeds)
    (h : bbCreateNewOrphanDir t s = some (r, s')) : s'.fileTree ≠ none ∧ InTree s' bbDirname := by
  simp only [bbCreateNewOrphanDir, Option.bind_eq_bind, Option.bind_eq_some_iff, Prod.exists,
    Option.some.injEq, Prod.mk.injEq] at h
  obtain ⟨cluster, -, v₁, hset, result, v₂, hinit, root, hsearch, s₁, hinsert, -, rfl⟩ := h
  have herrno : v₁.errno = 0 := setNextCluster_errno_kept (v := (s.setErrno 0).vol) hio hset
  have hfile := fatFileInitOrphanDir_eq_some hinit
  cases result with
  | none =>
      simp only [fatFileInitOrphanDir, Option.bind_eq_bind, Option.bind_eq_some_iff,
        Prod.exists] at hinit
      obtain ⟨entry, v₃, hentry, hinit⟩ := hinit
      obtain ⟨-, -, -, rfl⟩ := fatFileInitDirentry_eq_some hentry
      rw [if_neg (by simpa using herrno)] at hinit
      simp at hinit
  | some file =>
      obtain ⟨top, htop⟩ := fileTree_of_search hsearch
      have hhidden : file.filepath = bbDirname := (hfile.2.2.2 file rfl).2.1
      rw [← hhidden]
      exact fatTreeInsert_inTree (s := { s.setErrno 0 with vol := v₂ }) htop hinsert

theorem bbLoadLogDir_inTree {stack : ℤ → UInt8} {start : ℕ}
    (h : bbLoadLogDir t stack s start = some s') : s'.fileTree ≠ none ∧ InTree s' bbDirname := by
  simp only [bbLoadLogDir, Option.bind_eq_bind, Option.bind_eq_some_iff, Prod.exists] at h
  obtain ⟨result, v₁, hinit, rootNode, hroot', s₁, hinsert, dirNode, hdir', loaded, hloaded, dir,
    hdir, dir', children, v₂, hlist, files, hwrite, h⟩ := h
  cases result with
  | none => simp [allocResult] at hloaded
  | some file =>
      obtain ⟨top, htop⟩ := fileTree_of_search hroot'
      have hhidden : file.filepath = bbDirname :=
        ((fatFileInitOrphanDir_eq_some hinit).2.2.2 file rfl).2.1
      obtain ⟨hnull, hbb⟩ := fatTreeInsert_inTree (s := { s with vol := _ }) htop hinsert
      rw [hhidden] at hbb
      obtain ⟨hreads, e, b, rfl⟩ := fatFileReadChildren_reads hlist
      have hlisted := (FsGrown.writeFile (v := v₂) hdir hwrite rfl rfl).inTree hbb
      have hnull' := insertChildren_fileTree h hnull
      exact ⟨hnull', ((insertChildren_kept h).1.grown.resolve_left hnull').inTree hlisted⟩

theorem createEntry_fileTree [t.Formatted] {isDir : Bool} {failed : ℤ → Bool} {path : CString}
    (hfailed : failed 0 = false) (h : createEntry t isDir failed s path = some (r, s'))
    (htree : s.fileTree ≠ none) : s'.fileTree ≠ none := by
  cases createEntry_outcome hfailed h with
  | noParent => exact htree
  | notDirectory => exact htree
  | initFailed => exact htree
  | made => simp

/-- When no call fails `create_log_file` leaves a tree with `/bb`. -/
theorem createLogFile_inTree [t.Formatted] (hio : s.vol.IoSucceeds)
    (h : createLogFile t env s = some (r, s')) :
    s'.fileTree ≠ none ∧ InTree s' bbDirname := by
  simp only [createLogFile, Option.bind_eq_bind, Option.bind_eq_some_iff, Prod.exists] at h
  obtain ⟨cluster, v₁, hsearch, result, s₁, hinit, h⟩ := h
  have hlater : (s.setErrno 0).vol.Later v₁ := by
    rcases searchBbOrphanDirCluster_eq_some hsearch with ⟨-, hkeeps⟩ | ⟨-, -, -, hreads⟩
    · exact hkeeps.later
    · exact hreads.later
  have hio₁ : v₁.IoSucceeds := hlater.ioSucceeds hio
  have hfirst : s₁.fileTree ≠ none ∧ InTree s₁ bbDirname := by
    unfold bbInitLogDir at hinit
    by_cases hzero : cluster = 0
    · simp only [if_pos hzero, Option.bind_eq_bind, Option.bind_eq_some_iff, Prod.exists,
        Option.some.injEq, Prod.mk.injEq] at hinit
      obtain ⟨e, s₂, hcreate, s₃, rfl, -, rfl⟩ := hinit
      have hmade := bbCreateNewOrphanDir_inTree
        (s := ({ s.setErrno 0 with vol := v₁ } : FsState).setErrno 0) hio₁ hcreate
      exact hmade
    · simp only [if_neg hzero, Option.bind_eq_bind, Option.bind_eq_some_iff,
        Option.some.injEq, Prod.mk.injEq] at hinit
      obtain ⟨s₂, hload, -, rfl⟩ := hinit
      exact bbLoadLogDir_inTree hload
  split at h
  · obtain rfl := (Prod.mk.inj (Option.some.inj h)).2
    exact hfirst
  · split at h
    · simp only [Option.bind_eq_some_iff, Prod.exists] at h
      obtain ⟨mknod, s₂, hmknod, h⟩ := h
      have hnull : s₂.fileTree ≠ none :=
        createEntry_fileTree (s := s₁.setErrno result) (by decide) hmknod hfirst.1
      have hkept : TreeKept (s₁.setErrno result) s₂ := createEntry_treeKept (by decide) hmknod
      have hdone := (hkept.grown.resolve_left hnull).inTree hfirst.2
      split at h <;> obtain rfl := (Prod.mk.inj (Option.some.inj h)).2 <;> exact ⟨hnull, hdone⟩
    · obtain rfl := (Prod.mk.inj (Option.some.inj h)).2
      exact hfirst

/-! ## The first listing -/

/-- A first listing of the node of `f`: `added` are decoded children that are new, and `logs` is
what the log put in front of them. -/
structure FirstListing (t : FatTable) (s s' : FsState) (node : ℕ) (f : FatFile) (cs : List ℕ)
    (labels : List (CString × CString)) (added logs : List FatFile) : Prop where
  labelled : Labelled s' node
    (logs.map FatFile.label ++ (added.map FatFile.label ++ labels))
  nodup : (added.map FatFile.filepath).Nodup
  decoded : ∀ g ∈ added, g ∈ decodedChildren t s.vol.disk f cs
  new : ∀ g ∈ added, ¬ InTree s g.filepath
  missing : ∀ child ∈ decodedChildren t s.vol.disk f cs, ¬ InTree s child.filepath →
    child.filepath ∈ added.map FatFile.filepath
  logsNodup : (logs.map FatFile.filepath).Nodup
  logsNew : ∀ g ∈ logs, ¬ InTree s g.filepath ∧
    g.filepath ∉ (decodedChildren t s.vol.disk f cs).map FatFile.filepath
  logsPlace : ∀ g ∈ logs, g.filepath = bbDirname ∧ f.filepath = rootPath ∨
    f.filepath = bbDirname ∧ g.Below bbDirname
  logsLoaded : InTree s bbLogFile ∨
    bbLogFile ∈ (decodedChildren t s.vol.disk f cs).map FatFile.filepath → logs = []
  bb : s.vol.IoSucceeds → fatTreeNodeSearch s rootPath = some (some node) →
    (∀ path ∈ [bbDirname, bbLogFile], fatTreeNodeSearch s path = some none ∧
      path ∉ (decodedChildren t s.vol.disk f cs).map FatFile.filepath) →
        bbDirname ∈ logs.map FatFile.filepath
  file : f.filepath ≠ bbDirname ∨ InTree s bbLogFile → ∃ n' f', NodeFile s' node n' f' ∧
    f'.nentries = lastNumber t s.vol.disk cs f.nentries
  path : NodePath s' node f.filepath
  sizes : SizesPositive s.nodes → SizesPositive s'.nodes

theorem insertChildren_nodeFile {parent : HTree} {children : List FatFile} {n : HNode ℕ}
    {f : FatFile} (h : insertChildren parent children s = some s') (hf : NodeFile s node n f)
    (htree : s.fileTree ≠ none) : ∃ n', NodeFile s' node n' f := by
  induction children generalizing s n with
  | nil =>
      obtain rfl := Option.some.inj h
      exact ⟨n, hf⟩
  | cons file rest ih =>
      simp only [insertChildren, Option.bind_eq_bind, Option.bind_eq_some_iff] at h
      obtain ⟨s₁, hinsert, h⟩ := h
      obtain ⟨root, hroot⟩ := Option.ne_none_iff_exists'.mp htree
      have hgrown := FsGrown.insert (s := s.allocFile file) hroot hinsert
      obtain ⟨n₁, hn₁, hsame⟩ := hgrown.nodes.node node n hf.node
      obtain ⟨nodes, root', -, rfl⟩ :=
        fatTreeInsert_eq_some (s := s.allocFile file) hroot hinsert
      refine ih h ⟨hn₁, ?_⟩ (by simp)
      rw [hsame.data]
      exact Heap.get_alloc_of_live file hf.live

/-- The decoded children are in the tree: `added` are those that are new. -/
structure ChildrenListed (t : FatTable) (s s' : FsState) (node : ℕ) (f : FatFile) (cs : List ℕ)
    (labels : List (CString × CString)) (added : List FatFile) : Prop where
  labelled : Labelled s' node (added.map FatFile.label ++ labels)
  added : ChildrenAdded s s' (decodedChildren t s.vol.disk f cs) added
  found : ∀ path a, fatTreeNodeSearch s path = some (some a) →
    fatTreeNodeSearch s' path = some (some a)
  absent : ∀ path, path ∉ (decodedChildren t s.vol.disk f cs).map FatFile.filepath →
    fatTreeNodeSearch s path = some none → fatTreeNodeSearch s' path = some none
  file : ∃ n' f', NodeFile s' node n' f' ∧ f'.filepath = f.filepath ∧
    f'.nentries = lastNumber t s.vol.disk cs f.nentries
  io : s.vol.IoSucceeds → s'.vol.IoSucceeds
  sizes : SizesPositive s.nodes → SizesPositive s'.nodes

section ChildrenListed

variable {f : FatFile} {cs : List ℕ} {labels : List (CString × CString)} {added : List FatFile}

theorem ChildrenListed.setErrno (h : ChildrenListed t s s' node f cs labels added) (e : ℤ) :
    ChildrenListed t s (s'.setErrno e) node f cs labels added where
  labelled := (DirKept.of_vol node s' _).labelled h.labelled
  added := ⟨h.added.nodup, h.added.subset, h.added.new, h.added.missing, h.added.inTree⟩
  found := h.found
  absent := h.absent
  file := by
    obtain ⟨n', f', hf', hsame⟩ := h.file
    exact ⟨n', f', ⟨hf'.node, hf'.live⟩, hsame⟩
  io := h.io
  sizes := h.sizes

theorem ChildrenListed.inTree (h : ChildrenListed t s s' node f cs labels added) {path : CString} :
    InTree s path → InTree s' path := fun ⟨a, ha⟩ => ⟨a, h.found path a ha⟩

theorem ChildrenListed.inTree_decoded (h : ChildrenListed t s s' node f cs labels added)
    {path : CString} (hmem : path ∈ (decodedChildren t s.vol.disk f cs).map FatFile.filepath) :
    InTree s' path := by
  obtain ⟨child, hchild, rfl⟩ := List.mem_map.mp hmem
  exact h.added.inTree child hchild

theorem ChildrenListed.nodePath (h : ChildrenListed t s s' node f cs labels added) :
    NodePath s' node f.filepath := by
  obtain ⟨n', f', hf', hpath, -⟩ := h.file
  exact ⟨n', f', hf', hpath⟩

/-- The reading of a directory lists its children, and then looks for the log. -/
theorem exists_childrenListed [t.Formatted] (hmarks : t.ClusterNumbersBelowMarks)
    (hsearch : ∀ path, fatTreeNodeSearch s path ≠ none) {n : HNode ℕ} {cs : List ℕ}
    (hf : NodeFile s node n f) (hchain : ClusterChain t s.vol.fatMap (f.startCluster :: cs))
    (hreads : ChainReads t (s.setErrno 0).vol (f.startCluster :: cs))
    (hlabels : Labelled s node labels)
    (h : fatFuseReadChildren t env (s.setErrno 0) node = some s') :
    ∃ s₁ added, ChildrenListed t s s₁ node f (f.startCluster :: cs) labels added ∧
      (InTree s₁ bbLogFile ∧ s' = s₁ ∨
        ¬ InTree s₁ bbLogFile ∧ ∃ r, createLogFile t env s₁ = some (r, s')) := by
  have hnode : (s.setErrno 0).nodes.get node = some n := hf.node
  obtain ⟨dir, dir', children, v, files, s₁, s₂, hdir, hlist, hwrite, hinsert, hsame, hlog⟩ :=
    fatFuseReadChildren_inserts hnode h
  obtain rfl := Option.some.inj (hf.live.symm.trans hdir)
  obtain ⟨dir₁, v₁, hnumber, -, hdecode⟩ :=
    fatFileReadChildren_onReads (v := (s.setErrno 0).vol) hmarks f hchain hreads
  have hboth := hdecode.symm.trans hlist
  simp only [Option.some.injEq, Prod.mk.injEq] at hboth
  obtain ⟨rfl, hchildren, -⟩ := hboth
  obtain rfl : decodedChildren t s.vol.disk f (f.startCluster :: cs) = children := hchildren
  obtain ⟨hlater, e, b, hrelisted⟩ := fatFileReadChildren_reads hlist
  subst hrelisted
  have hkept : NamesKept s.files files := NamesKept.write hf.live hwrite rfl rfl
  have hfirst : DirKept node s { s with vol := v, files := files } := DirKept.of_nodes rfl hkept
  have hgrownFile : FsGrown s { s with vol := v, files := files } :=
    FsGrown.writeFile hf.live hwrite rfl rfl
  have hnone : ∀ path, fatTreeNodeSearch s path = some none →
      fatTreeNodeSearch { s with vol := v, files := files } path = some none := by
    intro path habsent
    have hnodes : ({ s with vol := v, files := files } : FsState).nodes = s.nodes := rfl
    exact fatTreeNodeSearch_mono hnodes rfl hkept.pathsKept habsent
  have htree : s.fileTree ≠ none := by
    intro hnull
    apply hsearch rootPath
    rw [fatTreeNodeSearch, hnull, Option.bind_eq_bind, Option.bind_none]
  obtain ⟨added, hadded, hlabels₁⟩ := insertChildren_added hinsert (hfirst.labelled hlabels) htree
  have htree₁ : s₁.fileTree ≠ none := insertChildren_fileTree hinsert htree
  have hgrown : FsGrown { s with vol := v, files := files } s₁ :=
    (insertChildren_kept hinsert).1.grown.resolve_left htree₁
  have hself : files.get n.data = some { f with nentries := e, childrenRead := b } :=
    (Heap.write_eq_some hwrite).2.2.1
  obtain ⟨n₁, hf₁⟩ := insertChildren_nodeFile
    (s := { s with vol := v, files := files }) hinsert ⟨hf.node, hself⟩ htree
  have hlisted : ChildrenListed t s s₁ node f (f.startCluster :: cs) labels added := by
    refine ⟨hlabels₁, ⟨hadded.nodup, hadded.subset,
      fun g hg hpath => hadded.new g hg (hgrownFile.inTree hpath),
      fun child hchild habsent => hadded.missing child hchild (hnone _ habsent), hadded.inTree⟩,
      fun path a hfound => hgrown.search (hgrownFile.search hfound),
      fun path hother habsent => insertChildren_absent hinsert htree hother (hnone _ habsent),
      ⟨n₁, _, hf₁, rfl, hnumber⟩, fun hio => ?_, fun hsizes => hgrown.nodes.sizes hsizes⟩
    have hv : v.IoSucceeds := hlater.later.ioSucceeds (v := (s.setErrno 0).vol) hio
    exact (insertChildren_kept hinsert).2.later.ioSucceeds hv
  rcases hsame with rfl | rfl
  · exact ⟨s₂, added, hlisted, hlog⟩
  · exact ⟨s₁.setErrno Errno.einval, added, hlisted.setErrno _, hlog⟩

/-- In the root, `/bb` comes in front when neither it nor the log is there. -/
theorem ChildrenListed.bb_fronted [t.Formatted] {logs : List FatFile} {r : ℤ}
    (h : ChildrenListed t s s₁ node f cs labels added)
    (hlogs : LogAdded node f.filepath s₁ s' logs) (hio : s.vol.IoSucceeds)
    (hroot : fatTreeNodeSearch s rootPath = some (some node))
    (hbb : fatTreeNodeSearch s₁ bbDirname = some none)
    (hcreate : createLogFile t env s₁ = some (r, s')) : bbDirname ∈ logs.map FatFile.filepath := by
  obtain ⟨hnull, a, ha⟩ := createLogFile_inTree (h.io hio) hcreate
  rcases hlogs.bb (h.found _ _ hroot) hbb hnull with hmiss | hmem
  · simp [hmiss] at ha
  · exact hmem

end ChildrenListed

theorem exists_firstListing [t.Formatted] (hmarks : t.ClusterNumbersBelowMarks)
    (hsearch : ∀ path, fatTreeNodeSearch s path ≠ none) {n : HNode ℕ} {f : FatFile}
    {cs : List ℕ} (hf : NodeFile s node n f)
    (hchain : ClusterChain t s.vol.fatMap (f.startCluster :: cs))
    (hreads : ChainReads t (s.setErrno 0).vol (f.startCluster :: cs))
    {labels : List (CString × CString)} (hlabels : Labelled s node labels)
    (h : fatFuseReadChildren t env (s.setErrno 0) node = some s') :
    ∃ added logs, FirstListing t s s' node f (f.startCluster :: cs) labels added logs := by
  obtain ⟨s₁, added, hlisted, hlog⟩ :=
    exists_childrenListed hmarks hsearch hf hchain hreads hlabels h
  have hfronted : LogFronted node f.filepath s₁ s' := by
    rcases hlog with ⟨-, rfl⟩ | ⟨-, r, hcreate⟩
    · exact LogFronted.of_vol s'.vol hlisted.nodePath
    · exact createLogFile_fronted hlisted.nodePath hcreate
  have hloaded : InTree s₁ bbLogFile → s' = s₁ := by
    intro hin
    rcases hlog with ⟨-, rfl⟩ | ⟨habsent, -⟩
    · rfl
    · exact absurd hin habsent
  have hmissing : ∀ path, ¬ InTree s path → fatTreeNodeSearch s path = some none := by
    intro path habsent
    obtain ⟨found, hfound⟩ := Option.ne_none_iff_exists'.mp (hsearch path)
    cases found with
    | none => exact hfound
    | some a => exact absurd ⟨a, hfound⟩ habsent
  obtain ⟨logs, hlabels', hlogs⟩ := hfronted.labelled _ hlisted.labelled
  refine ⟨added, logs, hlabels', hlisted.added.nodup, hlisted.added.subset, hlisted.added.new,
    fun child hchild habsent => hlisted.added.missing child hchild (hmissing _ habsent),
    hlogs.nodup, fun g hg => ?_, hlogs.place, fun hold => ?_, fun hio hroot habsent => ?_,
    fun hplain => ?_, hfronted.path, fun hsizes => hfronted.sizes (hlisted.sizes hsizes)⟩
  · obtain ⟨-, hnew⟩ := hlogs.new g hg
    exact ⟨fun hold => hnew (hlisted.inTree hold), fun hmem => hnew (hlisted.inTree_decoded hmem)⟩
  · -- without `create_log_file` nothing comes in front
    rw [hloaded (hold.elim hlisted.inTree hlisted.inTree_decoded)] at hlabels'
    have hnil := hlabels'.unique hlisted.labelled
    simpa using hnil
  · obtain ⟨hbb, hbb'⟩ := habsent bbDirname (by simp)
    obtain ⟨hfile, hfile'⟩ := habsent bbLogFile (by simp)
    have hfile₁ := hlisted.absent _ hfile' hfile
    rcases hlog with ⟨⟨a, ha⟩, -⟩ | ⟨-, r, hcreate⟩
    · simp [hfile₁] at ha
    · exact hlisted.bb_fronted hlogs hio hroot (hlisted.absent _ hbb' hbb) hcreate
  · obtain ⟨n₁, f₁, hf₁, -, hnumber⟩ := hlisted.file
    rcases hplain with hbb | hold
    · obtain ⟨n', hf'⟩ := hfronted.file hbb n₁ f₁ hf₁
      exact ⟨n', f₁, hf', hnumber⟩
    · rw [hloaded (hlisted.inTree hold)]
      exact ⟨n₁, f₁, hf₁, hnumber⟩

/-! ## Counting the children -/

/-- The decoded paths that the tree lacks. -/
def newPaths (t : FatTable) (s : FsState) (f : FatFile) (cs : List ℕ) : List CString :=
  ((decodedChildren t s.vol.disk f cs).map FatFile.filepath).dedup.filter
    fun path => fatTreeNodeSearch s path = some none

/-- The directory is the root, and neither the tree nor the listing has `/bb` or the log. -/
def LogDirectoryMissing (t : FatTable) (s : FsState) (f : FatFile) (cs : List ℕ) : Prop :=
  f.filepath = rootPath ∧ ∀ path ∈ [bbDirname, bbLogFile],
    fatTreeNodeSearch s path = some none ∧
      path ∉ (decodedChildren t s.vol.disk f cs).map FatFile.filepath

instance (f : FatFile) (cs : List ℕ) : Decidable (LogDirectoryMissing t s f cs) :=
  inferInstanceAs (Decidable (f.filepath = rootPath ∧ ∀ path ∈ [bbDirname, bbLogFile],
    fatTreeNodeSearch s path = some none ∧
      path ∉ (decodedChildren t s.vol.disk f cs).map FatFile.filepath))

/-- The number of children behind a listing: a first one adds the new paths, and `/bb` to the root
when the log is missing. -/
def listedCount (t : FatTable) (s : FsState) (f : FatFile) (cs : List ℕ)
    (labels : List (CString × CString)) : ℕ :=
  if f.childrenRead = true then labels.length
  else labels.length + (newPaths t s f cs).length + if LogDirectoryMissing t s f cs then 1 else 0

/-- `nentries` behind a listing whose reads succeed. -/
def listedEntriesNumber (t : FatTable) (s : FsState) (f : FatFile) (cs : List ℕ) : ℕ :=
  if f.childrenRead = true then f.nentries else lastNumber t s.vol.disk cs f.nentries

section Counting

variable {f : FatFile} {cs : List ℕ} {labels : List (CString × CString)}
  {added logs : List FatFile}

theorem FirstListing.length_added (h : FirstListing t s s' node f cs labels added logs)
    (hsearch : ∀ path, fatTreeNodeSearch s path ≠ none) :
    added.length = (newPaths t s f cs).length := by
  have hmissing : ∀ path, fatTreeNodeSearch s path = some none ↔ ¬ InTree s path := by
    intro path
    obtain ⟨found, hfound⟩ := Option.ne_none_iff_exists'.mp (hsearch path)
    cases found with
    | none => simp [InTree, hfound]
    | some a => simp [InTree, hfound]
  have hperm : (added.map FatFile.filepath).Perm (newPaths t s f cs) := by
    refine (List.perm_ext_iff_of_nodup h.nodup ((List.nodup_dedup _).filter _)).mpr fun path => ?_
    rw [List.mem_filter, List.mem_dedup, decide_eq_true_iff, hmissing]
    constructor
    · intro hmem
      obtain ⟨g, hg, rfl⟩ := List.mem_map.mp hmem
      exact ⟨List.mem_map_of_mem (h.decoded g hg), h.new g hg⟩
    · rintro ⟨hmem, habsent⟩
      obtain ⟨child, hchild, rfl⟩ := List.mem_map.mp hmem
      exact h.missing child hchild habsent
  rw [← hperm.length_eq, List.length_map]

/-- Besides `/bb` itself the log adds at most `/bb`, and only to the root. -/
theorem FirstListing.length_logs_le (h : FirstListing t s s' node f cs labels added logs)
    (hsearch : ∀ path, fatTreeNodeSearch s path ≠ none)
    (hplain : f.filepath ≠ bbDirname ∨ InTree s bbLogFile) :
    logs.length ≤ if LogDirectoryMissing t s f cs then 1 else 0 := by
  cases logs with
  | nil => simp
  | cons g rest =>
      have hnew : ¬ (InTree s bbLogFile ∨
          bbLogFile ∈ (decodedChildren t s.vol.disk f cs).map FatFile.filepath) := by
        intro hold
        have hnil := h.logsLoaded hold
        contradiction
      rw [not_or] at hnew
      have hbb : f.filepath ≠ bbDirname := hplain.resolve_right hnew.1
      have hplace : ∀ g' ∈ g :: rest, g'.filepath = bbDirname ∧ f.filepath = rootPath :=
        fun g' hg' => (h.logsPlace g' hg').resolve_right fun hbelow => hbb hbelow.1
      have habsent : ∀ path, ¬ InTree s path → fatTreeNodeSearch s path = some none := by
        intro path hpath
        obtain ⟨found, hfound⟩ := Option.ne_none_iff_exists'.mp (hsearch path)
        cases found with
        | none => exact hfound
        | some a => exact absurd ⟨a, hfound⟩ hpath
      have hmissing : LogDirectoryMissing t s f cs := by
        refine ⟨(hplace g List.mem_cons_self).2, fun path hpath => ?_⟩
        simp only [List.mem_cons, List.not_mem_nil, or_false] at hpath
        rcases hpath with rfl | rfl
        · have hfresh := h.logsNew g List.mem_cons_self
          rw [(hplace g List.mem_cons_self).1] at hfresh
          exact ⟨habsent _ hfresh.1, hfresh.2⟩
        · exact ⟨habsent _ hnew.1, hnew.2⟩
      rw [if_pos hmissing]
      cases rest with
      | nil => simp
      | cons g' rest =>
          have hnodup := h.logsNodup
          rw [List.map_cons, List.map_cons, (hplace g (by simp)).1,
            (hplace g' (by simp)).1] at hnodup
          simp at hnodup

theorem FirstListing.le_length_logs (h : FirstListing t s s' node f cs labels added logs)
    (hroot : fatTreeNodeSearch s f.filepath = some (some node))
    (hio : f.filepath = rootPath → s.vol.IoSucceeds) :
    (if LogDirectoryMissing t s f cs then 1 else 0) ≤ logs.length := by
  split
  · rename_i hmissing
    obtain ⟨hpath, habsent⟩ := hmissing
    have hmem := h.bb (hio hpath) (hpath ▸ hroot) habsent
    obtain ⟨g, hg, -⟩ := List.mem_map.mp hmem
    exact List.length_pos_of_mem hg
  · exact Nat.zero_le _

end Counting

end SistOp.FatFuse
