import SistOp.DeletionHistory
import SistOp.OpenCounters
import SistOp.ShownChildren
import Mathlib.Tactic

/-!
# Opening a path

`fat_fuse_open` and `fat_fuse_opendir` take the failure of a missing path from `errno`, which the
search of the tree does not set.  The states here are those whose file tree is a search tree on the
paths of live files, with whatever `errno` the operations before have left.
-/

namespace SistOp.FatFuse

open SearchTree

/-! ## Paths as keys -/

/-- The bytes of a path as numbers, which are ordered as `strcmp` orders them. -/
def pathKey (path : CString) : List ℕ := path.map UInt8.toNat

theorem pathKey_inj {path path' : CString} : pathKey path = pathKey path' ↔ path = path' := by
  have hinjective : Function.Injective UInt8.toNat := fun x y h => UInt8.toNat_inj.mp h
  exact (List.map_injective_iff.mpr hinjective).eq_iff

theorem pathKey_lt_of_strcmp {xs ys : CString} (h : strcmp xs ys = .lt) :
    pathKey xs < pathKey ys := by
  induction xs generalizing ys with
  | nil =>
      cases ys with
      | nil => simp [strcmp] at h
      | cons y ys => exact List.nil_lt_cons _ _
  | cons x xs ih =>
      cases ys with
      | nil => simp [strcmp] at h
      | cons y ys =>
          simp only [strcmp] at h
          simp only [pathKey, List.map_cons, List.cons_lt_cons_iff]
          split at h
          · rename_i hlt
            exact .inl (UInt8.lt_iff_toNat_lt.mp hlt)
          · split at h
            · simp at h
            · rename_i hle hge
              have heq : x = y := UInt8.le_antisymm (UInt8.not_lt.mp hge) (UInt8.not_lt.mp hle)
              exact .inr ⟨by rw [heq], ih h⟩

theorem strcmp_eq_compare (xs ys : CString) :
    strcmp xs ys = (LinearOrder.toOrd : Ord (List ℕ)).compare (pathKey xs) (pathKey ys) := by
  cases hcmp : strcmp xs ys with
  | lt => exact (compare_lt_iff_lt.mpr (pathKey_lt_of_strcmp hcmp)).symm
  | eq =>
      obtain rfl := (strcmp_eq_iff xs ys).mp hcmp
      exact (compare_eq_iff_eq.mpr rfl).symm
  | gt =>
      have hswap : strcmp ys xs = .lt := by
        rw [← strcmp_swap, hcmp]
        rfl
      exact (compare_gt_iff_gt.mpr (pathKey_lt_of_strcmp hswap)).symm

/-! ## File trees -/

/-- The key of a file object. -/
def fileKey (files : Heap FatFile) (a : ℕ) : List ℕ :=
  pathKey (((files.get a).map FatFile.filepath).getD [])

/-- The file tree is a search tree on the paths, and every node of the hierarchy has a live file
of its own. -/
structure FileTree (s : FsState) (root : HTree) (tree : BinaryTree (ℕ × ℕ)) : Prop where
  fileTree : s.fileTree = some root
  shape : TreeAt s.nodes root tree
  ordered : Ordered (fun x => fileKey s.files x.2) tree
  live : ∀ a n, s.nodes.get a = some n → ∃ f, s.files.get n.data = some f
  data_inj : ∀ a b n m, s.nodes.get a = some n → s.nodes.get b = some m → n.data = m.data → a = b
  lists : SiblingLists s.nodes none
  parents : ParentsLive s.nodes

/-- The tree holds a file at the path: the node and the file. -/
structure FileAt (s : FsState) (tree : BinaryTree (ℕ × ℕ)) (path : CString) (node : ℕ)
    (n : HNode ℕ) (f : FatFile) : Prop where
  mem : (node, n.data) ∈ inorder tree
  file : NodeFile s node n f
  path : f.filepath = path

variable {s s' : FsState} {root : HTree} {tree : BinaryTree (ℕ × ℕ)} {path : CString}

theorem FileTree.nodeFile (h : FileTree s root tree) {x : ℕ × ℕ} (hx : x ∈ inorder tree) :
    ∃ n f, NodeFile s x.1 n f ∧ n.data = x.2 := by
  obtain ⟨n, hn, hdata⟩ := h.shape.mem hx
  obtain ⟨f, hf⟩ := h.live x.1 n hn
  exact ⟨n, f, ⟨hn, hf⟩, hdata⟩

theorem NodeFile.fileKey {node : ℕ} {n : HNode ℕ} {f : FatFile} (h : NodeFile s node n f) :
    fileKey s.files n.data = pathKey f.filepath := by
  rw [FatFuse.fileKey, h.live]
  rfl

theorem FileTree.search (h : FileTree s root tree) (path : CString) :
    fatTreeNodeSearch s path =
      some ((find? (fun x => fileKey s.files x.2) (pathKey path) tree).map Prod.fst) := by
  have hcmp : ∀ x ∈ inorder tree, fatFileCmpPath s.files x.2 path =
      some ((LinearOrder.toOrd : Ord (List ℕ)).compare (fileKey s.files x.2) (pathKey path)) := by
    intro x hx
    obtain ⟨n, f, hfile, hdata⟩ := h.nodeFile hx
    rw [← hdata, hfile.fileKey, ← strcmp_eq_compare]
    simp only [fatFileCmpPath, hfile.live, Option.bind_eq_bind, Option.bind_some]
  have hfuel : tree.numNodes < s.nodes.next + 1 :=
    Nat.lt_succ_of_le (h.shape.numNodes_le (h.shape.nodup h.ordered))
  rw [fatTreeNodeSearch, h.fileTree]
  exact h.shape.searchLoop hcmp hfuel

/-- The search finds the file of the path. -/
theorem FileAt.search (h : FileTree s root tree) {node : ℕ} {n : HNode ℕ} {f : FatFile}
    (hat : FileAt s tree path node n f) : fatTreeNodeSearch s path = some (some node) := by
  rw [h.search, h.ordered.find?_eq_some_iff.mpr ⟨hat.mem, by rw [hat.file.fileKey, hat.path]⟩]
  rfl

theorem FileTree.search_missing (h : FileTree s root tree)
    (hmissing : ∀ node n f, ¬ FileAt s tree path node n f) :
    fatTreeNodeSearch s path = some none := by
  rw [h.search, h.ordered.find?_eq_none_iff.mpr, Option.map_none]
  intro x hx hkey
  obtain ⟨n, f, hfile, hdata⟩ := h.nodeFile hx
  rw [← hdata, hfile.fileKey, pathKey_inj] at hkey
  refine hmissing x.1 n f ⟨?_, hfile, hkey⟩
  rw [hdata]
  exact hx

/-! ## Counting -/

theorem exists_modifyFiles {f : FatFile → FatFile} {ds : List ℕ}
    (hlive : ∀ d ∈ ds, ∃ file, s.files.get d = some file) :
    ∃ s', FsState.modifyFiles f ds s = some s' := by
  induction ds generalizing s with
  | nil => exact ⟨s, rfl⟩
  | cons d ds ih =>
      obtain ⟨file, hfile⟩ := hlive d (by simp)
      obtain ⟨files, hwrite⟩ := Heap.exists_write hfile (f file)
      obtain ⟨-, -, hself, hothers⟩ := Heap.write_eq_some hwrite
      obtain ⟨s', hrest⟩ := @ih { s with files := files } fun e he => by
        by_cases hed : e = d
        · exact ⟨f file, hed ▸ hself⟩
        · obtain ⟨file', hfile'⟩ := hlive e (by simp [he])
          exact ⟨file', (hothers e hed).trans hfile'⟩
      refine ⟨s', ?_⟩
      simp only [FsState.modifyFiles, FsState.modifyFile, Heap.modify, hfile, hwrite,
        Option.bind_eq_bind, Option.bind_some]
      exact hrest

/-- The counters of a node and of everything above it went up by one, and nothing else changed. -/
structure CountedAt (s s' : FsState) (node : ℕ) : Prop where
  above : ∀ a n f, Below s.nodes a node → NodeFile s a n f →
    NodeFile s' a n { f with numTimesOpened := f.numTimesOpened + 1 }
  others : ∀ a n f, ¬ Below s.nodes a node → NodeFile s a n f → NodeFile s' a n f

/-- The counters, of 31 bits, have room for one more handle. -/
def RoomAbove (s : FsState) (node : ℕ) : Prop :=
  ∀ a n f, Below s.nodes a node → NodeFile s a n f → f.numTimesOpened + 1 < 2 ^ 31

theorem FileTree.inc (h : FileTree s root tree) {node : ℕ} {n : HNode ℕ}
    (hn : s.nodes.get node = some n) :
    ∃ s', fatTreeIncNumTimesOpened s node = some s' ∧
      (∀ a m f, Below s.nodes a node → NodeFile s a m f →
        NodeFile s' a m (fatFileIncNumTimesOpened f)) ∧
      ∀ a m f, ¬ Below s.nodes a node → NodeFile s a m f → NodeFile s' a m f := by
  obtain ⟨ds, hds, hnodup, hbelow, hnodes⟩ := ancestors_below h.lists h.parents h.data_inj hn
  obtain ⟨s', hrun⟩ := @exists_modifyFiles s fatFileIncNumTimesOpened ds fun d hd => by
    obtain ⟨a, m, hm, rfl⟩ := hnodes d hd
    exact h.live a m hm
  obtain ⟨hkept, hfiles⟩ := modifyFiles_eq_some hnodup hrun
  refine ⟨s', by simp only [fatTreeIncNumTimesOpened, hds, Option.bind_eq_bind, Option.bind_some,
    hrun], fun a m f hin hfile => ?_, fun a m f hout hfile => ?_⟩
  · refine ⟨by rw [hkept]; exact hfile.node, ?_⟩
    rw [hfiles, if_pos ((hbelow a m hfile.node).mpr hin), hfile.live, Option.map_some]
  · refine ⟨by rw [hkept]; exact hfile.node, ?_⟩
    rw [hfiles, if_neg fun hd => hout ((hbelow a m hfile.node).mp hd), hfile.live]

/-! ## Answers -/

/-- What a request to open `path` must answer: 0 for a file of the wanted kind, whose node is then
the handle and is counted, and otherwise a negative number and no change. -/
structure AnswersOpen (s : FsState) (tree : BinaryTree (ℕ × ℕ)) (path : CString)
    (wantDirectory : Bool) (r : ℤ) (fh : Option ℕ) (s' : FsState) : Prop where
  zero_iff : r = 0 ↔ ∃ node n f, FileAt s tree path node n f ∧ fatFileIsDirectory f = wantDirectory
  opened : r = 0 → ∃ node n f, FileAt s tree path node n f ∧ fh = some node ∧ CountedAt s s' node
  failed : r ≠ 0 → r < 0 ∧ ∀ a n f, NodeFile s a n f → NodeFile s' a n f

/-- Both requests return and answer as they must. -/
def OpensFiles (s : FsState) (tree : BinaryTree (ℕ × ℕ)) (path : CString) : Prop :=
  (∃ r fh s', fatFuseOpen s path = some (r, fh, s') ∧ AnswersOpen s tree path false r fh s') ∧
    ∃ r fh s', fatFuseOpendir s path = some (r, fh, s') ∧ AnswersOpen s tree path true r fh s'

theorem FileAt.unique (h : FileTree s root tree) {node node' : ℕ} {n n' : HNode ℕ}
    {f f' : FatFile} (hat : FileAt s tree path node n f)
    (hat' : FileAt s tree path node' n' f') : node' = node ∧ f' = f := by
  have hsame := (hat'.search h).symm.trans (hat.search h)
  obtain rfl : node' = node := by simpa using hsame
  exact ⟨rfl, (hat.file.unique hat'.file).2⟩

section Requests

variable {wantDirectory : Bool} {error : ℤ}

/-- A missing path is answered with what `errno` holds. -/
theorem openNode_missing (h : FileTree s root tree)
    (hmissing : ∀ node n f, ¬ FileAt s tree path node n f) :
    openNode s path wantDirectory error = some (- s.errno, none, s) := by
  rw [openNode, h.search_missing hmissing]
  rfl

theorem answersOpen_missing_iff (h : FileTree s root tree)
    (hmissing : ∀ node n f, ¬ FileAt s tree path node n f) :
    (∃ r fh s', openNode s path wantDirectory error = some (r, fh, s') ∧
      AnswersOpen s tree path wantDirectory r fh s') ↔ 0 < s.errno := by
  rw [openNode_missing h hmissing]
  constructor
  · rintro ⟨r, fh, s', hsame, hanswer⟩
    obtain ⟨rfl, -, -⟩ := by simpa only [Option.some.injEq, Prod.mk.injEq] using hsame
    by_cases hzero : - s.errno = 0
    · obtain ⟨node, n, f, hat, -⟩ := hanswer.zero_iff.mp hzero
      exact absurd hat (hmissing node n f)
    · have hnegative := (hanswer.failed hzero).1
      omega
  · intro herrno
    refine ⟨_, _, _, rfl, ⟨fun hzero => by omega, ?_⟩, fun hzero => by omega, fun _ => ?_⟩
    · rintro ⟨node, n, f, hat, -⟩
      exact absurd hat (hmissing node n f)
    · exact ⟨by omega, fun a n f hfile => hfile⟩

/-- A file of the other kind is refused. -/
theorem answersOpen_otherKind (h : FileTree s root tree) {node : ℕ} {n : HNode ℕ} {f : FatFile}
    (hat : FileAt s tree path node n f) (hkind : fatFileIsDirectory f ≠ wantDirectory)
    (herror : 0 < error) :
    ∃ r fh s', openNode s path wantDirectory error = some (r, fh, s') ∧
      AnswersOpen s tree path wantDirectory r fh s' := by
  refine ⟨- error, none, s, ?_, ⟨fun hzero => by omega, ?_⟩, fun hzero => by omega, fun _ => ?_⟩
  · simp only [openNode, hat.search h, fatTreeGetFile, hat.file.node, hat.file.live,
      Option.bind_eq_bind, Option.bind_some, if_pos hkind]
  · rintro ⟨node', n', f', hat', hkind'⟩
    obtain ⟨-, rfl⟩ := hat.unique h hat'
    exact absurd hkind' hkind
  · exact ⟨by omega, fun a n f hfile => hfile⟩

theorem CountedAt.room {s₁ : FsState} {node : ℕ} (h : CountedAt s s₁ node)
    (hinc : ∀ a n f, Below s.nodes a node → NodeFile s a n f →
      NodeFile s₁ a n (fatFileIncNumTimesOpened f)) : RoomAbove s node := by
  intro a n f hin hfile
  have hsame := ((hinc a n f hin hfile).unique (h.above a n f hin hfile)).2
  have hcount := congrArg FatFile.numTimesOpened hsame
  simp only [fatFileIncNumTimesOpened] at hcount
  rw [hcount]
  exact Nat.mod_lt _ (by decide)

theorem answersOpen_found_iff (h : FileTree s root tree) {node : ℕ} {n : HNode ℕ} {f : FatFile}
    (hat : FileAt s tree path node n f) (hkind : fatFileIsDirectory f = wantDirectory) :
    (∃ r fh s', openNode s path wantDirectory error = some (r, fh, s') ∧
      AnswersOpen s tree path wantDirectory r fh s') ↔ RoomAbove s node := by
  obtain ⟨s₁, hrun, hinc, hothers⟩ := h.inc hat.file.node
  have hopen : openNode s path wantDirectory error = some (0, some node, s₁) := by
    simp only [openNode, hat.search h, fatTreeGetFile, hat.file.node, hat.file.live,
      Option.bind_eq_bind, Option.bind_some, hkind, ne_eq, not_true_eq_false, if_false, hrun]
  rw [hopen]
  constructor
  · rintro ⟨r, fh, s', hsame, hanswer⟩
    obtain ⟨rfl, rfl, rfl⟩ := by simpa only [Option.some.injEq, Prod.mk.injEq] using hsame
    obtain ⟨node', n', f', hat', -, hcounted⟩ := hanswer.opened rfl
    obtain ⟨rfl, -⟩ := hat.unique h hat'
    exact hcounted.room hinc
  · intro hroom
    refine ⟨0, some node, s₁, rfl, ⟨fun _ => ⟨node, n, f, hat, hkind⟩, fun _ => rfl⟩,
      fun _ => ⟨node, n, f, hat, rfl, ⟨fun a m g hin hfile => ?_, hothers⟩⟩,
      fun hne => absurd rfl hne⟩
    have hcount := hinc a m g hin hfile
    rwa [fatFileIncNumTimesOpened, Nat.mod_eq_of_lt (hroom a m g hin hfile)] at hcount

end Requests

/-- Opening a path works exactly when a missing path finds a positive `errno` in place, and the
counters above a file that is there have room. -/
theorem opensFiles_iff (h : FileTree s root tree) (path : CString) :
    OpensFiles s tree path ↔
      ((∀ node n f, ¬ FileAt s tree path node n f) → 0 < s.errno) ∧
        ∀ node n f, FileAt s tree path node n f → RoomAbove s node := by
  by_cases hmissing : ∀ node n f, ¬ FileAt s tree path node n f
  · rw [OpensFiles, fatFuseOpen, fatFuseOpendir, answersOpen_missing_iff h hmissing,
      answersOpen_missing_iff h hmissing, and_self]
    constructor
    · exact fun herrno => ⟨fun _ => herrno, fun node n f hat => absurd hat (hmissing node n f)⟩
    · exact fun hcond => hcond.1 hmissing
  · push Not at hmissing
    obtain ⟨node, n, f, hat⟩ := hmissing
    have hroom : RoomAbove s node ↔ ((∀ node n f, ¬ FileAt s tree path node n f) → 0 < s.errno) ∧
        ∀ node n f, FileAt s tree path node n f → RoomAbove s node := by
      constructor
      · refine fun hroom => ⟨fun hnone => absurd hat (hnone node n f), fun node' n' f' hat' => ?_⟩
        rw [(hat.unique h hat').1]
        exact hroom
      · exact fun hcond => hcond.2 node n f hat
    rw [← hroom, OpensFiles, fatFuseOpen, fatFuseOpendir]
    cases hkind : fatFileIsDirectory f with
    | false =>
        rw [answersOpen_found_iff h hat hkind]
        exact and_iff_left (answersOpen_otherKind h hat (by simp [hkind]) (by decide))
    | true =>
        rw [answersOpen_found_iff h hat hkind]
        exact and_iff_right (answersOpen_otherKind h hat (by simp [hkind]) (by decide))

/-- The tree of a mounted volume is the root. -/
theorem initFileTree_fileTree {v : Volume} {rootDirStartCluster : ℕ}
    (h : initFileTree v rootDirStartCluster = some s) :
    FileTree s (some 0) (.node (0, 0) .nil .nil) := by
  have hcounters := initFileTree_countersAgree h
  simp only [initFileTree, Option.bind_eq_bind, Option.bind_eq_some_iff, Prod.exists] at h
  obtain ⟨made, v₁, hinit, rootDir, rfl, h⟩ := h
  obtain ⟨nodes, root', hinsert, rfl⟩ := fatTreeInsert_eq_some rfl h
  obtain ⟨nodes', root, hinsert', hupdated⟩ := @TreeAt.insertLoop ℕ ℕ Heap.empty none .nil _ id
    (fatFileCmp (Heap.empty.alloc rootDir)) 0 none 1 rfl trivial List.nodup_nil (by simp)
    (by simp) Nat.one_pos
  obtain ⟨rfl, rfl⟩ := Prod.mk.inj (Option.some.inj (hinsert.symm.trans hinsert'))
  have hroot : root' = some 0 := hupdated.tree.1
  refine ⟨congrArg some hroot, hroot ▸ hupdated.tree, by simp [Ordered], fun a n hn => ?_,
    hcounters.data_inj, hcounters.lists, hcounters.parents⟩
  obtain ⟨f, hf, -⟩ := hcounters.counter a n hn
  exact ⟨f, hf⟩

/-- A file was made below the root: it opens, with the counters of both counting it. -/
theorem opensFiles_iff_child :
    ∃ mounted r s tree n f, initFileTree (rootVolume 0) 2 = some mounted ∧
      fatFuseMknod smallTable mounted pathA = some (r, s) ∧ FileTree s (some 0) tree ∧
      FileAt s tree pathA 1 n f ∧ n.hParent = some 0 ∧ OpensFiles s tree pathA := by
  have hrun : (initFileTree (rootVolume 0) 2).bind (fun mounted =>
      (fatFuseMknod smallTable mounted pathA).bind fun made =>
        (made.2.nodes.get 0).bind fun m => (made.2.nodes.get 1).bind fun n =>
          (made.2.files.get m.data).bind fun g => (made.2.files.get n.data).map fun f =>
            (made.2.fileTree, (m.left, m.right, m.data), (n.left, n.right, n.data, n.hParent),
              g.filepath, f.filepath)) =
      some (some (some 0), (none, some 1, 0), (none, none, 1, some 0), rootPath, pathA) := by
    rfl
  simp only [Option.bind_eq_some_iff, Option.map_eq_some_iff, Prod.exists, Prod.mk.injEq] at hrun
  obtain ⟨mounted, hmount, r, s, hmknod, m, hm, n, hn₁, g, hg, f, hf, htop, ⟨hml, hmr, hmd⟩,
    ⟨hnl, hnr, hnd, hparent⟩, hgpath, hfpath⟩ := hrun
  have hcounters := (initFileTree_countersAgree hmount).mknod hmknod
  have htree : FileTree s (some 0) (.node (0, 0) .nil (.node (1, 1) .nil .nil)) := by
    refine ⟨htop, ?_, ?_, fun a n hn => ?_, hcounters.data_inj, hcounters.lists,
      hcounters.parents⟩
    · exact ⟨rfl, m, hm, hmd, hml, hmr ▸ ⟨rfl, n, hn₁, hnd, hnl, hnr⟩⟩
    · have hkey : fileKey s.files 0 < fileKey s.files 1 := by
        simp only [fileKey, ← hmd, hg, ← hnd, hf, Option.map_some, Option.getD_some, hgpath, hfpath]
        decide
      simpa [Ordered] using hkey
    · obtain ⟨f, hf, -⟩ := hcounters.counter a n hn
      exact ⟨f, hf⟩
  have hat : FileAt s (.node (0, 0) .nil (.node (1, 1) .nil .nil)) pathA 1 n f :=
    ⟨by simp [hnd], ⟨hn₁, hf⟩, hfpath⟩
  refine ⟨mounted, r, s, _, n, f, hmount, hmknod, htree, hat, hparent,
    (opensFiles_iff htree pathA).mpr
      ⟨fun hmissing => absurd hat (hmissing 1 n f), fun node n f _ a m g _ hfile => ?_⟩⟩
  obtain ⟨g', hlive, hcount⟩ := hcounters.counter a m hfile.node
  rw [hfile.live, Option.some.injEq] at hlive
  rw [hlive, hcount, openBelow, List.countP_nil]
  decide

/-- After mounting nothing is at `/a`, and opening it succeeds without a handle. -/
theorem open_missing :
    ∃ s, initFileTree (rootVolume 0) 2 = some s ∧
      FileTree s (some 0) (.node (0, 0) .nil .nil) ∧
      fatFuseOpen s pathA = some (0, none, s) ∧ ¬ OpensFiles s (.node (0, 0) .nil .nil) pathA := by
  have hrun : (initFileTree (rootVolume 0) 2).bind (fun s =>
      (s.files.get 0).map fun f => (s.errno, f.filepath)) = some (0, rootPath) := by
    rfl
  simp only [Option.bind_eq_some_iff, Option.map_eq_some_iff, Prod.mk.injEq] at hrun
  obtain ⟨s, hmount, f, hf, herrno, hpath⟩ := hrun
  have htree := initFileTree_fileTree hmount
  have hmissing : ∀ node n f,
      ¬ FileAt s (.node (0, 0) .nil .nil) pathA node n f := by
    rintro node n f' ⟨hmem, hfile, hpath'⟩
    obtain ⟨rfl, hdata⟩ : node = 0 ∧ n.data = 0 := by simpa using hmem
    have hlive := hfile.live
    rw [hdata, hf, Option.some.injEq] at hlive
    rw [← hlive, hpath] at hpath'
    exact absurd hpath' (by decide)
  have hopen : fatFuseOpen s pathA = some (0, none, s) := by
    rw [fatFuseOpen, openNode_missing htree hmissing, herrno]
    rfl
  refine ⟨s, hmount, htree, hopen, fun hopens => ?_⟩
  have herrno' := (answersOpen_missing_iff htree hmissing).mp hopens.1
  omega

end SistOp.FatFuse
