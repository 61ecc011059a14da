import SistOp.DirectoryRemoval
import Mathlib.Tactic

/-!
# Loading and creating the log directory

`create_log_file` looks for a cluster marked as bad.  If the cluster starts with the entry
of the log, the directory is loaded from it; otherwise the mark is taken back, the
directory gets a free cluster, and the log is created in whatever file the tree has at
`/bb`.
-/

namespace SistOp.FatFuse

open ByteStore

variable {t : FatTable} {env : FuseEnv}

theorem bytesPerCluster_ge : fatDirEntryByteSize ≤ fatTableBytesPerCluster t := by
  rw [bytesPerCluster_eq_slots]
  exact Nat.le_mul_of_pos_right _ slotsPerCluster_pos

/-! ## The search -/

theorem searchBbLoop_eq_some {v : Volume} {fuel start c : ℕ}
    (h : searchBbLoop t v fuel start = some c) : start ≤ c := by
  induction fuel generalizing start with
  | zero => simp [searchBbLoop] at h
  | succ fuel ih =>
      simp only [searchBbLoop, Option.bind_eq_bind, Option.bind_eq_some_iff] at h
      obtain ⟨entry, -, h⟩ := h
      split at h
      · exact (Nat.le_succ start).trans (ih h)
      · exact (Option.some.inj h).le

/-- The search returns 0 and may have taken a mark back, or a marked cluster. -/
theorem searchBbOrphanDirCluster_eq_some [t.Formatted] {stack : ℤ → UInt8} {v v' : Volume} {c : ℕ}
    (h : searchBbOrphanDirCluster t stack v = some (c, v')) :
    (c = 0 ∧ KeepsOutside t ∅ v v') ∨
      (3 ≤ c ∧ c < t.fatEntries ∧ v.fatMap c = fatClusterBadSector ∧ v.Reads v') := by
  simp only [searchBbOrphanDirCluster, Option.bind_eq_bind, Option.bind_eq_some_iff] at h
  obtain ⟨found, hloop, entry, hentry, h⟩ := h
  have hge := searchBbLoop_eq_some hloop
  have hread := fullPread_reads v stack fatDirEntryByteSize (fatTableClusterOffset t found : ℕ)
  unfold fatMapRead at hentry
  split at hentry
  · rename_i hlt
    obtain rfl := Option.some.inj hentry
    split at h
    · obtain ⟨rfl, rfl⟩ := Prod.mk.inj (Option.some.inj h)
      exact Or.inl ⟨rfl, KeepsOutside.refl _ _⟩
    · rename_i hbad
      split at h
      · simp only [Option.bind_eq_some_iff, Option.some.injEq, Prod.mk.injEq] at h
        obtain ⟨v₁, hset, rfl, rfl⟩ := h
        exact Or.inl ⟨rfl, (hread.keepsOutside _).trans (setNextCluster_keeps _ hset)⟩
      · obtain ⟨rfl, rfl⟩ := Prod.mk.inj (Option.some.inj h)
        exact Or.inr ⟨hge, hlt, by simpa [fatTableClusterIsBadSector] using hbad, hread⟩
  · contradiction

/-! ## The directory -/

theorem fatFileInitOrphanDir_eq_some {v v' : Volume} {name : CString} {c : ℕ}
    {r : Option FatFile} (h : fatFileInitOrphanDir v name c = some (r, v')) :
    v.Reads v' ∧ v'.errno = v.errno ∧ (v.errno ≠ 0 → r = none) ∧
      ∀ file, r = some file → file.startCluster = c % 2 ^ 32 ∧ file.filepath = name ∧
        file.posInParent = 0 := by
  simp only [fatFileInitOrphanDir, Option.bind_eq_bind, Option.bind_eq_some_iff,
    Prod.exists] at h
  obtain ⟨entry, v₁, hinit, h⟩ := h
  obtain ⟨-, -, -, rfl⟩ := fatFileInitDirentry_eq_some hinit
  split at h
  · obtain ⟨rfl, rfl⟩ := Prod.mk.inj (Option.some.inj h)
    exact ⟨⟨⟨rfl, List.suffix_refl _⟩, rfl, rfl⟩, rfl, fun _ => rfl, by simp⟩
  · rename_i hok
    obtain ⟨rfl, rfl⟩ := Prod.mk.inj (Option.some.inj h)
    refine ⟨⟨⟨rfl, List.suffix_refl _⟩, rfl, rfl⟩, rfl, fun hne => absurd hne hok, ?_⟩
    intro file hfile
    obtain rfl := Option.some.inj hfile
    exact ⟨rfl, rfl, rfl⟩

theorem allocResult_vol (s : FsState) (r : Option FatFile × Volume) :
    (allocResult s r).2.vol = r.2 := by
  obtain ⟨file | file, v⟩ := r <;> rfl

theorem bbCreateNewOrphanDir_kept [t.Formatted] {s s' : FsState} {r : ℤ} (cs : Set ℕ)
    (h : bbCreateNewOrphanDir t s = some (r, s')) :
    TreeKept s s' ∧ KeepsOutside t cs s.vol s'.vol := by
  simp only [bbCreateNewOrphanDir, Option.bind_eq_bind, Option.bind_eq_some_iff, Prod.exists,
    Option.some.injEq, Prod.mk.injEq] at h
  obtain ⟨cluster, -, v₁, hset, result, v₂, hinit, root, -, s₁, hinsert, rfl, rfl⟩ := h
  obtain ⟨hreads, -, -, -⟩ := fatFileInitOrphanDir_eq_some hinit
  obtain ⟨hkept, hreads'⟩ := fatTreeInsert_kept hinsert
  rw [allocResult_vol] at hreads'
  have hset₀ := setNextCluster_keeps cs hset
  have hset' : KeepsOutside t cs s.vol v₁ := ⟨hset₀.later, hset₀.kept⟩
  refine ⟨?_, (hset'.trans (hreads.keepsOutside cs)).trans (hreads'.keepsOutside cs)⟩
  exact ((TreeKept.of_vol s _).trans (TreeKept.allocResult _ _)).trans hkept

/-- What the load of the log directory writes: the bytes it read, if all calls transfer
what they are asked for, and in any case bytes of that cluster only. -/
theorem writeBack_keeps {stack : ℤ → UInt8} {v : Volume} {start : ℕ} {v₂ : Volume}
    (hstart : start < 2 ^ 32)
    (hreads : (fullPread v stack fatDirEntryByteSize
      (fatTableClusterOffset t start : ℕ)).2.2.Reads v₂)
    (hno : v.Uninterrupted) :
    KeepsOutside t {start} v₂ (fullPwrite v₂ (fullPread v stack fatDirEntryByteSize
      (fatTableClusterOffset t start : ℕ)).2.1 fatDirEntryByteSize
      (fatTableClusterOffset t start : ℕ)).2 := by
  have hread := fullPread_reads v stack fatDirEntryByteSize (fatTableClusterOffset t start : ℕ)
  obtain ⟨hlater, -, hdisk⟩ := fullPwrite_keeps
    (fullPread v stack fatDirEntryByteSize (fatTableClusterOffset t start : ℕ)).2.1
    fatDirEntryByteSize (fatTableClusterOffset t start)
    ((hread.trans hreads).later.uninterrupted hno)
  refine KeepsOutside.of_cluster hlater hstart fun a ha => hdisk a ?_
  by_contra hin
  have hroom := bytesPerCluster_ge (t := t)
  exact ha (a - fatTableClusterOffset t start) (by omega) (by omega)

theorem writeBack_same {stack : ℤ → UInt8} {v v₂ : Volume} {off : ℕ} (hio : v.io = [])
    (hreads : (fullPread v stack fatDirEntryByteSize (off : ℕ)).2.2.Reads v₂) :
    v₂.Reads (fullPwrite v₂ (fullPread v stack fatDirEntryByteSize (off : ℕ)).2.1
      fatDirEntryByteSize (off : ℕ)).2 := by
  rw [fullPread_of_ioSucceeds hio] at hreads ⊢
  have hio₂ : v₂.io = [] := List.suffix_nil.mp (hio ▸ hreads.later.2)
  by_cases hw : v₂.writable = true
  · rw [fullPwrite_of_ioSucceeds ⟨hw, hio₂⟩]
    refine ⟨⟨rfl, List.suffix_refl _⟩, ?_, rfl⟩
    funext a
    simp only [store_apply]
    split
    · rename_i hin
      have hidx : 0 ≤ ((a - off : ℕ) : ℤ) ∧ ((a - off : ℕ) : ℤ) < 0 + fatDirEntryByteSize := by
        omega
      rw [fillBuffer, if_pos hidx, hreads.disk]
      congr 1
      omega
    · rfl
  · simp only [Bool.not_eq_true] at hw
    have hfail : fullPwrite v₂ (fillBuffer stack 0 fatDirEntryByteSize v.disk off)
        fatDirEntryByteSize (off : ℕ) =
          ((0 : ℤ), { v₂ with errno := Errno.ebadf }) := by
      simp [fullPwrite, fullPwriteLoop, pwrite, hw]
    rw [hfail]
    exact ⟨⟨rfl, List.suffix_refl _⟩, rfl, rfl⟩

/-- Loading the directory at `startCluster` changes no byte outside of its cluster, and
none at all when no call fails. -/
theorem bbLoadLogDir_kept {stack : ℤ → UInt8} {s s' : FsState} {start : ℕ}
    (hstart : start < 2 ^ 32) (h : bbLoadLogDir t stack s start = some s') :
    TreeKept s s' ∧ (s.vol.io = [] → s.vol.Reads s'.vol) ∧
      (s.vol.Uninterrupted → KeepsOutside t {start} s.vol s'.vol) := by
  simp only [bbLoadLogDir, Option.bind_eq_bind, Option.bind_eq_some_iff, Prod.exists] at h
  obtain ⟨result, v₁, hinit, rootNode, -, s₁, hinsert, dirNode, -, loaded, -, dir, hdir,
    dir', children, v₂, hlist, files, hwrite, h⟩ := h
  have hread := fullPread_reads s.vol stack fatDirEntryByteSize
    (fatTableClusterOffset t start : ℕ)
  obtain ⟨hreads, -, -, -⟩ := fatFileInitOrphanDir_eq_some hinit
  obtain ⟨hkept, hinserted⟩ := fatTreeInsert_kept hinsert
  obtain ⟨hlisted, hrelisted⟩ := fatFileReadChildren_reads hlist
  obtain ⟨hkept', hchildren⟩ := insertChildren_kept h
  obtain ⟨e, b, rfl⟩ := hrelisted
  rw [allocResult_vol] at hinserted
  have hafter := (hinserted.trans hlisted).trans hchildren
  refine ⟨?_, fun hio => ?_, fun hno => ?_⟩
  · have hfirst : TreeKept s _ := (TreeKept.allocResult s (result, v₁)).trans
      (TreeKept.of_vol _ (fullPwrite (allocResult s (result, v₁)).2.vol
        (fullPread s.vol stack fatDirEntryByteSize (fatTableClusterOffset t start : ℕ)).2.1
        fatDirEntryByteSize (fatTableClusterOffset t start : ℕ)).2)
    exact ((hfirst.trans hkept).trans
      (TreeKept.writeFile (v := v₂) hdir hwrite rfl rfl)).trans hkept'
  · have hsame := writeBack_same hio hreads
    exact ((hread.trans hreads).trans hsame).trans hafter
  · have hcluster := writeBack_keeps hstart hreads hno
    exact (((hread.trans hreads).keepsOutside _).trans hcluster).trans
      (hafter.keepsOutside _)

/-- `bb_init_log_dir` on the result of the search. -/
theorem bbInitLogDir_kept [t.Formatted] {stack : ℤ → UInt8} {s s' : FsState} {start : ℕ} {r : ℤ}
    (hstart : start < 2 ^ 32) (h : bbInitLogDir t stack s start = some (r, s')) :
    TreeKept s s' ∧
      (start = 0 ∨ s.vol.io = [] → KeepsOutside t ∅ s.vol s'.vol) ∧
      (s.vol.Uninterrupted → KeepsOutside t {start} s.vol s'.vol) := by
  unfold bbInitLogDir at h
  by_cases hzero : start = 0
  · simp only [if_pos hzero, Option.bind_eq_bind, Option.bind_eq_some_iff, Prod.exists,
      Option.some.injEq, Prod.mk.injEq] at h
    obtain ⟨result, s₂, hcreate, s₁, rfl, -, rfl⟩ := h
    have hkept := fun cs => bbCreateNewOrphanDir_kept cs hcreate
    exact ⟨((TreeKept.of_vol s _).trans (hkept ∅).1).trans (TreeKept.of_vol s₂ _),
      fun _ => ⟨(hkept ∅).2.later, (hkept ∅).2.kept⟩,
      fun _ => ⟨(hkept {start}).2.later, (hkept {start}).2.kept⟩⟩
  · simp only [if_neg hzero, Option.bind_eq_bind, Option.bind_eq_some_iff,
      Option.some.injEq, Prod.mk.injEq] at h
    obtain ⟨s₁, h, -, rfl⟩ := h
    obtain ⟨hkept, hsame, hcluster⟩ := bbLoadLogDir_kept hstart h
    refine ⟨(TreeKept.of_vol s _).trans hkept, fun hio => ?_, fun hno => ?_⟩
    · have hreads := hsame (hio.resolve_left hzero)
      exact ⟨hreads.later, fun c _ _ => ClusterKept.of_disk hreads.disk c⟩
    · have hkeeps := hcluster hno
      exact ⟨hkeeps.later, hkeeps.kept⟩

/-! ## The log -/

/-- A creation writes entries to the cluster of the parent only. -/
theorem createEntry_keeps [t.Formatted] {isDir : Bool} {failed : ℤ → Bool}
    (hfailed : failed 0 = false) {s s' : FsState} {path : CString} {r : ℤ} {d : ℕ}
    (hparent : ∀ node addr p, ParentAt s path node addr p → p.startCluster = d)
    (h : createEntry t isDir failed s path = some (r, s')) :
    KeepsOutside t {d} s.vol s'.vol := by
  cases createEntry_outcome hfailed h with
  | noParent => exact ⟨⟨rfl, List.suffix_refl _⟩, fun c _ _ => ClusterKept.of_disk rfl c⟩
  | notDirectory => exact ⟨⟨rfl, List.suffix_refl _⟩, fun c _ _ => ClusterKept.of_disk rfl c⟩
  | initFailed hat hdir hinit hbad =>
      have hkeeps := fatFileInit_keeps {d} (by rfl) hinit
      exact ⟨hkeeps.later, hkeeps.kept⟩
  | made hat hdir hinit hroot hinsert hentry hwriteParent hwriteChild =>
      have hkeeps := fatFileInit_keeps {d} (by rfl) hinit
      have hslot := writeDirEntry_keeps hentry
      rw [hparent _ _ _ hat] at hslot
      exact KeepsOutside.trans ⟨hkeeps.later, hkeeps.kept⟩ hslot

theorem FsGrown.nodeFile {s s' : FsState} (h : FsGrown s s') {node : ℕ} {n : HNode ℕ}
    {f : FatFile} (hf : NodeFile s node n f) :
    ∃ n' f', NodeFile s' node n' f' ∧ n'.hParent = n.hParent ∧ n'.data = n.data ∧
      f'.filepath = f.filepath ∧ f'.startCluster = f.startCluster := by
  obtain ⟨n', hn', hgrown⟩ := h.nodes.node node n hf.node
  obtain ⟨f', hf', hpath, hstart⟩ := h.files n.data f hf.live
  exact ⟨n', f', ⟨hn', by rw [hgrown.data]; exact hf'⟩, hgrown.hParent, hgrown.data, hpath,
    hstart⟩

theorem dirname_bbLogFile : dirname bbLogFile = bbDirname := by decide

/-- Creating the log in a tree that grew from one with a file at `/bb`. -/
theorem fatFuseMknod_log_keeps [t.Formatted] {s s' s'' : FsState} {r : ℤ} {node : ℕ} {n : HNode ℕ}
    {bb : FatFile} (hkept : TreeKept s s')
    (hfound : fatTreeNodeSearch s bbDirname = some (some node)) (hbb : NodeFile s node n bb)
    (h : fatFuseMknod t s' bbLogFile = some (r, s'')) :
    KeepsOutside t {bb.startCluster} s'.vol s''.vol := by
  refine createEntry_keeps (by decide) ?_ h
  intro node' addr p hat
  have hsearch := hat.search
  rw [dirname_bbLogFile] at hsearch
  rcases hkept.grown with hnone | hgrown
  · simp [fatTreeNodeSearch, hnone] at hsearch
  · rw [hgrown.search hfound, Option.some.injEq, Option.some.injEq] at hsearch
    subst hsearch
    obtain ⟨n', f', hf', -, -, -, hstart⟩ := hgrown.nodeFile hbb
    have hfile := hat.file
    simp only [fatTreeGetFile, hf'.node, Option.bind_eq_bind, Option.bind_some,
      Option.some.injEq] at hfile
    have hlive := hat.live
    rw [← hfile, hf'.live, Option.some.injEq] at hlive
    rw [← hlive, hstart]

/-- What `create_log_file` leaves alone when the tree has a file at `/bb`: the clusters
other than the one of that file, except for marked ones when a call may fail. -/
theorem createLogFile_clusterKept [t.Formatted] {s s' : FsState} {r : ℤ} {node : ℕ} {n : HNode ℕ}
    {bb : FatFile} {c : ℕ} (hfound : fatTreeNodeSearch s bbDirname = some (some node))
    (hbb : NodeFile s node n bb) (hc : c < 2 ^ 32) (hne : c ≠ bb.startCluster)
    (hsafe : s.vol.io = [] ∨
      s.vol.Uninterrupted ∧ s.vol.fatMap c ≠ fatClusterBadSector)
    (h : createLogFile t env s = some (r, s')) : ClusterKept t c s.vol s'.vol := by
  simp only [createLogFile, Option.bind_eq_bind, Option.bind_eq_some_iff, Prod.exists] at h
  obtain ⟨cluster, v₁, hsearch, result, s₁, hinit, h⟩ := h
  have hno : s.vol.Uninterrupted := by
    rcases hsafe with hio | ⟨hno, -⟩
    · intro e he
      simp [hio] at he
    · exact hno
  -- the directory that was loaded, or made, does not lie in `c`
  have hfirst : TreeKept s s₁ ∧ ClusterKept t c s.vol s₁.vol := by
    have hof : TreeKept s { s.setErrno 0 with vol := v₁ } := TreeKept.of_vol s v₁
    rcases searchBbOrphanDirCluster_eq_some hsearch with
      ⟨rfl, hkeeps⟩ | ⟨-, hlt, hbad, hreads⟩
    · obtain ⟨htree, hempty, -⟩ := bbInitLogDir_kept (by norm_num) hinit
      have hsearched : ClusterKept t c s.vol v₁ := hkeeps.kept c hc (by simp)
      exact ⟨hof.trans htree, hsearched.trans ((hempty (Or.inl rfl)).kept c hc (by simp))⟩
    · obtain ⟨htree, hempty, hcluster⟩ := bbInitLogDir_kept (hlt.trans t.entries_lt) hinit
      have hlater : s.vol.Later v₁ := hreads.later
      have hsearched : ClusterKept t c s.vol v₁ := ClusterKept.of_disk hreads.disk c
      refine ⟨hof.trans htree, hsearched.trans ?_⟩
      rcases hsafe with hio | ⟨-, hmark⟩
      · have hio₁ : v₁.io = [] := List.suffix_nil.mp (hio ▸ hlater.2)
        exact (hempty (Or.inr hio₁)).kept c hc (by simp)
      · refine (hcluster (hlater.uninterrupted hno)).kept c hc ?_
        rintro rfl
        exact hmark hbad
  split at h
  · obtain rfl := (Prod.mk.inj (Option.some.inj h)).2
    exact hfirst.2.trans (ClusterKept.of_disk rfl c)
  · split at h
    · simp only [Option.bind_eq_some_iff, Prod.exists] at h
      obtain ⟨mknod, s₂, hmknod, h⟩ := h
      have hkept : TreeKept s (s₁.setErrno result) := hfirst.1.trans (TreeKept.of_vol s₁ _)
      have hlog := fatFuseMknod_log_keeps hkept hfound hbb hmknod
      have hdone : ClusterKept t c s.vol s₂.vol :=
        hfirst.2.trans (hlog.kept c hc (by simpa using hne))
      split at h <;> obtain rfl := (Prod.mk.inj (Option.some.inj h)).2 <;> exact hdone
    · obtain rfl := (Prod.mk.inj (Option.some.inj h)).2
      exact hfirst.2.trans (ClusterKept.of_disk rfl c)

theorem allocResult_fileTree (s : FsState) (r : Option FatFile × Volume) :
    (allocResult s r).2.fileTree = s.fileTree := by
  obtain ⟨file | file, v⟩ := r <;> rfl

/-- With a null tree the search for the root is a fault. -/
theorem createLogFile_fileTree {s s' : FsState} {r : ℤ}
    (h : createLogFile t env s = some (r, s')) : s.fileTree ≠ none := by
  intro hnone
  have hsearch : ∀ key (s₁ : FsState), s₁.fileTree = none →
      fatTreeNodeSearch s₁ key = none := by
    intro key s₁ h₁
    simp [fatTreeNodeSearch, h₁]
  simp only [createLogFile, Option.bind_eq_bind, Option.bind_eq_some_iff, Prod.exists] at h
  obtain ⟨cluster, v₁, -, result, s₁, hinit, -⟩ := h
  unfold bbInitLogDir at hinit
  by_cases hzero : cluster = 0
  · simp only [if_pos hzero, Option.bind_eq_bind, Option.bind_eq_some_iff, Prod.exists] at hinit
    obtain ⟨_, _, hcreate, -⟩ := hinit
    simp only [bbCreateNewOrphanDir, Option.bind_eq_bind, Option.bind_eq_some_iff,
      Prod.exists] at hcreate
    obtain ⟨_, -, _, -, _, _, -, root, hroot, -⟩ := hcreate
    rw [hsearch] at hroot
    · contradiction
    · rw [allocResult_fileTree]
      exact hnone
  · simp only [if_neg hzero, Option.bind_eq_bind, Option.bind_eq_some_iff] at hinit
    obtain ⟨_, hload, -⟩ := hinit
    simp only [bbLoadLogDir, Option.bind_eq_bind, Option.bind_eq_some_iff,
      Prod.exists] at hload
    obtain ⟨_, _, -, root, hroot, -⟩ := hload
    rw [hsearch] at hroot
    · contradiction
    · simp only [allocResult_fileTree]
      exact hnone

/-- `fat_tree_search` finds what `fat_tree_node_search` finds. -/
theorem fatTreeSearch_eq_some {s s' : FsState} {key : CString} {file : Option ℕ}
    (h : fatTreeSearch s key = some (file, s')) :
    (file.isSome ↔ ∃ node, fatTreeNodeSearch s key = some (some node)) ∧
      (s' = s ∨ s' = s.setErrno Errno.einval) := by
  unfold fatTreeSearch at h
  split at h
  · simp only [Option.bind_eq_bind, Option.bind_eq_some_iff] at h
    obtain ⟨found, hsearch, h⟩ := h
    cases found with
    | none =>
        obtain ⟨rfl, rfl⟩ := Prod.mk.inj (Option.some.inj h)
        exact ⟨by simp [hsearch], Or.inr rfl⟩
    | some node =>
        simp only [Option.bind_eq_some_iff] at h
        obtain ⟨m, -, h⟩ := h
        obtain ⟨rfl, rfl⟩ := Prod.mk.inj (Option.some.inj h)
        exact ⟨by simp [hsearch], Or.inl rfl⟩
  · rename_i hroot
    obtain ⟨rfl, rfl⟩ := Prod.mk.inj (Option.some.inj h)
    refine ⟨?_, Or.inl rfl⟩
    simp only [Option.isSome_none, Bool.false_eq_true, false_iff, not_exists]
    intro node hfound
    simp only [fatTreeNodeSearch, Option.bind_eq_bind, Option.bind_eq_some_iff] at hfound
    obtain ⟨root, htree, hfound⟩ := hfound
    cases root with
    | none => simp [hTreeSearch, hTreeSearchLoop] at hfound
    | some a => exact hroot a htree

/-- What `fat_fuse_read_children` does: it decodes the children, inserts them below the
node, and loads or creates the log if the tree has none. -/
theorem fatFuseReadChildren_inserts {s s' : FsState} {dirNode : ℕ} {n : HNode ℕ}
    (hn : s.nodes.get dirNode = some n) (h : fatFuseReadChildren t env s dirNode = some s') :
    ∃ dir dir' children v files s₁ s₂, s.files.get n.data = some dir ∧
      fatFileReadChildren t (s.setErrno 0).vol dir = some (dir', children, v) ∧
      s.files.write n.data dir' = some files ∧
      insertChildren (some dirNode) children { s with vol := v, files := files } = some s₁ ∧
      (s₂ = s₁ ∨ s₂ = s₁.setErrno Errno.einval) ∧
      ((∃ node, fatTreeNodeSearch s₁ bbLogFile = some (some node)) ∧ s' = s₂ ∨
        (¬ ∃ node, fatTreeNodeSearch s₁ bbLogFile = some (some node)) ∧
          ∃ r, createLogFile t env s₂ = some (r, s')) := by
  have hnode : (s.setErrno 0).nodes.get dirNode = some n := hn
  simp only [fatFuseReadChildren, fatTreeGetFile, hnode, Option.bind_eq_bind, Option.bind_some,
    Option.bind_eq_some_iff, Prod.exists] at h
  obtain ⟨dir, hdir, dir', children, v, hlist, files, hwrite, s₁, hinsert, logFile, s₂, hlog,
    h⟩ := h
  obtain ⟨hfound, hsame⟩ := fatTreeSearch_eq_some hlog
  refine ⟨dir, dir', children, v, files, s₁, s₂, hdir, hlist, hwrite, hinsert, hsame, ?_⟩
  split at h
  · rename_i hnone
    simp only [Option.bind_eq_some_iff, Prod.exists, Option.some.injEq] at h
    obtain ⟨r, s₃, hcreate, rfl⟩ := h
    refine Or.inr ⟨fun hsome => ?_, r, hcreate⟩
    have hisSome := hfound.mpr hsome
    simp [hnone] at hisSome
  · rename_i hsome
    obtain rfl := Option.some.inj h
    exact Or.inl ⟨hfound.mp (Option.isSome_iff_ne_none.mpr hsome), rfl⟩

/-- A listing by `fat_fuse_read_children` reads the disk and inserts the children; then,
if the tree has no log, it loads or creates one. -/
theorem fatFuseReadChildren_eq_some {s s' : FsState} {dirNode : ℕ}
    (h : fatFuseReadChildren t env s dirNode = some s') :
    ∃ s₁, TreeKept s s₁ ∧ s.vol.Reads s₁.vol ∧
      ((∃ node, fatTreeNodeSearch s₁ bbLogFile = some (some node)) ∧ s' = s₁ ∨
        (¬ ∃ node, fatTreeNodeSearch s₁ bbLogFile = some (some node)) ∧
          ∃ r, createLogFile t env s₁ = some (r, s')) := by
  obtain ⟨n, hn⟩ : ∃ n, s.nodes.get dirNode = some n := by
    have hfile := h
    simp only [fatFuseReadChildren, fatTreeGetFile, Option.bind_eq_bind,
      Option.bind_eq_some_iff] at hfile
    obtain ⟨_, ⟨n, hn, -⟩, -⟩ := hfile
    exact ⟨n, hn⟩
  obtain ⟨dir, dir', children, v, files, s₁, s₂, hdir, hlist, hwrite, hinsert, hsame, hlog⟩ :=
    fatFuseReadChildren_inserts hn h
  obtain ⟨hlisted, e, b, rfl⟩ := fatFileReadChildren_reads hlist
  obtain ⟨hkept, hchildren⟩ := insertChildren_kept hinsert
  have hlisted' : s.vol.Reads v := ⟨hlisted.later, hlisted.disk, hlisted.fatMap⟩
  have hreads : s.vol.Reads s₁.vol := hlisted'.trans hchildren
  have htree : TreeKept s s₁ :=
    (TreeKept.writeFile (v := v) hdir hwrite rfl rfl).trans hkept
  rcases hsame with rfl | rfl
  · exact ⟨s₂, htree, hreads, hlog⟩
  · exact ⟨s₁.setErrno Errno.einval, htree.trans (TreeKept.of_vol s₁ _),
      ⟨hreads.later, hreads.disk, hreads.fatMap⟩, hlog⟩

/-- A listing leaves the same clusters alone. -/
theorem fatFuseReadChildren_clusterKept [t.Formatted] {s s' : FsState} {dirNode : ℕ} {node : ℕ}
    {n : HNode ℕ} {bb : FatFile} {c : ℕ}
    (hfound : fatTreeNodeSearch s bbDirname = some (some node)) (hbb : NodeFile s node n bb)
    (hc : c < 2 ^ 32) (hne : c ≠ bb.startCluster)
    (hsafe : s.vol.io = [] ∨
      s.vol.Uninterrupted ∧ s.vol.fatMap c ≠ fatClusterBadSector)
    (h : fatFuseReadChildren t env s dirNode = some s') : ClusterKept t c s.vol s'.vol := by
  obtain ⟨s₁, hkept, hreads, ⟨-, rfl⟩ | ⟨-, r, hcreate⟩⟩ := fatFuseReadChildren_eq_some h
  · exact ClusterKept.of_disk hreads.disk c
  · have hgrown := hkept.grown.resolve_left (createLogFile_fileTree hcreate)
    obtain ⟨n', bb', hbb', -, -, -, hstart⟩ := hgrown.nodeFile hbb
    have hsafe' : s₁.vol.io = [] ∨
        s₁.vol.Uninterrupted ∧ s₁.vol.fatMap c ≠ fatClusterBadSector := by
      rcases hsafe with hio | ⟨hno, hmark⟩
      · exact Or.inl (List.suffix_nil.mp (hio ▸ hreads.later.2))
      · exact Or.inr ⟨hreads.later.uninterrupted hno, by rw [hreads.fatMap]; exact hmark⟩
    exact ClusterKept.trans (ClusterKept.of_disk hreads.disk c)
      (createLogFile_clusterKept (hgrown.search hfound) hbb' hc (by rw [hstart]; exact hne)
        hsafe' hcreate)

/-- If the log is in the tree, a listing only reads. -/
theorem fatFuseReadChildren_logLoaded {s s' : FsState} {dirNode logNode : ℕ}
    (hlog : fatTreeNodeSearch s bbLogFile = some (some logNode))
    (h : fatFuseReadChildren t env s dirNode = some s') : s'.vol.disk = s.vol.disk := by
  obtain ⟨s₁, hkept, hreads, ⟨-, rfl⟩ | ⟨hnone, r, hcreate⟩⟩ := fatFuseReadChildren_eq_some h
  · exact hreads.disk
  · have hgrown := hkept.grown.resolve_left (createLogFile_fileTree hcreate)
    exact absurd ⟨logNode, hgrown.search hlog⟩ hnone

end SistOp.FatFuse
