import SistOp.ClusterFrames
import SistOp.TreeInsertion
import Mathlib.Tactic

/-!
# Listing a directory

A listing decodes the entries in front of the end mark of each cluster.  It reads the
disk only, and what it changes of the directory is the number of entries and the mark
that the children are read.
-/

namespace SistOp.FatFuse

variable {t : FatTable}

/-! ## One cluster -/

/-- The entries from slot `slot` on that a listing turns into files, with their slots. -/
def clusterEntries (buffer : ℕ → UInt8) : ℕ → ℕ → List (ℕ × FatDirEntry)
  | 0, _ => []
  | slots + 1, slot =>
      let d := FatDirEntry.ofStore buffer (fatDirEntryByteSize * slot)
      if isEndOfDirectory d then []
      else if ignoreDentry d then clusterEntries buffer slots (slot + 1)
      else (slot, d) :: clusterEntries buffer slots (slot + 1)

/-- The file of an entry that a listing of `dir` found in a slot. -/
def childOf (dir : FatFile) (e : ℕ × FatDirEntry) : FatFile :=
  initFileFromDentry e.2 { dir with nentries := e.1 }

/-- `dir'` is `dir` after some listing. -/
def FatFile.Relisted (dir dir' : FatFile) : Prop :=
  ∃ nentries childrenRead,
    dir' = { dir with nentries := nentries, childrenRead := childrenRead }

theorem FatFile.Relisted.refl (dir : FatFile) : dir.Relisted dir :=
  ⟨dir.nentries, dir.childrenRead, rfl⟩

theorem FatFile.Relisted.trans {dir dir' dir'' : FatFile} (h : dir.Relisted dir')
    (h' : dir'.Relisted dir'') : dir.Relisted dir'' := by
  obtain ⟨e, b, rfl⟩ := h
  obtain ⟨e', b', rfl⟩ := h'
  exact ⟨e', b', rfl⟩

theorem FatFile.Relisted.childOf {dir dir' : FatFile} (h : dir.Relisted dir')
    (e : ℕ × FatDirEntry) : childOf dir' e = childOf dir e := by
  obtain ⟨_, _, rfl⟩ := h
  rfl

theorem readClusterDirEntries_eq (buffer : ℕ → UInt8) (slots slot : ℕ) (dir : FatFile)
    (elems : List FatFile) :
    dir.Relisted (readClusterDirEntries buffer slots slot dir elems).1 ∧
      (readClusterDirEntries buffer slots slot dir elems).2 =
        elems ++ (clusterEntries buffer slots slot).map (childOf dir) := by
  induction slots generalizing slot dir elems with
  | zero => exact ⟨FatFile.Relisted.refl dir, by simp [readClusterDirEntries, clusterEntries]⟩
  | succ slots ih =>
      have hslot : dir.Relisted { dir with nentries := slot } := ⟨slot, dir.childrenRead, rfl⟩
      simp only [readClusterDirEntries, clusterEntries]
      split_ifs
      · exact ⟨⟨slot, true, rfl⟩, by simp⟩
      · obtain ⟨hdir, hlist⟩ := ih (slot + 1) { dir with nentries := slot } elems
        refine ⟨hslot.trans hdir, ?_⟩
        rw [hlist]
        rfl
      · obtain ⟨hdir, hlist⟩ := ih (slot + 1) { dir with nentries := slot }
          (elems ++ [initFileFromDentry
            (FatDirEntry.ofStore buffer (fatDirEntryByteSize * slot))
            { dir with nentries := slot }])
        refine ⟨hslot.trans hdir, ?_⟩
        rw [hlist, List.append_assoc]
        rfl

/-! ## The chain -/

theorem readChildrenLoop_reads {fuel : ℕ} {v v' : Volume} {cur : ℕ} {dir dir' : FatFile}
    {elems elems' : List FatFile}
    (h : readChildrenLoop t fuel v cur dir elems = some (dir', elems', v')) :
    v.Reads v' ∧ dir.Relisted dir' := by
  induction fuel generalizing v cur dir elems with
  | zero => simp [readChildrenLoop] at h
  | succ fuel ih =>
      have hread := fullPread_reads v (fun _ => 0) (fatTableBytesPerCluster t)
        (fatTableClusterOffset t cur : ℕ)
      unfold readChildrenLoop at h
      split at h
      · simp only at h
        split at h
        · simp only [Option.some.injEq, Prod.mk.injEq] at h
          obtain ⟨rfl, -, rfl⟩ := h
          exact ⟨⟨hread.later, hread.disk, hread.fatMap⟩, FatFile.Relisted.refl dir⟩
        · simp only [Option.bind_eq_bind, Option.bind_eq_some_iff] at h
          obtain ⟨next, -, h⟩ := h
          obtain ⟨hrest, hdir⟩ := ih h
          exact ⟨hread.trans hrest, (readClusterDirEntries_eq _ _ _ dir elems).1.trans hdir⟩
      · simp only [Option.some.injEq, Prod.mk.injEq] at h
        obtain ⟨rfl, -, rfl⟩ := h
        exact ⟨Volume.Reads.refl v, ⟨_, _, rfl⟩⟩

theorem fatFileReadChildren_reads {v v' : Volume} {dir dir' : FatFile} {elems : List FatFile}
    (h : fatFileReadChildren t v dir = some (dir', elems, v')) :
    v.Reads v' ∧ dir.Relisted dir' := by
  unfold fatFileReadChildren at h
  split at h
  · exact readChildrenLoop_reads h
  · simp only [Option.some.injEq, Prod.mk.injEq] at h
    obtain ⟨rfl, -, rfl⟩ := h
    exact ⟨⟨⟨rfl, List.suffix_refl _⟩, rfl, rfl⟩, FatFile.Relisted.refl dir⟩

/-! ## The tree -/

/-- The tree grew, or `vol->file_tree` is null; a null tree stays null. -/
structure TreeKept (s s' : FsState) : Prop where
  null : s.fileTree = none → s'.fileTree = none
  grown : s'.fileTree = none ∨ FsGrown s s'

theorem TreeKept.of_grown {s s' : FsState} (h : FsGrown s s')
    (htree : s'.fileTree = s.fileTree) : TreeKept s s' :=
  ⟨fun hnone => htree.trans hnone, Or.inr h⟩

theorem TreeKept.refl (s : FsState) : TreeKept s s := TreeKept.of_grown (FsGrown.refl s) rfl

theorem TreeKept.trans {s s' s'' : FsState} (h : TreeKept s s') (h' : TreeKept s' s'') :
    TreeKept s s'' := by
  refine ⟨fun hnone => h'.null (h.null hnone), ?_⟩
  rcases h.grown with hnone | hgrown
  · exact Or.inl (h'.null hnone)
  · exact h'.grown.imp_right hgrown.trans

theorem TreeKept.of_vol (s : FsState) (v : Volume) : TreeKept s { s with vol := v } :=
  TreeKept.of_grown (FsGrown.of_same rfl rfl rfl) rfl

theorem TreeKept.allocFile (s : FsState) (file : FatFile) : TreeKept s (s.allocFile file) :=
  TreeKept.of_grown (FsGrown.allocFile s file) rfl

theorem TreeKept.allocResult (s : FsState) (r : Option FatFile × Volume) :
    TreeKept s (allocResult s r).2 := by
  obtain ⟨file | file, v⟩ := r
  · exact TreeKept.of_vol s v
  · exact (TreeKept.of_vol s v).trans (TreeKept.allocFile _ file)

theorem TreeKept.writeFile {s : FsState} {v : Volume} {files : Heap FatFile} {a : ℕ}
    {f f' : FatFile} (hf : s.files.get a = some f) (hwrite : s.files.write a f' = some files)
    (hpath : f'.filepath = f.filepath) (hstart : f'.startCluster = f.startCluster) :
    TreeKept s { s with vol := v, files := files } :=
  TreeKept.of_grown (FsGrown.writeFile hf hwrite hpath hstart) rfl

theorem fatTreeInsert_kept {s s' : FsState} {parent : HTree} {newFile : Option ℕ}
    (h : fatTreeInsert s parent newFile = some s') :
    TreeKept s s' ∧ s.vol.Reads s'.vol := by
  cases hroot : s.fileTree with
  | none =>
      simp only [fatTreeInsert, hroot, Option.some.injEq] at h
      subst h
      exact ⟨⟨fun _ => rfl, Or.inl rfl⟩, ⟨rfl, List.suffix_refl _⟩, rfl, rfl⟩
  | some root =>
      cases newFile with
      | none =>
          simp only [fatTreeInsert, hroot, Option.some.injEq] at h
          subst h
          exact ⟨⟨fun _ => rfl, Or.inl rfl⟩, ⟨rfl, List.suffix_refl _⟩, rfl, rfl⟩
      | some file =>
          have hgrown := FsGrown.insert hroot h
          obtain ⟨nodes, root', -, rfl⟩ := fatTreeInsert_eq_some hroot h
          exact ⟨⟨fun hnone => by simp [hroot] at hnone, Or.inr hgrown⟩, Volume.Reads.refl _⟩

theorem insertChildren_kept {dirNode : HTree} {children : List FatFile} {s s' : FsState}
    (h : insertChildren dirNode children s = some s') :
    TreeKept s s' ∧ s.vol.Reads s'.vol := by
  induction children generalizing s with
  | nil =>
      obtain rfl := Option.some.inj h
      exact ⟨TreeKept.refl s, Volume.Reads.refl _⟩
  | cons file rest ih =>
      simp only [insertChildren, Option.bind_eq_bind, Option.bind_eq_some_iff] at h
      obtain ⟨s₁, hinsert, h⟩ := h
      obtain ⟨hkept, hreads⟩ := fatTreeInsert_kept hinsert
      obtain ⟨hkept', hreads'⟩ := ih h
      exact ⟨((TreeKept.allocFile s file).trans hkept).trans hkept', hreads.trans hreads'⟩

end SistOp.FatFuse
