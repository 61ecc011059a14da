import SistOp.EntryCreation
import Mathlib.Tactic

/-!
# Creations that fail

A creation that fails before the new file has its cluster changes nothing.  From
then on nothing is undone: the cluster stays allocated and the node stays in the
tree, whatever the directory says.
-/

namespace SistOp.FatFuse

open ByteStore

variable {t : FatTable}

/-- Nothing but `errno` and the state of the outside world may differ. -/
structure NoTrace (s s' : FsState) : Prop where
  tree : s'.fileTree = s.fileTree
  nodes : s'.nodes = s.nodes
  files : s'.files = s.files
  fatMap : s'.vol.fatMap = s.vol.fatMap
  disk : s'.vol.disk = s.vol.disk

/-- The next `pwrite` writes nothing. -/
def NextPwriteFails (v : Volume) : Prop :=
  v.writable = false ∨ v.io.head? = some (.bytes 0) ∨ ∃ e, v.io.head? = some (.error e)

/-- The cluster that the search for a free one finds is used. -/
def NoFreeCluster (t : FatTable) (v : Volume) : Prop :=
  ∃ c, fatTableGetNextFreeCluster t v = some c ∧ v.fatMap c ≠ fatClusterFree

/-- The search for a free cluster reads nothing but the mapped FAT. -/
theorem getNextFreeCluster_congr {v v' : Volume} (h : v'.fatMap = v.fatMap) :
    fatTableGetNextFreeCluster t v' = fatTableGetNextFreeCluster t v := by
  have hloop : ∀ fuel cluster,
      fatTableNextFreeLoop t v' fuel cluster = fatTableNextFreeLoop t v fuel cluster := by
    intro fuel
    induction fuel with
    | zero => exact fun _ => rfl
    | succ fuel ih =>
        intro cluster
        simp only [fatTableNextFreeLoop, fatMapRead, h, ih]
  simp only [fatTableGetNextFreeCluster, hloop]

theorem noFreeCluster_setErrno (s : FsState) (e : ℤ) :
    NoFreeCluster t (s.setErrno e).vol ↔ NoFreeCluster t s.vol := by
  have hsame : fatTableGetNextFreeCluster t (s.setErrno e).vol =
      fatTableGetNextFreeCluster t s.vol := getNextFreeCluster_congr rfl
  rw [NoFreeCluster, hsame]
  rfl

theorem pwrite_nonpos_iff (v : Volume) (buf : ℤ → UInt8) (count : ℕ)
    (hcount : 0 < count) (offset : ℕ) :
    (pwrite v buf count offset).1 ≤ 0 ↔ NextPwriteFails v := by
  have hoff : ¬ ((offset : ℤ) < 0) := by omega
  by_cases hwritable : v.writable = false
  · simp [pwrite, NextPwriteFails, hwritable]
  · cases hcall : v.io with
    | nil => simp [pwrite, NextPwriteFails, hwritable, hoff, hcall]; omega
    | cons outcome rest =>
        cases outcome with
        | error e => simp [pwrite, NextPwriteFails, hwritable, hoff, hcall]
        | bytes n => simp [pwrite, NextPwriteFails, hwritable, hoff, hcall]; omega

theorem setNextCluster_errno_iff {v v' : Volume} {c n : ℕ} (herrno : v.errno = 0)
    (h : fatTableSetNextCluster t v c n = some v') :
    v'.errno ≠ 0 ↔ NextPwriteFails v := by
  obtain ⟨⟨r, v₁⟩, hwrite⟩ : ∃ written, pwrite v (fun i => leByte n i.toNat) 4
      ((c * 4 % 2 ^ 32 + t.fatOffset : ℕ) : ℤ) = written := ⟨_, rfl⟩
  have hiff := pwrite_nonpos_iff v (fun i => leByte n i.toNat) 4 (by omega)
    (c * 4 % 2 ^ 32 + t.fatOffset)
  obtain ⟨-, -, -, -, hcases⟩ := pwrite_cases hwrite
  rw [hwrite] at hiff
  simp only [fatTableSetNextCluster, hwrite] at h
  rw [← hiff]
  split at h
  · rename_i hr
    obtain rfl := Option.some.inj h
    simpa using hr
  · rename_i hr
    split at h
    · obtain rfl := Option.some.inj h
      rcases hcases with ⟨hfail, -⟩ | ⟨k, -, -, hkept, -⟩
      · omega
      · simp only [hkept, herrno]
        simpa using hr
    · contradiction

/-- When `fat_file_init` returns, it is null exactly when no cluster was free or the
FAT could not be written. -/
theorem fatFileInit_null_iff {v v' : Volume} {isDir : Bool} {filepath : CString}
    {r : Option FatFile} (herrno : v.errno = 0)
    (h : fatFileInit t v isDir filepath = some (r, v')) :
    r = none ↔ NoFreeCluster t v ∨ NextPwriteFails v := by
  unfold fatFileInit at h
  rw [if_neg (by omega)] at h
  simp only [Option.bind_eq_bind, Option.bind_eq_some_iff] at h
  obtain ⟨c, hfree, used, hused, h⟩ := h
  have hfound : NoFreeCluster t v ↔ used = true := by
    simp only [fatTableIsClusterUsed, fatMapRead, Option.bind_eq_bind,
      Option.bind_eq_some_iff] at hused
    obtain ⟨entry, hentry, hused⟩ := hused
    split at hentry
    · simp only [Option.some.injEq] at hentry hused
      subst hentry hused
      simp [NoFreeCluster, hfree]
    · contradiction
  split at h
  · rename_i hyes
    simp only [Option.some.injEq, Prod.mk.injEq] at h
    obtain ⟨rfl, -⟩ := h
    simp [hfound, hyes]
  · rename_i hno
    simp only [Option.bind_eq_some_iff, Prod.exists] at h
    obtain ⟨d, v₁, hinit, v₂, hset, h⟩ := h
    obtain ⟨-, -, -, rfl⟩ := fatFileInitDirentry_eq_some hinit
    have hiff := setNextCluster_errno_iff (by simpa using herrno) hset
    have hnext : NextPwriteFails v ↔ v₂.errno ≠ 0 := hiff.symm
    rw [hfound, hnext]
    split at h <;> simp only [Option.some.injEq, Prod.mk.injEq] at h <;>
      obtain ⟨rfl, rfl⟩ := h <;> simp_all

/-- A creation that ends before the new file has a cluster: its directory is missing
or is a file, no cluster is free, or the FAT cannot be written. -/
def CreationStopsEarly (t : FatTable) (s : FsState) (path : CString) : Prop :=
  fatTreeNodeSearch s (dirname path) = some none ∨
    (∃ node addr p, ParentAt s path node addr p ∧ fatFileIsDirectory p = false) ∨
    NoFreeCluster t s.vol ∨ NextPwriteFails s.vol

theorem ParentAt.unique {s : FsState} {path : CString} {node node' addr addr' : ℕ}
    {p p' : FatFile} (h : ParentAt s path node addr p)
    (h' : ParentAt s path node' addr' p') : node = node' ∧ addr = addr' ∧ p = p' := by
  obtain rfl : node = node' := by
    simpa using h.search.symm.trans h'.search
  obtain rfl : addr = addr' := Option.some.inj (h.file.symm.trans h'.file)
  exact ⟨rfl, rfl, Option.some.inj (h.live.symm.trans h'.live)⟩

theorem createEntry_noTrace_iff [t.Formatted] {isDir : Bool} {failed : ℤ → Bool}
    (hfailed : failed 0 = false) {s s' : FsState} {path : CString} {r : ℤ}
    (h : createEntry t isDir failed s path = some (r, s')) :
    NoTrace s s' ↔ CreationStopsEarly t s path := by
  cases createEntry_outcome hfailed h with
  | noParent hsearch => exact iff_of_true ⟨rfl, rfl, rfl, rfl, rfl⟩ (Or.inl hsearch)
  | notDirectory hparent hdir =>
      exact iff_of_true ⟨rfl, rfl, rfl, rfl, rfl⟩ (Or.inr (Or.inl ⟨_, _, _, hparent, hdir⟩))
  | initFailed hparent hdir hinit hbad =>
      have hstops := (fatFileInit_null_iff (by rfl) hinit).mp rfl
      rw [noFreeCluster_setErrno] at hstops
      rcases fatFileInit_eq_some (by rfl) hinit with
        ⟨-, ⟨-, -, -, hmap, hdisk⟩ | ⟨c, file, heq, -⟩⟩
      · exact iff_of_true ⟨rfl, rfl, rfl, hmap, hdisk⟩ (Or.inr (Or.inr hstops))
      · simp at heq
  | made hparent hdir hinit hroot hinsert hentry hwriteParent hwriteChild =>
      apply iff_of_false
      · intro hno
        rcases fatFileInit_eq_some (by rfl) hinit with
          ⟨-, ⟨heq, -⟩ | ⟨c, file', -, -, hcfree, -, -, -, -, -, -, -, -, -, hmap, -⟩⟩
        · simp at heq
        obtain ⟨-, hmap', -⟩ := writeDirEntry_cases hentry
        have hchanged := congrFun (hmap'.trans hmap) c
        have hsame := congrFun hno.fatMap c
        simp only at hsame
        rw [hchanged, Function.update_self] at hsame
        have hfree : s.vol.fatMap c = fatClusterFree := hcfree
        rw [hfree] at hsame
        exact absurd hsame (by decide)
      · rintro (hmissing | ⟨node, addr, p, hother, hfile⟩ | hstops)
        · have hfound := hparent.search
          rw [hmissing] at hfound
          simp at hfound
        · obtain ⟨-, -, rfl⟩ := hparent.unique hother
          rw [hdir] at hfile
          contradiction
        · rw [← noFreeCluster_setErrno s 0] at hstops
          have hnull := (fatFileInit_null_iff (by rfl) hinit).mpr hstops
          simp at hnull

/-- On a formatted table, a creation leaves no trace exactly when it stops before the
new file has a cluster.  A full directory and a failed write of the entry come later. -/
theorem failedCreation_noTrace_iff [t.Formatted] {s s' : FsState} {path : CString} {r : ℤ}
    (h : fatFuseMkdir t s path = some (r, s') ∨ fatFuseMknod t s path = some (r, s')) :
    NoTrace s s' ↔ CreationStopsEarly t s path := by
  rcases h with hmkdir | hmknod
  · exact createEntry_noTrace_iff (by decide) hmkdir
  · exact createEntry_noTrace_iff (by decide) hmknod

/-- The path `/b`. -/
def pathB : CString := [charSlash, 0x62]

/-- In a root directory with room for one entry, `mkdir` after `mknod` fails. -/
theorem exists_failedCreation :
    ∃ mounted s s', initFileTree (rootVolume 0) 2 = some mounted ∧
      fatFuseMknod smallTable mounted pathA = some (0, s) ∧
      fatFuseMkdir smallTable s pathB = some (- Errno.enospc, s') ∧
      s.vol.fatMap 4 = fatClusterFree ∧ s'.vol.fatMap 4 = fatClusterEndOfChainMax := by
  obtain ⟨mounted, hmounted⟩ : ∃ mounted, initFileTree (rootVolume 0) 2 = some mounted :=
    Option.isSome_iff_exists.mp (by decide)
  have hrun : ((initFileTree (rootVolume 0) 2).bind fun mounted =>
      (fatFuseMknod smallTable mounted pathA).bind fun r =>
        (fatFuseMkdir smallTable r.2 pathB).map fun r' =>
          (r.1, r'.1, r.2.vol.fatMap 4, r'.2.vol.fatMap 4)) =
      some (0, - Errno.enospc, fatClusterFree, fatClusterEndOfChainMax) := by
    decide
  rw [hmounted, Option.bind_some, Option.bind_eq_some_iff] at hrun
  obtain ⟨⟨r, s⟩, hmknod, hrun⟩ := hrun
  rw [Option.map_eq_some_iff] at hrun
  obtain ⟨⟨r', s'⟩, hmkdir, heq⟩ := hrun
  simp only [Prod.mk.injEq] at heq
  obtain ⟨rfl, rfl, hbefore, hafter⟩ := heq
  exact ⟨mounted, s, s', hmounted, hmknod, hmkdir, hbefore, hafter⟩

/-- There the failed `mkdir` keeps cluster 4. -/
theorem failedCreation_keeps_cluster :
    ∃ mounted s s', initFileTree (rootVolume 0) 2 = some mounted ∧
      fatFuseMknod smallTable mounted pathA = some (0, s) ∧
      fatFuseMkdir smallTable s pathB = some (- Errno.enospc, s') ∧ ¬ NoTrace s s' := by
  obtain ⟨mounted, s, s', hmounted, hmknod, hmkdir, hbefore, hafter⟩ := exists_failedCreation
  refine ⟨mounted, s, s', hmounted, hmknod, hmkdir, fun hno => ?_⟩
  have hsame := congrFun hno.fatMap 4
  rw [hbefore, hafter] at hsame
  exact absurd hsame (by decide)

/-- A `mkdir` below a file stops early. -/
theorem failedCreation_noTrace_missing :
    ∃ mounted s', initFileTree (rootVolume 0) 2 = some mounted ∧
      fatFuseMkdir smallTable mounted (pathA ++ pathB) = some (- Errno.enoent, s') ∧
      (NoTrace mounted s' ↔ CreationStopsEarly smallTable mounted (pathA ++ pathB)) := by
  obtain ⟨mounted, hmounted⟩ : ∃ mounted, initFileTree (rootVolume 0) 2 = some mounted :=
    Option.isSome_iff_exists.mp (by decide)
  have hrun : ((initFileTree (rootVolume 0) 2).bind fun mounted =>
      (fatFuseMkdir smallTable mounted (pathA ++ pathB)).map Prod.fst) =
        some (- Errno.enoent) := by
    decide
  rw [hmounted, Option.bind_some, Option.map_eq_some_iff] at hrun
  obtain ⟨⟨r, s'⟩, hmkdir, rfl⟩ := hrun
  exact ⟨mounted, s', hmounted, hmkdir, failedCreation_noTrace_iff (Or.inl hmkdir)⟩

end SistOp.FatFuse
