import SistOp.BigBrother
import SistOp.ChainFreeing
import Mathlib.Tactic

/-!
# Searching a free cluster

`fat_table_get_next_free_cluster` has no bound on its scan: it looks at the range of the cluster it
has found afterwards.  On a map without padding a full volume is a scan that leaves the map.  The
callers go on with the failure value in different ways.
-/

namespace SistOp.FatFuse

variable {t : FatTable} {v : Volume}

/-! ## The scan -/

theorem getNextFreeCluster_least [t.Formatted] {c : ℕ} (hc : IsFree t v.fatMap c)
    (hleast : ∀ d, IsFree t v.fatMap d → c ≤ d) : fatTableGetNextFreeCluster t v = some c := by
  obtain ⟨hvalid, hfree⟩ := hc
  obtain ⟨d, hle, hloop⟩ := exists_nextFreeLoop t.fatEntries hvalid.1 (valid_lt_entries hvalid)
    hfree (by have := valid_lt_entries hvalid; omega)
  obtain ⟨hge, -, hdfree, -⟩ := nextFreeLoop_eq_some hloop
  have hd : fatTableIsValidClusterNumber t d := ⟨hge, hle.trans_lt hvalid.2⟩
  have heq : d = c := le_antisymm hle (hleast d ⟨hd, hdfree⟩)
  subst heq
  rw [fatTableGetNextFreeCluster, hloop, Option.bind_eq_bind, Option.bind_some, if_pos hd]

/-- Without padding behind the last cluster, the scan of a full volume leaves the map. -/
theorem getNextFreeCluster_full (hexact : t.fatEntries = t.numDataClusters + 2)
    (hfull : ∀ c, ¬ IsFree t v.fatMap c) : fatTableGetNextFreeCluster t v = none := by
  cases hloop : fatTableNextFreeLoop t v t.fatEntries 2 with
  | none => rw [fatTableGetNextFreeCluster, hloop, Option.bind_eq_bind, Option.bind_none]
  | some c =>
      obtain ⟨hge, hlt, hfree, -⟩ := nextFreeLoop_eq_some hloop
      exact absurd ⟨⟨hge, hexact ▸ hlt⟩, hfree⟩ (hfull c)

/-! ## The callers -/

inductive FreeClusterCaller where
  | fatFileInit
  | nextOrNewCluster
  | bbCreateNewOrphanDir
  deriving DecidableEq

/-- The entries of the map that a caller accesses with the cluster that the search returned; only
`next_or_new_cluster` tests it first. -/
def FreeClusterCaller.entries (cluster : ℕ) : FreeClusterCaller → List ℕ
  | .fatFileInit => [cluster]
  | .nextOrNewCluster => if fatTableClusterIsEOC cluster then [] else [cluster]
  | .bbCreateNewOrphanDir => [cluster]

/-- `fat_file_init` asks whether the cluster is used, and writes its entry if it is not. -/
theorem fatFileInit_returns_iff {cluster : ℕ} (herrno : 0 ≤ v.errno)
    (hsearch : fatTableGetNextFreeCluster t v = some cluster) (isDir : Bool) (filepath : CString)
    (hname : ∀ c, fatFileInitDirentry v isDir filepath c ≠ none) :
    fatFileInit t v isDir filepath ≠ none ↔
      ∀ c ∈ FreeClusterCaller.fatFileInit.entries cluster, c < t.fatEntries := by
  simp only [FreeClusterCaller.entries, List.forall_mem_singleton, fatFileInit,
    if_neg (not_lt.mpr herrno), hsearch, fatTableIsClusterUsed, fatMapRead, Option.bind_eq_bind,
    Option.bind_some]
  by_cases hin : cluster < t.fatEntries
  · simp only [if_pos hin, Option.bind_some, iff_true_right hin]
    split_ifs
    · simp
    · obtain ⟨⟨dentry, v₁⟩, hmade⟩ := Option.ne_none_iff_exists'.mp (hname cluster)
      obtain ⟨v₂, hwrite⟩ := exists_setNextCluster (v := v₁) fatClusterEndOfChainMax hin
      simp only [hmade, hwrite, Option.bind_some]
      split_ifs <;> simp
  · simp [hin]

/-- `next_or_new_cluster` stops at the failure value without a further access. -/
theorem nextOrNewCluster_returns_iff {last next cluster : ℕ} (hio : v.IoSucceeds)
    (hlast : last < t.fatEntries) (hnext : fatTableGetNextCluster t v last = some next)
    (heoc : fatTableClusterIsEOC next) (hsearch : fatTableGetNextFreeCluster t v = some cluster) :
    nextOrNewCluster t v last ≠ none ↔
      ∀ c ∈ FreeClusterCaller.nextOrNewCluster.entries cluster, c < t.fatEntries := by
  simp only [nextOrNewCluster, hnext, if_pos heoc, hsearch, Option.bind_eq_bind, Option.bind_some,
    FreeClusterCaller.entries]
  by_cases hfull : fatTableClusterIsEOC cluster
  · simp [hfull]
  · rw [if_neg hfull, if_neg hfull, List.forall_mem_singleton,
      setNextCluster_of_ioSucceeds hio hlast, Option.bind_some]
    have hio' : (setEntry t v last cluster).IoSucceeds := hio
    by_cases hin : cluster < t.fatEntries
    · rw [setNextCluster_of_ioSucceeds hio' hin, Option.bind_some, iff_true_right hin]
      split_ifs <;> simp
    · rw [setNextCluster_outside hio' (Nat.not_lt.mp hin)]
      simp [hin]

/-- `bb_create_new_orphan_dir` marks the cluster, in memory after the disk. -/
theorem bbCreateNewOrphanDir_outside {s : FsState} {cluster : ℕ} (hio : s.vol.IoSucceeds)
    (hsearch : fatTableGetNextFreeCluster t (s.setErrno 0).vol = some cluster)
    (hout : t.fatEntries ≤ cluster) : bbCreateNewOrphanDir t s = none := by
  have hmark : fatTableSetNextCluster t (s.setErrno 0).vol cluster fatClusterBadSector = none := by
    apply setNextCluster_outside _ hout
    exact hio
  simp only [bbCreateNewOrphanDir, hsearch, hmark, Option.bind_eq_bind, Option.bind_some,
    Option.bind_none]

/-! ## Exact searches -/

/-- The search returns the least free cluster, or the end mark when there is none, and neither it
nor its callers access an entry outside the map. -/
structure SearchesFreeCluster (t : FatTable) (v : Volume) : Prop where
  least : ∀ c, IsFree t v.fatMap c → (∀ d, IsFree t v.fatMap d → c ≤ d) →
    fatTableGetNextFreeCluster t v = some c
  full : (∀ c, ¬ IsFree t v.fatMap c) →
    fatTableGetNextFreeCluster t v = some fatClusterEndOfChainMax
  callers : ∀ cluster, fatTableGetNextFreeCluster t v = some cluster →
    ∀ caller : FreeClusterCaller, ∀ c ∈ caller.entries cluster, c < t.fatEntries

theorem FreeClusterCaller.mem_entries {cluster c : ℕ} {caller : FreeClusterCaller}
    (hc : c ∈ caller.entries cluster) : c = cluster := by
  cases caller with
  | fatFileInit => exact List.mem_singleton.mp hc
  | nextOrNewCluster =>
      simp only [entries] at hc
      split at hc
      · simp at hc
      · exact List.mem_singleton.mp hc
  | bbCreateNewOrphanDir => exact List.mem_singleton.mp hc

/-- The search and its callers stay inside the map of a formatted table without padding exactly
while a cluster is free. -/
theorem searchesFreeCluster_iff [t.Formatted] (hexact : t.fatEntries = t.numDataClusters + 2) :
    SearchesFreeCluster t v ↔ ∃ c, IsFree t v.fatMap c := by
  constructor
  · intro h
    by_contra hnone
    rw [not_exists] at hnone
    have hmark := h.full hnone
    rw [getNextFreeCluster_full hexact hnone] at hmark
    contradiction
  · rintro ⟨c, hc⟩
    refine ⟨fun d hd hleast => getNextFreeCluster_least hd hleast,
      fun hfull => absurd hc (hfull c), fun cluster hsearch caller d hd => ?_⟩
    obtain ⟨e, hsearch', he⟩ := exists_getNextFreeCluster hc
    rw [hsearch', Option.some.injEq] at hsearch
    rw [FreeClusterCaller.mem_entries hd, ← hsearch]
    exact valid_lt_entries he.1

/-- A volume whose clusters are all used but the last. -/
def lastFree : Volume := smallVolume [9, 9, 9, 9, 9, 0]

def allUsed : Volume := smallVolume [9, 9, 9, 9, 9, 9]

theorem searchesFreeCluster_iff_last : SearchesFreeCluster smallTable lastFree :=
  (searchesFreeCluster_iff rfl).mpr ⟨7, by decide⟩

/-- On a full volume the search reads the entry behind the map. -/
theorem not_searchesFreeCluster_full :
    smallTable.fatEntries = smallTable.numDataClusters + 2 ∧
      fatTableGetNextFreeCluster smallTable allUsed = none ∧
      ¬ SearchesFreeCluster smallTable allUsed := by
  have hsearch : fatTableGetNextFreeCluster smallTable allUsed = none := by decide
  refine ⟨rfl, hsearch, fun h => ?_⟩
  have hfull : ∀ c, ¬ IsFree smallTable allUsed.fatMap c := by
    rintro c ⟨⟨hge, hlt⟩, hfree⟩
    have hbound : c < 8 := hlt
    interval_cases c <;> exact absurd hfree (by decide)
  have hmark := h.full hfull
  rw [hsearch] at hmark
  contradiction

end SistOp.FatFuse
