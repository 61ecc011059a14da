import SistOp.ClusterChain
import SistOp.FatFile
import Mathlib.Tactic

/-!
# New files

What `fat_file_init` returns: a null pointer with `errno` set, or a file whose
first cluster was free and now ends a chain of its own.
-/

namespace SistOp.FatFuse

open ByteStore

variable {t : FatTable}

theorem FatDirEntry.fileStartCluster_congr {d d' : FatDirEntry}
    (h20 : d'.byte 20 = d.byte 20) (h21 : d'.byte 21 = d.byte 21)
    (h26 : d'.byte 26 = d.byte 26) (h27 : d'.byte 27 = d.byte 27) :
    d'.fileStartCluster = d.fileStartCluster := by
  simp only [FatDirEntry.fileStartCluster, FatDirEntry.startClusterLow,
    FatDirEntry.fat32StartClusterHigh, FatDirEntry.le16At, h20, h21, h26, h27]

theorem FatDirEntry.fileStartCluster_setFileSize (d : FatDirEntry) (n : ℕ) :
    (d.setFileSize n).fileStartCluster = d.fileStartCluster := by
  apply FatDirEntry.fileStartCluster_congr <;>
  · rw [FatDirEntry.setFileSize]
    repeat rw [FatDirEntry.byte_setLe16_of_ne _ (by omega) _ (by omega) (by omega)]

/-- What a new entry holds besides its name, and what making it used up. -/
theorem fatFileInitDirentry_eq_some {v v' : Volume} {isDir : Bool}
    {filepath : CString} {startCluster : ℕ} {d : FatDirEntry}
    (h : fatFileInitDirentry v isDir filepath startCluster = some (d, v')) :
    d.fileStartCluster = startCluster % 2 ^ 32 ∧ d.fileSize = 0 ∧
      d.attribs = (if isDir then fileAttributeDirectory else fileAttributeArchive) ∧
      v' = { v with
        clock := fun n => v.clock (n + 1)
        heap := fun n => v.heap (n + 1) } := by
  simp only [fatFileInitDirentry, Option.bind_eq_bind, Option.bind_eq_some_iff,
    Option.some.injEq, Prod.mk.injEq] at h
  obtain ⟨named, -, rfl, rfl⟩ := h
  refine ⟨?_, ?_, ?_, ?_⟩
  · rw [FatDirEntry.fileStartCluster_setFileSize,
      FatDirEntry.fileStartCluster_setFirstCluster]
  · simp
  · rw [FatDirEntry.attribs, FatDirEntry.setFileSize, FatDirEntry.setFirstCluster]
    repeat rw [FatDirEntry.byte_setLe16_of_ne _ (by omega) _ (by omega) (by omega)]
    rw [byte_fillDentryTimeNow _ _ _ _ (by omega), FatDirEntry.setCreateTimeFineRes,
      FatDirEntry.setReserved, FatDirEntry.setAttribs]
    simp [FatDirEntry.byte_setByte]
  · simp [fillDentryTimeNow, time, strdup]

/-- The results of `fat_file_init` when `errno` is 0 on entry. -/
theorem fatFileInit_eq_some [t.Formatted] {v v' : Volume} {isDir : Bool} {filepath : CString}
    {r : Option FatFile} (herrno : v.errno = 0)
    (h : fatFileInit t v isDir filepath = some (r, v')) :
    v.Later v' ∧ ((r = none ∧ v'.errno ≠ 0 ∧ 0 < v'.errno ∧ v'.fatMap = v.fatMap ∧
        v'.disk = v.disk) ∨
      ∃ c file, r = some file ∧ fatTableGetNextFreeCluster t v = some c ∧
        v.fatMap c = fatClusterFree ∧ c < t.fatEntries ∧
        file.startCluster = c ∧ file.nentries = 0 ∧ file.childrenRead = false ∧
        file.posInParent = 0 ∧ file.filepath = filepath ∧
        file.dentry.fileSize = 0 ∧
        file.dentry.attribs =
          (if isDir then fileAttributeDirectory else fileAttributeArchive) ∧
        v'.errno = 0 ∧
        v'.fatMap = Function.update v.fatMap c fatClusterEndOfChainMax ∧
        ∃ k, 0 < k ∧ k ≤ 4 ∧ v'.disk =
          store v.disk (c * 4 % 2 ^ 32 + t.fatOffset) k fun i =>
            leByte fatClusterEndOfChainMax i) := by
  unfold fatFileInit at h
  rw [if_neg (by omega)] at h
  simp only [Option.bind_eq_bind, Option.bind_eq_some_iff] at h
  obtain ⟨c, hfree, used, hused, h⟩ := h
  simp only [fatTableIsClusterUsed, fatMapRead, Option.bind_eq_bind,
    Option.bind_eq_some_iff] at hused
  obtain ⟨entry, hentry, hused⟩ := hused
  split at hentry
  · rename_i hbound
    simp only [Option.some.injEq] at hentry hused
    subst hentry hused
    split at h
    · simp only [Option.some.injEq, Prod.mk.injEq] at h
      obtain ⟨rfl, rfl⟩ := h
      exact ⟨Volume.Later.refl v, Or.inl ⟨rfl, by simp, by simp, rfl, rfl⟩⟩
    · rename_i hzero
      have hcfree : v.fatMap c = fatClusterFree := by simpa using hzero
      simp only [Option.bind_eq_some_iff, Prod.exists] at h
      obtain ⟨d, v₁, hinit, v₂, hset, h⟩ := h
      obtain ⟨hstart, hsize, hattribs, rfl⟩ := fatFileInitDirentry_eq_some hinit
      have hc32 : c % 2 ^ 32 = c := Nat.mod_eq_of_lt (hbound.trans t.entries_lt)
      obtain ⟨hlater, -, -, hcases⟩ := setNextCluster_cases hset
      rcases hcases with ⟨heio, hmap, hdisk⟩ | ⟨hok, -, hmap, hdisk⟩
      · rw [if_pos (by simp [heio])] at h
        simp only [Option.some.injEq, Prod.mk.injEq] at h
        obtain ⟨rfl, rfl⟩ := h
        exact ⟨hlater, Or.inl ⟨rfl, by simp [heio], by simp [heio], hmap, hdisk⟩⟩
      · simp only at hok
        rw [if_neg (by simp [hok, herrno])] at h
        simp only [Option.some.injEq, Prod.mk.injEq] at h
        obtain ⟨rfl, rfl⟩ := h
        exact ⟨hlater, Or.inr ⟨c, _, rfl, hfree, hcfree, hbound, hstart.trans hc32, rfl,
          rfl, rfl, rfl, hsize, hattribs, hok.trans herrno, hmap, hdisk⟩⟩
  · contradiction

end SistOp.FatFuse
