import SistOp.LogDirectory
import Mathlib.Tactic

/-!
# Finding the log directory again

`search_bb_orphan_dir_cluster` takes the first cluster marked bad for the log directory, up to a
number that depends on the size of a cluster only.  Another bad cluster in front of the log
directory ends the search, and is released.
-/

namespace SistOp.FatFuse

variable {t : FatTable} {v : Volume}

/-- The scan goes on up to this cluster. -/
def searchBbLimit (t : FatTable) : ℕ :=
  fatClusterEndOfChainMin / (fatTableBytesPerCluster t * 8)

theorem three_lt_searchBbLimit : 3 < searchBbLimit t := by
  have hbytes : fatTableBytesPerCluster t * 8 ≤ 2 ^ 22 := by
    have hle := @bytesPerCluster_le t
    omega
  calc
    3 < fatClusterEndOfChainMin / 2 ^ 22 := by norm_num
    _ ≤ searchBbLimit t :=
      Nat.div_le_div_left hbytes (Nat.mul_pos bytesPerCluster_pos (by norm_num))

/-! ## The scan -/

/-- The scan passes the clusters that are not bad and lie in front of the limit. -/
theorem searchBbLoop_eq {fuel start c : ℕ} (hstart : start ≤ c) (hfuel : c < start + fuel)
    (hc : c < t.fatEntries) (hlimit : c ≤ searchBbLimit t)
    (hfirst : ∀ d, start ≤ d → d < c → v.fatMap d ≠ fatClusterBadSector)
    (hstop : v.fatMap c = fatClusterBadSector ∨ c = searchBbLimit t) :
    searchBbLoop t v fuel start = some c := by
  induction fuel generalizing start with
  | zero => omega
  | succ fuel ih =>
      have hentry : start < t.fatEntries := hstart.trans_lt hc
      simp only [searchBbLoop, fatMapRead, if_pos hentry, Option.bind_eq_bind, Option.bind_some]
      rcases hstart.eq_or_lt with rfl | hlt
      · rw [if_neg]
        rintro ⟨hgood, hbelow⟩
        rcases hstop with hbad | hend
        · exact hgood hbad
        · exact absurd hend hbelow.ne
      · have hgood := hfirst start le_rfl hlt
        have hbelow : start < searchBbLimit t := hlt.trans_le hlimit
        rw [if_pos ⟨hgood, hbelow⟩]
        exact ih hlt (by omega) fun d hd => hfirst d (by omega)

/-- Where the scan stops, no cluster in front is bad. -/
theorem searchBbLoop_first {fuel start c : ℕ} (h : searchBbLoop t v fuel start = some c) :
    (c ≤ start ∨ c ≤ searchBbLimit t) ∧
      ∀ d, start ≤ d → d < c → v.fatMap d ≠ fatClusterBadSector := by
  induction fuel generalizing start with
  | zero => simp [searchBbLoop] at h
  | succ fuel ih =>
      simp only [searchBbLoop, Option.bind_eq_bind, Option.bind_eq_some_iff] at h
      obtain ⟨entry, hentry, h⟩ := h
      split at h
      · rename_i hpass
        have hread : v.fatMap start = entry := by
          unfold fatMapRead at hentry
          split at hentry
          · exact Option.some.inj hentry
          · contradiction
        have hbelow : start < searchBbLimit t := hpass.2
        obtain ⟨hstop, hfirst⟩ := ih h
        refine ⟨by omega, fun d hd hdc => ?_⟩
        rcases hd.eq_or_lt with rfl | hlater
        · rw [hread]
          exact hpass.1
        · exact hfirst d hlater hdc
      · obtain rfl := Option.some.inj h
        exact ⟨.inl le_rfl, fun d hd hdc => by omega⟩

/-! ## The entry of the log -/

/-- The buffer holds the entry of the log after the read of the first entry of the cluster. -/
def LogEntryRead (t : FatTable) (stack : ℤ → UInt8) (v : Volume) (c : ℕ) : Prop :=
  bbIsLogFileDentry (FatDirEntry.ofStore (fun i : ℕ => (fullPread v stack fatDirEntryByteSize
    (fatTableClusterOffset t c : ℕ)).2.1 i) 0) = true

/-- A read that succeeds gives the entry on disk. -/
theorem logEntryRead_iff (hio : v.io = []) (stack : ℤ → UInt8) (c : ℕ) :
    LogEntryRead t stack v c ↔ bbIsLogFileDentry (diskSlot t v.disk c 0) = true := by
  have hentry : FatDirEntry.ofStore (fun i : ℕ => (fullPread v stack fatDirEntryByteSize
      (fatTableClusterOffset t c : ℕ)).2.1 i) 0 = diskSlot t v.disk c 0 := by
    rw [fullPread_of_ioSucceeds hio]
    apply FatDirEntry.ext_byte
    intro i hi
    rw [diskSlot, FatDirEntry.byte_ofStore _ _ hi, FatDirEntry.byte_ofStore _ _ hi, slotAddr]
    have hin : i < fatDirEntryByteSize := hi
    simp only [fillBuffer, fatDirEntryByteSize] at hin ⊢
    rw [if_pos (by omega)]
    congr 1
    omega
  rw [LogEntryRead, hentry]

/-! ## The search -/

/-- The search returns the cluster, without a change to the FAT or to the disk. -/
def FindsLogDirectory (t : FatTable) (stack : ℤ → UInt8) (v : Volume) (c : ℕ) : Prop :=
  ∃ v', searchBbOrphanDirCluster t stack v = some (c, v') ∧ v'.fatMap = v.fatMap ∧
    v'.disk = v.disk

/-- The search finds a log directory exactly when it is the first cluster marked bad, not behind
the limit, and its entry is read.  The table is formatted. -/
theorem findsLogDirectory_iff [t.Formatted] {c : ℕ} (hge : 3 ≤ c) (hlt : c < t.numDataClusters + 2)
    (hbad : v.fatMap c = fatClusterBadSector) (stack : ℤ → UInt8) :
    FindsLogDirectory t stack v c ↔
      (∀ d, 3 ≤ d → d < c → v.fatMap d ≠ fatClusterBadSector) ∧ c ≤ searchBbLimit t ∧
        LogEntryRead t stack v c := by
  have hentry : c < t.fatEntries := hlt.trans_le t.clusters_le
  constructor
  · rintro ⟨v', hsearch, -⟩
    simp only [searchBbOrphanDirCluster, Option.bind_eq_bind, Option.bind_eq_some_iff] at hsearch
    obtain ⟨found, hloop, entry, -, h⟩ := hsearch
    obtain ⟨hstop, hfirst⟩ := searchBbLoop_first hloop
    have hlimit := @three_lt_searchBbLimit t
    split at h
    · obtain ⟨rfl, -⟩ := Prod.mk.inj (Option.some.inj h)
      omega
    · split at h
      · simp only [Option.bind_eq_some_iff, Option.some.injEq, Prod.mk.injEq] at h
        obtain ⟨v₁, -, rfl, -⟩ := h
        omega
      · rename_i hlog
        obtain ⟨rfl, -⟩ := Prod.mk.inj (Option.some.inj h)
        refine ⟨hfirst, by omega, ?_⟩
        unfold LogEntryRead
        simpa using hlog
  · rintro ⟨hfirst, hlimit, hlog⟩
    have hloop : searchBbLoop t v t.fatEntries 3 = some c :=
      searchBbLoop_eq hge (by omega) hentry hlimit hfirst (.inl hbad)
    have hreads := fullPread_reads v stack fatDirEntryByteSize (fatTableClusterOffset t c : ℕ)
    refine ⟨_, ?_, hreads.fatMap, hreads.disk⟩
    unfold LogEntryRead at hlog
    simp only [searchBbOrphanDirCluster, hloop, fatMapRead, if_pos hentry, hbad,
      fatTableClusterIsBadSector, not_true_eq_false, if_false, hlog, Bool.true_eq_false,
      Option.bind_eq_bind, Option.bind_some]

/-- The log directory at cluster 4, with the given mark at the cluster in front of it. -/
def loggedVolume (mark : ℕ) : Volume :=
  { smallVolume [fatClusterEndOfChainMax, mark, fatClusterBadSector] with
    disk := placeBytes (entryBytes [0x66, 0x73] [0x6c, 0x6f, 0x67] fileAttributeArchive 5 0) 128
      fun _ => 0 }

theorem findsLogDirectory_logged :
    FindsLogDirectory smallTable (fun _ => 0) (loggedVolume fatClusterEndOfChainMax) 4 := by
  have hlog : bbIsLogFileDentry
      (diskSlot smallTable (loggedVolume fatClusterEndOfChainMax).disk 4 0) = true := by
    decide +kernel
  apply (findsLogDirectory_iff (by decide) (by decide) (by decide) _).mpr
  refine ⟨?_, by decide, (logEntryRead_iff rfl _ _).mpr hlog⟩
  intro d hge hlt
  obtain rfl : d = 3 := by omega
  decide

/-- A real bad cluster in front of the log directory is released in its place. -/
theorem not_findsLogDirectory_defect :
    bbIsLogFileDentry (diskSlot smallTable (loggedVolume fatClusterBadSector).disk 4 0) = true ∧
      ¬ FindsLogDirectory smallTable (fun _ => 0) (loggedVolume fatClusterBadSector) 4 ∧
      ∃ v', searchBbOrphanDirCluster smallTable (fun _ => 0) (loggedVolume fatClusterBadSector) =
          some (0, v') ∧ v'.fatMap 3 = fatClusterFree := by
  refine ⟨by decide +kernel, ?_, ?_⟩
  · intro hfinds
    have hfirst := ((findsLogDirectory_iff (by decide) (by decide) (by decide) _).mp hfinds).1
    exact hfirst 3 (by decide) (by decide) rfl
  · refine ⟨_, rfl, ?_⟩
    decide +kernel

end SistOp.FatFuse
