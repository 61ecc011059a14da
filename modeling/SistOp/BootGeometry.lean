import SistOp.FatVolume
import SistOp.FatTable
import Mathlib.Tactic

/-!
# Which accepted headers describe a sound geometry

The cluster count is taken from the 16-bit number of sectors only, and the FATs are not
subtracted from it.  Soundness of the geometry is compared with a condition on the fields
of the header.
-/

namespace SistOp.FatFuse

theorem le16Of_lt (buf : ℕ → UInt8) (off : ℕ) : le16Of buf off < 2 ^ 16 := by
  have hlow := (buf off).toNat_lt
  have hhigh := (buf (off + 1)).toNat_lt
  unfold le16Of
  omega

theorem FatBootSector.totalSectors_lt (buf : ℕ → UInt8) :
    (FatBootSector.ofBytes buf).totalSectors < 2 ^ 16 :=
  le16Of_lt buf 19

theorem u32_eq {z : ℤ} (h : 0 ≤ z) (hlt : z < 2 ^ 32) : (u32 z : ℤ) = z := by
  unfold u32
  rw [Int.emod_eq_of_lt h hlt, Int.toNat_of_nonneg h]

namespace FatBootSector

variable (b : FatBootSector)

/-- The sectors of the volume: the 32-bit field is for the sizes that the 16-bit one
cannot hold. -/
def volumeSectors : ℕ := if b.totalSectors ≠ 0 then b.totalSectors else b.totalSectors32

/-- The sectors of a root directory of fixed size. -/
def rootSectors : ℕ := b.maxRootEntries * 32 / b.bytesPerSector

/-- The sectors that the driver shares out into clusters. -/
def dataSectors : ℕ := b.totalSectors - b.reservedSectors - b.rootSectors

/-- What the 32-bit steps behind `num_data_clusters` and `data_start_offset` would give
without a bound. -/
def exactResults : List ℤ :=
  [(b.totalSectors : ℤ) - b.reservedSectors,
    (b.totalSectors : ℤ) - b.reservedSectors - b.rootSectors,
    (b.numTables : ℤ) * b.fatSectors,
    (b.numTables : ℤ) * b.fatSectors + b.reservedSectors,
    (b.numTables : ℤ) * b.fatSectors + b.reservedSectors + b.rootSectors]

/-- No step wraps, and every cluster that the driver accepts has its FAT entry in the
first FAT and its bytes in the volume. -/
structure GeometrySound (vol : FatVolume) : Prop where
  noWrap : ∀ z ∈ b.exactResults, 0 ≤ z ∧ z < 2 ^ 32
  entryInFat : ∀ c, vol.isValidClusterNumber c → 4 * c + 4 ≤ vol.sectorsPerFat * vol.bytesPerSector
  bytesInVolume : ∀ c, vol.isValidClusterNumber c →
    vol.clusterOffset c + 2 ^ vol.clusterOrder ≤ b.volumeSectors * vol.bytesPerSector

/-- The condition on the header: the reserved sectors fit below the 16-bit size, and the
clusters that remain, if any, leave the FATs out and have entries. -/
structure SoundHeader : Prop where
  reserved_le : b.reservedSectors + b.rootSectors ≤ b.totalSectors
  dataStart_lt : b.numTables * b.fatSectors + b.reservedSectors + b.rootSectors < 2 ^ 32
  clusters : b.dataSectors < b.sectorsPerCluster ∨
    (b.numTables * b.fatSectors ≤ b.dataSectors % b.sectorsPerCluster ∧
      4 * (b.dataSectors / b.sectorsPerCluster + 2) ≤ b.fatSectors * b.bytesPerSector)

instance : Decidable b.SoundHeader :=
  decidable_of_iff
    (b.reservedSectors + b.rootSectors ≤ b.totalSectors ∧
      b.numTables * b.fatSectors + b.reservedSectors + b.rootSectors < 2 ^ 32 ∧
      (b.dataSectors < b.sectorsPerCluster ∨
        (b.numTables * b.fatSectors ≤ b.dataSectors % b.sectorsPerCluster ∧
          4 * (b.dataSectors / b.sectorsPerCluster + 2) ≤ b.fatSectors * b.bytesPerSector)))
    ⟨fun ⟨h₁, h₂, h₃⟩ => ⟨h₁, h₂, h₃⟩, fun ⟨h₁, h₂, h₃⟩ => ⟨h₁, h₂, h₃⟩⟩

end FatBootSector

open FatBootSector

/-! ## The geometry in terms of the header -/

namespace AcceptedAs

variable {b : FatBootSector} {vol : FatVolume}

theorem rootSectors_eq (h : AcceptedAs b vol) :
    b.maxRootEntries <<< 5 >>> vol.sectorOrder = b.rootSectors := by
  rw [Nat.shiftLeft_eq, Nat.shiftRight_eq_div_pow, rootSectors, h.bytesPerSector_eq]

theorem rootSectors_eq_shift (h : AcceptedAs b vol) :
    b.maxRootEntries >>> (vol.sectorOrder - 5) = b.rootSectors := by
  have hpow : 2 ^ vol.sectorOrder = 2 ^ (vol.sectorOrder - 5) * 32 := by
    rw [show (32 : ℕ) = 2 ^ 5 by norm_num, ← Nat.pow_add]
    congr 1
    have := h.sectorOrder_ge
    omega
  rw [Nat.shiftRight_eq_div_pow, rootSectors, h.bytesPerSector_eq, hpow,
    Nat.mul_div_mul_right _ _ (by norm_num)]

theorem two_pow_clusterOrder (h : AcceptedAs b vol) :
    2 ^ vol.clusterOrder = b.sectorsPerCluster * b.bytesPerSector := by
  rw [h.clusterOrder_eq, Nat.pow_add, h.sectorsPerCluster_eq, h.bytesPerSector_eq, mul_comm]

theorem sectorsPerCluster_pos (h : AcceptedAs b vol) : 0 < b.sectorsPerCluster := by
  rw [h.sectorsPerCluster_eq]
  positivity

theorem bytesPerSector_pos (h : AcceptedAs b vol) : 0 < b.bytesPerSector := by
  rw [h.bytesPerSector_eq]
  positivity

end AcceptedAs

theorem FatBootSector.noWrap_iff (b : FatBootSector) (htotal : b.totalSectors < 2 ^ 16) :
    (∀ z ∈ b.exactResults, 0 ≤ z ∧ z < 2 ^ 32) ↔
      b.reservedSectors + b.rootSectors ≤ b.totalSectors ∧
        b.numTables * b.fatSectors + b.reservedSectors + b.rootSectors < 2 ^ 32 := by
  simp only [exactResults, List.forall_mem_cons, List.not_mem_nil, false_imp_iff,
    implies_true, and_true]
  constructor
  · intro h
    obtain ⟨-, hdata, -, -, hstart⟩ := h
    constructor
    · omega
    · exact_mod_cast hstart.2
  · intro h
    obtain ⟨hle, hlt⟩ := h
    have hprod : (b.numTables : ℤ) * b.fatSectors = ((b.numTables * b.fatSectors : ℕ) : ℤ) := by
      push_cast
      rfl
    rw [hprod]
    omega

section NoWrap

variable {b : FatBootSector} {vol : FatVolume}

/-- Without a wrap the driver has the exact number of clusters. -/
theorem AcceptedAs.numDataClusters_eq (h : AcceptedAs b vol) (htotal : b.totalSectors < 2 ^ 16)
    (hle : b.reservedSectors + b.rootSectors ≤ b.totalSectors) :
    vol.numDataClusters = b.dataSectors / b.sectorsPerCluster := by
  have hexact : u32 ((b.totalSectors : ℤ) - b.reservedSectors - b.rootSectors) =
      b.dataSectors := by
    have hint := u32_eq (z := (b.totalSectors : ℤ) - b.reservedSectors - b.rootSectors)
      (by omega) (by omega)
    unfold dataSectors
    omega
  rw [h.numDataClusters, h.rootSectors_eq, hexact, Nat.shiftRight_eq_div_pow,
    h.sectorsPerCluster_eq]

theorem AcceptedAs.isValidClusterNumber_iff (h : AcceptedAs b vol)
    (htotal : b.totalSectors < 2 ^ 16)
    (hle : b.reservedSectors + b.rootSectors ≤ b.totalSectors) (c : ℕ) :
    vol.isValidClusterNumber c ↔ 2 ≤ c ∧ c < b.dataSectors / b.sectorsPerCluster + 2 := by
  have hcount := h.numDataClusters_eq htotal hle
  have hclusters : b.dataSectors / b.sectorsPerCluster ≤ b.dataSectors := Nat.div_le_self _ _
  have hbound : b.dataSectors < 2 ^ 16 := by
    unfold dataSectors
    omega
  have hsum := u32_eq (z := (vol.numDataClusters + 2 : ℕ)) (by omega) (by omega)
  unfold FatVolume.isValidClusterNumber
  push_cast at hsum
  omega

theorem AcceptedAs.clusterOffset_eq (h : AcceptedAs b vol)
    (hlt : b.numTables * b.fatSectors + b.reservedSectors + b.rootSectors < 2 ^ 32)
    {c : ℕ} (hc : 2 ≤ c) (hc32 : c < 2 ^ 32) :
    vol.clusterOffset c =
      (b.numTables * b.fatSectors + b.reservedSectors + b.rootSectors +
        (c - 2) * b.sectorsPerCluster) * b.bytesPerSector := by
  have hstart : u32 ((vol.numTables : ℤ) * vol.sectorsPerFat + vol.reservedSectors +
      (vol.maxRootEntries >>> (vol.sectorOrder - 5) : ℕ)) =
      b.numTables * b.fatSectors + b.reservedSectors + b.rootSectors := by
    rw [h.maxRootEntries, h.rootSectors_eq_shift, h.numTables, h.sectorsPerFat,
      h.reservedSectors]
    have hint := u32_eq (z := ((b.numTables * b.fatSectors + b.reservedSectors +
      b.rootSectors : ℕ) : ℤ)) (by omega) (by omega)
    push_cast at hint
    exact_mod_cast hint
  have hcluster : u32 ((c : ℤ) - 2) = c - 2 := by
    have hint := u32_eq (z := (c : ℤ) - 2) (by omega) (by omega)
    omega
  rw [FatVolume.clusterOffset, FatVolume.dataStartOffset, hstart, hcluster, Nat.shiftLeft_eq,
    Nat.shiftLeft_eq, h.two_pow_clusterOrder, ← h.bytesPerSector_eq]
  ring

end NoWrap

/-- The last cluster ends behind the volume as soon as the FATs do not fit into what the
division by the cluster size leaves over. -/
theorem FatBootSector.clusters_fit_iff (b : FatBootSector)
    (hle : b.reservedSectors + b.rootSectors ≤ b.totalSectors) :
    b.numTables * b.fatSectors + b.reservedSectors + b.rootSectors +
        b.dataSectors / b.sectorsPerCluster * b.sectorsPerCluster ≤ b.totalSectors ↔
      b.numTables * b.fatSectors ≤ b.dataSectors % b.sectorsPerCluster := by
  have hdiv := Nat.div_add_mod' b.dataSectors b.sectorsPerCluster
  have hdata : b.dataSectors + b.reservedSectors + b.rootSectors = b.totalSectors := by
    unfold dataSectors
    omega
  omega

theorem readBootSector_eq_ok {stack : ℤ → UInt8} {v v' : Volume} {b : FatBootSector}
    {vol : FatVolume} (h : readBootSector stack v = (.ok (b, vol), v')) :
    AcceptedAs b vol ∧ b.totalSectors < 2 ^ 16 := by
  unfold readBootSector at h
  simp only at h
  obtain ⟨-, h⟩ | ⟨-, h⟩ := ite_eq_iff.mp h
  · simp at h
  · cases haccept : readBootSectorOf
        (FatBootSector.ofBytes fun i => (fullPread v stack 128 0).2.1 i) with
    | error e => simp [haccept, Except.map] at h
    | ok vol' =>
        simp only [haccept, Except.map, Prod.mk.injEq, Except.ok.injEq] at h
        obtain ⟨⟨rfl, rfl⟩, -⟩ := h
        exact ⟨readBootSectorOf_eq_ok haccept, totalSectors_lt _⟩

/-- Exactly the headers of `SoundHeader` give a sound geometry. -/
theorem geometrySound_iff {stack : ℤ → UInt8} {v v' : Volume} {b : FatBootSector}
    {vol : FatVolume} (h : readBootSector stack v = (.ok (b, vol), v')) :
    b.GeometrySound vol ↔ b.SoundHeader := by
  obtain ⟨haccept, htotal⟩ := readBootSector_eq_ok h
  have hspc := haccept.sectorsPerCluster_pos
  have hbps := haccept.bytesPerSector_pos
  have hcluster := haccept.two_pow_clusterOrder
  have hentries : vol.sectorsPerFat * vol.bytesPerSector = b.fatSectors * b.bytesPerSector := by
    rw [haccept.sectorsPerFat, haccept.bytesPerSector]
  -- the number of the last cluster is one more than the count `n`
  set n := b.dataSectors / b.sectorsPerCluster with hn
  have hsmall : n < 2 ^ 16 := by
    have hdata : b.dataSectors ≤ b.totalSectors := by
      unfold dataSectors
      omega
    have := Nat.div_le_self b.dataSectors b.sectorsPerCluster
    omega
  constructor
  · intro hsound
    obtain ⟨hle, hlt⟩ := (b.noWrap_iff htotal).mp hsound.noWrap
    refine ⟨hle, hlt, ?_⟩
    rw [or_iff_not_imp_left, not_lt]
    intro hdata
    have hpos : 0 < n := Nat.div_pos hdata hspc
    have hvalid : vol.isValidClusterNumber (n + 1) :=
      (haccept.isValidClusterNumber_iff htotal hle (n + 1)).mpr ⟨by omega, by omega⟩
    have hnonzero : b.totalSectors ≠ 0 := by
      unfold dataSectors at hdata
      omega
    constructor
    · rw [← b.clusters_fit_iff hle, ← hn]
      have hend := hsound.bytesInVolume (n + 1) hvalid
      rw [haccept.clusterOffset_eq hlt (by omega) (by omega), hcluster, ← Nat.add_mul,
        haccept.bytesPerSector, volumeSectors, if_pos hnonzero] at hend
      have hsectors := Nat.le_of_mul_le_mul_right hend hbps
      have hlast : (n + 1 - 2) * b.sectorsPerCluster + b.sectorsPerCluster =
          n * b.sectorsPerCluster := by
        rw [← Nat.succ_mul]
        congr 1
        omega
      omega
    · have hentry := hsound.entryInFat (n + 1) hvalid
      rw [hentries] at hentry
      omega
  · intro hheader
    obtain ⟨hle, hlt, hclusters⟩ := hheader
    have hvalid := haccept.isValidClusterNumber_iff htotal hle
    -- a valid number makes the second alternative of the condition true
    have hfit : ∀ c, vol.isValidClusterNumber c →
        b.numTables * b.fatSectors ≤ b.dataSectors % b.sectorsPerCluster ∧
          4 * (n + 2) ≤ b.fatSectors * b.bytesPerSector := by
      intro c hc
      refine hclusters.resolve_left fun hnone => ?_
      have hzero : n = 0 := Nat.div_eq_of_lt hnone
      have := (hvalid c).mp hc
      omega
    refine ⟨(b.noWrap_iff htotal).mpr ⟨hle, hlt⟩, fun c hc => ?_, fun c hc => ?_⟩
    · have hrange := (hvalid c).mp hc
      have hroom := (hfit c hc).2
      rw [hentries]
      omega
    · have hrange := (hvalid c).mp hc
      have hroom := (b.clusters_fit_iff hle).mpr (hfit c hc).1
      have hnonzero : b.totalSectors ≠ 0 := by
        intro hzero
        have : b.dataSectors = 0 := by
          unfold dataSectors
          omega
        have hnzero : n = 0 := by rw [hn, this, Nat.zero_div]
        omega
      rw [haccept.clusterOffset_eq hlt hrange.1 (by omega), hcluster, ← Nat.add_mul,
        haccept.bytesPerSector, volumeSectors, if_pos hnonzero]
      apply Nat.mul_le_mul_right
      calc b.numTables * b.fatSectors + b.reservedSectors + b.rootSectors +
            (c - 2) * b.sectorsPerCluster + b.sectorsPerCluster
          = b.numTables * b.fatSectors + b.reservedSectors + b.rootSectors +
            (c - 2 + 1) * b.sectorsPerCluster := by ring
        _ ≤ b.numTables * b.fatSectors + b.reservedSectors + b.rootSectors +
            n * b.sectorsPerCluster := by
          apply Nat.add_le_add_left
          apply Nat.mul_le_mul_right
          omega
        _ ≤ b.totalSectors := hroom

/-- A sound geometry with clusters gives a formatted table: it sees the same clusters at the same
places. -/
theorem exists_fatTable {b : FatBootSector} {vol : FatVolume} (haccept : AcceptedAs b vol)
    (htotal : b.totalSectors < 2 ^ 16) (hheader : b.SoundHeader)
    (hclusters : b.sectorsPerCluster ≤ b.dataSectors) :
    ∃ t : FatTable, t.Formatted ∧ t.fatOffset = vol.fatOffset ∧ t.clusterOrder = vol.clusterOrder ∧
      t.numDataClusters = vol.numDataClusters ∧
      4 * t.fatEntries ≤ vol.sectorsPerFat * vol.bytesPerSector ∧
      ∀ c, fatTableIsValidClusterNumber t c →
        vol.isValidClusterNumber c ∧ fatTableClusterOffset t c = vol.clusterOffset c := by
  obtain ⟨hle, hlt, hfit⟩ := hheader
  obtain ⟨hfats, hentries⟩ := hfit.resolve_left (by omega)
  have hcount := haccept.numDataClusters_eq htotal hle
  have hnum : b.fatSectors ≤ b.numTables * b.fatSectors :=
    Nat.le_mul_of_pos_left _ haccept.numTables_pos
  have hmod := Nat.mod_lt b.dataSectors haccept.sectorsPerCluster_pos
  have hspc : b.sectorsPerCluster ≤ 2 ^ 7 := by
    rw [haccept.sectorsPerCluster_eq]
    exact Nat.pow_le_pow_right (by norm_num) haccept.sectorsPerClusterOrder_le
  have hbps : b.bytesPerSector ≤ 2 ^ 12 := by
    rw [haccept.bytesPerSector_eq]
    exact Nat.pow_le_pow_right (by norm_num) haccept.sectorOrder_le
  have hfatBytes : b.fatSectors * b.bytesPerSector ≤ 2 ^ 7 * 2 ^ 12 :=
    Nat.mul_le_mul (by omega) hbps
  have hstart := haccept.clusterOffset_eq (c := 2) hlt le_rfl (by norm_num)
  have hstart₀ : vol.clusterOffset 2 = vol.dataStartOffset := by
    simp [FatVolume.clusterOffset, u32]
  have hdata : vol.fatOffset + b.fatSectors * b.bytesPerSector ≤ vol.dataStartOffset := by
    rw [← hstart₀, hstart, FatVolume.fatOffset, Nat.shiftLeft_eq, haccept.reservedSectors,
      ← haccept.bytesPerSector_eq, ← Nat.add_mul]
    apply Nat.mul_le_mul_right
    omega
  have hbytes : vol.sectorsPerFat * vol.bytesPerSector = b.fatSectors * b.bytesPerSector := by
    rw [haccept.sectorsPerFat, haccept.bytesPerSector]
  refine ⟨⟨vol.fatOffset, vol.numDataClusters, vol.dataStartOffset, vol.clusterOrder,
    b.fatSectors * b.bytesPerSector / 4, ?_, ?_⟩, ⟨?_, ?_, ?_⟩, rfl, rfl, rfl, ?_, ?_⟩
  · have := haccept.clusterOrder_eq
    have := haccept.sectorOrder_ge
    omega
  · have := haccept.clusterOrder_eq
    have := haccept.sectorOrder_le
    have := haccept.sectorsPerClusterOrder_le
    omega
  · dsimp only
    omega
  · dsimp only
    omega
  · dsimp only
    omega
  · dsimp only
    omega
  · intro c hc
    have hvalid : vol.isValidClusterNumber c := by
      rw [haccept.isValidClusterNumber_iff htotal hle, ← hcount]
      exact hc
    have hrange := (haccept.isValidClusterNumber_iff htotal hle c).mp hvalid
    have hclusters := Nat.div_le_self b.dataSectors b.sectorsPerCluster
    have hcluster : u32 ((c : ℤ) - 2) = c - 2 := by
      have hsmall : b.dataSectors < 2 ^ 16 := by
        unfold dataSectors
        omega
      have hint := u32_eq (z := (c : ℤ) - 2) (by omega) (by omega)
      omega
    refine ⟨hvalid, ?_⟩
    rw [fatTableClusterOffset, FatVolume.clusterOffset, if_pos hrange.1, hcluster]

/-! ## Two headers -/

/-- A volume of which only the disk matters. -/
def imageVolume (disk : ℕ → UInt8) : Volume := { smallVolume [] with disk := disk }

/-- Sixteen sectors of 512 bytes: one is reserved, one holds the FAT, and clusters of
eight sectors leave seven over. -/
def sixteenSectors : ℕ → UInt8
  | 12 => 2
  | 13 => 8
  | 14 => 1
  | 16 => 1
  | 19 => 16
  | 36 => 1
  | 44 => 2
  | _ => 0

theorem geometrySound_iff_sixteenSectors :
    ∃ b vol, (readBootSector (fun _ => 0) (imageVolume sixteenSectors)).1 = .ok (b, vol) ∧
      b.GeometrySound vol ∧ vol.isValidClusterNumber 2 := by
  let b : FatBootSector := ⟨512, 8, 1, 1, 0, 16, 0, 0, 1, 0, 2, 0⟩
  let vol : FatVolume := ⟨512, 9, 8, 3, 12, 1, 1, 0, 16, 1, 0, 2, 0, 1⟩
  have hread : readBootSector (fun _ => 0) (imageVolume sixteenSectors) =
      (.ok (b, vol), imageVolume sixteenSectors) := rfl
  exact ⟨b, vol, rfl, (geometrySound_iff hread).mpr (by decide), by decide⟩

/-- The header of a volume of 50 MiB: 102400 sectors, which only the 32-bit field holds,
32 of them reserved, and two FATs of 788 sectors. -/
def fiftyMegabytes : ℕ → UInt8
  | 12 => 2
  | 13 => 1
  | 14 => 32
  | 16 => 2
  | 33 => 0x90
  | 34 => 1
  | 36 => 0x14
  | 37 => 3
  | 44 => 2
  | 48 => 1
  | _ => 0

/-- The number of sectors is zero less 32, so nearly every 32-bit number is a cluster. -/
theorem geometry_wraps_without_total_sectors :
    ¬ ∀ (stack : ℤ → UInt8) (v v' : Volume) (b : FatBootSector) (vol : FatVolume),
      readBootSector stack v = (.ok (b, vol), v') → b.GeometrySound vol := by
  intro hsound
  let b : FatBootSector := ⟨512, 1, 32, 2, 0, 0, 0, 102400, 788, 0, 2, 1⟩
  let vol : FatVolume := ⟨512, 9, 1, 0, 9, 32, 2, 0, 0, 788, 0, 2, 1, 4294967264⟩
  have hread : readBootSector (fun _ => 0) (imageVolume fiftyMegabytes) =
      (.ok (b, vol), imageVolume fiftyMegabytes) := rfl
  have hsound := hsound (fun _ => 0) _ _ b vol hread
  have hwrap := hsound.noWrap (-32) (by decide)
  omega

end SistOp.FatFuse
