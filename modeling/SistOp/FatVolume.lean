import SistOp.FatTable
import Mathlib.Tactic

/-!
# Mounting: the boot sector (`fat_volume.c`)

Reading the boot sector fixes the geometry of a volume.  The fields of the header that
nothing reads later are left out.  `u32` is the conversion to 32 bits of an exact result.
-/

namespace SistOp.FatFuse

/-- The fields of `struct fat_boot_sector_disk` that mounting uses. -/
structure FatBootSector where
  bytesPerSector : ℕ
  sectorsPerCluster : ℕ
  reservedSectors : ℕ
  numTables : ℕ
  maxRootEntries : ℕ
  totalSectors : ℕ
  sectorsPerFat : ℕ
  totalSectors32 : ℕ
  fat32SectorsPerFat : ℕ
  version : ℕ
  rootDirStartCluster : ℕ
  fsInfoSector : ℕ
  deriving DecidableEq, Repr

def le16Of (buf : ℕ → UInt8) (off : ℕ) : ℕ :=
  (buf off).toNat + 2 ^ 8 * (buf (off + 1)).toNat

def le32Of (buf : ℕ → UInt8) (off : ℕ) : ℕ :=
  le16Of buf off + 2 ^ 16 * le16Of buf (off + 2)

/-- The packed header: 11 bytes in front of the DOS 2.0 block, the DOS 3.31 block from
24 on, the FAT32 block from 36 on. -/
def FatBootSector.ofBytes (buf : ℕ → UInt8) : FatBootSector where
  bytesPerSector := le16Of buf 11
  sectorsPerCluster := (buf 13).toNat
  reservedSectors := le16Of buf 14
  numTables := (buf 16).toNat
  maxRootEntries := le16Of buf 17
  totalSectors := le16Of buf 19
  sectorsPerFat := le16Of buf 22
  totalSectors32 := le32Of buf 32
  fat32SectorsPerFat := le32Of buf 36
  version := le16Of buf 42
  rootDirStartCluster := le32Of buf 44
  fsInfoSector := le16Of buf 48

/-- `struct fat_volume_s` with the fields of its table that come from the header. -/
structure FatVolume where
  bytesPerSector : ℕ
  sectorOrder : ℕ
  sectorsPerCluster : ℕ
  sectorsPerClusterOrder : ℕ
  clusterOrder : ℕ
  reservedSectors : ℕ
  numTables : ℕ
  maxRootEntries : ℕ
  totalSectors : ℕ
  sectorsPerFat : ℕ
  version : ℕ
  rootDirStartCluster : ℕ
  fsInfoSector : ℕ
  numDataClusters : ℕ
  deriving DecidableEq, Repr

/-- The zeroed structure that `calloc` returns. -/
def FatVolume.zero : FatVolume := ⟨0, 0, 0, 0, 0, 0, 0, 0, 0, 0, 0, 0, 0, 0⟩

def u32 (z : ℤ) : ℕ := (z % 2 ^ 32).toNat

/-- The position of the highest bit that is set. -/
def bsr (n : ℕ) : ℕ := n.log2

def isPowerOf2 (n : ℕ) : Bool := n &&& (n - 1) == 0 && n != 0

/-- `read_dos_2_0_bpb`; an error is the value of `errno`. -/
def readDos20Bpb (vol : FatVolume) (bootSec : FatBootSector) : Except ℤ FatVolume := do
  let vol := { vol with
    bytesPerSector := bootSec.bytesPerSector, sectorOrder := bsr bootSec.bytesPerSector }
  if !isPowerOf2 vol.bytesPerSector || vol.sectorOrder < 5 || vol.sectorOrder > 12 then
    throw Errno.einval
  let vol := { vol with
    sectorsPerCluster := bootSec.sectorsPerCluster
    sectorsPerClusterOrder := bsr bootSec.sectorsPerCluster }
  if !isPowerOf2 vol.sectorsPerCluster || vol.sectorsPerClusterOrder > 7 then
    throw Errno.einval
  let vol := { vol with
    clusterOrder := vol.sectorOrder + vol.sectorsPerClusterOrder
    reservedSectors := bootSec.reservedSectors
    numTables := bootSec.numTables }
  if vol.numTables ≠ 1 ∧ vol.numTables ≠ 2 then
    throw Errno.einval
  -- root entries only print an error
  return { vol with
    maxRootEntries := bootSec.maxRootEntries
    totalSectors := bootSec.totalSectors
    sectorsPerFat := bootSec.sectorsPerFat }

/-- `read_fat32_ebpb`.  The size of the FAT is shifted in 64 bits. -/
def readFat32Ebpb (vol : FatVolume) (ebpb : FatBootSector) : Except ℤ FatVolume := do
  let sectorsPerFat :=
    if ebpb.fat32SectorsPerFat ≠ 0 then ebpb.fat32SectorsPerFat else vol.sectorsPerFat
  let vol := { vol with sectorsPerFat := sectorsPerFat }
  if ebpb.fat32SectorsPerFat ≠ 0 ∧
      (vol.sectorsPerFat <<< vol.sectorOrder % 2 ^ 64) >>> vol.sectorOrder ≠
        vol.sectorsPerFat then
    throw Errno.einval
  let vol := { vol with version := ebpb.version }
  if vol.version ≠ 0 then
    throw Errno.einval
  let vol := { vol with rootDirStartCluster := ebpb.rootDirStartCluster }
  if vol.rootDirStartCluster = 0 then
    throw Errno.einval
  let fsInfoSector := if ebpb.fsInfoSector = 0xffff then 0 else ebpb.fsInfoSector
  let vol := { vol with fsInfoSector := fsInfoSector }
  if vol.fsInfoSector ≠ 0 ∧ vol.sectorOrder < 9 then
    throw Errno.einval
  return vol

/-- `read_boot_sector` from the bytes of the header on. -/
def readBootSectorOf (bootSec : FatBootSector) : Except ℤ FatVolume := do
  let vol ← readDos20Bpb FatVolume.zero bootSec
  let vol ← readFat32Ebpb vol bootSec
  let numDataSectors := u32 ((vol.totalSectors : ℤ) - vol.reservedSectors -
    (vol.maxRootEntries <<< 5 >>> vol.sectorOrder : ℕ))
  -- too few clusters only print an error
  return { vol with numDataClusters := numDataSectors >>> vol.sectorsPerClusterOrder }

/-- `read_boot_sector`; the buffer on the stack holds `stack` before. -/
def readBootSector (stack : ℤ → UInt8) (v : Volume) :
    Except ℤ (FatBootSector × FatVolume) × Volume :=
  let (read, buf, v) := fullPread v stack 128 0
  if read ≠ 128 then (.error v.errno, v)
  else
    let bootSec := FatBootSector.ofBytes fun i => buf i
    ((readBootSectorOf bootSec).map fun vol => (bootSec, vol), v)

namespace FatVolume

/-- `fat_table_is_valid_cluster_number`: the sum is one of 32-bit numbers. -/
def isValidClusterNumber (vol : FatVolume) (cluster : ℕ) : Prop :=
  2 ≤ cluster ∧ cluster < u32 (vol.numDataClusters + 2)

instance (vol : FatVolume) (cluster : ℕ) : Decidable (vol.isValidClusterNumber cluster) :=
  inferInstanceAs (Decidable (_ ∧ _))

/-- `fat_offset` of `map_fat`. -/
def fatOffset (vol : FatVolume) : ℕ := vol.reservedSectors <<< vol.sectorOrder

/-- `data_start_offset` of `fat_volume_mount`. -/
def dataStartOffset (vol : FatVolume) : ℕ :=
  u32 ((vol.numTables : ℤ) * vol.sectorsPerFat + vol.reservedSectors +
    (vol.maxRootEntries >>> (vol.sectorOrder - 5) : ℕ)) <<< vol.sectorOrder

/-- `fat_table_cluster_offset`. -/
def clusterOffset (vol : FatVolume) (cluster : ℕ) : ℕ :=
  vol.dataStartOffset + u32 ((cluster : ℤ) - 2) <<< vol.clusterOrder

end FatVolume

/-! ## Accepted headers -/

theorem eq_two_pow_bsr {n : ℕ} (h : isPowerOf2 n = true) : n = 2 ^ bsr n := by
  simp only [isPowerOf2, Bool.and_eq_true, beq_iff_eq, bne_iff_ne] at h
  obtain ⟨k, rfl⟩ := Nat.ne_zero_and_sub_one_eq_zero_iff_isPowerOfTwo.mp ⟨h.2, h.1⟩
  rw [bsr, Nat.log2_two_pow]

/-- The sectors of one FAT: the FAT32 field, or the old one when that is zero. -/
def FatBootSector.fatSectors (b : FatBootSector) : ℕ :=
  if b.fat32SectorsPerFat ≠ 0 then b.fat32SectorsPerFat else b.sectorsPerFat

/-- What is known of a volume whose header was accepted. -/
structure AcceptedAs (b : FatBootSector) (vol : FatVolume) : Prop where
  bytesPerSector : vol.bytesPerSector = b.bytesPerSector
  bytesPerSector_eq : b.bytesPerSector = 2 ^ vol.sectorOrder
  sectorOrder_ge : 5 ≤ vol.sectorOrder
  sectorOrder_le : vol.sectorOrder ≤ 12
  sectorsPerCluster_eq : b.sectorsPerCluster = 2 ^ vol.sectorsPerClusterOrder
  sectorsPerClusterOrder_le : vol.sectorsPerClusterOrder ≤ 7
  clusterOrder_eq : vol.clusterOrder = vol.sectorOrder + vol.sectorsPerClusterOrder
  reservedSectors : vol.reservedSectors = b.reservedSectors
  numTables : vol.numTables = b.numTables
  numTables_pos : 0 < b.numTables
  maxRootEntries : vol.maxRootEntries = b.maxRootEntries
  totalSectors : vol.totalSectors = b.totalSectors
  sectorsPerFat : vol.sectorsPerFat = b.fatSectors
  numDataClusters : vol.numDataClusters =
    u32 ((b.totalSectors : ℤ) - b.reservedSectors -
      (b.maxRootEntries <<< 5 >>> vol.sectorOrder : ℕ)) >>> vol.sectorsPerClusterOrder

theorem readDos20Bpb_eq_ok {vol vol' : FatVolume} {b : FatBootSector}
    (h : readDos20Bpb vol b = .ok vol') :
    isPowerOf2 b.bytesPerSector = true ∧ 5 ≤ bsr b.bytesPerSector ∧
      bsr b.bytesPerSector ≤ 12 ∧ isPowerOf2 b.sectorsPerCluster = true ∧
      bsr b.sectorsPerCluster ≤ 7 ∧ (b.numTables = 1 ∨ b.numTables = 2) ∧
      vol' = { vol with
        bytesPerSector := b.bytesPerSector
        sectorOrder := bsr b.bytesPerSector
        sectorsPerCluster := b.sectorsPerCluster
        sectorsPerClusterOrder := bsr b.sectorsPerCluster
        clusterOrder := bsr b.bytesPerSector + bsr b.sectorsPerCluster
        reservedSectors := b.reservedSectors
        numTables := b.numTables
        maxRootEntries := b.maxRootEntries
        totalSectors := b.totalSectors
        sectorsPerFat := b.sectorsPerFat } := by
  unfold readDos20Bpb at h
  dsimp only at h
  obtain ⟨-, h⟩ | ⟨hsector, h⟩ := ite_eq_iff.mp h
  · contradiction
  obtain ⟨-, h⟩ | ⟨hcluster, h⟩ := ite_eq_iff.mp h
  · contradiction
  obtain ⟨-, h⟩ | ⟨htables, h⟩ := ite_eq_iff.mp h
  · contradiction
  obtain rfl := Except.ok.inj h
  simp only [Bool.or_eq_true, Bool.not_eq_true', decide_eq_true_eq, not_or, not_lt,
    Bool.not_eq_false] at hsector hcluster
  exact ⟨hsector.1.1, hsector.1.2, hsector.2, hcluster.1, hcluster.2, by omega, rfl⟩

theorem readFat32Ebpb_eq_ok {vol vol' : FatVolume} {b : FatBootSector}
    (h : readFat32Ebpb vol b = .ok vol') :
    vol' = { vol with
      sectorsPerFat := if b.fat32SectorsPerFat ≠ 0 then b.fat32SectorsPerFat
        else vol.sectorsPerFat
      version := b.version
      rootDirStartCluster := b.rootDirStartCluster
      fsInfoSector := if b.fsInfoSector = 0xffff then 0 else b.fsInfoSector } := by
  unfold readFat32Ebpb at h
  dsimp only at h
  obtain ⟨-, h⟩ | ⟨-, h⟩ := ite_eq_iff.mp h
  · contradiction
  obtain ⟨-, h⟩ | ⟨-, h⟩ := ite_eq_iff.mp h
  · contradiction
  obtain ⟨-, h⟩ | ⟨-, h⟩ := ite_eq_iff.mp h
  · contradiction
  obtain ⟨-, h⟩ | ⟨-, h⟩ := ite_eq_iff.mp h
  · contradiction
  exact (Except.ok.inj h).symm

theorem readBootSectorOf_eq_ok {vol : FatVolume} {b : FatBootSector}
    (h : readBootSectorOf b = .ok vol) : AcceptedAs b vol := by
  unfold readBootSectorOf at h
  cases hdos : readDos20Bpb FatVolume.zero b with
  | error e =>
      rw [hdos] at h
      contradiction
  | ok vol₁ =>
      rw [hdos] at h
      cases hfat : readFat32Ebpb vol₁ b with
      | error e =>
          simp only [bind, Except.bind, hfat] at h
          contradiction
      | ok vol₂ =>
          simp only [bind, Except.bind, hfat] at h
          obtain ⟨hbytes, hge, hle, hsectors, hcluster, htables, rfl⟩ := readDos20Bpb_eq_ok hdos
          obtain rfl := readFat32Ebpb_eq_ok hfat
          obtain rfl := Except.ok.inj h
          exact ⟨rfl, eq_two_pow_bsr hbytes, hge, hle, eq_two_pow_bsr hsectors, hcluster, rfl,
            rfl, rfl, by omega, rfl, rfl, rfl, rfl⟩

end SistOp.FatFuse
