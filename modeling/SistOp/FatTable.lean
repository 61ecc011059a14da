import SistOp.FatUtil
import Mathlib.Tactic

/-!
# The file allocation table (`fat_table.c`)

`FatTable` holds what mounting computes once: where the first FAT and the data
area lie and how large a cluster is.  The contents of the FAT live in the volume,
once in memory (`fatMap`) and once on disk.  The mapping has `fatEntries`
entries; reading or writing outside of it is a fault.
-/

namespace SistOp.FatFuse

open ByteStore

abbrev fatClusterEndOfChainMin : ℕ := 0x0FFFFFF8
abbrev fatClusterEndOfChainMax : ℕ := 0x0FFFFFFF
abbrev fatClusterFree : ℕ := 0x00000000
abbrev fatClusterBadSector : ℕ := 0x0FFFFFF7

/-- The fixed part of `struct fat_table_s`.  Mounting accepts cluster sizes from
`2 ^ 5` to `2 ^ 19` bytes. -/
structure FatTable where
  fatOffset : ℕ
  numDataClusters : ℕ
  dataStartOffset : ℕ
  clusterOrder : ℕ
  fatEntries : ℕ
  clusterOrder_ge : 5 ≤ clusterOrder
  clusterOrder_le : clusterOrder ≤ 19

/-- What formatting a volume ensures and mounting does not check: the FAT has an entry
for each cluster and ends in front of the data area, and cluster numbers have 32 bits. -/
class FatTable.Formatted (t : FatTable) : Prop where
  entry_of_cluster : t.numDataClusters + 2 ≤ t.fatEntries
  entry_numbers : t.fatEntries < 2 ^ 32
  data_behind_fat : t.fatOffset + 4 * t.fatEntries ≤ t.dataStartOffset

theorem FatTable.clusters_le (t : FatTable) [t.Formatted] :
    t.numDataClusters + 2 ≤ t.fatEntries := Formatted.entry_of_cluster

theorem FatTable.entries_lt (t : FatTable) [t.Formatted] : t.fatEntries < 2 ^ 32 :=
  Formatted.entry_numbers

theorem FatTable.fat_before_data (t : FatTable) [t.Formatted] :
    t.fatOffset + 4 * t.fatEntries ≤ t.dataStartOffset := Formatted.data_behind_fat

variable (t : FatTable)

def fatTableIsValidClusterNumber (cluster : ℕ) : Prop :=
  2 ≤ cluster ∧ cluster < t.numDataClusters + 2

instance (cluster : ℕ) : Decidable (fatTableIsValidClusterNumber t cluster) :=
  inferInstanceAs (Decidable (2 ≤ cluster ∧ cluster < t.numDataClusters + 2))

/-- `le32_to_cpu(((const le32 *)table->fat_map)[cluster])`. -/
def fatMapRead (v : Volume) (cluster : ℕ) : Option ℕ :=
  if cluster < t.fatEntries then some (v.fatMap cluster) else none

def fatTableGetNextCluster (v : Volume) (curCluster : ℕ) : Option ℕ := do
  let nextCluster ← fatMapRead t v curCluster
  if fatTableIsValidClusterNumber t nextCluster then some nextCluster
  else some fatClusterEndOfChainMax

def fatTableBytesPerCluster : ℕ := 1 <<< t.clusterOrder

def fatTableMaskOffset (offset : ℕ) : ℕ :=
  offset &&& (fatTableBytesPerCluster t - 1)

def fatTableGetClusterRemainingBytes (bytesRemaining offset : ℕ) : ℕ :=
  min (fatTableBytesPerCluster t - fatTableMaskOffset t offset) bytesRemaining

/-- The search loop from `cluster` on.  Every entry it reads lies in the mapping,
so `fatEntries` rounds are enough. -/
def fatTableNextFreeLoop (v : Volume) : ℕ → ℕ → Option ℕ
  | 0, _ => none
  | fuel + 1, cluster => do
      let entry ← fatMapRead t v cluster
      if entry ≠ fatClusterFree then fatTableNextFreeLoop v fuel (cluster + 1)
      else some cluster

def fatTableGetNextFreeCluster (v : Volume) : Option ℕ := do
  let cluster ← fatTableNextFreeLoop t v t.fatEntries 2
  if fatTableIsValidClusterNumber t cluster then some cluster
  else some fatClusterEndOfChainMax

/-- The difference `cluster - 2` of 32-bit numbers wraps around. -/
def fatTableClusterOffset (cluster : ℕ) : ℕ :=
  t.dataStartOffset +
    (if 2 ≤ cluster then cluster - 2 else cluster + 2 ^ 32 - 2) <<< t.clusterOrder

def fatTableIsClusterUsed (v : Volume) (cluster : ℕ) : Option Bool := do
  let entry ← fatMapRead t v cluster
  some (entry != 0)

/-- `fat_table_set_next_cluster`: first the entry on disk, then, when some of it
was written, the entry in memory. -/
def fatTableSetNextCluster (v : Volume) (curCluster nextCluster : ℕ) :
    Option Volume :=
  let entryOffset : ℕ := curCluster * 4 % 2 ^ 32 + t.fatOffset
  let (writtenBytes, v) :=
    pwrite v (fun i => leByte nextCluster i.toNat) 4 entryOffset
  if writtenBytes ≤ 0 then some { v with errno := Errno.eio }
  else if curCluster < t.fatEntries then
    some { v with fatMap := Function.update v.fatMap curCluster nextCluster }
  else none

def fatTableSeekLoop (v : Volume) : ℕ → ℕ → Option (ℕ × Volume)
  | 0, cluster => some (cluster, v)
  | positions + 1, cluster => do
      if cluster = fatClusterEndOfChainMax then
        some (0, { v with errno := Errno.eoverflow })
      else
        let cluster ← fatTableGetNextCluster t v cluster
        fatTableSeekLoop v positions cluster

def fatTableSeekCluster (v : Volume) (startCluster offset : ℕ) :
    Option (ℕ × Volume) :=
  fatTableSeekLoop t v ((offset >>> t.clusterOrder) % 2 ^ 32) startCluster

def fatTableClusterIsEOC (cluster : ℕ) : Prop :=
  fatClusterEndOfChainMin ≤ cluster ∧ cluster ≤ fatClusterEndOfChainMax

instance (cluster : ℕ) : Decidable (fatTableClusterIsEOC cluster) :=
  inferInstanceAs (Decidable (_ ∧ _))

def fatTableClusterIsBadSector (cluster : ℕ) : Prop :=
  cluster = fatClusterBadSector

instance (cluster : ℕ) : Decidable (fatTableClusterIsBadSector cluster) :=
  inferInstanceAs (Decidable (_ = _))

def fatTableClusterIsValid (cluster : ℕ) : Prop :=
  ¬ fatTableClusterIsEOC cluster ∧ ¬ fatTableClusterIsBadSector cluster

instance (cluster : ℕ) : Decidable (fatTableClusterIsValid cluster) :=
  inferInstanceAs (Decidable (_ ∧ _))

/-- `fat_table_print` reads the entries from `startCluster` to `endCluster`. -/
def fatTablePrint (v : Volume) (startCluster endCluster : ℕ) :
    Option (List ℕ) :=
  (List.range' startCluster (endCluster - startCluster)).mapM (fatMapRead t v)

/-! ## Geometry -/

section Geometry

variable {t}

theorem bytesPerCluster_eq : fatTableBytesPerCluster t = 2 ^ t.clusterOrder := by
  simp [fatTableBytesPerCluster, Nat.shiftLeft_eq]

theorem bytesPerCluster_pos : 0 < fatTableBytesPerCluster t := by
  rw [bytesPerCluster_eq]
  positivity

/-- A cluster holds a whole number of 32-byte directory slots. -/
theorem slot_dvd_bytesPerCluster : 32 ∣ fatTableBytesPerCluster t := by
  rw [bytesPerCluster_eq]
  exact pow_dvd_pow 2 t.clusterOrder_ge

theorem bytesPerCluster_le : fatTableBytesPerCluster t ≤ 2 ^ 19 := by
  rw [bytesPerCluster_eq]
  exact Nat.pow_le_pow_right (by norm_num) t.clusterOrder_le

theorem maskOffset_eq (offset : ℕ) :
    fatTableMaskOffset t offset = offset % fatTableBytesPerCluster t := by
  rw [fatTableMaskOffset, bytesPerCluster_eq, Nat.and_two_pow_sub_one_eq_mod]

theorem positions_eq (offset : ℕ) :
    offset >>> t.clusterOrder = offset / fatTableBytesPerCluster t := by
  rw [bytesPerCluster_eq, Nat.shiftRight_eq_div_pow]

theorem clusterOffset_eq (cluster : ℕ) :
    fatTableClusterOffset t cluster =
      t.dataStartOffset +
        (if 2 ≤ cluster then cluster - 2 else cluster + 2 ^ 32 - 2) *
          fatTableBytesPerCluster t := by
  rw [fatTableClusterOffset, bytesPerCluster_eq, Nat.shiftLeft_eq]

theorem dataStart_le_clusterOffset (cluster : ℕ) :
    t.dataStartOffset ≤ fatTableClusterOffset t cluster := by
  rw [clusterOffset_eq]
  omega

/-- Distinct 32-bit cluster numbers have disjoint byte ranges. -/
theorem clusterOffset_injective {c d i j : ℕ} (hc : c < 2 ^ 32) (hd : d < 2 ^ 32)
    (hi : i < fatTableBytesPerCluster t) (hj : j < fatTableBytesPerCluster t)
    (heq : fatTableClusterOffset t c + i = fatTableClusterOffset t d + j) :
    c = d ∧ i = j := by
  rw [clusterOffset_eq, clusterOffset_eq] at heq
  rw [Nat.add_assoc, Nat.add_assoc] at heq
  have hindex := Nat.add_left_cancel heq
  have hquot := congrArg (· / fatTableBytesPerCluster t) hindex
  simp only [Nat.mul_comm _ (fatTableBytesPerCluster t),
    Nat.mul_add_div bytesPerCluster_pos, Nat.div_eq_of_lt hi,
    Nat.div_eq_of_lt hj] at hquot
  have hcd : c = d := by
    split at hquot <;> split at hquot <;> omega
  subst hcd
  exact ⟨rfl, by omega⟩

/-- The entry of a cluster on disk lies in front of the data area. -/
theorem entry_lt_dataStart [t.Formatted] {c : ℕ} (hc : c < t.fatEntries) :
    t.fatOffset + 4 * c + 4 ≤ t.dataStartOffset := by
  have := t.fat_before_data
  omega

theorem valid_lt_entries [t.Formatted] {c : ℕ} (hc : fatTableIsValidClusterNumber t c) :
    c < t.fatEntries := lt_of_lt_of_le hc.2 t.clusters_le

theorem valid_lt_u32 [t.Formatted] {c : ℕ} (hc : fatTableIsValidClusterNumber t c) :
    c < 2 ^ 32 := (valid_lt_entries hc).trans t.entries_lt

end Geometry

/-! ## Small volumes -/

/-- Six clusters of 32 bytes. -/
def smallTable : FatTable where
  fatOffset := 0
  numDataClusters := 6
  dataStartOffset := 64
  clusterOrder := 5
  fatEntries := 8
  clusterOrder_ge := by decide
  clusterOrder_le := by decide

instance : smallTable.Formatted := ⟨by decide, by decide, by decide⟩

/-- A volume of zeros with the given FAT entries for the clusters from 2 on. -/
def smallVolume (entries : List ℕ) : Volume where
  disk := fun _ => 0
  fatMap := fun c => entries.getD (c - 2) 0
  errno := 0
  writable := true
  io := []
  clock := fun _ => 0
  heap := fun _ _ => 0

/-- Sixty-two clusters of 32 bytes. -/
def wideTable : FatTable :=
  { smallTable with
    numDataClusters := 62
    dataStartOffset := 256
    fatEntries := 64 }

instance : wideTable.Formatted := ⟨by decide, by decide, by decide⟩

/-- Sixty-two clusters of four slots. -/
def quadTable : FatTable :=
  { wideTable with
    clusterOrder := 7
    clusterOrder_ge := by decide
    clusterOrder_le := by decide }

instance : quadTable.Formatted := ⟨by decide, by decide, by decide⟩

def placeBytes (bytes : List UInt8) (off : ℕ) (disk : ℕ → UInt8) : ℕ → UInt8 := fun a =>
  if off ≤ a ∧ a < off + bytes.length then bytes.getD (a - off) 0 else disk a

/-- The bytes of an entry of a small file. -/
def entryBytes (base ext : List UInt8) (attr cluster size : UInt8) : List UInt8 :=
  base ++ List.replicate (8 - base.length) 0 ++ ext ++ List.replicate (3 - ext.length) 0 ++
    [attr] ++ List.replicate 14 0 ++ [cluster, 0, size, 0, 0, 0]

end SistOp.FatFuse
