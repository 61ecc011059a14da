import SistOp.FatUtil
import Mathlib.Tactic

/-!
# Directory entries on disk (`struct fat_dir_entry_s`)

The structure is packed, so an entry is its 32 bytes and a field is a range of
them.  Reading an entry from disk and writing it back copy these bytes.
-/

namespace SistOp.FatFuse

structure FatDirEntry where
  bytes : Vector UInt8 32
  deriving DecidableEq

abbrev fatDirEntryByteSize : ℕ := 32

abbrev fileAttributeVolume : UInt8 := 0x08
abbrev fileAttributeDirectory : UInt8 := 0x10
abbrev fileAttributeArchive : UInt8 := 0x20

abbrev fatFilenameDeletedChar : UInt8 := 0xe5

namespace FatDirEntry

def byte (d : FatDirEntry) (i : ℕ) : UInt8 :=
  if h : i < 32 then d.bytes[i] else 0

def setByte (d : FatDirEntry) (i : ℕ) (b : UInt8) : FatDirEntry :=
  if h : i < 32 then ⟨d.bytes.set i b⟩ else d

/-- The entry made of 32 consecutive bytes of a store. -/
def ofStore (m : ℕ → UInt8) (off : ℕ) : FatDirEntry :=
  ⟨Vector.ofFn fun i => m (off + i)⟩

def zero : FatDirEntry := ofStore (fun _ => 0) 0

def le16At (d : FatDirEntry) (off : ℕ) : ℕ :=
  (d.byte off).toNat + 256 * (d.byte (off + 1)).toNat

def setLe16 (d : FatDirEntry) (off n : ℕ) : FatDirEntry :=
  (d.setByte off (leByte n 0)).setByte (off + 1) (leByte n 1)

/-! ## Fields -/

def baseName (d : FatDirEntry) (i : ℕ) : UInt8 := d.byte i

def extension (d : FatDirEntry) (i : ℕ) : UInt8 := d.byte (8 + i)

def attribs (d : FatDirEntry) : UInt8 := d.byte 11

def setAttribs (d : FatDirEntry) (a : UInt8) : FatDirEntry := d.setByte 11 a

def setReserved (d : FatDirEntry) (b : UInt8) : FatDirEntry := d.setByte 12 b

def setCreateTimeFineRes (d : FatDirEntry) (b : UInt8) : FatDirEntry :=
  d.setByte 13 b

def setCreateTime (d : FatDirEntry) (w : ℕ) : FatDirEntry := d.setLe16 14 w

def setCreateDate (d : FatDirEntry) (w : ℕ) : FatDirEntry := d.setLe16 16 w

def setLastAccessDate (d : FatDirEntry) (w : ℕ) : FatDirEntry := d.setLe16 18 w

def fat32StartClusterHigh (d : FatDirEntry) : ℕ := d.le16At 20

def lastModifiedTime (d : FatDirEntry) : ℕ := d.le16At 22

def setLastModifiedTime (d : FatDirEntry) (w : ℕ) : FatDirEntry :=
  d.setLe16 22 w

def lastModifiedDate (d : FatDirEntry) : ℕ := d.le16At 24

def setLastModifiedDate (d : FatDirEntry) (w : ℕ) : FatDirEntry :=
  d.setLe16 24 w

def startClusterLow (d : FatDirEntry) : ℕ := d.le16At 26

def fileSize (d : FatDirEntry) : ℕ := d.le16At 28 + 2 ^ 16 * d.le16At 30

def setFileSize (d : FatDirEntry) (n : ℕ) : FatDirEntry :=
  (d.setLe16 28 n).setLe16 30 (n >>> 16)

/-- `set_first_cluster`. -/
def setFirstCluster (d : FatDirEntry) (cluster : ℕ) : FatDirEntry :=
  (d.setLe16 26 cluster).setLe16 20 (cluster >>> 16)

/-- `file_start_cluster`. -/
def fileStartCluster (d : FatDirEntry) : ℕ :=
  d.startClusterLow + 2 ^ 16 * d.fat32StartClusterHigh

/-! ## Bytes of updated entries -/

theorem ext_byte {d e : FatDirEntry} (h : ∀ i < 32, d.byte i = e.byte i) :
    d = e := by
  cases d with
  | mk dbytes =>
      cases e with
      | mk ebytes =>
          rw [FatDirEntry.mk.injEq]
          ext i hi
          simpa [byte, hi] using congrArg UInt8.toNat (h i hi)

theorem byte_setByte (d : FatDirEntry) {i : ℕ} (hi : i < 32) (b : UInt8)
    (j : ℕ) : (d.setByte i b).byte j = if i = j then b else d.byte j := by
  by_cases hj : j < 32
  · simp [byte, setByte, hi, hj, Vector.getElem_set]
  · have hne : i ≠ j := by omega
    simp [byte, hj, hne]

theorem byte_ofStore (m : ℕ → UInt8) (off : ℕ) {i : ℕ} (hi : i < 32) :
    (ofStore m off).byte i = m (off + i) := by
  simp [byte, ofStore, hi]

@[simp] theorem byte_zero (i : ℕ) : zero.byte i = 0 := by
  by_cases hi : i < 32
  · simp [zero, byte_ofStore, hi]
  · simp [byte, hi]

theorem byte_setLe16 (d : FatDirEntry) {off : ℕ} (hoff : off + 1 < 32) (n j : ℕ) :
    (d.setLe16 off n).byte j =
      if off + 1 = j then leByte n 1
      else if off = j then leByte n 0 else d.byte j := by
  rw [setLe16, byte_setByte _ hoff, byte_setByte _ (by omega)]

theorem byte_setLe16_of_ne (d : FatDirEntry) {off : ℕ} (hoff : off + 1 < 32)
    (n : ℕ) {j : ℕ} (h0 : off ≠ j) (h1 : off + 1 ≠ j) :
    (d.setLe16 off n).byte j = d.byte j := by
  rw [byte_setLe16 d hoff, if_neg h1, if_neg h0]

theorem leByte_pair (n : ℕ) :
    (leByte n 0).toNat + 256 * (leByte n 1).toNat = n % 2 ^ 16 := by
  simp only [leByte, UInt8.toNat_ofNat', Nat.shiftRight_eq_div_pow]
  omega

theorem le16At_setLe16_self (d : FatDirEntry) {off : ℕ} (hoff : off + 1 < 32)
    (n : ℕ) : (d.setLe16 off n).le16At off = n % 2 ^ 16 := by
  rw [le16At, byte_setLe16 d hoff, byte_setLe16 d hoff]
  simp [leByte_pair]

theorem le16At_setLe16_of_disjoint (d : FatDirEntry) {off other : ℕ}
    (hoff : off + 1 < 32) (n : ℕ) (h : off + 2 ≤ other ∨ other + 2 ≤ off) :
    (d.setLe16 off n).le16At other = d.le16At other := by
  rw [le16At, le16At, byte_setLe16_of_ne d hoff n (by omega) (by omega),
    byte_setLe16_of_ne d hoff n (by omega) (by omega)]

theorem le16At_setByte_of_disjoint (d : FatDirEntry) {i off : ℕ} (hi : i < 32)
    (b : UInt8) (h : i < off ∨ off + 2 ≤ i) :
    (d.setByte i b).le16At off = d.le16At off := by
  rw [le16At, le16At, byte_setByte d hi, byte_setByte d hi, if_neg (by omega),
    if_neg (by omega)]

/-! ## Fields of updated entries -/

@[simp] theorem fileSize_setFileSize (d : FatDirEntry) (n : ℕ) :
    (d.setFileSize n).fileSize = n % 2 ^ 32 := by
  rw [fileSize, setFileSize, le16At_setLe16_of_disjoint _ (by omega) _ (by omega),
    le16At_setLe16_self _ (by omega), le16At_setLe16_self _ (by omega),
    Nat.shiftRight_eq_div_pow]
  omega

@[simp] theorem fileStartCluster_setFirstCluster (d : FatDirEntry) (c : ℕ) :
    (d.setFirstCluster c).fileStartCluster = c % 2 ^ 32 := by
  rw [fileStartCluster, startClusterLow, fat32StartClusterHigh, setFirstCluster,
    le16At_setLe16_of_disjoint _ (by omega) _ (by omega),
    le16At_setLe16_self _ (by omega), le16At_setLe16_self _ (by omega),
    Nat.shiftRight_eq_div_pow]
  omega

theorem le16At_lt (d : FatDirEntry) (off : ℕ) : d.le16At off < 2 ^ 16 := by
  have hlow := (d.byte off).toNat_lt
  have hhigh := (d.byte (off + 1)).toNat_lt
  unfold le16At
  omega

theorem fileStartCluster_lt (d : FatDirEntry) : d.fileStartCluster < 2 ^ 32 := by
  have hlow := d.le16At_lt 26
  have hhigh := d.le16At_lt 20
  unfold fileStartCluster startClusterLow fat32StartClusterHigh
  omega

theorem fileSize_lt (d : FatDirEntry) : d.fileSize < 2 ^ 32 := by
  have hlow := d.le16At_lt 28
  have hhigh := d.le16At_lt 30
  unfold fileSize
  omega

end FatDirEntry

end SistOp.FatFuse
