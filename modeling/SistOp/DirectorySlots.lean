import SistOp.FatFile
import Mathlib.Tactic

/-!
# Slots of a directory cluster

A cluster of a directory is an array of 32-byte slots.  `writeDirEntry` writes a
dentry to the slot that the file remembers, and refuses a slot behind the end of
the cluster.
-/

namespace SistOp.FatFuse

open ByteStore

variable {t : FatTable}

def slotAddr (t : FatTable) (cluster slot : ℕ) : ℕ :=
  fatTableClusterOffset t cluster + fatDirEntryByteSize * slot

/-- The entry that the disk holds in a slot. -/
def diskSlot (t : FatTable) (disk : ℕ → UInt8) (cluster slot : ℕ) : FatDirEntry :=
  FatDirEntry.ofStore disk (slotAddr t cluster slot)

def slotsPerCluster (t : FatTable) : ℕ :=
  fatTableBytesPerCluster t / fatDirEntryByteSize

theorem bytesPerCluster_eq_slots :
    fatTableBytesPerCluster t = fatDirEntryByteSize * slotsPerCluster t :=
  (Nat.mul_div_cancel' slot_dvd_bytesPerCluster).symm

theorem slotsPerCluster_pos : 0 < slotsPerCluster t := by
  have hpos := bytesPerCluster_pos (t := t)
  rw [bytesPerCluster_eq_slots] at hpos
  exact Nat.pos_of_mul_pos_left hpos

theorem mul_slot_lt_iff {slot : ℕ} :
    slot * fatDirEntryByteSize < fatTableBytesPerCluster t ↔ slot < slotsPerCluster t := by
  rw [bytesPerCluster_eq_slots, Nat.mul_comm slot]
  simp only [fatDirEntryByteSize]
  omega

theorem slot_byte_lt {slot i : ℕ} (hslot : slot < slotsPerCluster t)
    (hi : i < fatDirEntryByteSize) :
    fatDirEntryByteSize * slot + i < fatTableBytesPerCluster t := by
  rw [bytesPerCluster_eq_slots]
  simp only [fatDirEntryByteSize] at *
  omega

/-- Distinct slots of 32-bit clusters share no byte. -/
theorem slotAddr_injective {c d i j x y : ℕ} (hc : c < 2 ^ 32) (hd : d < 2 ^ 32)
    (hi : i < slotsPerCluster t) (hj : j < slotsPerCluster t)
    (hx : x < fatDirEntryByteSize) (hy : y < fatDirEntryByteSize)
    (heq : slotAddr t c i + x = slotAddr t d j + y) : c = d ∧ i = j := by
  unfold slotAddr at heq
  rw [Nat.add_assoc, Nat.add_assoc] at heq
  obtain ⟨rfl, hbyte⟩ :=
    clusterOffset_injective hc hd (slot_byte_lt hi hx) (slot_byte_lt hj hy) heq
  refine ⟨rfl, ?_⟩
  simp only [fatDirEntryByteSize] at *
  omega

theorem dataStart_le_slotAddr (cluster slot : ℕ) :
    t.dataStartOffset ≤ slotAddr t cluster slot :=
  (dataStart_le_clusterOffset cluster).trans (Nat.le_add_right _ _)

/-- The disk after an entry was written to a slot. -/
def writeSlot (t : FatTable) (disk : ℕ → UInt8) (cluster slot : ℕ)
    (d : FatDirEntry) : ℕ → UInt8 :=
  store disk (slotAddr t cluster slot) fatDirEntryByteSize fun i => d.byte i

theorem diskSlot_congr {disk disk' : ℕ → UInt8} {cluster slot : ℕ}
    (hsame : ∀ i < fatDirEntryByteSize,
      disk' (slotAddr t cluster slot + i) = disk (slotAddr t cluster slot + i)) :
    diskSlot t disk' cluster slot = diskSlot t disk cluster slot := by
  apply FatDirEntry.ext_byte
  intro i hi
  rw [diskSlot, diskSlot, FatDirEntry.byte_ofStore _ _ hi,
    FatDirEntry.byte_ofStore _ _ hi]
  exact hsame i hi

@[simp] theorem diskSlot_writeSlot_self (disk : ℕ → UInt8) (cluster slot : ℕ)
    (d : FatDirEntry) :
    diskSlot t (writeSlot t disk cluster slot d) cluster slot = d := by
  apply FatDirEntry.ext_byte
  intro i hi
  rw [diskSlot, FatDirEntry.byte_ofStore _ _ hi, writeSlot, store_inside _ _ hi]

theorem writeSlot_outside (disk : ℕ → UInt8) {cluster slot : ℕ} (d : FatDirEntry)
    {a : ℕ} (ha : ∀ i < fatDirEntryByteSize, a ≠ slotAddr t cluster slot + i) :
    writeSlot t disk cluster slot d a = disk a := by
  by_contra hne
  obtain ⟨hlow, hhigh⟩ := mem_range_of_store_ne hne
  exact ha (a - slotAddr t cluster slot) (by omega) (by omega)

theorem diskSlot_writeSlot_of_ne (disk : ℕ → UInt8) {c d i j : ℕ} (e : FatDirEntry)
    (hc : c < 2 ^ 32) (hd : d < 2 ^ 32) (hi : i < slotsPerCluster t)
    (hj : j < slotsPerCluster t) (hne : ¬ (d = c ∧ j = i)) :
    diskSlot t (writeSlot t disk c i e) d j = diskSlot t disk d j := by
  apply diskSlot_congr
  intro x hx
  apply writeSlot_outside
  intro y hy heq
  exact hne (slotAddr_injective hd hc hj hi hx hy heq)

/-! ## Writing an entry back -/

theorem writeDirEntry_full {v : Volume} {parent file : FatFile}
    (hfull : slotsPerCluster t ≤ file.posInParent) :
    writeDirEntry t v (some parent) file = some { v with errno := Errno.enospc } := by
  have hge : ¬ file.posInParent * fatDirEntryByteSize < fatTableBytesPerCluster t := by
    rw [mul_slot_lt_iff]
    omega
  simp [writeDirEntry, Nat.not_lt.mp hge]

/-- A slot inside of the cluster is written by one `pwrite`. -/
theorem writeDirEntry_inside {v : Volume} {parent file : FatFile}
    (hfits : file.posInParent < slotsPerCluster t) {r : ℤ} {v₁ : Volume}
    (hwrite : pwrite v (fun i => file.dentry.byte i.toNat) fatDirEntryByteSize
      (slotAddr t parent.startCluster file.posInParent : ℕ) = (r, v₁)) :
    writeDirEntry t v (some parent) file =
      if 0 ≤ r ∧ r < fatDirEntryByteSize then some { v₁ with errno := Errno.eio }
      else some v₁ := by
  have hlt := mul_slot_lt_iff.mpr hfits
  have haddr : file.posInParent * fatDirEntryByteSize +
      fatTableClusterOffset t parent.startCluster =
        slotAddr t parent.startCluster file.posInParent := by
    rw [slotAddr, Nat.mul_comm, Nat.add_comm]
  simp only [writeDirEntry, Option.bind_eq_bind, Option.bind_some,
    if_neg (Nat.not_le.mpr hlt), haddr, hwrite]

theorem writeDirEntry_of_ioSucceeds {v : Volume} (hio : v.IoSucceeds)
    {parent file : FatFile} (hfits : file.posInParent < slotsPerCluster t) :
    writeDirEntry t v (some parent) file =
      some { v with
        disk := writeSlot t v.disk parent.startCluster file.posInParent file.dentry } := by
  have hwrite := pwrite_of_ioSucceeds hio (fun i => file.dentry.byte i.toNat)
    fatDirEntryByteSize (slotAddr t parent.startCluster file.posInParent)
  rw [writeDirEntry_inside hfits hwrite]
  simp [writeSlot]

/-- Whatever the slot, only bytes of the parent's cluster change. -/
theorem exists_writeDirEntry {v : Volume} (hio : v.IoSucceeds) (parent file : FatFile) :
    ∃ v', writeDirEntry t v (some parent) file = some v' ∧ v'.IoSucceeds ∧
      v'.fatMap = v.fatMap ∧
      ∀ a, (∀ i < fatTableBytesPerCluster t,
        a ≠ fatTableClusterOffset t parent.startCluster + i) → v'.disk a = v.disk a := by
  by_cases hfits : file.posInParent < slotsPerCluster t
  · refine ⟨_, writeDirEntry_of_ioSucceeds hio hfits, ⟨hio.1, hio.2⟩, rfl, ?_⟩
    intro a ha
    apply writeSlot_outside
    intro i hi
    rw [slotAddr, Nat.add_assoc]
    exact ha _ (slot_byte_lt hfits hi)
  · exact ⟨_, writeDirEntry_full (Nat.not_lt.mp hfits), ⟨hio.1, hio.2⟩, rfl,
      fun _ _ => rfl⟩

end SistOp.FatFuse
