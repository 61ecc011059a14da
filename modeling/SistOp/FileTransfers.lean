import SistOp.FilePread
import SistOp.DirectorySlots
import Mathlib.Tactic

/-!
# Complete transfers of a file

A read or a write that meets no error changes the entry of its file, the chain when the
file grows, and the bytes of three places: the chain, its entries in the FAT, and the slot
of the file in its directory.
-/

namespace SistOp.FatFuse

variable {t : FatTable}

/-- `f'` is `f` with another entry. -/
def DentryOnly (f f' : FatFile) : Prop := ∃ d, f' = { f with dentry := d }

theorem DentryOnly.refl (f : FatFile) : DentryOnly f f := ⟨f.dentry, rfl⟩

theorem DentryOnly.startCluster {f f' : FatFile} (h : DentryOnly f f') :
    f'.startCluster = f.startCluster := by
  obtain ⟨d, rfl⟩ := h
  rfl

theorem DentryOnly.filepath {f f' : FatFile} (h : DentryOnly f f') :
    f'.filepath = f.filepath := by
  obtain ⟨d, rfl⟩ := h
  rfl

theorem DentryOnly.posInParent {f f' : FatFile} (h : DentryOnly f f') :
    f'.posInParent = f.posInParent := by
  obtain ⟨d, rfl⟩ := h
  rfl

/-- The address `a` lies in an entry of `clusters` in the FAT, in one of their clusters,
or in the slot of a directory. -/
def TouchedBy (t : FatTable) (clusters : List ℕ) (dir slot a : ℕ) : Prop :=
  (∃ c ∈ clusters, ∃ i < 4, a = t.fatOffset + 4 * c + i) ∨
    (∃ c ∈ clusters, ∃ i < fatTableBytesPerCluster t, a = fatTableClusterOffset t c + i) ∨
    slot < slotsPerCluster t ∧ ∃ i < fatDirEntryByteSize, a = slotAddr t dir slot + i

/-- What a read or a write does to the volume `v` and to the file `f` on the chain `cs`,
whose entry lies in a slot of the cluster `dir`. -/
structure FileChanged (t : FatTable) (v v' : Volume) (f f' : FatFile) (dir : ℕ)
    (cs new : List ℕ) : Prop where
  entry : DentryOnly f f'
  attribs : f'.dentry.attribs = f.dentry.attribs
  grown : Extends t v.fatMap v'.fatMap (f.startCluster :: cs) new
  onChain : FileOnChain t v' f' (cs ++ new)
  succeeds : v'.IoSucceeds
  written : ∀ a, v'.disk a ≠ v.disk a →
    TouchedBy t (f.startCluster :: cs ++ new) dir f.posInParent a

/-- A transfer that left no error. -/
structure Transferred (t : FatTable) (v v' : Volume) (f f' : FatFile) (dir : ℕ)
    (cs new : List ℕ) : Prop extends FileChanged t v v' f f' dir cs new where
  errno : v'.errno = v.errno

theorem FileChanged.isDirectory {v v' : Volume} {f f' : FatFile} {dir : ℕ}
    {cs new : List ℕ} (h : FileChanged t v v' f f' dir cs new) :
    fatFileIsDirectory f' = fatFileIsDirectory f := by
  unfold fatFileIsDirectory
  rw [h.attribs]

/-- A transfer of one file changes no byte of a chain apart from it. -/
theorem FileChanged.chainContent_kept [t.Formatted] {v v' : Volume} {f f' : FatFile} {dir : ℕ}
    {cs new ds : List ℕ} {n : ℕ} (h : FileChanged t v v' f f' dir cs new)
    (hdir : dir < 2 ^ 32)
    (hds : ∀ d ∈ ds, fatTableIsValidClusterNumber t d)
    (hapart : ∀ d ∈ ds, d ∉ f.startCluster :: cs ++ new) (hdirOut : dir ∉ ds)
    (hn : n ≤ ds.length * fatTableBytesPerCluster t) :
    chainContent t v'.disk ds n = chainContent t v.disk ds n := by
  apply List.map_congr_left
  intro i hi
  rw [List.mem_range] at hi
  by_contra hne
  have hk : i / fatTableBytesPerCluster t < ds.length := div_lt_of_lt_length (by omega)
  have hmem := List.getElem_mem hk
  have hd := valid_lt_u32 (hds _ hmem)
  have hmod := Nat.mod_lt i (bytesPerCluster_pos (t := t))
  have hwritten := h.written _ hne
  rw [chainAddr_eq ds hk rfl] at hwritten
  rcases hwritten with ⟨c, hc, j, hj, heq⟩ | ⟨c, hc, j, hj, heq⟩ | ⟨hslot, j, hj, heq⟩
  · have hentry := entry_lt_dataStart (valid_lt_entries (h.grown.chain.valid c hc))
    have hstart := dataStart_le_clusterOffset (t := t) ds[i / fatTableBytesPerCluster t]
    omega
  · have hc32 := valid_lt_u32 (h.grown.chain.valid c hc)
    obtain ⟨hsame, -⟩ := clusterOffset_injective hd hc32 hmod hj heq
    exact hapart _ hmem (hsame ▸ hc)
  · rw [slotAddr, Nat.add_assoc] at heq
    obtain ⟨hsame, -⟩ := clusterOffset_injective hd hdir hmod (slot_byte_lt hslot hj) heq
    exact hdirOut (hsame ▸ hmem)

/-! ## Entries -/

theorem attribs_setFileSize (d : FatDirEntry) (n : ℕ) :
    (d.setFileSize n).attribs = d.attribs := by
  unfold FatDirEntry.attribs FatDirEntry.setFileSize
  repeat rw [FatDirEntry.byte_setLe16_of_ne _ (by omega) _ (by omega) (by omega)]

theorem attribs_fillDentryTimeNow (v : Volume) (d : FatDirEntry)
    (fillCreate fillModified : Bool) :
    (fillDentryTimeNow v d fillCreate fillModified).1.attribs = d.attribs :=
  byte_fillDentryTimeNow v d fillCreate fillModified (by omega)

theorem attribs_grownDentry (v : Volume) (d : FatDirEntry) (newEnd : ℕ) :
    (grownDentry v d newEnd).attribs = d.attribs := by
  unfold grownDentry
  rw [attribs_fillDentryTimeNow]
  split
  · exact attribs_setFileSize d newEnd
  · rfl

/-! ## Writing -/

theorem writeSlot_written {disk : ℕ → UInt8} {cluster slot a : ℕ} {d : FatDirEntry}
    (hne : writeSlot t disk cluster slot d a ≠ disk a) :
    ∃ i < fatDirEntryByteSize, a = slotAddr t cluster slot + i := by
  by_contra hout
  push Not at hout
  exact hne (writeSlot_outside disk d hout)

/-- The disk after the entry of `file` was written back: a slot that does not lie in the
cluster of the parent is left out. -/
def writtenBack (t : FatTable) (disk : ℕ → UInt8) (p file : FatFile) : ℕ → UInt8 :=
  if file.posInParent < slotsPerCluster t then
    writeSlot t disk p.startCluster file.posInParent file.dentry
  else disk

theorem writeDirEntry_eq {v : Volume} (hio : v.IoSucceeds) (p file : FatFile) :
    writeDirEntry t v (some p) file =
      some { v with
        disk := writtenBack t v.disk p file
        errno := if file.posInParent < slotsPerCluster t then v.errno else Errno.enospc } := by
  unfold writtenBack
  by_cases hfits : file.posInParent < slotsPerCluster t
  · rw [writeDirEntry_of_ioSucceeds hio hfits, if_pos hfits, if_pos hfits]
  · rw [writeDirEntry_full (Nat.not_lt.mp hfits), if_neg hfits, if_neg hfits]

/-- Whatever the parent, only bytes of the slot change. -/
theorem writtenBack_written {disk : ℕ → UInt8} {p file : FatFile} {a : ℕ}
    (hne : writtenBack t disk p file a ≠ disk a) :
    file.posInParent < slotsPerCluster t ∧
      ∃ i < fatDirEntryByteSize, a = slotAddr t p.startCluster file.posInParent + i := by
  unfold writtenBack at hne
  by_cases hfits : file.posInParent < slotsPerCluster t
  · rw [if_pos hfits] at hne
    exact ⟨hfits, writeSlot_written hne⟩
  · rw [if_neg hfits] at hne
    contradiction

theorem WroteFile.written {v v' : Volume} {cs new : List ℕ} {off len : ℕ} {data : ℕ → UInt8}
    (h : WroteFile t v v' cs new off len data) {a : ℕ} (hne : v'.disk a ≠ v.disk a) :
    (∃ c ∈ cs ++ new, ∃ i < 4, a = t.fatOffset + 4 * c + i) ∨
      ∃ c ∈ cs ++ new, ∃ i < fatTableBytesPerCluster t, a = fatTableClusterOffset t c + i := by
  by_cases ha : a < t.dataStartOffset
  · left
    by_contra hout
    push Not at hout
    exact hne (h.entries a ha hout)
  · right
    by_contra hout
    push Not at hout
    apply hne
    apply h.bytes.outside a (Nat.not_lt.mp ha)
    intro j hj
    have hroom := h.room
    have hk : (off + j) / fatTableBytesPerCluster t < (cs ++ new).length :=
      div_lt_of_lt_length (by omega)
    rw [chainAddr_eq _ hk rfl]
    exact hout _ (List.getElem_mem hk) _ (Nat.mod_lt _ bytesPerCluster_pos)

/-- A write that finds enough clusters splices its bytes in. -/
theorem fatFilePwrite_transfers [t.Formatted] (hmarks : t.ClusterNumbersBelowMarks) {v : Volume}
    {f p : FatFile} {cs : List ℕ} {size offset : ℕ} (buf : ℤ → UInt8)
    (hchain : FileOnChain t v f cs) (hio : v.IoSucceeds) (herrno : v.errno = 0)
    (hslot : f.posInParent < slotsPerCluster t)
    (hdirUsed : v.fatMap p.startCluster ≠ fatClusterFree)
    (hdirOut : p.startCluster ∉ f.startCluster :: cs)
    (hoffset : offset ≤ f.dentry.fileSize) (hsize : 0 < size) (hend : offset + size < 2 ^ 32)
    (hroom : clustersFor t (offset + size) ≤
      (f.startCluster :: cs).length + (freeClusters t v.fatMap).card) :
    ∃ f' v' new,
      fatFilePwrite t v f buf size offset (some p) = some ((size : ℤ), f', v') ∧
        Transferred t v v' f f' p.startCluster cs new ∧
        (f.startCluster :: cs ++ new).length ≤
          max (f.startCluster :: cs).length (clustersFor t (offset + size)) ∧
        f'.dentry.fileSize = max f.dentry.fileSize (offset + size) ∧
        fileContent t v' f' (cs ++ new) =
          splice (fileContent t v f cs) (bufferBytes buf size) offset := by
  obtain ⟨v₂, new, heq, hwrote, hlength, herrno₂⟩ := fatFilePwrite_splits hmarks (some p) buf
    hchain.chain hio herrno hoffset hsize hend hchain.size_le hroom
  have hentry := @writeDirEntry_of_ioSucceeds t { v₂ with clock := fun n => v₂.clock (n + 1) }
    ⟨hwrote.succeeds.1, hwrote.succeeds.2⟩ p
    { f with dentry := grownDentry v₂ f.dentry (offset + size) } hslot
  rw [hentry, Option.map_some] at heq
  have hnewSize : (grownDentry v₂ f.dentry (offset + size)).fileSize =
      max f.dentry.fileSize (offset + size) := fileSize_grownDentry v₂ f.dentry hend
  have hroomWritten := hwrote.room
  have hle := hchain.size_le
  have hfits : max f.dentry.fileSize (offset + size) ≤
      (f.startCluster :: cs ++ new).length * fatTableBytesPerCluster t := by
    rw [List.length_append, Nat.add_mul] at hroomWritten ⊢
    omega
  have hdirNew : p.startCluster ∉ f.startCluster :: cs ++ new := by
    rw [List.mem_append, not_or]
    exact ⟨hdirOut, (hwrote.grown.frame_of_used hdirOut hdirUsed).1⟩
  refine ⟨_, _, new, heq, ⟨⟨⟨_, rfl⟩, attribs_grownDentry _ _ _, hwrote.grown, ⟨?_, ?_⟩,
    ⟨hwrote.succeeds.1, hwrote.succeeds.2⟩, ?_⟩, herrno₂.trans herrno.symm⟩, hlength,
    hnewSize, ?_⟩
  · exact hwrote.grown.chain
  · show (grownDentry v₂ f.dentry (offset + size)).fileSize ≤ _
    rw [hnewSize]
    exact hfits
  · intro a hne
    by_cases hslotWrite : writeSlot t v₂.disk p.startCluster f.posInParent
        (grownDentry v₂ f.dentry (offset + size)) a = v₂.disk a
    · have hdata : v₂.disk a ≠ v.disk a := by
        rw [← hslotWrite]
        exact hne
      rcases hwrote.written hdata with hfat | hcluster
      · exact Or.inl hfat
      · exact Or.inr (Or.inl hcluster)
    · exact Or.inr (Or.inr ⟨hslot, writeSlot_written hslotWrite⟩)
  · have hcontent := chainContent_splice hwrote hoffset hchain.size_le
    -- the entry in the directory is not a byte of the file
    have hsame : chainContent t (writeSlot t v₂.disk p.startCluster f.posInParent
          (grownDentry v₂ f.dentry (offset + size))) (f.startCluster :: cs ++ new)
          (max f.dentry.fileSize (offset + size)) =
        chainContent t v₂.disk (f.startCluster :: cs ++ new)
          (max f.dentry.fileSize (offset + size)) := by
      apply List.map_congr_left
      intro i hi
      rw [List.mem_range] at hi
      apply writeSlot_outside
      intro j hj heq
      rw [slotAddr, Nat.add_assoc] at heq
      exact chainAddr_ne_of_notMem hwrote.grown.chain (by omega) hdirNew p.startCluster_lt
        (slot_byte_lt hslot hj) heq.symm
    show chainContent t (writeSlot t v₂.disk p.startCluster f.posInParent _)
      (f.startCluster :: cs ++ new) (grownDentry v₂ f.dentry (offset + size)).fileSize = _
    rw [hnewSize, hsame, hcontent]
    rfl

/-! ## Reading -/

/-- The bytes of a content that a read of `size` bytes at `offset` gets. -/
def slice (content : List UInt8) (offset size : ℕ) : List UInt8 :=
  (content.drop offset).take size

theorem length_fileContent (v : Volume) (f : FatFile) (cs : List ℕ) :
    (fileContent t v f cs).length = f.dentry.fileSize := by
  simp [fileContent, chainContent]

theorem length_slice_fileContent (v : Volume) (f : FatFile) (cs : List ℕ) (size offset : ℕ) :
    (slice (fileContent t v f cs) offset size).length = readSize f size offset := by
  simp [slice, length_fileContent, readSize]

/-- What a read copies into its buffer. -/
theorem bufferBytes_readInto {v : Volume} {f : FatFile} {cs : List ℕ} (buf : ℤ → UInt8)
    (size offset : ℕ) :
    bufferBytes (readInto t v.disk (f.startCluster :: cs) buf 0 offset
        (readSize f size offset)) (readSize f size offset) =
      slice (fileContent t v f cs) offset size := by
  apply List.ext_getElem
  · rw [length_slice_fileContent]
    simp [bufferBytes]
  · intro i hi hi'
    simp only [bufferBytes, List.length_map, List.length_range] at hi
    simp [bufferBytes, slice, fileContent, chainContent, readInto, hi]

/-- A read without an error gets the slice, and writes the entry back. -/
theorem fatFilePread_transfers [t.Formatted] (hmarks : t.ClusterNumbersBelowMarks) {v : Volume}
    {f p : FatFile} {cs : List ℕ} (buf : ℤ → UInt8) (size : ℕ) {offset : ℕ}
    (hchain : FileOnChain t v f cs) (hio : v.IoSucceeds) (herrno : v.errno = 0)
    (hslot : f.posInParent < slotsPerCluster t) (hdirOut : p.startCluster ∉ f.startCluster :: cs)
    (hoffset : offset ≤ f.dentry.fileSize) :
    ∃ f' v', fatFilePread t v f buf size offset (some p) =
          some ((readSize f size offset : ℤ),
            readInto t v.disk (f.startCluster :: cs) buf 0 offset (readSize f size offset),
            f', v') ∧
        Transferred t v v' f f' p.startCluster cs [] ∧
        f'.dentry.fileSize = f.dentry.fileSize ∧
        fileContent t v' f' cs = fileContent t v f cs ∧ v'.fatMap = v.fatMap ∧
        v'.clock = fun n => v.clock (if readSize f size offset = 0 then n else n + 1) := by
  have hgrown := Extends.refl hchain.chain
  by_cases hempty : readSize f size offset = 0
  · refine ⟨f, v, ?_, ⟨⟨DentryOnly.refl f, rfl, hgrown, ?_, hio,
      fun _ hne => absurd rfl hne⟩, rfl⟩, rfl, rfl, rfl, by simp [hempty]⟩
    · rw [fatFilePread_of_empty hoffset hempty, hempty, readInto_zero]
      rfl
    · rw [List.append_nil]
      exact hchain
  have hread : readSize f size offset ≤ f.dentry.fileSize - offset := min_le_right _ _
  have hentry := @writeDirEntry_of_ioSucceeds t { v with clock := fun n => v.clock (n + 1) }
    ⟨hio.1, hio.2⟩ p { f with dentry := accessedDentry v f.dentry } hslot
  have hsize : (accessedDentry v f.dentry).fileSize = f.dentry.fileSize :=
    fileSize_fillDentryTimeNow v f.dentry false false
  have heq := fatFilePread_onChain hmarks (some p) buf hchain hio.2 herrno hoffset hempty
  rw [hentry, Option.map_some] at heq
  refine ⟨_, _, heq, ⟨⟨⟨_, rfl⟩, attribs_fillDentryTimeNow _ _ _ _, hgrown, ?_,
    ⟨hio.1, hio.2⟩, fun a hne => Or.inr (Or.inr ⟨hslot, writeSlot_written hne⟩)⟩, rfl⟩, hsize, ?_,
    rfl, by simp [hempty]⟩
  · rw [List.append_nil]
    refine ⟨hchain.chain, ?_⟩
    show (accessedDentry v f.dentry).fileSize ≤ _
    rw [hsize]
    exact hchain.size_le
  · show chainContent t (writeSlot t v.disk p.startCluster f.posInParent _)
      (f.startCluster :: cs) (accessedDentry v f.dentry).fileSize = _
    rw [hsize]
    apply List.map_congr_left
    intro i hi
    rw [List.mem_range] at hi
    apply writeSlot_outside
    intro j hj heq
    rw [slotAddr, Nat.add_assoc] at heq
    have hle := hchain.size_le
    exact chainAddr_ne_of_notMem hchain.chain (by omega) hdirOut p.startCluster_lt
      (slot_byte_lt hslot hj) heq.symm

/-! ## Small files -/

theorem clusterThree_lt : 3 < 2 ^ 32 := by decide

/-- A file of `n` bytes at cluster 3. -/
def bytesAtThree (n : ℕ) : FatFile :=
  { emptyFile 3 clusterThree_lt with dentry := FatDirEntry.zero.setFileSize n }

/-- Its chain has the clusters 3 and 4. -/
def chainVolume : Volume :=
  smallVolume [fatClusterEndOfChainMax, 4, fatClusterEndOfChainMax]

theorem fileSize_bytesAtThree (n : ℕ) : (bytesAtThree n).dentry.fileSize = n % 2 ^ 32 :=
  FatDirEntry.fileSize_setFileSize _ n

theorem bytesAtThree_onChain {n : ℕ} (hn : n ≤ 64) :
    FileOnChain smallTable chainVolume (bytesAtThree n) [4] := by
  have hchain : ClusterChain smallTable chainVolume.fatMap [3, 4] :=
    ⟨by decide, by decide, by decide⟩
  refine ⟨hchain, ?_⟩
  rw [fileSize_bytesAtThree]
  exact (Nat.mod_le _ _).trans hn

end SistOp.FatFuse
