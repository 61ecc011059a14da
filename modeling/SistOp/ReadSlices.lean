import SistOp.FileTransfers
import Mathlib.Tactic

/-!
# A read returns a slice

A file may have no cluster at all; then it has no content either.  A read copies a slice of
the content and changes the volume in one slot of a directory only, so a read behind a
write gets the bytes that were written.
-/

namespace SistOp.FatFuse

open ByteStore

variable {t : FatTable}

/-- `cs` are all clusters of the file, and they are enough for its content. -/
structure OnClusters (t : FatTable) (v : Volume) (f : FatFile) (cs : List ℕ) : Prop where
  chain : cs = [] ∨ cs.head? = some f.startCluster ∧ ClusterChain t v.fatMap cs
  size_le : f.dentry.fileSize ≤ cs.length * fatTableBytesPerCluster t

theorem FileOnChain.onClusters {v : Volume} {f : FatFile} {cs : List ℕ}
    (h : FileOnChain t v f cs) : OnClusters t v f (f.startCluster :: cs) :=
  ⟨Or.inr ⟨rfl, h.chain⟩, h.size_le⟩

theorem OnClusters.eq_nil_or_fileOnChain {v : Volume} {f : FatFile} {cs : List ℕ}
    (h : OnClusters t v f cs) :
    cs = [] ∨ ∃ rest, cs = f.startCluster :: rest ∧ FileOnChain t v f rest := by
  rcases h.chain with hnil | ⟨hhead, hchain⟩
  · exact Or.inl hnil
  · cases cs with
    | nil => exact Or.inl rfl
    | cons c rest =>
        have hc : c = f.startCluster := by simpa using hhead
        subst hc
        exact Or.inr ⟨rest, rfl, hchain, h.size_le⟩

/-- What a read has to deliver: its size, a slice of the content, and a volume that differs
in the slot of the file only. -/
def ReadsSlice (t : FatTable) (v : Volume) (f p : FatFile) (cs : List ℕ)
    (buf : ℤ → UInt8) (size offset : ℕ) : Prop :=
  ∃ buf' f' v',
    fatFilePread t v f buf size offset (some p) =
        some (((min size (f.dentry.fileSize - offset) : ℕ) : ℤ), buf', f', v') ∧
      (∀ i < min size (f.dentry.fileSize - offset),
        (chainContent t v.disk cs f.dentry.fileSize)[offset + i]? = some (buf' i)) ∧
      v'.fatMap = v.fatMap ∧
      ∀ a, v'.disk a ≠ v.disk a →
        ∃ i < fatDirEntryByteSize, a = slotAddr t p.startCluster f.posInParent + i

theorem OnClusters.readsSlice [t.Formatted] (hmarks : t.ClusterNumbersBelowMarks) {v : Volume}
    {f p : FatFile} {cs : List ℕ} (buf : ℤ → UInt8) (size : ℕ) {offset : ℕ}
    (h : OnClusters t v f cs) (hio : v.IoSucceeds) (herrno : v.errno = 0)
    (hoffset : offset ≤ f.dentry.fileSize) : ReadsSlice t v f p cs buf size offset := by
  by_cases hempty : readSize f size offset = 0
  · have hread := @fatFilePread_of_empty t v f buf size offset (some p) hoffset hempty
    rw [readSize] at hempty
    refine ⟨buf, f, v, by rw [hread, hempty]; rfl, ?_, rfl, fun a hne => absurd rfl hne⟩
    intro i hi
    omega
  · rcases h.eq_nil_or_fileOnChain with rfl | ⟨rest, rfl, hchain⟩
    · -- a file without a cluster is empty
      have hsize := h.size_le
      have hread : readSize f size offset ≤ f.dentry.fileSize - offset := min_le_right _ _
      rw [List.length_nil, Nat.zero_mul] at hsize
      omega
    · have hentry := @writeDirEntry_eq t { v with clock := fun n => v.clock (n + 1) }
        ⟨hio.1, hio.2⟩ p { f with dentry := accessedDentry v f.dentry }
      have hread := fatFilePread_onChain hmarks (some p) buf hchain hio.2 herrno hoffset hempty
      rw [hentry, Option.map_some] at hread
      refine ⟨_, _, _, hread, ?_, rfl, fun a hne => (writtenBack_written hne).2⟩
      intro i hi
      have hin : (0 : ℤ) ≤ (i : ℤ) ∧ (i : ℤ) < (0 : ℕ) + (readSize f size offset : ℤ) := by
        rw [readSize]
        omega
      have hlt : offset + i < f.dentry.fileSize := by omega
      rw [readInto, Nat.cast_zero, sub_zero, if_pos (by simpa using hin), chainContent,
        List.getElem?_map, List.getElem?_range hlt, Option.map_some, Int.toNat_natCast]

/-- The write that a read follows: in range, to a file whose directory is not among the
clusters that the write can take. -/
structure WriteAllowed (t : FatTable) (v : Volume) (f p : FatFile) (cs : List ℕ)
    (size offset : ℕ) : Prop where
  onChain : FileOnChain t v f cs
  dirUsed : v.fatMap p.startCluster ≠ fatClusterFree
  dirOut : p.startCluster ∉ f.startCluster :: cs
  offset_le : offset ≤ f.dentry.fileSize
  size_pos : 0 < size
  end_lt : offset + size < 2 ^ 32
  room : clustersFor t (offset + size) ≤
    (f.startCluster :: cs).length + (freeClusters t v.fatMap).card

/-- After such a write the bytes of the buffer are the bytes of the file. -/
theorem WriteAllowed.written [t.Formatted] (hmarks : t.ClusterNumbersBelowMarks) {v : Volume}
    {f p : FatFile} {cs : List ℕ} {size offset : ℕ} (buf : ℤ → UInt8)
    (h : WriteAllowed t v f p cs size offset) (hio : v.IoSucceeds) (herrno : v.errno = 0) :
    ∃ f' v' cs', fatFilePwrite t v f buf size offset (some p) = some ((size : ℤ), f', v') ∧
      v'.IoSucceeds ∧ FileOnChain t v' f' cs' ∧ offset + size ≤ f'.dentry.fileSize ∧
      ∀ i < size, (fileContent t v' f' cs')[offset + i]? = some (buf i) := by
  obtain ⟨f', v₂, v', new, hwrite, hwrote, rfl, hio', hmap, hdisk⟩ :=
    fatFilePwrite_completes hmarks p buf h.onChain.chain hio herrno h.offset_le
      h.size_pos h.end_lt h.onChain.size_le h.room
  have hnewSize : (grownDentry v₂ f.dentry (offset + size)).fileSize =
      max f.dentry.fileSize (offset + size) := fileSize_grownDentry v₂ f.dentry h.end_lt
  have hdirNew : p.startCluster ∉ f.startCluster :: cs ++ new := by
    rw [List.mem_append, not_or]
    exact ⟨h.dirOut, (hwrote.grown.frame_of_used h.dirOut h.dirUsed).1⟩
  have hroom := hwrote.room
  refine ⟨_, v', cs ++ new, hwrite, hio', ⟨?_, ?_⟩, ?_, ?_⟩
  · show ClusterChain t v'.fatMap (f.startCluster :: cs ++ new)
    rw [hmap]
    exact hwrote.grown.chain
  · show (grownDentry v₂ f.dentry (offset + size)).fileSize ≤
      (f.startCluster :: cs ++ new).length * fatTableBytesPerCluster t
    have hle := h.onChain.size_le
    rw [hnewSize]
    rw [List.length_append, Nat.add_mul] at hroom ⊢
    omega
  · show offset + size ≤ (grownDentry v₂ f.dentry (offset + size)).fileSize
    rw [hnewSize]
    exact le_max_right _ _
  · intro i hi
    have hlt : offset + i < (grownDentry v₂ f.dentry (offset + size)).fileSize := by
      rw [hnewSize]
      omega
    have hinside := hwrote.bytes.inside i hi
    rw [fileContent, chainContent, List.getElem?_map, List.getElem?_range hlt,
      Option.map_some, ← hinside]
    congr 1
    -- the entry in the directory is not a byte of the file
    apply hdisk
    intro j hj
    exact (chainAddr_ne_of_notMem hwrote.grown.chain (by omega) hdirNew p.startCluster_lt
      hj).symm

/-- On a formatted table `fat_file_pread` gets the slice of the content that starts at
`offset`, and bytes that were just written are read back. -/
theorem fatFilePread_slice [t.Formatted] (hmarks : t.ClusterNumbersBelowMarks) {v : Volume}
    (hio : v.IoSucceeds) (herrno : v.errno = 0) (f p : FatFile) :
    (∀ cs buf size offset, OnClusters t v f cs → offset ≤ f.dentry.fileSize →
        ReadsSlice t v f p cs buf size offset) ∧
      ∀ cs buf size offset, WriteAllowed t v f p cs size offset →
        ∃ f' v', fatFilePwrite t v f buf size offset (some p) = some ((size : ℤ), f', v') ∧
          ∀ target k len, k + len ≤ size →
            ∃ target' f'' v'',
              fatFilePread t { v' with errno := 0 } f' target len (offset + k) (some p) =
                  some ((len : ℤ), target', f'', v'') ∧
                ∀ i < len, target' i = buf (k + i : ℕ) := by
  refine ⟨fun cs buf size offset h hoffset => h.readsSlice hmarks buf size hio herrno hoffset,
    ?_⟩
  intro cs buf size offset hallowed
  obtain ⟨f', v', cs', hwrite, hio', hchain, hsize, hbytes⟩ :=
    hallowed.written hmarks buf hio herrno
  refine ⟨f', v', hwrite, ?_⟩
  intro target k len hrange
  have hchain' : OnClusters t { v' with errno := 0 } f' (f'.startCluster :: cs') :=
    ⟨Or.inr ⟨rfl, hchain.chain⟩, hchain.size_le⟩
  obtain ⟨target', f'', v'', hread, hslice, -, -⟩ :=
    hchain'.readsSlice (p := p) hmarks target len ⟨hio'.1, hio'.2⟩ rfl
      (show offset + k ≤ f'.dentry.fileSize by omega)
  rw [show min len (f'.dentry.fileSize - (offset + k)) = len by omega] at hread hslice
  refine ⟨target', f'', v'', hread, ?_⟩
  intro i hi
  have hread_i := hslice i hi
  have hwritten_i := hbytes (k + i) (by omega)
  rw [← Nat.add_assoc] at hwritten_i
  exact (Option.some.inj (hwritten_i.symm.trans hread_i)).symm

theorem fortyBytes_writeAllowed :
    WriteAllowed smallTable chainVolume (bytesAtThree 40) (emptyFile 2 (by decide)) [4] 6
      30 where
  onChain := bytesAtThree_onChain (by decide)
  dirUsed := by decide
  dirOut := by decide
  offset_le := by
    rw [fileSize_bytesAtThree]
    decide
  size_pos := by decide
  end_lt := by decide
  room := by decide

/-- Ten bytes at 35 are five; six bytes written at 30 cross a cluster boundary, and the two
behind it are read back. -/
theorem fatFilePread_slice_fortyBytes :
    ReadsSlice smallTable chainVolume (bytesAtThree 40) (emptyFile 2 (by decide)) [3, 4]
        (fun _ => 0) 10 35 ∧
      ∃ f' v' target' f'' v'',
        fatFilePwrite smallTable chainVolume (bytesAtThree 40) (fun i => UInt8.ofNat i.toNat) 6 30
            (some (emptyFile 2 (by decide))) = some (6, f', v') ∧
          fatFilePread smallTable { v' with errno := 0 } f' (fun _ => 0) 2 32
              (some (emptyFile 2 (by decide))) = some (2, target', f'', v'') ∧
            target' 0 = 2 ∧ target' 1 = 3 := by
  obtain ⟨hreads, hwrites⟩ := fatFilePread_slice (t := smallTable) (v := chainVolume)
    (by decide) ⟨rfl, rfl⟩ rfl (bytesAtThree 40) (emptyFile 2 (by decide))
  obtain ⟨f', v', hwrite, hback⟩ :=
    hwrites [4] (fun i => UInt8.ofNat i.toNat) 6 30 fortyBytes_writeAllowed
  obtain ⟨target', f'', v'', hread, hbytes⟩ := hback (fun _ => 0) 2 2 (by decide)
  have hslice := hreads [3, 4] (fun _ => 0) 10 35 (bytesAtThree_onChain (by decide)).onClusters
    (by rw [fileSize_bytesAtThree]; decide)
  exact ⟨hslice, f', v', target', f'', v'', hwrite, hread, hbytes 0 (by decide),
    hbytes 1 (by decide)⟩

end SistOp.FatFuse
