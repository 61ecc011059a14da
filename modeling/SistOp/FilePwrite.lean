import SistOp.ChainWriting
import SistOp.DirectorySlots
import SistOp.FatFuseOps
import Mathlib.Tactic

/-!
# `fat_file_pwrite` is a splice

The first cluster to write is found by a seek, and by a step of
`next_or_new_cluster` when the offset starts a cluster.  With that case settled a
write is one run of the write loop, followed by the entry in the parent.
-/

namespace SistOp.FatFuse

open ByteStore

variable {t : FatTable}

/-! ## The first cluster -/

/-- Where the seek of a write ends on a chain: in the chain, one step behind it,
or in an error. -/
theorem seekCluster_eq [t.Formatted] (hmarks : t.ClusterNumbersBelowMarks) {v : Volume} {c : ℕ}
    {cs : List ℕ} (h : ClusterChain t v.fatMap (c :: cs)) (offset : ℕ)
    (hoffset : offset < 2 ^ 32) :
    fatTableSeekCluster t v c offset =
      if hin : offset / fatTableBytesPerCluster t < (c :: cs).length then
        some ((c :: cs)[offset / fatTableBytesPerCluster t], v)
      else if offset / fatTableBytesPerCluster t = (c :: cs).length then
        some (fatClusterEndOfChainMax, v)
      else some (0, { v with errno := Errno.eoverflow }) := by
  have hquot : offset / fatTableBytesPerCluster t < 2 ^ 32 :=
    lt_of_le_of_lt (Nat.div_le_self _ _) hoffset
  have hseek := h.seekLoop_eq hmarks (offset / fatTableBytesPerCluster t) 0 (by simp)
  simp only [Nat.zero_add, List.getElem_cons_zero] at hseek
  rw [fatTableSeekCluster, positions_eq, Nat.mod_eq_of_lt hquot, hseek]

/-- The starting point of the seek is the byte in front of the offset. -/
theorem startingPoint_div {offset : ℕ} (hpos : offset ≠ 0) :
    (offset - 1) / fatTableBytesPerCluster t =
      if offset % fatTableBytesPerCluster t = 0 then
        offset / fatTableBytesPerCluster t - 1
      else offset / fatTableBytesPerCluster t := by
  have hC := bytesPerCluster_pos (t := t)
  have hdiv := Nat.div_add_mod offset (fatTableBytesPerCluster t)
  generalize hq : offset / fatTableBytesPerCluster t = q at *
  by_cases halign : offset % fatTableBytesPerCluster t = 0
  · rw [if_pos halign]
    have hqpos : 0 < q := by
      rcases Nat.eq_zero_or_pos q with rfl | hqpos
      · omega
      · exact hqpos
    obtain ⟨p, rfl⟩ : ∃ p, q = p + 1 := ⟨q - 1, by omega⟩
    have hsplit : offset - 1 = fatTableBytesPerCluster t * p +
        (fatTableBytesPerCluster t - 1) := by
      rw [Nat.mul_succ] at hdiv
      omega
    rw [hsplit, Nat.mul_add_div hC, Nat.div_eq_of_lt (by omega), Nat.add_zero,
      Nat.add_sub_cancel]
  · rw [if_neg halign]
    have hmod := Nat.mod_lt offset hC
    have hsplit : offset - 1 = fatTableBytesPerCluster t * q +
        (offset % fatTableBytesPerCluster t - 1) := by omega
    rw [hsplit, Nat.mul_add_div hC, Nat.div_eq_of_lt (by omega), Nat.add_zero]

theorem pwriteFirstCluster_inside {v : Volume} {file : FatFile} {offset : ℕ}
    (hinside : offset % fatTableBytesPerCluster t ≠ 0 ∨ offset = 0) :
    pwriteFirstCluster t v file offset =
      fatTableSeekCluster t v file.startCluster offset := by
  have hseek : fatTableSeekCluster t v file.startCluster
      (if offset ≠ 0 then offset - 1 else 0) =
        fatTableSeekCluster t v file.startCluster offset := by
    rcases Nat.eq_zero_or_pos offset with rfl | hpos
    · rfl
    · have hmod : offset % fatTableBytesPerCluster t ≠ 0 := by
        rcases hinside with hmod | hzero
        · exact hmod
        · omega
      rw [if_pos (by omega), fatTableSeekCluster, fatTableSeekCluster, positions_eq,
        positions_eq, startingPoint_div (by omega), if_neg hmod]
  have hskip : ∀ cluster, ¬ (offset % fatTableBytesPerCluster t = 0 ∧ cluster ≠ 0 ∧
      offset ≠ 0) := by
    rintro cluster ⟨hmod, -, hne⟩
    rcases hinside with h | h
    · exact h hmod
    · exact hne h
  simp only [pwriteFirstCluster, hseek, Option.bind_eq_bind]
  cases hresult : fatTableSeekCluster t v file.startCluster offset with
  | none => rfl
  | some r =>
      obtain ⟨cluster, v'⟩ := r
      simp only [Option.bind_some, if_neg (hskip cluster)]

theorem pwriteFirstCluster_boundary {v v' : Volume} {file : FatFile}
    {offset cluster : ℕ} (halign : offset % fatTableBytesPerCluster t = 0)
    (hpos : offset ≠ 0)
    (hseek : fatTableSeekCluster t v file.startCluster (offset - 1) =
      some (cluster, v')) :
    pwriteFirstCluster t v file offset =
      if cluster ≠ 0 then nextOrNewCluster t v' cluster else some (cluster, v') := by
  simp only [pwriteFirstCluster, halign, hpos, ne_eq, not_false_eq_true, and_true,
    true_and, if_true, hseek, Option.bind_eq_bind, Option.bind_some]

/-- The possible results for a file with a chain: the cluster of the offset, which
may be new; the mark behind the chain; or an error. -/
theorem pwriteFirstCluster_eq_some [t.Formatted] (hmarks : t.ClusterNumbersBelowMarks)
    (hentries : t.fatEntries ≤ fatClusterEndOfChainMax)
    {v v' : Volume} {file : FatFile} {cs : List ℕ} {offset c : ℕ}
    (h : ClusterChain t v.fatMap (file.startCluster :: cs)) (hio : v.IoSucceeds)
    (herrno : v.errno = 0) (hoffset : offset < 2 ^ 32)
    (hresult : pwriteFirstCluster t v file offset = some (c, v')) :
    (∃ new, Extends t v.fatMap v'.fatMap (file.startCluster :: cs) new ∧
        SameOutsideFat t v v' ∧
        FatBytesKept t v.disk v'.disk (file.startCluster :: cs ++ new) ∧
        ∃ hk : offset / fatTableBytesPerCluster t <
            (file.startCluster :: cs ++ new).length,
          (file.startCluster :: cs ++ new)[offset / fatTableBytesPerCluster t] = c) ∨
      (c = fatClusterEndOfChainMax ∧ v' = v) ∨
      ∃ e, e ≠ 0 ∧ v' = { v with errno := e } := by
  by_cases hboundary : offset % fatTableBytesPerCluster t = 0 ∧ offset ≠ 0
  · obtain ⟨halign, hpos⟩ := hboundary
    have hseek := seekCluster_eq hmarks h (offset - 1) (by omega)
    rw [startingPoint_div hpos, if_pos halign] at hseek
    by_cases hin : offset / fatTableBytesPerCluster t - 1 <
        (file.startCluster :: cs).length
    · rw [dif_pos hin] at hseek
      have hvalid := h.valid _ (List.getElem_mem hin)
      rw [pwriteFirstCluster_boundary halign hpos hseek,
        if_pos (by have := hvalid.1; omega)] at hresult
      have hquot : 0 < offset / fatTableBytesPerCluster t :=
        Nat.div_pos (Nat.le_of_dvd (by omega) (Nat.dvd_of_mod_eq_zero halign))
          bytesPerCluster_pos
      rcases nextOrNewCluster_eq_some hmarks h hio herrno hin hresult with
        ⟨new, hgrown, hsame, hkept, -, hk, hcluster⟩ | ⟨-, rfl⟩
      · have hindex : offset / fatTableBytesPerCluster t - 1 + 1 =
            offset / fatTableBytesPerCluster t := by omega
        simp only [hindex] at hk hcluster
        exact Or.inl ⟨new, hgrown, hsame, hkept, hk, hcluster⟩
      · exact Or.inr (Or.inr ⟨Errno.eio, by decide, rfl⟩)
    · rw [dif_neg hin] at hseek
      by_cases hend : offset / fatTableBytesPerCluster t - 1 =
          (file.startCluster :: cs).length
      · rw [if_pos hend] at hseek
        rw [pwriteFirstCluster_boundary halign hpos hseek, if_pos (by decide),
          nextOrNewCluster, getNextCluster_outside hentries] at hresult
        simp at hresult
      · rw [if_neg hend] at hseek
        rw [pwriteFirstCluster_boundary halign hpos hseek] at hresult
        simp only [ne_eq, not_true_eq_false, if_false, Option.some.injEq,
          Prod.mk.injEq] at hresult
        exact Or.inr (Or.inr ⟨Errno.eoverflow, by decide, hresult.2.symm⟩)
  · rw [pwriteFirstCluster_inside (by tauto), seekCluster_eq hmarks h offset hoffset] at hresult
    split at hresult
    · rename_i hk
      simp only [Option.some.injEq, Prod.mk.injEq] at hresult
      obtain ⟨rfl, rfl⟩ := hresult
      refine Or.inl ⟨[], Extends.refl h, SameOutsideFat.refl _, FatBytesKept.refl _ _,
        by simpa using hk, ?_⟩
      simp
    · split at hresult
      · simp only [Option.some.injEq, Prod.mk.injEq] at hresult
        exact Or.inr (Or.inl ⟨hresult.1.symm, hresult.2.symm⟩)
      · simp only [Option.some.injEq, Prod.mk.injEq] at hresult
        exact Or.inr (Or.inr ⟨Errno.eoverflow, by decide, hresult.2.symm⟩)

/-- An offset up to the end of `len` clusters is a boundary behind one of them or lies inside of
one. -/
theorem boundary_or_inside {offset len : ℕ} (hlen : 0 < len)
    (hin : offset ≤ len * fatTableBytesPerCluster t) :
    (offset % fatTableBytesPerCluster t = 0 ∧ offset ≠ 0 ∧
        0 < offset / fatTableBytesPerCluster t ∧ offset / fatTableBytesPerCluster t ≤ len) ∨
      ¬ (offset % fatTableBytesPerCluster t = 0 ∧ offset ≠ 0) ∧
        offset / fatTableBytesPerCluster t < len := by
  have hC := bytesPerCluster_pos (t := t)
  have hle : offset / fatTableBytesPerCluster t ≤ len :=
    Nat.div_le_of_le_mul (by rwa [Nat.mul_comm])
  by_cases hboundary : offset % fatTableBytesPerCluster t = 0 ∧ offset ≠ 0
  · obtain ⟨halign, hpos⟩ := hboundary
    have hquot : 0 < offset / fatTableBytesPerCluster t :=
      Nat.div_pos (Nat.le_of_dvd (by omega) (Nat.dvd_of_mod_eq_zero halign)) hC
    exact Or.inl ⟨halign, hpos, hquot, hle⟩
  · refine Or.inr ⟨hboundary, lt_of_le_of_ne hle fun heq => hboundary ?_⟩
    -- behind the last cluster the offset would be a boundary
    have hdiv := Nat.div_add_mod offset (fatTableBytesPerCluster t)
    rw [heq, Nat.mul_comm] at hdiv
    have hend : 0 < len * fatTableBytesPerCluster t := Nat.mul_pos hlen hC
    exact ⟨by omega, by omega⟩

/-- An offset inside or right behind the chain gets its cluster. -/
theorem exists_pwriteFirstCluster [t.Formatted] (hmarks : t.ClusterNumbersBelowMarks)
    {v : Volume} {file : FatFile} {cs : List ℕ} {offset : ℕ}
    (h : ClusterChain t v.fatMap (file.startCluster :: cs)) (hio : v.IoSucceeds)
    (herrno : v.errno = 0) (hoffset : offset < 2 ^ 32)
    (hin : offset ≤ (file.startCluster :: cs).length * fatTableBytesPerCluster t)
    (hroom : offset / fatTableBytesPerCluster t <
      (file.startCluster :: cs).length + (freeClusters t v.fatMap).card) :
    ∃ c v' new, pwriteFirstCluster t v file offset = some (c, v') ∧
      Extends t v.fatMap v'.fatMap (file.startCluster :: cs) new ∧
      SameOutsideFat t v v' ∧
      FatBytesKept t v.disk v'.disk (file.startCluster :: cs ++ new) ∧
      (file.startCluster :: cs ++ new).length ≤
        max (file.startCluster :: cs).length (offset / fatTableBytesPerCluster t + 1) ∧
      ∃ hk : offset / fatTableBytesPerCluster t <
          (file.startCluster :: cs ++ new).length,
        (file.startCluster :: cs ++ new)[offset / fatTableBytesPerCluster t] = c := by
  have hlen : 0 < (file.startCluster :: cs).length := Nat.succ_pos _
  rcases boundary_or_inside hlen hin with ⟨halign, hpos, hquot, hle⟩ | ⟨hboundary, hk⟩
  · have hindex : offset / fatTableBytesPerCluster t - 1 + 1 =
        offset / fatTableBytesPerCluster t := by omega
    have hlast : offset / fatTableBytesPerCluster t - 1 <
        (file.startCluster :: cs).length := by omega
    have hseek := seekCluster_eq hmarks h (offset - 1) (by omega)
    rw [startingPoint_div hpos, if_pos halign, dif_pos hlast] at hseek
    have hvalid := h.valid _ (List.getElem_mem hlast)
    obtain ⟨c, v', hnext, herrno'⟩ := exists_nextOrNewCluster hmarks h hio herrno hlast
      (by omega)
    rcases nextOrNewCluster_eq_some hmarks h hio herrno hlast hnext with
      ⟨new, hgrown, hsame, hkept, hlength, hk, hcluster⟩ | ⟨-, rfl⟩
    · simp only [hindex] at hk hcluster
      refine ⟨c, v', new, ?_, hgrown, hsame, hkept, by omega, hk, hcluster⟩
      rw [pwriteFirstCluster_boundary halign hpos hseek,
        if_pos (by have := hvalid.1; omega), hnext]
    · simp at herrno'
  · refine ⟨_, v, [], ?_, Extends.refl h, SameOutsideFat.refl _, FatBytesKept.refl _ _,
      by simp, by simpa using hk, rfl⟩
    rw [pwriteFirstCluster_inside (by tauto), seekCluster_eq hmarks h offset hoffset,
      dif_pos hk]
    simp

/-! ## The whole write -/

/-- The entry of a file after a write that ended at `newEnd`. -/
def grownDentry (v : Volume) (d : FatDirEntry) (newEnd : ℕ) : FatDirEntry :=
  (fillDentryTimeNow v
    (if d.fileSize < newEnd then d.setFileSize newEnd else d) false true).1

theorem fileSize_fillDentryTimeNow (v : Volume) (d : FatDirEntry)
    (fillCreate fillModified : Bool) :
    (fillDentryTimeNow v d fillCreate fillModified).1.fileSize = d.fileSize := by
  simp only [FatDirEntry.fileSize, FatDirEntry.le16At]
  repeat rw [byte_fillDentryTimeNow _ _ _ _ (by omega)]

theorem fileSize_grownDentry (v : Volume) (d : FatDirEntry) {newEnd : ℕ}
    (hend : newEnd < 2 ^ 32) :
    (grownDentry v d newEnd).fileSize = max d.fileSize newEnd := by
  rw [grownDentry, fileSize_fillDentryTimeNow]
  split
  · rw [FatDirEntry.fileSize_setFileSize, Nat.mod_eq_of_lt hend]
    omega
  · omega

/-- Reading the clock changes nothing else. -/
theorem fillDentryTimeNow_snd (v : Volume) (d : FatDirEntry)
    (fillCreate fillModified : Bool) :
    (fillDentryTimeNow v d fillCreate fillModified).2 =
      { v with clock := fun n => v.clock (n + 1) } := by
  unfold fillDentryTimeNow time
  cases fillCreate <;> cases fillModified <;> simp

/-- The part of `fat_file_pwrite` behind the search for the first cluster. -/
theorem fatFilePwrite_eq {v v₁ v₂ : Volume} {file : FatFile} {buf : ℤ → UInt8}
    {size offset c : ℕ} {rem : ℤ} (parent : Option FatFile)
    (hle : offset ≤ file.dentry.fileSize)
    (hfirst : pwriteFirstCluster t v file offset = some (c, v₁))
    (herrno : v₁.errno = 0)
    (hloop : pwriteLoop t buf (size + 1) v₁ 0 c size offset = some (rem, v₂)) :
    fatFilePwrite t v file buf size offset parent = (do
      let v' ← writeDirEntry t { v₂ with clock := fun n => v₂.clock (n + 1) } parent
        { file with
          dentry := grownDentry v₂ file.dentry (sizeT ((offset : ℤ) + size - rem)) }
      some ((size : ℤ) - rem,
        { file with
          dentry := grownDentry v₂ file.dentry (sizeT ((offset : ℤ) + size - rem)) },
        v')) := by
  have hclock := fillDentryTimeNow_snd v₂
    (if file.dentry.fileSize < sizeT ((offset : ℤ) + size - rem) then
      file.dentry.setFileSize (sizeT ((offset : ℤ) + size - rem)) else file.dentry)
    false true
  rw [fatFilePwrite, if_neg (by omega)]
  simp only [hfirst, herrno, hloop, Option.bind_eq_bind, Option.bind_some, ne_eq,
    not_true_eq_false, if_false, grownDentry, ← hclock]

theorem fatFilePwrite_of_error {v v₁ : Volume} {file : FatFile} {buf : ℤ → UInt8}
    {size offset c : ℕ} {parent : Option FatFile}
    (hle : offset ≤ file.dentry.fileSize)
    (hfirst : pwriteFirstCluster t v file offset = some (c, v₁))
    (herrno : v₁.errno ≠ 0) :
    fatFilePwrite t v file buf size offset parent = some (- v₁.errno, file, v₁) := by
  rw [fatFilePwrite, if_neg (by omega)]
  simp only [hfirst, Option.bind_eq_bind, Option.bind_some, if_pos herrno]

theorem div_lt_clustersFor (offset : ℕ) {size : ℕ} (hsize : 0 < size) :
    offset / fatTableBytesPerCluster t < clustersFor t (offset + size) := by
  apply lt_clustersFor
  have hle := Nat.div_mul_le_self offset (fatTableBytesPerCluster t)
  omega

/-- A write inside or right behind the content of a file writes everything, when
clusters suffice.  What is left to do is to write the entry. -/
theorem fatFilePwrite_splits [t.Formatted] (hmarks : t.ClusterNumbersBelowMarks)
    {v : Volume} {file : FatFile} (parent : Option FatFile) {cs : List ℕ}
    {size offset : ℕ} (buf : ℤ → UInt8)
    (h : ClusterChain t v.fatMap (file.startCluster :: cs)) (hio : v.IoSucceeds)
    (herrno : v.errno = 0) (hoffset : offset ≤ file.dentry.fileSize)
    (hsize : 0 < size) (hend : offset + size < 2 ^ 32)
    (hin : file.dentry.fileSize ≤
      (file.startCluster :: cs).length * fatTableBytesPerCluster t)
    (hroom : clustersFor t (offset + size) ≤
      (file.startCluster :: cs).length + (freeClusters t v.fatMap).card) :
    ∃ v₂ new,
      fatFilePwrite t v file buf size offset parent =
          (writeDirEntry t { v₂ with clock := fun n => v₂.clock (n + 1) } parent
            { file with dentry := grownDentry v₂ file.dentry (offset + size) }).map
            (fun v' => ((size : ℤ),
              { file with dentry := grownDentry v₂ file.dentry (offset + size) }, v')) ∧
        WroteFile t v v₂ (file.startCluster :: cs) new offset size (fun i => buf i) ∧
        (file.startCluster :: cs ++ new).length ≤
          max (file.startCluster :: cs).length (clustersFor t (offset + size)) ∧
        v₂.errno = 0 := by
  have hfits := div_lt_clustersFor (t := t) offset hsize
  obtain ⟨c, v₁, new₁, hfirst, hgrown, hsame, hkept, hlength₁, hk, hcluster⟩ :=
    exists_pwriteFirstCluster hmarks h hio herrno (by omega) (hoffset.trans hin)
      (by omega)
  have hio₁ := hsame.ioSucceeds hio
  have herrno₁ : v₁.errno = 0 := hsame.errno.trans herrno
  have hcard := hgrown.card_freeClusters h.used
  subst hcluster
  obtain ⟨v₂, hloop, herrno₂⟩ := pwriteLoop_completes hmarks buf
    (size + 1) 0 size hgrown.chain hio₁ herrno₁ hk rfl (by omega)
    (by rw [List.length_append]; omega)
  obtain ⟨new₂, done, hwrote, -, -, hall, hlength₂⟩ := pwriteLoop_eq_some hmarks buf
    hgrown.chain hio₁ herrno₁ hk rfl hloop
  have hdone := hall herrno₂
  subst hdone
  have hnewEnd : sizeT ((offset : ℤ) + done - 0) = offset + done := by
    unfold sizeT
    omega
  have heq := fatFilePwrite_eq parent hoffset hfirst herrno₁ hloop
  rw [hnewEnd] at heq
  refine ⟨v₂, new₁ ++ new₂, ?_, ?_, ?_, herrno₂⟩
  · rw [heq]
    cases writeDirEntry t { v₂ with clock := fun n => v₂.clock (n + 1) } parent
      { file with dentry := grownDentry v₂ file.dentry (offset + done) } <;> simp
  · refine ⟨hgrown.trans hwrote.grown, ?_, ?_, ?_, hwrote.succeeds⟩
    · rw [← List.append_assoc]
      exact hwrote.room
    · rw [← List.append_assoc]
      refine ⟨?_, ?_⟩
      · intro j hj
        simpa using hwrote.bytes.inside j hj
      · intro a ha hne
        rw [hwrote.bytes.outside a ha hne, hsame.data a ha]
    · rw [← List.append_assoc]
      exact hkept.trans hwrote.entries (List.subset_append_left _ _)
  · rw [← List.append_assoc]
    omega

/-- The same along the grown chain, and then to the parent's cluster. -/
theorem fatFilePwrite_completes [t.Formatted] (hmarks : t.ClusterNumbersBelowMarks)
    {v : Volume} {file : FatFile} (parent : FatFile) {cs : List ℕ} {size offset : ℕ}
    (buf : ℤ → UInt8)
    (h : ClusterChain t v.fatMap (file.startCluster :: cs)) (hio : v.IoSucceeds)
    (herrno : v.errno = 0) (hoffset : offset ≤ file.dentry.fileSize)
    (hsize : 0 < size) (hend : offset + size < 2 ^ 32)
    (hin : file.dentry.fileSize ≤
      (file.startCluster :: cs).length * fatTableBytesPerCluster t)
    (hroom : clustersFor t (offset + size) ≤
      (file.startCluster :: cs).length + (freeClusters t v.fatMap).card) :
    ∃ file' v₂ v' new,
      fatFilePwrite t v file buf size offset (some parent) =
          some ((size : ℤ), file', v') ∧
        WroteFile t v v₂ (file.startCluster :: cs) new offset size (fun i => buf i) ∧
        file' = { file with dentry := grownDentry v₂ file.dentry (offset + size) } ∧
        v'.IoSucceeds ∧ v'.fatMap = v₂.fatMap ∧
        ∀ a, (∀ i < fatTableBytesPerCluster t,
          a ≠ fatTableClusterOffset t parent.startCluster + i) →
          v'.disk a = v₂.disk a := by
  obtain ⟨v₂, new, heq, hwrote, -, -⟩ := fatFilePwrite_splits hmarks (some parent) buf h hio
    herrno hoffset hsize hend hin hroom
  obtain ⟨v', hentry, hio', hmap, hdisk⟩ := exists_writeDirEntry (t := t)
    (v := { v₂ with clock := fun n => v₂.clock (n + 1) })
    ⟨hwrote.succeeds.1, hwrote.succeeds.2⟩ parent
    { file with dentry := grownDentry v₂ file.dentry (offset + size) }
  refine ⟨_, v₂, v', new, ?_, hwrote, rfl, hio', hmap, hdisk⟩
  rw [heq, hentry]
  rfl

/-! ## Splices -/

/-- `old` with `data` put over it at `off`. -/
def splice {α : Type*} (old data : List α) (off : ℕ) : List α :=
  old.take off ++ data ++ old.drop (off + data.length)

/-- The first `size` bytes of a buffer. -/
def bufferBytes (buf : ℤ → UInt8) (size : ℕ) : List UInt8 :=
  (List.range size).map fun i : ℕ => buf i

/-- The content along a longer list of clusters, after a range was written in it. -/
theorem chainContent_wroteThrough [t.Formatted] {cs new : List ℕ} {disk disk' : ℕ → UInt8}
    {buf : ℤ → UInt8} {off size old : ℕ} (hnodup : (cs ++ new).Nodup)
    (hvalid : ∀ c ∈ cs ++ new, fatTableIsValidClusterNumber t c)
    (hroom : off + size ≤ (cs ++ new).length * fatTableBytesPerCluster t)
    (h : WroteThrough (chainAddr t (cs ++ new)) off size (fun i => buf i) t.dataStartOffset
      disk disk')
    (hoff : off ≤ old) (hold : old ≤ cs.length * fatTableBytesPerCluster t) :
    chainContent t disk' (cs ++ new) (max old (off + size)) =
      splice (chainContent t disk cs old) (bufferBytes buf size) off := by
  have htotal : old ≤ (cs ++ new).length * fatTableBytesPerCluster t := by
    rw [List.length_append, Nat.add_mul]
    omega
  have hkept : ∀ i, i < old → (i < off ∨ off + size ≤ i) →
      disk' (chainAddr t (cs ++ new) i) = disk (chainAddr t cs i) := by
    intro i hi hout
    rw [h.outside _ (dataStart_le_chainAddr _ _), chainAddr_append (by omega)]
    intro j hj heq
    have hsame := chainAddr_injective_of_nodup hnodup hvalid (by omega) (by omega) heq
    omega
  apply List.ext_getElem
  · simp [chainContent, splice, bufferBytes]
    omega
  · intro i hi hi'
    simp only [chainContent, List.length_map, List.length_range] at hi
    simp only [chainContent, splice, bufferBytes, List.getElem_map,
      List.getElem_range, List.length_map, List.length_range]
    by_cases hlow : i < off
    · rw [List.getElem_append_left (by simp; omega),
        List.getElem_append_left (by simp; omega)]
      simpa using hkept i (by omega) (Or.inl hlow)
    · by_cases hmid : i < off + size
      · rw [List.getElem_append_left (by simp; omega),
          List.getElem_append_right (by simp; omega)]
        have hinside := h.inside (i - off) (by omega)
        rw [show off + (i - off) = i by omega] at hinside
        simpa [Nat.min_eq_left hoff] using hinside
      · rw [List.getElem_append_right (by simp; omega)]
        simp only [List.length_append, List.length_take, List.length_map,
          List.length_range, Nat.min_eq_left hoff, List.getElem_drop,
          List.getElem_map, List.getElem_range]
        rw [show off + size + (i - (off + size)) = i by omega]
        exact hkept i (by omega) (Or.inr (by omega))

theorem chainContent_splice [t.Formatted] {v v' : Volume} {cs new : List ℕ} {buf : ℤ → UInt8}
    {off size old : ℕ} (h : WroteFile t v v' cs new off size fun i => buf i)
    (hoff : off ≤ old) (hold : old ≤ cs.length * fatTableBytesPerCluster t) :
    chainContent t v'.disk (cs ++ new) (max old (off + size)) =
      splice (chainContent t v.disk cs old) (bufferBytes buf size) off :=
  chainContent_wroteThrough h.grown.chain.nodup h.grown.chain.valid h.room h.bytes hoff hold

/-! ## File objects -/

/-- The file has the chain of its first cluster and `cs`, which is long enough for
its content. -/
structure FileOnChain (t : FatTable) (v : Volume) (file : FatFile) (cs : List ℕ) :
    Prop where
  chain : ClusterChain t v.fatMap (file.startCluster :: cs)
  size_le : file.dentry.fileSize ≤
    (file.startCluster :: cs).length * fatTableBytesPerCluster t

/-- The content of a file whose chain has the further clusters `cs`. -/
def fileContent (t : FatTable) (v : Volume) (file : FatFile) (cs : List ℕ) :
    List UInt8 :=
  chainContent t v.disk (file.startCluster :: cs) file.dentry.fileSize

/-- From `s` to `s'` the file object at `g`, the FAT entries of the clusters `ds`,
in memory and on disk, and their data stay as they are. -/
structure FileUntouched (t : FatTable) (s s' : FsState) (g : ℕ) (ds : List ℕ) :
    Prop where
  object : s'.files.get g = s.files.get g
  entries : ∀ d ∈ ds, s'.vol.fatMap d = s.vol.fatMap d
  diskEntries : ∀ d ∈ ds, ∀ i < 4,
    s'.vol.disk (t.fatOffset + 4 * d + i) = s.vol.disk (t.fatOffset + 4 * d + i)
  data : ∀ d ∈ ds, ∀ i < fatTableBytesPerCluster t,
    s'.vol.disk (fatTableClusterOffset t d + i) =
      s.vol.disk (fatTableClusterOffset t d + i)

/-- A write through `pwriteFile` is a write of the file value. -/
theorem pwriteFile_eq {s : FsState} {file parent : ℕ} {f f' p : FatFile}
    {buf : ℤ → UInt8} {size offset : ℕ} {result : ℤ} {v' : Volume}
    (hf : s.files.get file = some f) (hp : s.files.get parent = some p)
    (hwrite : fatFilePwrite t s.vol f buf size offset (some p) =
      some (result, f', v')) :
    ∃ files', s.files.write file f' = some files' ∧
      pwriteFile t s file buf size offset (some parent) =
        some (result, { s with vol := v', files := files' }) := by
  obtain ⟨files', hfiles⟩ := Heap.exists_write hf f'
  refine ⟨files', hfiles, ?_⟩
  simp [pwriteFile, FsState.deref, hf, hp, hwrite, hfiles]

theorem WroteFile.data_of_notMem [t.Formatted] {v v' : Volume} {cs new : List ℕ} {off len : ℕ}
    {data : ℕ → UInt8} (h : WroteFile t v v' cs new off len data) {d i : ℕ}
    (hd : d ∉ cs ++ new) (hd32 : d < 2 ^ 32) (hi : i < fatTableBytesPerCluster t) :
    v'.disk (fatTableClusterOffset t d + i) =
      v.disk (fatTableClusterOffset t d + i) := by
  have hroom := h.room
  apply h.bytes.outside
  · exact (dataStart_le_clusterOffset d).trans (Nat.le_add_right _ _)
  · intro j hj
    exact chainAddr_ne_of_notMem h.grown.chain (by omega) hd hd32 hi

/-- On a formatted table, writing a non-empty buffer inside or right behind the
content splices it in: the result is the size, the chain keeps its old clusters,
and no other file is touched. -/
theorem pwriteFile_splice [t.Formatted] (hmarks : t.ClusterNumbersBelowMarks) {s : FsState}
    (file parent : ℕ) {f p : FatFile} {cs : List ℕ} (buf : ℤ → UInt8)
    (size offset : ℕ)
    (hf : s.files.get file = some f) (hp : s.files.get parent = some p)
    (hchain : FileOnChain t s.vol f cs)
    (hparentUsed : s.vol.fatMap p.startCluster ≠ fatClusterFree)
    (hparentOut : p.startCluster ∉ f.startCluster :: cs)
    (hoffset : offset ≤ f.dentry.fileSize) (hsize : 0 < size)
    (hend : offset + size < 2 ^ 32) (herrno : s.errno = 0)
    (hio : s.vol.IoSucceeds)
    (hroom : clustersFor t (offset + size) ≤
      (f.startCluster :: cs).length + (freeClusters t s.vol.fatMap).card) :
    ∃ s' f' new,
      pwriteFile t s file buf size offset (some parent) = some ((size : ℤ), s') ∧
        s'.files.get file = some f' ∧ f'.startCluster = f.startCluster ∧
        FileOnChain t s'.vol f' (cs ++ new) ∧
        f'.dentry.fileSize = max f.dentry.fileSize (offset + size) ∧
        fileContent t s'.vol f' (cs ++ new) =
          splice (fileContent t s.vol f cs) (bufferBytes buf size) offset ∧
        ∀ g ds, g ≠ file →
          (∀ d ∈ ds, fatTableIsValidClusterNumber t d ∧
            s.vol.fatMap d ≠ fatClusterFree ∧ d ∉ f.startCluster :: cs ∧
            d ≠ p.startCluster) →
          FileUntouched t s s' g ds := by
  obtain ⟨f', v₂, v', new, hwrite, hwrote, rfl, hio', hmap, hdisk⟩ :=
    fatFilePwrite_completes hmarks p buf hchain.chain hio herrno hoffset
      hsize hend hchain.size_le hroom
  obtain ⟨files', hfiles, hresult⟩ := pwriteFile_eq hf hp hwrite
  obtain ⟨-, -, hself, hothers⟩ := Heap.write_eq_some hfiles
  have hgrown := hwrote.grown
  have hroomWritten := hwrote.room
  have hparent := p.startCluster_lt
  have hparentNew : p.startCluster ∉ f.startCluster :: cs ++ new := by
    rw [List.mem_append, not_or]
    exact ⟨hparentOut, (hgrown.frame_of_used hparentOut hparentUsed).1⟩
  have hnewSize : (grownDentry v₂ f.dentry (offset + size)).fileSize =
      max f.dentry.fileSize (offset + size) := fileSize_grownDentry v₂ f.dentry hend
  refine ⟨_, _, new, hresult, hself, rfl, ⟨?_, ?_⟩, hnewSize, ?_, ?_⟩
  · show ClusterChain t v'.fatMap (f.startCluster :: cs ++ new)
    rw [hmap]
    exact hgrown.chain
  · show (grownDentry v₂ f.dentry (offset + size)).fileSize ≤
      (f.startCluster :: cs ++ new).length * fatTableBytesPerCluster t
    have hle := hchain.size_le
    rw [hnewSize]
    rw [List.length_append, Nat.add_mul] at hroomWritten ⊢
    omega
  · have hcontent := chainContent_splice hwrote hoffset
      hchain.size_le
    have hsame : chainContent t v'.disk (f.startCluster :: cs ++ new)
          (max f.dentry.fileSize (offset + size)) =
        chainContent t v₂.disk (f.startCluster :: cs ++ new)
          (max f.dentry.fileSize (offset + size)) := by
      -- the entry in the parent is not a byte of the file
      apply List.map_congr_left
      intro i hi
      rw [List.mem_range] at hi
      have hle := hchain.size_le
      apply hdisk
      intro j hj
      apply Ne.symm
      apply chainAddr_ne_of_notMem hgrown.chain _ hparentNew hparent hj
      rw [List.length_append, Nat.add_mul] at hroomWritten ⊢
      omega
    show chainContent t v'.disk (f.startCluster :: cs ++ new)
      (grownDentry v₂ f.dentry (offset + size)).fileSize = _
    rw [hnewSize, hsame, hcontent]
    rfl
  · intro g ds hg hds
    have hout : ∀ d ∈ ds, d ∉ f.startCluster :: cs ++ new := by
      intro d hd
      obtain ⟨-, hused, hcs, -⟩ := hds d hd
      rw [List.mem_append, not_or]
      exact ⟨hcs, (hgrown.frame_of_used hcs hused).1⟩
    refine ⟨hothers g hg, ?_, ?_, ?_⟩
    · intro d hd
      obtain ⟨-, hused, hcs, -⟩ := hds d hd
      show v'.fatMap d = s.vol.fatMap d
      rw [hmap]
      exact (hgrown.frame_of_used hcs hused).2
    · intro d hd i hi
      have hentry := entry_lt_dataStart (valid_lt_entries (hds d hd).1)
      show v'.disk _ = s.vol.disk _
      rw [hdisk]
      · apply hwrote.entries _ (by omega)
        intro c hc j hj heq
        have hdc : d = c := by omega
        exact hout d hd (hdc ▸ hc)
      · intro j _ heq
        have hstart := dataStart_le_clusterOffset (t := t) p.startCluster
        omega
    · intro d hd i hi
      obtain ⟨hvalid, hused, hcs, hne⟩ := hds d hd
      show v'.disk _ = s.vol.disk _
      rw [hdisk, hwrote.data_of_notMem (hout d hd) (valid_lt_u32 hvalid) hi]
      intro j hj heq
      exact hne (clusterOffset_injective (valid_lt_u32 hvalid) hparent hi hj heq).1

/-- An object without content. -/
def emptyFile (startCluster : ℕ) (hlt : startCluster < 2 ^ 32) : FatFile where
  dentry := FatDirEntry.zero
  name := []
  filepath := []
  startCluster := startCluster
  startCluster_lt := hlt
  nentries := 0
  posInParent := 0
  numTimesOpened := 0
  childrenRead := false

/-- A directory at cluster 2 and an empty file at cluster 3. -/
def twoObjects : FsState where
  vol := smallVolume [fatClusterEndOfChainMax, fatClusterEndOfChainMax]
  files := (Heap.empty.alloc (emptyFile 2 (by decide))).alloc (emptyFile 3 (by decide))
  nodes := Heap.empty
  fileTree := none

theorem fileSize_zero : FatDirEntry.zero.fileSize = 0 := by
  simp [FatDirEntry.fileSize, FatDirEntry.le16At]

/-- Forty bytes fill the cluster of the empty file and a new one. -/
theorem pwriteFile_splice_twoObjects :
    ∃ s' f' new,
      pwriteFile smallTable twoObjects 1 (fun i => UInt8.ofNat i.toNat) 40 0 (some 0) =
          some (40, s') ∧
        s'.files.get 1 = some f' ∧ FileOnChain smallTable s'.vol f' ([] ++ new) ∧
        f'.dentry.fileSize = 40 := by
  have hempty : FileOnChain smallTable twoObjects.vol (emptyFile 3 (by decide)) [] :=
    ⟨⟨by decide, by decide, by decide⟩, by simp [emptyFile, fileSize_zero]⟩
  obtain ⟨s', f', new, hresult, hget, -, hchain, hsize, -, -⟩ :=
    pwriteFile_splice (t := smallTable) (s := twoObjects) (f := emptyFile 3 (by decide))
      (p := emptyFile 2 (by decide)) (by decide) 1 0 (fun i => UInt8.ofNat i.toNat) 40 0 rfl
      rfl hempty
      (by decide) (by decide) (by simp) (by decide) (by decide) rfl
      ⟨rfl, rfl⟩ (by decide)
  refine ⟨s', f', new, hresult, hget, hchain, ?_⟩
  rw [hsize, emptyFile, fileSize_zero]
  rfl

end SistOp.FatFuse
