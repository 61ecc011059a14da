import SistOp.FileTransfers
import SistOp.StaleErrno
import Mathlib.Tactic

/-!
# Writes that may stop early

On a full volume, or with an error pending, `fat_file_pwrite` stops early.  Whatever it
does, the chain of the file only grows, and nothing else is touched.
-/

namespace SistOp.FatFuse

variable {t : FatTable}

/-- An offset inside or right behind the chain is found, or an error is left. -/
theorem pwriteFirstCluster_within [t.Formatted] (hmarks : t.ClusterNumbersBelowMarks)
    {v v' : Volume} {file : FatFile} {cs : List ℕ} {offset c : ℕ}
    (h : ClusterChain t v.fatMap (file.startCluster :: cs)) (hio : v.IoSucceeds)
    (herrno : v.errno = 0) (hoffset : offset < 2 ^ 32)
    (hin : offset ≤ (file.startCluster :: cs).length * fatTableBytesPerCluster t)
    (hresult : pwriteFirstCluster t v file offset = some (c, v')) :
    (∃ new, Extends t v.fatMap v'.fatMap (file.startCluster :: cs) new ∧
        SameOutsideFat t v v' ∧
        FatBytesKept t v.disk v'.disk (file.startCluster :: cs ++ new) ∧
        ∃ hk : offset / fatTableBytesPerCluster t <
            (file.startCluster :: cs ++ new).length,
          (file.startCluster :: cs ++ new)[offset / fatTableBytesPerCluster t] = c) ∨
      ∃ e, 0 < e ∧ v' = { v with errno := e } := by
  by_cases hroom : offset / fatTableBytesPerCluster t <
      (file.startCluster :: cs).length + (freeClusters t v.fatMap).card
  · obtain ⟨c₀, v₀, new, hfirst, hgrown, hsame, hkept, -, hk, hcluster⟩ :=
      exists_pwriteFirstCluster hmarks h hio herrno hoffset hin hroom
    rw [hresult, Option.some.injEq, Prod.mk.injEq] at hfirst
    obtain ⟨rfl, rfl⟩ := hfirst
    exact Or.inl ⟨new, hgrown, hsame, hkept, hk, hcluster⟩
  -- the offset is right behind the chain, and no cluster is free
  have hlength : 0 < (file.startCluster :: cs).length := by simp
  have hle : offset / fatTableBytesPerCluster t ≤ (file.startCluster :: cs).length :=
    Nat.div_le_of_le_mul (by rwa [Nat.mul_comm])
  have hdiv := Nat.div_add_mod offset (fatTableBytesPerCluster t)
  have hindex : offset / fatTableBytesPerCluster t = (file.startCluster :: cs).length := by
    omega
  rw [hindex, Nat.mul_comm] at hdiv
  have halign : offset % fatTableBytesPerCluster t = 0 := by omega
  have hpos : offset ≠ 0 := by
    rintro rfl
    rw [Nat.zero_div] at hindex
    omega
  have hlast : (file.startCluster :: cs).length - 1 < (file.startCluster :: cs).length := by
    omega
  have hseek := seekCluster_eq hmarks h (offset - 1) (by omega)
  rw [startingPoint_div hpos, if_pos halign, hindex, dif_pos hlast] at hseek
  rw [pwriteFirstCluster_boundary halign hpos hseek,
    if_pos (by have := (h.valid _ (List.getElem_mem hlast)).1; omega)] at hresult
  rcases nextOrNewCluster_eq_some hmarks h hio herrno hlast hresult with
    ⟨new, hgrown, hsame, hkept, -, hk, hcluster⟩ | ⟨-, rfl⟩
  · left
    refine ⟨new, hgrown, hsame, hkept, by omega, ?_⟩
    rw [← hcluster]
    congr 1
  · exact Or.inr ⟨Errno.eio, by decide, rfl⟩

/-- A pending error stays one, and new errors are positive. -/
structure ErrorKept (v v' : Volume) : Prop where
  pending : v.errno ≠ 0 → v'.errno ≠ 0
  nonneg : 0 ≤ v.errno → 0 ≤ v'.errno

theorem ErrorKept.pos {v v' : Volume} (h : ErrorKept v v') (hpos : 0 < v.errno) :
    0 < v'.errno :=
  lt_of_le_of_ne (h.nonneg hpos.le) (h.pending hpos.ne').symm

theorem ErrorKept.of_pos {v v' : Volume} (h : 0 < v'.errno) : ErrorKept v v' :=
  ⟨fun _ => h.ne', fun _ => h.le⟩

/-- Whatever `errno` is on entry, only the chain grows, and an error stays an error. -/
theorem pwriteFirstCluster_changed [t.Formatted] (hmarks : t.ClusterNumbersBelowMarks)
    {v v' : Volume} {file : FatFile} {cs : List ℕ} {offset c : ℕ}
    (h : ClusterChain t v.fatMap (file.startCluster :: cs)) (hio : v.IoSucceeds)
    (hoffset : offset < 2 ^ 32)
    (hin : offset ≤ (file.startCluster :: cs).length * fatTableBytesPerCluster t)
    (hresult : pwriteFirstCluster t v file offset = some (c, v')) :
    ∃ new, Extends t v.fatMap v'.fatMap (file.startCluster :: cs) new ∧
      (∀ a, t.dataStartOffset ≤ a → v'.disk a = v.disk a) ∧
      FatBytesKept t v.disk v'.disk (file.startCluster :: cs ++ new) ∧ v'.IoSucceeds ∧
      ErrorKept v v' := by
  -- from `errno` 0 the search leaves the same volume, up to `errno`
  have hzero : ∀ w : Volume, (∃ c₀, pwriteFirstCluster t (v.withErrno 0) file offset =
      some (c₀, w)) → v'.disk = w.disk → v'.fatMap = w.fatMap → (w.IoSucceeds → v'.IoSucceeds) →
      (w.errno = 0 ∨ 0 < w.errno → ErrorKept v v') →
      ∃ new, Extends t v.fatMap v'.fatMap (file.startCluster :: cs) new ∧
        (∀ a, t.dataStartOffset ≤ a → v'.disk a = v.disk a) ∧
        FatBytesKept t v.disk v'.disk (file.startCluster :: cs ++ new) ∧ v'.IoSucceeds ∧
        ErrorKept v v' := by
    rintro w ⟨c₀, hw⟩ hdisk hmap hsucceeds herrno
    rw [hdisk, hmap]
    have hio₀ : (v.withErrno 0).IoSucceeds := ⟨hio.1, hio.2⟩
    rcases pwriteFirstCluster_within hmarks (v := v.withErrno 0) h hio₀ rfl hoffset hin hw with
      ⟨new, hgrown, hsame, hkept, -⟩ | ⟨e, he, rfl⟩
    · exact ⟨new, hgrown, hsame.data, hkept, hsucceeds (hsame.ioSucceeds hio₀),
        herrno (Or.inl hsame.errno)⟩
    · exact ⟨[], Extends.refl h, fun _ _ => rfl, FatBytesKept.refl _ _,
        hsucceeds ⟨hio.1, hio.2⟩, herrno (Or.inr he)⟩
  rcases pwriteFirstCluster_errno (t := t) v file offset with hnone | ⟨w, hw, hall⟩ | ⟨w, hall⟩
  · exact absurd ((hnone v.errno).symm.trans hresult) (by simp)
  · obtain ⟨c₁, hsame⟩ := hall v.errno
    obtain rfl : v' = w := (Prod.mk.inj (Option.some.inj (hresult.symm.trans hsame))).2
    exact hzero v' (hall 0) rfl rfl id fun hpos =>
      ErrorKept.of_pos (hpos.resolve_left hw)
  · obtain ⟨c₁, hsame⟩ := hall v.errno
    obtain rfl : v' = w.withErrno v.errno :=
      (Prod.mk.inj (Option.some.inj (hresult.symm.trans hsame))).2
    exact hzero _ (hall 0) rfl rfl (fun h => ⟨h.1, h.2⟩) fun _ => ⟨id, id⟩

theorem setNextCluster_nonneg {v v' : Volume} {c n : ℕ}
    (h : fatTableSetNextCluster t v c n = some v') (herrno : 0 ≤ v.errno) : 0 ≤ v'.errno := by
  obtain ⟨-, -, -, ⟨heio, -⟩ | ⟨hsame, -⟩⟩ := setNextCluster_cases h
  · rw [heio]
    decide
  · rwa [hsame]

theorem nextOrNewCluster_nonneg {v v' : Volume} {last next : ℕ}
    (h : nextOrNewCluster t v last = some (next, v')) (herrno : 0 ≤ v.errno) :
    0 ≤ v'.errno := by
  simp only [nextOrNewCluster, Option.bind_eq_bind, Option.bind_eq_some_iff] at h
  obtain ⟨c, -, h⟩ := h
  split at h
  · simp only [Option.bind_eq_some_iff] at h
    obtain ⟨free, -, h⟩ := h
    split at h
    · obtain ⟨-, rfl⟩ := Prod.mk.inj (Option.some.inj h)
      exact show (0 : ℤ) ≤ Errno.eio by decide
    · simp only [Option.bind_eq_some_iff] at h
      obtain ⟨v₁, hlink, v₂, hend, h⟩ := h
      have hdone := setNextCluster_nonneg hend (setNextCluster_nonneg hlink herrno)
      split at h <;> obtain ⟨-, rfl⟩ := Prod.mk.inj (Option.some.inj h) <;> exact hdone
  · obtain ⟨-, rfl⟩ := Prod.mk.inj (Option.some.inj h)
    exact herrno

theorem pwriteLoop_nonneg {buf : ℤ → UInt8} {fuel : ℕ} {v v' : Volume} {pos c r off : ℕ}
    {rem : ℤ} (hio : v.IoSucceeds) (herrno : 0 ≤ v.errno)
    (h : pwriteLoop t buf fuel v pos c r off = some (rem, v')) : 0 ≤ v'.errno := by
  induction fuel generalizing v pos c r off with
  | zero => simp [pwriteLoop] at h
  | succ fuel ih =>
      rcases Nat.eq_zero_or_pos r with rfl | hr
      · simp only [pwriteLoop, if_true, Option.some.injEq, Prod.mk.injEq] at h
        obtain ⟨-, rfl⟩ := h
        exact herrno
      · rw [pwriteLoop_round hio buf fuel pos c hr off] at h
        split at h
        · simp only [Option.bind_eq_bind, Option.bind_eq_some_iff, Prod.exists] at h
          obtain ⟨next, v₁, hnext, h⟩ := h
          have hio₁ := (nextOrNewCluster_later hnext).ioSucceeds
            (writeRound_ioSucceeds hio _ _ _ _ _)
          have herrno₁ := nextOrNewCluster_nonneg hnext (by simpa using herrno)
          split at h
          · obtain ⟨-, rfl⟩ := Prod.mk.inj (Option.some.inj h)
            exact herrno₁
          · exact ih hio₁ herrno₁ h
        · obtain ⟨-, rfl⟩ := Prod.mk.inj (Option.some.inj h)
          simpa using herrno

theorem writeDirEntry_written {v v' : Volume} {parent : Option FatFile} {file : FatFile}
    (hio : v.IoSucceeds) (h : writeDirEntry t v parent file = some v') :
    v'.fatMap = v.fatMap ∧ v'.IoSucceeds ∧ (v'.errno = 0 → v.errno = 0) ∧
      (0 ≤ v.errno → 0 ≤ v'.errno) ∧ ∃ p, parent = some p ∧
      ∀ a, v'.disk a ≠ v.disk a → file.posInParent < slotsPerCluster t ∧
        ∃ i < fatDirEntryByteSize, a = slotAddr t p.startCluster file.posInParent + i := by
  cases parent with
  | none => simp [writeDirEntry] at h
  | some p =>
      by_cases hslot : file.posInParent < slotsPerCluster t
      · rw [writeDirEntry_of_ioSucceeds hio hslot, Option.some.injEq] at h
        subst h
        exact ⟨rfl, ⟨hio.1, hio.2⟩, id, id, p, rfl,
          fun a hne => ⟨hslot, writeSlot_written hne⟩⟩
      · rw [writeDirEntry_full (Nat.not_lt.mp hslot), Option.some.injEq] at h
        subst h
        exact ⟨rfl, ⟨hio.1, hio.2⟩, fun h => absurd h (show Errno.enospc ≠ 0 by decide),
          fun _ => show (0 : ℤ) ≤ Errno.enospc by decide, p, rfl, fun a hne => absurd rfl hne⟩

theorem fileSize_grownDentry_le (v : Volume) (d : FatDirEntry) (newEnd : ℕ) :
    (grownDentry v d newEnd).fileSize ≤ max d.fileSize newEnd := by
  unfold grownDentry
  rw [fileSize_fillDentryTimeNow]
  split
  · rw [FatDirEntry.fileSize_setFileSize]
    exact (Nat.mod_le _ _).trans (le_max_right _ _)
  · exact le_max_left _ _

/-- A write to a file on a chain changes the file and its places only; one that leaves no
error had room. -/
theorem fatFilePwrite_changed [t.Formatted] (hmarks : t.ClusterNumbersBelowMarks) {v v' : Volume}
    {f f' : FatFile} {cs : List ℕ} {buf : ℤ → UInt8} {size offset dir : ℕ}
    {parent : Option FatFile} {r : ℤ} (hchain : FileOnChain t v f cs) (hio : v.IoSucceeds)
    (hoffset : offset ≤ f.dentry.fileSize)
    (hdir : ∀ p, parent = some p → p.startCluster = dir)
    (hwrite : fatFilePwrite t v f buf size offset parent = some (r, f', v')) :
    (∃ new, FileChanged t v v' f f' dir cs new ∧ (v'.errno = 0 →
        offset + size ≤ (f.startCluster :: cs ++ new).length * fatTableBytesPerCluster t)) ∧
      ErrorKept v v' := by
  have hoffset32 : offset < 2 ^ 32 := lt_of_le_of_lt hoffset (FatDirEntry.fileSize_lt _)
  have hin := hoffset.trans hchain.size_le
  have hsplit := hwrite
  rw [fatFilePwrite, if_neg (by omega)] at hsplit
  simp only [Option.bind_eq_bind, Option.bind_eq_some_iff, Prod.exists] at hsplit
  obtain ⟨c, v₁, hfirst, hsplit⟩ := hsplit
  obtain ⟨new, hgrown, hdata, hkept, hio₁, hpending⟩ :=
    pwriteFirstCluster_changed hmarks hchain.chain hio hoffset32 hin hfirst
  by_cases herrno₁ : v₁.errno = 0
  · have herrno : v.errno = 0 := by
      by_contra hne
      exact hpending.pending hne herrno₁
    rw [if_neg (by simpa using herrno₁)] at hsplit
    simp only [Option.bind_eq_some_iff, Prod.exists] at hsplit
    obtain ⟨rem, v₂, hloop, -⟩ := hsplit
    rw [fatFilePwrite_eq parent hoffset hfirst herrno₁ hloop] at hwrite
    simp only [Option.bind_eq_bind, Option.bind_eq_some_iff, Option.some.injEq,
      Prod.mk.injEq] at hwrite
    obtain ⟨v₃, hentry, -, rfl, rfl⟩ := hwrite
    rcases pwriteFirstCluster_within hmarks hchain.chain hio herrno hoffset32 hin hfirst with
      ⟨new, hgrown, hsame, hkept, hk, rfl⟩ | ⟨e, he, rfl⟩
    · obtain ⟨new', done, hwrote, -, hrem, hdone, -⟩ := pwriteLoop_eq_some hmarks buf hgrown.chain
        hio₁ herrno₁ hk rfl hloop
      obtain ⟨hmap, hio₃, herrno₂, hpos, p, rfl, hslot⟩ := writeDirEntry_written
        (v := { v₂ with clock := fun n => v₂.clock (n + 1) })
        ⟨hwrote.succeeds.1, hwrote.succeeds.2⟩ hentry
      have hnonneg : 0 ≤ v₂.errno := pwriteLoop_nonneg hio₁ herrno₁.ge hloop
      have hp := hdir p rfl
      have hall : Extends t v.fatMap v₃.fatMap (f.startCluster :: cs) (new ++ new') := by
        rw [hmap]
        exact hgrown.trans hwrote.grown
      refine ⟨⟨new ++ new', ⟨⟨_, rfl⟩, attribs_grownDentry _ _ _, hall, ⟨hall.chain, ?_⟩, hio₃,
        fun a hne => ?_⟩, fun herrno₃ => ?_⟩, fun hne => absurd herrno hne,
        fun _ => hpos hnonneg⟩
      · have hend : sizeT ((offset : ℤ) + size - rem) ≤ offset + done := by
          unfold sizeT
          omega
        have hsize := fileSize_grownDentry_le v₂ f.dentry (sizeT ((offset : ℤ) + size - rem))
        have hroom := hwrote.room
        have hle := hchain.size_le
        simp only [List.length_append, Nat.add_mul, List.cons_append, List.length_cons]
          at hroom hle ⊢
        omega
      · by_cases hentryByte : v₃.disk a = v₂.disk a
        · by_cases hloopByte : v₂.disk a = v₁.disk a
          · have hfirstByte : v₁.disk a ≠ v.disk a := by
              rw [← hloopByte, ← hentryByte]
              exact hne
            left
            by_contra hout
            push Not at hout
            by_cases ha : a < t.dataStartOffset
            · refine hfirstByte (hkept a ha fun d hd i hi => hout d ?_ i hi)
              rw [← List.append_assoc]
              exact List.mem_append_left _ hd
            · exact hfirstByte (hsame.data a (Nat.not_lt.mp ha))
          · have hplaces := hwrote.written hloopByte
            rw [List.append_assoc] at hplaces
            rcases hplaces with hfat | hcluster
            · exact Or.inl hfat
            · exact Or.inr (Or.inl hcluster)
        · have hplace := hslot a hentryByte
          rw [hp] at hplace
          exact Or.inr (Or.inr hplace)
      · have hroom := hwrote.room
        rw [hdone (herrno₂ herrno₃), List.append_assoc] at hroom
        exact hroom
    · exact absurd herrno₁ he.ne'
  · rw [fatFilePwrite_of_error hoffset hfirst herrno₁] at hwrite
    simp only [Option.some.injEq, Prod.mk.injEq] at hwrite
    obtain ⟨-, rfl, rfl⟩ := hwrite
    refine ⟨⟨new, ⟨DentryOnly.refl f, rfl, hgrown, ⟨hgrown.chain, ?_⟩, hio₁, fun a hne => ?_⟩,
      fun hzero => absurd hzero herrno₁⟩, hpending⟩
    · have hle := hchain.size_le
      simp only [List.length_append, Nat.add_mul, List.length_cons] at hle ⊢
      omega
    · left
      by_contra hout
      push Not at hout
      by_cases ha : a < t.dataStartOffset
      · exact hne (hkept a ha hout)
      · exact hne (hdata a (Nat.not_lt.mp ha))

end SistOp.FatFuse
