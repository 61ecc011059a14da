import SistOp.FilePread
import SistOp.StaleErrno
import Mathlib.Tactic

/-!
# Reading on a read-only mount

Up to the access date a read does not ask whether the volume is writable.  Then
it writes the entry of the file back, and the `errno` of that write becomes the
result of the read.
-/

namespace SistOp.FatFuse

variable {t : FatTable}

def Volume.withWritable (v : Volume) (b : Bool) : Volume := { v with writable := b }

/-- The state as a mount with or without write access has it. -/
def FsState.mountedWith (s : FsState) (b : Bool) : FsState :=
  { s with vol := s.vol.withWritable b }

/-! ## What does not depend on write access -/

theorem pread_withWritable (v : Volume) (b : Bool) (buf : ℤ → UInt8) (pos : ℤ)
    (count : ℕ) (offset : ℤ) :
    pread (v.withWritable b) buf pos count offset =
      ((pread v buf pos count offset).1, (pread v buf pos count offset).2.1,
        (pread v buf pos count offset).2.2.withWritable b) := by
  cases hcall : v.io with
  | nil =>
      by_cases hoff : offset < 0 <;> simp [pread, Volume.withWritable, hcall, hoff]
  | cons outcome rest =>
      cases outcome <;> by_cases hoff : offset < 0 <;>
        simp [pread, Volume.withWritable, hcall, hoff]

theorem fullPreadLoop_withWritable (fuel : ℕ) (v : Volume) (b : Bool) (buf : ℤ → UInt8)
    (pos : ℤ) (remaining : ℕ) (offset : ℤ) :
    fullPreadLoop fuel (v.withWritable b) buf pos remaining offset =
      ((fullPreadLoop fuel v buf pos remaining offset).1,
        (fullPreadLoop fuel v buf pos remaining offset).2.1,
        (fullPreadLoop fuel v buf pos remaining offset).2.2.withWritable b) := by
  induction fuel generalizing v buf pos remaining offset with
  | zero => rfl
  | succ fuel ih =>
      simp only [fullPreadLoop, pread_withWritable]
      obtain ⟨⟨got, buf', v'⟩, hgot⟩ : ∃ r, pread v buf pos remaining offset = r := ⟨_, rfl⟩
      have herrno : (v'.withWritable b).errno = v'.errno := rfl
      simp only [hgot, ih, herrno]
      split_ifs <;> rfl

theorem fullPread_withWritable (v : Volume) (b : Bool) (buf : ℤ → UInt8) (count : ℕ)
    (offset : ℤ) :
    fullPread (v.withWritable b) buf count offset =
      ((fullPread v buf count offset).1, (fullPread v buf count offset).2.1,
        (fullPread v buf count offset).2.2.withWritable b) := by
  have hio : (v.withWritable b).io = v.io := rfl
  simp only [fullPread, hio, fullPreadLoop_withWritable]

theorem seekLoop_withWritable (v : Volume) (b : Bool) (positions cluster : ℕ) :
    fatTableSeekLoop t (v.withWritable b) positions cluster =
      (fatTableSeekLoop t v positions cluster).map fun r => (r.1, r.2.withWritable b) := by
  induction positions generalizing cluster with
  | zero => rfl
  | succ positions ih =>
      have hnext : fatTableGetNextCluster t (v.withWritable b) cluster =
          fatTableGetNextCluster t v cluster := rfl
      simp only [fatTableSeekLoop, hnext, ih]
      split
      · rfl
      · cases fatTableGetNextCluster t v cluster <;> rfl

theorem preadLoop_withWritable (fuel : ℕ) (v : Volume) (b : Bool) (buf : ℤ → UInt8)
    (pos cluster remaining offset : ℕ) :
    preadLoop t fuel (v.withWritable b) buf pos cluster remaining offset =
      (preadLoop t fuel v buf pos cluster remaining offset).map fun r =>
        (r.1, r.2.1, r.2.2.withWritable b) := by
  induction fuel generalizing v buf pos cluster remaining offset with
  | zero => rfl
  | succ fuel ih =>
      simp only [preadLoop, fullPread_withWritable]
      obtain ⟨⟨got, target, v'⟩, hgot⟩ : ∃ r, fullPread v (fun i => buf (pos + i))
          (fatTableGetClusterRemainingBytes t remaining offset)
          ((fatTableClusterOffset t cluster + fatTableMaskOffset t offset : ℕ) : ℤ) = r :=
        ⟨_, rfl⟩
      have hnext : fatTableGetNextCluster t (v'.withWritable b) cluster =
          fatTableGetNextCluster t v' cluster := rfl
      simp only [hgot, hnext, ih]
      split_ifs
      · rfl
      · rfl
      · cases fatTableGetNextCluster t v' cluster <;> rfl
      · rfl

/-- When all calls transfer what they are asked for, the read loop changes nothing. -/
theorem preadLoop_unchanged {fuel : ℕ} {v v' : Volume} {buf buf' : ℤ → UInt8}
    {pos cluster remaining offset rem : ℕ} (hio : v.io = [])
    (h : preadLoop t fuel v buf pos cluster remaining offset = some (rem, buf', v')) :
    v' = v ∧ rem ≤ remaining := by
  induction fuel generalizing buf pos cluster remaining offset with
  | zero => simp [preadLoop] at h
  | succ fuel ih =>
      rcases Nat.eq_zero_or_pos remaining with rfl | hr
      · simp only [preadLoop, if_true, Option.some.injEq, Prod.mk.injEq] at h
        exact ⟨h.2.2.symm, h.1.ge⟩
      · by_cases hvalid : fatTableClusterIsValid cluster
        · rw [preadLoop_round hio buf fuel pos hr hvalid] at h
          obtain ⟨next, -, h⟩ := Option.bind_eq_some_iff.mp h
          obtain ⟨hv, hrem⟩ := ih h
          exact ⟨hv, hrem.trans (Nat.sub_le _ _)⟩
        · rw [preadLoop, if_neg (by omega), if_pos hvalid] at h
          simp only [Option.some.injEq, Prod.mk.injEq] at h
          exact ⟨h.2.2.symm, h.1.ge⟩

/-! ## The result of a read -/

/-- What a read of the handle returns, in terms of the file's value: `errno` if it is
set afterwards, else the count. -/
theorem fatFuseRead_result {env : FuseEnv} {s s' : FsState} {buf buf' : ℤ → UInt8}
    {size offset fh : ℕ} {r : ℤ} {n : HNode ℕ} {f : FatFile} (hf : HandleAt s fh n f)
    (h : fatFuseRead t env s buf size offset fh = some (r, buf', s')) :
    ∃ (e : ℤ) (p : Option FatFile) (count : ℤ) (f' : FatFile) (v' : Volume),
      (n.hParent = none ∧ e = Errno.einval ∨ n.hParent.isSome ∧ e = 0 ∧ p.isSome) ∧
        fatFilePread t (s.vol.withErrno e) f buf size offset p =
          some (count, buf', f', v') ∧
        r = if v'.errno ≠ 0 then - v'.errno else count := by
  have hnodes : (s.setErrno 0).nodes.get fh = some n := hf.node
  simp only [fatFuseRead, fatTreeGetFile, hnodes, Option.bind_eq_bind, Option.bind_some,
    Option.bind_eq_some_iff, Prod.exists] at h
  obtain ⟨parent, s₀, hparent, count, buf₁, s₂, hread, h⟩ := h
  have hresult : r = (if s₂.vol.errno ≠ 0 then - s₂.vol.errno else count) ∧
      buf' = buf₁ := by
    by_cases herrno : s₂.errno ≠ 0
    · rw [if_pos herrno] at h
      simp only [Option.some.injEq, Prod.mk.injEq] at h
      obtain ⟨rfl, rfl, -⟩ := h
      exact ⟨by rw [if_pos (by exact herrno)]; rfl, rfl⟩
    · rw [if_neg herrno] at h
      simp only [Option.bind_eq_some_iff, Option.some.injEq, Prod.mk.injEq,
        Prod.exists] at h
      obtain ⟨-, -, -, -, -, -, -, rfl, rfl, -⟩ := h
      exact ⟨by rw [if_neg (by exact herrno)], rfl⟩
  obtain ⟨hr, rfl⟩ := hresult
  simp only [preadFile, Option.bind_eq_bind, Option.bind_eq_some_iff, Prod.exists,
    Option.some.injEq, Prod.mk.injEq] at hread
  obtain ⟨f₀, hf₀, p, hp, count', buf₂, f', v', hpread, files', -, rfl, rfl, rfl⟩ := hread
  simp only [fatTreeGetParent, hnodes, Option.bind_eq_bind, Option.bind_some] at hparent
  cases hcase : n.hParent with
  | none =>
      simp only [hcase, Option.some.injEq, Prod.mk.injEq] at hparent
      obtain ⟨rfl, rfl⟩ := hparent
      obtain rfl : f₀ = f := Option.some.inj (hf₀.symm.trans hf.live)
      exact ⟨_, p, count', f', v', Or.inl ⟨rfl, rfl⟩, hpread, hr⟩
  | some pa =>
      simp only [hcase, Option.bind_eq_some_iff, Option.some.injEq, Prod.mk.injEq] at hparent
      obtain ⟨pn, -, rfl, rfl⟩ := hparent
      obtain rfl : f₀ = f := Option.some.inj (hf₀.symm.trans hf.live)
      refine ⟨0, p, count', f', v', Or.inr ⟨by simp, rfl, ?_⟩, hpread, hr⟩
      simp only [FsState.deref, Option.bind_eq_bind, Option.bind_eq_some_iff,
        Option.some.injEq] at hp
      obtain ⟨P, -, rfl⟩ := hp
      rfl

/-- Two reads return the same count, or error, and the same bytes. -/
def SameRead (r : ℤ) (buf : ℤ → UInt8) (r' : ℤ) (buf' : ℤ → UInt8) : Prop :=
  r = r' ∧ ∀ i, 0 ≤ i → i < r → buf i = buf' i

/-- When a read of the file decides its result before it writes the entry back, or
cannot write it anywhere. -/
inductive ReadWithoutWrite (t : FatTable) (s : FsState) (n : HNode ℕ) (f : FatFile)
    (size offset : ℕ) : Prop
  | noParent (h : n.hParent = none)
  | nothing (h : readSize f size offset = 0)
  | seekFails {c : ℕ} {w : Volume}
      (hseek : fatTableSeekCluster t (s.vol.withErrno 0) f.startCluster offset = some (c, w))
      (herrno : w.errno ≠ 0)
  | slotOutside (h : slotsPerCluster t ≤ f.posInParent)

/-- The seek hands `errno` on or fails with `EOVERFLOW`. -/
theorem seekLoop_eq_some {v w : Volume} {positions cluster c : ℕ}
    (h : fatTableSeekLoop t v positions cluster = some (c, w)) :
    w = v ∨ w = v.withErrno Errno.eoverflow := by
  induction positions generalizing cluster with
  | zero =>
      simp only [fatTableSeekLoop, Option.some.injEq, Prod.mk.injEq] at h
      exact Or.inl h.2.symm
  | succ positions ih =>
      unfold fatTableSeekLoop at h
      split at h
      · simp only [Option.some.injEq, Prod.mk.injEq] at h
        exact Or.inr h.2.symm
      · obtain ⟨next, -, h⟩ := Option.bind_eq_some_iff.mp h
        exact ih h

/-- A read that ends before it writes does so with or without write access. -/
theorem fatFilePread_early {v : Volume} {f f' : FatFile} {buf buf' : ℤ → UInt8}
    {size offset : ℕ} {p : Option FatFile} {count : ℤ} {v' : Volume} {b : Bool}
    (hle : offset ≤ f.dentry.fileSize)
    (h : fatFilePread t (v.withWritable b) f buf size offset p =
      some (count, buf', f', v')) :
    (readSize f size offset = 0 ∧ count = 0 ∧ buf' = buf ∧ v'.errno = v.errno) ∨
      ∃ c w, readSize f size offset ≠ 0 ∧
        fatTableSeekCluster t v f.startCluster offset = some (c, w) ∧
        ((w.errno ≠ 0 ∧ count = 0 ∧ buf' = buf ∧ v'.errno = w.errno) ∨
          w.errno = 0 ∧ ∃ rem v₁, preadLoop t (readSize f size offset + 1) w buf 0 c
              (readSize f size offset) offset = some (rem, buf', v₁) ∧
            count = (readSize f size offset : ℤ) - rem ∧
            writeDirEntry t
              { v₁.withWritable b with clock := fun n => v₁.clock (n + 1) } p
              { f with dentry := accessedDentry (v₁.withWritable b) f.dentry } =
                some v') := by
  by_cases hempty : readSize f size offset = 0
  · rw [fatFilePread_of_empty hle hempty] at h
    simp only [Option.some.injEq, Prod.mk.injEq] at h
    obtain ⟨rfl, rfl, -, rfl⟩ := h
    exact Or.inl ⟨hempty, rfl, rfl, rfl⟩
  · have hseekb : fatTableSeekCluster t (v.withWritable b) f.startCluster offset =
        (fatTableSeekCluster t v f.startCluster offset).map fun r =>
          (r.1, r.2.withWritable b) := by
      rw [fatTableSeekCluster, seekLoop_withWritable]
      rfl
    cases hseek : fatTableSeekCluster t v f.startCluster offset with
    | none =>
        rw [hseek] at hseekb
        rw [fatFilePread, if_neg (by omega)] at h
        rw [readSize] at hempty
        simp [hempty, hseekb] at h
    | some found =>
        obtain ⟨c, w⟩ := found
        rw [hseek] at hseekb
        refine Or.inr ⟨c, w, hempty, rfl, ?_⟩
        by_cases herrno : w.errno = 0
        · rw [fatFilePread_eq p hle hempty hseekb (by exact herrno)] at h
          simp only [preadLoop_withWritable, Option.bind_eq_some_iff,
            Option.map_eq_some_iff, Prod.exists, Prod.mk.injEq] at h
          obtain ⟨rem, buf₁, v₁, ⟨rem', buf₂, v₂, hloop, rfl, rfl, rfl⟩, v₃, hentry, rfl, rfl,
            -, rfl⟩ := h
          exact Or.inr ⟨herrno, _, v₂, hloop, rfl, hentry⟩
        · rw [fatFilePread_of_error hle hempty hseekb (by exact herrno)] at h
          simp only [Option.some.injEq, Prod.mk.injEq] at h
          obtain ⟨rfl, rfl, -, rfl⟩ := h
          exact Or.inl ⟨herrno, rfl, rfl, rfl⟩

theorem writeDirEntry_readOnly {v v' : Volume} {p f : FatFile} (hro : v.writable = false)
    (hfits : f.posInParent < slotsPerCluster t)
    (h : writeDirEntry t v (some p) f = some v') : v'.errno = Errno.ebadf := by
  have hlt := mul_slot_lt_iff.mpr hfits
  simp only [writeDirEntry, Option.bind_eq_bind, Option.bind_some,
    if_neg (Nat.not_le.mpr hlt), pwrite, hro, if_true] at h
  obtain rfl := Option.some.inj h
  rfl

/-- Reading the same file on both mounts gives the same when the entry need not be
written, and only then when all calls transfer what they are asked for. -/
theorem read_readOnly_iff {env : FuseEnv} {s s₁ s₂ : FsState} {buf b b' : ℤ → UInt8}
    {size offset fh : ℕ} {r r' : ℤ} {n : HNode ℕ} {f : FatFile} (hf : HandleAt s fh n f)
    (hle : offset ≤ f.dentry.fileSize)
    (hro : fatFuseRead t env (s.mountedWith false) buf size offset fh = some (r, b, s₁))
    (hrw : fatFuseRead t env (s.mountedWith true) buf size offset fh =
      some (r', b', s₂)) :
    (ReadWithoutWrite t s n f size offset → SameRead r b r' b') ∧
      (s.vol.io = [] → SameRead r b r' b' → ReadWithoutWrite t s n f size offset) := by
  have hsame : ∀ {r₀ : ℤ} {b₀ : ℤ → UInt8}, SameRead r₀ b₀ r₀ b₀ := ⟨rfl, fun _ _ _ => rfl⟩
  obtain ⟨e, p, count, f', v', he, hread, rfl⟩ :=
    fatFuseRead_result (s := s.mountedWith false) ⟨hf.node, hf.live⟩ hro
  obtain ⟨e', p', count', f'', v'', he', hread', rfl⟩ :=
    fatFuseRead_result (s := s.mountedWith true) ⟨hf.node, hf.live⟩ hrw
  obtain rfl : e = e' := by
    rcases he with ⟨hnone, rfl⟩ | ⟨hsome, rfl, -⟩ <;>
      rcases he' with ⟨hnone', rfl⟩ | ⟨hsome', rfl, -⟩ <;> simp_all
  have hearly := fatFilePread_early (v := s.vol.withErrno e) (b := false) hle hread
  have hearly' := fatFilePread_early (v := s.vol.withErrno e) (b := true) hle hread'
  rcases hearly with ⟨hempty, rfl, rfl, herrno⟩ | ⟨c, w, hmore, hseek, hrest⟩
  · -- nothing to read
    rcases hearly' with ⟨-, rfl, rfl, herrno'⟩ | ⟨-, -, hmore', -⟩
    · rw [herrno, herrno']
      exact ⟨fun _ => hsame, fun _ _ => .nothing hempty⟩
    · exact absurd hempty hmore'
  · rcases hearly' with ⟨hempty', -⟩ | ⟨c', w', -, hseek', hrest'⟩
    · exact absurd hempty' hmore
    rw [hseek, Option.some.injEq, Prod.mk.injEq] at hseek'
    obtain ⟨rfl, rfl⟩ := hseek'
    rcases hrest with ⟨herrno, rfl, rfl, hv⟩ | ⟨hok, rem, v₁, hloop, hcount, hentry⟩
    · -- the chain is too short, or the parent's `errno` is left
      rcases hrest' with ⟨-, rfl, rfl, hv'⟩ | ⟨hok', -⟩
      · rw [hv, hv']
        refine ⟨fun _ => hsame, fun _ _ => ?_⟩
        rcases he with ⟨hnone, -⟩ | ⟨-, rfl, -⟩
        · exact .noParent hnone
        · exact .seekFails hseek herrno
      · exact absurd hok' herrno
    · rcases hrest' with ⟨herrno', -⟩ | ⟨-, rem', v₁', hloop', hcount', hentry'⟩
      · exact absurd hok herrno'
      rw [hloop, Option.some.injEq, Prod.mk.injEq, Prod.mk.injEq] at hloop'
      obtain ⟨rfl, rfl, rfl⟩ := hloop'
      rcases he with ⟨-, rfl⟩ | ⟨hsome, rfl, hp⟩
      · -- a node without parent has left `EINVAL`
        rcases seekLoop_eq_some hseek with rfl | rfl <;> simp at hok
      rcases he' with ⟨hnone, -⟩ | ⟨-, -, hp'⟩
      · simp [hnone] at hsome
      obtain ⟨P, rfl⟩ := Option.isSome_iff_exists.mp hp
      obtain ⟨P', rfl⟩ := Option.isSome_iff_exists.mp hp'
      by_cases hfits : f.posInParent < slotsPerCluster t
      · have hbad : v'.errno = Errno.ebadf := writeDirEntry_readOnly rfl hfits hentry
        refine ⟨fun hcond => ?_, fun hio hreads => ?_⟩
        · cases hcond with
          | noParent hnone => simp [hnone] at hsome
          | nothing hempty => exact absurd hempty hmore
          | seekFails hseek' herrno' =>
              rw [hseek, Option.some.injEq, Prod.mk.injEq] at hseek'
              exact absurd (hseek'.2 ▸ hok) herrno'
          | slotOutside hout => omega
        · have hwio : w.io = [] := by
            rcases seekLoop_eq_some hseek with rfl | rfl <;> exact hio
          obtain ⟨rfl, hrem⟩ := preadLoop_unchanged hwio hloop
          rw [writeDirEntry_of_ioSucceeds
            (v := { v₁.withWritable true with clock := fun n => v₁.clock (n + 1) })
            ⟨rfl, hwio⟩ (by exact hfits)] at hentry'
          have hgood : v''.errno = 0 := by
            obtain rfl := Option.some.inj hentry'
            exact hok
          have hcounts := hreads.1
          rw [if_pos (by simp [hbad]), if_neg (by simp [hgood]), hbad, hcount'] at hcounts
          simp only [Errno.ebadf] at hcounts
          omega
      · -- the write is refused before it is tried
        have herrno : v'.errno = Errno.enospc := by
          rw [writeDirEntry_full (by simpa using hfits)] at hentry
          obtain rfl := Option.some.inj hentry
          rfl
        have herrno' : v''.errno = Errno.enospc := by
          rw [writeDirEntry_full (by simpa using hfits)] at hentry'
          obtain rfl := Option.some.inj hentry'
          rfl
        rw [herrno, herrno']
        rw [if_pos (by simp), if_pos (by simp)]
        exact ⟨fun _ => hsame, fun _ _ => .slotOutside (by omega)⟩

/-! ## A volume with a log -/

/-- The root, at cluster 2, holds the file `a` of one byte at cluster 4 and a volume
label; the log directory is at cluster 3 and the log at cluster 5. -/
def loggedImage : Volume :=
  { smallVolume [fatClusterEndOfChainMax, fatClusterBadSector, fatClusterEndOfChainMax,
      fatClusterEndOfChainMax] with
    disk := placeBytes (entryBytes [0x61] [] fileAttributeArchive 4 1 ++
        entryBytes [0x76] [] fileAttributeVolume 0 0) 256
      (placeBytes (entryBytes [0x66, 0x73] [0x6c, 0x6f, 0x67] fileAttributeArchive 5 0) 384
        (placeBytes [0x41] 512 fun _ => 0)) }

/-- The image was mounted and its root directory listed. -/
def listedImage : Option FsState :=
  (initFileTree loggedImage 2).bind fun s =>
    (fatFuseReaddir quadTable plainEnv s (fun _ _ => false) 0).map fun r => r.2.2

/-- A read of the byte of `/a` returns 1 on the one mount and `-EBADF` on the other. -/
theorem read_fails_readOnly :
    ∃ s b b' s₁ s₂, listedImage = some s ∧
      fatFuseRead quadTable plainEnv (s.mountedWith false) (fun _ => 0) 1 0 1 =
        some (- Errno.ebadf, b, s₁) ∧
      fatFuseRead quadTable plainEnv (s.mountedWith true) (fun _ => 0) 1 0 1 =
        some (1, b', s₂) ∧
      ¬ SameRead (- Errno.ebadf) b 1 b' := by
  have hreads : listedImage.bind (fun s =>
      (fatFuseRead quadTable plainEnv (s.mountedWith false) (fun _ => 0) 1 0 1).bind fun r =>
        (fatFuseRead quadTable plainEnv (s.mountedWith true) (fun _ => 0) 1 0 1).map fun r' =>
          (r.1, r'.1)) = some (- Errno.ebadf, 1) := by
    rfl
  simp only [Option.bind_eq_some_iff, Option.map_eq_some_iff, Prod.exists,
    Prod.mk.injEq] at hreads
  obtain ⟨s, hs, _, b, s₁, hro, _, b', s₂, hrw, rfl, rfl⟩ := hreads
  exact ⟨s, b, b', s₁, s₂, hs, hro, hrw, fun hsame => absurd hsame.1 (by decide)⟩

/-- Reading behind the byte of `/a` is the same on both mounts. -/
theorem read_end_readOnly :
    ∃ s b b' s₁ s₂ n f, listedImage = some s ∧ HandleAt s 1 n f ∧
      fatFuseRead quadTable plainEnv (s.mountedWith false) (fun _ => 0) 10 1 1 =
        some (0, b, s₁) ∧
      fatFuseRead quadTable plainEnv (s.mountedWith true) (fun _ => 0) 10 1 1 =
        some (0, b', s₂) ∧
      SameRead 0 b 0 b' ∧ ReadWithoutWrite quadTable s n f 10 1 := by
  have hreads : listedImage.bind (fun s =>
      (fatFuseRead quadTable plainEnv (s.mountedWith false) (fun _ => 0) 10 1 1).bind fun r =>
        (fatFuseRead quadTable plainEnv (s.mountedWith true) (fun _ => 0) 10 1 1).bind fun r' =>
          (s.nodes.get 1).bind fun n => (s.files.get n.data).map fun f =>
            (r.1, r'.1, s.vol.io, f.dentry.fileSize)) = some (0, 0, [], 1) := by
    decide +kernel
  simp only [Option.bind_eq_some_iff, Option.map_eq_some_iff, Prod.exists,
    Prod.mk.injEq] at hreads
  obtain ⟨s, hs, _, b, s₁, hro, _, b', s₂, hrw, n, hn, f, hf, rfl, rfl, hio, hsize⟩ :=
    hreads
  have hboth := read_readOnly_iff ⟨hn, hf⟩ hsize.ge hro hrw
  have hsame := hboth.1 (.nothing (by simp [readSize, hsize]))
  exact ⟨s, b, b', s₁, s₂, n, f, hs, ⟨hn, hf⟩, hro, hrw, hsame, hboth.2 hio hsame⟩

end SistOp.FatFuse
