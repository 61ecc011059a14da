import SistOp.FilePwrite
import SistOp.FailedCreation
import Mathlib.Tactic

/-!
# Writes and the `errno` they find

A step that runs with every value of `errno` either behaves alike for all of them
or hands each value on (`ErrnoBehaviour`).  The search for the first cluster of a
write is such a step, and what it hands on decides the write.
-/

namespace SistOp.FatFuse

open ByteStore

variable {t : FatTable}

def Volume.withErrno (v : Volume) (e : ℤ) : Volume := { v with errno := e }

@[simp] theorem Volume.errno_withErrno (v : Volume) (e : ℤ) :
    (v.withErrno e).errno = e := rfl

theorem setErrno_vol (s : FsState) (e : ℤ) : (s.setErrno e).vol = s.vol.withErrno e := rfl

/-- How a step that ends in a cluster and a volume depends on `errno`. -/
inductive ErrnoBehaviour (step : ℤ → Option (ℕ × Volume)) : Prop
  | faults (h : ∀ e, step e = none) : ErrnoBehaviour step
  | fails (w : Volume) (hw : w.errno ≠ 0) (h : ∀ e, ∃ c, step e = some (c, w)) :
      ErrnoBehaviour step
  | passes (w : Volume) (h : ∀ e, ∃ c, step e = some (c, w.withErrno e)) :
      ErrnoBehaviour step

/-! ## The steps of the search -/

theorem seekLoop_errno (v : Volume) (positions cluster : ℕ) :
    (∀ e, fatTableSeekLoop t (v.withErrno e) positions cluster = none) ∨
      (∀ e, fatTableSeekLoop t (v.withErrno e) positions cluster =
        some (0, v.withErrno Errno.eoverflow)) ∨
      ∃ c, ∀ e, fatTableSeekLoop t (v.withErrno e) positions cluster =
        some (c, v.withErrno e) := by
  induction positions generalizing cluster with
  | zero => exact Or.inr (Or.inr ⟨cluster, fun e => rfl⟩)
  | succ positions ih =>
      by_cases hend : cluster = fatClusterEndOfChainMax
      · right; left
        intro e
        simp [fatTableSeekLoop, hend, Volume.withErrno]
      · have hstep : ∀ e, fatTableSeekLoop t (v.withErrno e) (positions + 1) cluster =
            (fatTableGetNextCluster t v cluster).bind fun next =>
              fatTableSeekLoop t (v.withErrno e) positions next := by
          intro e
          simp only [fatTableSeekLoop, if_neg hend, Option.bind_eq_bind]
          rfl
        cases hnext : fatTableGetNextCluster t v cluster with
        | none => exact Or.inl fun e => by rw [hstep, hnext, Option.bind_none]
        | some next =>
            simp only [hnext, Option.bind_some] at hstep
            simp only [hstep]
            exact ih next

theorem pwrite_errno (v : Volume) (buf : ℤ → UInt8) (count offset : ℕ) :
    (∃ w, ∀ e, pwrite (v.withErrno e) buf count offset = (-1, w)) ∨
      ∃ r w, ∀ e, pwrite (v.withErrno e) buf count offset = (r, Volume.withErrno w e) := by
  have hoff : ¬ ((offset : ℤ) < 0) := by omega
  by_cases hwritable : v.writable = false
  · exact Or.inl ⟨v.withErrno Errno.ebadf, fun e => by
      simp [pwrite, Volume.withErrno, hwritable]⟩
  · cases hcall : v.io with
    | nil =>
        refine Or.inr ⟨count, { v with disk := store v.disk offset count fun i => buf i },
          fun e => ?_⟩
        simp [pwrite, Volume.withErrno, hwritable, hoff, hcall]
    | cons outcome rest =>
        cases outcome with
        | error x =>
            refine Or.inl ⟨{ v with errno := (x : ℕ), io := rest }, fun e => ?_⟩
            simp [pwrite, Volume.withErrno, hwritable, hoff, hcall]
        | bytes n =>
            refine Or.inr ⟨min n count, { v with
              disk := store v.disk offset (min n count) fun i => buf i
              io := rest }, fun e => ?_⟩
            simp [pwrite, Volume.withErrno, hwritable, hoff, hcall]

theorem setNextCluster_errno (v : Volume) (cur next : ℕ) :
    (∀ e, fatTableSetNextCluster t (v.withErrno e) cur next = none) ∨
      (∃ w : Volume, w.errno = Errno.eio ∧
        ∀ e, fatTableSetNextCluster t (v.withErrno e) cur next = some w) ∨
      ∃ w : Volume, ∀ e,
        fatTableSetNextCluster t (v.withErrno e) cur next = some (w.withErrno e) := by
  rcases pwrite_errno v (fun i => leByte next i.toNat) 4 (cur * 4 % 2 ^ 32 + t.fatOffset)
    with ⟨w, hwrite⟩ | ⟨r, w, hwrite⟩
  · refine Or.inr (Or.inl ⟨w.withErrno Errno.eio, rfl, fun e => ?_⟩)
    simp only [fatTableSetNextCluster, hwrite]
    rfl
  · by_cases hr : r ≤ 0
    · refine Or.inr (Or.inl ⟨w.withErrno Errno.eio, rfl, fun e => ?_⟩)
      simp only [fatTableSetNextCluster, hwrite, if_pos hr]
      rfl
    · by_cases hbound : cur < t.fatEntries
      · refine Or.inr (Or.inr
          ⟨{ w with fatMap := Function.update w.fatMap cur next }, fun e => ?_⟩)
        simp only [fatTableSetNextCluster, hwrite, if_neg hr, if_pos hbound]
        rfl
      · refine Or.inl fun e => ?_
        simp only [fatTableSetNextCluster, hwrite, if_neg hr, if_neg hbound]

theorem nextOrNewCluster_errno (v : Volume) (last : ℕ) :
    ErrnoBehaviour fun e => nextOrNewCluster t (v.withErrno e) last := by
  have hnext : ∀ e, fatTableGetNextCluster t (v.withErrno e) last =
      fatTableGetNextCluster t v last := fun _ => rfl
  have hfree : ∀ e, fatTableGetNextFreeCluster t (v.withErrno e) =
      fatTableGetNextFreeCluster t v := fun _ => getNextFreeCluster_congr rfl
  simp only [nextOrNewCluster, hnext, hfree]
  cases fatTableGetNextCluster t v last with
  | none => exact .faults fun _ => rfl
  | some next =>
      simp only [Option.bind_eq_bind, Option.bind_some]
      by_cases hend : fatTableClusterIsEOC next
      · simp only [if_pos hend]
        cases fatTableGetNextFreeCluster t v with
        | none => exact .faults fun _ => rfl
        | some new =>
            simp only [Option.bind_some]
            by_cases hfull : fatTableClusterIsEOC new
            · simp only [if_pos hfull]
              exact .fails (v.withErrno Errno.eio) (by simp) fun _ => ⟨0, rfl⟩
            · simp only [if_neg hfull]
              rcases setNextCluster_errno (t := t) v last new with
                hfault | ⟨w, hw, hset⟩ | ⟨w, hset⟩
              · exact .faults fun e => by rw [hfault, Option.bind_none]
              · -- the second update keeps the error of the first
                have heq : w = w.withErrno Errno.eio := by rw [← hw]; rfl
                rcases setNextCluster_errno (t := t) w new fatClusterEndOfChainMax with
                  hfault | ⟨w', hw', hset'⟩ | ⟨w', hset'⟩
                · exact .faults fun e => by
                    rw [hset, Option.bind_some, heq, hfault, Option.bind_none]
                · refine .fails w' (by simp [hw']) fun e => ⟨0, ?_⟩
                  rw [hset, Option.bind_some, heq, hset', Option.bind_some,
                    if_pos (by simp [hw'])]
                · refine .fails (w'.withErrno Errno.eio) (by simp) fun e => ⟨0, ?_⟩
                  rw [hset, Option.bind_some, heq, hset', Option.bind_some,
                    if_pos (by simp)]
              · rcases setNextCluster_errno (t := t) w new fatClusterEndOfChainMax with
                  hfault | ⟨w', hw', hset'⟩ | ⟨w', hset'⟩
                · exact .faults fun e => by
                    rw [hset, Option.bind_some, hfault, Option.bind_none]
                · refine .fails w' (by simp [hw']) fun e => ⟨0, ?_⟩
                  rw [hset, Option.bind_some, hset', Option.bind_some,
                    if_pos (by simp [hw'])]
                · refine .passes w' fun e => ?_
                  rw [hset, Option.bind_some, hset', Option.bind_some,
                    Volume.errno_withErrno]
                  by_cases he : e = 0
                  · exact ⟨new, by rw [if_neg (by simpa using he)]⟩
                  · exact ⟨0, by rw [if_pos he]⟩
      · simp only [if_neg hend]
        exact .passes v fun _ => ⟨next, rfl⟩

/-- The search for the first cluster of a write. -/
theorem pwriteFirstCluster_errno (v : Volume) (file : FatFile) (offset : ℕ) :
    ErrnoBehaviour fun e => pwriteFirstCluster t (v.withErrno e) file offset := by
  obtain ⟨start, hstart⟩ : ∃ start, (if offset ≠ 0 then offset - 1 else 0) = start :=
    ⟨_, rfl⟩
  simp only [pwriteFirstCluster, fatTableSeekCluster, hstart]
  rcases seekLoop_errno (t := t) v ((start >>> t.clusterOrder) % 2 ^ 32)
    file.startCluster with hseek | hseek | ⟨c, hseek⟩
  · exact .faults fun e => by rw [hseek]; rfl
  · refine .fails (v.withErrno Errno.eoverflow) (by simp) fun e => ⟨0, ?_⟩
    simp only [hseek, Option.bind_eq_bind, Option.bind_some]
    rw [if_neg (by simp)]
  · simp only [hseek, Option.bind_eq_bind, Option.bind_some]
    by_cases hboundary : offset % fatTableBytesPerCluster t = 0 ∧ c ≠ 0 ∧ offset ≠ 0
    · simp only [if_pos hboundary]
      exact nextOrNewCluster_errno v c
    · simp only [if_neg hboundary]
      exact .passes v fun _ => ⟨c, rfl⟩

/-! ## Writes -/

/-- From `errno` 0 the search for the first cluster of a write succeeds: the chain
reaches the offset, or a cluster can be linked behind its end. -/
def PositionReached (t : FatTable) (v : Volume) (file : FatFile) (offset : ℕ) : Prop :=
  ∃ c w, pwriteFirstCluster t (v.withErrno 0) file offset = some (c, w) ∧ w.errno = 0

/-- A write that does not reach its position does the same for every `errno`. -/
theorem fatFilePwrite_of_not_reached {v : Volume} {file : FatFile} {offset : ℕ}
    (hle : offset ≤ file.dentry.fileSize) (h : ¬ PositionReached t v file offset)
    (buf : ℤ → UInt8) (size : ℕ) (parent : Option FatFile) :
    (∀ e, fatFilePwrite t (v.withErrno e) file buf size offset parent = none) ∨
      ∃ r w, ∀ e, fatFilePwrite t (v.withErrno e) file buf size offset parent =
        some (r, file, w) := by
  cases pwriteFirstCluster_errno (t := t) v file offset with
  | faults hfirst =>
      refine Or.inl fun e => ?_
      rw [fatFilePwrite, if_neg (by omega), hfirst]
      rfl
  | fails w hw hfirst =>
      refine Or.inr ⟨- w.errno, w, fun e => ?_⟩
      obtain ⟨c, hc⟩ := hfirst e
      exact fatFilePwrite_of_error hle hc hw
  | passes w hfirst =>
      obtain ⟨c, hc⟩ := hfirst 0
      exact absurd ⟨c, _, hc, rfl⟩ h

/-- A write that reaches its position returns a stale `errno` and writes nothing. -/
theorem fatFilePwrite_of_reached {v : Volume} {file : FatFile} {offset : ℕ}
    (hle : offset ≤ file.dentry.fileSize) (h : PositionReached t v file offset)
    (buf : ℤ → UInt8) (size : ℕ) (parent : Option FatFile) :
    ∃ w, ∀ e, e ≠ 0 → fatFilePwrite t (v.withErrno e) file buf size offset parent =
      some (- e, file, Volume.withErrno w e) := by
  obtain ⟨c₀, w₀, hreach, hw₀⟩ := h
  cases pwriteFirstCluster_errno (t := t) v file offset with
  | faults hfirst => simp [hfirst 0] at hreach
  | fails w hw hfirst =>
      obtain ⟨c, hc⟩ := hfirst 0
      simp only [hreach, Option.some.injEq, Prod.mk.injEq] at hc
      exact absurd (hc.2 ▸ hw₀) hw
  | passes w hfirst =>
      refine ⟨w, fun e he => ?_⟩
      obtain ⟨c, hc⟩ := hfirst e
      exact fatFilePwrite_of_error hle hc he

/-- The same on file objects. -/
theorem pwriteFile_of_not_reached {s : FsState} {file : ℕ} {f : FatFile} {offset : ℕ}
    (hf : s.files.get file = some f) (hle : offset ≤ f.dentry.fileSize)
    (h : ¬ PositionReached t s.vol f offset) (buf : ℤ → UInt8) (size : ℕ)
    (parent : Option ℕ) :
    (∀ e, pwriteFile t (s.setErrno e) file buf size offset parent = none) ∨
      ∃ r w, ∀ e, pwriteFile t (s.setErrno e) file buf size offset parent =
        some (r, { s with vol := w }) := by
  have hfiles : ∀ e, (s.setErrno e).files = s.files := fun _ => rfl
  have hderef : ∀ e, (s.setErrno e).deref parent = s.deref parent := fun _ => rfl
  simp only [pwriteFile, hfiles, hderef, hf, setErrno_vol, Option.bind_eq_bind,
    Option.bind_some]
  cases s.deref parent with
  | none => exact Or.inl fun _ => rfl
  | some p =>
      simp only [Option.bind_some]
      rcases fatFilePwrite_of_not_reached hle h buf size p with hfault | ⟨r, w, hwrite⟩
      · exact Or.inl fun e => by rw [hfault, Option.bind_none]
      · refine Or.inr ⟨r, w, fun e => ?_⟩
        simp only [hwrite, Option.bind_some, Heap.write_same hf]
        rfl

theorem pwriteFile_of_reached {s : FsState} {file : ℕ} {f : FatFile} {offset : ℕ}
    (hf : s.files.get file = some f) (hle : offset ≤ f.dentry.fileSize)
    (h : PositionReached t s.vol f offset) (buf : ℤ → UInt8) (size : ℕ)
    {parent : Option ℕ} {p : Option FatFile} (hp : s.deref parent = some p) :
    ∃ w, ∀ e, e ≠ 0 → pwriteFile t (s.setErrno e) file buf size offset parent =
      some (- e, ({ s with vol := w } : FsState).setErrno e) := by
  have hfiles : ∀ e, (s.setErrno e).files = s.files := fun _ => rfl
  have hderef : ∀ e, (s.setErrno e).deref parent = s.deref parent := fun _ => rfl
  obtain ⟨w, hwrite⟩ := fatFilePwrite_of_reached hle h buf size p
  refine ⟨w, fun e he => ?_⟩
  simp only [pwriteFile, hfiles, hderef, hf, hp, setErrno_vol, hwrite e he,
    Option.bind_eq_bind, Option.bind_some, Heap.write_same hf]
  rfl

/-! ## Writes that reach their position -/

theorem nextOrNewCluster_later {v v' : Volume} {last c : ℕ}
    (h : nextOrNewCluster t v last = some (c, v')) : v.Later v' := by
  simp only [nextOrNewCluster, Option.bind_eq_bind, Option.bind_eq_some_iff] at h
  obtain ⟨next, -, h⟩ := h
  split at h
  · obtain ⟨new, -, h⟩ := Option.bind_eq_some_iff.mp h
    split at h
    · simp only [Option.some.injEq, Prod.mk.injEq] at h
      obtain ⟨-, rfl⟩ := h
      exact Volume.Later.refl v
    · simp only [Option.bind_eq_some_iff] at h
      obtain ⟨v₁, hset₁, v₂, hset₂, h⟩ := h
      have hlater := (setNextCluster_cases hset₁).1.trans (setNextCluster_cases hset₂).1
      split at h <;> simp only [Option.some.injEq, Prod.mk.injEq] at h <;>
        obtain ⟨-, rfl⟩ := h <;> exact hlater
  · simp only [Option.some.injEq, Prod.mk.injEq] at h
    obtain ⟨-, rfl⟩ := h
    exact Volume.Later.refl v

theorem seekLoop_later {v v' : Volume} {positions cluster c : ℕ}
    (h : fatTableSeekLoop t v positions cluster = some (c, v')) : v.Later v' := by
  induction positions generalizing cluster with
  | zero =>
      simp only [fatTableSeekLoop, Option.some.injEq, Prod.mk.injEq] at h
      obtain ⟨-, rfl⟩ := h
      exact Volume.Later.refl v
  | succ positions ih =>
      unfold fatTableSeekLoop at h
      split at h
      · simp only [Option.some.injEq, Prod.mk.injEq] at h
        obtain ⟨-, rfl⟩ := h
        exact Volume.Later.refl v
      · obtain ⟨next, -, h⟩ := Option.bind_eq_some_iff.mp h
        exact ih h

theorem pwriteFirstCluster_later {v v' : Volume} {file : FatFile} {offset c : ℕ}
    (h : pwriteFirstCluster t v file offset = some (c, v')) : v.Later v' := by
  simp only [pwriteFirstCluster, fatTableSeekCluster, Option.bind_eq_bind,
    Option.bind_eq_some_iff, Prod.exists] at h
  obtain ⟨d, v₁, hseek, h⟩ := h
  split at h
  · exact (seekLoop_later hseek).trans (nextOrNewCluster_later h)
  · simp only [Option.some.injEq, Prod.mk.injEq] at h
    obtain ⟨-, rfl⟩ := h
    exact seekLoop_later hseek

/-- When writes succeed, the loop writes at least its first round. -/
theorem pwriteLoop_remaining (buf : ℤ → UInt8) {fuel : ℕ} {v v' : Volume}
    {pos cluster r off : ℕ} {rem : ℤ} (hio : v.IoSucceeds)
    (h : pwriteLoop t buf fuel v pos cluster r off = some (rem, v')) :
    0 ≤ rem ∧ rem ≤ r ∧ (0 < r → rem < r) := by
  induction fuel generalizing v pos cluster r off with
  | zero => simp [pwriteLoop] at h
  | succ fuel ih =>
      rcases Nat.eq_zero_or_pos r with rfl | hr
      · simp only [pwriteLoop, if_true, Option.some.injEq, Prod.mk.injEq] at h
        obtain ⟨rfl, -⟩ := h
        simp
      · have hround : 0 < roundLen t r off := roundLen_pos hr
        rw [pwriteLoop_round hio buf fuel pos cluster hr off] at h
        split at h
        · simp only [Option.bind_eq_bind, Option.bind_eq_some_iff, Prod.exists] at h
          obtain ⟨next, v₁, hnext, h⟩ := h
          have hio₁ := (nextOrNewCluster_later hnext).ioSucceeds
            (writeRound_ioSucceeds hio _ _ _ _ _)
          split at h
          · simp only [Option.some.injEq, Prod.mk.injEq] at h
            obtain ⟨rfl, -⟩ := h
            omega
          · have hrest := ih hio₁ h
            omega
        · simp only [Option.some.injEq, Prod.mk.injEq] at h
          obtain ⟨rfl, -⟩ := h
          omega

/-- A write behind the end of a file, from `errno` 0 and with its position reached,
changes the size. -/
theorem fatFilePwrite_grows {v v' : Volume} {file file' : FatFile} {buf : ℤ → UInt8}
    {size : ℕ} {parent : Option FatFile} {result : ℤ} (hio : v.IoSucceeds)
    (herrno : v.errno = 0) (hsize : 0 < size) (hlt : size < 2 ^ 32)
    (hreach : PositionReached t v file file.dentry.fileSize)
    (h : fatFilePwrite t v file buf size file.dentry.fileSize parent =
      some (result, file', v')) :
    file'.dentry.fileSize ≠ file.dentry.fileSize := by
  have hsame : v.withErrno 0 = v := by rw [← herrno]; rfl
  obtain ⟨c, v₁, hfirst, herrno₁⟩ := hreach
  rw [hsame] at hfirst
  have hio₁ := (pwriteFirstCluster_later hfirst).ioSucceeds hio
  have hsplit := h
  rw [fatFilePwrite, if_neg (by omega)] at hsplit
  simp only [hfirst, herrno₁, Option.bind_eq_bind, Option.bind_some, ne_eq,
    not_true_eq_false, if_false, Option.bind_eq_some_iff, Prod.exists] at hsplit
  obtain ⟨rem, v₂, hloop, -⟩ := hsplit
  obtain ⟨hrem₀, -, hless⟩ := pwriteLoop_remaining buf hio₁ hloop
  have hrem := hless hsize
  rw [fatFilePwrite_eq parent le_rfl hfirst herrno₁ hloop] at h
  simp only [Option.bind_eq_bind, Option.bind_eq_some_iff, Option.some.injEq,
    Prod.mk.injEq] at h
  obtain ⟨v₃, -, -, rfl, -⟩ := h
  have hold := file.dentry.fileSize_lt
  have hnewEnd : file.dentry.fileSize <
      sizeT ((file.dentry.fileSize : ℤ) + size - rem) := by
    unfold sizeT
    omega
  show (grownDentry v₂ file.dentry _).fileSize ≠ _
  rw [grownDentry, fileSize_fillDentryTimeNow, if_pos hnewEnd,
    FatDirEntry.fileSize_setFileSize]
  unfold sizeT at hnewEnd ⊢
  omega

/-- What `pwriteFile` has done when it returns. -/
theorem pwriteFile_eq_some {s s' : FsState} {file : ℕ} {buf : ℤ → UInt8}
    {size offset : ℕ} {parent : Option ℕ} {r : ℤ}
    (h : pwriteFile t s file buf size offset parent = some (r, s')) :
    ∃ f p f', s.files.get file = some f ∧ s.deref parent = some p ∧
      fatFilePwrite t s.vol f buf size offset p = some (r, f', s'.vol) ∧
      s.files.write file f' = some s'.files ∧ s'.nodes = s.nodes ∧
      s'.fileTree = s.fileTree := by
  simp only [pwriteFile, Option.bind_eq_bind, Option.bind_eq_some_iff, Prod.exists,
    Option.some.injEq, Prod.mk.injEq] at h
  obtain ⟨f, hf, p, hp, r', f', v', hwrite, files', hfiles, rfl, rfl⟩ := h
  exact ⟨f, p, f', hf, hp, hwrite, hfiles, rfl, rfl⟩

/-! ## The activity log -/

/-- The log file that an operation on `f` writes to. -/
structure LogTarget (s : FsState) (f : FatFile) (logNode logFile : ℕ) (log : FatFile) :
    Prop where
  other : f.filepath ≠ bbLogFile
  search : fatTreeNodeSearch s bbLogFile = some (some logNode)
  file : fatTreeGetFile s logNode = some logFile
  live : s.files.get logFile = some log
  regular : fatFileIsDirectory log = false

theorem LogTarget.found {s : FsState} {f : FatFile} {logNode logNode' logFile logFile' : ℕ}
    {log log' : FatFile} (h : LogTarget s f logNode logFile log)
    (hsearch : fatTreeNodeSearch s bbLogFile = some (some logNode'))
    (hfile : fatTreeGetFile s logNode' = some logFile')
    (hlive : s.files.get logFile' = some log') :
    logNode = logNode' ∧ logFile = logFile' ∧ log = log' := by
  obtain rfl : logNode = logNode' := by
    simpa using h.search.symm.trans hsearch
  obtain rfl : logFile = logFile' := Option.some.inj (h.file.symm.trans hfile)
  exact ⟨rfl, rfl, Option.some.inj (h.live.symm.trans hlive)⟩

/-- The state after `fat_fuse_log_activity` asked for the time. -/
def FsState.afterTime (s : FsState) : FsState := { s with vol := (time s.vol).2 }

theorem logMessage_length {env : FuseEnv} {now : ℤ} {op path message : CString}
    (h : logMessage env now op path = some message) :
    0 < message.length ∧ message.length < logMessageSize := by
  simp only [logMessage, Option.bind_eq_bind, Option.bind_eq_some_iff] at h
  obtain ⟨login, -, h⟩ := h
  split at h
  · rename_i hfits
    obtain rfl := Option.some.inj h
    exact ⟨by simp, hfits⟩
  · contradiction

/-- What logging an operation on `f` does: it faults, it does not write, or it
writes a message behind the end of the log. -/
theorem fatFuseLogActivity_errno (env : FuseEnv) (s : FsState) (op : CString) (file : ℕ)
    {f : FatFile} (hf : s.files.get file = some f) :
    (∀ e, fatFuseLogActivity t env (s.setErrno e) op file = none) ∨
      ((∀ logNode logFile log, ¬ LogTarget s f logNode logFile log) ∧
        ∀ e, ∃ r, fatFuseLogActivity t env (s.setErrno e) op file =
          some (r, s.afterTime.setErrno e)) ∨
      ∃ logNode logFile log n message, LogTarget s f logNode logFile log ∧
        s.nodes.get logNode = some n ∧
        logMessage env (s.vol.clock 0) op f.filepath = some message ∧
        ((n.hParent = none ∧ ∀ e, fatFuseLogActivity t env (s.setErrno e) op file =
            pwriteFile t (s.afterTime.setErrno Errno.einval) logFile (env.buffer message)
              message.length log.dentry.fileSize none) ∨
          ∃ p pn, n.hParent = some p ∧ s.nodes.get p = some pn ∧ ∀ e,
            fatFuseLogActivity t env (s.setErrno e) op file =
              pwriteFile t (s.afterTime.setErrno e) logFile (env.buffer message)
                message.length log.dentry.fileSize (some pn.data)) := by
  have hunfold : ∀ e, fatFuseLogActivity t env (s.setErrno e) op file =
      (logMessage env (s.vol.clock 0) op f.filepath).bind fun message =>
        if f.filepath ≠ bbLogFile then
          (fatTreeNodeSearch s bbLogFile).bind fun found =>
            found.elim (some (- e, s.afterTime.setErrno e)) fun logNode =>
              (fatTreeGetFile s logNode).bind fun logFile =>
                (s.files.get logFile).bind fun log =>
                  if fatFileIsDirectory log then
                    some (- Errno.eisdir, s.afterTime.setErrno e)
                  else
                    (fatTreeGetParent (s.afterTime.setErrno e) logNode).bind fun r =>
                      if message.length = 0 then some (0, r.2)
                      else pwriteFile t r.2 logFile (env.buffer message) message.length
                        log.dentry.fileSize r.1
        else some (0, s.afterTime.setErrno e) := by
    intro e
    have hf' : (s.setErrno e).files.get file = some f := hf
    rw [fatFuseLogActivity]
    simp only [hf', Option.bind_eq_bind, Option.bind_some]
    congr 1
    funext message
    congr 1
    congr 1
    funext found
    cases found <;> rfl
  cases hmessage : logMessage env (s.vol.clock 0) op f.filepath with
  | none => exact Or.inl fun e => by rw [hunfold, hmessage, Option.bind_none]
  | some message =>
      have hpos := (logMessage_length hmessage).1
      simp only [hunfold, hmessage, Option.bind_some]
      by_cases hother : f.filepath ≠ bbLogFile
      · simp only [if_pos hother]
        cases hsearch : fatTreeNodeSearch s bbLogFile with
        | none => exact Or.inl fun _ => rfl
        | some found =>
            cases found with
            | none =>
                refine Or.inr (Or.inl ⟨fun _ _ _ hlog => ?_, fun e => ⟨_, rfl⟩⟩)
                have hfound := hlog.search
                rw [hsearch] at hfound
                simp at hfound
            | some logNode =>
                simp only [Option.bind_some, Option.elim_some]
                cases hfile : fatTreeGetFile s logNode with
                | none => exact Or.inl fun _ => rfl
                | some logFile =>
                    simp only [Option.bind_some]
                    cases hlive : s.files.get logFile with
                    | none => exact Or.inl fun _ => rfl
                    | some log =>
                        simp only [Option.bind_some]
                        by_cases hdir : fatFileIsDirectory log = true
                        · refine Or.inr (Or.inl ⟨fun _ _ _ hlog => ?_, fun e =>
                            ⟨- Errno.eisdir, by rw [if_pos hdir]⟩⟩)
                          obtain ⟨-, -, rfl⟩ := hlog.found hsearch hfile hlive
                          exact absurd hdir (by simp [hlog.regular])
                        · have hlog : LogTarget s f logNode logFile log :=
                            ⟨hother, hsearch, hfile, hlive, by simpa using hdir⟩
                          simp only [if_neg hdir, if_neg (show ¬ message.length = 0 by omega)]
                          have hnodes : ∀ e, (s.afterTime.setErrno e).nodes = s.nodes :=
                            fun _ => rfl
                          simp only [fatTreeGetParent, hnodes]
                          cases hn : s.nodes.get logNode with
                          | none => exact Or.inl fun _ => rfl
                          | some n =>
                              cases hparent : n.hParent with
                              | none =>
                                  refine Or.inr (Or.inr ⟨logNode, logFile, log, n, message,
                                    hlog, hn, rfl, Or.inl ⟨hparent, fun e => ?_⟩⟩)
                                  simp only [Option.bind_eq_bind, Option.bind_some, hparent]
                                  rfl
                              | some p =>
                                  cases hp : s.nodes.get p with
                                  | none =>
                                      refine Or.inl fun e => ?_
                                      simp [hparent, hp]
                                  | some pn =>
                                      refine Or.inr (Or.inr ⟨logNode, logFile, log, n,
                                        message, hlog, hn, rfl,
                                        Or.inr ⟨p, pn, hparent, hp, fun e => ?_⟩⟩)
                                      simp [hparent, hp]
      · refine Or.inr (Or.inl ⟨fun _ _ _ hlog => hother hlog.other, fun e => ⟨0, ?_⟩⟩)
        rw [if_neg hother]

/-! ## `fat_fuse_write` -/

/-- What an operation returns and leaves: everything but `errno` and the outside
world. -/
def effect (r : ℤ × FsState) :
    ℤ × (ℕ → UInt8) × (ℕ → ℕ) × Heap FatFile × Heap (HNode ℕ) × Option HTree :=
  (r.1, r.2.vol.disk, r.2.vol.fatMap, r.2.files, r.2.nodes, r.2.fileTree)

def WriteIndependentOfErrno (t : FatTable) (env : FuseEnv) (s : FsState)
    (buf : ℤ → UInt8) (size offset fh : ℕ) : Prop :=
  ∀ e e', (fatFuseWrite t env (s.setErrno e) buf size offset fh).map effect =
    (fatFuseWrite t env (s.setErrno e') buf size offset fh).map effect

/-- The file that an open handle names, with its tree node. -/
structure HandleAt (s : FsState) (fh : ℕ) (n : HNode ℕ) (f : FatFile) : Prop where
  node : s.nodes.get fh = some n
  live : s.files.get n.data = some f

/-- When `fat_fuse_write` forgets the `errno` it finds, or never asks for it. -/
inductive WriteIgnoresErrno (t : FatTable) (s : FsState) (size offset fh : ℕ) : Prop
  | noParent {n : HNode ℕ} (hn : s.nodes.get fh = some n) (hparent : n.hParent = none)
  | empty (hsize : size = 0)
  | behindEnd {n : HNode ℕ} {f : FatFile} (hf : HandleAt s fh n f)
      (hoffset : f.dentry.fileSize < offset)
  | logOrphan {n ln : HNode ℕ} {f log : FatFile} {logNode logFile : ℕ}
      (hf : HandleAt s fh n f) (hlog : LogTarget s f logNode logFile log)
      (hln : s.nodes.get logNode = some ln) (hparent : ln.hParent = none)
  | logStuck {n : HNode ℕ} {f log : FatFile} {logNode logFile : ℕ}
      (hf : HandleAt s fh n f) (hlog : LogTarget s f logNode logFile log)
      (hstuck : ¬ PositionReached t s.afterTime.vol log log.dentry.fileSize)
  | stuck {n : HNode ℕ} {f : FatFile} (hf : HandleAt s fh n f)
      (hlog : ∀ logNode logFile log, ¬ LogTarget s f logNode logFile log)
      (hstuck : ¬ PositionReached t s.afterTime.vol f offset)

theorem HandleAt.unique {s : FsState} {fh : ℕ} {n n' : HNode ℕ} {f f' : FatFile}
    (h : HandleAt s fh n f) (h' : HandleAt s fh n' f') : n = n' ∧ f = f' := by
  obtain rfl := Option.some.inj (h.node.symm.trans h'.node)
  exact ⟨rfl, Option.some.inj (h.live.symm.trans h'.live)⟩

/-- The write of a file with a parent: the log, then the file. -/
theorem fatFuseWrite_eq (env : FuseEnv) {s : FsState} {buf : ℤ → UInt8}
    {size offset fh p : ℕ} {n pn : HNode ℕ} {f : FatFile} (hf : HandleAt s fh n f)
    (hparent : n.hParent = some p) (hp : s.nodes.get p = some pn) (hsize : size ≠ 0)
    (hoffset : offset ≤ f.dentry.fileSize) :
    fatFuseWrite t env s buf size offset fh =
      (fatFuseLogActivity t env s opWrite n.data).bind fun r =>
        pwriteFile t r.2 n.data buf size offset (some pn.data) := by
  simp only [fatFuseWrite, fatTreeGetFile, fatTreeGetParent, hf.node, hf.live, hparent, hp,
    Option.bind_eq_bind, Option.bind_some, if_neg hsize,
    if_neg (show ¬ f.dentry.fileSize < offset by omega)]

theorem HandleAt.setErrno {s : FsState} {fh : ℕ} {n : HNode ℕ} {f : FatFile}
    (h : HandleAt s fh n f) (e : ℤ) : HandleAt (s.setErrno e) fh n f :=
  ⟨h.node, h.live⟩

theorem fatFuseWrite_noParent (env : FuseEnv) {s : FsState} (buf : ℤ → UInt8)
    (size offset : ℕ) {fh : ℕ} {n : HNode ℕ} (hn : s.nodes.get fh = some n)
    (hparent : n.hParent = none) (e e' : ℤ) :
    fatFuseWrite t env (s.setErrno e) buf size offset fh =
      fatFuseWrite t env (s.setErrno e') buf size offset fh := by
  have hnodes : ∀ e, (s.setErrno e).nodes.get fh = some n := fun _ => hn
  simp only [fatFuseWrite, fatTreeGetFile, fatTreeGetParent, hnodes, hparent,
    Option.bind_eq_bind, Option.bind_some]
  rfl

/-- A write that does not get as far as the log does the same for every `errno`. -/
theorem fatFuseWrite_cases (t : FatTable) (env : FuseEnv) (s : FsState) (buf : ℤ → UInt8)
    (size offset fh : ℕ) :
    (∀ e, fatFuseWrite t env (s.setErrno e) buf size offset fh = none) ∨
      (WriteIgnoresErrno t s size offset fh ∧
        WriteIndependentOfErrno t env s buf size offset fh) ∨
      ∃ n f p pn, HandleAt s fh n f ∧ n.hParent = some p ∧ s.nodes.get p = some pn ∧
        size ≠ 0 ∧ offset ≤ f.dentry.fileSize := by
  have hnodes : ∀ e, (s.setErrno e).nodes = s.nodes := fun _ => rfl
  have hfiles : ∀ e, (s.setErrno e).files = s.files := fun _ => rfl
  cases hn : s.nodes.get fh with
  | none => exact Or.inl fun e => by simp [fatFuseWrite, fatTreeGetFile, hnodes, hn]
  | some n =>
      cases hparent : n.hParent with
      | none =>
          refine Or.inr (Or.inl ⟨.noParent hn hparent, fun e e' => ?_⟩)
          rw [fatFuseWrite_noParent env buf size offset hn hparent e e']
      | some p =>
          cases hp : s.nodes.get p with
          | none =>
              exact Or.inl fun e => by
                simp [fatFuseWrite, fatTreeGetFile, fatTreeGetParent, hnodes, hn, hparent, hp]
          | some pn =>
              by_cases hsize : size = 0
              · refine Or.inr (Or.inl ⟨.empty hsize, fun e e' => ?_⟩)
                simp only [fatFuseWrite, fatTreeGetFile, fatTreeGetParent, hnodes, hn,
                  hparent, hp, hsize, Option.bind_eq_bind, Option.bind_some, if_true]
                rfl
              · cases hf : s.files.get n.data with
                | none =>
                    exact Or.inl fun e => by
                      simp [fatFuseWrite, fatTreeGetFile, fatTreeGetParent, hnodes, hfiles,
                        hn, hparent, hp, hsize, hf]
                | some f =>
                    by_cases hoffset : f.dentry.fileSize < offset
                    · refine Or.inr (Or.inl ⟨.behindEnd ⟨hn, hf⟩ hoffset, fun e e' => ?_⟩)
                      simp only [fatFuseWrite, fatTreeGetFile, fatTreeGetParent, hnodes,
                        hfiles, hn, hparent, hp, hsize, hf, Option.bind_eq_bind,
                        Option.bind_some, if_false, if_pos hoffset]
                      rfl
                    · exact Or.inr (Or.inr
                        ⟨n, f, p, pn, ⟨hn, hf⟩, hparent, hp, hsize, by omega⟩)

/-- Where the handle, the parent and the position are in order, the log and the
search for the first cluster decide. -/
theorem writeIndependent_of_ignores {env : FuseEnv} {s : FsState} {buf : ℤ → UInt8}
    {size offset fh : ℕ} (h : WriteIgnoresErrno t s size offset fh) :
    WriteIndependentOfErrno t env s buf size offset fh := by
  rcases fatFuseWrite_cases t env s buf size offset fh with
    hfault | ⟨-, hdone⟩ | ⟨n, f, p, pn, hf, hparent, hp, hsize, hoffset⟩
  · exact fun e e' => by rw [hfault, hfault]
  · exact hdone
  have hwrite : ∀ e, fatFuseWrite t env (s.setErrno e) buf size offset fh =
      (fatFuseLogActivity t env (s.setErrno e) opWrite n.data).bind fun r =>
        pwriteFile t r.2 n.data buf size offset (some pn.data) := fun e =>
    fatFuseWrite_eq env (hf.setErrno e) hparent hp hsize hoffset
  -- a log that ends alike for every `errno` leaves the same state to the write
  have hsameLog : (∀ e e', fatFuseLogActivity t env (s.setErrno e) opWrite n.data =
      fatFuseLogActivity t env (s.setErrno e') opWrite n.data) →
      WriteIndependentOfErrno t env s buf size offset fh := by
    intro hsame e e'
    rw [hwrite, hwrite, hsame e e']
  rcases fatFuseLogActivity_errno (t := t) env s opWrite n.data hf.live with
    hfault | ⟨hnone, hkept⟩ |
      ⟨logNode, logFile, log, ln, message, hlog, hln, -, ⟨horphan, hlogged⟩ |
        ⟨q, qn, hsome, -, hlogged⟩⟩
  · exact hsameLog fun e e' => by rw [hfault, hfault]
  · -- nothing is logged
    have hstuck : ¬ PositionReached t s.afterTime.vol f offset := by
      cases h with
      | noParent hn hnone' =>
          obtain rfl := Option.some.inj (hn.symm.trans hf.node)
          simp [hnone'] at hparent
      | empty hzero => exact absurd hzero hsize
      | behindEnd hf' hbehind =>
          obtain ⟨-, rfl⟩ := hf'.unique hf
          omega
      | logOrphan hf' hlog =>
          obtain ⟨-, rfl⟩ := hf'.unique hf
          exact absurd hlog (hnone _ _ _)
      | logStuck hf' hlog =>
          obtain ⟨-, rfl⟩ := hf'.unique hf
          exact absurd hlog (hnone _ _ _)
      | stuck hf' _ hstuck =>
          obtain ⟨-, rfl⟩ := hf'.unique hf
          exact hstuck
    intro e e'
    obtain ⟨r, hr⟩ := hkept e
    obtain ⟨r', hr'⟩ := hkept e'
    rw [hwrite, hwrite, hr, hr', Option.bind_some, Option.bind_some]
    rcases pwriteFile_of_not_reached (s := s.afterTime) hf.live hoffset hstuck buf size
      (some pn.data) with hfault | ⟨x, w, hend⟩
    · rw [hfault, hfault]
    · rw [hend, hend]
  · exact hsameLog fun e e' => by rw [hlogged, hlogged]
  · have hstuck : ¬ PositionReached t s.afterTime.vol log log.dentry.fileSize := by
      cases h with
      | noParent hn hnone' =>
          obtain rfl := Option.some.inj (hn.symm.trans hf.node)
          simp [hnone'] at hparent
      | empty hzero => exact absurd hzero hsize
      | behindEnd hf' hbehind =>
          obtain ⟨-, rfl⟩ := hf'.unique hf
          omega
      | logOrphan hf' hlog' hln' hnone' =>
          obtain ⟨-, rfl⟩ := hf'.unique hf
          obtain ⟨rfl, -, -⟩ := hlog.found hlog'.search hlog'.file hlog'.live
          obtain rfl := Option.some.inj (hln.symm.trans hln')
          simp [hnone'] at hsome
      | logStuck hf' hlog' hstuck =>
          obtain ⟨-, rfl⟩ := hf'.unique hf
          obtain ⟨-, -, rfl⟩ := hlog.found hlog'.search hlog'.file hlog'.live
          exact hstuck
      | stuck hf' hnone' =>
          obtain ⟨-, rfl⟩ := hf'.unique hf
          exact absurd hlog (hnone' _ _ _)
    apply hsameLog
    intro e e'
    rw [hlogged, hlogged]
    rcases pwriteFile_of_not_reached (s := s.afterTime) hlog.live le_rfl hstuck
      (env.buffer message) message.length (some qn.data) with hfault | ⟨x, w, hend⟩
    · rw [hfault, hfault]
    · rw [hend, hend]

/-- When a write reaches its position, two stale values of `errno` give two
results. -/
theorem pwriteFile_results_differ {s : FsState} {file : ℕ} {f : FatFile} {offset : ℕ}
    (hf : s.files.get file = some f) (hle : offset ≤ f.dentry.fileSize)
    (h : PositionReached t s.vol f offset) (buf : ℤ → UInt8) (size : ℕ)
    {parent : Option ℕ} {p : Option FatFile} (hp : s.deref parent = some p) :
    (pwriteFile t (s.setErrno Errno.enoent) file buf size offset parent).map effect ≠
      (pwriteFile t (s.setErrno Errno.einval) file buf size offset parent).map effect := by
  obtain ⟨w, hwrite⟩ := pwriteFile_of_reached hf hle h buf size hp
  rw [hwrite _ (by decide), hwrite _ (by decide)]
  simp [effect]

/-- A write that returns from `errno` 0 and does not depend on `errno` ignores it. -/
theorem writeIgnores_of_independent {env : FuseEnv} {s s' : FsState} {buf : ℤ → UInt8}
    {size offset fh : ℕ} {r : ℤ} (hio : s.vol.IoSucceeds)
    (hreturns : fatFuseWrite t env (s.setErrno 0) buf size offset fh = some (r, s'))
    (hind : WriteIndependentOfErrno t env s buf size offset fh) :
    WriteIgnoresErrno t s size offset fh := by
  rcases fatFuseWrite_cases t env s buf size offset fh with
    hfault | ⟨hdone, -⟩ | ⟨n, f, p, pn, hf, hparent, hp, hsize, hoffset⟩
  · simp [hfault] at hreturns
  · exact hdone
  have hwrite : ∀ e, fatFuseWrite t env (s.setErrno e) buf size offset fh =
      (fatFuseLogActivity t env (s.setErrno e) opWrite n.data).bind fun r =>
        pwriteFile t r.2 n.data buf size offset (some pn.data) := fun e =>
    fatFuseWrite_eq env (hf.setErrno e) hparent hp hsize hoffset
  rw [hwrite, Option.bind_eq_some_iff] at hreturns
  obtain ⟨⟨r₁, s₁⟩, hlog₀, hmain⟩ := hreturns
  obtain ⟨f₁, parent, f₁', hf₁, hderef, -, hfiles, -, -⟩ := pwriteFile_eq_some hmain
  rcases fatFuseLogActivity_errno (t := t) env s opWrite n.data hf.live with
    hfault | ⟨hnone, hkept⟩ |
      ⟨logNode, logFile, log, ln, message, hlog, hln, hmessage, ⟨horphan, -⟩ |
        ⟨q, qn, -, -, hlogged⟩⟩
  · simp [hfault] at hlog₀
  · -- the write itself finds the stale value
    by_cases hreach : PositionReached t s.afterTime.vol f offset
    · obtain ⟨x, hx⟩ := hkept Errno.enoent
      obtain ⟨y, hy⟩ := hkept Errno.einval
      obtain ⟨z, hz⟩ := hkept 0
      rw [hz, Option.some.injEq, Prod.mk.injEq] at hlog₀
      obtain ⟨-, rfl⟩ := hlog₀
      have hsame := hind Errno.enoent Errno.einval
      rw [hwrite, hwrite, hx, hy, Option.bind_some, Option.bind_some] at hsame
      exact absurd hsame (pwriteFile_results_differ (s := s.afterTime) hf.live hoffset
        hreach buf size hderef)
    · exact .stuck hf hnone hreach
  · exact .logOrphan hf hlog hln horphan
  · by_cases hreach : PositionReached t s.afterTime.vol log log.dentry.fileSize
    · -- from `errno` 0 the log grows, from a stale value it does not
      obtain ⟨hpos, hshort⟩ := logMessage_length hmessage
      rw [hlogged] at hlog₀
      obtain ⟨log₁, q₁, log', hlog₁, hq, hgrow, hlogFiles, -, -⟩ := pwriteFile_eq_some hlog₀
      obtain rfl : log₁ = log := Option.some.inj (hlog₁.symm.trans hlog.live)
      have hsizes := fatFilePwrite_grows (v := (s.afterTime.setErrno 0).vol) hio rfl hpos
        (by simp only [logMessageSize] at hshort; omega) hreach hgrow
      have hne : logFile ≠ n.data := by
        rintro rfl
        obtain ⟨ln', log₂, hln', hlog₂, hpath⟩ := fatTreeNodeSearch_found hlog.search
        obtain rfl := Option.some.inj (hln.symm.trans hln')
        have hdata : ln.data = n.data := by simpa [fatTreeGetFile, hln] using hlog.file
        rw [hdata, hf.live] at hlog₂
        exact hlog.other (Option.some.inj hlog₂ ▸ hpath)
      have hafter : s'.files.get logFile = some log' := by
        obtain ⟨-, -, -, hothers⟩ := Heap.write_eq_some hfiles
        obtain ⟨-, -, hself, -⟩ := Heap.write_eq_some hlogFiles
        rw [hothers logFile hne, hself]
      obtain ⟨w, hstale⟩ := pwriteFile_of_reached (s := s.afterTime) hlog.live le_rfl hreach
        (env.buffer message) message.length
        (show s.afterTime.deref (some qn.data) = some q₁ from hq)
      have hwriteStale : ∀ e, e ≠ 0 → fatFuseWrite t env (s.setErrno e) buf size offset fh =
          pwriteFile t (({ s.afterTime with vol := w } : FsState).setErrno e) n.data buf size
            offset (some pn.data) := by
        intro e he
        rw [hwrite, hlogged, hstale e he, Option.bind_some]
      have hzero : fatFuseWrite t env (s.setErrno 0) buf size offset fh = some (r, s') := by
        rw [hwrite, hlogged, hlog₀, Option.bind_some]
        exact hmain
      have hsame := hind Errno.enoent 0
      rw [hzero, Option.map_some, Option.map_eq_some_iff] at hsame
      obtain ⟨⟨r₂, s₂⟩, hrun, heffect⟩ := hsame
      by_cases hmainReach : PositionReached t w f offset
      · have hrun' := hrun
        rw [hwriteStale _ (by decide)] at hrun'
        obtain ⟨-, p₂, -, -, hderef₂, -⟩ := pwriteFile_eq_some hrun'
        have hdiffer := hind Errno.enoent Errno.einval
        rw [hwriteStale _ (by decide), hwriteStale _ (by decide)] at hdiffer
        exact absurd hdiffer (pwriteFile_results_differ
          (s := { s.afterTime with vol := w }) hf.live hoffset hmainReach buf size hderef₂)
      · rw [hwriteStale _ (by decide)] at hrun
        rcases pwriteFile_of_not_reached (s := { s.afterTime with vol := w }) hf.live hoffset
          hmainReach buf size (some pn.data) with hfault | ⟨x, w', hend⟩
        · simp [hfault] at hrun
        · rw [hend, Option.some.injEq, Prod.mk.injEq] at hrun
          obtain ⟨-, rfl⟩ := hrun
          simp only [effect, Prod.mk.injEq] at heffect
          have hfilesSame : s.files = s'.files := heffect.2.2.2.1
          rw [← hfilesSame, hlog.live] at hafter
          exact absurd (Option.some.inj hafter ▸ rfl) hsizes
    · exact .logStuck hf hlog hreach

/-- A write does not depend on the `errno` it finds when it ignores it, and only then
when writes succeed and it returns from `errno` 0. -/
theorem write_independent_iff (t : FatTable) (env : FuseEnv) (s : FsState)
    (buf : ℤ → UInt8) (size offset fh : ℕ) :
    (WriteIgnoresErrno t s size offset fh →
        WriteIndependentOfErrno t env s buf size offset fh) ∧
      (s.vol.IoSucceeds →
        fatFuseWrite t env (s.setErrno 0) buf size offset fh ≠ none →
        WriteIndependentOfErrno t env s buf size offset fh →
        WriteIgnoresErrno t s size offset fh) := by
  refine ⟨writeIndependent_of_ignores, fun hio hreturns hind => ?_⟩
  obtain ⟨⟨r, s'⟩, hrun⟩ := Option.ne_none_iff_exists'.mp hreturns
  exact writeIgnores_of_independent hio hrun hind

/-- A freshly mounted volume with the empty file `/a`, whose node is 1. -/
theorem exists_mountedWithA :
    ∃ mounted s, initFileTree (rootVolume 0) 2 = some mounted ∧
      fatFuseMknod smallTable mounted pathA = some (0, s) ∧
      (fatFuseGetattr s pathB).map (fun r => (r.1, r.2.errno)) =
        some (- Errno.enoent, Errno.enoent) ∧
      (fatFuseWrite smallTable plainEnv (s.setErrno Errno.enoent) (fun _ => 0) 1 0 1).map
        Prod.fst = some (- Errno.enoent) ∧
      (fatFuseWrite smallTable plainEnv (s.setErrno 0) (fun _ => 0) 1 0 1).map
        Prod.fst = some 1 ∧
      (fatFuseWrite smallTable plainEnv (s.setErrno 0) (fun _ => 0) 1 5 1).map
        Prod.fst = some (- Errno.eoverflow) ∧
      ((s.nodes.get 1).bind fun n => (s.files.get n.data).map fun f => f.dentry.fileSize) =
        some 0 ∧
      s.vol.writable = true ∧ s.vol.io = [] := by
  obtain ⟨mounted, hmounted⟩ : ∃ mounted, initFileTree (rootVolume 0) 2 = some mounted :=
    Option.isSome_iff_exists.mp (by decide)
  have hrun : (initFileTree (rootVolume 0) 2).bind (fun mounted =>
      (fatFuseMknod smallTable mounted pathA).map fun r => (r.1,
        (fatFuseGetattr r.2 pathB).map (fun r => (r.1, r.2.errno)),
        (fatFuseWrite smallTable plainEnv (r.2.setErrno Errno.enoent) (fun _ => 0) 1 0 1).map
          Prod.fst,
        (fatFuseWrite smallTable plainEnv (r.2.setErrno 0) (fun _ => 0) 1 0 1).map Prod.fst,
        (fatFuseWrite smallTable plainEnv (r.2.setErrno 0) (fun _ => 0) 1 5 1).map Prod.fst,
        (r.2.nodes.get 1).bind (fun n =>
          (r.2.files.get n.data).map fun f => f.dentry.fileSize),
        r.2.vol.writable, r.2.vol.io)) =
      some (0, some (- Errno.enoent, Errno.enoent), some (- Errno.enoent), some 1,
        some (- Errno.eoverflow), some 0, true, []) := by
    rfl
  rw [hmounted, Option.bind_some, Option.map_eq_some_iff] at hrun
  obtain ⟨⟨r, s⟩, hmknod, heq⟩ := hrun
  simp only [Prod.mk.injEq] at heq
  obtain ⟨rfl, hgetattr, hstale, hfresh, hbehind, hsize, hwritable, hio⟩ := heq
  exact ⟨mounted, s, hmounted, hmknod, hgetattr, hstale, hfresh, hbehind, hsize, hwritable,
    hio⟩

/-- After a failed `getattr` a write of one byte to `/a` returns `-ENOENT`. -/
theorem write_depends_on_errno :
    ∃ mounted s, initFileTree (rootVolume 0) 2 = some mounted ∧
      fatFuseMknod smallTable mounted pathA = some (0, s) ∧
      (fatFuseGetattr s pathB).map (fun r => (r.1, r.2.errno)) =
        some (- Errno.enoent, Errno.enoent) ∧
      ¬ WriteIndependentOfErrno smallTable plainEnv s (fun _ => 0) 1 0 1 := by
  obtain ⟨mounted, s, hmounted, hmknod, hgetattr, hstale, hfresh, -⟩ := exists_mountedWithA
  refine ⟨mounted, s, hmounted, hmknod, hgetattr, fun hind => ?_⟩
  have hsame := congrArg (Option.map Prod.fst) (hind Errno.enoent 0)
  simp only [Option.map_map] at hsame
  have hfst : Prod.fst ∘ effect = (Prod.fst : ℤ × FsState → ℤ) := rfl
  rw [hfst, hstale, hfresh] at hsame
  exact absurd hsame (by decide)

/-- A write behind the end of `/a` fails alike for every `errno`. -/
theorem write_independent_behindEnd :
    ∃ s, WriteIndependentOfErrno smallTable plainEnv s (fun _ => 0) 1 5 1 ∧
      WriteIgnoresErrno smallTable s 1 5 1 := by
  obtain ⟨-, s, -, -, -, -, -, hbehind, hsize, hwritable, hio⟩ := exists_mountedWithA
  rw [Option.bind_eq_some_iff] at hsize
  obtain ⟨n, hn, hsize⟩ := hsize
  rw [Option.map_eq_some_iff] at hsize
  obtain ⟨f, hf, hsize⟩ := hsize
  have hind := (write_independent_iff smallTable plainEnv s (fun _ => 0) 1 5 1).1
    (.behindEnd ⟨hn, hf⟩ (by omega))
  refine ⟨s, hind, ?_⟩
  apply (write_independent_iff smallTable plainEnv s (fun _ => 0) 1 5 1).2 ⟨hwritable, hio⟩
    _ hind
  intro hnone
  simp [hnone] at hbehind

end SistOp.FatFuse
