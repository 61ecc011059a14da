import SistOp.ByteStore
import Mathlib.Tactic

/-!
# The volume and its I/O (`fat_util.c`)

`Volume` is everything the driver reads and writes outside its own objects: the
bytes of the volume file, the mapped first FAT, the global `errno`, and what the
outside world does next.  `io` lists the outcomes of the coming `pread` and
`pwrite` calls; after its end every call transfers all it was asked for.
`clock` gives the values of the coming calls of `time`, and `heap` the bytes that
the coming `strdup` calls leave behind the terminator of their copy.
-/

namespace SistOp.FatFuse

open ByteStore

namespace Errno

abbrev enoent : ℤ := 2
abbrev eintr : ℤ := 4
abbrev eio : ℤ := 5
abbrev ebadf : ℤ := 9
abbrev enotdir : ℤ := 20
abbrev eisdir : ℤ := 21
abbrev einval : ℤ := 22
abbrev enospc : ℤ := 28
abbrev eoverflow : ℤ := 75

end Errno

/-- A path or a file name: the bytes of a C string before its terminator. -/
abbrev CString := List UInt8

/-- Byte `i` of a little-endian number. -/
def leByte (n : ℕ) (i : ℕ) : UInt8 := UInt8.ofNat (n >>> (8 * i))

/-- What one call of `pread` or `pwrite` does: it transfers at most `count`
bytes, or it returns -1 and sets `errno`. -/
inductive IoOutcome where
  | bytes (count : ℕ)
  | error (errno : ℕ+)
  deriving DecidableEq, Repr

structure Volume where
  disk : ℕ → UInt8
  fatMap : ℕ → ℕ
  errno : ℤ
  /-- Opened with `O_RDWR`; without it every `pwrite` fails with `EBADF`. -/
  writable : Bool
  io : List IoOutcome
  clock : ℕ → ℤ
  heap : ℕ → ℕ → UInt8

/-- Every further `pwrite` and `pread` transfers all it was asked for. -/
def Volume.IoSucceeds (v : Volume) : Prop :=
  v.writable = true ∧ v.io = []

/-- The `k`-th of the coming calls transfers something, when it is a `pwrite`. -/
def Volume.WriteSucceeds (v : Volume) (k : ℕ) : Prop :=
  v.writable = true ∧
    match v.io[k]? with
    | none => True
    | some (.bytes n) => 0 < n
    | some (.error _) => False

instance (v : Volume) (k : ℕ) : Decidable (v.WriteSucceeds k) := by
  unfold Volume.WriteSucceeds
  split <;> infer_instance

/-- `v'` is `v` after some calls: outcomes of `io` were used up. -/
def Volume.Later (v v' : Volume) : Prop :=
  v'.writable = v.writable ∧ v'.io <:+ v.io

theorem Volume.Later.refl (v : Volume) : v.Later v := ⟨rfl, List.suffix_refl _⟩

theorem Volume.Later.trans {v v' v'' : Volume} (h : v.Later v') (h' : v'.Later v'') :
    v.Later v'' := ⟨h'.1.trans h.1, h'.2.trans h.2⟩

theorem Volume.Later.ioSucceeds {v v' : Volume} (h : v.Later v')
    (hio : v.IoSucceeds) : v'.IoSucceeds :=
  ⟨h.1.trans hio.1, List.suffix_nil.mp (hio.2 ▸ h.2)⟩

/-! ## System calls -/

/-- `pwrite` of `count` bytes that start at index 0 of `buf`. -/
def pwrite (v : Volume) (buf : ℤ → UInt8) (count : ℕ) (offset : ℤ) :
    ℤ × Volume :=
  if v.writable = false then (-1, { v with errno := Errno.ebadf })
  else if offset < 0 then (-1, { v with errno := Errno.einval })
  else
    match v.io with
    | [] =>
        (count,
          { v with disk := store v.disk offset.toNat count fun i => buf i })
    | .bytes n :: rest =>
        (min n count,
          { v with
            disk := store v.disk offset.toNat (min n count) fun i => buf i
            io := rest })
    | .error e :: rest => (-1, { v with errno := (e : ℕ), io := rest })

/-- `buf` after `count` bytes of the disk are copied to its index `pos`. -/
def fillBuffer (buf : ℤ → UInt8) (pos : ℤ) (count : ℕ) (disk : ℕ → UInt8)
    (offset : ℕ) : ℤ → UInt8 :=
  fun i => if pos ≤ i ∧ i < pos + count then disk (offset + (i - pos).toNat)
    else buf i

/-- `pread` of `count` bytes to index `pos` of `buf`. -/
def pread (v : Volume) (buf : ℤ → UInt8) (pos : ℤ) (count : ℕ) (offset : ℤ) :
    ℤ × (ℤ → UInt8) × Volume :=
  if offset < 0 then (-1, buf, { v with errno := Errno.einval })
  else
    match v.io with
    | [] => (count, fillBuffer buf pos count v.disk offset.toNat, v)
    | .bytes n :: rest =>
        (min n count, fillBuffer buf pos (min n count) v.disk offset.toNat,
          { v with io := rest })
    | .error e :: rest => (-1, buf, { v with errno := (e : ℕ), io := rest })

/-- `time(NULL)`. -/
def time (v : Volume) : ℤ × Volume :=
  (v.clock 0, { v with clock := fun n => v.clock (n + 1) })

/-- The memory that a copy of `s` made by `strdup` starts: `s`, its terminator,
and whatever the heap held behind it. -/
def strdup (v : Volume) (s : CString) : (ℕ → UInt8) × Volume :=
  (fun i =>
      if h : i < s.length then s[i]
      else if i = s.length then 0
      else v.heap 0 (i - s.length - 1),
    { v with heap := fun n => v.heap (n + 1) })

/-! ## Full transfers -/

/-- The loop of `full_pwrite`; it returns the bytes that remain.  The step of the
`for` statement also runs on `continue`, so an interrupted call (-1 with `EINTR`)
moves the buffer and the offset one byte back. -/
def fullPwriteLoop (buf : ℤ → UInt8) :
    ℕ → Volume → ℤ → ℕ → ℤ → ℕ × Volume
  | 0, v, _, remaining, _ => (remaining, v)
  | fuel + 1, v, pos, remaining, offset =>
      if remaining = 0 then (remaining, v)
      else
        let (written, v) := pwrite v (fun i => buf (pos + i)) remaining offset
        if written ≤ 0 then
          if written = 0 then (remaining, { v with errno := Errno.eio })
          else if v.errno = Errno.eintr then
            fullPwriteLoop buf fuel v (pos - 1) (remaining + 1) (offset - 1)
          else (remaining, v)
        else
          fullPwriteLoop buf fuel v (pos + written)
            (remaining - written.toNat) (offset + written)

/-- `full_pwrite`; the `size_t` result is read as an `ssize_t`.  Each round but
the last two uses up an outcome of `io`, which bounds the rounds. -/
def fullPwrite (v : Volume) (buf : ℤ → UInt8) (count : ℕ) (offset : ℤ) :
    ℤ × Volume :=
  let (remaining, v) := fullPwriteLoop buf (v.io.length + 2) v 0 count offset
  ((count : ℤ) - remaining, v)

/-- The loop of `full_pread`. -/
def fullPreadLoop :
    ℕ → Volume → (ℤ → UInt8) → ℤ → ℕ → ℤ → ℕ × (ℤ → UInt8) × Volume
  | 0, v, buf, _, remaining, _ => (remaining, buf, v)
  | fuel + 1, v, buf, pos, remaining, offset =>
      if remaining = 0 then (remaining, buf, v)
      else
        let (read, buf, v) := pread v buf pos remaining offset
        if read ≤ 0 then
          if read = 0 then (remaining, buf, { v with errno := Errno.eio })
          else if v.errno = Errno.eintr then
            fullPreadLoop fuel v buf (pos - 1) (remaining + 1) (offset - 1)
          else (remaining, buf, v)
        else
          fullPreadLoop fuel v buf (pos + read) (remaining - read.toNat)
            (offset + read)

/-- `full_pread` to the start of `buf`. -/
def fullPread (v : Volume) (buf : ℤ → UInt8) (count : ℕ) (offset : ℤ) :
    ℤ × (ℤ → UInt8) × Volume :=
  let (remaining, buf, v) :=
    fullPreadLoop (v.io.length + 2) v buf 0 count offset
  ((count : ℤ) - remaining, buf, v)

/-! ## Timestamps -/

/-- The fields of `struct tm` that the driver reads: months count from 0 and
years from 1900. -/
structure Tm where
  sec : ℤ
  min : ℤ
  hour : ℤ
  mday : ℤ
  mon : ℤ
  year : ℤ
  deriving DecidableEq, Repr

/-- `gmtime_r`: the proleptic Gregorian calendar, computed in eras of 400 years
that start on the first of March. -/
def gmtime (t : ℤ) : Tm :=
  let days := t / 86400 + 719468
  let era := days / 146097
  let dayOfEra := days % 146097
  let yearOfEra :=
    (dayOfEra - dayOfEra / 1460 + dayOfEra / 36524 - dayOfEra / 146096) / 365
  let dayOfYear := dayOfEra - (365 * yearOfEra + yearOfEra / 4 - yearOfEra / 100)
  let marchMonth := (5 * dayOfYear + 2) / 153
  let month := if marchMonth < 10 then marchMonth + 2 else marchMonth - 10
  { sec := t % 86400 % 60
    min := t % 86400 / 60 % 60
    hour := t % 86400 / 3600
    mday := dayOfYear - (153 * marchMonth + 2) / 5 + 1
    mon := month
    year := era * 400 + yearOfEra + (if month < 2 then 1 else 0) - 1900 }

/-- The conversion to `le16` of an `int`. -/
def le16 (z : ℤ) : UInt16 := UInt16.ofNat (z % 65536).toNat

/-- `fill_time`: the date and the time word of a directory entry. -/
def fillTime (t : ℤ) : UInt16 × UInt16 :=
  let tm := gmtime t
  let date := le16 tm.mday &&& 0x001F
  let date := date ||| ((le16 tm.mon + 1) <<< 5)
  let date := date &&& 0x01FF
  let date := date ||| (le16 (tm.year + 1900 - 1980) <<< 9)
  let tim := le16 (tm.sec.tdiv 2) &&& 0x001F
  let tim := tim ||| (le16 tm.min <<< 5)
  let tim := tim &&& 0x07FF
  let tim := tim ||| (le16 tm.hour <<< 11)
  (date, tim)

example : gmtime 1656633599 = ⟨59, 59, 23, 30, 5, 122⟩ := by decide

/-! ## What a write can do -/

/-- `pwrite` fails and changes nothing but `errno`, or it copies the first `n`
bytes. -/
theorem pwrite_cases {v v' : Volume} {buf : ℤ → UInt8} {count offset : ℕ} {r : ℤ}
    (h : pwrite v buf count offset = (r, v')) :
    v'.fatMap = v.fatMap ∧ v.Later v' ∧ v'.clock = v.clock ∧ v'.heap = v.heap ∧
      ((r = -1 ∧ v'.errno ≠ 0 ∧ v'.disk = v.disk) ∨
        ∃ n ≤ count, r = n ∧ v'.errno = v.errno ∧
          v'.disk = store v.disk offset n fun i => buf i) := by
  unfold pwrite at h
  split at h
  · simp only [Prod.mk.injEq] at h
    obtain ⟨rfl, rfl⟩ := h
    exact ⟨rfl, Volume.Later.refl v, rfl, rfl, Or.inl ⟨rfl, by simp, rfl⟩⟩
  · rw [if_neg (by omega)] at h
    split at h <;> simp only [Prod.mk.injEq] at h <;> obtain ⟨rfl, rfl⟩ := h
    · exact ⟨rfl, Volume.Later.refl v, rfl, rfl,
        Or.inr ⟨count, le_rfl, rfl, rfl, by simp⟩⟩
    · rename_i n rest hcall
      exact ⟨rfl, ⟨rfl, hcall ▸ List.suffix_cons _ _⟩, rfl, rfl,
        Or.inr ⟨min n count, min_le_right _ _, by simp, rfl, by simp⟩⟩
    · rename_i e rest hcall
      exact ⟨rfl, ⟨rfl, hcall ▸ List.suffix_cons _ _⟩, rfl, rfl, Or.inl ⟨rfl, by simp, rfl⟩⟩

theorem pwrite_fatMap (v : Volume) (buf : ℤ → UInt8) (count : ℕ) (offset : ℤ) :
    (pwrite v buf count offset).2.fatMap = v.fatMap := by
  unfold pwrite
  split
  · rfl
  · split
    · rfl
    · split <;> rfl

theorem fullPwriteLoop_fatMap (buf : ℤ → UInt8) (fuel : ℕ) (v : Volume) (pos : ℤ)
    (remaining : ℕ) (offset : ℤ) :
    (fullPwriteLoop buf fuel v pos remaining offset).2.fatMap = v.fatMap := by
  induction fuel generalizing v pos remaining offset with
  | zero => rfl
  | succ fuel ih =>
      have hcall := pwrite_fatMap v (fun i => buf (pos + i)) remaining offset
      simp only [fullPwriteLoop]
      split_ifs
      · rfl
      · exact hcall
      · exact (ih _ _ _ _).trans hcall
      · exact hcall
      · exact (ih _ _ _ _).trans hcall

/-- Whether a `pwrite` transfers something is said by the first outcome. -/
theorem pwrite_outcome {v v' : Volume} {buf : ℤ → UInt8} {count offset : ℕ} {r : ℤ}
    (hcount : 0 < count) (h : pwrite v buf count offset = (r, v')) :
    (0 < r ↔ v.WriteSucceeds 0) ∧ ∀ k, v'.WriteSucceeds k ↔ v.WriteSucceeds (k + 1) := by
  unfold pwrite at h
  split at h
  · rename_i hro
    simp only [Prod.mk.injEq] at h
    obtain ⟨rfl, rfl⟩ := h
    simp [Volume.WriteSucceeds, hro]
  · rename_i hrw
    have hwritable : v.writable = true := by simpa using hrw
    rw [if_neg (by omega)] at h
    split at h <;> simp only [Prod.mk.injEq] at h <;> obtain ⟨rfl, rfl⟩ := h
    · rename_i hio
      simp [Volume.WriteSucceeds, hio, hwritable, hcount]
    · rename_i n rest hio
      simp [Volume.WriteSucceeds, hio, hwritable, hcount]
    · rename_i e rest hio
      simp [Volume.WriteSucceeds, hio, hwritable]

/-! ## Transfers that succeed -/

theorem pwrite_of_ioSucceeds {v : Volume} (hio : v.IoSucceeds)
    (buf : ℤ → UInt8) (count offset : ℕ) :
    pwrite v buf count offset =
      ((count : ℤ),
        { v with disk := store v.disk offset count fun i => buf i }) := by
  have hoff : ¬ ((offset : ℤ) < 0) := by omega
  simp [pwrite, hio.1, hio.2, hoff]

theorem pread_of_ioSucceeds {v : Volume} (hio : v.io = [])
    (buf : ℤ → UInt8) (pos : ℤ) (count offset : ℕ) :
    pread v buf pos count offset =
      ((count : ℤ), fillBuffer buf pos count v.disk offset, v) := by
  have hoff : ¬ ((offset : ℤ) < 0) := by omega
  simp [pread, hio, hoff]

theorem fullPwrite_of_ioSucceeds {v : Volume} (hio : v.IoSucceeds)
    (buf : ℤ → UInt8) (count offset : ℕ) :
    fullPwrite v buf count offset =
      ((count : ℤ),
        { v with disk := store v.disk offset count fun i => buf i }) := by
  have hpwrite := pwrite_of_ioSucceeds hio buf count offset
  by_cases hcount : count = 0
  · subst hcount
    simp [fullPwrite, fullPwriteLoop]
  · have hpos : ¬ ((count : ℤ) ≤ 0) := by omega
    simp [fullPwrite, fullPwriteLoop, hpwrite, hcount, hio.2]

theorem fullPread_of_ioSucceeds {v : Volume} (hio : v.io = [])
    (buf : ℤ → UInt8) (count offset : ℕ) :
    fullPread v buf count offset =
      ((count : ℤ), fillBuffer buf 0 count v.disk offset, v) := by
  have hpread := pread_of_ioSucceeds hio buf 0 count offset
  by_cases hcount : count = 0
  · subst hcount
    have hbuf : fillBuffer buf 0 0 v.disk offset = buf := by
      funext i
      simp [fillBuffer]
    simp [fullPread, fullPreadLoop, hbuf]
  · have hpos : ¬ ((count : ℤ) ≤ 0) := by omega
    simp [fullPread, fullPreadLoop, hpread, hcount]

end SistOp.FatFuse
