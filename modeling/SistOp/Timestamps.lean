import SistOp.DirectoryRemoval
import Mathlib.Tactic

/-!
# Timestamps of directory entries

`fill_time` takes the fields of a time apart in UTC and packs them into two words;
`time_to_unix_time` unpacks them and gives them to `mktime`, which reads them as local time.
`mktime` is a parameter here, the inverse of the local calendar of a fixed offset to UTC.
-/

namespace SistOp.FatFuse

/-! ## Reading a timestamp -/

/-- `time_to_unix_time`: the words of an entry as the fields of a local time. -/
def timeToUnixTime (mktime : Tm → ℤ) (date time : UInt16) : ℤ :=
  -- FAT dates are years since 1980, those of `mktime` are years since 1900
  let year := (date >>> 9) + 80
  let month := ((date >>> 5) &&& 0xf) - 1
  let day := date &&& 0x1f
  let hours := time >>> 11
  let minutes := (time >>> 5) &&& 0x3f
  let seconds := (time &&& 0x1f) * 2
  mktime
    { sec := seconds.toNat
      min := minutes.toNat
      hour := hours.toNat
      mday := day.toNat
      mon := month.toNat
      year := year.toNat }

/-- The attributes of `struct stat` that the driver sets. -/
structure Stat where
  nlink : ℕ
  mode : ℕ
  size : ℕ
  blocks : ℕ
  blksize : ℕ
  ctime : ℤ
  atime : ℤ
  mtime : ℤ

abbrev modeDirectory : ℕ := 0x4000
abbrev modeRegular : ℕ := 0x8000
abbrev fileAttributeReadonly : UInt8 := 0x01

def fatTableGetClustersForSize (t : FatTable) (fileSize : ℕ) : ℕ :=
  (fileSize + (fatTableBytesPerCluster t - 1)) >>> t.clusterOrder % 2 ^ 32

/-- `fat_file_to_stbuf`. -/
def fatFileToStbuf (t : FatTable) (mktime : Tm → ℤ) (file : FatFile) : Stat :=
  let word := fun off => UInt16.ofNat (file.dentry.le16At off)
  { nlink := 1
    mode :=
      (if fatFileIsDirectory file then modeDirectory else modeRegular) |||
        if file.dentry.attribs &&& fileAttributeReadonly != 0 then 0o555 else 0o777
    size := file.dentry.fileSize
    blocks := fatTableGetClustersForSize t file.dentry.fileSize
    blksize := fatTableBytesPerCluster t
    -- the create date and time lie at bytes 16 and 14, the access date at byte 18
    ctime := timeToUnixTime mktime (word 16) (word 14)
    atime := timeToUnixTime mktime (word 18) 0
    mtime := timeToUnixTime mktime (.ofNat file.dentry.lastModifiedDate)
      (.ofNat file.dentry.lastModifiedTime) }

/-! ## The calendar -/

/-- The year of an era, by centuries of 36524 days, cycles of 1461 days and years. -/
theorem yearOfEra_eq {century cycle day dayOfEra : ℤ} (hcentury : 0 ≤ century ∧ century ≤ 3)
    (hcycle : 0 ≤ cycle) (hday : 0 ≤ day ∧ day < 1461)
    (hlast : 1461 * cycle + day < 36524 ∨ century = 3 ∧ 1461 * cycle + day = 36524)
    (hdayOfEra : dayOfEra = 36524 * century + 1461 * cycle + day) :
    (dayOfEra - dayOfEra / 1460 + dayOfEra / 36524 - dayOfEra / 146096) / 365 =
      100 * century + 4 * cycle + min (day / 365) 3 := by
  have hcenturies : dayOfEra / 36524 - dayOfEra / 146096 = century := by omega
  have hcycles : dayOfEra / 1460 =
      25 * century + cycle + if 1460 ≤ day + cycle + 24 * century then 1 else 0 := by
    split <;> omega
  have hdays : dayOfEra - dayOfEra / 1460 + dayOfEra / 36524 - dayOfEra / 146096 =
      36500 * century + 1460 * cycle + day -
        if 1460 ≤ day + cycle + 24 * century then 1 else 0 := by
    omega
  rw [hdays]
  split <;> omega

theorem dayOfYear_range {dayOfEra yearOfEra : ℤ} (hera : 0 ≤ dayOfEra ∧ dayOfEra < 146097)
    (hyear : yearOfEra =
      (dayOfEra - dayOfEra / 1460 + dayOfEra / 36524 - dayOfEra / 146096) / 365) :
    0 ≤ dayOfEra - (365 * yearOfEra + yearOfEra / 4 - yearOfEra / 100) ∧
      dayOfEra - (365 * yearOfEra + yearOfEra / 4 - yearOfEra / 100) ≤ 365 := by
  obtain ⟨century, hcentury⟩ : ∃ century, century = min (dayOfEra / 36524) 3 := ⟨_, rfl⟩
  obtain ⟨cycle, hcycle⟩ : ∃ cycle, cycle = (dayOfEra - 36524 * century) / 1461 := ⟨_, rfl⟩
  obtain ⟨day, hday⟩ : ∃ day, day = (dayOfEra - 36524 * century) % 1461 := ⟨_, rfl⟩
  have hdays : dayOfEra = 36524 * century + 1461 * cycle + day := by omega
  rw [yearOfEra_eq (by omega) (by omega) (by omega) (by omega) hdays] at hyear
  have hcenturies : yearOfEra / 100 = century := by omega
  have hcycles : yearOfEra / 4 = 25 * century + cycle := by omega
  omega

/-- The fields lie in the ranges of a calendar. -/
structure Tm.InRange (tm : Tm) : Prop where
  sec : 0 ≤ tm.sec ∧ tm.sec < 60
  min : 0 ≤ tm.min ∧ tm.min < 60
  hour : 0 ≤ tm.hour ∧ tm.hour < 24
  mday : 1 ≤ tm.mday ∧ tm.mday ≤ 31
  mon : 0 ≤ tm.mon ∧ tm.mon < 12

theorem gmtime_inRange (time : ℤ) : (gmtime time).InRange := by
  have hyear := @dayOfYear_range ((time / 86400 + 719468) % 146097) _ (by omega) rfl
  dsimp only [gmtime]
  constructor <;> dsimp only
  · omega
  · omega
  · omega
  · omega
  · split <;> omega

/-- The inverse of `gmtime`: the days of the fields, counted in eras. -/
def timegm (tm : Tm) : ℤ :=
  let year := tm.year + 1900 - if tm.mon < 2 then 1 else 0
  let yearOfEra := year % 400
  let marchMonth := if tm.mon < 2 then tm.mon + 10 else tm.mon - 2
  let dayOfYear := (153 * marchMonth + 2) / 5 + tm.mday - 1
  let dayOfEra := yearOfEra * 365 + yearOfEra / 4 - yearOfEra / 100 + dayOfYear
  (year / 400 * 146097 + dayOfEra - 719468) * 86400 + tm.hour * 3600 + tm.min * 60 + tm.sec

/-- The year that starts in March is the year of the era again. -/
theorem marchYear_eq {era yearOfEra month : ℤ} (hyear : 0 ≤ yearOfEra ∧ yearOfEra < 400) :
    let year := era * 400 + yearOfEra + (if month < 2 then 1 else 0) - 1900 + 1900 -
      if month < 2 then 1 else 0
    year / 400 = era ∧ year % 400 = yearOfEra := by
  dsimp only
  split <;> omega

theorem marchMonth_eq {marchMonth : ℤ} (hmonth : 0 ≤ marchMonth ∧ marchMonth < 12) :
    let month := if marchMonth < 10 then marchMonth + 2 else marchMonth - 10
    (if month < 2 then month + 10 else month - 2) = marchMonth := by
  dsimp only
  split <;> split <;> omega

theorem timegm_gmtime (time : ℤ) : timegm (gmtime time) = time := by
  obtain ⟨dayOfEra, hdayOfEra⟩ : ∃ day, day = (time / 86400 + 719468) % 146097 := ⟨_, rfl⟩
  obtain ⟨yearOfEra, hyearOfEra⟩ : ∃ year, year =
    (dayOfEra - dayOfEra / 1460 + dayOfEra / 36524 - dayOfEra / 146096) / 365 := ⟨_, rfl⟩
  obtain ⟨dayOfYear, hdayOfYear⟩ : ∃ day, day =
    dayOfEra - (365 * yearOfEra + yearOfEra / 4 - yearOfEra / 100) := ⟨_, rfl⟩
  have hyear := dayOfYear_range (by omega) hyearOfEra
  have hmarchYear := fun month => @marchYear_eq ((time / 86400 + 719468) / 146097) yearOfEra month
    (by omega)
  have hmarchMonth := @marchMonth_eq ((5 * dayOfYear + 2) / 153) (by omega)
  dsimp only at hmarchYear hmarchMonth
  simp only [timegm, gmtime, ← hdayOfEra, ← hyearOfEra, ← hdayOfYear, hmarchMonth,
    (hmarchYear _).1, (hmarchYear _).2]
  omega

/-- The fields of an even second are those of the second behind it. -/
theorem gmtime_even (time : ℤ) :
    gmtime (time - time % 2) = { gmtime time with sec := (gmtime time).sec / 2 * 2 } := by
  have hdays : (time - time % 2) / 86400 = time / 86400 := by omega
  have hseconds : (time - time % 2) % 86400 = time % 86400 - time % 2 := by omega
  simp only [gmtime, hdays, hseconds, Tm.mk.injEq, and_true]
  refine ⟨?_, ?_, ?_⟩ <;> omega

/-! ## Packing and unpacking -/

theorem le16_toNat {z : ℤ} (hz : 0 ≤ z ∧ z < 65536) : ((le16 z).toNat : ℤ) = z := by
  rw [le16, UInt16.toNat_ofNat']
  omega

theorem or_shiftLeft_eq {low high width : ℕ} (hlow : low < 2 ^ width) :
    low ||| high <<< width = low + 2 ^ width * high := by
  rw [Nat.or_comm, ← Nat.shiftLeft_add_eq_or_of_lt hlow, Nat.shiftLeft_eq]
  ring

/-- Three fields that are masked and or-ed together one behind the other. -/
theorem packed_eq {low mid high width midWidth : ℕ} (hlow : low < 2 ^ width)
    (hmid : mid < 2 ^ midWidth) :
    (((low &&& 2 ^ width - 1) ||| mid <<< width) &&& 2 ^ (width + midWidth) - 1) |||
        high <<< (width + midWidth) =
      low + 2 ^ width * mid + 2 ^ (width + midWidth) * high := by
  have hboth : low + 2 ^ width * mid < 2 ^ (width + midWidth) := by
    calc
      low + 2 ^ width * mid < 2 ^ width * (mid + 1) := by
        rw [Nat.mul_add]
        omega
      _ ≤ 2 ^ width * 2 ^ midWidth := Nat.mul_le_mul_left _ hmid
      _ = 2 ^ (width + midWidth) := (pow_add 2 width midWidth).symm
  rw [Nat.and_two_pow_sub_one_eq_mod low, Nat.mod_eq_of_lt hlow, or_shiftLeft_eq hlow,
    Nat.and_two_pow_sub_one_eq_mod, Nat.mod_eq_of_lt hboth, or_shiftLeft_eq hboth]

theorem packed_toNat {low mid high mask shift mask' shift' : UInt16} {width midWidth : ℕ}
    (hmask : mask.toNat = 2 ^ width - 1) (hshift : shift.toNat = width)
    (hmask' : mask'.toNat = 2 ^ (width + midWidth) - 1)
    (hshift' : shift'.toNat = width + midWidth) (hwidth : width + midWidth < 16)
    (hlow : low.toNat < 2 ^ width) (hmid : mid.toNat < 2 ^ midWidth)
    (hhigh : 2 ^ (width + midWidth) * high.toNat < 2 ^ 16) :
    (((low &&& mask ||| mid <<< shift) &&& mask') ||| high <<< shift').toNat =
      low.toNat + 2 ^ width * mid.toNat + 2 ^ (width + midWidth) * high.toNat := by
  have hmidShift : mid.toNat <<< width < 2 ^ 16 := by
    calc
      mid.toNat <<< width < 2 ^ midWidth * 2 ^ width := by
        rw [Nat.shiftLeft_eq]
        exact Nat.mul_lt_mul_of_pos_right hmid (Nat.two_pow_pos width)
      _ = 2 ^ (width + midWidth) := by rw [mul_comm, pow_add]
      _ ≤ 2 ^ 16 := Nat.pow_le_pow_right (by decide) hwidth.le
  have hhighShift : high.toNat <<< (width + midWidth) < 2 ^ 16 := by
    rw [Nat.shiftLeft_eq, mul_comm]
    exact hhigh
  rw [UInt16.toNat_or, UInt16.toNat_and, UInt16.toNat_or, UInt16.toNat_and,
    UInt16.toNat_shiftLeft, UInt16.toNat_shiftLeft, hmask, hmask', hshift, hshift',
    Nat.mod_eq_of_lt (show width < 16 by omega), Nat.mod_eq_of_lt hwidth,
    Nat.mod_eq_of_lt hmidShift, Nat.mod_eq_of_lt hhighShift]
  exact packed_eq hlow hmid

/-- The year of a time, in UTC, fits in the seven bits of a FAT date. -/
def FatYear (time : ℤ) : Prop :=
  1980 ≤ (gmtime time).year + 1900 ∧ (gmtime time).year + 1900 ≤ 2107

instance (time : ℤ) : Decidable (FatYear time) :=
  inferInstanceAs (Decidable (_ ∧ _))

theorem fillTime_date {time : ℤ} (hyear : FatYear time) :
    ((fillTime time).1.toNat : ℤ) = (gmtime time).mday + 32 * ((gmtime time).mon + 1) +
      512 * ((gmtime time).year - 80) := by
  have hday := (gmtime_inRange time).mday
  have hmonth := (gmtime_inRange time).mon
  unfold FatYear at hyear
  have hlow := @le16_toNat (gmtime time).mday (by omega)
  have hmon := @le16_toNat (gmtime time).mon (by omega)
  have hhigh := @le16_toNat ((gmtime time).year + 1900 - 1980) (by omega)
  have hmid : (le16 (gmtime time).mon + 1).toNat = (le16 (gmtime time).mon).toNat + 1 := by
    rw [UInt16.toNat_add]
    exact Nat.mod_eq_of_lt (by simp only [UInt16.reduceToNat]; omega)
  have hpacked := @packed_toNat (le16 (gmtime time).mday) (le16 (gmtime time).mon + 1)
    (le16 ((gmtime time).year + 1900 - 1980)) 0x001F 5 0x01FF 9 5 4 rfl rfl rfl rfl (by decide)
    (by omega) (by omega) (by omega)
  rw [fillTime]
  dsimp only
  rw [hpacked]
  omega

theorem fillTime_time (time : ℤ) :
    ((fillTime time).2.toNat : ℤ) = (gmtime time).sec / 2 + 32 * (gmtime time).min +
      2048 * (gmtime time).hour := by
  have hsec := (gmtime_inRange time).sec
  have hmin := (gmtime_inRange time).min
  have hhour := (gmtime_inRange time).hour
  have hhalf : (gmtime time).sec.tdiv 2 = (gmtime time).sec / 2 :=
    Int.tdiv_eq_ediv_of_nonneg hsec.1
  have hlow := @le16_toNat ((gmtime time).sec / 2) (by omega)
  have hmid := @le16_toNat (gmtime time).min (by omega)
  have hhigh := @le16_toNat (gmtime time).hour (by omega)
  have hpacked := @packed_toNat (le16 ((gmtime time).sec / 2)) (le16 (gmtime time).min)
    (le16 (gmtime time).hour) 0x001F 5 0x07FF 11 5 6 rfl rfl rfl rfl (by decide)
    (by omega) (by omega) (by omega)
  rw [fillTime]
  dsimp only
  rw [hhalf, hpacked]
  omega

/-- The words of a time are read as the UTC fields of the even second in front of it. -/
theorem timeToUnixTime_fillTime {time : ℤ} (hyear : FatYear time) (mktime : Tm → ℤ) :
    timeToUnixTime mktime (fillTime time).1 (fillTime time).2 =
      mktime (gmtime (time - time % 2)) := by
  have hdate := fillTime_date hyear
  have htime := fillTime_time time
  obtain ⟨hsec, hmin, hhour, hmday, hmon⟩ := gmtime_inRange time
  unfold FatYear at hyear
  have hmask4 : ∀ n, n &&& 15 = n % 16 := fun n => Nat.and_two_pow_sub_one_eq_mod n 4
  have hmask5 : ∀ n, n &&& 31 = n % 32 := fun n => Nat.and_two_pow_sub_one_eq_mod n 5
  have hmask6 : ∀ n, n &&& 63 = n % 64 := fun n => Nat.and_two_pow_sub_one_eq_mod n 6
  rw [gmtime_even, timeToUnixTime]
  congr 1
  rw [Tm.mk.injEq]
  generalize (fillTime time).1 = date at hdate
  generalize (fillTime time).2 = word at htime
  simp only [UInt16.toNat_add, UInt16.toNat_sub, UInt16.toNat_mul, UInt16.toNat_and,
    UInt16.toNat_shiftRight, UInt16.reduceToNat, Nat.reduceMod, Nat.shiftRight_eq_div_pow,
    hmask4, hmask5, hmask6]
  refine ⟨?_, ?_, ?_, ?_, ?_, ?_⟩
  · omega
  · omega
  · omega
  · omega
  · omega
  · omega

/-! ## Round trips -/

/-- `localtime` where the clocks are `zone` seconds ahead of UTC. -/
def localtime (zone time : ℤ) : Tm := gmtime (time + zone)

theorem timeToUnixTime_zone {mktime : Tm → ℤ} {zone time : ℤ}
    (hmktime : ∀ time, mktime (localtime zone time) = time) (hyear : FatYear time) :
    timeToUnixTime mktime (fillTime time).1 (fillTime time).2 = time - time % 2 - zone := by
  have hlocal := hmktime (time - time % 2 - zone)
  rw [localtime, sub_add_cancel] at hlocal
  rw [timeToUnixTime_fillTime hyear, hlocal]

theorem lastModified_utime (d : FatDirEntry) (accdate moddate modtime : UInt16) :
    let d' := ((d.setLastAccessDate accdate.toNat).setLastModifiedDate
      moddate.toNat).setLastModifiedTime modtime.toNat
    d'.lastModifiedDate = moddate.toNat ∧ d'.lastModifiedTime = modtime.toNat := by
  constructor
  · rw [FatDirEntry.lastModifiedDate, FatDirEntry.setLastModifiedTime,
      FatDirEntry.le16At_setLe16_of_disjoint _ (by omega) _ (by omega),
      FatDirEntry.setLastModifiedDate, FatDirEntry.le16At_setLe16_self _ (by omega)]
    exact Nat.mod_eq_of_lt moddate.toNat_lt
  · rw [FatDirEntry.lastModifiedTime, FatDirEntry.setLastModifiedTime,
      FatDirEntry.le16At_setLe16_self _ (by omega)]
    exact Nat.mod_eq_of_lt modtime.toNat_lt

section Utime

variable {t : FatTable} {s s' : FsState} {path : CString} {node parent : ℕ} {n : HNode ℕ}
variable {f : FatFile} {actime modtime r : ℤ}

theorem utimeFile_words {addr : ℕ} {p : Option ℕ} (hf : s.files.get addr = some f)
    (h : utimeFile t s addr p actime modtime = some s') :
    s'.nodes = s.nodes ∧ ∃ f', s'.files.get addr = some f' ∧
      f'.dentry.lastModifiedDate = (fillTime modtime).1.toNat ∧
      f'.dentry.lastModifiedTime = (fillTime modtime).2.toNat := by
  simp only [utimeFile, updateFile, hf, fatUtime, Option.bind_eq_bind, Option.bind_some,
    Option.bind_eq_some_iff, Option.some.injEq, Prod.exists, Prod.mk.injEq] at h
  obtain ⟨_, -, f', _, ⟨_, -, hf', -⟩, files, hwrite, rfl⟩ := h
  refine ⟨rfl, f', (Heap.write_eq_some hwrite).2.2.1, ?_⟩
  rw [← hf']
  exact lastModified_utime _ _ _ _

/-- The file of a node with a parent holds the words of the new time. -/
theorem fatFuseUtime_words (hfound : fatTreeNodeSearch s path = some (some node))
    (hnode : NodeFile s node n f) (hparent : n.hParent = some parent)
    (h : fatFuseUtime t s path actime modtime = some (r, s')) :
    ∃ f', NodeFile s' node n f' ∧ f'.dentry.lastModifiedDate = (fillTime modtime).1.toNat ∧
      f'.dentry.lastModifiedTime = (fillTime modtime).2.toNat := by
  have hfound' : fatTreeNodeSearch (s.setErrno 0) path = some (some node) := hfound
  have hnode' : (s.setErrno 0).nodes.get node = some n := hnode.node
  simp only [fatFuseUtime, hfound', fatTreeGetParent, fatTreeGetFile, hnode', hparent,
    Option.bind_eq_bind, Option.bind_some, Option.bind_eq_some_iff, Option.some.injEq,
    Prod.exists, Prod.mk.injEq] at h
  obtain ⟨_, s₀, ⟨p, -, rfl, rfl⟩, h⟩ := h
  simp only [reduceCtorEq, if_false, hnode', Option.bind_some, Option.bind_eq_some_iff,
    Option.some.injEq, Prod.mk.injEq] at h
  obtain ⟨s₁, hutime, -, rfl⟩ := h
  obtain ⟨hnodes, f', hlive, hwords⟩ := utimeFile_words (s := s.setErrno 0) hnode.live hutime
  exact ⟨f', ⟨by rw [hnodes]; exact hnode', hlive⟩, hwords⟩

end Utime

/-- Writing a time to an entry and reading it back, from the words and through the requests
that set and report it. -/
structure TimeRoundTrips (mktime : Tm → ℤ) (time : ℤ) : Prop where
  words : timeToUnixTime mktime (fillTime time).1 (fillTime time).2 = time - time % 2
  reported : ∀ (t : FatTable) (s s' : FsState) (path : CString) (actime r : ℤ) (node parent : ℕ)
    (n : HNode ℕ) (f : FatFile),
    fatTreeNodeSearch s path = some (some node) → NodeFile s node n f → n.hParent = some parent →
      fatFuseUtime t s path actime time = some (r, s') →
      ∃ f', NodeFile s' node n f' ∧ (fatFileToStbuf t mktime f').mtime = time - time % 2

/-- Times survive exactly where the local clock is that of UTC. -/
theorem timeRoundTrips_iff {mktime : Tm → ℤ} {zone time : ℤ}
    (hmktime : ∀ time, mktime (localtime zone time) = time) (hyear : FatYear time) :
    TimeRoundTrips mktime time ↔ zone = 0 := by
  have hzone := timeToUnixTime_zone hmktime hyear
  constructor
  · intro h
    have hwords := h.words
    rw [hzone] at hwords
    omega
  · rintro rfl
    rw [sub_zero] at hzone
    refine ⟨hzone, fun t s s' path actime r node parent n f hfound hnode hparent h => ?_⟩
    obtain ⟨f', hnode', hdate, htime⟩ := fatFuseUtime_words hfound hnode hparent h
    refine ⟨f', hnode', ?_⟩
    rw [fatFileToStbuf, hdate, htime, UInt16.ofNat_toNat, UInt16.ofNat_toNat]
    exact hzone

def mktimeOf (zone : ℤ) (tm : Tm) : ℤ := timegm tm - zone

theorem mktimeOf_localtime (zone time : ℤ) : mktimeOf zone (localtime zone time) = time := by
  rw [mktimeOf, localtime, timegm_gmtime, add_sub_cancel_right]

/-- The last second of June 2022. -/
def lastSecondOfJune : ℤ := 1656633599

theorem timeRoundTrips_iff_utc : TimeRoundTrips (mktimeOf 0) lastSecondOfJune :=
  (timeRoundTrips_iff (mktimeOf_localtime 0) (by decide)).mpr rfl

/-- Three hours behind UTC the time that is read is three hours late. -/
theorem not_timeRoundTrips_argentina :
    (∀ time, mktimeOf (-10800) (localtime (-10800) time) = time) ∧ FatYear lastSecondOfJune ∧
      timeToUnixTime (mktimeOf (-10800)) (fillTime lastSecondOfJune).1
        (fillTime lastSecondOfJune).2 = lastSecondOfJune - 1 + 10800 ∧
      ¬ TimeRoundTrips (mktimeOf (-10800)) lastSecondOfJune := by
  have hlate : timeToUnixTime (mktimeOf (-10800)) (fillTime lastSecondOfJune).1
      (fillTime lastSecondOfJune).2 = lastSecondOfJune - 1 + 10800 := by
    decide
  refine ⟨mktimeOf_localtime (-10800), by decide, hlate, fun h => ?_⟩
  have hwords := h.words
  rw [hlate] at hwords
  exact absurd hwords (by decide)

end SistOp.FatFuse
