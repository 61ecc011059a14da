import SistOp.FatFuseOps
import Mathlib.Tactic

/-!
# The blocks of the path and log builders

`filepath_from_name` and `fat_fuse_log_activity` build their strings with `strcpy` and `strcat` in
blocks of a fixed size.  Both are repeated here with the size of the block; a byte behind it is a
fault.
-/

namespace SistOp.FatFuse

/-- `strcat(dst, src)` in a block of `size` bytes, of which the terminator takes one. -/
def strcat (size : ℕ) (dst src : CString) : Option CString :=
  if dst.length + src.length + 1 ≤ size then some (dst ++ src) else none

def strcpy (size : ℕ) (src : CString) : Option CString := strcat size [] src

/-- `filepath_from_name` in the block that it allocates. -/
def filepathFromNameBlock (parentFilepath fileName : CString) : Option CString := do
  let size := parentFilepath.length + fileName.length + 1
  let filepath ← strcpy size parentFilepath
  -- an empty parent is read in front of its first byte
  let last ← parentFilepath.getLast?
  let filepath ← if last ≠ charSlash then strcat size filepath [charSlash] else some filepath
  strcat size filepath fileName

/-- The record that `fat_fuse_log_activity` assembles in `buf`. -/
def logMessageBlock (env : FuseEnv) (now : ℤ) (operationType filepath : CString) :
    Option CString := do
  let login ← env.login
  let buf ← strcpy logMessageSize (env.dateString now)
  let buf ← strcat logMessageSize buf [charTab]
  let buf ← strcat logMessageSize buf login
  let buf ← strcat logMessageSize buf [charTab]
  let buf ← strcat logMessageSize buf filepath
  let buf ← strcat logMessageSize buf [charTab]
  let buf ← strcat logMessageSize buf operationType
  strcat logMessageSize buf [charNewline]

/-! ## Chains of `strcat` -/

/-- The last write of a chain reaches furthest. -/
theorem strcat_bind (size : ℕ) (dst src rest : CString) :
    ((strcat size dst src).bind fun buf => strcat size buf rest) =
      strcat size dst (src ++ rest) := by
  unfold strcat
  by_cases hfirst : dst.length + src.length + 1 ≤ size
  · rw [if_pos hfirst]
    simp only [Option.bind_some, List.length_append, List.append_assoc, Nat.add_assoc]
  · have hboth : ¬ dst.length + (src ++ rest).length + 1 ≤ size := by
      rw [List.length_append]
      omega
    rw [if_neg hfirst, if_neg hboth, Option.bind_none]

theorem strcat_isSome_iff (size : ℕ) (dst src : CString) :
    (∃ buf, strcat size dst src = some buf) ↔ dst.length + src.length + 1 ≤ size := by
  simp [strcat]

/-! ## The two builders -/

/-- The allocation counts the parent, the name and the terminator, but no separator. -/
theorem filepathFromNameBlock_eq {parentFilepath : CString} (fileName : CString)
    (hparent : parentFilepath ≠ []) :
    filepathFromNameBlock parentFilepath fileName =
      if parentFilepath.getLast? = some charSlash then
        some (filepathFromName parentFilepath fileName)
      else none := by
  obtain ⟨last, hlast⟩ := Option.ne_none_iff_exists'.mp
    (mt List.getLast?_eq_none_iff.mp hparent)
  rw [filepathFromNameBlock, filepathFromName, hlast, strcpy]
  simp only [Option.bind_eq_bind, Option.bind_some]
  by_cases hslash : last = charSlash
  · simp only [hslash, ne_eq, not_true_eq_false, if_false, if_true]
    rw [strcat_bind, strcat, if_pos (by simp)]
    rfl
  · simp only [ne_eq, hslash, not_false_eq_true, if_true, Option.some.injEq, if_false]
    simp only [strcat_bind]
    rw [strcat, if_neg]
    simp only [List.length_nil, List.length_append, List.length_singleton]
    omega

theorem logMessageBlock_of_login {env : FuseEnv} {login : CString}
    (hlogin : env.login = some login) (now : ℤ) (operationType filepath : CString) :
    logMessageBlock env now operationType filepath =
      strcat logMessageSize [] (env.dateString now ++ ([charTab] ++ (login ++ ([charTab] ++
        (filepath ++ ([charTab] ++ (operationType ++ [charNewline]))))))) := by
  simp only [logMessageBlock, hlogin, Option.bind_eq_bind, Option.bind_some, strcpy, strcat_bind]

/-- The record is the message of the model of the log. -/
theorem logMessageBlock_eq (env : FuseEnv) (now : ℤ) (operationType filepath : CString) :
    logMessageBlock env now operationType filepath =
      logMessage env now operationType filepath := by
  cases hlogin : env.login with
  | none => simp [logMessageBlock, logMessage, hlogin]
  | some login =>
      rw [logMessageBlock_of_login hlogin, strcat]
      simp [logMessage, hlogin]

/-- `filepath_from_name` writes no more bytes than it allocates. -/
def FilepathFits (parentFilepath fileName : CString) : Prop :=
  ∃ filepath, filepathFromNameBlock parentFilepath fileName = some filepath

/-- The record of an activity fits in the buffer. -/
def MessageFits (env : FuseEnv) (now : ℤ) (operationType filepath : CString) : Prop :=
  ∃ record, logMessageBlock env now operationType filepath = some record

theorem messageFits_iff {env : FuseEnv} {login : CString} (hlogin : env.login = some login)
    (now : ℤ) (operationType filepath : CString) :
    MessageFits env now operationType filepath ↔
      (env.dateString now).length + login.length + filepath.length + operationType.length + 5 ≤
        logMessageSize := by
  rw [MessageFits, logMessageBlock_of_login hlogin, strcat_isSome_iff]
  simp only [List.length_append, List.length_nil, List.length_singleton]
  omega

/-- A path fits exactly behind a parent that ends in the separator, a record exactly when its
five parts take at most 95 bytes with their separators left out. -/
theorem builders_fit_iff {env : FuseEnv} {login parentFilepath : CString}
    (hlogin : env.login = some login) (habsolute : parentFilepath.head? = some charSlash)
    (fileName : CString) (now : ℤ) (operationType filepath : CString) :
    (FilepathFits parentFilepath fileName ↔ parentFilepath.getLast? = some charSlash) ∧
      (MessageFits env now operationType filepath ↔
        (env.dateString now).length + login.length + filepath.length + operationType.length + 5 ≤
          logMessageSize) := by
  constructor
  · have hparent : parentFilepath ≠ [] := by
      rintro rfl
      simp at habsolute
    rw [FilepathFits, filepathFromNameBlock_eq fileName hparent]
    split <;> simp [*]
  · exact messageFits_iff hlogin now operationType filepath

/-- The user `u` at `01-02-2025 03:04`. -/
def datedEnv : FuseEnv :=
  { plainEnv with
    dateString := fun _ =>
      [0x30, 0x31, 0x2d, 0x30, 0x32, 0x2d, 0x32, 0x30, 0x32, 0x35, 0x20, 0x30, 0x33, 0x3a, 0x30,
        0x34] }

/-- The path `/a` and the record of reading it. -/
theorem builders_fit_iff_root :
    FilepathFits [charSlash] [0x61] ∧ MessageFits datedEnv 0 opRead [charSlash, 0x61] :=
  have h := builders_fit_iff (show datedEnv.login = some [0x75] from rfl)
    (show [charSlash].head? = some charSlash from rfl) [0x61] 0 opRead [charSlash, 0x61]
  ⟨h.1.mpr rfl, h.2.mpr (by decide)⟩

/-- The path `/b/f` takes five bytes and gets four, and the record of reading a path of eighty
bytes does not fit. -/
theorem builders_overflow :
    [charSlash, 0x62].head? = some charSlash ∧
      ¬ FilepathFits [charSlash, 0x62] [0x66] ∧
      datedEnv.login = some [0x75] ∧
      ¬ MessageFits datedEnv 0 opRead (charSlash :: List.replicate 79 0x61) := by
  refine ⟨rfl, ?_, rfl, ?_⟩
  · rintro ⟨filepath, hfits⟩
    have hnone : filepathFromNameBlock [charSlash, 0x62] [0x66] = none := by decide
    rw [hnone] at hfits
    exact absurd hfits (by simp)
  · rintro ⟨record, hfits⟩
    have hnone :
        logMessageBlock datedEnv 0 opRead (charSlash :: List.replicate 79 0x61) = none := by
      decide
    rw [hnone] at hfits
    exact absurd hfits (by simp)

end SistOp.FatFuse
