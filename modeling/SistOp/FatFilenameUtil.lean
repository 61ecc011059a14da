import SistOp.FatDirEntry
import Mathlib.Tactic

/-!
# File names (`fat_filename_util.c`)

A directory entry stores a base of eight bytes and an extension of three.
`filenameFromPath` fills them from a name in memory, `buildFilename` prints them.
The encoder looks at memory through a pointer, so its source is a function from
indices to bytes; `CString` values are the bytes up to a terminator.
-/

namespace SistOp.FatFuse

abbrev charSpace : UInt8 := 0x20
abbrev charDot : UInt8 := 0x2e
abbrev charSlash : UInt8 := 0x2f

/-- The bytes of a C string stored in a buffer. -/
def cString (buf : List UInt8) : CString := buf.takeWhile (· != 0)

/-- `_fat_char_tab`: letters, digits, bytes from 128 on, the space and
`$ % - _ @ ~ backquote ! ( ) { } ^ # &`. -/
def charLegalInFilename (c : UInt8) : Bool :=
  (0x61 ≤ c && c ≤ 0x7a) || (0x41 ≤ c && c ≤ 0x5a) || (0x30 ≤ c && c ≤ 0x39) ||
    128 ≤ c ||
    [0x20, 0x24, 0x25, 0x2d, 0x5f, 0x40, 0x7e, 0x60, 0x21, 0x28, 0x29, 0x7b,
      0x7d, 0x5e, 0x23, 0x26].contains c

/-- The `do` loop of `file_basename_valid` from index `i` on. -/
def fileBasenameLoop (d : FatDirEntry) : ℕ → ℕ → Bool
  | 0, _ => true
  | fuel + 1, i =>
      if charLegalInFilename (d.baseName i) = false then false
      else if i + 1 ≠ 8 ∧ d.baseName (i + 1) ≠ 0 ∧
          d.baseName (i + 1) ≠ charSpace then
        fileBasenameLoop d fuel (i + 1)
      else true

def fileBasenameValid (d : FatDirEntry) : Bool :=
  if d.baseName 0 = 0 ∨ d.baseName 0 = charSpace ∨ d.baseName 0 = 0xe5 then false
  else fileBasenameLoop d 8 0

/-- The `for` loop of `file_extension_valid` from index `i` on. -/
def fileExtensionLoop (d : FatDirEntry) : ℕ → ℕ → Bool
  | 0, _ => true
  | fuel + 1, i =>
      if i < 3 ∧ d.extension i ≠ 0 ∧ d.extension i ≠ charSpace then
        if charLegalInFilename (d.extension i) = false then false
        else fileExtensionLoop d fuel (i + 1)
      else true

def fileExtensionValid (d : FatDirEntry) : Bool := fileExtensionLoop d 3 0

/-- `filename_len` counts down from `maxLen` over spaces and zeros. -/
def filenameLen (name : ℕ → UInt8) : ℕ → ℕ
  | 0 => 0
  | len + 1 =>
      if name len ≠ charSpace ∧ name len ≠ 0 then len + 1
      else filenameLen name len

/-- `build_filename`: the bytes it writes before the terminator. -/
def buildFilename (d : FatDirEntry) : List UInt8 :=
  let nameLen := filenameLen d.baseName 8
  if nameLen = 0 then [charSlash]
  else
    let extensionLen := filenameLen d.extension 3
    (List.range nameLen).map d.baseName ++
      if extensionLen = 0 then []
      else charDot :: (List.range extensionLen).map d.extension

/-- `strrchr`: the index of the last `c`. -/
def strrchr : CString → UInt8 → Option ℕ
  | [], _ => none
  | x :: xs, c =>
      match strrchr xs c with
      | some i => some (i + 1)
      | none => if x = c then some 0 else none

/-- The `do` loop of `filename_from_path`: it copies the byte at `i` and goes on
while the next index is below `nameLen` and is not the last dot. -/
def copyBase (src : ℕ → UInt8) (nameLen : ℕ) (dotPos : Option ℕ) :
    ℕ → ℕ → FatDirEntry → ℕ × FatDirEntry
  | 0, i, d => (i, d)
  | fuel + 1, i, d =>
      let d := d.setByte i (src i)
      if i + 1 < nameLen ∧ dotPos ≠ some (i + 1) then
        copyBase src nameLen dotPos fuel (i + 1) d
      else (i + 1, d)

/-- The `while` loop of `filename_from_path` on the bytes behind the dot.  It does
not stop at three bytes: a longer extension runs into the fields behind it, and
past the entry it is a fault. -/
def copyExtension : CString → ℕ → FatDirEntry → Option (ℕ × FatDirEntry)
  | [], j, d => some (j, d)
  | c :: rest, j, d =>
      if c ≠ charSpace ∧ c ≠ 0 then
        if 8 + j < fatDirEntryByteSize then
          copyExtension rest (j + 1) (d.setByte (8 + j) c)
        else none
      else some (j, d)

/-- `filename_from_path` on the name `name`, stored at the start of `src`. -/
def filenameFromPath (name : CString) (src : ℕ → UInt8) (d : FatDirEntry) :
    Option FatDirEntry := do
  let nameLen := filenameLen src 8
  if nameLen = 0 then some ((d.setByte 0 0).setByte 8 0)
  else
    let dotPos := strrchr name charDot
    let (i, d) := copyBase src nameLen dotPos nameLen 0 d
    let (j, d) ←
      if dotPos ≠ none ∧ i < nameLen then copyExtension (name.drop (i + 1)) 0 d
      else some (0, d)
    if j < 3 then some (d.setByte (8 + (j + 1)) 0) else some d

/-- `filepath_from_name`: the string it builds. -/
def filepathFromName (parentFilepath fileName : CString) : CString :=
  if parentFilepath.getLast? ≠ some charSlash then
    parentFilepath ++ charSlash :: fileName
  else parentFilepath ++ fileName

/-! ## Library functions on paths -/

/-- `strcmp`: bytes compare as unsigned numbers. -/
def strcmp : CString → CString → Ordering
  | [], [] => .eq
  | [], _ :: _ => .lt
  | _ :: _, [] => .gt
  | x :: xs, y :: ys =>
      if x < y then .lt else if y < x then .gt else strcmp xs ys

/-- `basename` of `string.h`: what follows the last slash. -/
def basename (path : CString) : CString :=
  (path.reverse.takeWhile (· != charSlash)).reverse

/-- `dirname` of `libgen.h`. -/
def dirname (path : CString) : CString :=
  match path.reverse.dropWhile (· == charSlash) with
  | [] => if path = [] then [charDot] else [charSlash]
  | last :: rest =>
      match (last :: rest).dropWhile (· != charSlash) with
      | [] => [charDot]
      | parent =>
          match parent.dropWhile (· == charSlash) with
          | [] => [charSlash]
          | kept => kept.reverse

/-- The parents of `/b/f` and of `/b`. -/
example : dirname [0x2f, 0x62, 0x2f, 0x66] = [0x2f, 0x62] ∧
    dirname [0x2f, 0x62] = [0x2f] := by decide

theorem strcmp_eq_iff (xs ys : CString) : strcmp xs ys = .eq ↔ xs = ys := by
  induction xs generalizing ys with
  | nil => cases ys <;> simp [strcmp]
  | cons x xs ih =>
      cases ys with
      | nil => simp [strcmp]
      | cons y ys =>
          by_cases hlt : x < y
          · simp [strcmp, hlt, UInt8.ne_of_lt hlt]
          · by_cases hgt : y < x
            · simp [strcmp, hlt, hgt, (UInt8.ne_of_lt hgt).symm]
            · have heq : x = y :=
                UInt8.le_antisymm (UInt8.not_lt.mp hgt) (UInt8.not_lt.mp hlt)
              simp [strcmp, heq, ih]

end SistOp.FatFuse
