import SistOp.FatTable
import SistOp.FatFilenameUtil
import Mathlib.Tactic

/-!
# Files (`fat_file.c`)

The operations take and return the `struct fat_file_s` values they work on; the
operations of `fat_fuse_ops.c` keep these values in a heap.  A null parent is
`none`, and writing through it is a fault.
-/

namespace SistOp.FatFuse

/-- `struct fat_file_s` without its table, which all files of a volume share.
`nentries` stands for the whole union: nothing reads `file.num_clusters`. -/
structure FatFile where
  dentry : FatDirEntry
  name : CString
  filepath : CString
  startCluster : ℕ
  startCluster_lt : startCluster < 2 ^ 32
  nentries : ℕ
  posInParent : ℕ
  numTimesOpened : ℕ
  childrenRead : Bool
  deriving DecidableEq

/-- The conversion to `size_t` of an expression that may have wrapped. -/
def sizeT (z : ℤ) : ℕ := (z % 2 ^ 64).toNat

variable (t : FatTable)

/-- `fill_dentry_time_now`. -/
def fillDentryTimeNow (v : Volume) (d : FatDirEntry)
    (fillCreate fillModified : Bool) : FatDirEntry × Volume :=
  let (now, v) := time v
  if fillCreate = true ∧ fillModified = false then (d, v)
  else
    let (entryDate, entryTime) := fillTime now
    let d :=
      if fillModified then
        ((d.setLastModifiedDate entryDate.toNat).setLastModifiedTime
          entryTime.toNat).setLastAccessDate entryDate.toNat
      else d.setLastAccessDate entryDate.toNat
    if fillCreate then
      ((d.setCreateDate d.lastModifiedDate).setCreateTime d.lastModifiedTime, v)
    else (d, v)

/-- The dates and times lie at 14 to 19 and 22 to 25. -/
theorem byte_fillDentryTimeNow (v : Volume) (d : FatDirEntry)
    (fillCreate fillModified : Bool) {i : ℕ}
    (hi : i < 14 ∨ i = 20 ∨ i = 21 ∨ 26 ≤ i) :
    (fillDentryTimeNow v d fillCreate fillModified).1.byte i = d.byte i := by
  have h14 (d : FatDirEntry) (n : ℕ) : (d.setLe16 14 n).byte i = d.byte i :=
    FatDirEntry.byte_setLe16_of_ne d (by omega) n (by omega) (by omega)
  have h16 (d : FatDirEntry) (n : ℕ) : (d.setLe16 16 n).byte i = d.byte i :=
    FatDirEntry.byte_setLe16_of_ne d (by omega) n (by omega) (by omega)
  have h18 (d : FatDirEntry) (n : ℕ) : (d.setLe16 18 n).byte i = d.byte i :=
    FatDirEntry.byte_setLe16_of_ne d (by omega) n (by omega) (by omega)
  have h22 (d : FatDirEntry) (n : ℕ) : (d.setLe16 22 n).byte i = d.byte i :=
    FatDirEntry.byte_setLe16_of_ne d (by omega) n (by omega) (by omega)
  have h24 (d : FatDirEntry) (n : ℕ) : (d.setLe16 24 n).byte i = d.byte i :=
    FatDirEntry.byte_setLe16_of_ne d (by omega) n (by omega) (by omega)
  cases fillCreate <;> cases fillModified <;>
    simp [fillDentryTimeNow, FatDirEntry.setLastModifiedDate,
      FatDirEntry.setLastModifiedTime, FatDirEntry.setLastAccessDate,
      FatDirEntry.setCreateDate, FatDirEntry.setCreateTime, h14, h16, h18, h22, h24]

/-! ## Initializers -/

/-- `fat_file_init_direntry`. -/
def fatFileInitDirentry (v : Volume) (isDir : Bool) (filepath : CString)
    (startCluster : ℕ) : Option (FatDirEntry × Volume) := do
  let (src, v) := strdup v (basename filepath)
  let entry ← filenameFromPath (basename filepath) src FatDirEntry.zero
  let entry := entry.setAttribs
    (if isDir then fileAttributeDirectory else fileAttributeArchive)
  let entry := (entry.setReserved 0).setCreateTimeFineRes 0
  let (entry, v) := fillDentryTimeNow v entry true true
  some ((entry.setFirstCluster startCluster).setFileSize 0, v)

/-- `fat_file_init_empty` with the directory entry it is given next. -/
def fatFileInitEmpty (filepath : CString) (dentry : FatDirEntry) : FatFile where
  dentry := dentry
  name := cString (buildFilename dentry)
  filepath := filepath
  startCluster := dentry.fileStartCluster
  startCluster_lt := dentry.fileStartCluster_lt
  nentries := 0
  posInParent := 0
  numTimesOpened := 0
  childrenRead := false

/-- `fat_file_init_orphan_dir`; the inner `none` is the null pointer that it
returns when `errno` is set. -/
def fatFileInitOrphanDir (v : Volume) (name : CString) (startCluster : ℕ) :
    Option (Option FatFile × Volume) := do
  let (entry, v) ← fatFileInitDirentry v true name startCluster
  if v.errno ≠ 0 then some (none, v)
  else
    some
      (some
        { fatFileInitEmpty name entry with
          startCluster := startCluster % 2 ^ 32
          startCluster_lt := Nat.mod_lt _ (by norm_num) }, v)

/-- `init_file_from_dentry`. -/
def initFileFromDentry (dentry : FatDirEntry) (parent : FatFile) : FatFile :=
  { fatFileInitEmpty
      (filepathFromName parent.filepath (cString (buildFilename dentry))) dentry
    with posInParent := parent.nentries }

/-- `fat_file_init`; the inner `none` is the null pointer it returns on errors. -/
def fatFileInit (v : Volume) (isDir : Bool) (filepath : CString) :
    Option (Option FatFile × Volume) := do
  if v.errno < 0 then some (none, v)
  else
    let startCluster ← fatTableGetNextFreeCluster t v
    let used ← fatTableIsClusterUsed t v startCluster
    if used then some (none, { v with errno := Errno.enospc })
    else
      let (dentry, v) ← fatFileInitDirentry v isDir filepath startCluster
      let v ← fatTableSetNextCluster t v startCluster fatClusterEndOfChainMax
      if v.errno ≠ 0 then some (none, v)
      else some (some (fatFileInitEmpty filepath dentry), v)

/-! ## Metadata -/

def fatFileIsDirectory (file : FatFile) : Bool :=
  file.dentry.attribs &&& fileAttributeDirectory != 0

/-- The counter is a bit field of 31 bits. -/
def fatFileIncNumTimesOpened (file : FatFile) : FatFile :=
  { file with numTimesOpened := (file.numTimesOpened + 1) % 2 ^ 31 }

def fatFileDecNumTimesOpened (file : FatFile) : FatFile :=
  { file with numTimesOpened := (file.numTimesOpened + (2 ^ 31 - 1)) % 2 ^ 31 }

/-- `write_dir_entry`.  The number of written bytes is compared as an unsigned
number, so a failed `pwrite` (-1) does not count as short; it has set `errno`. -/
def writeDirEntry (v : Volume) (parent : Option FatFile) (file : FatFile) :
    Option Volume := do
  let parent ← parent
  let chunkSize := fatTableBytesPerCluster t
  let parentOffset := fatTableClusterOffset t parent.startCluster
  if chunkSize ≤ file.posInParent * fatDirEntryByteSize then
    some { v with errno := Errno.enospc }
  else
    let entryOffset : ℕ := file.posInParent * fatDirEntryByteSize + parentOffset
    let (writtenBytes, v) :=
      pwrite v (fun i => file.dentry.byte i.toNat) fatDirEntryByteSize entryOffset
    if 0 ≤ writtenBytes ∧ writtenBytes < fatDirEntryByteSize then
      some { v with errno := Errno.eio }
    else some v

/-- `fat_utime`. -/
def fatUtime (v : Volume) (file : FatFile) (parent : Option FatFile)
    (actime modtime : ℤ) : Option (FatFile × Volume) := do
  let (accdate, _) := fillTime actime
  let (moddate, modtime) := fillTime modtime
  let dentry := ((file.dentry.setLastAccessDate accdate.toNat).setLastModifiedDate
    moddate.toNat).setLastModifiedTime modtime.toNat
  let file := { file with dentry := dentry }
  let v ← writeDirEntry t v parent file
  some (file, v)

/-! ## Directories -/

/-- `fat_file_dentry_add_child`. -/
def fatFileDentryAddChild (v : Volume) (parent child : FatFile) :
    Option (FatFile × FatFile × Volume) := do
  let child := { child with posInParent := parent.nentries }
  let v ← writeDirEntry t v (some parent) child
  if v.errno ≠ 0 then some (parent, child, v)
  else some ({ parent with nentries := (parent.nentries + 1) % 2 ^ 32 }, child, v)

def isEndOfDirectory (diskDentry : FatDirEntry) : Bool :=
  diskDentry.baseName 0 == 0

def ignoreDentry (diskDentry : FatDirEntry) : Bool :=
  diskDentry.attribs &&& fileAttributeVolume != 0 ||
    !fileBasenameValid diskDentry || !fileExtensionValid diskDentry

/-- `read_cluster_dir_entries` from slot `slot` of the buffer on. -/
def readClusterDirEntries (buffer : ℕ → UInt8) :
    ℕ → ℕ → FatFile → List FatFile → FatFile × List FatFile
  | 0, _, dir, elems => (dir, elems)
  | slots + 1, slot, dir, elems =>
      let diskDentry := FatDirEntry.ofStore buffer (fatDirEntryByteSize * slot)
      let dir := { dir with nentries := slot }
      if isEndOfDirectory diskDentry then ({ dir with childrenRead := true }, elems)
      else if ignoreDentry diskDentry then
        readClusterDirEntries buffer slots (slot + 1) dir elems
      else
        readClusterDirEntries buffer slots (slot + 1) dir
          (elems ++ [initFileFromDentry diskDentry dir])

/-- The loop of `fat_file_read_children`. -/
def readChildrenLoop :
    ℕ → Volume → ℕ → FatFile → List FatFile →
      Option (FatFile × List FatFile × Volume)
  | 0, _, _, _, _ => none
  | fuel + 1, v, curCluster, dir, elems =>
      if fatTableClusterIsValid curCluster then do
        let bytesPerCluster := fatTableBytesPerCluster t
        let (bytesRead, buf, v) :=
          fullPread v (fun _ => 0) bytesPerCluster
            (fatTableClusterOffset t curCluster : ℕ)
        if bytesRead ≠ bytesPerCluster then
          some (dir, [], { v with errno := Errno.eio })
        else
          let (dir, elems) :=
            readClusterDirEntries (fun i => buf i)
              (bytesPerCluster / fatDirEntryByteSize) 0 dir elems
          let curCluster ← fatTableGetNextCluster t v curCluster
          readChildrenLoop fuel v curCluster dir elems
      else some ({ dir with childrenRead := true }, elems, v)

/-- `fat_file_read_children`.  Nothing it does changes the FAT, so a chain that
is longer than the table is a cycle, which only a failing read can leave. -/
def fatFileReadChildren (v : Volume) (dir : FatFile) :
    Option (FatFile × List FatFile × Volume) :=
  if fatTableIsValidClusterNumber t dir.startCluster then
    readChildrenLoop t (t.fatEntries + v.io.length + 1) v dir.startCluster dir []
  else some (dir, [], { v with errno := Errno.eio })

/-! ## Reading and writing -/

/-- The loop of `fat_file_pread`; it returns the bytes that remain. -/
def preadLoop :
    ℕ → Volume → (ℤ → UInt8) → ℕ → ℕ → ℕ → ℕ → Option (ℕ × (ℤ → UInt8) × Volume)
  | 0, _, _, _, _, _, _ => none
  | fuel + 1, v, buf, pos, cluster, bytesRemaining, offset =>
      if bytesRemaining = 0 then some (bytesRemaining, buf, v)
      else if ¬ fatTableClusterIsValid cluster then some (bytesRemaining, buf, v)
      else do
        let bytesToRead :=
          fatTableGetClusterRemainingBytes t bytesRemaining offset
        let clusterOff : ℕ :=
          fatTableClusterOffset t cluster + fatTableMaskOffset t offset
        let (bytesRead, target, v) :=
          fullPread v (fun i => buf (pos + i)) bytesToRead clusterOff
        let buf := fun i => target (i - pos)
        if bytesRead ≠ bytesToRead then some (bytesRemaining, buf, v)
        else
          let cluster ← fatTableGetNextCluster t v cluster
          preadLoop fuel v buf (pos + bytesToRead) cluster
            (bytesRemaining - bytesToRead) (offset + bytesToRead)

/-- `fat_file_pread`: the result, the buffer, and the file with its new access
date. -/
def fatFilePread (v : Volume) (file : FatFile) (buf : ℤ → UInt8)
    (size offset : ℕ) (parent : Option FatFile) :
    Option (ℤ × (ℤ → UInt8) × FatFile × Volume) := do
  if file.dentry.fileSize < offset then
    some (0, buf, file, { v with errno := Errno.eoverflow })
  else
    let size := min size (file.dentry.fileSize - offset)
    if size = 0 then some (0, buf, file, v)
    else
      let (cluster, v) ← fatTableSeekCluster t v file.startCluster offset
      if v.errno ≠ 0 then some (0, buf, file, v)
      else
        let (bytesRemaining, buf, v) ←
          preadLoop t (size + 1) v buf 0 cluster size offset
        let (dentry, v) := fillDentryTimeNow v file.dentry false false
        let file := { file with dentry := dentry }
        let v ← writeDirEntry t v parent file
        some ((size : ℤ) - bytesRemaining, buf, file, v)

/-- The loop that frees the clusters of a chain.  It frees an entry or uses up an
outcome of `io` in each round. -/
def freeChainLoop : ℕ → Volume → ℕ → Option Volume
  | 0, _, _ => none
  | fuel + 1, v, cluster =>
      if fatTableClusterIsValid cluster then do
        let nextCluster ← fatTableGetNextCluster t v cluster
        let v ← fatTableSetNextCluster t v cluster fatClusterFree
        freeChainLoop fuel v nextCluster
      else some v

def freeChain (v : Volume) (cluster : ℕ) : Option Volume :=
  freeChainLoop t (t.fatEntries + v.io.length + 1) v cluster

/-- `fat_file_truncate`. -/
def fatFileTruncate (v : Volume) (file : FatFile) (offset : ℕ)
    (parent : Option FatFile) : Option (FatFile × Volume) := do
  if file.dentry.fileSize < offset then some (file, v)
  else
    let (lastCluster, v) ← fatTableSeekCluster t v file.startCluster offset
    if v.errno ≠ 0 then some (file, v)
    else
      let nextCluster ← fatTableGetNextCluster t v lastCluster
      let v ← fatTableSetNextCluster t v lastCluster fatClusterEndOfChainMax
      if v.errno ≠ 0 then some (file, v)
      else
        let v ← freeChain t v nextCluster
        let dentry := file.dentry.setFileSize offset
        let (dentry, v) := fillDentryTimeNow v dentry false true
        let file := { file with dentry := dentry }
        let v ← writeDirEntry t v parent file
        some (file, v)

/-- `next_or_new_cluster`. -/
def nextOrNewCluster (v : Volume) (lastCluster : ℕ) : Option (ℕ × Volume) := do
  let next ← fatTableGetNextCluster t v lastCluster
  if fatTableClusterIsEOC next then
    let next ← fatTableGetNextFreeCluster t v
    if fatTableClusterIsEOC next then
      some (0, { v with errno := Errno.eio })
    else
      let v ← fatTableSetNextCluster t v lastCluster next
      let v ← fatTableSetNextCluster t v next fatClusterEndOfChainMax
      if v.errno ≠ 0 then some (0, v) else some (next, v)
  else some (next, v)

/-- The first cluster that `fat_file_pwrite` writes to: the one of the byte in
front of `offset`, or the one after it when `offset` starts a cluster. -/
def pwriteFirstCluster (v : Volume) (file : FatFile) (offset : ℕ) :
    Option (ℕ × Volume) := do
  let startingPoint := if offset ≠ 0 then offset - 1 else 0
  let (cluster, v) ← fatTableSeekCluster t v file.startCluster startingPoint
  if offset % fatTableBytesPerCluster t = 0 ∧ cluster ≠ 0 ∧ offset ≠ 0 then
    nextOrNewCluster t v cluster
  else some (cluster, v)

/-- The loop of `fat_file_pwrite`; it returns the bytes that remain. -/
def pwriteLoop (buf : ℤ → UInt8) :
    ℕ → Volume → ℕ → ℕ → ℕ → ℕ → Option (ℤ × Volume)
  | 0, _, _, _, _, _ => none
  | fuel + 1, v, pos, cluster, bytesRemaining, offset =>
      if bytesRemaining = 0 then some (bytesRemaining, v)
      else
        let bytesToWrite :=
          fatTableGetClusterRemainingBytes t bytesRemaining offset
        let clusterOff : ℕ :=
          fatTableClusterOffset t cluster + fatTableMaskOffset t offset
        let (bytesWritten, v) :=
          fullPwrite v (fun i => buf (pos + i)) bytesToWrite clusterOff
        if bytesWritten ≠ bytesToWrite then
          some ((bytesRemaining : ℤ) - bytesWritten, v)
        else if 0 < bytesRemaining - bytesToWrite then do
          let (cluster, v) ← nextOrNewCluster t v cluster
          if v.errno ≠ 0 ∨ ¬ fatTableClusterIsValid cluster then
            some (((bytesRemaining - bytesToWrite : ℕ) : ℤ), v)
          else
            pwriteLoop buf fuel v (pos + bytesToWrite) cluster
              (bytesRemaining - bytesToWrite) (offset + bytesToWrite)
        else some (0, v)

/-- `fat_file_pwrite` of the first `size` bytes of `buf`. -/
def fatFilePwrite (v : Volume) (file : FatFile) (buf : ℤ → UInt8)
    (size offset : ℕ) (parent : Option FatFile) :
    Option (ℤ × FatFile × Volume) := do
  if file.dentry.fileSize < offset then
    some (0, file, { v with errno := Errno.eoverflow })
  else
    let (cluster, v) ← pwriteFirstCluster t v file offset
    if v.errno ≠ 0 then some (- v.errno, file, v)
    else
      let (bytesRemaining, v) ← pwriteLoop t buf (size + 1) v 0 cluster size offset
      let newEnd := sizeT ((offset : ℤ) + size - bytesRemaining)
      let dentry :=
        if file.dentry.fileSize < newEnd then file.dentry.setFileSize newEnd
        else file.dentry
      let (dentry, v) := fillDentryTimeNow v dentry false true
      let file := { file with dentry := dentry }
      let v ← writeDirEntry t v parent file
      some ((size : ℤ) - bytesRemaining, file, v)

/-- `fat_file_delete`. -/
def fatFileDelete (v : Volume) (file : FatFile) (parent : Option FatFile) :
    Option (FatFile × Volume) := do
  let nextCluster ← fatTableGetNextCluster t v file.startCluster
  let v ← fatTableSetNextCluster t v file.startCluster fatClusterFree
  if v.errno ≠ 0 then some (file, v)
  else
    let v ← freeChain t v nextCluster
    let dentry := file.dentry.setFileSize 0
    let (dentry, v) := fillDentryTimeNow v dentry false true
    let file := { file with dentry := dentry.setByte 0 fatFilenameDeletedChar }
    let v ← writeDirEntry t v parent file
    some (file, v)

end SistOp.FatFuse
