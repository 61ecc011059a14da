import SistOp.BigBrother
import Mathlib.Tactic

/-!
# The FUSE operations (`fat_fuse_ops.c`)

Every operation returns its result and the new state, or faults.  `FuseEnv` is
what the operations get from the library and from memory they do not own.  An
open file is the number of its tree node, the `fi->fh` of FUSE.
-/

namespace SistOp.FatFuse

structure FuseEnv where
  /-- `getlogin`; null is `none`. -/
  login : Option CString
  /-- What `now_to_str` prints for a time. -/
  dateString : ℤ → CString
  /-- The bytes around a buffer on the stack. -/
  stack : ℤ → UInt8

abbrev logMessageSize : ℕ := 100

abbrev charTab : UInt8 := 0x09
abbrev charNewline : UInt8 := 0x0a

def opRead : CString := [0x72, 0x65, 0x61, 0x64]
def opWrite : CString := [0x77, 0x72, 0x69, 0x74, 0x65]

/-- The memory of a buffer that holds `bytes`. -/
def FuseEnv.buffer (env : FuseEnv) (bytes : List UInt8) : ℤ → UInt8 := fun i =>
  if 0 ≤ i then bytes.getD i.toNat (env.stack i) else env.stack i

variable (t : FatTable) (env : FuseEnv)

/-! ## Operations on file objects of the heap -/

/-- `fat_file_pwrite(file, buf, size, offset, parent)` on file pointers. -/
def pwriteFile (s : FsState) (file : ℕ) (buf : ℤ → UInt8) (size offset : ℕ)
    (parent : Option ℕ) : Option (ℤ × FsState) := do
  let f ← s.files.get file
  let p ← s.deref parent
  let (result, f, v) ← fatFilePwrite t s.vol f buf size offset p
  let files ← s.files.write file f
  some (result, { s with vol := v, files := files })

def preadFile (s : FsState) (file : ℕ) (buf : ℤ → UInt8) (size offset : ℕ)
    (parent : Option ℕ) : Option (ℤ × (ℤ → UInt8) × FsState) := do
  let f ← s.files.get file
  let p ← s.deref parent
  let (result, buf, f, v) ← fatFilePread t s.vol f buf size offset p
  let files ← s.files.write file f
  some (result, buf, { s with vol := v, files := files })

/-- Runs one of the operations that change a file and the volume. -/
def updateFile (s : FsState) (file : ℕ) (parent : Option ℕ)
    (op : Volume → FatFile → Option FatFile → Option (FatFile × Volume)) :
    Option FsState := do
  let f ← s.files.get file
  let p ← s.deref parent
  let (f, v) ← op s.vol f p
  let files ← s.files.write file f
  some { s with vol := v, files := files }

def utimeFile (s : FsState) (file : ℕ) (parent : Option ℕ) (actime modtime : ℤ) :
    Option FsState :=
  updateFile s file parent fun v f p => fatUtime t v f p actime modtime

def truncateFile (s : FsState) (file : ℕ) (offset : ℕ) (parent : Option ℕ) :
    Option FsState :=
  updateFile s file parent fun v f p => fatFileTruncate t v f offset p

def deleteFile (s : FsState) (file : ℕ) (parent : Option ℕ) : Option FsState :=
  updateFile s file parent fun v f p => fatFileDelete t v f p

/-- `fat_file_dentry_add_child(parent, child)` on file pointers. -/
def dentryAddChild (s : FsState) (parent child : ℕ) : Option FsState := do
  let p ← s.files.get parent
  let c ← s.files.get child
  let (p, c, v) ← fatFileDentryAddChild t s.vol p c
  let files ← s.files.write parent p
  let files ← files.write child c
  some { s with vol := v, files := files }

/-! ## The activity log -/

/-- The message of `fat_fuse_log_activity`; with its terminator it must fit into
the buffer. -/
def logMessage (now : ℤ) (operationType filepath : CString) : Option CString := do
  let login ← env.login
  let message := env.dateString now ++ charTab :: login ++ charTab :: filepath ++
    charTab :: operationType ++ [charNewline]
  if message.length < logMessageSize then some message else none

def fatFuseLogActivity (s : FsState) (operationType : CString) (file : ℕ) :
    Option (ℤ × FsState) := do
  let (now, v) := time s.vol
  let s := { s with vol := v }
  let f ← s.files.get file
  let message ← logMessage env now operationType f.filepath
  if f.filepath ≠ bbLogFile then
    match ← fatTreeNodeSearch s bbLogFile with
    | none => some (- s.errno, s)
    | some logFileNode => do
        let logFile ← fatTreeGetFile s logFileNode
        let log ← s.files.get logFile
        if fatFileIsDirectory log then some (- Errno.eisdir, s)
        else
          let (parent, s) ← fatTreeGetParent s logFileNode
          if message.length = 0 then some (0, s)
          else
            pwriteFile t s logFile (env.buffer message) message.length
              log.dentry.fileSize parent
  else some (0, s)

/-! ## Attributes and handles -/

/-- The result of `fat_fuse_getattr`; the attributes are not modelled. -/
def fatFuseGetattr (s : FsState) (path : CString) : Option (ℤ × FsState) := do
  let (file, s) ← fatTreeSearch s path
  match file with
  | none => some (- Errno.enoent, s.setErrno Errno.enoent)
  | some _ => some (0, s)

/-- `fat_fuse_open` and `fat_fuse_opendir`: the result and the handle. -/
def openNode (s : FsState) (path : CString) (wantDirectory : Bool) (error : ℤ) :
    Option (ℤ × Option ℕ × FsState) := do
  match ← fatTreeNodeSearch s path with
  | none => some (- s.errno, none, s)
  | some node => do
      let file ← fatTreeGetFile s node
      let f ← s.files.get file
      if fatFileIsDirectory f ≠ wantDirectory then some (- error, none, s)
      else
        let s ← fatTreeIncNumTimesOpened s node
        some (0, some node, s)

def fatFuseOpen (s : FsState) (path : CString) :
    Option (ℤ × Option ℕ × FsState) :=
  openNode s path false Errno.eisdir

def fatFuseOpendir (s : FsState) (path : CString) :
    Option (ℤ × Option ℕ × FsState) :=
  openNode s path true Errno.enotdir

def fatFuseRelease (s : FsState) (fh : ℕ) : Option (ℤ × FsState) := do
  let s ← fatTreeDecNumTimesOpened s fh
  some (0, s)

def fatFuseReleasedir (s : FsState) (fh : ℕ) : Option (ℤ × FsState) := do
  let s ← fatTreeDecNumTimesOpened s fh
  some (0, s)

/-! ## Creation -/

/-- `fat_fuse_mkdir` and `fat_fuse_mknod`.  They differ in the kind of the file
and in the test of `errno` after `fat_file_init`. -/
def createEntry (isDir : Bool) (failed : ℤ → Bool) (s : FsState)
    (path : CString) : Option (ℤ × FsState) := do
  let s := s.setErrno 0
  match ← fatTreeNodeSearch s (dirname path) with
  | none => some (- Errno.enoent, s.setErrno Errno.enoent)
  | some parentNode => do
      let parent ← fatTreeGetFile s parentNode
      let p ← s.files.get parent
      if fatFileIsDirectory p = false then
        some (- Errno.enotdir, s.setErrno Errno.enotdir)
      else
        let result ← fatFileInit t s.vol isDir path
        let (newFile, s) := allocResult s result
        if failed s.errno then some (- s.errno, s)
        else
          let s ← fatTreeInsert s (some parentNode) newFile
          let child ← newFile
          let s ← dentryAddChild t s parent child
          some (- s.errno, s)

def fatFuseMkdir (s : FsState) (path : CString) : Option (ℤ × FsState) :=
  createEntry t true (fun errno => errno != 0) s path

def fatFuseMknod (s : FsState) (path : CString) : Option (ℤ × FsState) :=
  createEntry t false (fun errno => decide (errno < 0)) s path

/-- `create_log_file`. -/
def createLogFile (s : FsState) : Option (ℤ × FsState) := do
  let s := s.setErrno 0
  let (dirCluster, v) ← searchBbOrphanDirCluster t env.stack s.vol
  let (result, s) ← bbInitLogDir t env.stack { s with vol := v } dirCluster
  let s := s.setErrno result
  if s.errno ≠ 0 then some (s.errno, s)
  else if dirCluster = 0 then do
    let (mknod, s) ← fatFuseMknod t s bbLogFile
    if mknod ≠ 0 then some (s.errno, s) else some (0, s)
  else some (0, s)

/-! ## Listing -/

/-- `fat_fuse_read_children`. -/
def fatFuseReadChildren (s : FsState) (dirNode : ℕ) : Option FsState := do
  let s := s.setErrno 0
  let dirFile ← fatTreeGetFile s dirNode
  let dir ← s.files.get dirFile
  let (dir, children, v) ← fatFileReadChildren t s.vol dir
  let files ← s.files.write dirFile dir
  let s ← insertChildren (some dirNode) children { s with vol := v, files := files }
  let (logFile, s) ← fatTreeSearch s bbLogFile
  if logFile = none then do
    let (_, s) ← createLogFile t env s
    some s
  else some s

/-- A `fuse_fill_dir_t`: whether it refuses a name, given the names it took. -/
abbrev FillDir := List CString → CString → Bool

/-- Passes the names of children to the filler; the flag says that it refused. -/
def fillChildren (filler : FillDir) (s : FsState) :
    List ℕ → List CString → Option (List CString × Bool)
  | [], names => some (names, false)
  | child :: rest, names => do
      let f ← s.files.get child
      if f.filepath ≠ bbDirname then
        if filler names f.name then some (names, true)
        else fillChildren filler s rest (names ++ [f.name])
      else fillChildren filler s rest names

/-- `fat_fuse_readdir`: the result and the names the filler took. -/
def fatFuseReaddir (s : FsState) (filler : FillDir) (fh : ℕ) :
    Option (ℤ × List CString × FsState) := do
  let s := s.setErrno 0
  let dirFile ← fatTreeGetFile s fh
  if filler [] [charDot] then some (0, [], s)
  else if filler [[charDot]] [charDot, charDot] then some (0, [[charDot]], s)
  else
    let names := [[charDot], [charDot, charDot]]
    let dir ← s.files.get dirFile
    if fatFileIsDirectory dir = false then
      some (- Errno.enotdir, names, s.setErrno Errno.enotdir)
    else
      let s ← if dir.childrenRead = false then fatFuseReadChildren t env s fh
        else some s
      if dir.childrenRead = false ∧ s.errno < 0 then some (- s.errno, names, s)
      else
        let children ← fatTreeFlattenHChildren s fh
        let (names, refused) ← fillChildren filler s children names
        if refused then some (- s.errno, names, s) else some (0, names, s)

/-! ## Reading and writing -/

/-- `fat_fuse_read`: the result and the buffer. -/
def fatFuseRead (s : FsState) (buf : ℤ → UInt8) (size offset fh : ℕ) :
    Option (ℤ × (ℤ → UInt8) × FsState) := do
  let s := s.setErrno 0
  let file ← fatTreeGetFile s fh
  let (parent, s) ← fatTreeGetParent s fh
  let (bytesRead, buf, s) ← preadFile t s file buf size offset parent
  if s.errno ≠ 0 then some (- s.errno, buf, s)
  else
    let (_, s) ← fatFuseLogActivity t env s opRead file
    let _ ← fatTreePrintPreorder s
    let _ ← fatTablePrint t s.vol 0 50
    some (bytesRead, buf, s)

/-- `fat_fuse_write`.  Unlike the other operations it does not reset `errno`. -/
def fatFuseWrite (s : FsState) (buf : ℤ → UInt8) (size offset fh : ℕ) :
    Option (ℤ × FsState) := do
  let file ← fatTreeGetFile s fh
  let (parent, s) ← fatTreeGetParent s fh
  if size = 0 then some (0, s)
  else
    let f ← s.files.get file
    if f.dentry.fileSize < offset then some (- Errno.eoverflow, s)
    else
      let (_, s) ← fatFuseLogActivity t env s opWrite file
      pwriteFile t s file buf size offset parent

/-! ## Metadata and removal -/

/-- `fat_fuse_utime`. -/
def fatFuseUtime (s : FsState) (path : CString) (actime modtime : ℤ) :
    Option (ℤ × FsState) := do
  let s := s.setErrno 0
  match ← fatTreeNodeSearch s path with
  | none => some (- Errno.enoent, s.setErrno Errno.enoent)
  | some fileNode => do
      let (parent, s) ← fatTreeGetParent s fileNode
      if parent = none then some (0, s)
      else
        let file ← fatTreeGetFile s fileNode
        let s ← utimeFile t s file parent actime modtime
        some (- s.errno, s)

def fatFuseTruncate (s : FsState) (path : CString) (offset : ℕ) :
    Option (ℤ × FsState) := do
  let s := s.setErrno 0
  match ← fatTreeNodeSearch s path with
  | none => some (- Errno.enoent, s.setErrno Errno.enoent)
  | some fileNode => do
      let file ← fatTreeGetFile s fileNode
      let f ← s.files.get file
      if fatFileIsDirectory f then some (- Errno.eisdir, s)
      else
        let (parent, s) ← fatTreeGetParent s fileNode
        let s ← fatTreeIncNumTimesOpened s fileNode
        let s ← truncateFile t s file offset parent
        some (- s.errno, s)

def fatFuseUnlink (s : FsState) (path : CString) : Option (ℤ × FsState) := do
  let s := s.setErrno 0
  match ← fatTreeNodeSearch s path with
  | none => some (- Errno.enoent, s.setErrno Errno.enoent)
  | some fileNode => do
      let file ← fatTreeGetFile s fileNode
      let f ← s.files.get file
      if fatFileIsDirectory f then some (- Errno.eisdir, s)
      else
        let (parent, s) ← fatTreeGetParent s fileNode
        let s ← deleteFile t s file parent
        let s ← fatTreeDelete s path
        some (- s.errno, s)

def fatFuseRmdir (s : FsState) (path : CString) : Option (ℤ × FsState) := do
  let s := s.setErrno 0
  match ← fatTreeNodeSearch s path with
  | none => some (- Errno.enoent, s.setErrno Errno.enoent)
  | some fileNode => do
      let file ← fatTreeGetFile s fileNode
      let f ← s.files.get file
      if fatFileIsDirectory f = false then
        some (- Errno.enotdir, s.setErrno Errno.enotdir)
      else
        let children ← fatTreeFlattenHChildren s fileNode
        if children ≠ [] then some (- Errno.eisdir, s.setErrno Errno.eisdir)
        else
          let (parent, s) ← fatTreeGetParent s fileNode
          let s ← deleteFile t s file parent
          let s ← fatTreeDelete s path
          some (- s.errno, s)

/-! ## Runs -/

/-- `init_file_tree`: the state after mounting `v`, or `none` when mounting
fails. -/
def initFileTree (v : Volume) (rootDirStartCluster : ℕ) : Option FsState := do
  let (rootDir, v) ← fatFileInitOrphanDir v rootPath rootDirStartCluster
  let rootDir ← rootDir
  fatTreeInsert
    { vol := v, files := Heap.empty.alloc rootDir, nodes := Heap.empty
      fileTree := some none }
    none (some 0)

/-- A request of FUSE. -/
inductive FuseOp where
  | getattr (path : CString)
  | open (path : CString)
  | opendir (path : CString)
  | readdir (filler : FillDir) (fh : ℕ)
  | read (buf : ℤ → UInt8) (size offset fh : ℕ)
  | write (buf : ℤ → UInt8) (size offset fh : ℕ)
  | release (fh : ℕ)
  | releasedir (fh : ℕ)
  | mkdir (path : CString)
  | mknod (path : CString)
  | utime (path : CString) (actime modtime : ℤ)
  | truncate (path : CString) (offset : ℕ)
  | unlink (path : CString)
  | rmdir (path : CString)

/-- The result of a request and the state after it. -/
def fuseStep (s : FsState) : FuseOp → Option (ℤ × FsState)
  | .getattr path => fatFuseGetattr s path
  | .open path => (fatFuseOpen s path).map fun r => (r.1, r.2.2)
  | .opendir path => (fatFuseOpendir s path).map fun r => (r.1, r.2.2)
  | .readdir filler fh =>
      (fatFuseReaddir t env s filler fh).map fun r => (r.1, r.2.2)
  | .read buf size offset fh =>
      (fatFuseRead t env s buf size offset fh).map fun r => (r.1, r.2.2)
  | .write buf size offset fh => fatFuseWrite t env s buf size offset fh
  | .release fh => fatFuseRelease s fh
  | .releasedir fh => fatFuseReleasedir s fh
  | .mkdir path => fatFuseMkdir t s path
  | .mknod path => fatFuseMknod t s path
  | .utime path actime modtime => fatFuseUtime t s path actime modtime
  | .truncate path offset => fatFuseTruncate t s path offset
  | .unlink path => fatFuseUnlink t s path
  | .rmdir path => fatFuseRmdir t s path

/-- `FuseRun t env s ops s'`: the requests `ops`, served from `s`, lead to `s'`. -/
inductive FuseRun : FsState → List FuseOp → FsState → Prop
  | nil (s : FsState) : FuseRun s [] s
  | cons {s s' s'' : FsState} {op : FuseOp} {ops : List FuseOp} {result : ℤ}
      (step : fuseStep t env s op = some (result, s'))
      (rest : FuseRun s' ops s'') : FuseRun s (op :: ops) s''

/-- The states that requests lead to from a mounted volume. -/
def FuseReachable (s : FsState) : Prop :=
  ∃ v rootDirStartCluster mounted ops,
    initFileTree v rootDirStartCluster = some mounted ∧
      FuseRun t env mounted ops s

/-- A user `u`, and clocks that print nothing. -/
def plainEnv : FuseEnv where
  login := some [0x75]
  dateString := fun _ => []
  stack := fun _ => 0

end SistOp.FatFuse
