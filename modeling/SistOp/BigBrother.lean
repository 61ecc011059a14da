import SistOp.FatFsTree
import Mathlib.Tactic

/-!
# The log directory (`big_brother.c`)

The directory `/bb` has no entry in the root directory.  Its cluster is found
again by a mark in the FAT: the entry of the cluster says that it is bad.
-/

namespace SistOp.FatFuse

/-- `BB_DIRNAME`: the bytes of `/bb`. -/
def bbDirname : CString := [0x2f, 0x62, 0x62]

/-- `BB_LOG_FILE`: the bytes of `/bb/fs.log`. -/
def bbLogFile : CString :=
  [0x2f, 0x62, 0x62, 0x2f, 0x66, 0x73, 0x2e, 0x6c, 0x6f, 0x67]

/-- The path `/`. -/
def rootPath : CString := [charSlash]

/-- `bb_is_log_file_dentry`: `strncmp` of three bytes compares the terminator of
`fs` too. -/
def bbIsLogFileDentry (d : FatDirEntry) : Bool :=
  d.baseName 0 == 0x66 && d.baseName 1 == 0x73 && d.baseName 2 == 0 &&
    d.extension 0 == 0x6c && d.extension 1 == 0x6f && d.extension 2 == 0x67

variable (t : FatTable)

/-- The search loop of `search_bb_orphan_dir_cluster`; the number it returns is
the one at which it stops. -/
def searchBbLoop (v : Volume) : ℕ → ℕ → Option ℕ
  | 0, _ => none
  | fuel + 1, cluster => do
      let entry ← fatMapRead t v cluster
      if ¬ fatTableClusterIsBadSector entry ∧
          cluster < fatClusterEndOfChainMin / (fatTableBytesPerCluster t * 8) then
        searchBbLoop v fuel (cluster + 1)
      else some cluster

/-- `search_bb_orphan_dir_cluster`.  The buffer on the stack holds `stack` before
the entry is read into it. -/
def searchBbOrphanDirCluster (stack : ℤ → UInt8) (v : Volume) :
    Option (ℕ × Volume) := do
  let cluster ← searchBbLoop t v t.fatEntries 3
  let entry ← fatMapRead t v cluster
  if ¬ fatTableClusterIsBadSector entry then some (0, v)
  else
    let (_, buf, v) :=
      fullPread v stack fatDirEntryByteSize (fatTableClusterOffset t cluster : ℕ)
    if bbIsLogFileDentry (FatDirEntry.ofStore (fun i => buf i) 0) = false then do
      let v ← fatTableSetNextCluster t v cluster fatClusterFree
      some (0, v)
    else some (cluster, v)

/-- Allocates the file that an initializer returned; a null pointer stays null. -/
def allocResult (s : FsState) : Option FatFile × Volume → Option ℕ × FsState
  | (none, v) => (none, { s with vol := v })
  | (some file, v) =>
      (some s.files.next, ({ s with vol := v } : FsState).allocFile file)

def bbCreateNewOrphanDir (s : FsState) : Option (ℤ × FsState) := do
  let s := s.setErrno 0
  let cluster ← fatTableGetNextFreeCluster t s.vol
  let v ← fatTableSetNextCluster t s.vol cluster fatClusterBadSector
  let result ← fatFileInitOrphanDir v bbDirname cluster
  let (loadedBbDir, s) := allocResult s result
  let rootNode ← fatTreeNodeSearch s rootPath
  let s ← fatTreeInsert s rootNode loadedBbDir
  some (- s.errno, s)

/-- Inserts the files that a directory listing returned, in order. -/
def insertChildren (dirNode : HTree) : List FatFile → FsState → Option FsState
  | [], s => some s
  | file :: rest, s => do
      let s ← fatTreeInsert (s.allocFile file) dirNode (some s.files.next)
      insertChildren dirNode rest s

/-- The branch of `bb_init_log_dir` that loads the directory at `startCluster`. -/
def bbLoadLogDir (stack : ℤ → UInt8) (s : FsState) (startCluster : ℕ) :
    Option FsState := do
  let offsetBb : ℕ := fatTableClusterOffset t startCluster
  let (_, buf, v) := fullPread s.vol stack fatDirEntryByteSize offsetBb
  let result ← fatFileInitOrphanDir v bbDirname startCluster
  let (loadedBbDir, s) := allocResult s result
  let (_, v) := fullPwrite s.vol buf fatDirEntryByteSize offsetBb
  let s := { s with vol := v }
  let rootNode ← fatTreeNodeSearch s rootPath
  let s ← fatTreeInsert s rootNode loadedBbDir
  let dirNode ← fatTreeNodeSearch s bbDirname
  let loaded ← loadedBbDir
  let dir ← s.files.get loaded
  let (dir, children, v) ← fatFileReadChildren t s.vol dir
  let files ← s.files.write loaded dir
  insertChildren dirNode children { s with vol := v, files := files }

def bbInitLogDir (stack : ℤ → UInt8) (s : FsState) (startCluster : ℕ) :
    Option (ℤ × FsState) := do
  let s := s.setErrno 0
  let s ←
    if startCluster = 0 then do
      let (result, s) ← bbCreateNewOrphanDir t s
      some (s.setErrno result)
    else bbLoadLogDir t stack s startCluster
  some (- s.errno, s)

end SistOp.FatFuse
