import SistOp.InterruptedWrites
import SistOp.DirectoryRemoval
import SistOp.FileModel
import Mathlib.Tactic

/-!
# Empty files without a cluster

An empty file that another driver made has the start cluster 0.  A request that takes this
number for a cluster writes to the entry 0 of the FAT, or to the cluster of number
`0 - 2`.  Requests that do not get that far keep to their places.
-/

namespace SistOp.FatFuse

open ByteStore

variable {t : FatTable} {env : FuseEnv}

/-! ## Places -/

/-- What no transfer changes of a file. -/
def FatFile.place (f : FatFile) : ℕ × CString × ℕ × UInt8 :=
  (f.startCluster, f.filepath, f.posInParent, f.dentry.attribs)

/-- Where requests for the nodes `files` may write: an entry of the FAT, a slot of a
directory, or a cluster that one of the files or the log owns. -/
inductive OwnPlace (t : FatTable) (s : FsState) (files : Set ℕ) (a : ℕ) : Prop
  | entry {c i : ℕ} (hc : fatTableIsValidClusterNumber t c) (hi : i < 4)
      (ha : a = t.fatOffset + 4 * c + i)
  | slot {node : ℕ} {n : HNode ℕ} {d : FatFile} {slot i : ℕ} (hd : NodeFile s node n d)
      (hdir : fatFileIsDirectory d = true)
      (hvalid : fatTableIsValidClusterNumber t d.startCluster)
      (hslot : slot < slotsPerCluster t) (hi : i < fatDirEntryByteSize)
      (ha : a = slotAddr t d.startCluster slot + i)
  | cluster {node : ℕ} {n : HNode ℕ} {f : FatFile} {cs : List ℕ} {c i : ℕ}
      (howner : node ∈ files ∨ fatTreeNodeSearch s bbLogFile = some (some node))
      (hf : NodeFile s node n f) (hchain : FileOnChain t s.vol f cs)
      (hc : c ∈ f.startCluster :: cs) (hi : i < fatTableBytesPerCluster t)
      (ha : a = fatTableClusterOffset t c + i)

/-- The file of a node, and the file of the directory above it. -/
structure FileInDir (t : FatTable) (s : FsState) (node : ℕ) (n : HNode ℕ) (f d : FatFile) :
    Prop where
  file : NodeFile s node n f
  dir : ∃ p m, n.hParent = some p ∧ NodeFile s p m d
  isDir : fatFileIsDirectory d = true
  dirValid : fatTableIsValidClusterNumber t d.startCluster

/-- The nodes `files` are empty files without a cluster, and the log, when it is loaded,
has a chain. -/
structure ClusterlessFiles (t : FatTable) (s : FsState) (files : Set ℕ) : Prop where
  empty : ∀ a ∈ files, ∃ n f d, FileInDir t s a n f d ∧ fatFileIsDirectory f = false ∧
    f.startCluster = 0 ∧ f.dentry.fileSize = 0
  log : ∀ a, fatTreeNodeSearch s bbLogFile = some (some a) →
    ∃ n f d, FileInDir t s a n f d ∧
      (fatFileIsDirectory f = false → ∃ cs, FileOnChain t s.vol f cs)
  succeeds : s.vol.IoSucceeds

/-! ## Requests -/

/-- A request for one of the files, or for a path that no longer names a file. -/
def ClusterlessRequest (files : Set ℕ) (s : FsState) : FuseOp → Prop
  | .read _ _ _ fh | .write _ _ _ fh => fh ∈ files
  | .truncate path _ | .unlink path =>
      ∀ a, fatTreeNodeSearch s path = some (some a) → a ∈ files
  | _ => False

/-- The record of a write to the handle `fh` does not fit into the log. -/
def LogFull (t : FatTable) (env : FuseEnv) (s : FsState) (fh : ℕ) : Prop :=
  ∃ n f logNode ln log cs record, NodeFile s fh n f ∧ f.filepath ≠ bbLogFile ∧
    fatTreeNodeSearch s bbLogFile = some (some logNode) ∧ NodeFile s logNode ln log ∧
    fatFileIsDirectory log = false ∧ FileOnChain t s.vol log cs ∧
    logMessage env (s.vol.clock 0) opWrite f.filepath = some record ∧
    ((log.startCluster :: cs).length + (freeClusters t s.vol.fatMap).card) *
      fatTableBytesPerCluster t < log.dentry.fileSize + record.length

/-- The requests that do not take the number 0 for a cluster. -/
def HarmlessRequest (t : FatTable) (env : FuseEnv) (s : FsState) : FuseOp → Prop
  | .write _ size offset fh =>
      size = 0 ∨ 0 < offset ∨ 0 < s.errno ∨ s.errno = 0 ∧ LogFull t env s fh
  | .truncate path offset =>
      fatTreeNodeSearch s path = some none ∨ 0 < offset ∨
        s.vol.fatMap 0 = fatClusterEndOfChainMax ∧
          ∀ i < 4, s.vol.disk (t.fatOffset + i) = leByte fatClusterEndOfChainMax i
  | .unlink path => fatTreeNodeSearch s path = some none
  | _ => True

/-- The contents that a client has written, after a request with result `r`. -/
def contentsAfter (s : FsState) (op : FuseOp) (r : ℤ) (contents : ℕ → List UInt8) :
    ℕ → List UInt8 :=
  match op with
  | .write buf _ offset fh =>
      Function.update contents fh
        (if 0 < r then splice (contents fh) (bufferBytes buf r.toNat) offset
          else contents fh)
  | .truncate path offset =>
      match fatTreeNodeSearch s path with
      | some (some a) =>
          Function.update contents a
            (if r = 0 then (contents a).take offset else contents a)
      | _ => contents
  | _ => contents

/-- The states that requests for `files` which satisfy `ok` lead to from `s`, with the
contents that the requests have written. -/
inductive ClusterlessRun (t : FatTable) (env : FuseEnv) (files : Set ℕ)
    (ok : FsState → FuseOp → Prop) (s : FsState) : FsState → (ℕ → List UInt8) → Prop
  | nil : ClusterlessRun t env files ok s s fun _ => []
  | snoc {s₁ s₂ : FsState} {contents : ℕ → List UInt8} {op : FuseOp} {r : ℤ}
      (run : ClusterlessRun t env files ok s s₁ contents)
      (request : ClusterlessRequest files s₁ op) (allowed : ok s₁ op)
      (step : fuseStep t env s₁ op = some (r, s₂)) :
      ClusterlessRun t env files ok s s₂ (contentsAfter s₁ op r contents)

/-- The entries 0 and 1 of the FAT, in memory and on disk. -/
structure ReservedKept (t : FatTable) (v v' : Volume) : Prop where
  memory : ∀ c < 2, v'.fatMap c = v.fatMap c
  disk : ∀ i < 8, v'.disk (t.fatOffset + i) = v.disk (t.fatOffset + i)

/-- A read inside of the content of a file returns its bytes. -/
def ReadsBack (t : FatTable) (env : FuseEnv) (s : FsState) (contents : ℕ → List UInt8) :
    FuseOp → Prop
  | .read buf size offset fh => ∀ r buf' s', offset ≤ (contents fh).length →
      fatFuseRead t env s buf size offset fh = some (r, buf', s') →
        r = (slice (contents fh) offset size).length ∧
          bufferBytes buf' r.toNat = slice (contents fh) offset size
  | _ => True

/-! ## Objects -/

/-- The nodes and the places of the files are the same, and so are the sizes of the files
other than `grown`. -/
structure SameObjects (s s' : FsState) (grown : Set ℕ) : Prop where
  nodes : s'.nodes = s.nodes
  fileTree : s'.fileTree = s.fileTree
  places : ∀ a, (s'.files.get a).map FatFile.place = (s.files.get a).map FatFile.place
  sizes : ∀ a ∉ grown, (s'.files.get a).map (fun f => f.dentry.fileSize) =
    (s.files.get a).map fun f => f.dentry.fileSize

theorem fatFileCmpPath_eq_place (files : Heap FatFile) (a : ℕ) (key : CString) :
    fatFileCmpPath files a key =
      ((files.get a).map FatFile.place).map fun p => strcmp p.2.1 key := by
  rw [fatFileCmpPath, Option.map_map, Option.bind_eq_bind]
  cases files.get a <;> rfl

theorem SameObjects.search {s s' : FsState} {grown : Set ℕ} (h : SameObjects s s' grown)
    (key : CString) : fatTreeNodeSearch s' key = fatTreeNodeSearch s key := by
  have hcmp : fatFileCmpPath s'.files = fatFileCmpPath s.files := by
    funext a key
    rw [fatFileCmpPath_eq_place, fatFileCmpPath_eq_place, h.places]
  rw [fatTreeNodeSearch, fatTreeNodeSearch, h.fileTree, h.nodes, hcmp]

theorem SameObjects.nodeFile {s s' : FsState} {grown : Set ℕ} (h : SameObjects s s' grown)
    {node : ℕ} {n : HNode ℕ} {f : FatFile} (hf : NodeFile s node n f) :
    ∃ f', NodeFile s' node n f' ∧ f'.place = f.place ∧
      (n.data ∉ grown → f'.dentry.fileSize = f.dentry.fileSize) := by
  have hplace := h.places n.data
  rw [hf.live, Option.map_some, Option.map_eq_some_iff] at hplace
  obtain ⟨f', hf', hplace⟩ := hplace
  refine ⟨f', ⟨by rw [h.nodes]; exact hf.node, hf'⟩, hplace, fun hout => ?_⟩
  have hsize := h.sizes n.data hout
  rw [hf.live, hf', Option.map_some, Option.map_some, Option.some.injEq] at hsize
  exact hsize

theorem place_startCluster {f f' : FatFile} (h : f'.place = f.place) :
    f'.startCluster = f.startCluster := congrArg Prod.fst h

theorem place_isDirectory {f f' : FatFile} (h : f'.place = f.place) :
    fatFileIsDirectory f' = fatFileIsDirectory f := by
  have hattribs : f'.dentry.attribs = f.dentry.attribs := congrArg (fun p => p.2.2.2) h
  unfold fatFileIsDirectory
  rw [hattribs]

theorem SameObjects.fileInDir {s s' : FsState} {grown : Set ℕ} (h : SameObjects s s' grown)
    {node : ℕ} {n : HNode ℕ} {f d : FatFile} (hf : FileInDir t s node n f d) :
    ∃ f' d', FileInDir t s' node n f' d' ∧ f'.place = f.place ∧
      (n.data ∉ grown → f'.dentry.fileSize = f.dentry.fileSize) := by
  obtain ⟨f', hf', hplace, hsize⟩ := h.nodeFile hf.file
  obtain ⟨p, m, hp, hd⟩ := hf.dir
  obtain ⟨d', hd', hplace', -⟩ := h.nodeFile hd
  exact ⟨f', d', ⟨hf', ⟨p, m, hp, hd'⟩, (place_isDirectory hplace').trans hf.isDir,
    by rw [place_startCluster hplace']; exact hf.dirValid⟩, hplace, hsize⟩

theorem SameObjects.of_vol (s : FsState) (v : Volume) :
    SameObjects s { s with vol := v } ∅ := ⟨rfl, rfl, fun _ => rfl, fun _ _ => rfl⟩

/-- Another entry in the file at `a`. -/
theorem SameObjects.write {s s' : FsState} {a : ℕ} {f f' : FatFile}
    (hf : s.files.get a = some f) (hwrite : s.files.write a f' = some s'.files)
    (hnodes : s'.nodes = s.nodes) (htree : s'.fileTree = s.fileTree)
    (hplace : f'.place = f.place) : SameObjects s s' {a} := by
  obtain ⟨-, -, -, hothers⟩ := Heap.write_eq_some hwrite
  exact ⟨hnodes, htree, Heap.map_get_write hf hwrite hplace, fun b hb => by rw [hothers b hb]⟩

theorem SameObjects.write_sized {s s' : FsState} {a : ℕ} {f f' : FatFile}
    (hf : s.files.get a = some f) (hwrite : s.files.write a f' = some s'.files)
    (hnodes : s'.nodes = s.nodes) (htree : s'.fileTree = s.fileTree)
    (hplace : f'.place = f.place) (hsize : f'.dentry.fileSize = f.dentry.fileSize) :
    SameObjects s s' ∅ := by
  have hsame := SameObjects.write hf hwrite hnodes htree hplace
  exact ⟨hnodes, htree, hsame.places, fun b _ => Heap.map_get_write hf hwrite hsize b⟩

theorem SameObjects.trans {s s' s'' : FsState} {grown : Set ℕ} (h : SameObjects s s' grown)
    (h' : SameObjects s' s'' grown) : SameObjects s s'' grown :=
  ⟨h'.nodes.trans h.nodes, h'.fileTree.trans h.fileTree,
    fun a => (h'.places a).trans (h.places a),
    fun a ha => (h'.sizes a ha).trans (h.sizes a ha)⟩

/-- Counting at files leaves their places and sizes alone. -/
theorem SameObjects.modifyFiles {f : FatFile → FatFile} (hplace : ∀ g, (f g).place = g.place)
    (hsize : ∀ g, (f g).dentry.fileSize = g.dentry.fileSize) {as : List ℕ} {s s' : FsState}
    (h : FsState.modifyFiles f as s = some s') : SameObjects s s' ∅ := by
  induction as generalizing s with
  | nil =>
      obtain rfl := Option.some.inj h
      exact SameObjects.of_vol s s.vol
  | cons a as ih =>
      simp only [FsState.modifyFiles, FsState.modifyFile, Option.bind_eq_bind,
        Option.bind_eq_some_iff, Option.some.injEq] at h
      obtain ⟨s₁, ⟨files, hmodify, rfl⟩, h⟩ := h
      obtain ⟨g, hg, hwrite⟩ := Heap.modify_eq_some hmodify
      have hfirst : SameObjects s { s with files := files } ∅ :=
        SameObjects.write_sized hg hwrite rfl rfl (hplace g) (hsize g)
      exact hfirst.trans (ih h)

theorem DentryOnly.place {f f' : FatFile} (h : DentryOnly f f')
    (hattribs : f'.dentry.attribs = f.dentry.attribs) : f'.place = f.place := by
  unfold FatFile.place
  rw [h.startCluster, h.filepath, h.posInParent, hattribs]

/-! ## Steps that keep to their places -/

/-- After a step the files are as before, the entries 0 and 1 are kept in memory, and the
bytes that changed lie in places of their own. -/
structure StepTidy (t : FatTable) (files : Set ℕ) (s s' : FsState) : Prop where
  nodes : s'.nodes = s.nodes
  kept : ClusterlessFiles t s' files
  reserved : ∀ c < 2, s'.vol.fatMap c = s.vol.fatMap c
  written : ∀ a, s'.vol.disk a ≠ s.vol.disk a → OwnPlace t s' files a

/-- Files that grew are none without a cluster, and a regular log is on a chain again. -/
theorem ClusterlessFiles.after {s s' : FsState} {files grown : Set ℕ}
    (h : ClusterlessFiles t s files) (hsame : SameObjects s s' grown)
    (hgrown : ∀ x ∈ grown, ∀ f, s.files.get x = some f → f.startCluster ≠ 0)
    (hlog : ∀ a n f, fatTreeNodeSearch s bbLogFile = some (some a) → NodeFile s' a n f →
      fatFileIsDirectory f = false → ∃ cs, FileOnChain t s'.vol f cs)
    (hio : s'.vol.IoSucceeds) : ClusterlessFiles t s' files := by
  refine ⟨fun a ha => ?_, fun a ha => ?_, hio⟩
  · obtain ⟨n, f, d, hf, hregular, hstart, hsize⟩ := h.empty a ha
    obtain ⟨f', d', hf', hplace, hsize'⟩ := hsame.fileInDir hf
    have hout : n.data ∉ grown := fun hmem => hgrown _ hmem f hf.file.live hstart
    exact ⟨n, f', d', hf', (place_isDirectory hplace).trans hregular,
      (place_startCluster hplace).trans hstart, (hsize' hout).trans hsize⟩
  · rw [hsame.search] at ha
    obtain ⟨n, f, d, hf, -⟩ := h.log a ha
    obtain ⟨f', d', hf', -⟩ := hsame.fileInDir hf
    exact ⟨n, f', d', hf', hlog a n f' ha hf'.file⟩

/-- Only `errno` and the clock changed. -/
def Idle (s s' : FsState) : Prop :=
  ∃ e c, s' = { s with vol := { s.vol with errno := e, clock := c } }

/-- No file grew, and the FAT is the same in memory. -/
theorem ClusterlessFiles.same {s s' : FsState} {files : Set ℕ}
    (h : ClusterlessFiles t s files) (hsame : SameObjects s s' ∅)
    (hmap : s'.vol.fatMap = s.vol.fatMap) (hio : s'.vol.IoSucceeds) :
    ClusterlessFiles t s' files := by
  refine h.after hsame (fun x hx => absurd hx (by simp)) ?_ hio
  intro a n f ha hf hregular
  obtain ⟨n₀, f₀, d, hf₀, hchain⟩ := h.log a ha
  obtain ⟨f', hf', hplace, hsize⟩ := hsame.nodeFile hf₀.file
  obtain rfl := Option.some.inj (hf'.node.symm.trans hf.node)
  obtain rfl := Option.some.inj (hf'.live.symm.trans hf.live)
  obtain ⟨cs, hcs⟩ := hchain (by rw [← place_isDirectory hplace]; exact hregular)
  refine ⟨cs, ?_, ?_⟩
  · rw [hmap, place_startCluster hplace]
    exact hcs.chain
  · rw [hsize (by simp), place_startCluster hplace]
    exact hcs.size_le

theorem ClusterlessFiles.idle {s s' : FsState} {files : Set ℕ}
    (h : ClusterlessFiles t s files) (hidle : Idle s s') : ClusterlessFiles t s' files := by
  obtain ⟨e, c, rfl⟩ := hidle
  exact h.same (SameObjects.of_vol s _) rfl ⟨h.succeeds.1, h.succeeds.2⟩

theorem StepTidy.idle {s s' : FsState} {files : Set ℕ} (h : ClusterlessFiles t s files)
    (hidle : Idle s s') : StepTidy t files s s' := by
  have hafter := h.idle hidle
  obtain ⟨e, c, rfl⟩ := hidle
  exact ⟨rfl, hafter, fun _ _ => rfl, fun _ hne => absurd rfl hne⟩

/-- A step after which `errno` or the clock changed. -/
theorem StepTidy.of_idle {s s₁ s' : FsState} {files : Set ℕ} (hidle : Idle s s₁)
    (h : StepTidy t files s₁ s') : StepTidy t files s s' := by
  obtain ⟨e, c, rfl⟩ := hidle
  exact ⟨h.nodes, h.kept, h.reserved, h.written⟩

theorem OwnPlace.behind_reserved [t.Formatted] {s : FsState} {files : Set ℕ} {a : ℕ}
    (h : OwnPlace t s files a) : t.fatOffset + 8 ≤ a := by
  have hclusters := t.clusters_le
  have hfat := t.fat_before_data
  cases h with
  | entry hc hi ha =>
      have hge := hc.1
      omega
  | slot hd hdir hvalid hslot hi ha =>
      rename_i d slot i
      have hstart := dataStart_le_clusterOffset (t := t) d.startCluster
      rw [slotAddr] at ha
      omega
  | cluster howner hf hchain hc hi ha =>
      rename_i c i
      have hstart := dataStart_le_clusterOffset (t := t) c
      omega

theorem StepTidy.reservedKept [t.Formatted] {s s' : FsState} {files : Set ℕ}
    (h : StepTidy t files s s') :
    ReservedKept t s.vol s'.vol := by
  refine ⟨h.reserved, fun i hi => ?_⟩
  by_contra hne
  have hbehind := (h.written _ hne).behind_reserved
  omega

/-! ## The log -/

/-- The record fits into the clusters of the log and the free ones. -/
def RecordHasRoom (t : FatTable) (env : FuseEnv) (s : FsState) (op : CString) (f : FatFile) :
    Prop :=
  ∀ logNode ln log cs record, f.filepath ≠ bbLogFile →
    fatTreeNodeSearch s bbLogFile = some (some logNode) → NodeFile s logNode ln log →
    fatFileIsDirectory log = false → FileOnChain t s.vol log cs →
    logMessage env (s.vol.clock 0) op f.filepath = some record →
    log.dentry.fileSize + record.length ≤
      ((log.startCluster :: cs).length + (freeClusters t s.vol.fatMap).card) *
        fatTableBytesPerCluster t

/-- The log grows in its own places. -/
theorem pwriteLog_tidy [t.Formatted] (hmarks : t.ClusterNumbersBelowMarks) {s s' : FsState}
    {files : Set ℕ} (h : ClusterlessFiles t s files) {logNode p size : ℕ} {ln pn : HNode ℕ}
    {log : FatFile} {buf : ℤ → UInt8} {r : ℤ}
    (hsearch : fatTreeNodeSearch s bbLogFile = some (some logNode))
    (hlog : NodeFile s logNode ln log) (hregular : fatFileIsDirectory log = false)
    (hp : ln.hParent = some p) (hpn : s.nodes.get p = some pn)
    (hwrite : pwriteFile t s ln.data buf size log.dentry.fileSize (some pn.data) =
      some (r, s')) :
    StepTidy t files s s' ∧ ErrorKept s.vol s'.vol ∧
      (s'.errno = 0 → ∀ cs, FileOnChain t s.vol log cs →
        log.dentry.fileSize + size ≤
          ((log.startCluster :: cs).length + (freeClusters t s.vol.fatMap).card) *
            fatTableBytesPerCluster t) := by
  obtain ⟨ln', log', d, hlogDir, hchain⟩ := h.log logNode hsearch
  obtain rfl := Option.some.inj (hlog.node.symm.trans hlogDir.file.node)
  obtain rfl := Option.some.inj (hlog.live.symm.trans hlogDir.file.live)
  obtain ⟨cs, hcs⟩ := hchain hregular
  obtain ⟨q, m, hq, hd⟩ := hlogDir.dir
  obtain rfl := Option.some.inj (hq.symm.trans hp)
  obtain rfl := Option.some.inj (hd.node.symm.trans hpn)
  obtain ⟨f, parent, f', hf, hparent, hdone, hfiles, hnodes, htree⟩ := pwriteFile_eq_some hwrite
  obtain rfl := Option.some.inj (hlog.live.symm.trans hf)
  have hdir : ∀ p, parent = some p → p.startCluster = d.startCluster := by
    intro p hsome
    simp only [FsState.deref, hd.live, Option.bind_eq_bind, Option.bind_some,
      Option.some.injEq] at hparent
    rw [← hparent, Option.some.injEq] at hsome
    rw [hsome]
  obtain ⟨⟨new, hchanged, hroom⟩, herrno⟩ :=
    fatFilePwrite_changed hmarks hcs h.succeeds le_rfl hdir hdone
  have hplace := hchanged.entry.place hchanged.attribs
  have hsame : SameObjects s s' {ln.data} :=
    SameObjects.write hf hfiles hnodes htree hplace
  obtain ⟨-, -, hself, -⟩ := Heap.write_eq_some hfiles
  have hlogAfter : NodeFile s' logNode ln f' := ⟨by rw [hnodes]; exact hlog.node, hself⟩
  have hsearch' : fatTreeNodeSearch s' bbLogFile = some (some logNode) := by
    rw [hsame.search]
    exact hsearch
  have hge : 2 ≤ log.startCluster := (hcs.chain.valid _ List.mem_cons_self).1
  have hvalid := hchanged.grown.chain.valid
  have hkept : ClusterlessFiles t s' files := by
    refine h.after hsame ?_ ?_ hchanged.succeeds
    · rintro x rfl g hg
      obtain rfl := Option.some.inj (hf.symm.trans hg)
      omega
    · intro a n g ha hg _
      obtain rfl : logNode = a := by simpa using hsearch.symm.trans ha
      obtain rfl := Option.some.inj (hlogAfter.node.symm.trans hg.node)
      obtain rfl := Option.some.inj (hlogAfter.live.symm.trans hg.live)
      exact ⟨_, hchanged.onChain⟩
  refine ⟨⟨hnodes, hkept, fun c hc => ?_, fun a hne => ?_⟩, herrno, fun hzero ds hds => ?_⟩
  · -- entries 0 and 1 are of no cluster that the chain has or takes
    have hout : ∀ x ∈ log.startCluster :: cs ++ new, c ≠ x := by
      intro x hx hcx
      have := (hvalid x hx).1
      omega
    exact hchanged.grown.frame c (fun hmem => hout c (List.mem_append_left _ hmem) rfl)
      (fun hmem => hout c (List.mem_append_right _ hmem) rfl)
  · obtain ⟨d', hd', hplace', -⟩ := hsame.nodeFile hd
    have hstart := place_startCluster hplace'
    rcases hchanged.written a hne with ⟨c, hc, i, hi, ha⟩ | ⟨c, hc, i, hi, ha⟩ |
      ⟨hslot, i, hi, ha⟩
    · exact .entry (hvalid c hc) hi ha
    · refine .cluster (Or.inr hsearch') hlogAfter hchanged.onChain ?_ hi ha
      rw [hchanged.entry.startCluster]
      exact hc
    · refine .slot hd' ((place_isDirectory hplace').trans hlogDir.isDir) ?_ hslot hi ?_
      · rw [hstart]
        exact hlogDir.dirValid
      · rw [hstart]
        exact ha
  · obtain rfl : cs = ds := hcs.chain.links.unique hds.chain.links
    have hcard := hchanged.grown.card_freeClusters hcs.chain.used
    refine (hroom hzero).trans (Nat.mul_le_mul_right _ ?_)
    rw [List.length_append]
    omega

/-- Logging keeps to its places, and leaves an error when the record has no room. -/
theorem logActivity_tidy [t.Formatted] (hmarks : t.ClusterNumbersBelowMarks) {s s' : FsState}
    {files : Set ℕ} (h : ClusterlessFiles t s files) {op : CString} {addr : ℕ} {f : FatFile}
    {r : ℤ} (hf : s.files.get addr = some f)
    (hlog : fatFuseLogActivity t env s op addr = some (r, s')) :
    StepTidy t files s s' ∧ ErrorKept s.vol s'.vol ∧
      (s'.errno = 0 → RecordHasRoom t env s op f) := by
  have hidle : Idle s (s.afterTime.setErrno s.errno) := ⟨_, _, rfl⟩
  have hsame : s.setErrno s.errno = s := rfl
  rcases fatFuseLogActivity_errno (t := t) env s op addr hf with
    hfault | ⟨hnone, hkept⟩ |
      ⟨logNode, logFile, log, ln, message, htarget, hln, hmessage, ⟨horphan, -⟩ |
        ⟨p, pn, hp, hpn, hlogged⟩⟩
  · have hnothing := hfault s.errno
    rw [hsame, hlog] at hnothing
    contradiction
  · obtain ⟨r', hr'⟩ := hkept s.errno
    rw [hsame, hlog, Option.some.injEq, Prod.mk.injEq] at hr'
    obtain ⟨-, rfl⟩ := hr'
    refine ⟨StepTidy.idle h hidle, ⟨id, id⟩, fun _ logNode ln log cs record hother hsearch hln
      hregular _ _ => absurd ?_ (hnone logNode ln.data log)⟩
    exact ⟨hother, hsearch, by simp [fatTreeGetFile, hln.node], hln.live, hregular⟩
  · obtain ⟨n, g, d, hdir, -⟩ := h.log logNode htarget.search
    obtain ⟨q, m, hq, -⟩ := hdir.dir
    rw [Option.some.inj (hdir.file.node.symm.trans hln), horphan] at hq
    contradiction
  · have hwrite := hlogged s.errno
    rw [hsame, hlog] at hwrite
    have hdata : logFile = ln.data := by
      simpa [fatTreeGetFile, hln] using htarget.file.symm
    subst hdata
    obtain ⟨htidy, herrno, hroom⟩ := pwriteLog_tidy hmarks (h.idle hidle) htarget.search
      ⟨hln, htarget.live⟩ htarget.regular hp hpn hwrite.symm
    refine ⟨htidy.of_idle hidle, ⟨herrno.pending, herrno.nonneg⟩,
      fun hzero logNode' ln' log' cs record _ hsearch hln'
      _ hcs hrecord => ?_⟩
    obtain rfl : logNode = logNode' := by simpa using htarget.search.symm.trans hsearch
    obtain rfl := Option.some.inj (hln.symm.trans hln'.node)
    obtain rfl := Option.some.inj (htarget.live.symm.trans hln'.live)
    obtain rfl := Option.some.inj (hmessage.symm.trans hrecord)
    exact hroom hzero cs ⟨hcs.chain, hcs.size_le⟩

/-! ## The requests -/

section Requests

variable {s s' : FsState} {files : Set ℕ} {r : ℤ}

theorem FileInDir.getParent {node : ℕ} {n : HNode ℕ} {f d : FatFile}
    (h : FileInDir t s node n f d) :
    ∃ p m, n.hParent = some p ∧ s.nodes.get p = some m ∧
      fatTreeGetParent s node = some (some m.data, s) ∧
      s.deref (some m.data) = some (some d) := by
  obtain ⟨p, m, hp, hd⟩ := h.dir
  refine ⟨p, m, hp, hd.node, fatTreeGetParent_eq h.file.node hp hd.node, ?_⟩
  simp only [FsState.deref, hd.live, Option.bind_eq_bind, Option.bind_some]

/-- A read of an empty file gets nothing. -/
theorem preadFile_empty {addr parent : ℕ} {f d : FatFile} (buf : ℤ → UInt8)
    (size offset : ℕ) (hf : s.files.get addr = some f) (hd : s.deref (some parent) = some (some d))
    (hsize : f.dentry.fileSize = 0) :
    preadFile t s addr buf size offset (some parent) =
      some (0, buf, if 0 < offset then s.setErrno Errno.eoverflow else s) := by
  simp only [preadFile, hf, hd, Option.bind_eq_bind, Option.bind_some, fatFilePread, hsize]
  by_cases hoffset : 0 < offset
  · simp only [if_pos hoffset, Option.bind_some, Heap.write_same hf]
    rfl
  · simp only [if_neg hoffset, Nat.zero_sub, Nat.min_zero, if_true, Option.bind_some,
      Heap.write_same hf]

theorem fatFuseRead_tidy [t.Formatted] (hmarks : t.ClusterNumbersBelowMarks)
    (h : ClusterlessFiles t s files) {buf buf' : ℤ → UInt8} {size offset fh : ℕ}
    (hfh : fh ∈ files) (hstep : fatFuseRead t env s buf size offset fh = some (r, buf', s')) :
    StepTidy t files s s' ∧ (offset = 0 → r = 0) := by
  have hidle : Idle s (s.setErrno 0) := ⟨_, _, rfl⟩
  have hzero := h.idle hidle
  obtain ⟨n, f, d, hf, hregular, hstart, hsize⟩ := hzero.empty fh hfh
  obtain ⟨p, m, -, -, hparent, hd⟩ := hf.getParent
  have hread := preadFile_empty (t := t) buf size offset hf.file.live hd hsize
  simp only [fatFuseRead, fatTreeGetFile, hf.file.node, hparent, hread, Option.bind_eq_bind,
    Option.bind_some] at hstep
  by_cases hoffset : 0 < offset
  · have herrno : ((s.setErrno 0).setErrno Errno.eoverflow).errno ≠ 0 :=
      show Errno.eoverflow ≠ 0 by decide
    rw [if_pos hoffset, if_pos herrno] at hstep
    simp only [Option.some.injEq, Prod.mk.injEq] at hstep
    obtain ⟨-, -, rfl⟩ := hstep
    exact ⟨StepTidy.idle h ⟨_, _, rfl⟩, fun heq => absurd hoffset (by omega)⟩
  · have herrno : ¬ (s.setErrno 0).errno ≠ 0 := show ¬ (0 : ℤ) ≠ 0 by decide
    rw [if_neg hoffset, if_neg herrno] at hstep
    simp only [Option.bind_eq_some_iff, Option.some.injEq, Prod.mk.injEq, Prod.exists] at hstep
    obtain ⟨_, s₁, hlog, _, -, _, -, rfl, -, rfl⟩ := hstep
    exact ⟨(logActivity_tidy hmarks hzero hf.file.live hlog).1.of_idle hidle, fun _ => rfl⟩

/-- With an error pending nothing is written to a file without a cluster. -/
theorem pwriteFile_clusterless {addr parent size : ℕ} {f d : FatFile} {buf : ℤ → UInt8}
    (hf : s.files.get addr = some f) (hd : s.deref (some parent) = some (some d))
    (herrno : s.errno ≠ 0) :
    pwriteFile t s addr buf size 0 (some parent) = some (- s.errno, s) := by
  have hfirst : pwriteFirstCluster t s.vol f 0 = some (f.startCluster, s.vol) := by
    simp [pwriteFirstCluster, fatTableSeekCluster, fatTableSeekLoop]
  have hwrite : fatFilePwrite t s.vol f buf size 0 (some d) = some (- s.errno, f, s.vol) :=
    fatFilePwrite_of_error (Nat.zero_le _) hfirst herrno
  simp only [pwriteFile, hf, hd, hwrite, Option.bind_eq_bind, Option.bind_some,
    Heap.write_same hf]

theorem fatFuseWrite_tidy [t.Formatted] (hmarks : t.ClusterNumbersBelowMarks)
    (h : ClusterlessFiles t s files) {buf : ℤ → UInt8} {size offset fh : ℕ}
    (hfh : fh ∈ files) (hharmless : HarmlessRequest t env s (.write buf size offset fh))
    (hstep : fatFuseWrite t env s buf size offset fh = some (r, s')) :
    StepTidy t files s s' ∧ r ≤ 0 := by
  obtain ⟨n, f, d, hf, hregular, hstart, hsize⟩ := h.empty fh hfh
  obtain ⟨p, m, hp, hm, hparent, hd⟩ := hf.getParent
  have hidle : StepTidy t files s s := StepTidy.idle h ⟨_, _, rfl⟩
  simp only [fatFuseWrite, fatTreeGetFile, hf.file.node, hf.file.live, hparent, hsize,
    Option.bind_eq_bind, Option.bind_some] at hstep
  by_cases hempty : size = 0
  · rw [if_pos hempty] at hstep
    obtain ⟨rfl, rfl⟩ := Prod.mk.inj (Option.some.inj hstep)
    exact ⟨hidle, le_rfl⟩
  by_cases hoffset : 0 < offset
  · rw [if_neg hempty, if_pos hoffset] at hstep
    obtain ⟨rfl, rfl⟩ := Prod.mk.inj (Option.some.inj hstep)
    exact ⟨hidle, by decide⟩
  rw [if_neg hempty, if_neg hoffset] at hstep
  simp only [Option.bind_eq_some_iff, Prod.exists] at hstep
  obtain ⟨r₁, s₁, hlog, hwrite⟩ := hstep
  obtain ⟨htidy, herrno, hroom⟩ := logActivity_tidy hmarks h hf.file.live hlog
  obtain rfl : offset = 0 := by omega
  -- the log leaves an error that was pending, or one of its own
  have hpos : 0 < s₁.errno := by
    rcases hharmless with hzero | hbehind | hpending | ⟨hnone, n', g, logNode, ln, log, cs,
      record, hg, hother, hsearch, hln, hregularLog, hcs, hrecord, hfull⟩
    · contradiction
    · omega
    · exact herrno.pos hpending
    · refine lt_of_le_of_ne (herrno.nonneg hnone.ge) fun heq => ?_
      obtain rfl := Option.some.inj (hf.file.node.symm.trans hg.node)
      obtain rfl := Option.some.inj (hf.file.live.symm.trans hg.live)
      exact absurd (hroom heq.symm logNode ln log cs record hother hsearch hln hregularLog hcs
        hrecord) (by omega)
  obtain ⟨n', f', d', hf', -⟩ := htidy.kept.empty fh hfh
  have hnode' := hf'.file.node
  rw [htidy.nodes] at hnode'
  obtain rfl := Option.some.inj (hf.file.node.symm.trans hnode')
  obtain ⟨q, m', hq, hm', -, hd'⟩ := hf'.getParent
  rw [htidy.nodes] at hm'
  obtain rfl := Option.some.inj (hp.symm.trans hq)
  obtain rfl := Option.some.inj (hm.symm.trans hm')
  rw [pwriteFile_clusterless hf'.file.live hd' hpos.ne'] at hwrite
  obtain ⟨rfl, rfl⟩ := Prod.mk.inj (Option.some.inj hwrite)
  exact ⟨htidy, by omega⟩

theorem setEntry_same {v : Volume} {n : ℕ} (hmap : v.fatMap 0 = n)
    (hdisk : ∀ i < 4, v.disk (t.fatOffset + i) = leByte n i) : setEntry t v 0 n = v := by
  have hentry : store v.disk (0 * 4 % 2 ^ 32 + t.fatOffset) 4 (fun i => leByte n i) = v.disk := by
    funext a
    rw [store_apply]
    split
    · rename_i hin
      have hbyte := hdisk (a - t.fatOffset) (by omega)
      rw [show t.fatOffset + (a - t.fatOffset) = a by omega] at hbyte
      rw [hbyte]
      congr 1
      omega
    · rfl
  unfold setEntry
  rw [hentry, ← hmap, Function.update_eq_self]

/-- Cutting an empty file writes its entry, when the end of a chain is in entry 0. -/
theorem fatFileTruncate_clusterless [t.Formatted] (hmarks : t.ClusterNumbersBelowMarks)
    {v v' : Volume} {f f' d : FatFile} (hio : v.IoSucceeds) (herrno : v.errno = 0)
    (hstart : f.startCluster = 0)
    (hmap : v.fatMap 0 = fatClusterEndOfChainMax)
    (hdisk : ∀ i < 4, v.disk (t.fatOffset + i) = leByte fatClusterEndOfChainMax i)
    (hcut : fatFileTruncate t v f 0 (some d) = some (f', v')) :
    DentryOnly f f' ∧ f'.dentry.attribs = f.dentry.attribs ∧ f'.dentry.fileSize = 0 ∧
      v'.fatMap = v.fatMap ∧ v'.IoSucceeds ∧
      ∀ a, v'.disk a ≠ v.disk a → f.posInParent < slotsPerCluster t ∧
        ∃ i < fatDirEntryByteSize, a = slotAddr t d.startCluster f.posInParent + i := by
  have hentries : 0 < t.fatEntries := by
    have := t.clusters_le
    omega
  have hseek : fatTableSeekCluster t v f.startCluster 0 = some (0, v) := by
    simp [fatTableSeekCluster, fatTableSeekLoop, hstart]
  have hnext : fatTableGetNextCluster t v 0 = some fatClusterEndOfChainMax := by
    simp [fatTableGetNextCluster, fatMapRead, hentries, hmap, not_valid_endOfChain hmarks]
  have hset : fatTableSetNextCluster t v 0 fatClusterEndOfChainMax = some v := by
    rw [setNextCluster_of_ioSucceeds hio hentries, setEntry_same hmap hdisk]
  have hfree : freeChain t v fatClusterEndOfChainMax = some v := by
    simp only [freeChain, freeChainLoop, if_neg not_isValid_endOfChainMax]
  simp only [fatFileTruncate, if_neg (Nat.not_lt_zero _), hseek, herrno, hnext, hset, hfree,
    Option.bind_eq_bind, Option.bind_some, ne_eq, not_true_eq_false, if_false,
    Option.bind_eq_some_iff, Option.some.injEq, Prod.mk.injEq] at hcut
  obtain ⟨w, hentry, rfl, rfl⟩ := hcut
  obtain ⟨hmap', hio', -, -, p, hp, hslot⟩ := writeDirEntry_written
    (v := { v with clock := fun n => v.clock (n + 1) }) ⟨hio.1, hio.2⟩ hentry
  obtain rfl := Option.some.inj hp
  refine ⟨⟨_, rfl⟩, ?_, ?_, hmap', hio', hslot⟩
  · exact (attribs_fillDentryTimeNow _ _ _ _).trans (attribs_setFileSize _ _)
  · exact (fileSize_fillDentryTimeNow _ _ _ _).trans (FatDirEntry.fileSize_setFileSize _ _)

theorem updateFile_same {addr : ℕ} {parent : Option ℕ} {p : Option FatFile}
    {op : Volume → FatFile → Option FatFile → Option (FatFile × Volume)} {f : FatFile}
    (hf : s.files.get addr = some f) (hp : s.deref parent = some p)
    (hop : op s.vol f p = some (f, s.vol)) : updateFile s addr parent op = some s := by
  simp only [updateFile, hf, hp, hop, Option.bind_eq_bind, Option.bind_some,
    Heap.write_same hf]

theorem fatFuseTruncate_tidy [t.Formatted] (hmarks : t.ClusterNumbersBelowMarks)
    (h : ClusterlessFiles t s files) {path : CString} {offset : ℕ}
    (hrequest : ClusterlessRequest files s (.truncate path offset))
    (hharmless : HarmlessRequest t env s (.truncate path offset))
    (hstep : fatFuseTruncate t s path offset = some (r, s')) : StepTidy t files s s' := by
  have hidle : Idle s (s.setErrno 0) := ⟨_, _, rfl⟩
  have hzero := h.idle hidle
  simp only [fatFuseTruncate, Option.bind_eq_bind, Option.bind_eq_some_iff] at hstep
  obtain ⟨found, hsearch, hstep⟩ := hstep
  cases found with
  | none =>
      obtain ⟨-, rfl⟩ := Prod.mk.inj (Option.some.inj hstep)
      exact StepTidy.idle h ⟨_, _, rfl⟩
  | some a =>
      obtain ⟨n, f, d, hf, hregular, hstart, hsize⟩ := hzero.empty a (hrequest a hsearch)
      obtain ⟨p, m, hp, hm, hparent, -⟩ := hf.getParent
      simp only [fatTreeGetFile, hf.file.node, hf.file.live, hparent, hregular,
        Bool.false_eq_true, if_false, Option.bind_eq_bind, Option.bind_some,
        Option.bind_eq_some_iff, Option.some.injEq, Prod.mk.injEq,
        fatTreeIncNumTimesOpened] at hstep
      obtain ⟨s₁, ⟨ancestors, -, hcount⟩, s₂, hcut, -, rfl⟩ := hstep
      have hsame : SameObjects (s.setErrno 0) s₁ ∅ :=
        SameObjects.modifyFiles (f := fatFileIncNumTimesOpened) (fun _ => rfl) (fun _ => rfl)
          hcount
      have hvol : s₁.vol = (s.setErrno 0).vol := modifyFiles_vol hcount
      obtain ⟨f₁, d₁, hf₁, hplace, hsize₁⟩ := hsame.fileInDir hf
      have hsize₁ : f₁.dentry.fileSize = 0 := (hsize₁ (by simp)).trans hsize
      have hstart₁ : f₁.startCluster = 0 := (place_startCluster hplace).trans hstart
      obtain ⟨q, m₁, hq, hm₁, -, hd₁⟩ := hf₁.getParent
      rw [hsame.nodes] at hm₁
      obtain rfl := Option.some.inj (hp.symm.trans hq)
      obtain rfl := Option.some.inj (hm.symm.trans hm₁)
      by_cases hoffset : 0 < offset
      · have hcut' : truncateFile t s₁ n.data offset (some m.data) = some s₁ := by
          refine updateFile_same hf₁.file.live hd₁ ?_
          simp only [fatFileTruncate, hsize₁, if_pos hoffset]
        rw [hcut'] at hcut
        obtain rfl := Option.some.inj hcut
        refine ⟨hsame.nodes, hzero.same hsame (by rw [hvol]) (by rw [hvol]; exact hzero.succeeds),
          fun c _ => by rw [hvol]; rfl, fun x hx => ?_⟩
        rw [hvol] at hx
        exact absurd rfl hx
      · obtain rfl : offset = 0 := by omega
        obtain ⟨hmap, hdisk⟩ : s.vol.fatMap 0 = fatClusterEndOfChainMax ∧
            ∀ i < 4, s.vol.disk (t.fatOffset + i) = leByte fatClusterEndOfChainMax i := by
          rcases hharmless with hnone | hpos | hmark
          · rw [show fatTreeNodeSearch s path = some (some a) from hsearch] at hnone
            simp at hnone
          · omega
          · exact hmark
        simp only [truncateFile, updateFile, hf₁.file.live, hd₁, Option.bind_eq_bind,
          Option.bind_some, Option.bind_eq_some_iff, Option.some.injEq, Prod.exists] at hcut
        obtain ⟨f₂, v₂, hcut, files₂, hwrite, rfl⟩ := hcut
        rw [hvol] at hcut
        obtain ⟨hentry, hattribs, hsize₂, hmap₂, hio₂, hslot⟩ :=
          fatFileTruncate_clusterless hmarks (v := (s.setErrno 0).vol) hzero.succeeds rfl hstart₁
            hmap hdisk hcut
        have hsame₂ : SameObjects s₁ { s₁ with vol := v₂, files := files₂ } ∅ :=
          SameObjects.write_sized hf₁.file.live hwrite rfl rfl (hentry.place hattribs)
            (hsize₂.trans hsize₁.symm)
        obtain ⟨q', hq', hd₂⟩ := hf₁.dir
        obtain ⟨hp₂, hdir₂⟩ := hd₂
        obtain ⟨d₂, hd₂, hplace₂, -⟩ := hsame₂.nodeFile hdir₂
        refine ⟨hsame.nodes, hzero.same (hsame.trans hsame₂) hmap₂ hio₂,
          fun c _ => by rw [hmap₂]; rfl,
          fun x hx => ?_⟩
        obtain ⟨hroom, i, hi, hx⟩ := hslot x hx
        refine .slot hd₂ ((place_isDirectory hplace₂).trans hf₁.isDir) ?_ hroom hi ?_
        · rw [place_startCluster hplace₂]
          exact hf₁.dirValid
        · rw [place_startCluster hplace₂]
          exact hx

theorem fuseStep_tidy [t.Formatted] (hmarks : t.ClusterNumbersBelowMarks)
    (h : ClusterlessFiles t s files) {op : FuseOp} (hrequest : ClusterlessRequest files s op)
    (hharmless : HarmlessRequest t env s op) (hstep : fuseStep t env s op = some (r, s')) :
    StepTidy t files s s' := by
  cases op with
  | read buf size offset fh =>
      simp only [fuseStep, Option.map_eq_some_iff, Prod.mk.injEq, Prod.exists] at hstep
      obtain ⟨r', buf', s₁, hread, rfl, rfl⟩ := hstep
      exact (fatFuseRead_tidy hmarks h hrequest hread).1
  | write buf size offset fh => exact (fatFuseWrite_tidy hmarks h hrequest hharmless hstep).1
  | truncate path offset => exact fatFuseTruncate_tidy hmarks h hrequest hharmless hstep
  | unlink path =>
      have hsearch : fatTreeNodeSearch (s.setErrno 0) path = some none := hharmless
      simp only [fuseStep, fatFuseUnlink, hsearch, Option.bind_eq_bind, Option.bind_some,
        Option.some.injEq, Prod.mk.injEq] at hstep
      obtain ⟨-, rfl⟩ := hstep
      exact StepTidy.idle h ⟨_, _, rfl⟩
  | _ => exact absurd hrequest id

/-- Harmless requests write nothing to the contents. -/
theorem contentsAfter_empty [t.Formatted] (hmarks : t.ClusterNumbersBelowMarks)
    (h : ClusterlessFiles t s files) {op : FuseOp} (hrequest : ClusterlessRequest files s op)
    (hharmless : HarmlessRequest t env s op) (hstep : fuseStep t env s op = some (r, s')) :
    contentsAfter s op r (fun _ => []) = fun _ => [] := by
  funext x
  cases op with
  | write buf size offset fh =>
      have hr := (fatFuseWrite_tidy hmarks h hrequest hharmless hstep).2
      simp only [contentsAfter, if_neg (show ¬ 0 < r by omega), Function.update_apply, ite_self]
  | truncate path offset =>
      simp only [contentsAfter, List.take_nil, ite_self]
      rcases fatTreeNodeSearch s path with _ | _ | a <;> simp [Function.update_apply]
  | _ => rfl

theorem readsBack_empty [t.Formatted] (hmarks : t.ClusterNumbersBelowMarks)
    (h : ClusterlessFiles t s files) {op : FuseOp} (hrequest : ClusterlessRequest files s op) :
    ReadsBack t env s (fun _ => []) op := by
  cases op with
  | read buf size offset fh =>
      intro r buf' s' hoffset hread
      have hzero := (fatFuseRead_tidy hmarks h hrequest hread).2 (by simpa using hoffset)
      simp [hzero, slice, bufferBytes]
  | _ => trivial

end Requests

/-! ## Runs -/

theorem ReservedKept.trans {v v' v'' : Volume} (h : ReservedKept t v v')
    (h' : ReservedKept t v' v'') : ReservedKept t v v'' :=
  ⟨fun c hc => (h'.memory c hc).trans (h.memory c hc),
    fun i hi => (h'.disk i hi).trans (h.disk i hi)⟩

theorem ClusterlessRun.kept [t.Formatted] (hmarks : t.ClusterNumbersBelowMarks) {s s' : FsState}
    {files : Set ℕ} {contents : ℕ → List UInt8} (h : ClusterlessFiles t s files)
    (hrun : ClusterlessRun t env files (HarmlessRequest t env) s s' contents) :
    ClusterlessFiles t s' files ∧ ReservedKept t s.vol s'.vol ∧ contents = fun _ => [] := by
  induction hrun with
  | nil => exact ⟨h, ⟨fun _ _ => rfl, fun _ _ => rfl⟩, rfl⟩
  | snoc run request allowed step ih =>
      obtain ⟨hkept, hreserved, rfl⟩ := ih
      have htidy := fuseStep_tidy hmarks hkept request allowed step
      exact ⟨htidy.kept, hreserved.trans htidy.reservedKept,
        contentsAfter_empty hmarks hkept request allowed step⟩

/-- In a run of harmless requests for empty files without a cluster, on a formatted table,
the entries 0 and 1 of the FAT never change, every byte that a request changes lies in a
place of its own, and what was written is read back. -/
theorem clusterlessFiles_handled [t.Formatted] (hmarks : t.ClusterNumbersBelowMarks)
    {s s' : FsState} {files : Set ℕ} {contents : ℕ → List UInt8} (h : ClusterlessFiles t s files)
    (hrun : ClusterlessRun t env files (HarmlessRequest t env) s s' contents) :
    ReservedKept t s.vol s'.vol ∧
      ∀ op, ClusterlessRequest files s' op → HarmlessRequest t env s' op →
        ReadsBack t env s' contents op ∧
          ∀ r s'', fuseStep t env s' op = some (r, s'') →
            ∀ a, s''.vol.disk a ≠ s'.vol.disk a → OwnPlace t s'' files a := by
  obtain ⟨hkept, hreserved, rfl⟩ := hrun.kept hmarks h
  refine ⟨hreserved, fun op hrequest hharmless => ⟨readsBack_empty hmarks hkept hrequest,
    fun r s'' hstep => ?_⟩⟩
  exact (fuseStep_tidy hmarks hkept hrequest hharmless hstep).written

/-! ## A volume with such a file -/

/-- The FAT of the image: the media byte, the mark of the entry 1, and four clusters. -/
def clusterlessFat : List ℕ :=
  [0x0FFFFFF8, 0x0FFFFFFF, fatClusterEndOfChainMax, fatClusterBadSector, fatClusterEndOfChainMax,
    fatClusterEndOfChainMax]

/-- The root, at cluster 2, holds the empty file `z` with start cluster 0 and a volume
label; the log directory is at cluster 3 and the log at cluster 5. -/
def clusterlessImage : Volume :=
  { smallVolume [] with
    fatMap := fun c => clusterlessFat.getD c 0
    disk := placeBytes (entryBytes [0x7a] [] fileAttributeArchive 0 0 ++
        entryBytes [0x76] [] fileAttributeVolume 0 0) 256
      (placeBytes (entryBytes [0x66, 0x73] [0x6c, 0x6f, 0x67] fileAttributeArchive 5 0) 384
        fun a => if a < 256 then leByte (clusterlessFat.getD (a / 4) 0) (a % 4) else 0) }

def clusterlessListed : Option FsState :=
  (initFileTree clusterlessImage 2).bind fun s =>
    (fatFuseReaddir quadTable plainEnv s (fun _ _ => false) 0).map fun r => r.2.2

def pathZ : CString := [charSlash, 0x7a]

/-- In the mounted image node 1 is `/z`, below the root at node 0; the log is node 3. -/
theorem exists_clusterlessFiles :
    ∃ s, clusterlessListed = some s ∧ ClusterlessFiles quadTable s {1} ∧
      fatTreeNodeSearch s pathZ = some (some 1) ∧ s.vol.fatMap 0 = 0x0FFFFFF8 ∧
      (fatFuseUnlink quadTable s pathZ).map (fun r => (r.1, r.2.vol.fatMap 0)) =
        some (0, fatClusterFree) := by
  have hstate : clusterlessListed.bind (fun s => (s.nodes.get 1).bind fun n =>
      (s.files.get n.data).bind fun f => (s.nodes.get 0).bind fun m =>
        (s.files.get m.data).map fun root =>
          (fatTreeNodeSearch s pathZ, n.hParent, fatFileIsDirectory f, f.startCluster,
            f.dentry.fileSize, fatFileIsDirectory root, root.startCluster)) =
      some (some (some 1), some 0, false, 0, 0, true, 2) := by
    rfl
  have hlog : clusterlessListed.bind (fun s => (s.nodes.get 3).bind fun n =>
      (s.files.get n.data).bind fun f => (s.nodes.get 2).bind fun m =>
        (s.files.get m.data).map fun bb =>
          (fatTreeNodeSearch s bbLogFile, n.hParent, f.startCluster, f.dentry.fileSize,
            fatFileIsDirectory bb, bb.startCluster)) =
      some (some (some 3), some 2, 5, 0, true, 3) := by
    rfl
  have hvol : clusterlessListed.map (fun s =>
      (s.vol.writable, s.vol.io, s.vol.fatMap 0, s.vol.fatMap 5)) =
      some (true, [], 0x0FFFFFF8, fatClusterEndOfChainMax) := by
    rfl
  have hsteps : clusterlessListed.map (fun s =>
      (fatFuseUnlink quadTable s pathZ).map (fun r => (r.1, r.2.vol.fatMap 0))) =
      some (some (0, fatClusterFree)) := by
    rfl
  simp only [Option.bind_eq_some_iff, Option.map_eq_some_iff, Prod.mk.injEq] at hstate
  obtain ⟨s, hs, n, hn, f, hf, m, hm, root, hroot, hsearch, hparent, hregular, hstart, hsize,
    hdir, hcluster⟩ := hstate
  simp only [hs, Option.bind_some, Option.bind_eq_some_iff, Option.map_eq_some_iff,
    Prod.mk.injEq] at hlog
  simp only [hs, Option.map_some, Option.some.injEq, Prod.mk.injEq] at hvol hsteps
  obtain ⟨ln, hln, log, hlogFile, bbNode, hbbNode, bb, hbb, hlogSearch, hlogParent, hlogStart,
    hlogSize, hbbDir, hbbCluster⟩ := hlog
  obtain ⟨hw, hio, hfirst, hchain⟩ := hvol
  refine ⟨s, hs, ⟨?_, ?_, ⟨hw, hio⟩⟩, hsearch, hfirst, hsteps⟩
  · rintro a rfl
    exact ⟨n, f, root, ⟨⟨hn, hf⟩, ⟨0, m, hparent, hm, hroot⟩, hdir, by rw [hcluster]; decide⟩,
      hregular, hstart, hsize⟩
  · intro a ha
    obtain rfl : 3 = a := by simpa using hlogSearch.symm.trans ha
    refine ⟨ln, log, bb, ⟨⟨hln, hlogFile⟩, ⟨2, bbNode, hlogParent, hbbNode, hbb⟩, hbbDir,
      by rw [hbbCluster]; decide⟩, fun _ => ⟨[], ⟨?_, ?_, ?_⟩, ?_⟩⟩
    · simp [hlogStart, chainNext, hchain, not_valid_endOfChain (t := quadTable) (by decide)]
    · intro c hc
      rw [List.mem_singleton.mp hc, hlogStart]
      decide
    · intro c hc
      rw [List.mem_singleton.mp hc, hlogStart, hchain]
      decide
    · rw [hlogSize]
      exact Nat.zero_le _

/-- Removing `/z` frees the entry 0 of the FAT. -/
theorem clusterless_unlink_frees_reserved :
    ¬ ∀ (t : FatTable) (env : FuseEnv) (s s' : FsState) (files : Set ℕ)
      (contents : ℕ → List UInt8), FuseReachable t env s → ClusterlessFiles t s files →
      ClusterlessRun t env files (fun _ _ => True) s s' contents →
        ReservedKept t s.vol s'.vol := by
  intro hall
  obtain ⟨s, hs, hfiles, hsearch, hfirst, hunlink⟩ := exists_clusterlessFiles
  simp only [Option.map_eq_some_iff, Prod.mk.injEq, Prod.exists] at hunlink
  obtain ⟨r, s', hstep, -, hfreed⟩ := hunlink
  have hrequest : ClusterlessRequest {1} s (.unlink pathZ) := by
    intro a ha
    obtain rfl : 1 = a := by simpa using hsearch.symm.trans ha
    rfl
  have hunlink : fuseStep quadTable plainEnv s (.unlink pathZ) = some (r, s') := hstep
  have hkept := hall quadTable plainEnv s s' {1} _ (reachable_of_listing hs) hfiles
    (ClusterlessRun.snoc .nil hrequest trivial hunlink)
  have hsame := hkept.memory 0 (by decide)
  rw [hfreed, hfirst] at hsame
  exact absurd hsame (by decide)

/-- A write behind the end of `/z`, a cut at an offset that is not 0, the removal of a file that is
not there and a read keep the entries. -/
theorem clusterlessFiles_handled_four :
    ∃ s s' contents, clusterlessListed = some s ∧
      ClusterlessRun quadTable plainEnv {1} (HarmlessRequest quadTable plainEnv) s s' contents ∧
      ReservedKept quadTable s.vol s'.vol := by
  obtain ⟨s, hs, hfiles, -⟩ := exists_clusterlessFiles
  have hsteps : clusterlessListed.bind (fun s =>
      (fuseStep quadTable plainEnv s (.write (fun _ => 7) 3 5 1)).bind fun a =>
        (fuseStep quadTable plainEnv a.2 (.truncate pathZ 4)).bind fun b =>
          (fuseStep quadTable plainEnv b.2 (.unlink pathB)).bind fun c =>
            (fuseStep quadTable plainEnv c.2 (.read (fun _ => 0) 1 0 1)).map fun d =>
              (fatTreeNodeSearch a.2 pathZ, fatTreeNodeSearch b.2 pathB, d.1)) =
      some (some (some 1), some none, 0) := by
    decide +kernel
  simp only [hs, Option.bind_some, Option.bind_eq_some_iff, Option.map_eq_some_iff, Prod.exists,
    Prod.mk.injEq] at hsteps
  obtain ⟨_, s₁, hwrite, _, s₂, hcut, _, s₃, hremove, _, s₄, hread, hfile, hmissing, -⟩ := hsteps
  have hnone : ClusterlessRun quadTable plainEnv {1} (HarmlessRequest quadTable plainEnv) s s _ :=
    .nil
  have hmember : ClusterlessRequest {1} s₁ (.truncate pathZ 4) := by
    intro a ha
    obtain rfl : 1 = a := by simpa using hfile.symm.trans ha
    rfl
  have hnobody : ClusterlessRequest {1} s₂ (.unlink pathB) := by
    intro a ha
    simp [hmissing] at ha
  have hbehind : HarmlessRequest quadTable plainEnv s (.write (fun _ => 7) 3 5 1) :=
    Or.inr (Or.inl (by decide))
  have hlater : HarmlessRequest quadTable plainEnv s₁ (.truncate pathZ 4) :=
    Or.inr (Or.inl (by decide))
  have hreader : ClusterlessRequest {1} s₃ (.read (fun _ => 0) 1 0 1) := Set.mem_singleton 1
  have hrun := (((hnone.snoc (Set.mem_singleton 1) hbehind hwrite).snoc hmember hlater hcut).snoc
    hnobody hmissing hremove).snoc hreader trivial hread
  exact ⟨s, s₄, _, hs, hrun, (clusterlessFiles_handled (by decide) hfiles hrun).1⟩

end SistOp.FatFuse
