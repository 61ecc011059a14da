import SistOp.DirectorySlots
import SistOp.FatFuseOps
import SistOp.FileInit
import Mathlib.Tactic

/-!
# Creating an entry

`CreateOutcome` lists what `fat_fuse_mkdir` and `fat_fuse_mknod` can do when they
return: the parent is missing or no directory, the new file cannot be made, or it
was made, inserted into the tree and offered to the directory.
-/

namespace SistOp.FatFuse

open ByteStore

variable {t : FatTable}

/-- Writing an entry sets `errno` and leaves the bytes outside the slot, or it
fills the slot. -/
theorem writeDirEntry_cases {v v' : Volume} {p f : FatFile}
    (h : writeDirEntry t v (some p) f = some v') :
    v.Later v' ∧ v'.fatMap = v.fatMap ∧
      ((v'.errno ≠ 0 ∧ ∀ a, (∀ i < fatTableBytesPerCluster t,
          a ≠ fatTableClusterOffset t p.startCluster + i) → v'.disk a = v.disk a) ∨
        (v'.errno = v.errno ∧ f.posInParent < slotsPerCluster t ∧
          v'.disk = writeSlot t v.disk p.startCluster f.posInParent f.dentry)) := by
  by_cases hfits : f.posInParent < slotsPerCluster t
  · obtain ⟨⟨r, v₁⟩, hwrite⟩ : ∃ written, pwrite v (fun i => f.dentry.byte i.toNat)
        fatDirEntryByteSize (slotAddr t p.startCluster f.posInParent : ℕ) = written :=
      ⟨_, rfl⟩
    obtain ⟨hmap, hlater, -, -, hcases⟩ := pwrite_cases hwrite
    rw [writeDirEntry_inside hfits hwrite] at h
    rcases hcases with ⟨hr, herrno, hdisk⟩ | ⟨n, hn, hr, herrno, hdisk⟩
    · rw [if_neg (by omega)] at h
      obtain rfl := Option.some.inj h
      exact ⟨hlater, hmap, Or.inl ⟨herrno, fun a _ => by rw [hdisk]⟩⟩
    · by_cases hshort : n < fatDirEntryByteSize
      · rw [if_pos (by omega)] at h
        obtain rfl := Option.some.inj h
        refine ⟨hlater, hmap, Or.inl ⟨by simp, ?_⟩⟩
        intro a ha
        by_contra hne
        simp only [hdisk] at hne
        obtain ⟨hlow, hhigh⟩ := mem_range_of_store_ne hne
        have hroom := slot_byte_lt (t := t) hfits
          (show a - slotAddr t p.startCluster f.posInParent < fatDirEntryByteSize by omega)
        apply ha _ hroom
        rw [slotAddr] at hlow ⊢
        omega
      · rw [if_neg (by omega)] at h
        obtain rfl := Option.some.inj h
        have hall : n = fatDirEntryByteSize := by omega
        subst hall
        exact ⟨hlater, hmap, Or.inr ⟨herrno, hfits, by simpa [writeSlot] using hdisk⟩⟩
  · rw [writeDirEntry_full (Nat.not_lt.mp hfits)] at h
    obtain rfl := Option.some.inj h
    exact ⟨Volume.Later.refl v, rfl, Or.inl ⟨by simp, fun _ _ => rfl⟩⟩

/-- The directory of the tree that a new path belongs to: its node, its file and
the value of the file. -/
structure ParentAt (s : FsState) (path : CString) (node addr : ℕ) (p : FatFile) :
    Prop where
  search : fatTreeNodeSearch s (dirname path) = some (some node)
  file : fatTreeGetFile s node = some addr
  live : s.files.get addr = some p

/-- The new child as `fat_file_dentry_add_child` places it. -/
def placedChild (p file : FatFile) : FatFile := { file with posInParent := p.nentries }

/-- The parent after the entry was offered to it. -/
def parentAfter (p : FatFile) (errno : ℤ) : FatFile :=
  if errno = 0 then { p with nentries := (p.nentries + 1) % 2 ^ 32 } else p

inductive CreateOutcome (t : FatTable) (isDir : Bool) (failed : ℤ → Bool)
    (s : FsState) (path : CString) : ℤ → FsState → Prop
  | noParent (hsearch : fatTreeNodeSearch s (dirname path) = some none) :
      CreateOutcome t isDir failed s path (- Errno.enoent) (s.setErrno Errno.enoent)
  | notDirectory {node addr : ℕ} {p : FatFile} (hparent : ParentAt s path node addr p)
      (hdir : fatFileIsDirectory p = false) :
      CreateOutcome t isDir failed s path (- Errno.enotdir) (s.setErrno Errno.enotdir)
  | initFailed {node addr : ℕ} {p : FatFile} {v₁ : Volume}
      (hparent : ParentAt s path node addr p) (hdir : fatFileIsDirectory p = true)
      (hinit : fatFileInit t (s.setErrno 0).vol isDir path = some (none, v₁))
      (hfailed : failed v₁.errno = true) :
      CreateOutcome t isDir failed s path (- v₁.errno) { s with vol := v₁ }
  | made {node addr : ℕ} {p file : FatFile} {v₁ v₂ : Volume} {root root' : HTree}
      {nodes' : Heap (HNode ℕ)} {files₁ files₂ : Heap FatFile}
      (hparent : ParentAt s path node addr p) (hdir : fatFileIsDirectory p = true)
      (hinit : fatFileInit t (s.setErrno 0).vol isDir path = some (some file, v₁))
      (hroot : s.fileTree = some root)
      (hinsert : hTreeInsert (fatFileCmp (s.files.alloc file)) s.nodes root
        s.files.next (some node) = some (nodes', root'))
      (hentry : writeDirEntry t v₁ (some p) (placedChild p file) = some v₂)
      (hwriteParent : (s.files.alloc file).write addr (parentAfter p v₂.errno) =
        some files₁)
      (hwriteChild : files₁.write s.files.next (placedChild p file) = some files₂) :
      CreateOutcome t isDir failed s path (- v₂.errno)
        { vol := v₂, files := files₂, nodes := nodes', fileTree := some root' }

/-- `fat_file_dentry_add_child` in terms of the slot it writes. -/
theorem fatFileDentryAddChild_eq (v : Volume) (p file : FatFile) :
    fatFileDentryAddChild t v p file =
      (writeDirEntry t v (some p) (placedChild p file)).map fun v' =>
        (parentAfter p v'.errno, placedChild p file, v') := by
  cases hwrite : writeDirEntry t v (some p) (placedChild p file) with
  | none =>
      simp only [placedChild] at hwrite
      simp [fatFileDentryAddChild, hwrite]
  | some v' =>
      simp only [placedChild] at hwrite
      by_cases herrno : v'.errno = 0 <;>
        simp [fatFileDentryAddChild, hwrite, placedChild, parentAfter, herrno]

theorem createEntry_outcome [t.Formatted] {isDir : Bool} {failed : ℤ → Bool}
    (hfailed : failed 0 = false) {s s' : FsState} {path : CString} {r : ℤ}
    (h : createEntry t isDir failed s path = some (r, s')) :
    CreateOutcome t isDir failed s path r s' := by
  simp only [createEntry, Option.bind_eq_bind, Option.bind_eq_some_iff] at h
  obtain ⟨found, hsearch, h⟩ := h
  cases found with
  | none =>
      simp only [Option.some.injEq, Prod.mk.injEq] at h
      obtain ⟨rfl, rfl⟩ := h
      exact CreateOutcome.noParent hsearch
  | some node =>
      simp only [Option.bind_eq_some_iff] at h
      obtain ⟨addr, hfile, p, hlive, h⟩ := h
      have hparent : ParentAt s path node addr p := ⟨hsearch, hfile, hlive⟩
      split at h
      · rename_i hdir
        simp only [Option.some.injEq, Prod.mk.injEq] at h
        obtain ⟨rfl, rfl⟩ := h
        exact CreateOutcome.notDirectory hparent hdir
      · rename_i hdir
        simp only [Bool.not_eq_false] at hdir
        simp only [Option.bind_eq_some_iff] at h
        obtain ⟨⟨made, v₁⟩, hinit, h⟩ := h
        cases made with
        | none =>
            simp only [allocResult, FsState.errno] at h
            by_cases hbad : failed v₁.errno = true
            · simp only [hbad, if_true, Option.some.injEq, Prod.mk.injEq] at h
              obtain ⟨rfl, rfl⟩ := h
              exact CreateOutcome.initFailed hparent hdir hinit hbad
            · simp [hbad] at h
        | some file =>
            obtain ⟨-, hnull | ⟨c, file', heq, -, -, -, -, -, -, -, -, -, -, herrno, -⟩⟩ :=
              fatFileInit_eq_some (by rfl) hinit
            · simp at hnull
            simp only [allocResult, FsState.allocFile, FsState.errno, herrno, hfailed] at h
            simp only [Bool.false_eq_true, if_false, Option.bind_some,
              Option.bind_eq_some_iff] at h
            obtain ⟨s₂, hinsert, s₃, hadd, h⟩ := h
            cases hroot : s.fileTree with
            | none => simp [fatTreeNodeSearch, FsState.setErrno, hroot] at hsearch
            | some root =>
                simp only [fatTreeInsert, FsState.setErrno, hroot, Option.bind_eq_bind,
                  Option.bind_eq_some_iff, Prod.exists, Option.some.injEq] at hinsert
                obtain ⟨nodes', root', hinsert, rfl⟩ := hinsert
                simp only [dentryAddChild, fatFileDentryAddChild_eq, Option.bind_eq_bind,
                  Option.bind_eq_some_iff, Option.map_eq_some_iff, Prod.exists,
                  Prod.mk.injEq, Option.some.injEq] at hadd
                obtain ⟨p', hp', file', hfile', q, child, v₂, ⟨v₃, hentry, rfl, rfl, rfl⟩,
                  files₁, hwriteParent, files₂, hwriteChild, rfl⟩ := hadd
                have hp : p' = p := by
                  have hbefore := Heap.get_alloc_of_live file hparent.live
                  exact Option.some.inj (hp'.symm.trans hbefore)
                have hnew : file' = file :=
                  Option.some.inj (hfile'.symm.trans (Heap.get_alloc_self _ _))
                subst hp hnew
                simp only [Option.some.injEq, Prod.mk.injEq] at h
                obtain ⟨rfl, rfl⟩ := h
                exact CreateOutcome.made hparent hdir hinit hroot hinsert hentry
                  hwriteParent hwriteChild

/-- What the state holds after an entry was made. -/
theorem made_files {s : FsState} {addr : ℕ} {p p' file child : FatFile}
    {files₁ files₂ : Heap FatFile} (hlive : s.files.get addr = some p)
    (hwriteParent : (s.files.alloc file).write addr p' = some files₁)
    (hwriteChild : files₁.write s.files.next child = some files₂) :
    files₂.get s.files.next = some child ∧ files₂.get addr = some p' ∧
      files₂.next = s.files.next + 1 ∧
      ∀ a, a ≠ addr → a ≠ s.files.next → files₂.get a = s.files.get a := by
  obtain ⟨-, hnext₁, hself₁, hothers₁⟩ := Heap.write_eq_some hwriteParent
  obtain ⟨-, hnext₂, hself₂, hothers₂⟩ := Heap.write_eq_some hwriteChild
  have hne : addr ≠ s.files.next := ne_of_lt (Heap.lt_next hlive)
  refine ⟨hself₂, ?_, by rw [hnext₂, hnext₁, Heap.next_alloc], ?_⟩
  · rw [hothers₂ addr hne, hself₁]
  · intro a ha hchild
    rw [hothers₂ a hchild, hothers₁ a ha, Heap.get_alloc_of_ne _ _ hchild]

/-! ## Creations that succeed -/

/-- What a creation with result 0 has done. -/
structure EntryCreated (t : FatTable) (isDir : Bool) (s s' : FsState)
    (path : CString) (node addr : ℕ) (p file : FatFile) : Prop where
  parent : ParentAt s path node addr p
  isDirectory : fatFileIsDirectory p = true
  room : p.nentries < slotsPerCluster t
  free : fatTableGetNextFreeCluster t (s.setErrno 0).vol = some file.startCluster
  wasFree : s.vol.fatMap file.startCluster = fatClusterFree
  inTable : file.startCluster < t.fatEntries
  filepath : file.filepath = path
  unlisted : file.nentries = 0 ∧ file.childrenRead = false
  size : file.dentry.fileSize = 0
  attribs : file.dentry.attribs =
    if isDir then fileAttributeDirectory else fileAttributeArchive
  inserted : ∃ root, s.fileTree = some root ∧ ∃ root',
    hTreeInsert (fatFileCmp (s.files.alloc file)) s.nodes root s.files.next
      (some node) = some (s'.nodes, root') ∧ s'.fileTree = some root'
  childFile : s'.files.get s.files.next = some (placedChild p file)
  parentFile : s'.files.get addr = some (parentAfter p 0)
  nextFile : s'.files.next = s.files.next + 1
  otherFiles : ∀ a, a ≠ addr → a ≠ s.files.next → s'.files.get a = s.files.get a
  fatMap : s'.vol.fatMap =
    Function.update s.vol.fatMap file.startCluster fatClusterEndOfChainMax
  disk : ∃ k ≤ 4, s'.vol.disk =
    writeSlot t
      (store s.vol.disk (file.startCluster * 4 % 2 ^ 32 + t.fatOffset) k fun i =>
        leByte fatClusterEndOfChainMax i)
      p.startCluster p.nentries file.dentry
  later : s.vol.Later s'.vol

theorem createEntry_created [t.Formatted] {isDir : Bool} {failed : ℤ → Bool}
    (hfailed : failed 0 = false) {s s' : FsState} {path : CString}
    (h : createEntry t isDir failed s path = some (0, s')) :
    ∃ node addr p file, EntryCreated t isDir s s' path node addr p file := by
  obtain ⟨r, hr⟩ : ∃ r : ℤ, r = 0 := ⟨0, rfl⟩
  rw [← hr] at h
  cases createEntry_outcome hfailed h with
  | noParent => simp at hr
  | notDirectory => simp at hr
  | initFailed hparent hdir hinit hbad =>
      rcases fatFileInit_eq_some (by rfl) hinit with ⟨-, ⟨-, hne, -⟩ | ⟨c, file, heq, -⟩⟩
      · exact absurd (by omega) hne
      · simp at heq
  | made hparent hdir hinit hroot hinsert hentry hwriteParent hwriteChild =>
      rename_i node addr p file v₁ v₂ root root' nodes' files₁ files₂
      have hzero : v₂.errno = 0 := by omega
      rcases fatFileInit_eq_some (by rfl) hinit with ⟨hlater, ⟨heq, -⟩ | ⟨c, file', heq,
        hfree, hcfree, hbound, hstart, hnentries, hread, -, hpath, hsize, hattribs, -,
        hmap, k, -, hk, hdisk⟩⟩
      · simp at heq
      obtain rfl := Option.some.inj heq
      obtain ⟨hlater', hmap', ⟨hne, -⟩ | ⟨-, hfits, hdisk'⟩⟩ := writeDirEntry_cases hentry
      · exact absurd hzero hne
      subst hstart
      rw [hzero] at hwriteParent
      obtain ⟨hchild, hparentFile, hnext, hothers⟩ :=
        made_files hparent.live hwriteParent hwriteChild
      refine ⟨node, addr, p, file, hparent, hdir, hfits, hfree, hcfree, hbound, hpath,
        ⟨hnentries, hread⟩, hsize, hattribs, ⟨root, hroot, root', hinsert, rfl⟩, hchild,
        hparentFile, hnext, hothers, hmap'.trans hmap, ⟨k, hk, ?_⟩, hlater.trans hlater'⟩
      rw [hdisk', hdisk]
      rfl

/-- The new file is the one that `fat_file_init` made. -/
theorem createEntry_init [t.Formatted] {isDir : Bool} {failed : ℤ → Bool}
    (hfailed : failed 0 = false) {s s' : FsState} {path : CString}
    (h : createEntry t isDir failed s path = some (0, s')) :
    ∃ p file v₁, fatFileInit t (s.setErrno 0).vol isDir path = some (some file, v₁) ∧
      s'.files.get s.files.next = some (placedChild p file) := by
  obtain ⟨r, hr⟩ : ∃ r : ℤ, r = 0 := ⟨0, rfl⟩
  rw [← hr] at h
  cases createEntry_outcome hfailed h with
  | noParent => simp at hr
  | notDirectory => simp at hr
  | initFailed hparent hdir hinit hbad =>
      rcases fatFileInit_eq_some (by rfl) hinit with ⟨-, ⟨-, hne, -⟩ | ⟨c, file, heq, -⟩⟩
      · exact absurd (by omega) hne
      · simp at heq
  | made hparent hdir hinit hroot hinsert hentry hwriteParent hwriteChild =>
      exact ⟨_, _, _, hinit, (made_files hparent.live hwriteParent hwriteChild).1⟩

/-! ## Live entries -/

/-- A slot that holds an entry: it is neither empty nor deleted. -/
def SlotLive (d : FatDirEntry) : Prop :=
  d.byte 0 ≠ 0 ∧ d.byte 0 ≠ fatFilenameDeletedChar

instance (d : FatDirEntry) : Decidable (SlotLive d) :=
  inferInstanceAs (Decidable (_ ∧ _))

/-- The new child's slot in the directory `p` held no entry and holds the child's
now, and every slot of every cluster that held an entry still holds it. -/
structure EntriesKept (t : FatTable) (s s' : FsState) (p : FatFile) : Prop where
  placed : ∃ child, s'.files.get s.files.next = some child ∧
    diskSlot t s'.vol.disk p.startCluster child.posInParent = child.dentry ∧
    ¬ SlotLive (diskSlot t s.vol.disk p.startCluster child.posInParent)
  kept : ∀ cluster slot, cluster < 2 ^ 32 → slot < slotsPerCluster t →
    SlotLive (diskSlot t s.vol.disk cluster slot) →
    diskSlot t s'.vol.disk cluster slot = diskSlot t s.vol.disk cluster slot

/-- An entry of the FAT lies in front of every slot. -/
theorem diskSlot_store_entry [t.Formatted] {disk : ℕ → UInt8} {c k : ℕ} (hc : c < t.fatEntries)
    (hk : k ≤ 4) (data : ℕ → UInt8) (cluster slot : ℕ) :
    diskSlot t (store disk (c * 4 % 2 ^ 32 + t.fatOffset) k data) cluster slot =
      diskSlot t disk cluster slot := by
  have hentry := entry_lt_dataStart hc
  have hwrap : c * 4 % 2 ^ 32 ≤ c * 4 := Nat.mod_le _ _
  have hslot := dataStart_le_slotAddr (t := t) cluster slot
  apply diskSlot_congr
  intro i _
  exact store_outside _ _ (Or.inr (by omega))

namespace EntryCreated

variable {isDir : Bool} {s s' : FsState} {path : CString} {node addr : ℕ}
  {p file : FatFile}

theorem diskSlot_self (h : EntryCreated t isDir s s' path node addr p file) :
    diskSlot t s'.vol.disk p.startCluster p.nentries = file.dentry := by
  obtain ⟨k, -, hdisk⟩ := h.disk
  rw [hdisk, diskSlot_writeSlot_self]

theorem diskSlot_of_ne [t.Formatted] (h : EntryCreated t isDir s s' path node addr p file)
    {cluster slot : ℕ} (hcluster : cluster < 2 ^ 32) (hslot : slot < slotsPerCluster t)
    (hne : ¬ (cluster = p.startCluster ∧ slot = p.nentries)) :
    diskSlot t s'.vol.disk cluster slot = diskSlot t s.vol.disk cluster slot := by
  obtain ⟨k, hk, hdisk⟩ := h.disk
  rw [hdisk, diskSlot_writeSlot_of_ne _ _ p.startCluster_lt hcluster h.room hslot hne,
    diskSlot_store_entry h.inTable hk]

/-- The entry goes to the slot that the counter of the directory names, so no entry
is lost exactly when that slot holds none. -/
theorem entriesKept_iff [t.Formatted] (h : EntryCreated t isDir s s' path node addr p file) :
    EntriesKept t s s' p ↔
      ¬ SlotLive (diskSlot t s.vol.disk p.startCluster p.nentries) := by
  constructor
  · intro hkept
    obtain ⟨child, hchild, -, hdead⟩ := hkept.placed
    rw [h.childFile] at hchild
    obtain rfl := Option.some.inj hchild
    exact hdead
  · intro hdead
    refine ⟨⟨_, h.childFile, h.diskSlot_self, hdead⟩, ?_⟩
    intro cluster slot hcluster hslot hlive
    apply h.diskSlot_of_ne hcluster hslot
    rintro ⟨rfl, rfl⟩
    exact hdead hlive

end EntryCreated

/-- On a formatted table, a successful creation loses no entry exactly when the slot
that `dir.nentries` of its directory names is not live.  The counter is 0 until the
directory was listed. -/
theorem creation_keepsEntries_iff [t.Formatted] {s s' : FsState} {path : CString}
    (h : fatFuseMkdir t s path = some (0, s') ∨ fatFuseMknod t s path = some (0, s')) :
    ∃ node addr p, ParentAt s path node addr p ∧
      (EntriesKept t s s' p ↔
        ¬ SlotLive (diskSlot t s.vol.disk p.startCluster p.nentries)) := by
  have hcreated : ∃ isDir node addr p file,
      EntryCreated t isDir s s' path node addr p file := by
    rcases h with hmkdir | hmknod
    · exact ⟨true, createEntry_created (by decide) hmkdir⟩
    · exact ⟨false, createEntry_created (by decide) hmknod⟩
  obtain ⟨isDir, node, addr, p, file, hcreated⟩ := hcreated
  exact ⟨node, addr, p, hcreated.parent, hcreated.entriesKept_iff⟩

/-- The path `/a`. -/
def pathA : CString := [charSlash, 0x61]

/-- A volume whose root directory, at cluster 2, starts with the given byte. -/
def rootVolume (first : UInt8) : Volume :=
  { smallVolume [fatClusterEndOfChainMax] with
    disk := fun a => if a = 64 then first else 0 }

/-- Right after mounting, a file is created in an empty root directory. -/
theorem creation_keepsEntries_empty :
    ∃ mounted s', initFileTree (rootVolume 0) 2 = some mounted ∧
      fatFuseMknod smallTable mounted pathA = some (0, s') ∧
      ∃ node addr p, ParentAt mounted pathA node addr p ∧
        (EntriesKept smallTable mounted s' p ↔
          ¬ SlotLive (diskSlot smallTable mounted.vol.disk p.startCluster p.nentries)) := by
  obtain ⟨mounted, hmounted⟩ : ∃ mounted, initFileTree (rootVolume 0) 2 = some mounted :=
    Option.isSome_iff_exists.mp (by decide)
  have hcreated : (initFileTree (rootVolume 0) 2).bind
      (fun mounted => (fatFuseMknod smallTable mounted pathA).map Prod.fst) = some 0 := by
    decide
  rw [hmounted, Option.bind_some, Option.map_eq_some_iff] at hcreated
  obtain ⟨⟨r, s'⟩, hmknod, rfl⟩ := hcreated
  exact ⟨mounted, s', hmounted, hmknod, creation_keepsEntries_iff (Or.inr hmknod)⟩

/-- Right after mounting, creating `/a` overwrites the first entry of the root. -/
theorem creation_overwrites_entry :
    ∃ mounted s' node addr p, initFileTree (rootVolume 0x42) 2 = some mounted ∧
      fatFuseMknod smallTable mounted pathA = some (0, s') ∧
      ParentAt mounted pathA node addr p ∧ ¬ EntriesKept smallTable mounted s' p := by
  obtain ⟨mounted, hmounted⟩ : ∃ mounted, initFileTree (rootVolume 0x42) 2 = some mounted :=
    Option.isSome_iff_exists.mp (by decide)
  have hcreated : (initFileTree (rootVolume 0x42) 2).bind
      (fun mounted => (fatFuseMknod smallTable mounted pathA).map fun r =>
        (r.1, (diskSlot smallTable mounted.vol.disk 2 0).byte 0,
          (diskSlot smallTable r.2.vol.disk 2 0).byte 0)) = some (0, 0x42, 0x61) := by
    decide
  rw [hmounted, Option.bind_some, Option.map_eq_some_iff] at hcreated
  obtain ⟨⟨r, s'⟩, hmknod, heq⟩ := hcreated
  simp only [Prod.mk.injEq] at heq
  obtain ⟨rfl, hbefore, hafter⟩ := heq
  obtain ⟨node, addr, p, file, hmade⟩ := createEntry_created (by decide) hmknod
  refine ⟨mounted, s', node, addr, p, hmounted, hmknod, hmade.parent, ?_⟩
  intro hkept
  have hlive : SlotLive (diskSlot smallTable mounted.vol.disk 2 0) := by
    rw [SlotLive, hbefore]
    decide
  have hsame := hkept.kept 2 0 (by decide) (by decide) hlive
  rw [hsame, hbefore] at hafter
  exact absurd hafter (by decide)

end SistOp.FatFuse
