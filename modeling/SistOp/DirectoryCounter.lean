import SistOp.DirectoryRemoval
import SistOp.FailedCreation
import SistOp.ShortNames
import SistOp.TransitionSystem
import Mathlib.Tactic

/-!
# The counter of a directory

`fat_file_dentry_add_child` places an entry where `dir.nentries` points, which every
creation moves on and no removal moves back.
-/

namespace SistOp.FatFuse

open ByteStore

variable {t : FatTable} {s s' : FsState} {path : CString} {addr : ℕ}

/-! ## Free slots -/

def FirstFree (t : FatTable) (disk : ℕ → UInt8) (cluster k : ℕ) : Prop :=
  k < slotsPerCluster t ∧ ¬ SlotLive (diskSlot t disk cluster k) ∧
    ∀ j < k, SlotLive (diskSlot t disk cluster j)

/-- The slots that hold an entry, whether a listing shows or skips it. -/
def takenSlots (t : FatTable) (disk : ℕ → UInt8) (cluster : ℕ) : ℕ :=
  (List.range (slotsPerCluster t)).countP fun k => SlotLive (diskSlot t disk cluster k)

theorem takenSlots_lt_iff {disk : ℕ → UInt8} {cluster : ℕ} :
    takenSlots t disk cluster < slotsPerCluster t ↔ ∃ k, FirstFree t disk cluster k := by
  have hall : takenSlots t disk cluster = slotsPerCluster t ↔
      ∀ k < slotsPerCluster t, SlotLive (diskSlot t disk cluster k) := by
    have hcount := @List.countP_eq_length ℕ (List.range (slotsPerCluster t))
      fun k => SlotLive (diskSlot t disk cluster k)
    simpa [takenSlots] using hcount
  have hle : takenSlots t disk cluster ≤ slotsPerCluster t := by
    have hcount := @List.countP_le_length ℕ
      (fun k => SlotLive (diskSlot t disk cluster k)) (List.range (slotsPerCluster t))
    simpa [takenSlots] using hcount
  rw [lt_iff_le_and_ne, and_iff_right hle, ne_eq, hall]
  constructor
  · intro hfree
    simp only [not_forall, exists_prop] at hfree
    classical
    have hspec := Nat.find_spec hfree
    refine ⟨Nat.find hfree, hspec.1, hspec.2, fun j hj => ?_⟩
    by_contra hdead
    exact Nat.find_min hfree hj ⟨hj.trans hspec.1, hdead⟩
  · rintro ⟨k, hk, hdead, -⟩ hlive
    exact hdead (hlive k hk)

/-! ## Requests in one directory -/

inductive EntryEvent where
  | created (path : CString) (r : ℤ)
  | removed (path : CString)
  | refused (path : CString)

/-- The directory that the file object at `addr` stands for lists the node of `path`. -/
structure FileOf (s : FsState) (path : CString) (addr node : ℕ) (n : HNode ℕ)
    (f dir : FatFile) : Prop where
  found : fatTreeNodeSearch s path = some (some node)
  file : NodeFile s node n f
  notDirectory : fatFileIsDirectory f = false
  parent : ∃ p m, n.hParent = some p ∧ NodeFile s p m dir ∧ m.data = addr
  isDirectory : fatFileIsDirectory dir = true

inductive EntryStep (t : FatTable) (addr : ℕ) : FsState → EntryEvent → FsState → Prop
  /-- Before a creation fewer slots are taken than the cluster has. -/
  | mknod {s s' : FsState} {path : CString} {node : ℕ} {dir : FatFile} {r : ℤ}
      (hat : ParentAt s path node addr dir) (hdir : fatFileIsDirectory dir = true)
      (hroom : takenSlots t s.vol.disk dir.startCluster < slotsPerCluster t)
      (h : fatFuseMknod t s path = some (r, s')) :
      EntryStep t addr s (.created path r) s'
  | unlink {s s' : FsState} {path : CString} {node : ℕ} {n : HNode ℕ} {f dir : FatFile}
      {r : ℤ} (hfile : FileOf s path addr node n f dir)
      (h : fatFuseUnlink t s path = some (r, s')) : EntryStep t addr s (.removed path) s'
  /-- There is no file under the path. -/
  | noFile {s s' : FsState} {path : CString} {r : ℤ}
      (hfile : ∀ node, fatTreeNodeSearch s path = some (some node) →
        ∃ n f, NodeFile s node n f ∧ fatFileIsDirectory f = true)
      (h : fatFuseUnlink t s path = some (r, s')) : EntryStep t addr s (.refused path) s'

/-- The new entry is in the slot that was the first free one. -/
def ReusesSlot (t : FatTable) (addr : ℕ) (s : FsState) : EntryEvent → FsState → Prop
  | .created _ r, s' => r ≠ - Errno.enospc ∧ ∃ dir child, s.files.get addr = some dir ∧
      s'.files.get s.files.next = some child ∧
      FirstFree t s.vol.disk dir.startCluster child.posInParent ∧
      diskSlot t s'.vol.disk dir.startCluster child.posInParent = child.dentry
  | _, _ => True

/-- The counter of the directory stands at its first free slot. -/
def CounterAtFree (t : FatTable) (addr : ℕ) (s : FsState) : EntryEvent → Prop
  | .created _ _ => ∃ dir, s.files.get addr = some dir ∧
      FirstFree t s.vol.disk dir.startCluster dir.nentries
  | _ => True

/-! ## One creation -/

theorem setErrno_later (s : FsState) (e : ℤ) : s.vol.Later (s.setErrno e).vol :=
  ⟨rfl, List.suffix_refl _⟩

theorem setErrno_ioSucceeds {e : ℤ} (hio : s.vol.IoSucceeds) : (s.setErrno e).vol.IoSucceeds :=
  (setErrno_later s e).ioSucceeds hio

/-- A creation goes through unless the counter is behind the last slot. -/
theorem fatFuseMknod_result [t.Formatted] {node : ℕ} {dir : FatFile} {r : ℤ}
    (hio : s.vol.IoSucceeds) (hat : ParentAt s path node addr dir)
    (hdir : fatFileIsDirectory dir = true)
    (h : fatFuseMknod t s path = some (r, s')) :
    s.vol.Later s'.vol ∧ s'.files.next = s.files.next + 1 ∧
      r = if dir.nentries < slotsPerCluster t then 0 else - Errno.enospc := by
  cases createEntry_outcome (by decide) h with
  | noParent hsearch =>
      rw [hat.search] at hsearch
      simp at hsearch
  | notDirectory hat' hnot =>
      obtain ⟨rfl, rfl, rfl⟩ := hat.unique hat'
      simp [hdir] at hnot
  | initFailed hat' hdir' hinit hbad =>
      -- `errno` is positive then, and `fat_fuse_mknod` looks for negative ones
      rcases fatFileInit_eq_some (by rfl) hinit with ⟨-, ⟨-, -, hpos, -⟩ | ⟨c, file, heq, -⟩⟩
      · simp only [decide_eq_true_eq] at hbad
        omega
      · simp at heq
  | made hat' hdir' hinit hroot hinsert hentry hwriteParent hwriteChild =>
      rename_i file v₁ v₂ root root' nodes' files₁ files₂
      obtain ⟨rfl, rfl, rfl⟩ := hat.unique hat'
      obtain ⟨hlater, hnull | ⟨c, file', -, -, -, -, -, -, -, -, -, -, -, herrno, -⟩⟩ :=
        fatFileInit_eq_some (by rfl) hinit
      · simp at hnull
      have hlater₁ : s.vol.Later v₁ := (setErrno_later s 0).trans hlater
      obtain ⟨hlater₂, -, -⟩ := writeDirEntry_cases hentry
      refine ⟨hlater₁.trans hlater₂,
        (made_files hat.live hwriteParent hwriteChild).2.2.1, ?_⟩
      split
      · rename_i hroom
        rw [writeDirEntry_of_ioSucceeds (hlater₁.ioSucceeds hio) (by exact hroom)] at hentry
        obtain rfl := Option.some.inj hentry
        simp [herrno]
      · rename_i hfull
        rw [writeDirEntry_full (Nat.not_lt.mp hfull)] at hentry
        obtain rfl := Option.some.inj hentry
        rfl

/-- A creation reuses the first free slot exactly when the counter stands there. -/
theorem reusesSlot_iff [t.Formatted] {node : ℕ} {dir : FatFile} {r : ℤ} (hio : s.vol.IoSucceeds)
    (hat : ParentAt s path node addr dir) (hdir : fatFileIsDirectory dir = true)
    (h : fatFuseMknod t s path = some (r, s')) :
    ReusesSlot t addr s (.created path r) s' ↔ CounterAtFree t addr s (.created path r) := by
  obtain ⟨-, -, hr⟩ := fatFuseMknod_result hio hat hdir h
  by_cases hroom : dir.nentries < slotsPerCluster t
  · rw [if_pos hroom] at hr
    subst hr
    obtain ⟨node', addr', dir', file, hmade⟩ := createEntry_created (by decide) h
    obtain ⟨rfl, rfl, rfl⟩ := hat.unique hmade.parent
    constructor
    · rintro ⟨-, dir'', child, hdir'', hchild, hfree, -⟩
      obtain rfl := Option.some.inj (hdir''.symm.trans hat.live)
      obtain rfl := Option.some.inj (hchild.symm.trans hmade.childFile)
      exact ⟨_, hat.live, hfree⟩
    · rintro ⟨dir'', hdir'', hfree⟩
      obtain rfl := Option.some.inj (hdir''.symm.trans hat.live)
      exact ⟨by decide, _, _, hat.live, hmade.childFile, hfree, hmade.diskSlot_self⟩
  · rw [if_neg hroom] at hr
    constructor
    · rintro ⟨hne, -⟩
      exact absurd hr hne
    · rintro ⟨dir'', hdir'', hfree⟩
      obtain rfl := Option.some.inj (hdir''.symm.trans hat.live)
      exact absurd hfree.1 hroom

/-! ## The mark of a new entry -/

/-- The name starts with a byte that marks a live entry. -/
def LiveName (name : CString) : Prop :=
  ∃ c rest, name = c :: rest ∧ c ≠ 0 ∧ c ≠ charSpace ∧ c ≠ fatFilenameDeletedChar

instance (name : CString) : Decidable (LiveName name) :=
  decidable_of_iff (∃ c ∈ name.head?, c ≠ 0 ∧ c ≠ charSpace ∧ c ≠ fatFilenameDeletedChar) <| by
    cases name <;> simp [LiveName]

theorem copyBase_below {src : ℕ → UInt8} {nameLen fuel i k : ℕ} {dotPos : Option ℕ}
    {d : FatDirEntry} (hk : k < i) (hfuel : i + fuel ≤ 32) :
    (copyBase src nameLen dotPos fuel i d).2.byte k = d.byte k := by
  induction fuel generalizing i d with
  | zero => rfl
  | succ fuel ih =>
      have hset : (d.setByte i (src i)).byte k = d.byte k := by
        rw [FatDirEntry.byte_setByte d (by omega), if_neg (by omega)]
      unfold copyBase
      dsimp only
      split
      · exact (ih (by omega) (by omega)).trans hset
      · exact hset

theorem copyExtension_below {e : CString} {j j' k : ℕ} {d d' : FatDirEntry}
    (hk : k < 8 + j) (h : copyExtension e j d = some (j', d')) : d'.byte k = d.byte k := by
  induction e generalizing j d with
  | nil =>
      obtain ⟨-, rfl⟩ := Prod.mk.inj (Option.some.inj h)
      rfl
  | cons c rest ih =>
      unfold copyExtension at h
      split at h
      · split at h
        · rename_i hin
          rw [ih (by omega) h, FatDirEntry.byte_setByte d hin, if_neg (by omega)]
        · contradiction
      · obtain ⟨-, rfl⟩ := Prod.mk.inj (Option.some.inj h)
        rfl

/-- The first byte of the name is the first byte of the entry. -/
theorem filenameFromPath_first {name : CString} {src : ℕ → UInt8} {d d' : FatDirEntry}
    (hlen : filenameLen src 8 ≠ 0) (h : filenameFromPath name src d = some d') :
    d'.byte 0 = src 0 := by
  have hmax := filenameLen_le src 8
  obtain ⟨n, hn⟩ := Nat.exists_eq_succ_of_ne_zero hlen
  have hbase : ∀ dotPos, (copyBase src (n + 1) dotPos (n + 1) 0 d).2.byte 0 = src 0 := by
    intro dotPos
    have hset : (d.setByte 0 (src 0)).byte 0 = src 0 := by
      rw [FatDirEntry.byte_setByte d (by omega), if_pos rfl]
    unfold copyBase
    dsimp only
    split
    · exact (copyBase_below (by omega) (by omega)).trans hset
    · exact hset
  have hend : ∀ (e : FatDirEntry) (j : ℕ), e.byte 0 = src 0 →
      (if j < 3 then some (e.setByte (8 + (j + 1)) 0) else some e) = some d' →
      d'.byte 0 = src 0 := by
    intro e j hcopied h
    split at h
    · obtain rfl := Option.some.inj h
      rw [FatDirEntry.byte_setByte e (by omega), if_neg (by omega), hcopied]
    · obtain rfl := Option.some.inj h
      exact hcopied
  simp only [filenameFromPath, if_neg hlen, Option.bind_eq_bind] at h
  rw [hn] at h
  split at h
  · obtain ⟨⟨j, e⟩, hext, h⟩ := Option.bind_eq_some_iff.mp h
    apply hend e j _ h
    exact (copyExtension_below (by omega) hext).trans (hbase _)
  · rw [Option.bind_some] at h
    exact hend _ _ (hbase _) h

theorem fatFileInit_live {isDir : Bool} {v v' : Volume} {file : FatFile} (herrno : v.errno = 0)
    (hname : LiveName (basename path))
    (h : fatFileInit t v isDir path = some (some file, v')) : SlotLive file.dentry := by
  obtain ⟨c, rest, hbase, hzero, hspace, hdeleted⟩ := hname
  unfold fatFileInit at h
  rw [if_neg (by omega)] at h
  simp only [Option.bind_eq_bind, Option.bind_eq_some_iff] at h
  obtain ⟨cluster, -, used, -, h⟩ := h
  split at h
  · simp at h
  · simp only [Option.bind_eq_some_iff, Prod.exists] at h
    obtain ⟨d, v₁, hdentry, v₂, -, h⟩ := h
    have hfirst : (strdup v (basename path)).1 0 = c := by
      have hstored := stores_strdup (v := v) (s := basename path)
      rw [hstored.bytes 0 (by simp [hbase])]
      simp [hbase]
    have hlen : filenameLen (strdup v (basename path)).1 8 ≠ 0 := by
      have hlt := lt_filenameLen (strdup v (basename path)).1 (show 0 < 8 by decide)
        (by rwa [hfirst]) (by rwa [hfirst])
      omega
    cases hnamed : filenameFromPath (basename path) (strdup v (basename path)).1
        FatDirEntry.zero with
    | none => simp [fatFileInitDirentry, hnamed] at hdentry
    | some named =>
        obtain ⟨d', v₃, hdentry', hsame, -⟩ := fatFileInitDirentry_name isDir cluster hnamed
        obtain ⟨rfl, -⟩ := Prod.mk.inj (Option.some.inj (hdentry.symm.trans hdentry'))
        have hbyte : d.byte 0 = c := by
          rw [hsame 0 (by omega), filenameFromPath_first hlen hnamed, hfirst]
        split at h
        · simp at h
        · obtain rfl := Option.some.inj (Prod.mk.inj (Option.some.inj h)).1
          exact ⟨by rwa [← hbyte] at hzero, by rwa [← hbyte] at hdeleted⟩

/-! ## One removal -/

theorem fatFileDestroyAll_get {as : List ℕ} {files files' : Heap FatFile}
    (h : fatFileDestroyAll as files = some files') :
    files'.next = files.next ∧ ∀ a f, files'.get a = some f → files.get a = some f := by
  induction as generalizing files with
  | nil =>
      obtain rfl := Option.some.inj h
      exact ⟨rfl, fun _ _ hget => hget⟩
  | cons b as ih =>
      simp only [fatFileDestroyAll, Option.bind_eq_bind, Option.bind_eq_some_iff] at h
      obtain ⟨files₁, hfree, h⟩ := h
      obtain ⟨-, hnext, hgone, hothers⟩ := Heap.free_eq_some hfree
      obtain ⟨hnext', hget⟩ := ih h
      refine ⟨hnext'.trans hnext, fun a f hlive => ?_⟩
      have hlive₁ := hget a f hlive
      by_cases ha : a = b
      · rw [ha, hgone] at hlive₁
        contradiction
      · rwa [hothers a ha] at hlive₁

/-- A deletion in the tree destroys file objects and changes none. -/
theorem fatTreeDelete_files (h : fatTreeDelete s path = some s') :
    s.vol.Later s'.vol ∧ s'.files.next = s.files.next ∧
      ∀ a f, s'.files.get a = some f → s.files.get a = some f := by
  unfold fatTreeDelete at h
  split at h
  · obtain rfl := Option.some.inj h
    exact ⟨setErrno_later s _, rfl, fun _ _ hget => hget⟩
  · obtain rfl := Option.some.inj h
    exact ⟨Volume.Later.refl _, rfl, fun _ _ hget => hget⟩
  · simp only [Option.bind_eq_bind, Option.bind_eq_some_iff, Option.some.injEq,
      Prod.exists] at h
    obtain ⟨m, root, -, files, hdestroy, rfl⟩ := h
    exact ⟨setErrno_later s _, fatFileDestroyAll_get hdestroy⟩

theorem fatFuseUnlink_removes {node : ℕ} {n : HNode ℕ} {f dir : FatFile} {r : ℤ}
    (hfile : FileOf s path addr node n f dir) (h : fatFuseUnlink t s path = some (r, s')) :
    ∃ f' v', fatFileDelete t (s.setErrno 0).vol f (some dir) = some (f', v') ∧
      v'.Later s'.vol ∧ s'.vol.disk = v'.disk ∧ s'.files.next = s.files.next ∧
      ∀ a g, a ≠ n.data → s'.files.get a = some g → s.files.get a = some g := by
  obtain ⟨p, m, hp, hm, rfl⟩ := hfile.parent
  have hsearch : fatTreeNodeSearch (s.setErrno 0) path = some (some node) := hfile.found
  have hnode : (s.setErrno 0).nodes.get node = some n := hfile.file.node
  have hlive : (s.setErrno 0).files.get n.data = some f := hfile.file.live
  have hgetParent := fatTreeGetParent_eq (s := s.setErrno 0) hnode hp hm.node
  have hderef : (s.setErrno 0).deref (some m.data) = some (some dir) := by
    have hdir : (s.setErrno 0).files.get m.data = some dir := hm.live
    simp only [FsState.deref, hdir, Option.bind_eq_bind, Option.bind_some]
  simp only [fatFuseUnlink, hsearch, fatTreeGetFile, hnode, hlive, hfile.notDirectory,
    hgetParent, deleteFile, updateFile, hderef, Option.bind_eq_bind, Option.bind_some,
    Bool.false_eq_true, if_false, Option.bind_eq_some_iff, Option.some.injEq,
    Prod.mk.injEq, Prod.exists] at h
  obtain ⟨s₁, ⟨f', v', hdelete, files, hwrite, rfl⟩, s₂, htree, -, rfl⟩ := h
  obtain ⟨-, hnext, -, hothers⟩ := Heap.write_eq_some hwrite
  obtain ⟨hlater, hnext', hget⟩ := fatTreeDelete_files htree
  refine ⟨f', v', hdelete, hlater, fatTreeDelete_disk htree, hnext'.trans hnext, ?_⟩
  intro a g ha hlive'
  have hlive₁ := hget a g hlive'
  rwa [hothers a ha] at hlive₁

theorem fatFileDelete_later [t.Formatted] {v v' : Volume} {f f' : FatFile} {p : FatFile}
    (h : fatFileDelete t v f (some p) = some (f', v')) : v.Later v' := by
  rcases fatFileDelete_eq_some h with ⟨hkeeps, -⟩ | ⟨v₂, hkeeps, -, hentry⟩
  · exact hkeeps.later
  · exact hkeeps.later.trans (writeDirEntry_cases hentry).1

theorem deletedDentry_not_live (v : Volume) (d : FatDirEntry) :
    ¬ SlotLive (deletedDentry v d) := by
  rintro ⟨-, hdeleted⟩
  rw [deletedDentry, FatDirEntry.byte_setByte _ (by omega), if_pos rfl] at hdeleted
  exact hdeleted rfl

/-- A deletion clears the slot of the file and keeps the other slots of its directory. -/
theorem fatFileDelete_slots [t.Formatted] {v v' : Volume} {f f' dir : FatFile} (hio : v.IoSucceeds)
    (herrno : v.errno = 0) (hfits : f.posInParent < slotsPerCluster t)
    (h : fatFileDelete t v f (some dir) = some (f', v')) :
    ¬ SlotLive (diskSlot t v'.disk dir.startCluster f.posInParent) ∧
      ∀ j < slotsPerCluster t, j ≠ f.posInParent →
        diskSlot t v'.disk dir.startCluster j = diskSlot t v.disk dir.startCluster j := by
  rcases fatFileDelete_eq_some h with ⟨-, hne, hsame⟩ | ⟨v₂, hkeeps, -, hentry⟩
  · rw [hsame hio] at hne
    exact absurd herrno hne
  · rw [writeDirEntry_of_ioSucceeds (hkeeps.later.ioSucceeds hio) (by exact hfits)] at hentry
    obtain rfl := Option.some.inj hentry
    constructor
    · rw [diskSlot_writeSlot_self]
      exact deletedDentry_not_live v f.dentry
    · intro j hj hne
      have hkept := hkeeps.kept dir.startCluster dir.startCluster_lt (by simp)
      rw [diskSlot_writeSlot_of_ne _ _ dir.startCluster_lt dir.startCluster_lt hfits hj
        (fun heq => hne heq.2)]
      exact hkept.diskSlot hj

theorem FileOf.unique {node node' : ℕ} {n n' : HNode ℕ} {f f' dir dir' : FatFile}
    (h : FileOf s path addr node n f dir) (h' : FileOf s path addr node' n' f' dir') :
    node' = node ∧ n' = n ∧ f' = f ∧ dir' = dir := by
  have hnode : node' = node := by
    have hsearch := h'.found.symm.trans h.found
    simpa using hsearch
  subst hnode
  obtain rfl := Option.some.inj (h'.file.node.symm.trans h.file.node)
  obtain ⟨p, m, -, hm, haddr⟩ := h.parent
  obtain ⟨p', m', -, hm', haddr'⟩ := h'.parent
  have hdir := hm.live
  have hdir' := hm'.live
  rw [haddr] at hdir
  rw [haddr', hdir] at hdir'
  exact ⟨rfl, rfl, Option.some.inj (h'.file.live.symm.trans h.file.live),
    (Option.some.inj hdir').symm⟩

theorem FileOf.live {node : ℕ} {n : HNode ℕ} {f dir : FatFile}
    (h : FileOf s path addr node n f dir) : s.files.get addr = some dir := by
  obtain ⟨p, m, -, hm, rfl⟩ := h.parent
  exact hm.live

/-- The directory is not the file. -/
theorem FileOf.addr_ne {node : ℕ} {n : HNode ℕ} {f dir : FatFile}
    (h : FileOf s path addr node n f dir) : addr ≠ n.data := by
  rintro rfl
  have hsame : dir = f := Option.some.inj (h.live.symm.trans h.file.live)
  have hdir := h.isDirectory
  rw [hsame, h.notDirectory] at hdir
  contradiction

theorem fatFuseUnlink_refused {r : ℤ}
    (hfile : ∀ node, fatTreeNodeSearch s path = some (some node) →
      ∃ n f, NodeFile s node n f ∧ fatFileIsDirectory f = true)
    (h : fatFuseUnlink t s path = some (r, s')) : ∃ e, s' = s.setErrno e := by
  have hsame : fatTreeNodeSearch (s.setErrno 0) path = fatTreeNodeSearch s path := rfl
  cases hsearch : fatTreeNodeSearch s path with
  | none => simp [fatFuseUnlink, hsame, hsearch] at h
  | some found =>
      cases found with
      | none =>
          simp only [fatFuseUnlink, hsame, hsearch, Option.bind_eq_bind, Option.bind_some,
            Option.some.injEq, Prod.mk.injEq] at h
          exact ⟨Errno.enoent, h.2.symm⟩
      | some node =>
          obtain ⟨n, f, hnode, hdir⟩ := hfile node hsearch
          have hget : (s.setErrno 0).nodes.get node = some n := hnode.node
          have hlive : (s.setErrno 0).files.get n.data = some f := hnode.live
          simp only [fatFuseUnlink, hsame, hsearch, fatTreeGetFile, hget, hlive, hdir, if_true,
            Option.bind_eq_bind, Option.bind_some, Option.some.injEq, Prod.mk.injEq] at h
          exact ⟨0, h.2.symm⟩

/-! ## Steps -/

variable {e : EntryEvent}

theorem EntryStep.ioSucceeds [t.Formatted] (hio : s.vol.IoSucceeds) (h : EntryStep t addr s e s') :
    s'.vol.IoSucceeds := by
  cases h with
  | mknod hat hdir _ h => exact (fatFuseMknod_result hio hat hdir h).1.ioSucceeds hio
  | unlink hfile h =>
      obtain ⟨f', v', hdelete, hlater, -⟩ := fatFuseUnlink_removes hfile h
      have hlater' := (setErrno_later s 0).trans (fatFileDelete_later hdelete)
      exact (hlater'.trans hlater).ioSucceeds hio
  | noFile hfile h =>
      obtain ⟨e, rfl⟩ := fatFuseUnlink_refused hfile h
      exact setErrno_ioSucceeds hio

theorem EntryStep.reusesSlot_iff [t.Formatted] (hio : s.vol.IoSucceeds)
    (h : EntryStep t addr s e s') :
    ReusesSlot t addr s e s' ↔ CounterAtFree t addr s e := by
  cases h with
  | mknod hat hdir _ h => exact FatFuse.reusesSlot_iff hio hat hdir h
  | unlink => exact Iff.rfl
  | noFile => exact Iff.rfl

/-! ## Directories without a gap -/

/-- The entries fill the slots in front of the counter. -/
structure Packed (t : FatTable) (addr : ℕ) (s : FsState) : Prop where
  allocated : addr < s.files.next
  filled : ∀ dir, s.files.get addr = some dir → dir.nentries ≤ slotsPerCluster t ∧
    ∀ j < slotsPerCluster t,
      SlotLive (diskSlot t s.vol.disk dir.startCluster j) ↔ j < dir.nentries

/-- A slot in front of the counter is free. -/
structure Gap (t : FatTable) (addr : ℕ) (s : FsState) : Prop where
  allocated : addr < s.files.next
  free : ∀ dir, s.files.get addr = some dir → ∃ j < dir.nentries, j < slotsPerCluster t ∧
    ¬ SlotLive (diskSlot t s.vol.disk dir.startCluster j)

/-- New names do not start with a mark, and removed files have the slot that they remember. -/
def MarksKept (t : FatTable) (addr : ℕ) (s : FsState) : EntryEvent → Prop
  | .created path _ => LiveName (basename path)
  | .removed path => ∃ node n f dir, FileOf s path addr node n f dir ∧
      f.posInParent < slotsPerCluster t ∧
      SlotLive (diskSlot t s.vol.disk dir.startCluster f.posInParent)
  | .refused _ => True

theorem slotsPerCluster_lt : slotsPerCluster t < 2 ^ 32 := by
  have hle := bytesPerCluster_le (t := t)
  have hdiv : slotsPerCluster t ≤ fatTableBytesPerCluster t := Nat.div_le_self _ _
  omega

theorem Packed.firstFree {dir : FatFile} (h : Packed t addr s)
    (hlive : s.files.get addr = some dir)
    (hroom : takenSlots t s.vol.disk dir.startCluster < slotsPerCluster t) :
    FirstFree t s.vol.disk dir.startCluster dir.nentries := by
  obtain ⟨-, hslots⟩ := h.filled dir hlive
  obtain ⟨k, hk, hdead, hbefore⟩ := takenSlots_lt_iff.mp hroom
  have hle : dir.nentries ≤ k := Nat.not_lt.mp fun hlt => hdead ((hslots k hk).mpr hlt)
  have hge : k ≤ dir.nentries := by
    by_contra hlt
    have hin := (hslots dir.nentries (by omega)).mp (hbefore _ (by omega))
    omega
  obtain rfl : k = dir.nentries := le_antisymm hge hle
  exact ⟨hk, hdead, hbefore⟩

theorem Gap.not_firstFree {dir : FatFile} (h : Gap t addr s)
    (hlive : s.files.get addr = some dir) :
    ¬ FirstFree t s.vol.disk dir.startCluster dir.nentries := by
  rintro ⟨-, -, hbefore⟩
  obtain ⟨j, hj, -, hdead⟩ := h.free dir hlive
  exact hdead (hbefore j hj)

theorem fatFuseMknod_live [t.Formatted] {node : ℕ} {dir file : FatFile}
    (hmade : EntryCreated t false s s' path node addr dir file)
    (hname : LiveName (basename path)) (h : fatFuseMknod t s path = some (0, s')) :
    SlotLive file.dentry := by
  obtain ⟨dir', file', v₁, hinit, hchild⟩ := createEntry_init (by decide) h
  have hsame := congrArg FatFile.dentry (Option.some.inj (hmade.childFile.symm.trans hchild))
  have hdentry : file.dentry = file'.dentry := hsame
  rw [hdentry]
  exact fatFileInit_live (by rfl) hname hinit

/-- A creation in a directory without a gap fills the slot behind the others. -/
theorem Packed.mknod [t.Formatted] {node : ℕ} {dir : FatFile} {r : ℤ} (hpacked : Packed t addr s)
    (hio : s.vol.IoSucceeds) (hat : ParentAt s path node addr dir)
    (hdir : fatFileIsDirectory dir = true) (hname : LiveName (basename path))
    (hfree : FirstFree t s.vol.disk dir.startCluster dir.nentries)
    (h : fatFuseMknod t s path = some (r, s')) : Packed t addr s' := by
  obtain ⟨-, hnext, hr⟩ := fatFuseMknod_result hio hat hdir h
  rw [if_pos hfree.1] at hr
  subst hr
  obtain ⟨node', addr', dir', file, hmade⟩ := createEntry_created (by decide) h
  obtain ⟨rfl, rfl, rfl⟩ := hat.unique hmade.parent
  have hlive := fatFuseMknod_live hmade hname h
  obtain ⟨-, hslots⟩ := hpacked.filled _ hat.live
  have halloc := hpacked.allocated
  refine ⟨by omega, fun after hafter => ?_⟩
  obtain rfl := Option.some.inj (hmade.parentFile.symm.trans hafter)
  have hbound := slotsPerCluster_lt (t := t)
  have hroom := hfree.1
  have hcount : (parentAfter dir 0).nentries = dir.nentries + 1 := by
    simp only [parentAfter, if_true]
    exact Nat.mod_eq_of_lt (by omega)
  have hstart : (parentAfter dir 0).startCluster = dir.startCluster := rfl
  rw [hcount, hstart]
  refine ⟨hroom, fun j hj => ?_⟩
  by_cases hself : j = dir.nentries
  · subst hself
    rw [hmade.diskSlot_self]
    exact iff_of_true hlive (Nat.lt_succ_self _)
  · rw [hmade.diskSlot_of_ne dir.startCluster_lt hj (fun heq => hself heq.2), hslots j hj]
    omega

/-- A removal leaves a gap. -/
theorem Packed.unlink [t.Formatted] {node : ℕ} {n : HNode ℕ} {f dir : FatFile} {r : ℤ}
    (hpacked : Packed t addr s) (hio : s.vol.IoSucceeds)
    (hfile : FileOf s path addr node n f dir) (hfits : f.posInParent < slotsPerCluster t)
    (hlive : SlotLive (diskSlot t s.vol.disk dir.startCluster f.posInParent))
    (h : fatFuseUnlink t s path = some (r, s')) : Gap t addr s' := by
  obtain ⟨f', v', hdelete, -, hdisk, hnext, hget⟩ := fatFuseUnlink_removes hfile h
  obtain ⟨hcleared, -⟩ := fatFileDelete_slots (setErrno_ioSucceeds hio) rfl hfits hdelete
  refine ⟨by rw [hnext]; exact hpacked.allocated, fun after hafter => ?_⟩
  obtain rfl := Option.some.inj (hfile.live.symm.trans (hget _ _ hfile.addr_ne hafter))
  have hbelow := (((hpacked.filled _ hfile.live).2 _ hfits).mp hlive)
  rw [hdisk]
  exact ⟨f.posInParent, hbelow, hfits, hcleared⟩

theorem Gap.unlink [t.Formatted] {node : ℕ} {n : HNode ℕ} {f dir : FatFile} {r : ℤ}
    (hgap : Gap t addr s) (hio : s.vol.IoSucceeds)
    (hfile : FileOf s path addr node n f dir) (hfits : f.posInParent < slotsPerCluster t)
    (h : fatFuseUnlink t s path = some (r, s')) : Gap t addr s' := by
  obtain ⟨f', v', hdelete, -, hdisk, hnext, hget⟩ := fatFuseUnlink_removes hfile h
  obtain ⟨hcleared, hothers⟩ := fatFileDelete_slots (setErrno_ioSucceeds hio) rfl hfits hdelete
  refine ⟨by rw [hnext]; exact hgap.allocated, fun after hafter => ?_⟩
  obtain rfl := Option.some.inj (hfile.live.symm.trans (hget _ _ hfile.addr_ne hafter))
  obtain ⟨j, hj, hin, hdead⟩ := hgap.free _ hfile.live
  refine ⟨j, hj, hin, ?_⟩
  rw [hdisk]
  by_cases hself : j = f.posInParent
  · rw [hself]
    exact hcleared
  · rw [hothers j hin hself]
    exact hdead

/-! ## Runs -/

def EntryEvent.Creates : EntryEvent → Prop
  | .created _ _ => True
  | _ => False

def EntryEvent.Removes : EntryEvent → Prop
  | .removed _ => True
  | _ => False

instance : DecidablePred EntryEvent.Creates
  | .created _ _ => isTrue trivial
  | .removed _ | .refused _ => isFalse id

instance : DecidablePred EntryEvent.Removes
  | .removed _ => isTrue trivial
  | .created _ _ | .refused _ => isFalse id

/-- No creation of the run comes behind a removal. -/
def CreationsFirst (l : List (EntryEvent × FsState)) : Prop :=
  l.Pairwise fun x y => x.1.Removes → ¬ y.1.Creates

instance (l : List (EntryEvent × FsState)) : Decidable (CreationsFirst l) :=
  inferInstanceAs (Decidable (l.Pairwise fun x y => x.1.Removes → ¬ y.1.Creates))

/-- The counter counts the entries until the first removal, and is behind a gap from then on. -/
def CounterState (t : FatTable) (addr : ℕ) (l : List (EntryEvent × FsState)) (s : FsState) :
    Prop :=
  ((∀ x ∈ l, ¬ x.1.Removes) ∧ Packed t addr s) ∨ ((∃ x ∈ l, x.1.Removes) ∧ Gap t addr s)

variable {l : List (EntryEvent × FsState)}

theorem CounterState.step [t.Formatted] (hstate : CounterState t addr l s) (hio : s.vol.IoSucceeds)
    (h : EntryStep t addr s e s') (hmarks : MarksKept t addr s e) :
    (CounterAtFree t addr s e ↔ ∀ x ∈ l, x.1.Removes → ¬ e.Creates) ∧
      (CounterAtFree t addr s e → CounterState t addr (l ++ [(e, s')]) s') := by
  cases h with
  | @mknod _ path node dir r hat hdir hroom h =>
      rcases hstate with ⟨hno, hpacked⟩ | ⟨⟨x, hx, hremoved⟩, hgap⟩
      · have hfree := hpacked.firstFree hat.live hroom
        refine ⟨iff_of_true ⟨dir, hat.live, hfree⟩ fun x hx hremoved => absurd hremoved (hno x hx),
          fun _ => Or.inl ⟨?_, hpacked.mknod hio hat hdir hmarks hfree h⟩⟩
        rw [List.forall_mem_append, List.forall_mem_singleton]
        exact ⟨hno, not_false⟩
      · have hnot : ¬ CounterAtFree t addr s (.created path r) := by
          rintro ⟨dir', hlive, hfree⟩
          exact hgap.not_firstFree hlive hfree
        exact ⟨iff_of_false hnot fun hall => hall x hx hremoved trivial, fun hc => absurd hc hnot⟩
  | unlink hfile h =>
      obtain ⟨node, n, f, dir, hfile', hfits, hlive⟩ := hmarks
      refine ⟨iff_of_true trivial fun _ _ _ => not_false, fun _ => Or.inr ⟨?_, ?_⟩⟩
      · exact ⟨_, List.mem_append_right _ List.mem_cons_self, trivial⟩
      · rcases hstate with ⟨-, hpacked⟩ | ⟨-, hgap⟩
        · exact hpacked.unlink hio hfile' hfits hlive h
        · exact hgap.unlink hio hfile' hfits h
  | noFile hfile h =>
      obtain ⟨e, rfl⟩ := fatFuseUnlink_refused hfile h
      refine ⟨iff_of_true trivial fun _ _ _ => not_false, fun _ => ?_⟩
      rcases hstate with ⟨hno, hpacked⟩ | ⟨⟨x, hx, hremoved⟩, hgap⟩
      · left
        rw [List.forall_mem_append, List.forall_mem_singleton]
        exact ⟨⟨hno, not_false⟩, hpacked.allocated, hpacked.filled⟩
      · right
        exact ⟨⟨x, List.mem_append_left _ hx, hremoved⟩, hgap.allocated, hgap.free⟩

/-- From a directory without a gap the counter stays at the first free slot as long as no
creation comes behind a removal. -/
theorem counterAtFree_packed_iff [t.Formatted] (hio : s.vol.IoSucceeds) (hpacked : Packed t addr s)
    (hrun : Runs (fun s e s' => EntryStep t addr s e s' ∧ MarksKept t addr s e) s l s') :
    (Runs (fun s e s' => EntryStep t addr s e s' ∧ CounterAtFree t addr s e) s l s' ↔
        CreationsFirst l) ∧ (CreationsFirst l → CounterState t addr l s') := by
  induction hrun with
  | nil =>
      refine ⟨iff_of_true Runs.nil List.Pairwise.nil, fun _ => Or.inl ⟨?_, hpacked⟩⟩
      simp
  | @snoc l u s' e h hstep ih =>
      have hrun := h.mono fun _ _ _ h => h.1
      have hio' : u.vol.IoSucceeds :=
        hrun.invariant hio fun _ _ _ hio h => h.ioSucceeds hio
      have hpairs : CreationsFirst (l ++ [(e, s')]) ↔
          CreationsFirst l ∧ ∀ x ∈ l, x.1.Removes → ¬ e.Creates := by
        simp [CreationsFirst, List.pairwise_append]
      rw [Runs.restricted_snoc_iff hrun hstep.1, ih.1, hpairs]
      refine ⟨and_congr_right fun hfirst => ?_, fun ⟨hfirst, hlast⟩ => ?_⟩
      · exact ((ih.2 hfirst).step hio' hstep.1 hstep.2).1
      · have hnext := (ih.2 hfirst).step hio' hstep.1 hstep.2
        exact hnext.2 (hnext.1.mpr hlast)

/-! ## Runs from an empty root -/

/-- A creation (`true`) or a removal in the directory, if it is one and keeps the marks. -/
def entryAct (t : FatTable) (addr : ℕ) (s : FsState) (a : Bool × CString) :
    Option (EntryEvent × FsState) :=
  if a.1 then
    (fatTreeNodeSearch s (dirname a.2)).bind fun found => found.bind fun node =>
      (fatTreeGetFile s node).bind fun file => (s.files.get file).bind fun dir =>
        if file = addr ∧ fatFileIsDirectory dir = true ∧
            takenSlots t s.vol.disk dir.startCluster < slotsPerCluster t ∧
              LiveName (basename a.2) then
          (fatFuseMknod t s a.2).map fun x => (.created a.2 x.1, x.2)
        else none
  else
    (fatTreeNodeSearch s a.2).bind fun found => found.bind fun node =>
      (s.nodes.get node).bind fun n => (s.files.get n.data).bind fun f =>
        n.hParent.bind fun p => (s.nodes.get p).bind fun m => (s.files.get m.data).bind fun dir =>
          if fatFileIsDirectory f = false ∧ m.data = addr ∧ fatFileIsDirectory dir = true ∧
              f.posInParent < slotsPerCluster t ∧
                SlotLive (diskSlot t s.vol.disk dir.startCluster f.posInParent) then
            (fatFuseUnlink t s a.2).map fun x => (.removed a.2, x.2)
          else none

theorem entryAct_step {a : Bool × CString} (h : entryAct t addr s a = some (e, s')) :
    EntryStep t addr s e s' ∧ MarksKept t addr s e := by
  obtain ⟨creates, path⟩ := a
  cases creates with
  | true =>
      simp only [entryAct, if_true, Option.bind_eq_some_iff] at h
      obtain ⟨_, hsearch, node, rfl, file, hfile, dir, hlive, h⟩ := h
      split at h
      · rename_i hdir
        obtain ⟨rfl, hdir, hroom, hname⟩ := hdir
        obtain ⟨⟨r, s₁⟩, hmknod, hsame⟩ := Option.map_eq_some_iff.mp h
        obtain ⟨rfl, rfl⟩ := Prod.mk.inj hsame
        exact ⟨.mknod ⟨hsearch, hfile, hlive⟩ hdir hroom hmknod, hname⟩
      · contradiction
  | false =>
      simp only [entryAct, Bool.false_eq_true, if_false, Option.bind_eq_some_iff] at h
      obtain ⟨_, hsearch, node, rfl, n, hn, f, hf, p, hp, m, hm, dir, hdir, h⟩ := h
      split at h
      · rename_i hkind
        obtain ⟨hnot, haddr, hisDir, hin, hused⟩ := hkind
        obtain ⟨⟨r, s₁⟩, hunlink, hsame⟩ := Option.map_eq_some_iff.mp h
        obtain ⟨rfl, rfl⟩ := Prod.mk.inj hsame
        have hfile : FileOf s path addr node n f dir :=
          ⟨hsearch, ⟨hn, hf⟩, hnot, ⟨p, m, hp, ⟨hm, hdir⟩, haddr⟩, hisDir⟩
        exact ⟨.unlink hfile hunlink, node, n, f, dir, hfile, hin, hused⟩
      · contradiction

theorem exists_entryRun (t : FatTable) {actions : List (Bool × CString)}
    {property : List (EntryEvent × FsState) × FsState → Bool}
    (h : (initFileTree (rootVolume 0) 2).any (fun s => s.vol.writable && s.vol.io.isEmpty &&
      (trace (entryAct t 0) actions s).any property) = true) :
    ∃ mounted l s', initFileTree (rootVolume 0) 2 = some mounted ∧ mounted.vol.IoSucceeds ∧
      Runs (fun s e s' => EntryStep t 0 s e s' ∧ MarksKept t 0 s e) mounted l s' ∧
      property (l, s') = true := by
  cases hmount : initFileTree (rootVolume 0) 2 with
  | none => simp [hmount] at h
  | some mounted =>
      simp only [hmount, Option.any_some, Bool.and_eq_true, List.isEmpty_iff] at h
      obtain ⟨⟨hwritable, hcalls⟩, htrace⟩ := h
      have hact : ∀ s a e u, entryAct t 0 s a = some (e, u) →
          EntryStep t 0 s e u ∧ MarksKept t 0 s e := fun _ _ _ _ h => entryAct_step h
      obtain ⟨l, s', hrun, hproperty⟩ := Runs.exists_of_trace hact htrace
      exact ⟨mounted, l, s', rfl, ⟨hwritable, hcalls⟩, hrun, hproperty⟩

/-! ## Runs that reuse slots -/

/-- In every run of creations and removals in a directory, the creations reuse its first free
slot exactly when its counter stands there before each of them.  From a directory without
a gap this means that no creation comes behind a removal.  The table is formatted. -/
theorem slotsReused_iff [t.Formatted] (hio : s.vol.IoSucceeds) :
    (Runs (fun s e s' => EntryStep t addr s e s' ∧ ReusesSlot t addr s e s') s l s' ↔
        Runs (fun s e s' => EntryStep t addr s e s' ∧ CounterAtFree t addr s e) s l s') ∧
      (Packed t addr s →
        Runs (fun s e s' => EntryStep t addr s e s' ∧ MarksKept t addr s e) s l s' →
        (Runs (fun s e s' => EntryStep t addr s e s' ∧ ReusesSlot t addr s e s') s l s' ↔
          CreationsFirst l)) := by
  have hiff : Runs (fun s e s' => EntryStep t addr s e s' ∧ ReusesSlot t addr s e s') s l s' ↔
      Runs (fun s e s' => EntryStep t addr s e s' ∧ CounterAtFree t addr s e) s l s' :=
    Runs.restricted_congr hio (fun _ _ _ hio h => h.ioSucceeds hio)
      fun _ _ _ hio h => h.reusesSlot_iff hio
  refine ⟨hiff, fun hpacked hmarks => ?_⟩
  rw [hiff]
  exact (counterAtFree_packed_iff hio hpacked hmarks).1

/-- `/a` and `/b` are created in an empty root with four slots, and `/a` is removed. -/
theorem slotsReused_iff_root :
    ∃ mounted l s', initFileTree (rootVolume 0) 2 = some mounted ∧ Packed quadTable 0 mounted ∧
      Runs (fun s e s' => EntryStep quadTable 0 s e s' ∧ MarksKept quadTable 0 s e)
        mounted l s' ∧ CreationsFirst l ∧ l.length = 3 ∧
      Runs (fun s e s' => EntryStep quadTable 0 s e s' ∧ ReusesSlot quadTable 0 s e s')
        mounted l s' := by
  obtain ⟨mounted, l, s', hmount, hio, hrun, hend⟩ :=
    @exists_entryRun quadTable [(true, pathA), (true, pathB), (false, pathA)]
      (fun x => decide (CreationsFirst x.1 ∧ x.1.length = 3)) (by decide +kernel)
  obtain ⟨hfirst, hlength⟩ := of_decide_eq_true hend
  have hempty : (initFileTree (rootVolume 0) 2).bind (fun s => (s.files.get 0).map fun dir =>
      decide (0 < s.files.next ∧ dir.nentries = 0 ∧
        ∀ j < slotsPerCluster quadTable,
          ¬ SlotLive (diskSlot quadTable s.vol.disk dir.startCluster j))) = some true := by
    decide +kernel
  simp only [hmount, Option.bind_some, Option.map_eq_some_iff, decide_eq_true_eq] at hempty
  obtain ⟨dir, hdir, hnext, hnone, hslots⟩ := hempty
  have hpacked : Packed quadTable 0 mounted := by
    refine ⟨hnext, fun dir' hdir' => ?_⟩
    obtain rfl := Option.some.inj (hdir.symm.trans hdir')
    rw [hnone]
    exact ⟨Nat.zero_le _, fun j hj => iff_of_false (hslots j hj) (Nat.not_lt_zero j)⟩
  exact ⟨mounted, l, s', hmount, hpacked, hrun, hfirst, hlength,
    ((slotsReused_iff hio).2 hpacked hrun).mpr hfirst⟩

def EntryEvent.full : EntryEvent → Bool
  | .created _ r => r == - Errno.enospc
  | _ => false

/-- The root has one slot.  After `/a` was created and removed, creating `/b` fails. -/
theorem slot_not_reused :
    ∃ mounted l s', initFileTree (rootVolume 0) 2 = some mounted ∧ mounted.vol.IoSucceeds ∧
      Runs (EntryStep smallTable 0) mounted l s' ∧
      ¬ Runs (fun s e s' => EntryStep smallTable 0 s e s' ∧ ReusesSlot smallTable 0 s e s')
        mounted l s' := by
  obtain ⟨mounted, l, s', hmount, hio, hrun, hfull⟩ :=
    @exists_entryRun smallTable [(true, pathA), (false, pathA), (true, pathB)]
      (fun x => x.1.any fun y => y.1.full) (by decide +kernel)
  refine ⟨mounted, l, s', hmount, hio, hrun.mono fun _ _ _ h => h.1, fun hreuses => ?_⟩
  obtain ⟨x, hx, hfull⟩ := List.any_eq_true.mp hfull
  have hstep : ∀ s e s', EntryStep smallTable 0 s e s' ∧ ReusesSlot smallTable 0 s e s' →
      e.full = false := by
    rintro s e s' ⟨-, hreuse⟩
    cases e with
    | created path r => simpa [EntryEvent.full] using hreuse.1
    | removed path => rfl
    | refused path => rfl
  have hnot : x.1.full = false := hreuses.forall_event hstep x hx
  rw [hnot] at hfull
  contradiction

end SistOp.FatFuse
