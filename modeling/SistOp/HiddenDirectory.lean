import SistOp.LogDirectory
import SistOp.DirectoryRemoval
import SistOp.ReadOnlyMount
import Mathlib.Tactic

/-!
# The hidden directory and the slots of the root

`/bb` hangs below the root in the tree, but the root has no slot for it; its
`pos_in_parent` is the 0 it was made with.  What writes metadata back through the parent
therefore writes to a slot of another file.
-/

namespace SistOp.FatFuse

open ByteStore

variable {t : FatTable} {env : FuseEnv}

/-- The tree has `/bb`, with its file `bb`, below the root, whose file is `root`. -/
structure BbLoaded (s : FsState) (node : ℕ) (n : HNode ℕ) (bb root : FatFile) : Prop where
  search : fatTreeNodeSearch s bbDirname = some (some node)
  bbFile : NodeFile s node n bb
  rootFile : ∃ rootNode m, fatTreeNodeSearch s rootPath = some (some rootNode) ∧
    n.hParent = some rootNode ∧ NodeFile s rootNode m root

/-- A request for `/bb`. -/
inductive BbOp where
  | utime (actime modtime : ℤ)
  | rmdir
  | opendir
  | readdir (filler : FillDir)

def BbOp.fuseOp (node : ℕ) : BbOp → FuseOp
  | .utime actime modtime => .utime bbDirname actime modtime
  | .rmdir => .rmdir bbDirname
  | .opendir => .opendir bbDirname
  | .readdir filler => .readdir filler node

/-- The entry of a file after `fat_utime`. -/
def utimeDentry (d : FatDirEntry) (actime modtime : ℤ) : FatDirEntry :=
  ((d.setLastAccessDate (fillTime actime).1.toNat).setLastModifiedDate
    (fillTime modtime).1.toNat).setLastModifiedTime (fillTime modtime).2.toNat

/-- The slot of `file` in the cluster of `parent` lies outside, or holds `d` already. -/
def SlotHolds (t : FatTable) (v : Volume) (parent file : FatFile) (d : FatDirEntry) : Prop :=
  slotsPerCluster t ≤ file.posInParent ∨
    diskSlot t v.disk parent.startCluster file.posInParent = d

/-- The filler takes no more names in front of the reading of a directory. -/
def FillDir.RefusesDots (filler : FillDir) : Prop :=
  filler [] [charDot] = true ∨ filler [[charDot]] [charDot, charDot] = true

/-- When a request for `/bb` leaves the cluster of the root alone.  A listing that reads `/bb`
and makes its log may do so with any later call failing, but with none interrupted. -/
def BbHarmless (t : FatTable) (s : FsState) (n : HNode ℕ) (bb root : FatFile) : BbOp → Prop
  | .utime actime modtime => SlotHolds t s.vol root bb (utimeDentry bb.dentry actime modtime)
  | .rmdir => fatFileIsDirectory bb = false ∨ n.hChildren.isSome ∨
      SlotHolds t s.vol root bb (deletedDentry s.vol bb.dentry)
  | .opendir => True
  | .readdir filler => filler.RefusesDots ∨ fatFileIsDirectory bb = false ∨
      bb.childrenRead = true ∨
      (∃ logNode, fatTreeNodeSearch s bbLogFile = some (some logNode)) ∨
      root.startCluster ≠ bb.startCluster ∧
        (s.vol.io = [] ∨
          s.vol.Uninterrupted ∧ s.vol.fatMap root.startCluster ≠ fatClusterBadSector)

/-! ## Writing the entry back -/

theorem store_same {m : ℕ → UInt8} {off len : ℕ} {data : ℕ → UInt8}
    (h : ∀ i < len, m (off + i) = data i) : store m off len data = m := by
  funext a
  rw [store_apply]
  split
  · rename_i hin
    rw [← h (a - off) (by omega)]
    congr 1
    omega
  · rfl

/-- Writing back what the slot holds changes nothing. -/
theorem writeDirEntry_same {v v' : Volume} {p f : FatFile}
    (hholds : SlotHolds t v p f f.dentry)
    (h : writeDirEntry t v (some p) f = some v') : v'.disk = v.disk := by
  by_cases hfits : f.posInParent < slotsPerCluster t
  · have hslot := hholds.resolve_left (by omega)
    obtain ⟨⟨r, v₁⟩, hwrite⟩ : ∃ written, pwrite v (fun i => f.dentry.byte i.toNat)
        fatDirEntryByteSize (slotAddr t p.startCluster f.posInParent : ℕ) = written :=
      ⟨_, rfl⟩
    obtain ⟨-, -, -, -, hcases⟩ := pwrite_cases hwrite
    have hdisk : v₁.disk = v.disk := by
      rcases hcases with ⟨-, -, hsame⟩ | ⟨k, hk, -, -, hstore⟩
      · exact hsame
      · rw [hstore]
        apply store_same
        intro i hi
        rw [Int.toNat_natCast, ← hslot, diskSlot,
          FatDirEntry.byte_ofStore _ _ (lt_of_lt_of_le hi hk)]
    rw [writeDirEntry_inside hfits hwrite] at h
    split at h <;> obtain rfl := Option.some.inj h <;> exact hdisk
  · rw [writeDirEntry_full (Nat.not_lt.mp hfits)] at h
    obtain rfl := Option.some.inj h
    rfl

/-- A write that succeeds keeps the cluster only if the slot held the entry. -/
theorem slotHolds_of_kept {v v' : Volume} {p f : FatFile} (hio : v.IoSucceeds)
    (h : writeDirEntry t v (some p) f = some v') (hkept : ClusterKept t p.startCluster v v') :
    SlotHolds t v p f f.dentry := by
  by_cases hfits : f.posInParent < slotsPerCluster t
  · right
    rw [writeDirEntry_of_ioSucceeds hio hfits] at h
    obtain rfl := Option.some.inj h
    rw [← hkept.diskSlot hfits, diskSlot_writeSlot_self]
  · exact Or.inl (by omega)

/-! ## The requests -/

section Requests

variable {s s' : FsState} {node : ℕ} {n : HNode ℕ} {bb root : FatFile} {r : ℤ}

theorem BbLoaded.getParent (h : BbLoaded s node n bb root) (e : ℤ) :
    ∃ addr, fatTreeGetParent (s.setErrno e) node = some (some addr, s.setErrno e) ∧
      (s.setErrno e).deref (some addr) = some (some root) := by
  obtain ⟨rootNode, m, -, hparent, hroot⟩ := h.rootFile
  refine ⟨m.data, fatTreeGetParent_eq (s := s.setErrno e) h.bbFile.node hparent hroot.node, ?_⟩
  have hlive : (s.setErrno e).files.get m.data = some root := hroot.live
  simp only [FsState.deref, hlive, Option.bind_eq_bind, Option.bind_some]

/-- Setting the times of `/bb` writes its entry to the root. -/
theorem BbLoaded.utime (h : BbLoaded s node n bb root) {actime modtime : ℤ}
    (hstep : fatFuseUtime t s bbDirname actime modtime = some (r, s')) :
    writeDirEntry t (s.setErrno 0).vol (some root)
      { bb with dentry := utimeDentry bb.dentry actime modtime } = some s'.vol := by
  have hsearch : fatTreeNodeSearch (s.setErrno 0) bbDirname = some (some node) := h.search
  have hnode : (s.setErrno 0).nodes.get node = some n := h.bbFile.node
  obtain ⟨addr, hparent, hroot⟩ := h.getParent 0
  simp only [fatFuseUtime, hsearch, hparent, fatTreeGetFile, hnode, Option.bind_eq_bind,
    Option.bind_some, reduceCtorEq, if_false, Option.bind_eq_some_iff, Option.some.injEq,
    Prod.mk.injEq, utimeFile] at hstep
  obtain ⟨s₁, hupdate, -, rfl⟩ := hstep
  obtain ⟨bb', hop⟩ := updateFile_eq_some (s := s.setErrno 0) h.bbFile.live hroot hupdate
  simp only [fatUtime, Option.bind_eq_bind, Option.bind_eq_some_iff, Option.some.injEq,
    Prod.mk.injEq] at hop
  obtain ⟨v', hentry, -, rfl⟩ := hop
  exact hentry

/-- Removing `/bb` is refused, or deletes its file. -/
theorem BbLoaded.rmdir (h : BbLoaded s node n bb root)
    (hstep : fatFuseRmdir t s bbDirname = some (r, s')) :
    ((fatFileIsDirectory bb = false ∨ n.hChildren.isSome) ∧ s'.vol.disk = s.vol.disk) ∨
      (fatFileIsDirectory bb = true ∧ n.hChildren = none) ∧
        ∃ bb' v', fatFileDelete t (s.setErrno 0).vol bb (some root) = some (bb', v') ∧
          s'.vol.disk = v'.disk := by
  cases fatFuseRmdir_outcome h.search h.bbFile hstep with
  | notDirectory hdir => exact Or.inl ⟨Or.inl hdir, rfl⟩
  | hasChildren hchild => exact Or.inl ⟨Or.inr hchild, rfl⟩
  | deleted hdir hempty hparent hfile htree =>
      obtain ⟨addr, hparent', hroot⟩ := h.getParent 0
      rw [hparent', Option.some.injEq, Prod.mk.injEq] at hparent
      obtain ⟨rfl, rfl⟩ := hparent
      obtain ⟨bb', hop⟩ := updateFile_eq_some (s := s.setErrno 0) h.bbFile.live hroot hfile
      exact Or.inr ⟨⟨hdir, hempty⟩, bb', _, hop, fatTreeDelete_disk htree⟩

/-- The part of `fat_fuse_readdir` behind the reading of the children. -/
def readdirTail (filler : FillDir) (node : ℕ) (failed : Prop) [Decidable failed] (s : FsState) :
    Option (ℤ × List CString × FsState) :=
  if failed then some (- s.errno, [[charDot], [charDot, charDot]], s)
  else (fatTreeFlattenHChildren s node).bind fun children =>
    (fillChildren filler s children [[charDot], [charDot, charDot]]).bind fun filled =>
      if filled.2 = true then some (- s.errno, filled.1, s) else some (0, filled.1, s)

theorem readdirTail_state {filler : FillDir} {names : List CString} {failed : Prop}
    [Decidable failed] (h : readdirTail filler node failed s = some (r, names, s')) : s' = s := by
  unfold readdirTail at h
  split at h
  · exact (Prod.mk.inj (Prod.mk.inj (Option.some.inj h)).2).2.symm
  · simp only [Option.bind_eq_some_iff] at h
    obtain ⟨children, -, filled, -, h⟩ := h
    split at h <;> exact (Prod.mk.inj (Prod.mk.inj (Option.some.inj h)).2).2.symm

/-- A listing that takes the two entries of dots. -/
theorem fatFuseReaddir_eq {filler : FillDir} {f : FatFile} (hf : NodeFile s node n f)
    (hdot : ¬ filler [] [charDot] = true) (hdots : ¬ filler [[charDot]] [charDot, charDot] = true)
    (hdir : ¬ fatFileIsDirectory f = false) :
    fatFuseReaddir t env s filler node =
      (if f.childrenRead = false then fatFuseReadChildren t env (s.setErrno 0) node
        else some (s.setErrno 0)).bind fun s₁ =>
        readdirTail filler node (f.childrenRead = false ∧ s₁.errno < 0) s₁ := by
  have hnode : (s.setErrno 0).nodes.get node = some n := hf.node
  have hlive : (s.setErrno 0).files.get n.data = some f := hf.live
  simp only [fatFuseReaddir, fatTreeGetFile, hnode, hlive, Option.bind_eq_bind,
    Option.bind_some, if_neg hdot, if_neg hdots, if_neg hdir]
  by_cases hunread : f.childrenRead = false
  · rw [if_pos hunread, if_pos hunread]
    rfl
  · rw [if_neg hunread, if_neg hunread]
    rfl

/-- `fat_fuse_readdir` changes `errno` only, or it is the first listing. -/
theorem fatFuseReaddir_eq_some {filler : FillDir} {names : List CString}
    (h : fatFuseReaddir t env s filler node = some (r, names, s')) :
    (∃ e, s' = s.setErrno e) ∨ ∃ n f, NodeFile s node n f ∧ f.childrenRead = false ∧
      fatFuseReadChildren t env (s.setErrno 0) node = some s' := by
  have hend : ∀ {x e : ℤ} {shown : List CString},
      some (x, shown, s.setErrno e) = some (r, names, s') → ∃ e, s' = s.setErrno e :=
    fun heq => ⟨_, (Prod.mk.inj (Prod.mk.inj (Option.some.inj heq)).2).2.symm⟩
  cases hn : s.nodes.get node with
  | none =>
      have hnode : (s.setErrno 0).nodes.get node = none := hn
      simp [fatFuseReaddir, fatTreeGetFile, hnode] at h
  | some n =>
      have hnode : (s.setErrno 0).nodes.get node = some n := hn
      by_cases hdot : filler [] [charDot] = true
      · simp only [fatFuseReaddir, fatTreeGetFile, hnode, if_pos hdot, Option.bind_eq_bind,
          Option.bind_some] at h
        exact Or.inl (hend h)
      by_cases hdots : filler [[charDot]] [charDot, charDot] = true
      · simp only [fatFuseReaddir, fatTreeGetFile, hnode, if_neg hdot, if_pos hdots,
          Option.bind_eq_bind, Option.bind_some] at h
        exact Or.inl (hend h)
      cases hf : s.files.get n.data with
      | none =>
          have hlive : (s.setErrno 0).files.get n.data = none := hf
          simp [fatFuseReaddir, fatTreeGetFile, hnode, hdot, hdots, hlive] at h
      | some f =>
          have hlive : (s.setErrno 0).files.get n.data = some f := hf
          by_cases hdir : fatFileIsDirectory f = false
          · simp only [fatFuseReaddir, fatTreeGetFile, hnode, hlive, if_neg hdot, if_neg hdots,
              if_pos hdir, Option.bind_eq_bind, Option.bind_some] at h
            exact Or.inl (hend h)
          rw [fatFuseReaddir_eq ⟨hn, hf⟩ hdot hdots hdir, Option.bind_eq_some_iff] at h
          obtain ⟨s₁, hread, h⟩ := h
          obtain rfl := readdirTail_state h
          split at hread
          · rename_i hunread
            exact Or.inr ⟨n, f, ⟨hn, hf⟩, hunread, hread⟩
          · exact Or.inl ⟨0, (Option.some.inj hread).symm⟩

/-- A listing that stops in front of the reading. -/
theorem fatFuseReaddir_unread {filler : FillDir} {f : FatFile} {names : List CString}
    (hf : NodeFile s node n f) (hstops : filler.RefusesDots ∨ fatFileIsDirectory f = false)
    (h : fatFuseReaddir t env s filler node = some (r, names, s')) :
    s'.vol.disk = s.vol.disk := by
  have hnode : (s.setErrno 0).nodes.get node = some n := hf.node
  have hlive : (s.setErrno 0).files.get n.data = some f := hf.live
  simp only [fatFuseReaddir, fatTreeGetFile, hnode, hlive, Option.bind_eq_bind,
    Option.bind_some] at h
  have hend : ∀ {x e : ℤ} {shown : List CString},
      some (x, shown, s.setErrno e) = some (r, names, s') → s'.vol.disk = s.vol.disk := by
    intro x e shown heq
    obtain rfl := (Prod.mk.inj (Prod.mk.inj (Option.some.inj heq)).2).2
    rfl
  by_cases hdot : filler [] [charDot] = true
  · rw [if_pos hdot] at h
    exact hend h
  by_cases hdots : filler [[charDot]] [charDot, charDot] = true
  · rw [if_neg hdot, if_pos hdots] at h
    exact hend h
  have hdir : fatFileIsDirectory f = false :=
    hstops.resolve_left fun hrefuses => hrefuses.elim hdot hdots
  rw [if_neg hdot, if_neg hdots, if_pos hdir] at h
  exact hend h

/-! ## The cluster of the root -/

theorem BbLoaded.setErrno (h : BbLoaded s node n bb root) (e : ℤ) :
    BbLoaded (s.setErrno e) node n bb root := ⟨h.search, ⟨h.bbFile.node, h.bbFile.live⟩, by
  obtain ⟨rootNode, m, hsearch, hparent, hroot⟩ := h.rootFile
  exact ⟨rootNode, m, hsearch, hparent, hroot.node, hroot.live⟩⟩

theorem BbLoaded.utime_kept (h : BbLoaded s node n bb root) {actime modtime : ℤ}
    (hstep : fatFuseUtime t s bbDirname actime modtime = some (r, s')) :
    (SlotHolds t s.vol root bb (utimeDentry bb.dentry actime modtime) →
        ClusterKept t root.startCluster s.vol s'.vol) ∧
      (s.vol.IoSucceeds → ClusterKept t root.startCluster s.vol s'.vol →
        SlotHolds t s.vol root bb (utimeDentry bb.dentry actime modtime)) := by
  have hentry := h.utime hstep
  exact ⟨fun hholds => ClusterKept.of_disk (writeDirEntry_same (by exact hholds) hentry) _,
    fun hio hkept => slotHolds_of_kept (v := (s.setErrno 0).vol) hio hentry hkept⟩

theorem BbLoaded.rmdir_kept [t.Formatted] (h : BbLoaded s node n bb root)
    (hstep : fatFuseRmdir t s bbDirname = some (r, s')) :
    (BbHarmless t s n bb root .rmdir → ClusterKept t root.startCluster s.vol s'.vol) ∧
      (s.vol.IoSucceeds → ClusterKept t root.startCluster s.vol s'.vol →
        BbHarmless t s n bb root .rmdir) := by
  rcases h.rmdir hstep with ⟨hrefused, hdisk⟩ | ⟨⟨hdir, hempty⟩, bb', v', hdelete, hdisk⟩
  · refine ⟨fun _ => ClusterKept.of_disk hdisk _, fun _ _ => ?_⟩
    exact hrefused.elim Or.inl fun hchild => Or.inr (Or.inl hchild)
  have hfree : ∀ v₂, KeepsOutside t ∅ (s.setErrno 0).vol v₂ →
      ClusterKept t root.startCluster s.vol v₂ :=
    fun v₂ hkeeps => hkeeps.kept _ root.startCluster_lt (by simp)
  -- freeing the chain leaves the slots of the root as they are
  have hslot : ∀ v₂, ClusterKept t root.startCluster s.vol v₂ →
      (SlotHolds t v₂ root bb (deletedDentry s.vol bb.dentry) ↔
        SlotHolds t s.vol root bb (deletedDentry s.vol bb.dentry)) := by
    intro v₂ hkept
    unfold SlotHolds
    by_cases hfits : bb.posInParent < slotsPerCluster t
    · rw [hkept.diskSlot hfits]
    · simp [Nat.not_lt.mp hfits]
  have hlast : ClusterKept t root.startCluster v' s'.vol := ClusterKept.of_disk hdisk _
  rcases fatFileDelete_eq_some hdelete with ⟨hkeeps, herrno, hok⟩ | ⟨v₂, hkeeps, -, hentry⟩
  · refine ⟨fun _ => (hfree _ hkeeps).trans hlast, fun hio _ => ?_⟩
    exact absurd (hok hio) herrno
  · have hkept₂ := hfree _ hkeeps
    have hdeleted : deletedDentry (s.setErrno 0).vol bb.dentry = deletedDentry s.vol bb.dentry :=
      rfl
    rw [hdeleted] at hentry
    constructor
    · intro hharmless
      have hholds : SlotHolds t s.vol root bb (deletedDentry s.vol bb.dentry) := by
        rcases hharmless with hnot | hchild | hholds
        · rw [hdir] at hnot
          contradiction
        · simp [hempty] at hchild
        · exact hholds
      have hsame := writeDirEntry_same (by exact (hslot v₂ hkept₂).mpr hholds) hentry
      exact (hkept₂.trans (ClusterKept.of_disk hsame _)).trans hlast
    · intro hio hkept
      right
      right
      rw [← hslot v₂ hkept₂]
      refine slotHolds_of_kept (hkeeps.later.ioSucceeds hio) hentry fun i hi => ?_
      rw [← hdisk, hkept i hi, hkept₂ i hi]

/-- A harmless request for `/bb` leaves the cluster of the root alone; if no call fails,
a request that writes metadata leaves it alone only then.  The table is formatted. -/
theorem bbRequest_keepsRoot [t.Formatted] (h : BbLoaded s node n bb root) {op : BbOp}
    (hstep : fuseStep t env s (op.fuseOp node) = some (r, s')) :
    (BbHarmless t s n bb root op → ClusterKept t root.startCluster s.vol s'.vol) ∧
      (s.vol.IoSucceeds → (∀ filler, op ≠ .readdir filler) →
        ClusterKept t root.startCluster s.vol s'.vol → BbHarmless t s n bb root op) := by
  cases op with
  | utime actime modtime =>
      obtain ⟨hsafe, hexact⟩ := h.utime_kept hstep
      exact ⟨hsafe, fun hio _ => hexact hio⟩
  | rmdir =>
      obtain ⟨hsafe, hexact⟩ := h.rmdir_kept hstep
      exact ⟨hsafe, fun hio _ => hexact hio⟩
  | opendir =>
      refine ⟨fun _ => ?_, fun _ _ _ => trivial⟩
      simp only [BbOp.fuseOp, fuseStep, fatFuseOpendir, Option.map_eq_some_iff, openNode,
        h.search, fatTreeGetFile, h.bbFile.node, h.bbFile.live, Option.bind_eq_bind,
        Option.bind_some] at hstep
      obtain ⟨⟨r', fh, s₁⟩, hopen, hsame⟩ := hstep
      obtain rfl : s₁ = s' := (Prod.mk.inj hsame).2
      split at hopen
      · obtain rfl := (Prod.mk.inj (Prod.mk.inj (Option.some.inj hopen)).2).2
        exact ClusterKept.of_disk rfl _
      · simp only [Option.bind_eq_some_iff, Option.some.injEq, Prod.mk.injEq,
          fatTreeIncNumTimesOpened, Option.bind_eq_bind] at hopen
        obtain ⟨s₂, ⟨ancestors, -, hcount⟩, -, -, rfl⟩ := hopen
        exact ClusterKept.of_disk (by rw [modifyFiles_vol hcount]) _
  | readdir filler =>
      refine ⟨fun hharmless => ?_, fun _ hnot => absurd rfl (hnot filler)⟩
      simp only [BbOp.fuseOp, fuseStep, Option.map_eq_some_iff] at hstep
      obtain ⟨⟨r', names, s₁⟩, hread, hsame⟩ := hstep
      obtain rfl : s₁ = s' := (Prod.mk.inj hsame).2
      rcases fatFuseReaddir_eq_some hread with ⟨e, rfl⟩ | ⟨n', bb', hbb, hunread, hlist⟩
      · exact ClusterKept.of_disk rfl _
      · obtain ⟨rfl, rfl⟩ := h.bbFile.unique hbb
        have hzero := h.setErrno 0
        rcases hharmless with hdots | hdir | hdone | ⟨logNode, hlog⟩ | ⟨hne, hsafe⟩
        · exact ClusterKept.of_disk (fatFuseReaddir_unread hbb (Or.inl hdots) hread) _
        · exact ClusterKept.of_disk (fatFuseReaddir_unread hbb (Or.inr hdir) hread) _
        · rw [hunread] at hdone
          contradiction
        · exact ClusterKept.of_disk
            (fatFuseReadChildren_logLoaded (s := s.setErrno 0) hlog hlist) _
        · have hkept := fatFuseReadChildren_clusterKept (s := s.setErrno 0) hzero.search
            hzero.bbFile root.startCluster_lt hne hsafe hlist
          exact hkept

end Requests

/-! ## A mounted volume with a log -/

/-- In the mounted image node 2 is `/bb`, below the root at node 0. -/
theorem exists_bbLoaded :
    ∃ s n bb root, listedImage = some s ∧ BbLoaded s 2 n bb root ∧ s.vol.IoSucceeds ∧
      root.startCluster = 2 ∧
      (fatFuseUtime quadTable s bbDirname 0 0).map
        (fun r => (r.1, s.vol.disk 256, r.2.vol.disk 256)) = some (0, 0x61, 0x62) := by
  have hstate : listedImage.bind (fun s => (s.nodes.get 2).bind fun n =>
      (s.files.get n.data).bind fun bb => (s.nodes.get 0).bind fun m =>
        (s.files.get m.data).map fun root =>
          (fatTreeNodeSearch s bbDirname, fatTreeNodeSearch s rootPath, n.hParent,
            s.vol.writable, s.vol.io, root.startCluster)) =
      some (some (some 2), some (some 0), some 0, true, [], 2) := by
    rfl
  have hsteps : listedImage.map (fun s => (fatFuseUtime quadTable s bbDirname 0 0).map fun r =>
      (r.1, s.vol.disk 256, r.2.vol.disk 256)) = some (some (0, 0x61, 0x62)) := by
    rfl
  simp only [Option.bind_eq_some_iff, Option.map_eq_some_iff, Prod.mk.injEq] at hstate
  obtain ⟨s, hs, n, hn, bb, hbb, m, hm, root, hroot, hsearch, htop, hparent, hw, hio,
    hstart⟩ := hstate
  simp only [hs, Option.map_some, Option.some.injEq] at hsteps
  exact ⟨s, n, bb, root, hs, ⟨hsearch, ⟨hn, hbb⟩, 0, m, htop, hparent, hm, hroot⟩, ⟨hw, hio⟩,
    hstart, hsteps⟩

/-- Setting the times of `/bb` turns the entry of the file `/a` into one of `bb`. -/
theorem bb_overwrites_slot_of_root :
    ¬ ∀ (t : FatTable) (env : FuseEnv) (s s' : FsState) (node : ℕ) (n : HNode ℕ)
      (bb root : FatFile) (op : BbOp) (r : ℤ), FuseReachable t env s →
      BbLoaded s node n bb root → fuseStep t env s (op.fuseOp node) = some (r, s') →
        ClusterKept t root.startCluster s.vol s'.vol := by
  intro hall
  obtain ⟨s, n, bb, root, hs, hloaded, -, hstart, hutime⟩ := exists_bbLoaded
  simp only [Option.map_eq_some_iff, Prod.mk.injEq, Prod.exists] at hutime
  obtain ⟨r, s', hstep, -, hbefore, hafter⟩ := hutime
  have hkept := hall quadTable plainEnv s s' 2 n bb root (.utime 0 0) r
    (reachable_of_listing hs) hloaded hstep 0 (by decide)
  rw [hstart] at hkept
  have hoff : fatTableClusterOffset quadTable 2 + 0 = 256 := by decide
  rw [hoff, hbefore, hafter] at hkept
  exact absurd hkept (by decide)

/-- Opening `/bb`, listing it with the log in it and trying to remove it leave the root alone. -/
theorem bbRequest_keepsRoot_three :
    ∃ s n bb root, BbLoaded s 2 n bb root ∧ s.vol.IoSucceeds ∧
      ∀ op ∈ [BbOp.opendir, .readdir fun _ _ => false, .rmdir], ∃ r s',
        fuseStep quadTable plainEnv s (op.fuseOp 2) = some (r, s') ∧
          ClusterKept quadTable root.startCluster s.vol s'.vol := by
  obtain ⟨s, n, bb, root, hs, hloaded, hio, -⟩ := exists_bbLoaded
  have hruns : listedImage.bind (fun s => (s.nodes.get 2).bind fun n => (s.files.get n.data).map
      fun bb => decide (bb.childrenRead = true ∧ n.hChildren.isSome ∧
        ∀ op ∈ [BbOp.opendir, .readdir fun _ _ => false, .rmdir],
          (fuseStep quadTable plainEnv s (op.fuseOp 2)).isSome)) = some true := by
    decide +kernel
  simp only [hs, Option.bind_some, hloaded.bbFile.node, hloaded.bbFile.live, Option.map_some,
    Option.some.injEq, decide_eq_true_eq] at hruns
  obtain ⟨hread, hchild, hruns⟩ := hruns
  refine ⟨s, n, bb, root, hloaded, hio, fun op hop => ?_⟩
  obtain ⟨⟨r, s'⟩, hstep⟩ := Option.isSome_iff_exists.mp (hruns op hop)
  refine ⟨r, s', hstep, (bbRequest_keepsRoot hloaded hstep).1 ?_⟩
  simp only [List.mem_cons, List.not_mem_nil, or_false] at hop
  rcases hop with rfl | rfl | rfl
  · trivial
  · exact Or.inr (Or.inr (Or.inl hread))
  · exact Or.inr (Or.inl hchild)

end SistOp.FatFuse
