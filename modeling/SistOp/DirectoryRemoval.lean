import SistOp.DirectoryListing
import SistOp.FileDelete
import Mathlib.Tactic

/-!
# Removing a directory

`fat_fuse_rmdir` asks the tree, not the disk, whether a directory is empty, and the tree
knows the children only after a listing.
-/

namespace SistOp.FatFuse

open ByteStore

variable {t : FatTable} {env : FuseEnv} {α κ : Type}

/-! ## Deleting a file -/

/-- The entry of a file after `fat_file_delete`. -/
def deletedDentry (v : Volume) (d : FatDirEntry) : FatDirEntry :=
  (fillDentryTimeNow v (d.setFileSize 0) false true).1.setByte 0 fatFilenameDeletedChar

theorem fatTreeGetParent_eq {s : FsState} {node parent : ℕ} {n m : HNode ℕ}
    (hn : s.nodes.get node = some n) (hparent : n.hParent = some parent)
    (hm : s.nodes.get parent = some m) :
    fatTreeGetParent s node = some (some m.data, s) := by
  simp only [fatTreeGetParent, hn, hparent, hm, Option.bind_eq_bind, Option.bind_some]

theorem updateFile_eq_some {s s' : FsState} {addr : ℕ} {f : FatFile} {parent : Option ℕ}
    {p : Option FatFile}
    {op : Volume → FatFile → Option FatFile → Option (FatFile × Volume)}
    (hf : s.files.get addr = some f) (hp : s.deref parent = some p)
    (h : updateFile s addr parent op = some s') :
    ∃ f', op s.vol f p = some (f', s'.vol) := by
  simp only [updateFile, hf, hp, Option.bind_eq_bind, Option.bind_some,
    Option.bind_eq_some_iff, Option.some.injEq, Prod.exists] at h
  obtain ⟨f', v', hop, files, -, rfl⟩ := h
  exact ⟨f', hop⟩

theorem modifyFiles_vol {f : FatFile → FatFile} {as : List ℕ} {s s' : FsState}
    (h : FsState.modifyFiles f as s = some s') : s'.vol = s.vol := by
  induction as generalizing s with
  | nil =>
      obtain rfl := Option.some.inj h
      rfl
  | cons a as ih =>
      simp only [FsState.modifyFiles, FsState.modifyFile, Option.bind_eq_bind,
        Option.bind_eq_some_iff, Option.some.injEq] at h
      obtain ⟨s₁, ⟨files, -, rfl⟩, h⟩ := h
      have hrest := ih h
      exact hrest

theorem fatTreeDelete_disk {s s' : FsState} {key : CString}
    (h : fatTreeDelete s key = some s') : s'.vol.disk = s.vol.disk := by
  unfold fatTreeDelete at h
  split at h
  · obtain rfl := Option.some.inj h
    rfl
  · obtain rfl := Option.some.inj h
    rfl
  · simp only [Option.bind_eq_bind, Option.bind_eq_some_iff, Option.some.injEq,
      Prod.exists] at h
    obtain ⟨m, root, -, files, -, rfl⟩ := h
    rfl

/-- A node lists no children exactly when it has no first child. -/
theorem fatTreeFlattenHChildren_eq_nil_iff {s : FsState} {node : ℕ} {n : HNode ℕ}
    {children : List ℕ} (hn : s.nodes.get node = some n)
    (h : fatTreeFlattenHChildren s node = some children) :
    children = [] ↔ n.hChildren = none := by
  obtain ⟨-, -, -, -, h, -⟩ := fatTreeFlattenHChildren_eq_some h
  simp only [hTreeFlattenHChildren, hn, Option.bind_eq_bind, Option.bind_some] at h
  cases hfirst : n.hChildren with
  | none =>
      rw [hfirst, hChildrenLoop, Option.some.injEq] at h
      simp [← h]
  | some first =>
      simp only [hfirst, hChildrenLoop, Option.bind_eq_bind, Option.bind_eq_some_iff,
        Option.some.injEq] at h
      obtain ⟨m, -, rest, -, rfl⟩ := h
      simp

theorem freeChainLoop_clock {fuel : ℕ} {v v' : Volume} {c : ℕ}
    (h : freeChainLoop t fuel v c = some v') : v'.clock = v.clock := by
  have hrule := @freeChainLoop_induction t (fun v v' => v'.clock = v.clock) (fun _ => rfl)
  exact hrule (fun hfree hrest => hrest.trans (setNextCluster_cases hfree).2.1) h

theorem fatFileDelete_path {v v' : Volume} {f f' : FatFile} {p : Option FatFile}
    (h : fatFileDelete t v f p = some (f', v')) :
    f'.filepath = f.filepath ∧ f'.startCluster = f.startCluster := by
  simp only [fatFileDelete, Option.bind_eq_bind, Option.bind_eq_some_iff] at h
  obtain ⟨next, -, v₁, -, h⟩ := h
  split at h
  · obtain rfl := (Prod.mk.inj (Option.some.inj h)).1
    exact ⟨rfl, rfl⟩
  · simp only [Option.bind_eq_some_iff, Option.some.injEq, Prod.mk.injEq] at h
    obtain ⟨v₂, -, v₃, -, rfl, -⟩ := h
    exact ⟨rfl, rfl⟩

theorem setNextCluster_errno_kept {v v' : Volume} {c n : ℕ} (hio : v.IoSucceeds)
    (h : fatTableSetNextCluster t v c n = some v') : v'.errno = v.errno := by
  by_cases hc : c < t.fatEntries
  · rw [setNextCluster_of_ioSucceeds hio hc] at h
    obtain rfl := Option.some.inj h
    rfl
  · rw [setNextCluster_outside hio (Nat.not_lt.mp hc)] at h
    contradiction

theorem freeChainLoop_errno_kept [t.Formatted] {fuel : ℕ} {v v' : Volume} {c : ℕ}
    (hio : v.IoSucceeds) (h : freeChainLoop t fuel v c = some v') : v'.errno = v.errno := by
  have hrule := @freeChainLoop_induction t (fun v v' => v.IoSucceeds → v'.errno = v.errno)
    (fun _ _ => rfl)
  refine hrule (fun hfree hrest hio => ?_) h hio
  have hlater := (setNextCluster_keeps ∅ hfree).later
  exact (hrest (hlater.ioSucceeds hio)).trans (setNextCluster_errno_kept hio hfree)

/-- A deletion fails at the first entry of the FAT, or writes the erased entry after it
freed the chain. -/
theorem fatFileDelete_eq_some [t.Formatted] {v v' : Volume} {f f' : FatFile} {p : Option FatFile}
    (h : fatFileDelete t v f p = some (f', v')) :
    (KeepsOutside t ∅ v v' ∧ v'.errno ≠ 0 ∧ (v.IoSucceeds → v'.errno = v.errno)) ∨
      ∃ v₂, KeepsOutside t ∅ v v₂ ∧ (v.IoSucceeds → v₂.errno = v.errno) ∧
        writeDirEntry t v₂ p { f with dentry := deletedDentry v f.dentry } = some v' := by
  simp only [fatFileDelete, Option.bind_eq_bind, Option.bind_eq_some_iff] at h
  obtain ⟨next, -, v₁, hset, h⟩ := h
  have hkeeps := setNextCluster_keeps ∅ hset
  obtain ⟨-, hclock, -⟩ := setNextCluster_cases hset
  split at h
  · rename_i hbad
    obtain ⟨-, rfl⟩ := Prod.mk.inj (Option.some.inj h)
    exact Or.inl ⟨hkeeps, hbad, fun hio => setNextCluster_errno_kept hio hset⟩
  · simp only [Option.bind_eq_some_iff, Option.some.injEq, Prod.mk.injEq, freeChain] at h
    obtain ⟨v₂, hfree, v₃, hentry, -, rfl⟩ := h
    have hclock₂ : v₂.clock = v.clock := (freeChainLoop_clock hfree).trans hclock
    have hkeeps₂ := hkeeps.trans (freeChainLoop_keeps ∅ hfree)
    have htime : fillDentryTimeNow v₂ (f.dentry.setFileSize 0) false true =
        ((fillDentryTimeNow v (f.dentry.setFileSize 0) false true).1,
          { v₂ with clock := fun n => v₂.clock (n + 1) }) := by
      simp [fillDentryTimeNow, time, hclock₂]
    rw [htime] at hentry
    refine Or.inr ⟨{ v₂ with clock := fun n => v₂.clock (n + 1) },
      ⟨hkeeps₂.later, hkeeps₂.kept⟩, fun hio => ?_, hentry⟩
    have hfreed := freeChainLoop_errno_kept (hkeeps.later.ioSucceeds hio) hfree
    exact hfreed.trans (setNextCluster_errno_kept hio hset)

/-! ## The result of a removal -/

theorem deleteRoot_errno {fuel : ℕ} {m m' : HMemory α} {root : ℕ} {root' : HTree}
    (h : deleteRoot fuel m root = some (m', root')) : m'.errno = m.errno := by
  induction fuel generalizing m m' root root' with
  | zero => simp [deleteRoot] at h
  | succ fuel ih =>
      simp only [deleteRoot, Option.bind_eq_bind, Option.bind_eq_some_iff] at h
      obtain ⟨n, -, h⟩ := h
      cases hleft : n.left with
      | none =>
          simp only [hleft, Option.bind_eq_some_iff, Option.some.injEq, Prod.mk.injEq] at h
          obtain ⟨nodes, -, rfl, -⟩ := h
          rfl
      | some left =>
          cases hright : n.right with
          | none =>
              simp only [hleft, hright, Option.bind_eq_some_iff, Option.some.injEq,
                Prod.mk.injEq] at h
              obtain ⟨nodes, -, rfl, -⟩ := h
              rfl
          | some minimumParent =>
              simp only [hleft, hright, Option.bind_eq_some_iff] at h
              obtain ⟨p, -, h⟩ := h
              cases hp : p.left with
              | none =>
                  simp only [hp, Option.bind_eq_some_iff, Option.some.injEq,
                    Prod.mk.injEq] at h
                  obtain ⟨-, -, -, -, -, -, rfl, -⟩ := h
                  rfl
              | some minimum =>
                  simp only [hp, Option.bind_eq_some_iff, Option.some.injEq,
                    Prod.mk.injEq, Prod.exists] at h
                  obtain ⟨_, -, _, _, _, -, _, -, m₁, _, hrec, _, -, rfl, -⟩ := h
                  have hrest := ih hrec
                  exact hrest

theorem removeChildFromH_errno {m m' : HMemory α} {c p : ℕ} {n pn : HNode α}
    (hn : m.nodes.get c = some n) (hp : n.hParent = some p) (hpn : m.nodes.get p = some pn)
    (hfirst : pn.hChildren ≠ none) (h : removeChildFromH m c = some m') :
    m'.errno = m.errno := by
  obtain ⟨first, hfirst⟩ := Option.ne_none_iff_exists'.mp hfirst
  simp only [removeChildFromH, hn, hp, hpn, hfirst, Option.bind_eq_bind, Option.bind_some] at h
  split at h
  · simp only [Option.bind_eq_some_iff, Option.some.injEq] at h
    obtain ⟨nodes, -, rfl⟩ := h
    rfl
  · simp only [Option.bind_eq_some_iff, Option.some.injEq] at h
    obtain ⟨last, -, nodes, -, rfl⟩ := h
    rfl

/-- Deleting a key that is found leaves `errno` alone if the node's parent, where it has
one, has a first child. -/
theorem hTreeDeleteLoop_errno {dataCmpKey : α → κ → Option Ordering} {key : κ}
    {fuel fuel' a : ℕ} {n : HNode α} {m m' : HMemory α} {root root' : HTree}
    (hfound : hTreeSearchLoop dataCmpKey m.nodes key fuel' root = some (some a))
    (hn : m.nodes.get a = some n)
    (hparent : ∀ p, n.hParent = some p → ∃ pn, m.nodes.get p = some pn ∧ pn.hChildren ≠ none)
    (h : hTreeDeleteLoop dataCmpKey key fuel m root = some (m', root')) :
    m'.errno = m.errno := by
  induction fuel generalizing fuel' root root' m' with
  | zero => simp [hTreeDeleteLoop] at h
  | succ fuel ih =>
      cases root with
      | none =>
          cases fuel' <;> simp [hTreeSearchLoop] at hfound
      | some b =>
          cases fuel' with
          | zero => simp [hTreeSearchLoop] at hfound
          | succ fuel' =>
              simp only [hTreeSearchLoop, Option.bind_eq_bind, Option.bind_eq_some_iff] at hfound
              obtain ⟨nb, hb, cmp, hcmp, hfound⟩ := hfound
              simp only [hTreeDeleteLoop, hb, hcmp, Option.bind_eq_bind, Option.bind_some] at h
              cases cmp with
              | eq =>
                  simp only [Option.some.injEq] at hfound
                  subst hfound
                  obtain rfl := Option.some.inj (hb.symm.trans hn)
                  simp only [Option.bind_eq_some_iff] at h
                  obtain ⟨m₁, hremove, hdelete⟩ := h
                  rw [deleteRoot_errno hdelete]
                  cases hp : nb.hParent with
                  | none =>
                      simp only [removeChildFromH, hb, hp, Option.bind_eq_bind,
                        Option.bind_some, Option.some.injEq] at hremove
                      rw [hremove]
                  | some p =>
                      obtain ⟨pn, hpn, hfirst⟩ := hparent p hp
                      exact removeChildFromH_errno hb hp hpn hfirst hremove
              | lt =>
                  simp only [Option.bind_eq_some_iff, Option.some.injEq, Prod.mk.injEq,
                    Prod.exists] at h
                  obtain ⟨m₁, right, hrec, _, -, _, -, rfl, -⟩ := h
                  have hrest : m₁.errno = m.errno := ih hfound hrec
                  exact hrest
              | gt =>
                  simp only [Option.bind_eq_some_iff, Option.some.injEq, Prod.mk.injEq,
                    Prod.exists] at h
                  obtain ⟨m₁, left, hrec, _, -, _, -, rfl, -⟩ := h
                  have hrest : m₁.errno = m.errno := ih hfound hrec
                  exact hrest

theorem fatTreeDelete_errno {s s' : FsState} {path : CString} {node : ℕ} {n : HNode ℕ}
    (hfound : fatTreeNodeSearch s path = some (some node)) (hn : s.nodes.get node = some n)
    (hparent : ∀ p, n.hParent = some p → ∃ pn, s.nodes.get p = some pn ∧ pn.hChildren ≠ none)
    (h : fatTreeDelete s path = some s') : s'.errno = s.errno := by
  simp only [fatTreeNodeSearch, Option.bind_eq_bind, Option.bind_eq_some_iff] at hfound
  obtain ⟨root, hroot, hfound⟩ := hfound
  cases root with
  | none => simp [hTreeSearch, hTreeSearchLoop] at hfound
  | some a =>
      simp only [fatTreeDelete, hroot, Option.bind_eq_bind, Option.bind_eq_some_iff,
        Option.some.injEq, Prod.exists, hTreeDelete] at h
      obtain ⟨m, root', hdelete, files, -, rfl⟩ := h
      have hsame := hTreeDeleteLoop_errno (by exact hfound) (by exact hn) (by exact hparent)
        hdelete
      exact hsame

/-! ## What `fat_fuse_rmdir` does -/

/-- The file of a node. -/
structure NodeFile (s : FsState) (node : ℕ) (n : HNode ℕ) (f : FatFile) : Prop where
  node : s.nodes.get node = some n
  live : s.files.get n.data = some f

theorem NodeFile.unique {s : FsState} {node : ℕ} {n n' : HNode ℕ} {f f' : FatFile}
    (h : NodeFile s node n f) (h' : NodeFile s node n' f') : n' = n ∧ f' = f := by
  obtain rfl := Option.some.inj (h.node.symm.trans h'.node)
  exact ⟨rfl, Option.some.inj (h'.live.symm.trans h.live)⟩

/-- The ways a removal ends: it is refused, or the file and its node are deleted. -/
inductive RmdirOutcome (t : FatTable) (s : FsState) (path : CString) (node : ℕ)
    (n : HNode ℕ) (f : FatFile) : ℤ → FsState → Prop
  | notDirectory (hdir : fatFileIsDirectory f = false) :
      RmdirOutcome t s path node n f (- Errno.enotdir) (s.setErrno Errno.enotdir)
  | hasChildren (hchild : n.hChildren.isSome) :
      RmdirOutcome t s path node n f (- Errno.eisdir) (s.setErrno Errno.eisdir)
  | deleted {parent : Option ℕ} {s₀ s₁ s' : FsState} (hdir : fatFileIsDirectory f = true)
      (hempty : n.hChildren = none)
      (hparent : fatTreeGetParent (s.setErrno 0) node = some (parent, s₀))
      (hfile : deleteFile t s₀ n.data parent = some s₁)
      (htree : fatTreeDelete s₁ path = some s') :
      RmdirOutcome t s path node n f (- s'.errno) s'

theorem fatFuseRmdir_outcome {s s' : FsState} {path : CString} {node : ℕ} {n : HNode ℕ}
    {f : FatFile} {r : ℤ} (hfound : fatTreeNodeSearch s path = some (some node))
    (hf : NodeFile s node n f) (h : fatFuseRmdir t s path = some (r, s')) :
    RmdirOutcome t s path node n f r s' := by
  have hsearch : fatTreeNodeSearch (s.setErrno 0) path = some (some node) := hfound
  have hnode : (s.setErrno 0).nodes.get node = some n := hf.node
  have hlive : (s.setErrno 0).files.get n.data = some f := hf.live
  simp only [fatFuseRmdir, hsearch, fatTreeGetFile, hnode, hlive, Option.bind_eq_bind,
    Option.bind_some] at h
  by_cases hdir : fatFileIsDirectory f = false
  · rw [if_pos hdir] at h
    obtain ⟨rfl, rfl⟩ := Prod.mk.inj (Option.some.inj h)
    exact RmdirOutcome.notDirectory hdir
  · rw [if_neg hdir] at h
    simp only [Option.bind_eq_some_iff] at h
    obtain ⟨children, hchildren, h⟩ := h
    have hnil := fatTreeFlattenHChildren_eq_nil_iff hnode hchildren
    by_cases hempty : children = []
    · rw [if_neg (by simpa using hempty)] at h
      simp only [Option.bind_eq_some_iff, Option.some.injEq, Prod.mk.injEq,
        Prod.exists] at h
      obtain ⟨parent, s₀, hparent, s₁, hfile, s₂, htree, rfl, rfl⟩ := h
      exact RmdirOutcome.deleted (by simpa using hdir) (hnil.mp hempty) hparent hfile htree
    · rw [if_pos hempty] at h
      obtain ⟨rfl, rfl⟩ := Prod.mk.inj (Option.some.inj h)
      refine RmdirOutcome.hasChildren ?_
      rw [Option.isSome_iff_ne_none]
      exact fun hnone => hempty (hnil.mpr hnone)

/-! ## Live entries on disk -/

/-- An entry that a listing of its directory turns into a file. -/
def EntryLive (d : FatDirEntry) : Prop :=
  d.byte 0 ≠ fatFilenameDeletedChar ∧ ignoreDentry d = false

instance (d : FatDirEntry) : Decidable (EntryLive d) :=
  inferInstanceAs (Decidable (_ ∧ _))

/-- The chain from a cluster on holds a live entry in front of the end mark. -/
inductive LiveFrom (t : FatTable) (v : Volume) : ℕ → Prop
  | here {c k : ℕ} (hvalid : fatTableIsValidClusterNumber t c) (hk : k < slotsPerCluster t)
      (hbefore : ∀ j ≤ k, isEndOfDirectory (diskSlot t v.disk c j) = false)
      (hlive : EntryLive (diskSlot t v.disk c k)) : LiveFrom t v c
  | next {c d : ℕ} (hvalid : fatTableIsValidClusterNumber t c)
      (hfull : ∀ j < slotsPerCluster t, isEndOfDirectory (diskSlot t v.disk c j) = false)
      (hnext : fatTableGetNextCluster t v c = some d) (hrest : LiveFrom t v d) :
      LiveFrom t v c

/-- Nothing but a child in memory keeps the removal from succeeding. -/
structure Removable (t : FatTable) (s : FsState) (n : HNode ℕ) (f : FatFile) : Prop where
  io : s.vol.IoSucceeds
  room : f.posInParent < slotsPerCluster t
  parent : ∃ p pn pf, n.hParent = some p ∧ NodeFile s p pn pf ∧ pn.hChildren ≠ none

/-- A removal that nothing stops returns 0. -/
theorem Removable.result [t.Formatted] {s s' s₀ s₁ : FsState} {path : CString} {node : ℕ}
    {n : HNode ℕ} {f : FatFile} {parent : Option ℕ} (hok : Removable t s n f)
    (hfound : fatTreeNodeSearch s path = some (some node)) (hf : NodeFile s node n f)
    (hparent : fatTreeGetParent (s.setErrno 0) node = some (parent, s₀))
    (hfile : deleteFile t s₀ n.data parent = some s₁)
    (htree : fatTreeDelete s₁ path = some s') : s'.errno = 0 := by
  obtain ⟨p, pn, pf, hp, hpf, hfirst⟩ := hok.parent
  rw [fatTreeGetParent_eq (s := s.setErrno 0) hf.node hp hpf.node] at hparent
  obtain ⟨rfl, rfl⟩ := Prod.mk.inj (Option.some.inj hparent)
  have hderef : (s.setErrno 0).deref (some pn.data) = some (some pf) := by
    have hlive : (s.setErrno 0).files.get pn.data = some pf := hpf.live
    simp only [FsState.deref, hlive, Option.bind_eq_bind, Option.bind_some]
  have hlive₀ : (s.setErrno 0).files.get n.data = some f := hf.live
  simp only [deleteFile, updateFile, hderef, hlive₀, Option.bind_eq_bind, Option.bind_some,
    Option.bind_eq_some_iff, Option.some.injEq, Prod.exists] at hfile
  obtain ⟨f', v', hdelete, files, hwrite, rfl⟩ := hfile
  -- the entry is written, and its file keeps its path
  have herrno : v'.errno = 0 := by
    rcases fatFileDelete_eq_some hdelete with ⟨-, hne, hsame⟩ | ⟨v₂, hkeeps, hsame, hentry⟩
    · exact absurd (hsame hok.io) hne
    · rw [writeDirEntry_of_ioSucceeds (hkeeps.later.ioSucceeds hok.io) (by exact hok.room)]
        at hentry
      obtain rfl := Option.some.inj hentry
      exact hsame hok.io
  have hpath : f'.filepath = f.filepath ∧ f'.startCluster = f.startCluster :=
    fatFileDelete_path hdelete
  have hgrown : FsGrown s { s with vol := v', files := files } :=
    FsGrown.writeFile hf.live hwrite hpath.1 hpath.2
  have hsame := fatTreeDelete_errno (hgrown.search hfound) (by exact hf.node) (by
    intro q hq
    obtain rfl := Option.some.inj (hp.symm.trans hq)
    exact ⟨pn, hpf.node, hfirst⟩) htree
  exact hsame.trans herrno

/-- Removals that return 0 are of empty directories when every directory with a live entry
on disk has a child in memory; where nothing else stops a removal, only then.  The table is
formatted. -/
theorem rmdir_onlyEmpty_iff [t.Formatted] {s s' : FsState} {path : CString} {node : ℕ} {n : HNode ℕ}
    {f : FatFile} {r : ℤ} (hfound : fatTreeNodeSearch s path = some (some node))
    (hf : NodeFile s node n f) (hdir : fatFileIsDirectory f = true)
    (h : fatFuseRmdir t s path = some (r, s')) :
    ((LiveFrom t s.vol f.startCluster → n.hChildren.isSome) →
        r = 0 → ¬ LiveFrom t s.vol f.startCluster) ∧
      (Removable t s n f → (r = 0 → ¬ LiveFrom t s.vol f.startCluster) →
        LiveFrom t s.vol f.startCluster → n.hChildren.isSome) := by
  cases fatFuseRmdir_outcome hfound hf h with
  | notDirectory hnot =>
      rw [hdir] at hnot
      contradiction
  | hasChildren hchild => exact ⟨fun _ hzero => by simp at hzero, fun _ _ _ => hchild⟩
  | deleted _ hempty hparent hfile htree =>
      refine ⟨fun hknown _ hlive => ?_, fun hok honly hlive => ?_⟩
      · have hchild := hknown hlive
        simp [hempty] at hchild
      · have hzero := hok.result hfound hf hparent hfile htree
        exact absurd hlive (honly (by simp [hzero]))

/-! ## An unlisted directory -/

/-- The root, at cluster 2, holds the directory `d` at cluster 4, which holds the file
`x`, and a volume label; the log directory is at cluster 3 and the log at cluster 5. -/
def nestedImage : Volume :=
  { smallVolume [fatClusterEndOfChainMax, fatClusterBadSector, fatClusterEndOfChainMax,
      fatClusterEndOfChainMax, fatClusterEndOfChainMax] with
    disk := placeBytes (entryBytes [0x64] [] fileAttributeDirectory 4 0 ++
        entryBytes [0x76] [] fileAttributeVolume 0 0) 256
      (placeBytes (entryBytes [0x66, 0x73] [0x6c, 0x6f, 0x67] fileAttributeArchive 5 0) 384
        (placeBytes (entryBytes [0x78] [] fileAttributeArchive 6 0) 512 fun _ => 0)) }

/-- The image was mounted and its root directory listed. -/
def nestedListed : Option FsState :=
  (initFileTree nestedImage 2).bind fun s =>
    (fatFuseReaddir quadTable plainEnv s (fun _ _ => false) 0).map fun r => r.2.2

def pathD : CString := [charSlash, 0x64]

theorem reachable_of_listing {v : Volume} {c fh : ℕ} {filler : FillDir} {s : FsState}
    (h : ((initFileTree v c).bind fun s =>
      (fatFuseReaddir t env s filler fh).map fun r => r.2.2) = some s) :
    FuseReachable t env s := by
  simp only [Option.bind_eq_some_iff, Option.map_eq_some_iff] at h
  obtain ⟨mounted, hmount, ⟨result, names, s'⟩, hread, rfl⟩ := h
  have hstep : fuseStep t env mounted (.readdir filler fh) = some (result, s') := by
    simp only [fuseStep, hread, Option.map_some]
  exact ⟨v, c, mounted, [.readdir filler fh], hmount, FuseRun.cons hstep (FuseRun.nil _)⟩

/-- The directory `/d` was never listed and is removed with its file. -/
theorem rmdir_removes_unlisted_file :
    ¬ ∀ (t : FatTable) (env : FuseEnv) (s s' : FsState) (path : CString) (node : ℕ)
      (n : HNode ℕ) (f : FatFile), FuseReachable t env s →
      fatTreeNodeSearch s path = some (some node) → NodeFile s node n f →
      fatFileIsDirectory f = true → fatFuseRmdir t s path = some (0, s') →
        ¬ LiveFrom t s.vol f.startCluster := by
  intro hall
  have hrun : nestedListed.bind (fun s => (s.nodes.get 1).bind fun n =>
      (s.files.get n.data).bind fun f => (fatFuseRmdir quadTable s pathD).map fun r =>
        (fatTreeNodeSearch s pathD, fatFileIsDirectory f, f.startCluster, r.1,
          isEndOfDirectory (diskSlot quadTable s.vol.disk 4 0),
          decide (EntryLive (diskSlot quadTable s.vol.disk 4 0)))) =
      some (some (some 1), true, 4, 0, false, true) := by
    rfl
  simp only [Option.bind_eq_some_iff, Option.map_eq_some_iff, Prod.mk.injEq, Prod.exists,
    decide_eq_true_eq] at hrun
  obtain ⟨s, hs, n, hn, f, hf, r, s', hremove, hsearch, hdir, hstart, rfl, hend, hlive⟩ := hrun
  have hempty := hall quadTable plainEnv s s' pathD 1 n f (reachable_of_listing hs) hsearch
    ⟨hn, hf⟩ hdir hremove
  rw [hstart] at hempty
  refine hempty (LiveFrom.here (k := 0) (by decide) (by decide) ?_ hlive)
  intro j hj
  obtain rfl : j = 0 := by omega
  exact hend

/-- The new directory `/e` is removed, and was empty. -/
theorem rmdir_onlyEmpty_iff_new :
    ∃ mounted s n f s', nestedListed = some mounted ∧
      fatFuseMkdir quadTable mounted [charSlash, 0x65] = some (0, s) ∧ NodeFile s 4 n f ∧
      fatFuseRmdir quadTable s [charSlash, 0x65] = some (0, s') ∧
      ¬ LiveFrom quadTable s.vol f.startCluster := by
  have hrun : nestedListed.bind (fun s =>
      (fatFuseMkdir quadTable s [charSlash, 0x65]).bind fun made =>
      (made.2.nodes.get 4).bind fun n => (made.2.files.get n.data).bind fun f =>
        (fatFuseRmdir quadTable made.2 [charSlash, 0x65]).map fun r =>
          (made.1, fatTreeNodeSearch made.2 [charSlash, 0x65], fatFileIsDirectory f, r.1,
            isEndOfDirectory (diskSlot quadTable made.2.vol.disk f.startCluster 0))) =
      some (0, some (some 4), true, 0, true) := by
    decide +kernel
  simp only [Option.bind_eq_some_iff, Option.map_eq_some_iff, Prod.mk.injEq, Prod.exists] at hrun
  obtain ⟨mounted, hs, r', s, hmkdir, n, hn, f, hf, r, s', hremove, rfl, hsearch, hdir,
    rfl, hend⟩ := hrun
  have hempty : ¬ LiveFrom quadTable s.vol f.startCluster := by
    rintro (⟨-, -, hbefore, -⟩ | ⟨-, hfull, -, -⟩)
    · exact absurd (hbefore 0 (Nat.zero_le _)) (by simp [hend])
    · exact absurd (hfull 0 (by decide)) (by simp [hend])
  have hboth := rmdir_onlyEmpty_iff hsearch ⟨hn, hf⟩ hdir hremove
  exact ⟨mounted, s, n, f, s', hs, hmkdir, ⟨hn, hf⟩, hremove,
    hboth.1 (fun hlive => absurd hlive hempty) rfl⟩

end SistOp.FatFuse
