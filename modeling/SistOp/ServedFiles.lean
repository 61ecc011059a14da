import SistOp.FileModel
import SistOp.TreeShape
import SistOp.TreeInsertion
import Mathlib.Tactic

/-!
# Files that are served

A mounted volume with its log loaded and some regular files open: every handle stands for
a file object on a chain of its own, with an entry in a slot of its directory.  A transfer
of one of the files keeps this, and changes no content but its own.
-/

namespace SistOp.FatFuse

open SearchTree

variable {t : FatTable} {env : FuseEnv}

/-- What the node of a regular file stands for. -/
structure ServedFile where
  object : ℕ
  file : FatFile
  dirObject : ℕ
  dir : FatFile
  clusters : List ℕ

namespace ServedFile

def chain (o : ServedFile) : List ℕ := o.file.startCluster :: o.clusters

def content (t : FatTable) (v : Volume) (o : ServedFile) : List UInt8 :=
  fileContent t v o.file o.clusters

/-- Where the nodes of the file and of its directory point to. -/
def NodesOf (nodes : Heap (HNode ℕ)) (a : ℕ) (o : ServedFile) : Prop :=
  ∃ n parent m, nodes.get a = some n ∧ n.data = o.object ∧ n.hParent = some parent ∧
    nodes.get parent = some m ∧ m.data = o.dirObject

structure Loaded (t : FatTable) (s : FsState) (a : ℕ) (o : ServedFile) : Prop where
  nodes : NodesOf s.nodes a o
  file : s.files.get o.object = some o.file
  dir : s.files.get o.dirObject = some o.dir
  regular : fatFileIsDirectory o.file = false
  directory : fatFileIsDirectory o.dir = true
  slot : o.file.posInParent < slotsPerCluster t
  onChain : FileOnChain t s.vol o.file o.clusters
  dirUsed : s.vol.fatMap o.dir.startCluster ≠ fatClusterFree

end ServedFile

/-- The file tree is a finite tree of live nodes with live files. -/
def FileTreeShape (s : FsState) : Prop :=
  ∃ (root : HTree) (tree : BinaryTree (ℕ × ℕ)), s.fileTree = some root ∧
    TreeAt s.nodes root tree ∧ (addresses tree).Nodup ∧
    ∀ x ∈ inorder tree, ∃ f, s.files.get x.2 = some f

/-- The log and the files behind the handles `opened` are loaded and share nothing, and
no error is pending. -/
structure Serving (t : FatTable) (s : FsState) (logNode : ℕ) (opened : Set ℕ)
    (served : ℕ → ServedFile) : Prop where
  loaded : ∀ a ∈ insert logNode opened, (served a).Loaded t s a
  objects : ∀ a ∈ insert logNode opened, ∀ b ∈ insert logNode opened,
    (served a).object = (served b).object → a = b
  disjoint : ∀ a ∈ insert logNode opened, ∀ b ∈ insert logNode opened, a ≠ b →
    List.Disjoint (served a).chain (served b).chain
  dirsApart : ∀ a ∈ insert logNode opened, ∀ b ∈ insert logNode opened,
    (served a).dir.startCluster ∉ (served b).chain
  notLog : ∀ a ∈ opened, (served a).file.filepath ≠ bbLogFile
  log : fatTreeNodeSearch s bbLogFile = some (some logNode)
  shape : FileTreeShape s
  errno : s.vol.errno = 0
  succeeds : s.vol.IoSucceeds

theorem FileTreeShape.grown {s s' : FsState} (h : FileTreeShape s) (hnodes : s'.nodes = s.nodes)
    (htree : s'.fileTree = s.fileTree)
    (hfiles : ∀ a f, s.files.get a = some f → ∃ f', s'.files.get a = some f') :
    FileTreeShape s' := by
  obtain ⟨root, tree, hroot, hat, hnodup, hlive⟩ := h
  refine ⟨root, tree, htree.trans hroot, by rwa [hnodes], hnodup, fun x hx => ?_⟩
  obtain ⟨f, hf⟩ := hlive x hx
  exact hfiles _ f hf

section Serving

variable {s : FsState} {logNode : ℕ} {opened : Set ℕ} {served : ℕ → ServedFile}

theorem Serving.log_mem : logNode ∈ insert logNode opened := Set.mem_insert _ _

theorem Serving.opened_mem {a : ℕ} (ha : a ∈ opened) : a ∈ insert logNode opened :=
  Set.mem_insert_of_mem _ ha

theorem Serving.logPath (h : Serving t s logNode opened served) :
    (served logNode).file.filepath = bbLogFile := by
  obtain ⟨n, f, hn, hf, hpath⟩ := fatTreeNodeSearch_found h.log
  have hloaded := h.loaded logNode Serving.log_mem
  obtain ⟨n', parent, m, hn', hdata, -⟩ := hloaded.nodes
  obtain rfl := Option.some.inj (hn.symm.trans hn')
  have hfile := hloaded.file
  rw [← hdata, hf] at hfile
  rw [← Option.some.inj hfile]
  exact hpath

theorem Serving.ne_log (h : Serving t s logNode opened served) {a : ℕ} (ha : a ∈ opened) :
    a ≠ logNode := by
  rintro rfl
  exact h.notLog a ha h.logPath

/-- Only the clock went on. -/
theorem Serving.tick (h : Serving t s logNode opened served) (clock : ℕ → ℤ) :
    Serving t { s with vol := { s.vol with clock := clock } } logNode opened served := by
  refine ⟨fun a ha => ?_, h.objects, h.disjoint, h.dirsApart, h.notLog, h.log,
    h.shape.grown rfl rfl fun _ f hf => ⟨f, hf⟩, h.errno, h.succeeds⟩
  have hloaded := h.loaded a ha
  exact ⟨hloaded.nodes, hloaded.file, hloaded.dir, hloaded.regular, hloaded.directory,
    hloaded.slot, ⟨hloaded.onChain.chain, hloaded.onChain.size_le⟩, hloaded.dirUsed⟩

theorem Serving.setErrno (h : Serving t s logNode opened served) : s.setErrno 0 = s := by
  have herrno := h.errno
  unfold FsState.setErrno
  rw [← herrno]

theorem Serving.getFile (h : Serving t s logNode opened served) {a : ℕ}
    (ha : a ∈ insert logNode opened) : fatTreeGetFile s a = some (served a).object := by
  obtain ⟨n, parent, m, hn, hdata, -⟩ := (h.loaded a ha).nodes
  simp [fatTreeGetFile, hn, hdata]

theorem Serving.getParent (h : Serving t s logNode opened served) {a : ℕ}
    (ha : a ∈ insert logNode opened) :
    fatTreeGetParent s a = some (some (served a).dirObject, s) := by
  obtain ⟨n, parent, m, hn, -, hparent, hm, hdata⟩ := (h.loaded a ha).nodes
  simp [fatTreeGetParent, hn, hparent, hm, hdata]

/-- A directory is no served file. -/
theorem Serving.dirObject_ne (h : Serving t s logNode opened served) {a b : ℕ}
    (ha : a ∈ insert logNode opened) (hb : b ∈ insert logNode opened) :
    (served b).dirObject ≠ (served a).object := by
  intro heq
  have hdir := (h.loaded b hb).dir
  rw [heq, (h.loaded a ha).file] at hdir
  have hregular := (h.loaded a ha).regular
  rw [Option.some.inj hdir, (h.loaded b hb).directory] at hregular
  contradiction

/-- The file of one handle after a transfer. -/
def ServedFile.after (o : ServedFile) (f : FatFile) (new : List ℕ) : ServedFile :=
  { o with file := f, clusters := o.clusters ++ new }

/-- A transfer of the file `a` keeps everything and changes no other content. -/
theorem Serving.transferred [t.Formatted] (h : Serving t s logNode opened served) {a : ℕ}
    (ha : a ∈ insert logNode opened) {f' : FatFile} {v' : Volume} {new : List ℕ}
    {files' : Heap FatFile}
    (hdone : Transferred t s.vol v' (served a).file f' (served a).dir.startCluster
      (served a).clusters new)
    (hwrite : s.files.write (served a).object f' = some files') :
    Serving t { s with vol := v', files := files' } logNode opened
        (Function.update served a ((served a).after f' new)) ∧
      ∀ b ∈ insert logNode opened, b ≠ a →
        (served b).content t v' = (served b).content t s.vol := by
  obtain ⟨-, -, hself, hothers⟩ := Heap.write_eq_some hwrite
  have hloadedA := h.loaded a ha
  have hgrown : Extends t s.vol.fatMap v'.fatMap (served a).chain new := hdone.grown
  -- clusters that are used and not of the chain stay out of it
  have hout : ∀ c, c ∉ (served a).chain → s.vol.fatMap c ≠ fatClusterFree →
      c ∉ (served a).chain ++ new ∧ v'.fatMap c = s.vol.fatMap c := by
    intro c hc hused
    obtain ⟨hnew, hsame⟩ := hgrown.frame_of_used hc hused
    exact ⟨by simp [hc, hnew], hsame⟩
  have hotherChain : ∀ b ∈ insert logNode opened, b ≠ a → ∀ c ∈ (served b).chain,
      c ∉ (served a).chain ++ new ∧ v'.fatMap c = s.vol.fatMap c := by
    intro b hb hba c hc
    exact hout c (fun hmem => h.disjoint b hb a ha hba hc hmem)
      ((h.loaded b hb).onChain.chain.used c hc)
  have hdir : ∀ b ∈ insert logNode opened,
      (served b).dir.startCluster ∉ (served a).chain ++ new ∧
        v'.fatMap (served b).dir.startCluster = s.vol.fatMap (served b).dir.startCluster :=
    fun b hb => hout _ (h.dirsApart b hb a ha) (h.loaded b hb).dirUsed
  have hchainAfter : ((served a).after f' new).chain = (served a).chain ++ new := by
    simp [ServedFile.chain, ServedFile.after, hdone.entry.startCluster]
  have hgrownTree := FsGrown.writeFile (v := v') hloadedA.file hwrite hdone.entry.filepath
    hdone.entry.startCluster
  have hliveFiles : ∀ b g, s.files.get b = some g → ∃ g', files'.get b = some g' := by
    intro b g hg
    obtain ⟨g', hg', -⟩ := hgrownTree.files b g hg
    exact ⟨g', hg'⟩
  refine ⟨⟨fun b hb => ?_, fun b hb c hc => ?_, fun b hb c hc hbc => ?_, fun b hb c hc => ?_,
    fun b hb => ?_, hgrownTree.search h.log, h.shape.grown rfl rfl hliveFiles,
    hdone.errno.trans h.errno, hdone.succeeds⟩, fun b hb hba => ?_⟩
  · by_cases hba : b = a
    · subst hba
      rw [Function.update_self]
      refine ⟨hloadedA.nodes, hself, ?_, hdone.isDirectory.trans hloadedA.regular,
        hloadedA.directory, ?_, hdone.onChain, ?_⟩
      · exact (hothers _ (h.dirObject_ne hb hb)).trans hloadedA.dir
      · show f'.posInParent < slotsPerCluster t
        rw [hdone.entry.posInParent]
        exact hloadedA.slot
      · have hused := hloadedA.dirUsed
        rw [← (hdir b hb).2] at hused
        exact hused
    · rw [Function.update_of_ne hba]
      have hloaded := h.loaded b hb
      have hobject : (served b).object ≠ (served a).object := fun heq =>
        hba (h.objects b hb a ha heq)
      refine ⟨hloaded.nodes, (hothers _ hobject).trans hloaded.file,
        (hothers _ (h.dirObject_ne ha hb)).trans hloaded.dir, hloaded.regular,
        hloaded.directory, hloaded.slot, ⟨?_, hloaded.onChain.size_le⟩, ?_⟩
      · exact hloaded.onChain.chain.congr fun c hc => (hotherChain b hb hba c hc).2
      · have hused := hloaded.dirUsed
        rw [← (hdir b hb).2] at hused
        exact hused
  · have hsame : ∀ x, (Function.update served a ((served a).after f' new) x).object =
        (served x).object := by
      intro x
      by_cases hx : x = a
      · subst hx
        rw [Function.update_self]
        rfl
      · rw [Function.update_of_ne hx]
    rw [hsame, hsame]
    exact h.objects b hb c hc
  · by_cases hba : b = a
    · subst hba
      rw [Function.update_self, Function.update_of_ne (Ne.symm hbc), hchainAfter]
      intro x hx hxc
      exact (hotherChain c hc (Ne.symm hbc) x hxc).1 hx
    · rw [Function.update_of_ne hba]
      by_cases hca : c = a
      · subst hca
        rw [Function.update_self, hchainAfter]
        intro x hxb hx
        exact (hotherChain b hb hba x hxb).1 hx
      · rw [Function.update_of_ne hca]
        exact h.disjoint b hb c hc hbc
  · have hsame : (Function.update served a ((served a).after f' new) b).dir = (served b).dir := by
      by_cases hba : b = a
      · subst hba
        rw [Function.update_self]
        rfl
      · rw [Function.update_of_ne hba]
    rw [hsame]
    by_cases hca : c = a
    · subst hca
      rw [Function.update_self, hchainAfter]
      exact (hdir b hb).1
    · rw [Function.update_of_ne hca]
      exact h.dirsApart b hb c hc
  · by_cases hba : b = a
    · subst hba
      rw [Function.update_self]
      show f'.filepath ≠ bbLogFile
      rw [hdone.entry.filepath]
      exact h.notLog b hb
    · rw [Function.update_of_ne hba]
      exact h.notLog b hb
  · have hloaded := h.loaded b hb
    exact hdone.chainContent_kept (served a).dir.startCluster_lt
      hloaded.onChain.chain.valid (fun c hc => (hotherChain b hb hba c hc).1)
      (h.dirsApart a ha b hb) hloaded.onChain.size_le

end Serving

end SistOp.FatFuse
