import SistOp.ServedFiles
import Mathlib.Tactic

/-!
# Runs of reads and writes

Every request of a client costs a second, hidden write: the record in the log.  Both are
transfers of served files, so a run of requests refines the model of `FileModel`.
-/

namespace SistOp.FatFuse

open SearchTree

variable {t : FatTable} {env : FuseEnv}

/-! ## Preliminaries -/

theorem exists_mapM {α β : Type} {f : α → Option β} {xs : List α}
    (h : ∀ x ∈ xs, ∃ y, f x = some y) : ∃ ys, xs.mapM f = some ys := by
  induction xs with
  | nil => exact ⟨[], rfl⟩
  | cons x xs ih =>
      obtain ⟨y, hy⟩ := h x (by simp)
      obtain ⟨ys, hys⟩ := ih fun z hz => h z (List.mem_cons_of_mem x hz)
      exact ⟨y :: ys, by simp [List.mapM_cons, hy, hys]⟩

theorem TreeAt.preorderLoop {α : Type} {nodes : Heap (HNode α)} {root : HTree}
    {tree : BinaryTree (ℕ × α)} {fuel : ℕ} (h : TreeAt nodes root tree)
    (hfuel : tree.numNodes < fuel) :
    hTreePreorderLoop nodes fuel root = some ((preorder tree).map Prod.snd) := by
  induction tree generalizing root fuel with
  | nil =>
      obtain ⟨rest, rfl⟩ : ∃ rest, fuel = rest + 1 := ⟨fuel - 1, by omega⟩
      rw [show root = none from h]
      rfl
  | node x l r ihl ihr =>
      obtain ⟨rest, rfl⟩ : ∃ rest, fuel = rest + 1 := ⟨fuel - 1, by omega⟩
      obtain ⟨hroot, n, hn, hdata, hl, hr⟩ := h
      rw [BinaryTree.numNodes] at hfuel
      rw [hroot]
      simp only [hTreePreorderLoop, hn, ihl hl (show _ < rest by omega),
        ihr hr (show _ < rest by omega), Option.bind_eq_bind, Option.bind_some, preorder,
        List.map_cons, List.map_append, hdata]

/-- Printing the tree meets no fault. -/
theorem FileTreeShape.prints {s : FsState} (h : FileTreeShape s) :
    ∃ paths, fatTreePrintPreorder s = some paths := by
  obtain ⟨root, tree, hroot, hat, hnodup, hlive⟩ := h
  have hfuel : tree.numNodes < s.nodes.next + 1 := Nat.lt_succ_of_le (hat.numNodes_le hnodup)
  have hpaths : ∀ a ∈ (preorder tree).map Prod.snd, ∃ path,
      (do let file ← s.files.get a; some file.filepath) = some path := by
    intro a ha
    obtain ⟨x, hx, rfl⟩ := List.mem_map.mp ha
    obtain ⟨f, hf⟩ := hlive x ((preorder_perm_inorder tree).mem_iff.mp hx)
    exact ⟨f.filepath, by simp [hf]⟩
  obtain ⟨paths, hall⟩ := exists_mapM hpaths
  refine ⟨paths, ?_⟩
  unfold fatTreePrintPreorder
  rw [hroot]
  simp only [hTreePreorder, hat.preorderLoop hfuel, Option.bind_eq_bind, Option.bind_some]
  exact hall

theorem exists_fatTablePrint (hentries : 50 ≤ t.fatEntries) (v : Volume) :
    ∃ entries, fatTablePrint t v 0 50 = some entries := by
  apply exists_mapM
  intro c hc
  have hlt : c < 50 := by
    simpa using (List.mem_range'_1.mp hc).2
  exact ⟨v.fatMap c, by simp [fatMapRead, show c < t.fatEntries by omega]⟩

/-- The record as the contents of the buffer on the stack. -/
theorem bufferBytes_buffer (record : CString) :
    bufferBytes (env.buffer record) record.length = record := by
  apply List.ext_getElem
  · simp [bufferBytes]
  · intro i hi hi'
    simp [bufferBytes, FuseEnv.buffer, hi']

theorem splice_end (old data : List UInt8) : splice old data old.length = old ++ data := by
  simp [splice]

theorem logMessage_length_pos {now : ℤ} {operation path record : CString}
    (h : logMessage env now operation path = some record) : 0 < record.length := by
  simp only [logMessage, Option.bind_eq_bind, Option.bind_eq_some_iff] at h
  obtain ⟨login, -, h⟩ := h
  split at h
  · rw [← Option.some.inj h]
    simp
  · contradiction

/-! ## Transfers of served files -/

/-- The clusters that a file takes from the free ones to hold `n` bytes. -/
def newClusters (t : FatTable) (o : ServedFile) (n : ℕ) : ℕ :=
  clustersFor t n - o.chain.length

section Serving

variable {s : FsState} {logNode : ℕ} {opened : Set ℕ} {served : ℕ → ServedFile}

/-- `s'` is `s` after a transfer of the file `a`, which is now `f'` on a chain with the new
clusters `new` and holds `content`. -/
structure TransferOf (t : FatTable) (s s' : FsState) (logNode : ℕ) (opened : Set ℕ)
    (served : ℕ → ServedFile) (a : ℕ) (f' : FatFile) (new : List ℕ)
    (content : List UInt8) : Prop where
  serving : Serving t s' logNode opened
    (Function.update served a ((served a).after f' new))
  path : f'.filepath = (served a).file.filepath
  content : ((served a).after f' new).content t s'.vol = content
  others : ∀ b ∈ insert logNode opened, b ≠ a →
    (served b).content t s'.vol = (served b).content t s.vol
  free : (freeClusters t s.vol.fatMap).card =
    (freeClusters t s'.vol.fatMap).card + new.length

theorem Serving.pwriteFile [t.Formatted] (hmarks : t.ClusterNumbersBelowMarks)
    (h : Serving t s logNode opened served) {a : ℕ} (ha : a ∈ insert logNode opened)
    (buf : ℤ → UInt8) (size : ℕ) {offset : ℕ}
    (hoffset : offset ≤ (served a).file.dentry.fileSize) (hsize : 0 < size)
    (hend : offset + size < 2 ^ 32)
    (hroom : newClusters t (served a) (offset + size) ≤
      (freeClusters t s.vol.fatMap).card) :
    ∃ s' f' new, FatFuse.pwriteFile t s (served a).object buf size offset
          (some (served a).dirObject) = some ((size : ℤ), s') ∧
        TransferOf t s s' logNode opened served a f' new
          (splice ((served a).content t s.vol) (bufferBytes buf size) offset) ∧
        new.length ≤ newClusters t (served a) (offset + size) := by
  have hloaded := h.loaded a ha
  have hspace : clustersFor t (offset + size) ≤
      ((served a).file.startCluster :: (served a).clusters).length +
        (freeClusters t s.vol.fatMap).card := by
    unfold newClusters ServedFile.chain at hroom
    omega
  obtain ⟨f', v', new, hwrite, hdone, hlength, -, hcontent⟩ := fatFilePwrite_transfers hmarks buf
    hloaded.onChain h.succeeds h.errno hloaded.slot hloaded.dirUsed (h.dirsApart a ha a ha)
    hoffset hsize hend hspace
  obtain ⟨files', hfiles, hresult⟩ := pwriteFile_eq hloaded.file hloaded.dir hwrite
  obtain ⟨hserving, hothers⟩ := h.transferred ha hdone hfiles
  refine ⟨_, f', new, hresult, ⟨hserving, hdone.entry.filepath, hcontent, hothers,
    hdone.grown.card_freeClusters hloaded.onChain.chain.used⟩, ?_⟩
  unfold newClusters ServedFile.chain
  rw [List.length_append] at hlength
  omega

theorem Serving.preadFile [t.Formatted] (hmarks : t.ClusterNumbersBelowMarks)
    (h : Serving t s logNode opened served) {a : ℕ} (ha : a ∈ insert logNode opened)
    (buf : ℤ → UInt8) (size : ℕ) {offset : ℕ}
    (hoffset : offset ≤ (served a).file.dentry.fileSize) :
    ∃ s' f' buf', FatFuse.preadFile t s (served a).object buf size offset
          (some (served a).dirObject) =
          some ((readSize (served a).file size offset : ℤ), buf', s') ∧
        bufferBytes buf' (readSize (served a).file size offset) =
          slice ((served a).content t s.vol) offset size ∧
        TransferOf t s s' logNode opened served a f' [] ((served a).content t s.vol) ∧
        s'.vol.fatMap = s.vol.fatMap ∧
        s'.vol.clock = fun n => s.vol.clock
          (if readSize (served a).file size offset = 0 then n else n + 1) := by
  have hloaded := h.loaded a ha
  obtain ⟨f', v', hread, hdone, -, hcontent, hmap, hclock⟩ :=
    fatFilePread_transfers hmarks buf size hloaded.onChain h.succeeds h.errno hloaded.slot
      (h.dirsApart a ha a ha) hoffset
  obtain ⟨files', hfiles⟩ := Heap.exists_write hloaded.file f'
  obtain ⟨hserving, hothers⟩ := h.transferred ha hdone hfiles
  refine ⟨{ s with vol := v', files := files' }, f', _, ?_,
    bufferBytes_readInto buf size offset, ⟨hserving, hdone.entry.filepath, ?_, hothers,
      hdone.grown.card_freeClusters hloaded.onChain.chain.used⟩, hmap, hclock⟩
  · simp only [FatFuse.preadFile, FsState.deref, hloaded.file, hloaded.dir, Option.bind_eq_bind,
      Option.bind_some, hread, hfiles]
  · unfold ServedFile.content ServedFile.after
    rw [List.append_nil]
    exact hcontent

/-- The log takes one complete record. -/
theorem Serving.logActivity [t.Formatted] (hmarks : t.ClusterNumbersBelowMarks)
    (h : Serving t s logNode opened served) {a : ℕ} (ha : a ∈ opened)
    {operation record : CString}
    (hrecord : logMessage env (s.vol.clock 0) operation (served a).file.filepath =
      some record)
    (hend : (served logNode).file.dentry.fileSize + record.length < 2 ^ 32)
    (hroom : newClusters t (served logNode)
        ((served logNode).file.dentry.fileSize + record.length) ≤
      (freeClusters t s.vol.fatMap).card) :
    ∃ s' f' new, fatFuseLogActivity t env s operation (served a).object =
        some ((record.length : ℤ), s') ∧
      TransferOf t s s' logNode opened served logNode f' new
        ((served logNode).content t s.vol ++ record) ∧
      new.length ≤ newClusters t (served logNode)
        ((served logNode).file.dentry.fileSize + record.length) := by
  have hlater := h.tick fun n => s.vol.clock (n + 1)
  obtain ⟨s', f', new, hwrite, hdone, hlength⟩ := hlater.pwriteFile hmarks Serving.log_mem
    (env.buffer record) _ le_rfl (logMessage_length_pos hrecord) hend hroom
  have hlog := h.loaded logNode Serving.log_mem
  have hpath := h.notLog a ha
  refine ⟨s', f', new, ?_, ?_, hlength⟩
  · have hfile := (h.loaded a (Serving.opened_mem ha)).file
    have hpos := logMessage_length_pos hrecord
    simp only [fatFuseLogActivity, time, hfile, hrecord, Option.bind_eq_bind, Option.bind_some,
      ne_eq, hpath, not_false_eq_true, if_true, hlater.log,
      hlater.getFile Serving.log_mem, hlog.file, hlog.regular, Bool.false_eq_true, if_false,
      hlater.getParent Serving.log_mem, hpos.ne', hwrite]
  · have hcontent := hdone.content
    rw [bufferBytes_buffer] at hcontent
    refine ⟨hdone.serving, hdone.path, ?_, hdone.others, hdone.free⟩
    rw [hcontent, ← length_fileContent s.vol (served logNode).file (served logNode).clusters]
    exact splice_end _ _

end Serving

/-! ## Requests -/

def serve (t : FatTable) (env : FuseEnv) (s : FsState) :
    FileRequest → Option (FileResponse × FsState)
  | .read buf size offset fh =>
      (fatFuseRead t env s buf size offset fh).map fun r =>
        (.read r.1 (bufferBytes r.2.1 r.1.toNat), r.2.2)
  | .write buf size offset fh =>
      (fatFuseWrite t env s buf size offset fh).map fun r => (.written r.1, r.2)

/-- Serves requests in order and collects the responses. -/
def serveAll (t : FatTable) (env : FuseEnv) :
    FsState → List FileRequest → Option (List FileResponse × FsState)
  | s, [] => some ([], s)
  | s, request :: requests => do
      let (response, s) ← serve t env s request
      let (responses, s) ← serveAll t env s requests
      some (response :: responses, s)

/-- The record of an operation at the time `now` fits into its buffer and into the log,
and with `more` other clusters there are enough free ones. -/
def RecordFits (t : FatTable) (env : FuseEnv) (s : FsState) (logNode : ℕ)
    (served : ℕ → ServedFile) (operation : CString) (fh : ℕ) (now : ℤ) (more : ℕ) : Prop :=
  ∃ record, logMessage env now operation (served fh).file.filepath = some record ∧
    (served logNode).file.dentry.fileSize + record.length < 2 ^ 32 ∧
    newClusters t (served logNode)
        ((served logNode).file.dentry.fileSize + record.length) + more ≤
      (freeClusters t s.vol.fatMap).card

/-- What a request has to meet: an offset inside the file, bytes to write, sizes of 32
bits, a record that fits, and enough free clusters. -/
def Allowed (t : FatTable) (env : FuseEnv) (s : FsState) (logNode : ℕ)
    (served : ℕ → ServedFile) : FileRequest → Prop
  | .read _ size offset fh =>
      offset ≤ (served fh).file.dentry.fileSize ∧
        RecordFits t env s logNode served opRead fh
          (s.vol.clock (if readSize (served fh).file size offset = 0 then 0 else 1)) 0
  | .write _ size offset fh =>
      offset ≤ (served fh).file.dentry.fileSize ∧ 0 < size ∧ offset + size < 2 ^ 32 ∧
        RecordFits t env s logNode served opWrite fh (s.vol.clock 0)
          (newClusters t (served fh) (offset + size))

/-- Every request of a list is to an open file and meets its condition when it is served. -/
def Admissible (t : FatTable) (env : FuseEnv) (logNode : ℕ) (opened : Set ℕ) :
    FsState → List FileRequest → Prop
  | _, [] => True
  | s, request :: requests =>
      request.handle ∈ opened ∧
        (∀ served, Serving t s logNode opened served →
          Allowed t env s logNode served request) ∧
        ∀ response s', serve t env s request = some (response, s') →
          Admissible t env logNode opened s' requests

/-- The state holds what the model says. -/
structure Refines (t : FatTable) (s : FsState) (logNode : ℕ) (opened : Set ℕ)
    (served : ℕ → ServedFile) (m : FileModel) : Prop where
  content : ∀ a ∈ opened, m.content a = (served a).content t s.vol
  path : ∀ a ∈ opened, m.path a = (served a).file.filepath
  log : m.log = (served logNode).content t s.vol

/-- The model that a state holds. -/
def modelOf (t : FatTable) (s : FsState) (logNode : ℕ) (served : ℕ → ServedFile) :
    FileModel where
  content := fun a => (served a).content t s.vol
  path := fun a => (served a).file.filepath
  log := (served logNode).content t s.vol

section Requests

variable {s : FsState} {logNode : ℕ} {opened : Set ℕ} {served : ℕ → ServedFile}
  {m : FileModel}

theorem serve_write_refines [t.Formatted] (hmarks : t.ClusterNumbersBelowMarks)
    (h : Serving t s logNode opened served) (hmodel : Refines t s logNode opened served m)
    {buf : ℤ → UInt8} {size offset fh : ℕ} (hfh : fh ∈ opened)
    (hallowed : Allowed t env s logNode served (.write buf size offset fh)) :
    ∃ response s' served' m', serve t env s (.write buf size offset fh) = some (response, s') ∧
      Serving t s' logNode opened served' ∧ Refines t s' logNode opened served' m' ∧
      ModelStep env m (.write buf size offset fh) response m' := by
  obtain ⟨hoffset, hsize, hend, record, hrecord, hlogEnd, hroom⟩ := hallowed
  have hisRecord : IsRecord env opWrite (m.path fh) record := by
    rw [hmodel.path fh hfh]
    exact ⟨_, hrecord⟩
  have hmem : fh ∈ insert logNode opened := Serving.opened_mem hfh
  have hne := h.ne_log hfh
  obtain ⟨s₁, log, added, hlog, hlogged, hadded⟩ := h.logActivity hmarks hfh hrecord hlogEnd
    (by omega)
  have hsame : ∀ b, b ≠ logNode →
      Function.update served logNode ((served logNode).after log added) b = served b :=
    fun b hb => Function.update_of_ne hb _ _
  have hwriting := hlogged.serving.pwriteFile (a := fh) hmarks hmem buf size
    (by rw [hsame fh hne]; exact hoffset) hsize hend
    (by rw [hsame fh hne]; have := hlogged.free; omega)
  rw [hsame fh hne] at hwriting
  obtain ⟨s₂, f', new, hwrite, hwrote, -⟩ := hwriting
  refine ⟨.written size, s₂, _, { m with
      content := Function.update m.content fh
        (splice (m.content fh) (bufferBytes buf size) offset)
      log := m.log ++ record }, ?_, hwrote.serving, ⟨fun a ha => ?_, fun a ha => ?_, ?_⟩,
    ModelStep.write m buf size offset fh record hisRecord⟩
  · have hfile := (h.loaded fh hmem).file
    simp only [serve, fatFuseWrite, h.getFile hmem, h.getParent hmem, Option.bind_eq_bind,
      Option.bind_some, if_neg hsize.ne', hfile, if_neg (Nat.not_lt.mpr hoffset), hlog, hwrite,
      Option.map_some]
  · by_cases hafh : a = fh
    · subst hafh
      have hcontent := hwrote.content
      have hbefore := hlogged.others a hmem hne
      simp only [hsame a hne] at hcontent ⊢
      simp only [Function.update_self]
      rw [hcontent, hbefore, hmodel.content a ha]
    · have hmemA : a ∈ insert logNode opened := Serving.opened_mem ha
      have hneA := h.ne_log ha
      have hafter := hwrote.others a hmemA hafh
      have hbefore := hlogged.others a hmemA hneA
      simp only [Function.update_of_ne hafh, hsame a hneA] at hafter ⊢
      rw [hafter, hbefore, hmodel.content a ha]
  · have hneA := h.ne_log ha
    by_cases hafh : a = fh
    · subst hafh
      have hpath := hwrote.path
      rw [hsame a hneA] at hpath
      simp only [Function.update_self]
      rw [hmodel.path a ha]
      exact hpath.symm
    · simp only [Function.update_of_ne hafh, hsame a hneA]
      exact hmodel.path a ha
  · have hafter := hwrote.others logNode Serving.log_mem (Ne.symm hne)
    simp only [Function.update_of_ne (Ne.symm hne), Function.update_self] at hafter ⊢
    rw [hafter, hlogged.content, hmodel.log]

theorem serve_read_refines [t.Formatted] (hmarks : t.ClusterNumbersBelowMarks)
    (hentries : 50 ≤ t.fatEntries) (h : Serving t s logNode opened served)
    (hmodel : Refines t s logNode opened served m)
    {buf : ℤ → UInt8} {size offset fh : ℕ} (hfh : fh ∈ opened)
    (hallowed : Allowed t env s logNode served (.read buf size offset fh)) :
    ∃ response s' served' m', serve t env s (.read buf size offset fh) = some (response, s') ∧
      Serving t s' logNode opened served' ∧ Refines t s' logNode opened served' m' ∧
      ModelStep env m (.read buf size offset fh) response m' := by
  obtain ⟨hoffset, record, hrecord, hlogEnd, hroom⟩ := hallowed
  have hisRecord : IsRecord env opRead (m.path fh) record := by
    rw [hmodel.path fh hfh]
    exact ⟨_, hrecord⟩
  have hmem : fh ∈ insert logNode opened := Serving.opened_mem hfh
  have hne := h.ne_log hfh
  obtain ⟨s₁, f', buf', hread, hbytes, hdone, hmap, hclock⟩ :=
    h.preadFile hmarks hmem buf size hoffset
  have hlogSame : Function.update served fh ((served fh).after f' []) logNode =
      served logNode := Function.update_of_ne (Ne.symm hne) _ _
  have hrecord₁ : logMessage env (s₁.vol.clock 0) opRead
      (Function.update served fh ((served fh).after f' []) fh).file.filepath = some record := by
    rw [Function.update_self, hclock, show ((served fh).after f' []).file.filepath =
      (served fh).file.filepath from hdone.path]
    simpa using hrecord
  have hlogging := hdone.serving.logActivity hmarks hfh hrecord₁
    (by rw [hlogSame]; exact hlogEnd) (by rw [hlogSame, hmap]; omega)
  rw [Function.update_self, hlogSame] at hlogging
  obtain ⟨s₂, log, added, hlog, hlogged, -⟩ := hlogging
  obtain ⟨paths, hpaths⟩ := hlogged.serving.shape.prints
  obtain ⟨entries, hprinted⟩ := exists_fatTablePrint hentries s₂.vol
  have hlength := length_slice_fileContent (t := t) s.vol (served fh).file (served fh).clusters
    size offset
  have hcontentFh : m.content fh = fileContent t s.vol (served fh).file (served fh).clusters :=
    hmodel.content fh hfh
  refine ⟨.read (slice (m.content fh) offset size).length (slice (m.content fh) offset size), s₂, _,
    { m with log := m.log ++ record }, ?_, hlogged.serving, ⟨fun a ha => ?_, fun a ha => ?_, ?_⟩,
    ModelStep.read m buf size offset fh record hisRecord⟩
  · have herrno : s₁.errno = 0 := hdone.serving.errno
    have hobject : ((served fh).after f' []).object = (served fh).object := rfl
    rw [hobject] at hlog
    simp only [serve, fatFuseRead, h.setErrno, h.getFile hmem, h.getParent hmem,
      Option.bind_eq_bind, Option.bind_some, hread, herrno, ne_eq, not_true_eq_false, if_false,
      hlog, hpaths, hprinted, Option.map_some, Int.toNat_natCast, hbytes]
    rw [hcontentFh, hlength]
    rfl
  · have hneA := h.ne_log ha
    have hafter := hlogged.others a (Serving.opened_mem ha) hneA
    by_cases hafh : a = fh
    · subst hafh
      simp only [Function.update_self, Function.update_of_ne hneA] at hafter ⊢
      rw [hafter, hdone.content, hmodel.content a ha]
    · have hbefore := hdone.others a (Serving.opened_mem ha) hafh
      simp only [Function.update_of_ne hafh, Function.update_of_ne hneA] at hafter ⊢
      rw [hafter, hbefore, hmodel.content a ha]
  · have hneA := h.ne_log ha
    by_cases hafh : a = fh
    · subst hafh
      simp only [Function.update_self, Function.update_of_ne hneA]
      rw [hmodel.path a ha]
      exact hdone.path.symm
    · simp only [Function.update_of_ne hafh, Function.update_of_ne hneA]
      exact hmodel.path a ha
  · have hbefore := hdone.others logNode Serving.log_mem (Ne.symm hne)
    have hcontent := hlogged.content
    rw [hlogSame, hbefore] at hcontent
    simp only [Function.update_self]
    rw [hlogSame, hcontent, hmodel.log]

/-- Every allowed request is served as the model says. -/
theorem serve_refines [t.Formatted] (hmarks : t.ClusterNumbersBelowMarks)
    (hentries : 50 ≤ t.fatEntries) (h : Serving t s logNode opened served)
    (hmodel : Refines t s logNode opened served m)
    {request : FileRequest} (hopen : request.handle ∈ opened)
    (hallowed : Allowed t env s logNode served request) :
    ∃ response s' served' m', serve t env s request = some (response, s') ∧
      Serving t s' logNode opened served' ∧ Refines t s' logNode opened served' m' ∧
      ModelStep env m request response m' := by
  cases request with
  | read buf size offset fh => exact serve_read_refines hmarks hentries h hmodel hopen hallowed
  | write buf size offset fh => exact serve_write_refines hmarks h hmodel hopen hallowed

theorem serveAll_refines [t.Formatted] (hmarks : t.ClusterNumbersBelowMarks)
    (hentries : 50 ≤ t.fatEntries) {requests : List FileRequest}
    (h : Serving t s logNode opened served)
    (hmodel : Refines t s logNode opened served m)
    (hrun : Admissible t env logNode opened s requests) :
    ∃ responses s' served' m', serveAll t env s requests = some (responses, s') ∧
      Serving t s' logNode opened served' ∧ Refines t s' logNode opened served' m' ∧
      ModelRun env m requests responses m' := by
  induction requests generalizing s served m with
  | nil => exact ⟨[], s, served, m, rfl, h, hmodel, ModelRun.nil m⟩
  | cons request requests ih =>
      obtain ⟨hopen, hallowed, hrest⟩ := hrun
      obtain ⟨response, s₁, served₁, m₁, hserve, hserving, hmodel₁, hstep⟩ :=
        serve_refines hmarks hentries h hmodel hopen (hallowed served h)
      obtain ⟨responses, s', served', m', hall, hserving', hmodel', hsteps⟩ :=
        ih hserving hmodel₁ (hrest response s₁ hserve)
      refine ⟨response :: responses, s', served', m', ?_, hserving', hmodel',
        ModelRun.cons hstep hsteps⟩
      simp only [serveAll, hserve, hall, Option.bind_eq_bind, Option.bind_some]

end Requests

theorem modelOf_refines (s : FsState) (logNode : ℕ) (opened : Set ℕ)
    (served : ℕ → ServedFile) :
    Refines t s logNode opened served (modelOf t s logNode served) :=
  ⟨fun _ _ => rfl, fun _ _ => rfl, rfl⟩

/-- A run of admissible requests is served without a fault and refines the model: every
content is its initial bytes with its own writes applied in order, every read returns a
slice of that, and the log grows by one complete record for each request.  The table is
formatted. -/
theorem readsAndWrites_refine [t.Formatted] (hmarks : t.ClusterNumbersBelowMarks)
    (hentries : 50 ≤ t.fatEntries) {s : FsState} {logNode : ℕ} {opened : Set ℕ}
    {served : ℕ → ServedFile} {requests : List FileRequest}
    (h : Serving t s logNode opened served)
    (hrun : Admissible t env logNode opened s requests) :
    ∃ responses s' served' m', serveAll t env s requests = some (responses, s') ∧
      Serving t s' logNode opened served' ∧
      ModelRun env (modelOf t s logNode served) requests responses m' ∧
      Refines t s' logNode opened served' m' ∧
      (∀ a ∈ opened, (served' a).content t s'.vol =
        ownWrites a requests ((served a).content t s.vol)) ∧
      (∀ before after buf size offset fh,
        requests = before ++ .read buf size offset fh :: after →
        let bytes := slice (ownWrites fh before ((served fh).content t s.vol)) offset size
        responses[before.length]? = some (.read bytes.length bytes)) ∧
      ∃ records : List CString,
        List.Forall₂ (fun request record =>
          IsRecord env request.operation (served request.handle).file.filepath record)
          requests records ∧
        (served' logNode).content t s'.vol =
          (served logNode).content t s.vol ++ records.flatten := by
  obtain ⟨responses, s', served', m', hall, hserving', hmodel', hsteps⟩ :=
    serveAll_refines hmarks hentries h (modelOf_refines s logNode opened served) hrun
  refine ⟨responses, s', served', m', hall, hserving', hsteps, hmodel', fun a ha => ?_,
    fun before after buf size offset fh hsplit => ?_, ?_⟩
  · rw [← hmodel'.content a ha]
    exact hsteps.content a
  · subst hsplit
    exact hsteps.read
  · obtain ⟨records, hrecords, hlog⟩ := hsteps.log
    refine ⟨records, hrecords, ?_⟩
    rw [← hmodel'.log]
    exact hlog

/-! ## One open file -/

/-- A directory and a file without content. -/
def emptyDir (path : CString) (startCluster : ℕ) (hlt : startCluster < 2 ^ 32) : FatFile :=
  { emptyFile startCluster hlt with
    dentry := FatDirEntry.zero.setAttribs fileAttributeDirectory
    filepath := path }

def emptyAt (path : CString) (startCluster : ℕ) (hlt : startCluster < 2 ^ 32) : FatFile :=
  { emptyFile startCluster hlt with filepath := path }

def treeNode (data : ℕ) (left right hParent : HTree) : HNode ℕ where
  data := data
  right := right
  left := left
  hParent := hParent
  hNextSibling := none
  hChildren := none
  size := 1

theorem rootCluster_lt : 2 < 2 ^ 32 := by decide

theorem bbCluster_lt : 3 < 2 ^ 32 := by decide

theorem logCluster_lt : 4 < 2 ^ 32 := by decide

theorem aCluster_lt : 5 < 2 ^ 32 := by decide

/-- The root, the log directory with its log, and the empty file `/a`. -/
def oneFileState : FsState where
  vol := smallVolume [fatClusterEndOfChainMax, fatClusterBadSector, fatClusterEndOfChainMax,
    fatClusterEndOfChainMax]
  files := (((Heap.empty.alloc (emptyDir rootPath 2 rootCluster_lt)).alloc
    (emptyDir bbDirname 3 bbCluster_lt)).alloc (emptyAt bbLogFile 4 logCluster_lt)).alloc
    (emptyAt [charSlash, 0x61] 5 aCluster_lt)
  nodes := (((Heap.empty.alloc (treeNode 0 none (some 1) none)).alloc
    (treeNode 1 (some 3) (some 2) (some 0))).alloc (treeNode 2 none none (some 1))).alloc
    (treeNode 3 none none (some 0))
  fileTree := some (some 0)

def oneFileServed (a : ℕ) : ServedFile :=
  if a = 2 then ⟨2, emptyAt bbLogFile 4 logCluster_lt, 1, emptyDir bbDirname 3 bbCluster_lt, []⟩
  else ⟨3, emptyAt [charSlash, 0x61] 5 aCluster_lt, 0, emptyDir rootPath 2 rootCluster_lt, []⟩

theorem oneFileServed_loaded {a : ℕ} (ha : a ∈ insert 2 ({3} : Set ℕ)) :
    (oneFileServed a).Loaded wideTable oneFileState a := by
  have hchain : ∀ c, fatTableIsValidClusterNumber wideTable c →
      oneFileState.vol.fatMap c = fatClusterEndOfChainMax →
      ClusterChain wideTable oneFileState.vol.fatMap [c] := by
    intro c hc heoc
    refine ⟨?_, by simpa using hc, by simp [heoc]⟩
    simp [chainNext, heoc, not_valid_endOfChain (t := wideTable) (by decide)]
  rcases ha with rfl | rfl
  · exact ⟨⟨treeNode 2 none none (some 1), 1, treeNode 1 (some 3) (some 2) (some 0), rfl, rfl,
      rfl, rfl, rfl⟩, rfl, rfl, by decide, by decide, by decide,
      ⟨hchain 4 (by decide) rfl, by decide⟩, by decide⟩
  · exact ⟨⟨treeNode 3 none none (some 0), 0, treeNode 0 none (some 1) none, rfl, rfl,
      rfl, rfl, rfl⟩, rfl, rfl, by decide, by decide, by decide,
      ⟨hchain 5 (by decide) rfl, by decide⟩, by decide⟩

theorem oneFileState_serving : Serving wideTable oneFileState 2 {3} oneFileServed := by
  refine ⟨fun a ha => oneFileServed_loaded ha, ?_, ?_, ?_, ?_, by rfl, ?_, rfl, rfl, rfl⟩
  · rintro a (rfl | rfl) b (rfl | rfl) <;> decide
  · rintro a (rfl | rfl) b (rfl | rfl) <;>
      simp [oneFileServed, ServedFile.chain, emptyAt, emptyFile]
  · rintro a (rfl | rfl) b (rfl | rfl) <;> decide
  · rintro a rfl
    decide
  · refine ⟨some 0, .node (0, 0) .nil (.node (1, 1) (.node (3, 3) .nil .nil)
      (.node (2, 2) .nil .nil)), rfl, ?_, by decide, ?_⟩
    · exact ⟨rfl, _, rfl, rfl, rfl, rfl, _, rfl, rfl, ⟨rfl, _, rfl, rfl, rfl, rfl⟩,
        ⟨rfl, _, rfl, rfl, rfl, rfl⟩⟩
    · intro x hx
      simp at hx
      rcases hx with rfl | rfl | rfl | rfl <;> exact ⟨_, rfl⟩

/-- Writing a byte to the empty file. -/
theorem readsAndWrites_refine_oneFile :
    ∃ (responses : List FileResponse) (s' : FsState) (served' : ℕ → ServedFile),
      serveAll wideTable plainEnv oneFileState [.write (fun _ => 0x41) 1 0 3] =
          some (responses, s') ∧
        Serving wideTable s' 2 {3} served' ∧
        (served' 3).content wideTable s'.vol = [0x41] := by
  have hfiles : ∀ served, Serving wideTable oneFileState 2 {3} served →
      ∀ a ∈ insert 2 ({3} : Set ℕ), (served a).file = (oneFileServed a).file := by
    intro served h a ha
    obtain ⟨n, parent, m, hn, hdata, -⟩ := (h.loaded a ha).nodes
    obtain ⟨n', parent', m', hn', hdata', -⟩ := (oneFileServed_loaded ha).nodes
    obtain rfl := Option.some.inj (hn.symm.trans hn')
    have hfile := (h.loaded a ha).file
    rw [← hdata, hdata', (oneFileServed_loaded ha).file] at hfile
    exact (Option.some.inj hfile).symm
  have hrun : Admissible wideTable plainEnv 2 {3} oneFileState
      [.write (fun _ => 0x41) 1 0 3] := by
    refine ⟨rfl, fun served h => ?_, fun _ _ _ => trivial⟩
    have hfile := hfiles served h 3 (by simp)
    have hlog := hfiles served h 2 (by simp)
    have hshort : ∀ a n, n ≤ 32 → newClusters wideTable (served a) n = 0 := by
      intro a n hn
      have hneed : clustersFor wideTable n ≤ 1 := by
        unfold clustersFor
        show (n + 32 - 1) / 32 ≤ 1
        omega
      simp only [newClusters, ServedFile.chain, List.length_cons]
      omega
    refine ⟨by rw [hfile]; decide, by decide, by decide, _, by rw [hfile]; rfl, ?_, ?_⟩
    · rw [hlog]
      decide
    · rw [hlog, hshort 2 _ (by decide), hshort 3 _ (by decide)]
      exact Nat.zero_le _
  obtain ⟨responses, s', served', m', hall, hserving, -, -, hcontent, -⟩ :=
    readsAndWrites_refine (by decide) (by decide) oneFileState_serving hrun
  refine ⟨responses, s', served', hall, hserving, ?_⟩
  rw [hcontent 3 rfl]
  decide

end SistOp.FatFuse
