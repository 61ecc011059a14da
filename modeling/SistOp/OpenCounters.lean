import SistOp.HierarchyHistory
import SistOp.DirectoryRemoval
import SistOp.StaleErrno
import SistOp.FileTransfers
import Mathlib.Tactic

/-!
# Open counters

Opening and releasing a handle count at the node of the handle and at every node above
it, so a counter is a number of handles below its node.  `fat_fuse_truncate` counts like
an open and leaves no handle.
-/

namespace SistOp.FatFuse

variable {t : FatTable} {env : FuseEnv} {α : Type}

/-! ## Handles -/

/-- The node `h` is `a` or lies below it in the hierarchy. -/
def Below (nodes : Heap (HNode α)) (a h : ℕ) : Prop :=
  ∃ as, nodes.ListFrom HNode.hParent (some h) as ∧ a ∈ as

open Classical in
/-- The number of handles whose node is `a` or lies below it. -/
noncomputable def openBelow (nodes : Heap (HNode α)) (handles : List ℕ) (a : ℕ) : ℕ :=
  handles.countP fun h => decide (Below nodes a h)

/-- The handles that are open after a request that returned. -/
def handlesAfter (s : FsState) (handles : List ℕ) : FuseOp → List ℕ
  | .open path => ((fatFuseOpen s path).bind fun r => r.2.1).toList ++ handles
  | .opendir path => ((fatFuseOpendir s path).bind fun r => r.2.1).toList ++ handles
  | .release fh => handles.erase fh
  | .releasedir fh => handles.erase fh
  | _ => handles

/-- The requests of a client that lists, makes and removes no directories and closes only
what it opened. -/
def ClientRequest (handles : List ℕ) : FuseOp → Prop
  | .open _ | .opendir _ | .mknod _ | .read .. | .write .. | .truncate .. | .utime .. => True
  | .release fh | .releasedir fh => fh ∈ handles
  | .getattr _ | .readdir .. | .mkdir _ | .unlink _ | .rmdir _ => False

/-- Requests that satisfy `ok`, and the handles they leave open. -/
inductive HandleRun (t : FatTable) (env : FuseEnv) (ok : FsState → List ℕ → FuseOp → Prop) :
    FsState → List ℕ → FsState → List ℕ → Prop
  | nil (s : FsState) (handles : List ℕ) : HandleRun t env ok s handles s handles
  | cons {s s' s'' : FsState} {handles handles'' : List ℕ} {op : FuseOp} {result : ℤ}
      (request : ClientRequest handles op) (allowed : ok s handles op)
      (step : fuseStep t env s op = some (result, s'))
      (rest : HandleRun t env ok s' (handlesAfter s handles op) s'' handles'') :
      HandleRun t env ok s handles s'' handles''

/-- The requests that count as they should: a truncation finds no file to count at, and
the 31 bits of the counters have room for one more handle. -/
def CountsHandles (s : FsState) (handles : List ℕ) : FuseOp → Prop
  | .open _ | .opendir _ => handles.length + 1 < 2 ^ 31
  | .truncate path _ => ∀ node n f, fatTreeNodeSearch s path = some (some node) →
      NodeFile s node n f → fatFileIsDirectory f = true
  | _ => True

theorem openBelow_le (nodes : Heap (HNode α)) (handles : List ℕ) (a : ℕ) :
    openBelow nodes handles a ≤ handles.length := List.countP_le_length

theorem openBelow_cons (nodes : Heap (HNode α)) (h : ℕ) (handles : List ℕ) (a : ℕ)
    [Decidable (Below nodes a h)] :
    openBelow nodes (h :: handles) a =
      openBelow nodes handles a + if Below nodes a h then 1 else 0 := by
  unfold openBelow
  rw [List.countP_cons]
  by_cases hbelow : Below nodes a h <;> simp [hbelow]

/-- Closing one of the open handles. -/
theorem openBelow_erase (nodes : Heap (HNode α)) {h : ℕ} {handles : List ℕ} (a : ℕ)
    (hmem : h ∈ handles) [Decidable (Below nodes a h)] :
    openBelow nodes (handles.erase h) a + (if Below nodes a h then 1 else 0) =
      openBelow nodes handles a := by
  rw [← openBelow_cons]
  unfold openBelow
  exact (List.perm_cons_erase hmem).symm.countP_eq _

/-- No handle lies below a node that is not there yet. -/
theorem openBelow_next (nodes : Heap (HNode α)) (handles : List ℕ) :
    openBelow nodes handles nodes.next = 0 := by
  apply List.countP_eq_zero.mpr
  intro h _ hbelow
  simp only [decide_eq_true_eq] at hbelow
  obtain ⟨as, hlist, hmem⟩ := hbelow
  obtain ⟨n, hn⟩ := hlist.live hmem
  exact absurd (Heap.lt_next hn) (lt_irrefl _)

theorem openBelow_congr {nodes nodes' : Heap (HNode α)} {handles : List ℕ} {a : ℕ}
    (h : ∀ x ∈ handles, Below nodes' a x ↔ Below nodes a x) :
    openBelow nodes' handles a = openBelow nodes handles a := by
  unfold openBelow
  apply List.countP_congr
  intro x hx
  simp [h x hx]

/-! ## Requests that do not count -/

theorem fatUtime_file {v v' : Volume} {f f' : FatFile} {p : Option FatFile}
    {actime modtime : ℤ} (h : fatUtime t v f p actime modtime = some (f', v')) :
    DentryOnly f f' := by
  simp only [fatUtime, Option.bind_eq_bind, Option.bind_eq_some_iff, Option.some.injEq,
    Prod.mk.injEq] at h
  obtain ⟨w, -, rfl, -⟩ := h
  exact ⟨_, rfl⟩

theorem fatFilePread_file {v v' : Volume} {f f' : FatFile} {p : Option FatFile}
    {buf buf' : ℤ → UInt8} {size offset : ℕ} {r : ℤ}
    (h : fatFilePread t v f buf size offset p = some (r, buf', f', v')) :
    DentryOnly f f' := by
  simp only [fatFilePread, Option.bind_eq_bind] at h
  split at h
  · obtain ⟨-, -, rfl, -⟩ := by simpa only [Option.some.injEq, Prod.mk.injEq] using h
    exact DentryOnly.refl f
  split at h
  · obtain ⟨-, -, rfl, -⟩ := by simpa only [Option.some.injEq, Prod.mk.injEq] using h
    exact DentryOnly.refl f
  simp only [Option.bind_eq_some_iff, Prod.exists] at h
  obtain ⟨cluster, v₁, -, h⟩ := h
  split at h
  · obtain ⟨-, -, rfl, -⟩ := by simpa only [Option.some.injEq, Prod.mk.injEq] using h
    exact DentryOnly.refl f
  · simp only [Option.bind_eq_some_iff, Option.some.injEq, Prod.mk.injEq, Prod.exists] at h
    obtain ⟨_, _, _, -, _, -, -, -, rfl, -⟩ := h
    exact ⟨_, rfl⟩

theorem fatFilePwrite_file {v v' : Volume} {f f' : FatFile} {p : Option FatFile}
    {buf : ℤ → UInt8} {size offset : ℕ} {r : ℤ}
    (h : fatFilePwrite t v f buf size offset p = some (r, f', v')) : DentryOnly f f' := by
  simp only [fatFilePwrite, Option.bind_eq_bind] at h
  split at h
  · obtain ⟨-, rfl, -⟩ := by simpa only [Option.some.injEq, Prod.mk.injEq] using h
    exact DentryOnly.refl f
  simp only [Option.bind_eq_some_iff, Prod.exists] at h
  obtain ⟨cluster, v₁, -, h⟩ := h
  split at h
  · obtain ⟨-, rfl, -⟩ := by simpa only [Option.some.injEq, Prod.mk.injEq] using h
    exact DentryOnly.refl f
  · simp only [Option.bind_eq_some_iff, Option.some.injEq, Prod.mk.injEq, Prod.exists] at h
    obtain ⟨_, _, -, _, -, -, rfl, -⟩ := h
    exact ⟨_, rfl⟩

/-- The nodes are the same, and so is every counter. -/
structure SameCounts (s s' : FsState) : Prop where
  nodes : s'.nodes = s.nodes
  next : s'.files.next = s.files.next
  files : ∀ a, (s'.files.get a).map FatFile.numTimesOpened =
    (s.files.get a).map FatFile.numTimesOpened

theorem SameCounts.of_vol {s s' : FsState} (hnodes : s'.nodes = s.nodes)
    (hfiles : s'.files = s.files) : SameCounts s s' :=
  ⟨hnodes, by rw [hfiles], fun _ => by rw [hfiles]⟩

theorem SameCounts.from_vol {s s' : FsState} {v : Volume}
    (h : SameCounts { s with vol := v } s') : SameCounts s s' := ⟨h.nodes, h.next, h.files⟩

theorem SameCounts.trans {s s' s'' : FsState} (h : SameCounts s s') (h' : SameCounts s' s'') :
    SameCounts s s'' :=
  ⟨h'.nodes.trans h.nodes, h'.next.trans h.next, fun a => (h'.files a).trans (h.files a)⟩

theorem SameCounts.write {s : FsState} {v : Volume} {files : Heap FatFile} {a : ℕ}
    {f f' : FatFile} (hf : s.files.get a = some f) (hwrite : s.files.write a f' = some files)
    (hdentry : DentryOnly f f') : SameCounts s { s with vol := v, files := files } := by
  obtain ⟨-, hnext, -⟩ := Heap.write_eq_some hwrite
  obtain ⟨d, rfl⟩ := hdentry
  exact ⟨rfl, hnext, Heap.map_get_write hf hwrite rfl⟩

theorem updateFile_sameCounts {s s' : FsState} {addr : ℕ} {parent : Option ℕ}
    {op : Volume → FatFile → Option FatFile → Option (FatFile × Volume)}
    (hop : ∀ {v v' f f' p}, op v f p = some (f', v') → DentryOnly f f')
    (h : updateFile s addr parent op = some s') : SameCounts s s' := by
  simp only [updateFile, Option.bind_eq_bind, Option.bind_eq_some_iff, Option.some.injEq,
    Prod.exists] at h
  obtain ⟨f, hf, p, -, f', v', hrun, files, hwrite, rfl⟩ := h
  exact SameCounts.write hf hwrite (hop hrun)

theorem preadFile_sameCounts {s s' : FsState} {addr : ℕ} {parent : Option ℕ}
    {buf buf' : ℤ → UInt8} {size offset : ℕ} {r : ℤ}
    (h : preadFile t s addr buf size offset parent = some (r, buf', s')) :
    SameCounts s s' := by
  simp only [preadFile, Option.bind_eq_bind, Option.bind_eq_some_iff, Option.some.injEq,
    Prod.mk.injEq, Prod.exists] at h
  obtain ⟨f, hf, p, -, count, target, f', v', hread, files, hwrite, -, -, rfl⟩ := h
  exact SameCounts.write hf hwrite (fatFilePread_file hread)

theorem pwriteFile_sameCounts {s s' : FsState} {addr : ℕ} {parent : Option ℕ}
    {buf : ℤ → UInt8} {size offset : ℕ} {r : ℤ}
    (h : pwriteFile t s addr buf size offset parent = some (r, s')) : SameCounts s s' := by
  simp only [pwriteFile, Option.bind_eq_bind, Option.bind_eq_some_iff, Option.some.injEq,
    Prod.mk.injEq, Prod.exists] at h
  obtain ⟨f, hf, p, -, count, f', v', hread, files, hwrite, -, rfl⟩ := h
  exact SameCounts.write hf hwrite (fatFilePwrite_file hread)

theorem fatTreeGetParent_sameCounts {s s' : FsState} {node : ℕ} {parent : Option ℕ}
    (h : fatTreeGetParent s node = some (parent, s')) : SameCounts s s' := by
  simp only [fatTreeGetParent, Option.bind_eq_bind, Option.bind_eq_some_iff] at h
  obtain ⟨n, -, h⟩ := h
  cases hp : n.hParent with
  | none =>
      simp only [hp, Option.some.injEq, Prod.mk.injEq] at h
      obtain ⟨-, rfl⟩ := h
      exact SameCounts.of_vol rfl rfl
  | some p =>
      simp only [hp, Option.bind_eq_some_iff, Option.some.injEq, Prod.mk.injEq] at h
      obtain ⟨m, -, -, rfl⟩ := h
      exact SameCounts.of_vol rfl rfl

theorem fatFuseLogActivity_sameCounts {s s' : FsState} {op : CString} {file : ℕ} {r : ℤ}
    (h : fatFuseLogActivity t env s op file = some (r, s')) : SameCounts s s' := by
  simp only [fatFuseLogActivity, Option.bind_eq_bind, Option.bind_eq_some_iff] at h
  obtain ⟨f, -, message, -, h⟩ := h
  split at h
  · simp only [Option.bind_eq_some_iff] at h
    obtain ⟨found, -, h⟩ := h
    cases found with
    | none =>
        obtain ⟨-, rfl⟩ := Prod.mk.inj (Option.some.inj h)
        exact SameCounts.of_vol rfl rfl
    | some logNode =>
        simp only [Option.bind_eq_some_iff] at h
        obtain ⟨logFile, -, log, -, h⟩ := h
        split at h
        · obtain ⟨-, rfl⟩ := Prod.mk.inj (Option.some.inj h)
          exact SameCounts.of_vol rfl rfl
        · simp only [Option.bind_eq_some_iff, Prod.exists] at h
          obtain ⟨parent, s₁, hparent, h⟩ := h
          have hfirst := (fatTreeGetParent_sameCounts hparent).from_vol
          split at h
          · obtain ⟨-, rfl⟩ := Prod.mk.inj (Option.some.inj h)
            exact hfirst
          · exact hfirst.trans (pwriteFile_sameCounts h)
  · obtain ⟨-, rfl⟩ := Prod.mk.inj (Option.some.inj h)
    exact SameCounts.of_vol rfl rfl

theorem fatFuseRead_sameCounts {s s' : FsState} {buf buf' : ℤ → UInt8}
    {size offset fh : ℕ} {r : ℤ}
    (h : fatFuseRead t env s buf size offset fh = some (r, buf', s')) : SameCounts s s' := by
  simp only [fatFuseRead, Option.bind_eq_bind, Option.bind_eq_some_iff, Prod.exists] at h
  obtain ⟨file, -, parent, s₁, hparent, count, target, s₂, hread, h⟩ := h
  have hboth := (fatTreeGetParent_sameCounts hparent).trans (preadFile_sameCounts hread)
  have hfirst : SameCounts s s₂ := hboth.from_vol
  split at h
  · obtain ⟨-, -, rfl⟩ := by simpa only [Option.some.injEq, Prod.mk.injEq] using h
    exact hfirst
  · simp only [Option.bind_eq_some_iff, Option.some.injEq, Prod.mk.injEq, Prod.exists] at h
    obtain ⟨_, s₃, hlog, _, -, _, -, -, -, rfl⟩ := h
    exact hfirst.trans (fatFuseLogActivity_sameCounts hlog)

theorem fatFuseWrite_sameCounts {s s' : FsState} {buf : ℤ → UInt8} {size offset fh : ℕ}
    {r : ℤ} (h : fatFuseWrite t env s buf size offset fh = some (r, s')) :
    SameCounts s s' := by
  simp only [fatFuseWrite, Option.bind_eq_bind, Option.bind_eq_some_iff, Prod.exists] at h
  obtain ⟨file, -, parent, s₁, hparent, h⟩ := h
  have hfirst := fatTreeGetParent_sameCounts hparent
  split at h
  · obtain ⟨-, rfl⟩ := Prod.mk.inj (Option.some.inj h)
    exact hfirst
  simp only [Option.bind_eq_some_iff] at h
  obtain ⟨f, -, h⟩ := h
  split at h
  · obtain ⟨-, rfl⟩ := Prod.mk.inj (Option.some.inj h)
    exact hfirst
  · simp only [Option.bind_eq_some_iff, Prod.exists] at h
    obtain ⟨_, s₂, hlog, h⟩ := h
    exact (hfirst.trans (fatFuseLogActivity_sameCounts hlog)).trans (pwriteFile_sameCounts h)

theorem fatFuseUtime_sameCounts {s s' : FsState} {path : CString} {actime modtime r : ℤ}
    (h : fatFuseUtime t s path actime modtime = some (r, s')) : SameCounts s s' := by
  simp only [fatFuseUtime, Option.bind_eq_bind, Option.bind_eq_some_iff] at h
  obtain ⟨found, -, h⟩ := h
  cases found with
  | none =>
      obtain ⟨-, rfl⟩ := Prod.mk.inj (Option.some.inj h)
      exact SameCounts.of_vol rfl rfl
  | some node =>
      simp only [Option.bind_eq_some_iff, Prod.exists] at h
      obtain ⟨parent, s₁, hparent, h⟩ := h
      have hfirst : SameCounts s s₁ := (fatTreeGetParent_sameCounts hparent).from_vol
      split at h
      · obtain ⟨-, rfl⟩ := Prod.mk.inj (Option.some.inj h)
        exact hfirst
      · simp only [Option.bind_eq_some_iff, Option.some.injEq, Prod.mk.injEq] at h
        obtain ⟨file, -, s₂, hutime, -, rfl⟩ := h
        exact hfirst.trans (updateFile_sameCounts fatUtime_file hutime)

/-- A truncation that finds no regular file counts nowhere. -/
theorem fatFuseTruncate_sameCounts {s s' : FsState} {path : CString} {offset : ℕ} {r : ℤ}
    (hdir : ∀ node n f, fatTreeNodeSearch s path = some (some node) → NodeFile s node n f →
      fatFileIsDirectory f = true)
    (h : fatFuseTruncate t s path offset = some (r, s')) : SameCounts s s' := by
  simp only [fatFuseTruncate, Option.bind_eq_bind, Option.bind_eq_some_iff] at h
  obtain ⟨found, hsearch, h⟩ := h
  cases found with
  | none =>
      obtain ⟨-, rfl⟩ := Prod.mk.inj (Option.some.inj h)
      exact SameCounts.of_vol rfl rfl
  | some node =>
      simp only [fatTreeGetFile, Option.bind_eq_bind, Option.bind_eq_some_iff,
        Option.some.injEq] at h
      obtain ⟨file, ⟨n, hn, rfl⟩, f, hf, h⟩ := h
      rw [if_pos (hdir node n f hsearch ⟨hn, hf⟩)] at h
      obtain ⟨-, rfl⟩ := Prod.mk.inj (Option.some.inj h)
      exact SameCounts.of_vol rfl rfl

/-! ## The invariant -/

structure CountersAgree (s : FsState) (handles : List ℕ) : Prop where
  lists : SiblingLists s.nodes none
  parents : ParentsLive s.nodes
  counter : ∀ a n, s.nodes.get a = some n → ∃ f, s.files.get n.data = some f ∧
    f.numTimesOpened = openBelow s.nodes handles a
  data_inj : ∀ a b n m, s.nodes.get a = some n → s.nodes.get b = some m →
    n.data = m.data → a = b
  open_live : ∀ h ∈ handles, ∃ n, s.nodes.get h = some n

theorem CountersAgree.same {s s' : FsState} {handles : List ℕ} (h : CountersAgree s handles)
    (hsame : SameCounts s s') : CountersAgree s' handles := by
  refine ⟨by rw [hsame.nodes]; exact h.lists, by rw [hsame.nodes]; exact h.parents,
    fun a n hn => ?_, by rw [hsame.nodes]; exact h.data_inj,
    by rw [hsame.nodes]; exact h.open_live⟩
  rw [hsame.nodes] at hn ⊢
  obtain ⟨f, hf, hcount⟩ := h.counter a n hn
  have hkept := hsame.files n.data
  rw [hf, Option.map_some, Option.map_eq_some_iff] at hkept
  obtain ⟨f', hf', hcount'⟩ := hkept
  exact ⟨f', hf', hcount'.trans hcount⟩

section Growth

variable {nodes nodes' : Heap (HNode α)}

/-- Growth leaves the nodes above a live node as they are. -/
theorem below_grown (hlists : SiblingLists nodes none) (hlive : ParentsLive nodes)
    (hgrown : TreeGrown nodes nodes') {h : ℕ} {n : HNode α} (hn : nodes.get h = some n) (a : ℕ) :
    Below nodes' a h ↔ Below nodes a h := by
  obtain ⟨as, -, hlist, -⟩ := exists_ancestors hlists hlive hn
  have hlist' : nodes'.ListFrom HNode.hParent (some h) as := by
    apply hlist.congr
    intro b hb
    obtain ⟨m, hm⟩ := hlist.live hb
    obtain ⟨m', hm', hgrownNode⟩ := hgrown.node b m hm
    rw [hm, hm', Option.map_some, Option.map_some, hgrownNode.hParent]
  constructor
  · rintro ⟨bs, hbs, hmem⟩
    rw [hbs.unique hlist'] at hmem
    exact ⟨as, hlist, hmem⟩
  · rintro ⟨bs, hbs, hmem⟩
    rw [hbs.unique hlist] at hmem
    exact ⟨as, hlist', hmem⟩

theorem InsertedOnce.node {newData : α} {hParent : HTree}
    (h : InsertedOnce nodes nodes' newData hParent) {a : ℕ} {n' : HNode α}
    (hn' : nodes'.get a = some n') :
    (∃ n, nodes.get a = some n ∧ n'.data = n.data) ∨ a = nodes.next ∧ n'.data = newData := by
  have hback : ∀ {old : Heap (HNode α)}, SameHierarchy old nodes' →
      ∃ n, old.get a = some n ∧ n'.data = n.data := by
    intro old hsame
    have hlinks := hsame.links a
    rw [hn', Option.map_some, eq_comm, Option.map_eq_some_iff] at hlinks
    obtain ⟨n, hn, heq⟩ := hlinks
    exact ⟨n, hn, ((Prod.mk.inj heq).1).symm⟩
  rcases h with hsame | ⟨added, hadded, hsame⟩
  · exact Or.inl (hback hsame)
  · obtain ⟨n, hn, hdata⟩ := hback hsame
    by_cases ha : a = nodes.next
    · subst ha
      obtain ⟨m, hm, -, -, -, hnew, -⟩ := hadded.new
      obtain rfl := Option.some.inj (hm.symm.trans hn)
      exact Or.inr ⟨rfl, hdata.trans hnew⟩
    · left
      by_cases hpa : hParent = some a
      · obtain ⟨m, hm⟩ := hadded.parentLive a hpa
        rw [hadded.parent a m hpa hm, Option.some.injEq] at hn
        exact ⟨m, hm, by rw [hdata, ← hn]⟩
      · rw [hadded.others a ha hpa] at hn
        exact ⟨n, hn, hdata⟩

theorem InsertedOnce.siblingLists {newData : α} {hParent : HTree}
    (h : InsertedOnce nodes nodes' newData hParent) (hlists : SiblingLists nodes none)
    (hlive : ParentsLive nodes) : SiblingLists nodes' none ∧ ParentsLive nodes' := by
  rcases h with hsame | ⟨added, hadded, hsame⟩
  · exact ⟨hlists.congr hsame, hlive.congr hsame⟩
  · exact ⟨(hlists.nodeAdded hadded).congr hsame, (hlive.nodeAdded hadded).congr hsame⟩

end Growth

theorem fatFileInit_numTimesOpened {v v' : Volume} {isDir : Bool} {path : CString}
    {file : FatFile} (h : fatFileInit t v isDir path = some (some file, v')) :
    file.numTimesOpened = 0 := by
  simp only [fatFileInit, Option.bind_eq_bind] at h
  split at h
  · simp at h
  simp only [Option.bind_eq_some_iff] at h
  obtain ⟨c, -, used, -, h⟩ := h
  split at h
  · simp at h
  simp only [Option.bind_eq_some_iff, Prod.exists] at h
  obtain ⟨d, v₁, -, v₂, -, h⟩ := h
  split at h
  · simp at h
  · simp only [Option.some.injEq, Prod.mk.injEq] at h
    rw [← h.1]
    rfl

/-- A new file comes with a node that no handle lies below, or without one. -/
theorem CountersAgree.mknod [t.Formatted] {s s' : FsState} {handles : List ℕ} {path : CString}
    {r : ℤ} (h : CountersAgree s handles) (hstep : fatFuseMknod t s path = some (r, s')) :
    CountersAgree s' handles := by
  cases createEntry_outcome (by decide) hstep with
  | noParent => exact h.same (SameCounts.of_vol rfl rfl)
  | notDirectory => exact h.same (SameCounts.of_vol rfl rfl)
  | initFailed => exact h.same (SameCounts.of_vol rfl rfl)
  | made hparent hdir hinit hroot hinsert hentry hwriteParent hwriteChild =>
      rename_i node addr p file v₁ v₂ root root' nodes' files₁ files₂
      have hzero := fatFileInit_numTimesOpened hinit
      have hinserted := hTreeInsert_eq_some hinsert
      obtain ⟨hlists, hparents⟩ := hinserted.hierarchy.siblingLists h.lists h.parents
      obtain ⟨hnew, haddr, -, hothers⟩ := made_files hparent.live hwriteParent hwriteChild
      -- the files of the old nodes keep their counters
      have hold : ∀ a n, s.nodes.get a = some n → ∃ f, files₂.get n.data = some f ∧
          f.numTimesOpened = openBelow s.nodes handles a := by
        intro a n hn
        obtain ⟨f, hf, hcount⟩ := h.counter a n hn
        by_cases hpa : n.data = addr
        · rw [hpa, hparent.live, Option.some.injEq] at hf
          rw [hpa, haddr]
          refine ⟨_, rfl, ?_⟩
          rw [← hcount, ← hf]
          unfold parentAfter
          split <;> rfl
        · exact ⟨f, by rw [hothers _ hpa (ne_of_lt (Heap.lt_next hf)), hf], hcount⟩
      have hcounts : ∀ a, openBelow nodes' handles a = openBelow s.nodes handles a := by
        intro a
        apply openBelow_congr
        intro x hx
        obtain ⟨m, hm⟩ := h.open_live x hx
        exact below_grown h.lists h.parents hinserted.grown hm a
      have hfresh : ∀ a n, s.nodes.get a = some n → n.data < s.files.next := by
        intro a n hn
        obtain ⟨f, hf, -⟩ := h.counter a n hn
        exact Heap.lt_next hf
      refine ⟨hlists, hparents, fun a n' hn' => ?_, fun a b n' m' hn' hm' hdata => ?_,
        fun x hx => ?_⟩
      · rcases hinserted.hierarchy.node hn' with ⟨n, hn, hsame⟩ | ⟨rfl, hsame⟩
        · obtain ⟨f, hf, hcount⟩ := hold a n hn
          exact ⟨f, by rw [hsame]; exact hf, hcount.trans (hcounts a).symm⟩
        · refine ⟨placedChild p file, by rw [hsame]; exact hnew, ?_⟩
          rw [hcounts, openBelow_next]
          exact hzero
      · rcases hinserted.hierarchy.node hn' with ⟨n, hn, hsame⟩ | ⟨rfl, hsame⟩ <;>
          rcases hinserted.hierarchy.node hm' with ⟨m, hm, hsame'⟩ | ⟨rfl, hsame'⟩
        · exact h.data_inj a b n m hn hm (by rw [← hsame, ← hsame', hdata])
        · have := hfresh a n hn
          omega
        · have := hfresh b m hm
          omega
        · rfl
      · obtain ⟨m, hm⟩ := h.open_live x hx
        obtain ⟨m', hm', -⟩ := hinserted.grown.node x m hm
        exact ⟨m', hm'⟩

/-! ## Opening and releasing -/

/-- Changing distinct files one after the other. -/
theorem modifyFiles_eq_some {f : FatFile → FatFile} {ds : List ℕ} {s s' : FsState}
    (hnodup : ds.Nodup) (h : FsState.modifyFiles f ds s = some s') :
    s'.nodes = s.nodes ∧ ∀ d, s'.files.get d =
      if d ∈ ds then (s.files.get d).map f else s.files.get d := by
  induction ds generalizing s with
  | nil =>
      obtain rfl := Option.some.inj h
      exact ⟨rfl, fun d => by simp⟩
  | cons a ds ih =>
      simp only [FsState.modifyFiles, FsState.modifyFile, Option.bind_eq_bind,
        Option.bind_eq_some_iff, Option.some.injEq] at h
      obtain ⟨s₁, ⟨files, hmodify, rfl⟩, h⟩ := h
      obtain ⟨hnotin, hrest⟩ := List.nodup_cons.mp hnodup
      obtain ⟨hnodes, hfiles⟩ := ih hrest h
      obtain ⟨file, hfile, hwrite⟩ := Heap.modify_eq_some hmodify
      obtain ⟨-, -, hself, hothers⟩ := Heap.write_eq_some hwrite
      refine ⟨hnodes, fun d => ?_⟩
      rw [hfiles d]
      by_cases hd : d = a
      · subst hd
        simp only [hnotin, if_false, hself, List.mem_cons_self, if_true, hfile, Option.map_some]
      · simp only [hothers d hd, List.mem_cons, hd, false_or]

theorem DataOf.exists_node {nodes : Heap (HNode α)} {as : List ℕ} {ds : List α}
    (h : DataOf nodes as ds) {d : α} (hd : d ∈ ds) : ∃ a n, nodes.get a = some n ∧ n.data = d := by
  induction h with
  | nil => simp at hd
  | @cons a e as ds hhead _ ih =>
      rcases List.mem_cons.mp hd with rfl | hd
      · exact ⟨a, hhead⟩
      · exact ih hd

/-- The files of the nodes from a live node up to the top. -/
theorem ancestors_below {nodes : Heap (HNode α)} (hlists : SiblingLists nodes none)
    (hparents : ParentsLive nodes)
    (hinj : ∀ a b n m, nodes.get a = some n → nodes.get b = some m → n.data = m.data → a = b)
    {node : ℕ} {n : HNode α} (hn : nodes.get node = some n) :
    ∃ ds, hTreeAncestors nodes (some node) = some ds ∧ ds.Nodup ∧
      (∀ a m, nodes.get a = some m → (m.data ∈ ds ↔ Below nodes a node)) ∧
      ∀ d ∈ ds, ∃ a m, nodes.get a = some m ∧ m.data = d := by
  obtain ⟨as, ds, hlist, hnodup, hds, hdata⟩ := exists_ancestors hlists hparents hn
  have hunique : Relator.BiUnique fun a d => ∃ n, nodes.get a = some n ∧ n.data = d := by
    constructor
    · rintro a b d ⟨n, hn, rfl⟩ ⟨m, hm, hdm⟩
      exact hinj a b n m hn hm hdm.symm
    · rintro a d e ⟨n, hn, rfl⟩ ⟨m, hm, rfl⟩
      rw [Option.some.inj (hn.symm.trans hm)]
  refine ⟨ds, hds, (List.rel_nodup hunique hdata).mp hnodup, fun a m hm => ?_,
    fun d hd => hdata.exists_node hd⟩
  · have hmem : a ∈ as ↔ m.data ∈ ds := List.rel_mem hunique ⟨m, hm, rfl⟩ hdata
    rw [← hmem]
    constructor
    · exact fun hin => ⟨as, hlist, hin⟩
    · rintro ⟨bs, hbs, hin⟩
      rwa [← hbs.unique hlist]

theorem CountersAgree.ancestors {s : FsState} {handles : List ℕ} {node : ℕ} {n : HNode ℕ}
    {ds : List ℕ} (h : CountersAgree s handles) (hn : s.nodes.get node = some n)
    (hds : hTreeAncestors s.nodes (some node) = some ds) :
    ds.Nodup ∧ ∀ a m, s.nodes.get a = some m → (m.data ∈ ds ↔ Below s.nodes a node) := by
  obtain ⟨ds', hds', hnodup, hmem, -⟩ := ancestors_below h.lists h.parents h.data_inj hn
  obtain rfl := Option.some.inj (hds.symm.trans hds')
  exact ⟨hnodup, hmem⟩

/-- Counting at a node and above it changes exactly the counters that the handle of the
node counts for. -/
theorem CountersAgree.count {s s' : FsState} {handles handles' : List ℕ} {node : ℕ}
    {n : HNode ℕ} {ds : List ℕ} {f : FatFile → FatFile} (h : CountersAgree s handles)
    (hn : s.nodes.get node = some n) (hds : hTreeAncestors s.nodes (some node) = some ds)
    (hrun : FsState.modifyFiles f ds s = some s')
    (hbelow : ∀ a file, Below s.nodes a node →
      file.numTimesOpened = openBelow s.nodes handles a →
      (f file).numTimesOpened = openBelow s.nodes handles' a)
    (habove : ∀ a, ¬ Below s.nodes a node →
      openBelow s.nodes handles' a = openBelow s.nodes handles a)
    (hlive : ∀ x ∈ handles', ∃ m, s.nodes.get x = some m) : CountersAgree s' handles' := by
  obtain ⟨hnodup, hmem⟩ := h.ancestors hn hds
  obtain ⟨hnodes, hfiles⟩ := modifyFiles_eq_some hnodup hrun
  refine ⟨by rw [hnodes]; exact h.lists, by rw [hnodes]; exact h.parents, fun a m hm => ?_,
    by rw [hnodes]; exact h.data_inj, by rw [hnodes]; exact hlive⟩
  rw [hnodes] at hm ⊢
  obtain ⟨file, hfile, hcount⟩ := h.counter a m hm
  rw [hfiles, hfile]
  by_cases hin : Below s.nodes a node
  · rw [if_pos ((hmem a m hm).mpr hin)]
    exact ⟨f file, rfl, hbelow a file hin hcount⟩
  · rw [if_neg fun hd => hin ((hmem a m hm).mp hd)]
    exact ⟨file, rfl, hcount.trans (habove a hin).symm⟩

theorem CountersAgree.inc {s s' : FsState} {handles : List ℕ} {node : ℕ} {n : HNode ℕ}
    (h : CountersAgree s handles) (hn : s.nodes.get node = some n)
    (hroom : handles.length + 1 < 2 ^ 31)
    (hrun : fatTreeIncNumTimesOpened s node = some s') :
    CountersAgree s' (node :: handles) := by
  classical
  simp only [fatTreeIncNumTimesOpened, Option.bind_eq_bind, Option.bind_eq_some_iff] at hrun
  obtain ⟨ds, hds, hrun⟩ := hrun
  refine h.count hn hds hrun (fun a file hin hcount => ?_) (fun a hout => ?_) fun x hx => ?_
  · have hle := openBelow_le s.nodes handles a
    rw [openBelow_cons, if_pos hin, ← hcount]
    exact Nat.mod_eq_of_lt (by omega)
  · rw [openBelow_cons, if_neg hout, Nat.add_zero]
  · rcases List.mem_cons.mp hx with rfl | hold
    · exact ⟨n, hn⟩
    · exact h.open_live x hold

theorem CountersAgree.dec {s s' : FsState} {handles : List ℕ} {fh : ℕ}
    (h : CountersAgree s handles) (hopen : fh ∈ handles) (hroom : handles.length < 2 ^ 31)
    (hrun : fatTreeDecNumTimesOpened s fh = some s') :
    CountersAgree s' (handles.erase fh) := by
  classical
  simp only [fatTreeDecNumTimesOpened, Option.bind_eq_bind, Option.bind_eq_some_iff] at hrun
  obtain ⟨ds, hds, hrun⟩ := hrun
  obtain ⟨n, hn⟩ := h.open_live fh hopen
  refine h.count hn hds hrun (fun a file hin hcount => ?_) (fun a hout => ?_) fun x hx => ?_
  · have hle := openBelow_le s.nodes handles a
    have herase := openBelow_erase s.nodes a hopen
    rw [if_pos hin] at herase
    simp only [fatFileDecNumTimesOpened, hcount, ← herase]
    omega
  · have herase := openBelow_erase s.nodes a hopen
    rwa [if_neg hout, Nat.add_zero] at herase
  · exact h.open_live x (List.mem_of_mem_erase hx)

theorem openNode_eq_some {s s' : FsState} {path : CString} {wantDirectory : Bool}
    {error r : ℤ} {fh : Option ℕ}
    (h : openNode s path wantDirectory error = some (r, fh, s')) :
    fh = none ∧ s' = s ∨ ∃ node n, fh = some node ∧ s.nodes.get node = some n ∧
      fatTreeIncNumTimesOpened s node = some s' := by
  simp only [openNode, Option.bind_eq_bind, Option.bind_eq_some_iff] at h
  obtain ⟨found, -, h⟩ := h
  cases found with
  | none =>
      obtain ⟨-, rfl, rfl⟩ := by simpa only [Option.some.injEq, Prod.mk.injEq] using h
      exact Or.inl ⟨rfl, rfl⟩
  | some node =>
      simp only [fatTreeGetFile, Option.bind_eq_bind, Option.bind_eq_some_iff,
        Option.some.injEq] at h
      obtain ⟨file, ⟨n, hn, rfl⟩, f, -, h⟩ := h
      split at h
      · obtain ⟨-, rfl, rfl⟩ := by simpa only [Option.some.injEq, Prod.mk.injEq] using h
        exact Or.inl ⟨rfl, rfl⟩
      · simp only [Option.bind_eq_some_iff, Option.some.injEq, Prod.mk.injEq] at h
        obtain ⟨s₁, hinc, -, rfl, rfl⟩ := h
        exact Or.inr ⟨node, n, rfl, hn, hinc⟩

theorem CountersAgree.openNode {s s' : FsState} {handles : List ℕ} {path : CString}
    {wantDirectory : Bool} {error r : ℤ} {fh : Option ℕ} (h : CountersAgree s handles)
    (hroom : handles.length + 1 < 2 ^ 31)
    (hopen : openNode s path wantDirectory error = some (r, fh, s')) :
    CountersAgree s' (fh.toList ++ handles) ∧ (fh.toList ++ handles).length < 2 ^ 31 := by
  rcases openNode_eq_some hopen with ⟨rfl, rfl⟩ | ⟨node, n, rfl, hn, hinc⟩
  · exact ⟨h, by simp; omega⟩
  · exact ⟨h.inc hn hroom hinc, by simp; omega⟩

/-! ## Runs -/

/-- One request of a client keeps the counters right. -/
theorem CountersAgree.step [t.Formatted] {s s' : FsState} {handles : List ℕ} {op : FuseOp} {r : ℤ}
    (h : CountersAgree s handles) (hroom : handles.length < 2 ^ 31)
    (hrequest : ClientRequest handles op) (hcounts : CountsHandles s handles op)
    (hstep : fuseStep t env s op = some (r, s')) :
    CountersAgree s' (handlesAfter s handles op) ∧
      (handlesAfter s handles op).length < 2 ^ 31 := by
  cases op with
  | getattr | readdir | mkdir | unlink | rmdir => exact absurd hrequest id
  | «open» path =>
      simp only [fuseStep, Option.map_eq_some_iff, Prod.exists, Prod.mk.injEq] at hstep
      obtain ⟨r, fh, s₁, hopen, rfl, rfl⟩ := hstep
      simp only [handlesAfter, hopen, Option.bind_some]
      exact h.openNode hcounts hopen
  | opendir path =>
      simp only [fuseStep, Option.map_eq_some_iff, Prod.exists, Prod.mk.injEq] at hstep
      obtain ⟨r, fh, s₁, hopen, rfl, rfl⟩ := hstep
      simp only [handlesAfter, hopen, Option.bind_some]
      exact h.openNode hcounts hopen
  | release fh =>
      simp only [fuseStep, fatFuseRelease, Option.bind_eq_bind, Option.bind_eq_some_iff,
        Option.some.injEq, Prod.mk.injEq] at hstep
      obtain ⟨s₁, hdec, -, rfl⟩ := hstep
      exact ⟨h.dec hrequest hroom hdec, List.length_erase_le.trans_lt hroom⟩
  | releasedir fh =>
      simp only [fuseStep, fatFuseReleasedir, Option.bind_eq_bind, Option.bind_eq_some_iff,
        Option.some.injEq, Prod.mk.injEq] at hstep
      obtain ⟨s₁, hdec, -, rfl⟩ := hstep
      exact ⟨h.dec hrequest hroom hdec, List.length_erase_le.trans_lt hroom⟩
  | mknod path => exact ⟨h.mknod hstep, hroom⟩
  | read buf size offset fh =>
      simp only [fuseStep, Option.map_eq_some_iff, Prod.exists, Prod.mk.injEq] at hstep
      obtain ⟨r, buf', s₁, hread, rfl, rfl⟩ := hstep
      exact ⟨h.same (fatFuseRead_sameCounts hread), hroom⟩
  | write buf size offset fh => exact ⟨h.same (fatFuseWrite_sameCounts hstep), hroom⟩
  | truncate path offset => exact ⟨h.same (fatFuseTruncate_sameCounts hcounts hstep), hroom⟩
  | utime path actime modtime => exact ⟨h.same (fatFuseUtime_sameCounts hstep), hroom⟩

/-- After mounting no counter counts. -/
theorem initFileTree_countersAgree {v : Volume} {rootDirStartCluster : ℕ} {s : FsState}
    (h : initFileTree v rootDirStartCluster = some s) : CountersAgree s [] := by
  simp only [initFileTree, Option.bind_eq_bind, Option.bind_eq_some_iff, Prod.exists] at h
  obtain ⟨made, v₁, hinit, root, rfl, h⟩ := h
  obtain ⟨nodes, root', hinsert, rfl⟩ := fatTreeInsert_eq_some rfl h
  have hinserted := hTreeInsert_eq_some hinsert
  obtain ⟨hlists, hparents⟩ := hinserted.hierarchy.siblingLists siblingLists_empty
    fun p c ⟨n, hn, _⟩ => by simp at hn
  have hnode : ∀ a n, nodes.get a = some n → a = 0 ∧ n.data = 0 := by
    intro a n hn
    rcases hinserted.hierarchy.node hn with ⟨m, hm, -⟩ | hnew
    · simp at hm
    · exact hnew
  refine ⟨hlists, hparents, fun a n hn => ?_, fun a b n m hn hm _ => ?_, by simp⟩
  · obtain ⟨-, hdata⟩ := hnode a n hn
    refine ⟨root, by rw [hdata]; exact Heap.get_alloc_self _ _, ?_⟩
    simp only [fatFileInitOrphanDir, Option.bind_eq_bind, Option.bind_eq_some_iff,
      Prod.exists] at hinit
    obtain ⟨entry, v₂, -, hinit⟩ := hinit
    split at hinit
    · simp at hinit
    · simp only [Option.some.injEq, Prod.mk.injEq] at hinit
      rw [← hinit.1]
      rfl
  · rw [(hnode a n hn).1, (hnode b m hm).1]

/-- Along a run on a formatted table whose requests count as they should, the counter of
every node is the number of open handles whose node is that one or lies below it. -/
theorem openCounters_count_handles [t.Formatted] {v : Volume} {rootDirStartCluster : ℕ}
    {mounted s : FsState} {handles : List ℕ}
    (hmount : initFileTree v rootDirStartCluster = some mounted)
    (hrun : HandleRun t env CountsHandles mounted [] s handles) :
    ∀ a n, s.nodes.get a = some n → ∃ f, s.files.get n.data = some f ∧
      f.numTimesOpened = openBelow s.nodes handles a := by
  suffices hinv : ∀ s₀ handles₀, HandleRun t env CountsHandles s₀ handles₀ s handles →
      CountersAgree s₀ handles₀ → handles₀.length < 2 ^ 31 → CountersAgree s handles by
    exact (hinv mounted [] hrun (initFileTree_countersAgree hmount) (by simp)).counter
  intro s₀ handles₀ hrun
  induction hrun with
  | nil s handles => exact fun h _ => h
  | cons request allowed step rest ih =>
      intro h hroom
      obtain ⟨hnext, hroom'⟩ := h.step hroom request allowed step
      exact ih hrun hnext hroom'

/-- One truncation of the file `/a` that was never opened leaves its counter at 1. -/
theorem truncation_counts_without_handle :
    ¬ ∀ (t : FatTable) (env : FuseEnv) (v : Volume) (rootDirStartCluster : ℕ)
      (mounted s : FsState) (handles : List ℕ),
      initFileTree v rootDirStartCluster = some mounted →
      HandleRun t env (fun _ _ _ => True) mounted [] s handles →
      ∀ a n f, s.nodes.get a = some n → s.files.get n.data = some f →
        f.numTimesOpened = openBelow s.nodes handles a := by
  intro hall
  have hrun : (initFileTree (rootVolume 0) 2).bind (fun mounted =>
      (fatFuseMknod smallTable mounted pathA).bind fun made =>
        (fatFuseTruncate smallTable made.2 pathA 0).bind fun cut =>
          (cut.2.nodes.get 1).bind fun n => (cut.2.files.get n.data).map fun f =>
            f.numTimesOpened) = some 1 := by
    rfl
  simp only [Option.bind_eq_some_iff, Option.map_eq_some_iff, Prod.exists] at hrun
  obtain ⟨mounted, hmount, r, s₁, hmknod, r', s₂, hcut, n, hn, f, hf, hcount⟩ := hrun
  have hmade : fuseStep smallTable plainEnv mounted (.mknod pathA) = some (r, s₁) := hmknod
  have hshort : fuseStep smallTable plainEnv s₁ (.truncate pathA 0) = some (r', s₂) := hcut
  have hsteps : HandleRun smallTable plainEnv (fun _ _ _ => True) mounted [] s₂ [] :=
    HandleRun.cons (show ClientRequest [] (.mknod pathA) from trivial) trivial hmade
      (HandleRun.cons (show ClientRequest [] (.truncate pathA 0) from trivial) trivial hshort
        (HandleRun.nil s₂ []))
  have hwrong := hall smallTable plainEnv _ 2 mounted s₂ [] hmount hsteps 1 n f hn hf
  rw [hcount] at hwrong
  simp [openBelow] at hwrong

/-- Opening `/a` counts at its node and at the root. -/
theorem openCounters_count_handles_open :
    ∃ mounted s, initFileTree (rootVolume 0) 2 = some mounted ∧
      HandleRun smallTable plainEnv CountsHandles mounted [] s [1] ∧
      ∀ a n, s.nodes.get a = some n → ∃ f, s.files.get n.data = some f ∧
        f.numTimesOpened = openBelow s.nodes [1] a := by
  have hrun : (initFileTree (rootVolume 0) 2).bind (fun mounted =>
      (fatFuseMknod smallTable mounted pathA).bind fun made =>
        (fatFuseOpen made.2 pathA).map fun opened => (opened.1, opened.2.1)) =
      some (0, some 1) := by
    rfl
  simp only [Option.bind_eq_some_iff, Option.map_eq_some_iff, Prod.exists,
    Prod.mk.injEq] at hrun
  obtain ⟨mounted, hmount, r, s₁, hmknod, r', fh, s₂, hopen, rfl, rfl⟩ := hrun
  have hstep : fuseStep smallTable plainEnv s₁ (.open pathA) = some (0, s₂) := by
    simp only [fuseStep, hopen, Option.map_some]
  have hafter : handlesAfter s₁ [] (.open pathA) = [1] := by
    simp only [handlesAfter, hopen, Option.bind_some, Option.toList_some, List.append_nil]
  have hlast : HandleRun smallTable plainEnv CountsHandles s₁ [] s₂ [1] := by
    have hfew : CountsHandles s₁ [] (.open pathA) :=
      show ([] : List ℕ).length + 1 < 2 ^ 31 by norm_num
    refine HandleRun.cons (show ClientRequest [] (.open pathA) from trivial) hfew hstep ?_
    rw [hafter]
    exact HandleRun.nil s₂ [1]
  have hmade : fuseStep smallTable plainEnv mounted (.mknod pathA) = some (r, s₁) := hmknod
  have hsteps : HandleRun smallTable plainEnv CountsHandles mounted [] s₂ [1] :=
    HandleRun.cons (show ClientRequest [] (.mknod pathA) from trivial) trivial hmade hlast
  exact ⟨mounted, s₂, hmount, hsteps, openCounters_count_handles hmount hsteps⟩

end SistOp.FatFuse
