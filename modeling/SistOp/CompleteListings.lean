import SistOp.FirstListings
import SistOp.OpenedPaths
import Mathlib.Tactic

/-!
# Complete listings

`fat_fuse_readdir` tests `errno` for a negative value behind the reading of the children, and a
failed read sets a positive one.  A first listing passes on what the tree holds then: the children
from before, one more for each decoded path that the tree lacked, and nothing else that a live
entry of the directory is called.  All of them, and `/bb`, go into an array with room for `nentries`
files, which is the index in the last cluster at which the reading stopped.
-/

namespace SistOp.FatFuse

open SearchTree

variable {t : FatTable} {env : FuseEnv} {s s' s₁ : FsState} {node : ℕ} {p : CString} {r : ℤ}

/-! ## Live entries -/

/-- The files of the entries in front of the end mark, those that are skipped and `/bb` apart. -/
def liveChildren (t : FatTable) (disk : ℕ → UInt8) (dir : FatFile) (cs : List ℕ) : List FatFile :=
  ((listedEntries (directoryEntries t disk cs) 0).map (numberedChild dir)).filter
    fun child => child.filepath ≠ bbDirname

theorem mem_listedEntries {ds : List FatDirEntry} {first : ℕ} {d : FatDirEntry} :
    (∃ i, (d, i) ∈ listedEntries ds first) ↔ d ∈ frontEntries ds ∧ ignoreDentry d = false := by
  simp only [listedEntries, List.mem_filter, Bool.not_eq_true']
  constructor
  · rintro ⟨i, hmem, hignore⟩
    exact ⟨List.fst_mem_of_mem_zipIdx hmem, hignore⟩
  · rintro ⟨hmem, hignore⟩
    obtain ⟨i, hi, rfl⟩ := List.getElem_of_mem hmem
    refine ⟨first + i, ?_, hignore⟩
    rw [List.mk_add_mem_zipIdx_iff_getElem?]
    exact List.getElem?_eq_getElem hi

/-- The names of a directory do not start with a dot. -/
theorem head_name_ne_dot {d : FatDirEntry} (hignore : ignoreDentry d = false) (dir : FatFile)
    (name : CString) : (initFileFromDentry d dir).name ≠ charDot :: name := by
  have hvalid : fileBasenameValid d = true := by
    unfold ignoreDentry at hignore
    simp only [Bool.or_eq_false_iff, Bool.not_eq_false'] at hignore
    exact hignore.1.2
  unfold fileBasenameValid at hvalid
  split at hvalid
  · contradiction
  · rename_i hfirst
    simp only [not_or] at hfirst
    obtain ⟨hzero, hspace, -⟩ := hfirst
    have hlegal : charLegalInFilename (d.baseName 0) = true := by
      rw [fileBasenameLoop] at hvalid
      split at hvalid
      · contradiction
      · rename_i hlegal
        simpa using hlegal
    obtain ⟨n, hn⟩ : ∃ n, filenameLen d.baseName 8 = n + 1 :=
      Nat.exists_eq_add_one.mpr (lt_filenameLen d.baseName (by norm_num) hspace hzero)
    intro hdot
    have hname : (initFileFromDentry d dir).name = cString (buildFilename d) := rfl
    rw [hname, buildFilename, hn, if_neg (Nat.succ_ne_zero n), List.range_succ_eq_map,
      List.map_cons, List.cons_append, cString, List.takeWhile_cons_of_pos (by simpa using hzero),
      List.cons.injEq] at hdot
    rw [hdot.1] at hlegal
    exact absurd hlegal (by decide)

theorem mem_frontEntries_directory {disk : ℕ → UInt8} {cs : List ℕ} {d : FatDirEntry}
    (h : d ∈ frontEntries (directoryEntries t disk cs)) :
    ∃ c ∈ cs, d ∈ frontEntries (clusterSlots t disk c) := by
  induction cs with
  | nil => simp [directoryEntries, frontEntries] at h
  | cons c cs ih =>
      rw [directoryEntries, List.flatMap_cons] at h
      unfold frontEntries at h
      rw [List.takeWhile_append] at h
      split at h
      · rename_i hall
        rcases List.mem_append.mp h with h | h
        · refine ⟨c, by simp, ?_⟩
          rwa [frontEntries, (List.takeWhile_prefix _).eq_of_length hall]
        · obtain ⟨c', hc', hmem⟩ := ih h
          exact ⟨c', List.mem_cons_of_mem _ hc', hmem⟩
      · exact ⟨c, by simp, h⟩

/-- The listing decodes every live entry. -/
theorem exists_decoded {disk : ℕ → UInt8} {dir : FatFile} {cs : List ℕ} {child : FatFile}
    (h : child ∈ liveChildren t disk dir cs) :
    ∃ child' ∈ decodedChildren t disk dir cs, child'.filepath = child.filepath := by
  obtain ⟨hmem, -⟩ := List.mem_filter.mp h
  obtain ⟨⟨d, i⟩, hlisted, rfl⟩ := List.mem_map.mp hmem
  obtain ⟨hfront, hignore⟩ := mem_listedEntries.mp ⟨i, hlisted⟩
  obtain ⟨c, hc, hcluster⟩ := mem_frontEntries_directory hfront
  obtain ⟨j, hj⟩ := (@mem_listedEntries _ 0 d).mpr ⟨hcluster, hignore⟩
  refine ⟨numberedChild dir (d, j), ?_, rfl⟩
  exact List.mem_flatMap.mpr ⟨c, hc, List.mem_map_of_mem hj⟩

theorem below_liveChild {disk : ℕ → UInt8} {dir : FatFile} {cs : List ℕ} {child : FatFile}
    (h : child ∈ liveChildren t disk dir cs) :
    child.Below dir.filepath ∧ child.filepath ≠ bbDirname ∧
      ∀ name, child.name ≠ charDot :: name := by
  obtain ⟨hmem, hvisible⟩ := List.mem_filter.mp h
  obtain ⟨⟨d, i⟩, hlisted, rfl⟩ := List.mem_map.mp hmem
  obtain ⟨-, hignore⟩ := mem_listedEntries.mp ⟨i, hlisted⟩
  exact ⟨rfl, of_decide_eq_true hvisible, head_name_ne_dot hignore _⟩

/-! ## Counting names -/

variable {child : FatFile}

theorem count_shownName {g : FatFile} (hchild : child.Below p)
    (hvisible : child.filepath ≠ bbDirname) (hg : g.Below p) :
    (shownName g).count child.name = if g.filepath = child.filepath then 1 else 0 := by
  split
  · rename_i hsame
    have hname : g.name = child.name :=
      filepathFromName_inj (hg.symm.trans (hsame.trans hchild))
    rw [shownName, if_pos (hsame ▸ hvisible), hname, List.count_singleton_self]
  · rename_i hother
    rw [List.count_eq_zero]
    intro hmem
    unfold shownName at hmem
    split at hmem
    · rw [List.mem_singleton] at hmem
      unfold FatFile.Below at hg hchild
      rw [hg, hchild, hmem] at hother
      exact hother rfl
    · contradiction

theorem count_added {added : List FatFile} (hchild : child.Below p)
    (hvisible : child.filepath ≠ bbDirname) (hadded : ∀ g ∈ added, g.Below p) :
    (added.flatMap shownName).count child.name =
      (added.map FatFile.filepath).count child.filepath := by
  induction added with
  | nil => rfl
  | cons g added ih =>
      rw [List.flatMap_cons, List.count_append, List.map_cons, List.count_cons,
        ih fun g hg => hadded g (List.mem_cons_of_mem _ hg),
        count_shownName hchild hvisible (hadded g List.mem_cons_self), Nat.add_comm]
      simp

/-! ## The first listing -/

/-- What a first listing puts in front of the names of the children: each live entry whose path
the tree lacked, once. -/
theorem FirstListing.count {f : FatFile} {cs : List ℕ} {labels : List (CString × CString)}
    {added logs : List FatFile} (h : FirstListing t s s' node f cs labels added logs) :
    ∀ child ∈ liveChildren t s.vol.disk f cs,
      (InTree s child.filepath →
        (logs.flatMap shownName ++ added.flatMap shownName).count child.name = 0) ∧
      (¬ InTree s child.filepath →
        (logs.flatMap shownName ++ added.flatMap shownName).count child.name = 1) := by
  intro child hchild
  obtain ⟨hbelow, hvisible, -⟩ := below_liveChild hchild
  obtain ⟨child', hmem, hpath⟩ := exists_decoded hchild
  -- the log has no part in the count
  have hquiet : (logs.flatMap shownName).count child.name = 0 := by
    rw [List.count_eq_zero, List.mem_flatMap]
    rintro ⟨g, hg, hname⟩
    unfold shownName at hname
    split at hname
    · rename_i hshown
      obtain ⟨hbb, hgbelow⟩ := (h.logsPlace g hg).resolve_left fun hhidden => hshown hhidden.1
      apply (h.logsNew g hg).2
      rw [List.mem_singleton] at hname
      have hsame : child.filepath = g.filepath := by
        rw [show child.filepath = _ from hbelow, show g.filepath = _ from hgbelow, hname, hbb]
      rw [← hsame, ← hpath]
      exact List.mem_map_of_mem hmem
    · contradiction
  rw [List.count_append, hquiet, Nat.zero_add, count_added hbelow hvisible fun g hg =>
    below_decodedChild (h.decoded g hg), h.nodup.count]
  constructor
  · intro hinTree
    rw [if_neg]
    intro hnew
    obtain ⟨g, hg, hgpath⟩ := List.mem_map.mp hnew
    exact h.new g hg (hgpath ▸ hinTree)
  · intro habsent
    rw [← hpath] at habsent ⊢
    rw [if_pos (h.missing child' hmem habsent)]

/-! ## The array -/

/-- `fat_tree_flatten_h_children` returns the children when they fit. -/
theorem Labelled.flatten {n : HNode ℕ} {f : FatFile} {labels : List (CString × CString)}
    (h : Labelled s node labels) (hf : NodeFile s node n f) (hsize : 0 < n.size) :
    ∃ children, fatTreeFlattenHChildren s node =
        (if labels.length ≤ f.nentries then some children else none) ∧
      ∀ front, fillChildren takesAll s children front =
        some (front ++ labels.flatMap shownLabel, false) := by
  obtain ⟨n', cs, files, hn, hlist, hfiles, rfl⟩ := h
  obtain rfl := Option.some.inj (hf.node.symm.trans hn)
  have hlength := Heap.length_le_next hlist.nodup fun a ha => hlist.live ha
  obtain ⟨ds, hds, hdata⟩ := hChildrenLoop_eq hlist (Nat.lt_succ_of_le hlength)
  refine ⟨ds, ?_, fun front => ?_⟩
  · have hsame : ds.length = (files.map FatFile.label).length := by
      rw [List.length_map, ← hdata.length_eq, hfiles.length_eq]
    rw [← hsame]
    simp only [fatTreeFlattenHChildren, hTreeSize, hTreeFlattenHChildren, hf.node, hf.live, hds,
      if_neg hsize.ne', Option.bind_eq_bind, Option.bind_some]
  · rw [flatMap_shownLabel]
    exact fillChildren_takesAll hdata hfiles front

/-- The part of a listing behind the reading, in every case. -/
theorem readdirTail_takesAll_eq {n : HNode ℕ} {f : FatFile} {labels : List (CString × CString)}
    (h : Labelled s node labels) (hf : NodeFile s node n f) (hsize : 0 < n.size) (failed : Prop)
    [Decidable failed] :
    readdirTail takesAll node failed s =
      if failed then some (- s.errno, [[charDot], [charDot, charDot]], s)
      else if labels.length ≤ f.nentries then
        some (0, [charDot] :: [charDot, charDot] :: labels.flatMap shownLabel, s)
      else none := by
  obtain ⟨children, hflatten, hfill⟩ := h.flatten hf hsize
  unfold readdirTail
  by_cases hfailed : failed
  · rw [if_pos hfailed, if_pos hfailed]
  · rw [if_neg hfailed, if_neg hfailed, hflatten]
    split
    · simp [hfill]
    · rfl

/-- The children of the node fit the array that its file gives room for. -/
def ArrayFits (s : FsState) (node : ℕ) : Prop :=
  ∃ n f labels, NodeFile s node n f ∧ Labelled s node labels ∧ labels.length ≤ f.nentries

theorem arrayFits_iff {n : HNode ℕ} {f : FatFile} {labels : List (CString × CString)}
    (hf : NodeFile s node n f) (hlabels : Labelled s node labels) :
    ArrayFits s node ↔ labels.length ≤ f.nentries := by
  constructor
  · rintro ⟨n', f', labels', hf', hlabels', hle⟩
    obtain ⟨rfl, rfl⟩ := hf.unique hf'
    rwa [hlabels.unique hlabels']
  · exact fun hle => ⟨n, f, labels, hf, hlabels, hle⟩

/-! ## Listings -/

/-- What `fat_fuse_readdir` must do for the directory `f` on the chain `cs`, if the filler takes
every name: the call stays within its memory, a listing that returns 0 passed on the name of each
live entry as often as the directory has entries of that name, and one that met a failing read
returns a negative number. -/
structure ListsAll (t : FatTable) (s : FsState) (f : FatFile) (cs : List ℕ)
    (outcome : Option (ℤ × List CString × FsState)) : Prop where
  returns : outcome ≠ none
  complete : ∀ shown s', outcome = some (0, shown, s') →
    ∀ child ∈ liveChildren t s.vol.disk f cs, shown.count child.name =
      ((liveChildren t s.vol.disk f cs).map FatFile.name).count child.name
  failed : f.childrenRead = false → ¬ ChainReads t (s.setErrno 0).vol cs →
    ∀ r shown s', outcome = some (r, shown, s') → r < 0

/-- The names of the children in memory cover the live entries, together with one more name for
each path that a first listing adds to the tree. -/
structure ListingAgrees (t : FatTable) (s : FsState) (f : FatFile) (cs : List ℕ)
    (names : List CString) : Prop where
  known : ∀ child ∈ liveChildren t s.vol.disk f cs,
    f.childrenRead = true ∨ InTree s child.filepath →
      names.count child.name =
        ((liveChildren t s.vol.disk f cs).map FatFile.name).count child.name
  unknown : ∀ child ∈ liveChildren t s.vol.disk f cs,
    f.childrenRead = false → ¬ InTree s child.filepath →
      names.count child.name + 1 =
        ((liveChildren t s.vol.disk f cs).map FatFile.name).count child.name

theorem fillChildren_accepts {ds : List ℕ} {given shown : List CString} {refused : Bool}
    (h : fillChildren takesAll s ds given = some (shown, refused)) : refused = false := by
  induction ds generalizing given with
  | nil => exact (Prod.mk.inj (Option.some.inj h)).2.symm
  | cons d ds ih =>
      simp only [fillChildren, takesAll, Bool.false_eq_true, if_false, Option.bind_eq_bind,
        Option.bind_eq_some_iff] at h
      obtain ⟨f, -, h⟩ := h
      split at h <;> exact ih h

/-- What a listing does before it fills the array: it reads an unread directory. -/
def ReadsUnread (t : FatTable) (env : FuseEnv) (s : FsState) (f : FatFile) (node : ℕ)
    (s₁ : FsState) : Prop :=
  (if f.childrenRead = false then fatFuseReadChildren t env (s.setErrno 0) node
    else some (s.setErrno 0)) = some s₁

section Listing

variable {n : HNode ℕ} {f : FatFile} {cs : List ℕ} {labels : List (CString × CString)}

theorem fatFuseReaddir_reads (hf : NodeFile s node n f) (hdir : fatFileIsDirectory f = true)
    (hread : ReadsUnread t env s f node s₁) :
    fatFuseReaddir t env s takesAll node =
      readdirTail takesAll node (f.childrenRead = false ∧ s₁.errno < 0) s₁ := by
  rw [fatFuseReaddir_eq hf (takesAll_refuses _ _) (takesAll_refuses _ _) (by simp [hdir]), hread,
    Option.bind_some]

/-- A listing of a directory does not return a negative number. -/
theorem fatFuseReaddir_nonneg {shown : List CString} (hf : NodeFile s node n f)
    (hdir : fatFileIsDirectory f = true) (hread : ReadsUnread t env s f node s₁)
    (h : fatFuseReaddir t env s takesAll node = some (r, shown, s')) : 0 ≤ r := by
  rw [fatFuseReaddir_reads hf hdir hread, readdirTail] at h
  split at h
  · rename_i hfailed
    obtain ⟨rfl, -⟩ := Prod.mk.inj (Option.some.inj h)
    have hneg := hfailed.2
    omega
  · simp only [Option.bind_eq_some_iff] at h
    obtain ⟨children, -, ⟨names, refused⟩, hfill, h⟩ := h
    obtain rfl := fillChildren_accepts hfill
    simp only [Bool.false_eq_true, if_false, Option.some.injEq, Prod.mk.injEq] at h
    exact h.1.le

/-- A failing read goes unnoticed. -/
theorem ListsAll.reads (hf : NodeFile s node n f) (hdir : fatFileIsDirectory f = true)
    (hread : ReadsUnread t env s f node s₁)
    (h : ListsAll t s f cs (fatFuseReaddir t env s takesAll node)) :
    f.childrenRead = false → ChainReads t (s.setErrno 0).vol cs := by
  intro hunread
  by_contra hfails
  obtain ⟨⟨r, shown, s'⟩, houtcome⟩ := Option.ne_none_iff_exists'.mp h.returns
  have hlt := h.failed hunread hfails r shown s' houtcome
  have hle := fatFuseReaddir_nonneg hf hdir hread houtcome
  omega

/-- Behind the reading the labels `front` came in front of the children: for each live entry one
of its name, if the directory was unread and the tree lacked its path. -/
theorem exists_labelled_behind [t.Formatted] (hmarks : t.ClusterNumbersBelowMarks)
    (hsearch : ∀ path, fatTreeNodeSearch s path ≠ none) (hsizes : SizesPositive s.nodes)
    (hf : NodeFile s node n f) (hchain : ClusterChain t s.vol.fatMap (f.startCluster :: cs))
    (hlabels : Labelled s node labels) (hread : ReadsUnread t env s f node s₁)
    (hreads : f.childrenRead = false → ChainReads t (s.setErrno 0).vol (f.startCluster :: cs)) :
    ∃ front n₁ f₁, Labelled s₁ node (front ++ labels) ∧ NodeFile s₁ node n₁ f₁ ∧ 0 < n₁.size ∧
      ∀ child ∈ liveChildren t s.vol.disk f (f.startCluster :: cs),
        (f.childrenRead = true ∨ InTree s child.filepath →
          (front.flatMap shownLabel).count child.name = 0) ∧
        (f.childrenRead = false → ¬ InTree s child.filepath →
          (front.flatMap shownLabel).count child.name = 1) := by
  unfold ReadsUnread at hread
  cases hloaded : f.childrenRead with
  | true =>
      rw [if_neg (by simp [hloaded])] at hread
      obtain rfl := Option.some.inj hread
      refine ⟨[], n, f, (DirKept.of_vol node s _).labelled hlabels, ⟨hf.node, hf.live⟩,
        hsizes node n hf.node, fun child _ => ?_⟩
      simp
  | false =>
      rw [if_pos hloaded] at hread
      obtain ⟨added, logs, hlisted⟩ :=
        exists_firstListing hmarks hsearch hf hchain (hreads hloaded) hlabels hread
      obtain ⟨n₁, f₁, hf₁, -⟩ := hlisted.path
      refine ⟨logs.map FatFile.label ++ added.map FatFile.label, n₁, f₁, ?_, hf₁,
        hlisted.sizes hsizes node n₁ hf₁.node, fun child hchild => ?_⟩
      · rw [List.append_assoc]
        exact hlisted.labelled
      · rw [List.flatMap_append, flatMap_shownLabel, flatMap_shownLabel]
        obtain ⟨hold, hnew⟩ := hlisted.count child hchild
        exact ⟨fun h => hold (h.resolve_left Bool.false_ne_true), fun _ => hnew⟩

/-- The array that a listing fills, in terms of the state before it. -/
theorem listedCount_le_iff [t.Formatted] (hmarks : t.ClusterNumbersBelowMarks)
    (hsearch : ∀ path, fatTreeNodeSearch s path ≠ none) (hf : NodeFile s node n f)
    (hfound : fatTreeNodeSearch s f.filepath = some (some node))
    (hchain : ClusterChain t s.vol.fatMap (f.startCluster :: cs))
    (hlabels : Labelled s node labels) (hread : ReadsUnread t env s f node s₁)
    (hreads : f.childrenRead = false → ChainReads t (s.setErrno 0).vol (f.startCluster :: cs))
    (hplain : f.childrenRead = false → f.filepath = bbDirname → InTree s bbLogFile) :
    (listedCount t s f (f.startCluster :: cs) labels ≤
        listedEntriesNumber t s f (f.startCluster :: cs) → ArrayFits s₁ node) ∧
      ((f.childrenRead = false → f.filepath = rootPath → s.vol.IoSucceeds) → ArrayFits s₁ node →
        listedCount t s f (f.startCluster :: cs) labels ≤
          listedEntriesNumber t s f (f.startCluster :: cs)) := by
  unfold ReadsUnread at hread
  unfold listedCount listedEntriesNumber
  cases hloaded : f.childrenRead with
  | true =>
      rw [if_neg (by simp [hloaded])] at hread
      obtain rfl := Option.some.inj hread
      have hsame := arrayFits_iff (s := s.setErrno 0) ⟨hf.node, hf.live⟩
        ((DirKept.of_vol node s _).labelled hlabels)
      rw [if_pos rfl, if_pos rfl, hsame]
      exact ⟨id, fun _ => id⟩
  | false =>
      rw [if_pos hloaded] at hread
      obtain ⟨added, logs, hlisted⟩ :=
        exists_firstListing hmarks hsearch hf hchain (hreads hloaded) hlabels hread
      have hbb : f.filepath ≠ bbDirname ∨ InTree s bbLogFile := by
        by_cases hbb : f.filepath = bbDirname
        · exact Or.inr (hplain hloaded hbb)
        · exact Or.inl hbb
      obtain ⟨n₁, f₁, hf₁, hnumber⟩ := hlisted.file hbb
      have hadded := hlisted.length_added hsearch
      have hmost := hlisted.length_logs_le hsearch hbb
      rw [if_neg Bool.false_ne_true, if_neg Bool.false_ne_true,
        arrayFits_iff hf₁ hlisted.labelled, hnumber]
      simp only [List.length_append, List.length_map, hadded]
      refine ⟨fun hroom => by omega, fun hio hfits => ?_⟩
      have hleast := hlisted.le_length_logs hfound (hio trivial)
      omega

end Listing

/-- In memory an unread directory without children agrees if no name occurs twice. -/
theorem listingAgrees_fresh_iff {f : FatFile} {cs : List ℕ} (hunread : f.childrenRead = false)
    (hnew : ∀ child ∈ liveChildren t s.vol.disk f cs, ¬ InTree s child.filepath) :
    ListingAgrees t s f cs [] ↔ ((liveChildren t s.vol.disk f cs).map FatFile.name).Nodup := by
  rw [List.nodup_iff_count_eq_one]
  constructor
  · intro hagrees name hname
    obtain ⟨child, hchild, rfl⟩ := List.mem_map.mp hname
    have hcount := hagrees.unknown child hchild hunread (hnew child hchild)
    rw [← hcount, List.count_nil]
  · intro hnodup
    refine ⟨fun child hchild hknown => ?_, fun child hchild _ _ => ?_⟩
    · rcases hknown with hread | hinTree
      · simp [hunread] at hread
      · exact absurd hinTree (hnew child hchild)
    · rw [hnodup _ (List.mem_map_of_mem hchild), List.count_nil]

/-- In a mounted tree no node counts as empty. -/
theorem initFileTree_sizesPositive {v : Volume} {rootDirStartCluster : ℕ}
    (h : initFileTree v rootDirStartCluster = some s) : SizesPositive s.nodes := by
  simp only [initFileTree, Option.bind_eq_bind, Option.bind_eq_some_iff, Prod.exists] at h
  obtain ⟨made, v₁, -, rootDir, rfl, h⟩ := h
  obtain ⟨nodes, root', hinsert, rfl⟩ := fatTreeInsert_eq_some rfl h
  exact (hTreeInsert_eq_some hinsert).grown.sizes fun a n hn => by simp [Heap.get, Heap.empty] at hn

/-- The root directory holds the given entries, and the log directory is at cluster 3. -/
def listedImageOf (entries : List UInt8) : Volume :=
  { smallVolume [fatClusterEndOfChainMax, fatClusterBadSector] with
    disk := placeBytes entries 256
      (placeBytes (entryBytes [0x66, 0x73] [0x6c, 0x6f, 0x67] fileAttributeArchive 5 0) 384
        fun _ => 0) }

/-- The calls of the listing of the root transfer what they are asked for, and the next fails. -/
def failingImage : Volume :=
  { nestedImage with
    io := [.bytes 128, .bytes 32, .bytes 32, .bytes 32, .bytes 128, .error ⟨5, by decide⟩] }

/-- The root directory holds only the file `x`: its listing writes `x`, `/bb` and the null pointer
to an array of two. -/
theorem not_listsAll_overrun :
    ∃ s n f, initFileTree (listedImageOf (entryBytes [0x78] [] fileAttributeArchive 4 0)) 2 =
        some s ∧ NodeFile s 0 n f ∧
      (fatFuseReadChildren quadTable plainEnv (s.setErrno 0) 0).isSome ∧
      ¬ ListsAll quadTable s f [f.startCluster]
        (fatFuseReaddir quadTable plainEnv s takesAll 0) := by
  have hrun : (initFileTree (listedImageOf (entryBytes [0x78] [] fileAttributeArchive 4 0))
      2).bind (fun s => (s.nodes.get 0).bind fun n => (s.files.get n.data).map fun _ =>
        decide ((fatFuseReadChildren quadTable plainEnv (s.setErrno 0) 0).isSome ∧
          (fatFuseReaddir quadTable plainEnv s takesAll 0).isNone)) = some true := by
    decide +kernel
  simp only [Option.bind_eq_some_iff, Option.map_eq_some_iff, decide_eq_true_eq] at hrun
  obtain ⟨s, hmount, n, hn, f, hlive, hread, hfault⟩ := hrun
  exact ⟨s, n, f, hmount, ⟨hn, hlive⟩, hread, fun hall =>
    hall.returns (Option.isNone_iff_eq_none.mp hfault)⟩

end SistOp.FatFuse
