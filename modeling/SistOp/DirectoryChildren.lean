import SistOp.DirectoryListing
import SistOp.DirectorySlots
import SistOp.FileDelete
import SistOp.FilePwrite
import SistOp.FullTransfers
import Mathlib.Tactic

/-!
# Reading a directory that has more than one cluster

The entries of a directory are the slots of its clusters, one cluster after the other, and
the first end mark ends them.  The listing numbers the slots of each cluster from zero and
goes on behind an end mark, so it reads the directory as a whole only when the first
cluster holds all of it.
-/

namespace SistOp.FatFuse

variable {t : FatTable}

/-! ## Entries in front of the end mark -/

/-- The entries in front of the first end mark. -/
def frontEntries (ds : List FatDirEntry) : List FatDirEntry :=
  ds.takeWhile fun d => !isEndOfDirectory d

/-- Those that are not skipped, with their numbers counted from `first`. -/
def listedEntries (ds : List FatDirEntry) (first : ℕ) : List (FatDirEntry × ℕ) :=
  ((frontEntries ds).zipIdx first).filter fun e => !ignoreDentry e.1

/-- The file of entry number `e.2` of a directory. -/
def numberedChild (dir : FatFile) (e : FatDirEntry × ℕ) : FatFile :=
  initFileFromDentry e.1 { dir with nentries := e.2 }

theorem frontEntries_cons (d : FatDirEntry) (ds : List FatDirEntry) :
    frontEntries (d :: ds) = if isEndOfDirectory d then [] else d :: frontEntries ds := by
  unfold frontEntries
  rw [List.takeWhile_cons]
  cases isEndOfDirectory d <;> simp

theorem listedEntries_cons (d : FatDirEntry) (ds : List FatDirEntry) (first : ℕ) :
    listedEntries (d :: ds) first =
      if isEndOfDirectory d then []
      else if ignoreDentry d then listedEntries ds (first + 1)
      else (d, first) :: listedEntries ds (first + 1) := by
  unfold listedEntries
  rw [frontEntries_cons]
  cases isEndOfDirectory d <;> cases hignore : ignoreDentry d <;> simp [hignore]

theorem length_frontEntries_le (ds : List FatDirEntry) :
    (frontEntries ds).length ≤ ds.length := by
  have hprefix : frontEntries ds <+: ds := List.takeWhile_prefix _
  exact hprefix.length_le

/-- An end mark in the first part ends the whole. -/
theorem frontEntries_append {ds es : List FatDirEntry}
    (h : (frontEntries ds).length < ds.length) : frontEntries (ds ++ es) = frontEntries ds := by
  unfold frontEntries at *
  rw [List.takeWhile_append, if_neg (by omega)]

theorem length_frontEntries_append {ds : List FatDirEntry} (es : List FatDirEntry)
    (h : (frontEntries ds).length = ds.length) :
    ds.length ≤ (frontEntries (ds ++ es)).length := by
  unfold frontEntries at *
  rw [List.takeWhile_append, if_pos h, List.length_append]
  exact Nat.le_add_right _ _

theorem listedEntries_eq_nil_iff (ds : List FatDirEntry) (first : ℕ) :
    listedEntries ds first = [] ↔ ∀ d ∈ frontEntries ds, ignoreDentry d = true := by
  induction ds generalizing first with
  | nil => simp [listedEntries, frontEntries]
  | cons d ds ih =>
      rw [listedEntries_cons, frontEntries_cons]
      cases isEndOfDirectory d <;> cases hignore : ignoreDentry d <;> simp [hignore, ih]

/-! ## One cluster -/

/-- The entries that the slots of a cluster hold. -/
def clusterSlots (t : FatTable) (disk : ℕ → UInt8) (c : ℕ) : List FatDirEntry :=
  (List.range' 0 (slotsPerCluster t)).map (diskSlot t disk c)

theorem length_clusterSlots (disk : ℕ → UInt8) (c : ℕ) :
    (clusterSlots t disk c).length = slotsPerCluster t := by
  simp [clusterSlots]

theorem clusterEntries_eq_listedEntries (buffer : ℕ → UInt8) (slots slot : ℕ)
    (dir : FatFile) :
    (clusterEntries buffer slots slot).map (childOf dir) =
      (listedEntries ((List.range' slot slots).map fun j =>
        FatDirEntry.ofStore buffer (fatDirEntryByteSize * j)) slot).map (numberedChild dir) := by
  induction slots generalizing slot with
  | zero => rfl
  | succ slots ih =>
      rw [List.range'_succ, List.map_cons, listedEntries_cons, clusterEntries]
      split_ifs
      · rfl
      · exact ih (slot + 1)
      · rw [List.map_cons, List.map_cons, ih (slot + 1)]
        rfl

/-- The number that a cluster leaves in `nentries`: the slot of its first end mark, or the
last slot. -/
theorem nentries_readClusterDirEntries (buffer : ℕ → UInt8) (slots slot : ℕ) (dir : FatFile)
    (elems : List FatFile) :
    (readClusterDirEntries buffer (slots + 1) slot dir elems).1.nentries =
      slot + min (frontEntries ((List.range' slot (slots + 1)).map fun j =>
        FatDirEntry.ofStore buffer (fatDirEntryByteSize * j))).length slots := by
  induction slots generalizing slot dir elems with
  | zero =>
      simp only [readClusterDirEntries]
      split_ifs <;> simp
  | succ slots ih =>
      rw [List.range'_succ, List.map_cons, frontEntries_cons, readClusterDirEntries]
      split_ifs
      · simp
      · rw [ih, List.length_cons]
        omega
      · rw [ih, List.length_cons]
        omega

/-- A buffer with the bytes of a cluster holds its slots. -/
theorem ofStore_buffer {buffer : ℤ → UInt8} {disk : ℕ → UInt8} {c : ℕ}
    (hbuffer : ∀ i : ℕ, i < fatTableBytesPerCluster t →
      buffer i = disk (fatTableClusterOffset t c + i)) :
    ((List.range' 0 (slotsPerCluster t)).map fun j => FatDirEntry.ofStore
        (fun i : ℕ => buffer i) (fatDirEntryByteSize * j)) = clusterSlots t disk c := by
  apply List.map_congr_left
  intro j hj
  have hslot : j < slotsPerCluster t := by
    rw [List.mem_range'] at hj
    omega
  apply FatDirEntry.ext_byte
  intro i hi
  rw [diskSlot, FatDirEntry.byte_ofStore _ _ hi, FatDirEntry.byte_ofStore _ _ hi,
    hbuffer _ (slot_byte_lt hslot hi), slotAddr, Nat.add_assoc]

/-! ## The chain -/

theorem FatFile.Relisted.numberedChild {dir dir' : FatFile} (h : dir.Relisted dir') :
    numberedChild dir' = numberedChild dir := by
  obtain ⟨_, _, rfl⟩ := h
  rfl

/-- The number that the last cluster of `cs` leaves, when there is one. -/
def lastNumber (t : FatTable) (disk : ℕ → UInt8) (cs : List ℕ) (before : ℕ) : ℕ :=
  (cs.getLast?.map fun c =>
    min (frontEntries (clusterSlots t disk c)).length (slotsPerCluster t - 1)).getD before

theorem lastNumber_cons (disk : ℕ → UInt8) (c : ℕ) (cs : List ℕ) (before : ℕ) :
    lastNumber t disk (c :: cs) before =
      lastNumber t disk cs
        (min (frontEntries (clusterSlots t disk c)).length (slotsPerCluster t - 1)) := by
  unfold lastNumber
  cases cs with
  | nil => rfl
  | cons d ds =>
      have hlast : (d :: ds).getLast? = some ((d :: ds).getLast (by simp)) :=
        List.getLast?_eq_some_getLast _
      rw [List.getLast?_cons_cons, hlast]
      rfl

/-- Each read of a cluster of the chain transfers the whole cluster. -/
def ChainReads (t : FatTable) : Volume → List ℕ → Prop
  | _, [] => True
  | v, c :: cs =>
      let read := fullPread v (fun _ => 0) (fatTableBytesPerCluster t)
        (fatTableClusterOffset t c : ℕ)
      read.1 = fatTableBytesPerCluster t ∧ ChainReads t read.2.2 cs

theorem chainReads_of_io {v : Volume} (hio : v.io = []) (cs : List ℕ) : ChainReads t v cs := by
  induction cs with
  | nil => trivial
  | cons c cs ih =>
      have hread := fullPread_of_ioSucceeds hio (fun _ => 0) (fatTableBytesPerCluster t)
        (fatTableClusterOffset t c)
      exact ⟨by rw [hread], by rw [hread]; exact ih⟩

/-- What the loop does on a chain: each cluster is listed as if it were the first one. -/
theorem readChildrenLoop_onChain [t.Formatted] (hmarks : t.ClusterNumbersBelowMarks) {v : Volume}
    (fuel : ℕ) {cs : List ℕ} (h : cs = [] ∨ ClusterChain t v.fatMap cs)
    (hreads : ChainReads t v cs) (dir : FatFile) (elems : List FatFile)
    (hfuel : cs.length < fuel) :
    ∃ dir' v', dir.Relisted dir' ∧ dir'.nentries = lastNumber t v.disk cs dir.nentries ∧
      (v.io = [] → v' = v) ∧
      readChildrenLoop t fuel v (restStart cs) dir elems =
        some (dir', elems ++ cs.flatMap fun c =>
          (listedEntries (clusterSlots t v.disk c) 0).map (numberedChild dir), v') := by
  induction cs generalizing fuel v dir elems with
  | nil =>
      obtain ⟨fuel, rfl⟩ : ∃ n, fuel = n + 1 := ⟨fuel - 1, by omega⟩
      refine ⟨{ dir with childrenRead := true }, v, ⟨dir.nentries, true, rfl⟩, rfl,
        fun _ => rfl, ?_⟩
      rw [readChildrenLoop, restStart, List.head?_nil, Option.getD_none,
        if_neg not_isValid_endOfChainMax]
      simp
  | cons c cs ih =>
      obtain ⟨fuel, rfl⟩ : ∃ n, fuel = n + 1 := ⟨fuel - 1, by omega⟩
      have hchain : ClusterChain t v.fatMap (c :: cs) := by
        rcases h with hnil | hchain
        · contradiction
        · exact hchain
      have hvalid := isValid_of_valid hmarks (hchain.valid c (by simp))
      obtain ⟨hcomplete, hreads⟩ := hreads
      -- the read gets the bytes of the cluster and keeps the disk and the FAT
      let read := fullPread v (fun _ => 0) (fatTableBytesPerCluster t)
        (fatTableClusterOffset t c : ℕ)
      have hkept : v.Reads read.2.2 := fullPread_reads v (fun _ => 0)
        (fatTableBytesPerCluster t) (fatTableClusterOffset t c : ℕ)
      have hrest : cs = [] ∨ ClusterChain t read.2.2.fatMap cs := by
        rw [hkept.fatMap]
        by_cases hne : cs = []
        · exact Or.inl hne
        · exact Or.inr (hchain.tail hne)
      obtain ⟨slots, hslots⟩ : ∃ n, slotsPerCluster t = n + 1 :=
        ⟨slotsPerCluster t - 1, by have hpos := slotsPerCluster_pos (t := t); omega⟩
      have hbuffer := @ofStore_buffer t read.2.1 v.disk c fun i hi => by
        rw [fullPread_complete hcomplete (by omega) (by omega)]
        congr 1
      obtain ⟨hrelisted, hlist⟩ :=
        readClusterDirEntries_eq (fun i : ℕ => read.2.1 i) (slotsPerCluster t) 0 dir elems
      have hnumber := nentries_readClusterDirEntries (fun i : ℕ => read.2.1 i) slots 0 dir elems
      rw [clusterEntries_eq_listedEntries, hbuffer] at hlist
      rw [← hslots, hbuffer, Nat.zero_add] at hnumber
      obtain ⟨dir', v', hdir', hnentries, hsame, hloop⟩ := ih fuel hrest hreads
        (readClusterDirEntries (fun i : ℕ => read.2.1 i) (slotsPerCluster t) 0 dir elems).1
        (readClusterDirEntries (fun i : ℕ => read.2.1 i) (slotsPerCluster t) 0 dir elems).2
        (by simpa using hfuel)
      refine ⟨dir', v', hrelisted.trans hdir', ?_, fun hio => ?_, ?_⟩
      · rw [hnentries, hnumber, hkept.disk, lastNumber_cons, hslots, Nat.add_sub_cancel]
      · have hread : read = _ := fullPread_of_ioSucceeds hio (fun _ => 0)
          (fatTableBytesPerCluster t) (fatTableClusterOffset t c)
        have hvol : read.2.2 = v := by rw [hread]
        rw [← hvol]
        exact hsame (by rw [hvol]; exact hio)
      · have hstart : restStart (c :: cs) = c := rfl
        have hnext : fatTableGetNextCluster t read.2.2 c = some (restStart cs) := by
          rw [← hchain.getNext_head, fatTableGetNextCluster, fatTableGetNextCluster, fatMapRead,
            fatMapRead, hkept.fatMap]
        have hchildren := hrelisted.numberedChild
        rw [hlist, List.append_assoc, hchildren, hkept.disk, ← hlist] at hloop
        rw [readChildrenLoop, hstart, if_pos hvalid, List.flatMap_cons]
        simp only
        rw [if_neg (not_not.mpr hcomplete), hnext, Option.bind_eq_bind, Option.bind_some]
        exact hloop

/-! ## The whole directory -/

/-- All entries of a directory on the clusters `cs`. -/
def directoryEntries (t : FatTable) (disk : ℕ → UInt8) (cs : List ℕ) : List FatDirEntry :=
  cs.flatMap (clusterSlots t disk)

/-- Reading the children gives the entries in front of the first end mark that are not
skipped, each with its number in the directory, and counts the entries in front of the
mark. -/
def ReadsWholeDirectory (t : FatTable) (v : Volume) (dir : FatFile) (cs : List ℕ) : Prop :=
  ∃ dir' v', fatFileReadChildren t v dir =
      some (dir', (listedEntries (directoryEntries t v.disk cs) 0).map (numberedChild dir),
        v') ∧
    dir'.nentries = (frontEntries (directoryEntries t v.disk cs)).length

/-- The first cluster `c` has an end mark, the clusters `cs` behind it list nothing, and the
last one leaves the slot of that mark. -/
structure FirstClusterHoldsAll (t : FatTable) (disk : ℕ → UInt8) (c : ℕ) (cs : List ℕ) :
    Prop where
  marked : (frontEntries (clusterSlots t disk c)).length < slotsPerCluster t
  silent : ∀ d ∈ cs, ∀ e ∈ frontEntries (clusterSlots t disk d), ignoreDentry e = true
  number : min (frontEntries (clusterSlots t disk ((c :: cs).getLast (by simp)))).length
    (slotsPerCluster t - 1) = (frontEntries (clusterSlots t disk c)).length

theorem lastNumber_eq (disk : ℕ → UInt8) (c : ℕ) (cs : List ℕ) (before : ℕ) :
    lastNumber t disk (c :: cs) before =
      min (frontEntries (clusterSlots t disk ((c :: cs).getLast (by simp)))).length
        (slotsPerCluster t - 1) := by
  rw [lastNumber, List.getLast?_eq_some_getLast (by simp)]
  rfl

/-- The call on a chain of clusters. -/
theorem fatFileReadChildren_onReads [t.Formatted] (hmarks : t.ClusterNumbersBelowMarks) {v : Volume}
    (dir : FatFile) {cs : List ℕ}
    (hchain : ClusterChain t v.fatMap (dir.startCluster :: cs))
    (hreads : ChainReads t v (dir.startCluster :: cs)) :
    ∃ dir' v', dir'.nentries = lastNumber t v.disk (dir.startCluster :: cs) dir.nentries ∧
      (v.io = [] → v' = v) ∧
      fatFileReadChildren t v dir =
        some (dir', (dir.startCluster :: cs).flatMap (fun c =>
          (listedEntries (clusterSlots t v.disk c) 0).map (numberedChild dir)), v') := by
  have hlength := hchain.length_le
  obtain ⟨dir', v', -, hnumber, hsame, hloop⟩ := readChildrenLoop_onChain hmarks
    (t.fatEntries + v.io.length + 1) (Or.inr hchain) hreads dir [] (by omega)
  refine ⟨dir', v', hnumber, hsame, ?_⟩
  rw [fatFileReadChildren, if_pos (hchain.valid _ (by simp))]
  exact hloop

/-- When no call fails the volume is as before. -/
theorem fatFileReadChildren_onChain [t.Formatted] (hmarks : t.ClusterNumbersBelowMarks) {v : Volume}
    (dir : FatFile) {cs : List ℕ}
    (hchain : ClusterChain t v.fatMap (dir.startCluster :: cs)) (hio : v.io = []) :
    ∃ dir', dir'.nentries = lastNumber t v.disk (dir.startCluster :: cs) dir.nentries ∧
      fatFileReadChildren t v dir =
        some (dir', (dir.startCluster :: cs).flatMap (fun c =>
          (listedEntries (clusterSlots t v.disk c) 0).map (numberedChild dir)), v) := by
  obtain ⟨dir', v', hnumber, hsame, hread⟩ := fatFileReadChildren_onReads hmarks dir hchain
    (chainReads_of_io hio _)
  obtain rfl := hsame hio
  exact ⟨dir', hnumber, hread⟩

/-- On a formatted table, the directory is read as a whole just when its first cluster holds
all of it. -/
theorem readsWholeDirectory_iff [t.Formatted] (hmarks : t.ClusterNumbersBelowMarks) {v : Volume}
    (dir : FatFile) {cs : List ℕ}
    (hchain : ClusterChain t v.fatMap (dir.startCluster :: cs)) (hio : v.io = []) :
    ReadsWholeDirectory t v dir (dir.startCluster :: cs) ↔
      FirstClusterHoldsAll t v.disk dir.startCluster cs := by
  obtain ⟨dir', hnumber, hresult⟩ := fatFileReadChildren_onChain hmarks dir hchain hio
  have hpos := slotsPerCluster_pos (t := t)
  have hfirst := length_frontEntries_le (clusterSlots t v.disk dir.startCluster)
  rw [length_clusterSlots] at hfirst
  rw [lastNumber_eq] at hnumber
  have hwhole : directoryEntries t v.disk (dir.startCluster :: cs) =
      clusterSlots t v.disk dir.startCluster ++ directoryEntries t v.disk cs := rfl
  -- an end mark in the first cluster is the end mark of the directory
  have hmarked : (frontEntries (clusterSlots t v.disk dir.startCluster)).length <
        slotsPerCluster t →
      frontEntries (directoryEntries t v.disk (dir.startCluster :: cs)) =
        frontEntries (clusterSlots t v.disk dir.startCluster) := by
    intro hlt
    rw [hwhole]
    exact frontEntries_append (by rwa [length_clusterSlots])
  constructor
  · rintro ⟨dir₁, v₁, hread, hcount⟩
    rw [hresult] at hread
    simp only [Option.some.injEq, Prod.mk.injEq] at hread
    obtain ⟨rfl, hlist, -⟩ := hread
    have hlt : (frontEntries (clusterSlots t v.disk dir.startCluster)).length <
        slotsPerCluster t := by
      by_contra hfull
      have hlong := length_frontEntries_append (directoryEntries t v.disk cs)
        (show (frontEntries (clusterSlots t v.disk dir.startCluster)).length =
          (clusterSlots t v.disk dir.startCluster).length by
            rw [length_clusterSlots]; omega)
      rw [length_clusterSlots, ← hwhole, ← hcount, hnumber] at hlong
      omega
    have hfront := hmarked hlt
    refine ⟨hlt, ?_, ?_⟩
    · rw [listedEntries, hfront, ← listedEntries, List.flatMap_cons] at hlist
      have hnone := List.append_right_eq_self.mp hlist
      intro d hd
      have hd' := List.flatMap_eq_nil_iff.mp hnone d hd
      exact (listedEntries_eq_nil_iff _ 0).mp (List.map_eq_nil_iff.mp hd')
    · rw [← hnumber, hcount, hfront]
  · intro h
    have hfront := hmarked h.marked
    refine ⟨dir', v, ?_, ?_⟩
    · have hnone : cs.flatMap (fun c =>
          (listedEntries (clusterSlots t v.disk c) 0).map (numberedChild dir)) = [] := by
        rw [List.flatMap_eq_nil_iff]
        intro d hd
        rw [(listedEntries_eq_nil_iff _ 0).mpr (h.silent d hd), List.map_nil]
      rw [hresult, List.flatMap_cons, hnone, List.append_nil, listedEntries, listedEntries,
        hfront]
    · rw [hnumber, hfront]
      exact h.number

/-- Clusters of two slots. -/
def pairTable : FatTable :=
  { smallTable with
    clusterOrder := 6
    clusterOrder_ge := by decide
    clusterOrder_le := by decide }

instance : pairTable.Formatted := ⟨by decide, by decide, by decide⟩

/-- A directory at cluster 2 that holds the file `A` and an end mark. -/
def markedVolume : Volume :=
  { smallVolume [fatClusterEndOfChainMax] with
    disk := placeBytes (entryBytes [65] [] fileAttributeArchive 3 0) 64 fun _ => 0 }

theorem readsWholeDirectory_marked :
    ReadsWholeDirectory pairTable markedVolume (emptyFile 2 (by decide)) [2] ∧
      (listedEntries (directoryEntries pairTable markedVolume.disk [2]) 0).length = 1 := by
  have hchain : ClusterChain pairTable markedVolume.fatMap [2] :=
    ⟨by decide, by decide, by decide⟩
  refine ⟨?_, by decide⟩
  exact (readsWholeDirectory_iff (by decide) (emptyFile 2 (by decide)) hchain rfl).mpr
    ⟨by decide, by simp, by decide⟩

/-- A directory of two clusters of one slot each, both filled by a file. -/
def filledVolume : Volume :=
  { smallVolume [3, fatClusterEndOfChainMax] with
    disk := placeBytes (entryBytes [65] [] fileAttributeArchive 4 0) 64
      (placeBytes (entryBytes [66] [] fileAttributeArchive 5 0) 96 fun _ => 0) }

theorem not_readsWholeDirectory_filled :
    ¬ ReadsWholeDirectory smallTable filledVolume (emptyFile 2 (by decide)) [2, 3] ∧
      ∃ dir' children v',
        fatFileReadChildren smallTable filledVolume (emptyFile 2 (by decide)) =
            some (dir', children, v') ∧
          children.map (fun child => child.posInParent) = [0, 0] ∧ dir'.nentries = 0 := by
  have hchain : ClusterChain smallTable filledVolume.fatMap [2, 3] :=
    ⟨by decide, by decide, by decide⟩
  refine ⟨?_, ?_⟩
  · intro hwhole
    have hall := (readsWholeDirectory_iff (by decide) (emptyFile 2 (by decide)) hchain
      rfl).mp hwhole
    exact absurd hall.marked (by decide)
  · obtain ⟨dir', hnumber, hread⟩ := fatFileReadChildren_onChain (by decide)
      (emptyFile 2 (by decide)) hchain rfl
    refine ⟨dir', _, _, hread, by decide, ?_⟩
    rw [hnumber]
    decide

end SistOp.FatFuse
