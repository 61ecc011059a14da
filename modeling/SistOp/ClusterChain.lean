import SistOp.FatTable
import SistOp.SuccessorChain
import Mathlib.Tactic

/-!
# Cluster chains

The FAT links clusters by `chainNext`: an entry that is not the number of a data
cluster ends a chain.  A `ClusterChain` is such a chain of used data clusters.
What the table functions do to chains is said by one relation, `Extends`: new
clusters, free before, were linked behind a chain and nothing else changed.
-/

namespace SistOp.FatFuse

open ByteStore SuccessorChain

variable {t : FatTable}

/-- The successor of a cluster, by the rule of `fat_table_get_next_cluster`. -/
def chainNext (t : FatTable) (fatMap : ℕ → ℕ) (c : ℕ) : Option ℕ :=
  if fatTableIsValidClusterNumber t (fatMap c) then some (fatMap c) else none

structure ClusterChain (t : FatTable) (fatMap : ℕ → ℕ) (cs : List ℕ) : Prop where
  links : IsChain (chainNext t fatMap) cs
  valid : ∀ c ∈ cs, fatTableIsValidClusterNumber t c
  used : ∀ c ∈ cs, fatMap c ≠ fatClusterFree

/-- The numbers of data clusters stay below the marks of the FAT. -/
def FatTable.ClusterNumbersBelowMarks (t : FatTable) : Prop :=
  t.numDataClusters + 2 ≤ fatClusterBadSector

instance : Decidable t.ClusterNumbersBelowMarks :=
  inferInstanceAs (Decidable (_ ≤ _))

/-- A free data cluster. -/
def IsFree (t : FatTable) (fatMap : ℕ → ℕ) (c : ℕ) : Prop :=
  fatTableIsValidClusterNumber t c ∧ fatMap c = fatClusterFree

instance (fatMap : ℕ → ℕ) (c : ℕ) : Decidable (IsFree t fatMap c) :=
  inferInstanceAs (Decidable (_ ∧ _))

def freeClusters (t : FatTable) (fatMap : ℕ → ℕ) : Finset ℕ :=
  (Finset.range (t.numDataClusters + 2)).filter (IsFree t fatMap)

theorem mem_freeClusters {fatMap : ℕ → ℕ} {c : ℕ} :
    c ∈ freeClusters t fatMap ↔ IsFree t fatMap c := by
  rw [freeClusters, Finset.mem_filter, Finset.mem_range]
  exact ⟨fun h => h.2, fun h => ⟨h.1.2, h⟩⟩

theorem ClusterChain.nodup {fatMap : ℕ → ℕ} {cs : List ℕ}
    (h : ClusterChain t fatMap cs) : cs.Nodup := h.links.nodup

theorem ClusterChain.unique {fatMap : ℕ → ℕ} {c : ℕ} {cs ds : List ℕ}
    (hcs : ClusterChain t fatMap (c :: cs)) (hds : ClusterChain t fatMap (c :: ds)) :
    cs = ds := hcs.links.unique hds.links

/-- A chain stays a chain when its entries do. -/
theorem ClusterChain.congr {fatMap fatMap' : ℕ → ℕ} {cs : List ℕ}
    (h : ClusterChain t fatMap cs) (hsame : ∀ c ∈ cs, fatMap' c = fatMap c) :
    ClusterChain t fatMap' cs where
  links := h.links.congr fun c hc => by simp [chainNext, hsame c hc]
  valid := h.valid
  used := fun c hc => by
    rw [hsame c hc]
    exact h.used c hc

/-- A chain has fewer clusters than the table has entries. -/
theorem ClusterChain.length_le [t.Formatted] {fatMap : ℕ → ℕ} {cs : List ℕ}
    (h : ClusterChain t fatMap cs) : cs.length ≤ t.fatEntries := by
  have hsubset : cs.toFinset ⊆ Finset.range t.fatEntries := by
    intro c hc
    rw [Finset.mem_range]
    exact valid_lt_entries (h.valid c (List.mem_toFinset.mp hc))
  have hcard := Finset.card_le_card hsubset
  rwa [List.toFinset_card_of_nodup h.nodup, Finset.card_range] at hcard

section Marks

theorem not_valid_endOfChain (hmarks : t.ClusterNumbersBelowMarks) :
    ¬ fatTableIsValidClusterNumber t fatClusterEndOfChainMax := by
  rintro ⟨-, hlt⟩
  have hbound : t.numDataClusters + 2 ≤ 0x0FFFFFF7 := hmarks
  simp only [fatClusterEndOfChainMax] at hlt
  omega

theorem not_isEOC_of_valid (hmarks : t.ClusterNumbersBelowMarks) {c : ℕ}
    (hc : fatTableIsValidClusterNumber t c) : ¬ fatTableClusterIsEOC c := by
  rintro ⟨hmin, -⟩
  have hlt := hc.2
  have hbound : t.numDataClusters + 2 ≤ 0x0FFFFFF7 := hmarks
  simp only [fatClusterEndOfChainMin] at hmin
  omega

theorem isValid_of_valid (hmarks : t.ClusterNumbersBelowMarks) {c : ℕ}
    (hc : fatTableIsValidClusterNumber t c) : fatTableClusterIsValid c := by
  refine ⟨not_isEOC_of_valid hmarks hc, ?_⟩
  have hlt := hc.2
  have hbound : t.numDataClusters + 2 ≤ 0x0FFFFFF7 := hmarks
  simp only [fatTableClusterIsBadSector, fatClusterBadSector]
  omega

theorem isEOC_endOfChainMax : fatTableClusterIsEOC fatClusterEndOfChainMax := by
  decide

theorem not_isValid_endOfChainMax :
    ¬ fatTableClusterIsValid fatClusterEndOfChainMax := by
  decide

end Marks

/-! ## Reading the table -/

theorem getNextCluster_eq {v : Volume} {c : ℕ} (hc : c < t.fatEntries) :
    fatTableGetNextCluster t v c =
      some ((chainNext t v.fatMap c).getD fatClusterEndOfChainMax) := by
  unfold fatTableGetNextCluster fatMapRead chainNext
  simp only [if_pos hc, Option.bind_eq_bind, Option.bind_some]
  split <;> simp

theorem getNextCluster_outside {v : Volume} {c : ℕ} (hc : t.fatEntries ≤ c) :
    fatTableGetNextCluster t v c = none := by
  simp [fatTableGetNextCluster, fatMapRead, Nat.not_lt.mpr hc]

theorem ClusterChain.getNext_inner [t.Formatted] {v : Volume} {cs : List ℕ}
    (h : ClusterChain t v.fatMap cs) {k : ℕ} (hk : k + 1 < cs.length) :
    fatTableGetNextCluster t v cs[k] = some cs[k + 1] := by
  rw [getNextCluster_eq (valid_lt_entries (h.valid _ (List.getElem_mem _))),
    h.links.next_getElem hk, Option.getD_some]

theorem ClusterChain.getNext_last [t.Formatted] {v : Volume} {cs : List ℕ}
    (h : ClusterChain t v.fatMap cs) {k : ℕ} (hk : k < cs.length)
    (hlast : k + 1 = cs.length) :
    fatTableGetNextCluster t v cs[k] = some fatClusterEndOfChainMax := by
  rw [getNextCluster_eq (valid_lt_entries (h.valid _ (List.getElem_mem _))),
    h.links.next_last hk hlast, Option.getD_none]

/-- The search only stops at a free entry. -/
theorem nextFreeLoop_eq_some {v : Volume} {fuel start c : ℕ}
    (h : fatTableNextFreeLoop t v fuel start = some c) :
    start ≤ c ∧ c < t.fatEntries ∧ v.fatMap c = fatClusterFree ∧
      ∀ d, start ≤ d → d < c → v.fatMap d ≠ fatClusterFree := by
  induction fuel generalizing start with
  | zero => simp [fatTableNextFreeLoop] at h
  | succ fuel ih =>
      unfold fatTableNextFreeLoop fatMapRead at h
      by_cases hlt : start < t.fatEntries
      · simp only [if_pos hlt, Option.bind_eq_bind, Option.bind_some] at h
        by_cases hused : v.fatMap start ≠ fatClusterFree
        · rw [if_pos hused] at h
          obtain ⟨hge, hbound, hfree, hfirst⟩ := ih h
          refine ⟨by omega, hbound, hfree, fun d hd hdc => ?_⟩
          rcases hd.eq_or_lt with rfl | hlater
          · exact hused
          · exact hfirst d (by omega) hdc
        · rw [if_neg hused] at h
          have heq : start = c := Option.some.inj h
          subst heq
          exact ⟨le_rfl, hlt, not_not.mp hused, fun d hd hdc => by omega⟩
      · simp [if_neg hlt] at h

theorem exists_nextFreeLoop {v : Volume} (fuel : ℕ) {start c : ℕ} (hge : start ≤ c)
    (hbound : c < t.fatEntries) (hfree : v.fatMap c = fatClusterFree)
    (hfuel : c < start + fuel) :
    ∃ d ≤ c, fatTableNextFreeLoop t v fuel start = some d := by
  induction fuel generalizing start with
  | zero => omega
  | succ fuel ih =>
      unfold fatTableNextFreeLoop fatMapRead
      simp only [if_pos (show start < t.fatEntries by omega), Option.bind_eq_bind,
        Option.bind_some]
      by_cases hused : v.fatMap start ≠ fatClusterFree
      · rw [if_pos hused]
        have hne : start ≠ c := by
          rintro rfl
          exact hused hfree
        exact ih (by omega) (by omega)
      · rw [if_neg hused]
        exact ⟨start, hge, rfl⟩

theorem getNextFreeCluster_eq_some {v : Volume} {c : ℕ}
    (h : fatTableGetNextFreeCluster t v = some c) :
    IsFree t v.fatMap c ∨ c = fatClusterEndOfChainMax := by
  unfold fatTableGetNextFreeCluster at h
  simp only [Option.bind_eq_bind, Option.bind_eq_some_iff] at h
  obtain ⟨d, hloop, h⟩ := h
  obtain ⟨-, -, hfree, -⟩ := nextFreeLoop_eq_some hloop
  by_cases hvalid : fatTableIsValidClusterNumber t d
  · rw [if_pos hvalid] at h
    have heq : d = c := Option.some.inj h
    subst heq
    exact Or.inl ⟨hvalid, hfree⟩
  · rw [if_neg hvalid] at h
    exact Or.inr (Option.some.inj h).symm

/-- While a data cluster is free, the search returns one. -/
theorem exists_getNextFreeCluster [t.Formatted] {v : Volume} {c : ℕ} (hc : IsFree t v.fatMap c) :
    ∃ d, fatTableGetNextFreeCluster t v = some d ∧ IsFree t v.fatMap d := by
  obtain ⟨hvalid, hfree⟩ := hc
  have hbound := valid_lt_entries hvalid
  obtain ⟨d, hle, hloop⟩ := exists_nextFreeLoop t.fatEntries hvalid.1 hbound
    hfree (by omega)
  obtain ⟨hge, -, hdfree, -⟩ := nextFreeLoop_eq_some hloop
  have hd : fatTableIsValidClusterNumber t d := ⟨hge, lt_of_le_of_lt hle hvalid.2⟩
  refine ⟨d, ?_, hd, hdfree⟩
  simp [fatTableGetNextFreeCluster, hloop, hd]

/-- Walking `p` links from cluster `j` of a chain. -/
theorem ClusterChain.seekLoop_eq_of_isValid [t.Formatted] {v : Volume} {cs : List ℕ}
    (h : ClusterChain t v.fatMap cs) (hvalid : ∀ c ∈ cs, fatTableClusterIsValid c) (p j : ℕ)
    (hj : j < cs.length) :
    fatTableSeekLoop t v p cs[j] =
      if hin : j + p < cs.length then some (cs[j + p], v)
      else if j + p = cs.length then some (fatClusterEndOfChainMax, v)
      else some (0, { v with errno := Errno.eoverflow }) := by
  have hmark : ∀ i (hi : i < cs.length), cs[i] ≠ fatClusterEndOfChainMax := by
    intro i hi heq
    exact not_isValid_endOfChainMax (heq ▸ hvalid _ (List.getElem_mem hi))
  induction p generalizing j with
  | zero => simp [fatTableSeekLoop, hj]
  | succ p ih =>
      unfold fatTableSeekLoop
      rw [if_neg (hmark j hj)]
      by_cases hlast : j + 1 = cs.length
      · rw [h.getNext_last hj hlast]
        simp only [Option.bind_eq_bind, Option.bind_some]
        rw [dif_neg (by omega)]
        cases p with
        | zero => simp [fatTableSeekLoop, hlast]
        | succ p =>
            rw [if_neg (by omega)]
            simp [fatTableSeekLoop]
      · have hinner : j + 1 < cs.length := by omega
        rw [h.getNext_inner hinner]
        simp only [Option.bind_eq_bind, Option.bind_some]
        rw [ih (j + 1) hinner]
        simp only [show j + 1 + p = j + (p + 1) by omega]

theorem ClusterChain.seekLoop_eq [t.Formatted] (hmarks : t.ClusterNumbersBelowMarks) {v : Volume}
    {cs : List ℕ} (h : ClusterChain t v.fatMap cs) (p j : ℕ) (hj : j < cs.length) :
    fatTableSeekLoop t v p cs[j] =
      if hin : j + p < cs.length then some (cs[j + p], v)
      else if j + p = cs.length then some (fatClusterEndOfChainMax, v)
      else some (0, { v with errno := Errno.eoverflow }) :=
  h.seekLoop_eq_of_isValid (fun c hc => isValid_of_valid hmarks (h.valid c hc)) p j hj

/-! ## Writing the table -/

/-- The volume after an entry was written to disk and to memory. -/
def setEntry (t : FatTable) (v : Volume) (c n : ℕ) : Volume :=
  { v with
    disk := store v.disk (c * 4 % 2 ^ 32 + t.fatOffset) 4 fun i => leByte n i
    fatMap := Function.update v.fatMap c n }

theorem setNextCluster_of_ioSucceeds {v : Volume} (hio : v.IoSucceeds) {c n : ℕ}
    (hc : c < t.fatEntries) :
    fatTableSetNextCluster t v c n = some (setEntry t v c n) := by
  have hwrite := pwrite_of_ioSucceeds hio (fun i => leByte n i.toNat) 4
    (c * 4 % 2 ^ 32 + t.fatOffset)
  simp only [fatTableSetNextCluster, hwrite]
  simp [hc, setEntry]

theorem setNextCluster_outside {v : Volume} (hio : v.IoSucceeds) {c n : ℕ}
    (hc : t.fatEntries ≤ c) : fatTableSetNextCluster t v c n = none := by
  have hwrite := pwrite_of_ioSucceeds hio (fun i => leByte n i.toNat) 4
    (c * 4 % 2 ^ 32 + t.fatOffset)
  simp only [fatTableSetNextCluster, hwrite]
  simp [Nat.not_lt.mpr hc]

/-- Writing an entry fails with `EIO` and changes nothing else, or it writes up to
four bytes to disk and the entry to memory. -/
theorem setNextCluster_cases {v v' : Volume} {c n : ℕ}
    (h : fatTableSetNextCluster t v c n = some v') :
    v.Later v' ∧ v'.clock = v.clock ∧ v'.heap = v.heap ∧
      ((v'.errno = Errno.eio ∧ v'.fatMap = v.fatMap ∧ v'.disk = v.disk) ∨
        (v'.errno = v.errno ∧ c < t.fatEntries ∧
          v'.fatMap = Function.update v.fatMap c n ∧
          ∃ k, 0 < k ∧ k ≤ 4 ∧ v'.disk =
            store v.disk (c * 4 % 2 ^ 32 + t.fatOffset) k fun i => leByte n i)) := by
  obtain ⟨⟨r, v₁⟩, hwrite⟩ : ∃ written, pwrite v (fun i => leByte n i.toNat) 4
      ((c * 4 % 2 ^ 32 + t.fatOffset : ℕ) : ℤ) = written := ⟨_, rfl⟩
  obtain ⟨hmap, hlater, hclock, hheap, hcases⟩ := pwrite_cases hwrite
  simp only [fatTableSetNextCluster, hwrite] at h
  split at h
  · rename_i hr
    simp only [Option.some.injEq] at h
    subst h
    refine ⟨hlater, hclock, hheap, Or.inl ⟨rfl, hmap, ?_⟩⟩
    rcases hcases with ⟨-, -, hdisk⟩ | ⟨k, -, hk, -, hdisk⟩
    · exact hdisk
    · have hzero : k = 0 := by omega
      subst hzero
      simpa using hdisk
  · rename_i hr
    split at h
    · rename_i hbound
      simp only [Option.some.injEq] at h
      subst h
      rcases hcases with ⟨hfail, -, -⟩ | ⟨k, hle, hk, herrno, hdisk⟩
      · omega
      · refine ⟨hlater, hclock, hheap, Or.inr ⟨herrno, hbound, ?_, k, by omega, hle,
          by simpa using hdisk⟩⟩
        rw [← hmap]
    · contradiction

/-- Two volumes that may differ in the FAT only, in memory and on disk. -/
structure SameOutsideFat (t : FatTable) (v v' : Volume) : Prop where
  data : ∀ a, t.dataStartOffset ≤ a → v'.disk a = v.disk a
  errno : v'.errno = v.errno
  writable : v'.writable = v.writable
  io : v'.io = v.io
  clock : v'.clock = v.clock
  heap : v'.heap = v.heap

theorem SameOutsideFat.refl (v : Volume) : SameOutsideFat t v v :=
  ⟨fun _ _ => rfl, rfl, rfl, rfl, rfl, rfl⟩

theorem SameOutsideFat.trans {v v' v'' : Volume} (h : SameOutsideFat t v v')
    (h' : SameOutsideFat t v' v'') : SameOutsideFat t v v'' :=
  ⟨fun a ha => (h'.data a ha).trans (h.data a ha), h'.errno.trans h.errno,
    h'.writable.trans h.writable, h'.io.trans h.io, h'.clock.trans h.clock,
    h'.heap.trans h.heap⟩

theorem SameOutsideFat.ioSucceeds {v v' : Volume} (h : SameOutsideFat t v v')
    (hio : v.IoSucceeds) : v'.IoSucceeds :=
  ⟨h.writable.trans hio.1, h.io.trans hio.2⟩

theorem setEntry_sameOutsideFat [t.Formatted] (v : Volume) {c n : ℕ} (hc : c < t.fatEntries) :
    SameOutsideFat t v (setEntry t v c n) := by
  refine ⟨fun a ha => ?_, rfl, rfl, rfl, rfl, rfl⟩
  have hentry := entry_lt_dataStart hc
  have hwrap : c * 4 % 2 ^ 32 ≤ c * 4 := Nat.mod_le _ _
  exact store_outside _ _ (Or.inr (by omega))

@[simp] theorem setEntry_fatMap (v : Volume) (c n : ℕ) :
    (setEntry t v c n).fatMap = Function.update v.fatMap c n := rfl

/-- In front of the data area only the entries of the clusters `touched` may
differ. -/
def FatBytesKept (t : FatTable) (disk disk' : ℕ → UInt8) (touched : List ℕ) : Prop :=
  ∀ a, a < t.dataStartOffset →
    (∀ c ∈ touched, ∀ i < 4, a ≠ t.fatOffset + 4 * c + i) → disk' a = disk a

theorem FatBytesKept.refl (disk : ℕ → UInt8) (touched : List ℕ) :
    FatBytesKept t disk disk touched := fun _ _ _ => rfl

theorem FatBytesKept.trans {disk disk' disk'' : ℕ → UInt8} {touched touched' : List ℕ}
    (h : FatBytesKept t disk disk' touched)
    (h' : FatBytesKept t disk' disk'' touched') (hsub : touched ⊆ touched') :
    FatBytesKept t disk disk'' touched' := by
  intro a ha hne
  rw [h' a ha hne, h a ha fun c hc => hne c (hsub hc)]

theorem FatBytesKept.mono {disk disk' : ℕ → UInt8} {touched touched' : List ℕ}
    (h : FatBytesKept t disk disk' touched) (hsub : touched ⊆ touched') :
    FatBytesKept t disk disk' touched' :=
  h.trans (FatBytesKept.refl _ _) hsub

theorem setEntry_fatBytesKept (hmarks : t.ClusterNumbersBelowMarks) (v : Volume)
    {c n : ℕ} (hc : fatTableIsValidClusterNumber t c) :
    FatBytesKept t v.disk (setEntry t v c n).disk [c] := by
  have hlt := hc.2
  have hbound : t.numDataClusters + 2 ≤ 0x0FFFFFF7 := hmarks
  intro a _ hne
  by_contra hchanged
  obtain ⟨hlow, hhigh⟩ := mem_range_of_store_ne hchanged
  rw [Nat.mod_eq_of_lt (by omega)] at hlow hhigh
  exact hne c (by simp) (a - (t.fatOffset + 4 * c)) (by omega) (by omega)

/-! ## Growing a chain -/

/-- The clusters `new` were free and are now linked behind the chain `cs`; the
entries of all other clusters are as before. -/
structure Extends (t : FatTable) (fatMap fatMap' : ℕ → ℕ) (cs new : List ℕ) :
    Prop where
  chain : ClusterChain t fatMap' (cs ++ new)
  fresh : ∀ c ∈ new, IsFree t fatMap c
  frame : ∀ c, c ∉ cs → c ∉ new → fatMap' c = fatMap c

theorem Extends.refl {fatMap : ℕ → ℕ} {cs : List ℕ} (h : ClusterChain t fatMap cs) :
    Extends t fatMap fatMap cs [] where
  chain := by simpa using h
  fresh := by simp
  frame := fun _ _ _ => rfl

theorem Extends.trans {fatMap fatMap' fatMap'' : ℕ → ℕ} {cs new new' : List ℕ}
    (h : Extends t fatMap fatMap' cs new)
    (h' : Extends t fatMap' fatMap'' (cs ++ new) new') :
    Extends t fatMap fatMap'' cs (new ++ new') where
  chain := by
    rw [← List.append_assoc]
    exact h'.chain
  fresh := by
    intro c hc
    rcases List.mem_append.mp hc with hnew | hnew'
    · exact h.fresh c hnew
    · obtain ⟨hvalid, hfree⟩ := h'.fresh c hnew'
      have hout : c ∉ cs ++ new := fun hmem => h.chain.used c hmem hfree
      rw [List.mem_append, not_or] at hout
      exact ⟨hvalid, (h.frame c hout.1 hout.2).symm.trans hfree⟩
  frame := by
    intro c hcs hnew
    rw [List.mem_append, not_or] at hnew
    rw [h'.frame c (by simp [hcs, hnew.1]) hnew.2, h.frame c hcs hnew.1]

/-- A chain loses no cluster that another one uses. -/
theorem Extends.frame_of_used {fatMap fatMap' : ℕ → ℕ} {cs new : List ℕ}
    (h : Extends t fatMap fatMap' cs new) {c : ℕ} (hcs : c ∉ cs)
    (hused : fatMap c ≠ fatClusterFree) : c ∉ new ∧ fatMap' c = fatMap c := by
  have hnew : c ∉ new := fun hmem => hused (h.fresh c hmem).2
  exact ⟨hnew, h.frame c hcs hnew⟩

/-- Growth takes exactly the new clusters from the free ones. -/
theorem Extends.card_freeClusters {fatMap fatMap' : ℕ → ℕ} {cs new : List ℕ}
    (h : Extends t fatMap fatMap' cs new) (hused : ∀ c ∈ cs, fatMap c ≠ fatClusterFree) :
    (freeClusters t fatMap).card = (freeClusters t fatMap').card + new.length := by
  have hnodup : new.Nodup := (List.nodup_append.mp h.chain.nodup).2.1
  have hsplit : freeClusters t fatMap = freeClusters t fatMap' ∪ new.toFinset := by
    ext c
    rw [Finset.mem_union, mem_freeClusters, mem_freeClusters, List.mem_toFinset]
    by_cases hnew : c ∈ new
    · simp [hnew, h.fresh c hnew]
    · by_cases hcs : c ∈ cs
      · have hbefore := hused c hcs
        have hafter := h.chain.used c (List.mem_append_left _ hcs)
        simp [IsFree, hnew, hbefore, hafter]
      · simp [IsFree, hnew, h.frame c hcs hnew]
  have hdisjoint : Disjoint (freeClusters t fatMap') new.toFinset := by
    rw [Finset.disjoint_left]
    intro c hfree hnew
    exact h.chain.used c (List.mem_append_right _ (List.mem_toFinset.mp hnew))
      (mem_freeClusters.mp hfree).2
  rw [hsplit, Finset.card_union_of_disjoint hdisjoint,
    List.toFinset_card_of_nodup hnodup]

/-- Linking a free cluster behind the last one of a chain: the two updates of
`next_or_new_cluster`. -/
theorem Extends.link (hmarks : t.ClusterNumbersBelowMarks) {fatMap : ℕ → ℕ}
    {front : List ℕ} {last new : ℕ} (h : ClusterChain t fatMap (front ++ [last]))
    (hnew : IsFree t fatMap new) :
    Extends t fatMap
      (Function.update (Function.update fatMap last new) new fatClusterEndOfChainMax)
      (front ++ [last]) [new] := by
  have hout : new ∉ front ++ [last] := fun hmem => h.used new hmem hnew.2
  have hlast : last ≠ new := by
    rintro rfl
    exact hout (by simp)
  have hfront : ∀ c ∈ front, c ≠ new ∧ c ≠ last := by
    intro c hc
    refine ⟨fun heq => hout (heq ▸ List.mem_append_left _ hc), fun heq => ?_⟩
    have hdisjoint := (List.nodup_append.mp h.nodup).2.2
    exact hdisjoint c hc last (by simp) heq
  have hsame : ∀ c ∈ front,
      Function.update (Function.update fatMap last new) new fatClusterEndOfChainMax c =
        fatMap c := by
    intro c hc
    rw [Function.update_of_ne (hfront c hc).1, Function.update_of_ne (hfront c hc).2]
  refine ⟨⟨?_, ?_, ?_⟩, ?_, ?_⟩
  · rw [List.append_assoc]
    apply h.links.extend
    · simp [chainNext, Function.update_of_ne hlast, hnew.1]
    · simp [chainNext, not_valid_endOfChain hmarks]
    · intro c hc
      rw [chainNext, hsame c hc, chainNext]
  · intro c hc
    rcases List.mem_append.mp hc with hold | hnewest
    · exact h.valid c hold
    · rw [List.mem_singleton] at hnewest
      exact hnewest ▸ hnew.1
  · intro c hc
    by_cases hcnew : c = new
    · subst hcnew
      simp
    · by_cases hclast : c = last
      · subst hclast
        rw [Function.update_of_ne hcnew, Function.update_self]
        have hge := hnew.1.1
        simp only [fatClusterFree]
        omega
      · have hmem : c ∈ front := by simpa [hcnew, hclast] using hc
        rw [hsame c hmem]
        exact h.used c (List.mem_append_left _ hmem)
  · intro c hc
    rw [List.mem_singleton] at hc
    exact hc ▸ hnew
  · intro c hcs hc
    rw [List.mem_singleton] at hc
    have hclast : c ≠ last := by
      rintro rfl
      exact hcs (by simp)
    rw [Function.update_of_ne hc, Function.update_of_ne hclast]

end SistOp.FatFuse
