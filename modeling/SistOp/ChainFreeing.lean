import SistOp.EntryCreation
import SistOp.FailedExtension
import SistOp.FileDelete
import SistOp.FilePwrite
import SistOp.StaleErrno
import Mathlib.Data.Set.Card

/-!
# Freeing any chain

The loops of `fat_file_delete` and `fat_file_truncate` erase the links that they follow.  They
end whatever the FAT holds: each round erases one of the used clusters still ahead, uses up a
failed write, or reads a free entry, which is the end of a chain.
-/

namespace SistOp.FatFuse

open SuccessorChain

variable {t : FatTable}

/-- The clusters that `fat_table_get_next_cluster` leads to from a cluster. -/
def clustersFrom (t : FatTable) (fatMap : ℕ → ℕ) (c : ℕ) : Set ℕ :=
  {x | Reaches (chainNext t fatMap) c x}

/-- Those of them whose entries are not free. -/
def usedFrom (t : FatTable) (fatMap : ℕ → ℕ) (c : ℕ) : Set ℕ :=
  {x | x ∈ clustersFrom t fatMap c ∧ fatMap x ≠ fatClusterFree}

theorem valid_of_chainNext {fatMap : ℕ → ℕ} {c d : ℕ} (h : chainNext t fatMap c = some d) :
    fatMap c = d ∧ fatTableIsValidClusterNumber t d := by
  unfold chainNext at h
  split at h
  · rename_i hvalid
    obtain rfl := Option.some.inj h
    exact ⟨rfl, hvalid⟩
  · contradiction

theorem chainNext_ne_free {fatMap : ℕ → ℕ} {c d : ℕ} (h : chainNext t fatMap c = some d) :
    fatMap c ≠ fatClusterFree := by
  obtain ⟨rfl, hge, -⟩ := valid_of_chainNext h
  simp only [fatClusterFree]
  omega

theorem clustersFrom_valid {fatMap : ℕ → ℕ} {c x : ℕ} (hc : fatTableIsValidClusterNumber t c)
    (hx : x ∈ clustersFrom t fatMap c) : fatTableIsValidClusterNumber t x := by
  induction hx with
  | refl => exact hc
  | tail _ hstep _ => exact (valid_of_chainNext hstep).2

theorem finite_clustersFrom {fatMap : ℕ → ℕ} {c : ℕ} (hc : fatTableIsValidClusterNumber t c) :
    (clustersFrom t fatMap c).Finite :=
  (Set.finite_Ico 2 (t.numDataClusters + 2)).subset fun _ hx => clustersFrom_valid hc hx

theorem finite_usedFrom {fatMap : ℕ → ℕ} {c : ℕ} (hc : fatTableIsValidClusterNumber t c) :
    (usedFrom t fatMap c).Finite :=
  (finite_clustersFrom hc).subset fun _ hx => hx.1

theorem ncard_usedFrom_le {fatMap : ℕ → ℕ} {c : ℕ} (hc : fatTableIsValidClusterNumber t c) :
    (usedFrom t fatMap c).ncard ≤ t.numDataClusters := by
  have hsubset : usedFrom t fatMap c ⊆ Set.Ico 2 (t.numDataClusters + 2) :=
    fun _ hx => clustersFrom_valid hc hx.1
  have hcard := Set.ncard_le_ncard hsubset (Set.finite_Ico _ _)
  rw [← Finset.coe_Ico, Set.ncard_coe_finset, Nat.card_Ico] at hcard
  omega

/-! ## Erasing the first entry -/

theorem chainNext_erased (fatMap : ℕ → ℕ) (c : ℕ) :
    chainNext t (Function.update fatMap c fatClusterFree) c = none := by
  simp [chainNext, fatTableIsValidClusterNumber]

theorem chainNext_erased_of_ne (fatMap : ℕ → ℕ) {c x : ℕ} (hx : x ≠ c) :
    chainNext t (Function.update fatMap c fatClusterFree) x = chainNext t fatMap x := by
  simp [chainNext, hx]

/-- The walk from the next cluster does not miss the erased link. -/
theorem mem_clustersFrom_erased {fatMap : ℕ → ℕ} {c d x : ℕ} (h : chainNext t fatMap c = some d) :
    x ∈ clustersFrom t fatMap c ↔
      x = c ∨ x ∈ clustersFrom t (Function.update fatMap c fatClusterFree) d :=
  reaches_unlinked h (chainNext_erased fatMap c) fun _ hy => chainNext_erased_of_ne fatMap hy

theorem usedFrom_erased {fatMap : ℕ → ℕ} {c d : ℕ} (h : chainNext t fatMap c = some d) :
    usedFrom t fatMap c =
      insert c (usedFrom t (Function.update fatMap c fatClusterFree) d) := by
  ext x
  rw [Set.mem_insert_iff]
  by_cases hx : x = c
  · subst hx
    exact iff_of_true ⟨Relation.ReflTransGen.refl, chainNext_ne_free h⟩ (.inl rfl)
  · simp only [usedFrom, Set.mem_ofPred_eq, mem_clustersFrom_erased h, hx, false_or,
      Function.update_of_ne hx]

theorem ncard_usedFrom_erased {fatMap : ℕ → ℕ} {c d : ℕ} (h : chainNext t fatMap c = some d) :
    (usedFrom t fatMap c).ncard =
      (usedFrom t (Function.update fatMap c fatClusterFree) d).ncard + 1 := by
  rw [usedFrom_erased h]
  refine Set.ncard_insert_of_notMem (fun hmem => ?_) (finite_usedFrom (valid_of_chainNext h).2)
  exact hmem.2 (Function.update_self ..)

theorem usedFrom_next_subset {fatMap : ℕ → ℕ} {c d : ℕ} (h : chainNext t fatMap c = some d) :
    usedFrom t fatMap d ⊆ usedFrom t fatMap c :=
  fun _ hx => ⟨Relation.ReflTransGen.head h hx.1, hx.2⟩

/-! ## The loop -/

theorem exists_setNextCluster {v : Volume} {c : ℕ} (n : ℕ) (hc : c < t.fatEntries) :
    ∃ v', fatTableSetNextCluster t v c n = some v' := by
  unfold fatTableSetNextCluster
  dsimp only
  split_ifs <;> exact ⟨_, rfl⟩

/-- A failed write uses up an outcome: behind the last one every write succeeds. -/
theorem setNextCluster_io_lt {v v' : Volume} {c n : ℕ} (hrw : v.writable = true)
    (h : fatTableSetNextCluster t v c n = some v') (hfails : ¬ v.WriteSucceeds 0) :
    v'.io.length < v.io.length := by
  obtain ⟨⟨hsame, hsuffix⟩, -⟩ := setNextCluster_cases h
  by_contra hlength
  have hio : v'.io = v.io := hsuffix.eq_of_length_le (Nat.not_lt.mp hlength)
  have hfail : ∀ k, ¬ v.WriteSucceeds k := by
    intro k
    induction k with
    | zero => exact hfails
    | succ k ih =>
        rw [← (setNextCluster_outcome h).2, Volume.WriteSucceeds, hio, hsame]
        exact ih
  exact hfail v.io.length ⟨hrw, by simp⟩

theorem freeChainLoop_end {fuel : ℕ} (v : Volume) :
    freeChainLoop t (fuel + 1) v fatClusterEndOfChainMax = some v := by
  rw [freeChainLoop, if_neg not_isValid_endOfChainMax]

theorem freeChainLoop_round [t.Formatted] (hmarks : t.ClusterNumbersBelowMarks) {fuel : ℕ}
    {v v₁ : Volume} {c : ℕ} (hc : fatTableIsValidClusterNumber t c)
    (hset : fatTableSetNextCluster t v c fatClusterFree = some v₁) :
    freeChainLoop t (fuel + 1) v c =
      freeChainLoop t fuel v₁ ((chainNext t v.fatMap c).getD fatClusterEndOfChainMax) := by
  rw [freeChainLoop, if_pos (isValid_of_valid hmarks hc), getNextCluster_eq (valid_lt_entries hc)]
  simp [hset]

/-- The loop ends whichever of the writes succeed. -/
theorem exists_freeChainLoop_any [t.Formatted] (hmarks : t.ClusterNumbersBelowMarks) {fuel : ℕ}
    {v : Volume} {c : ℕ} (hc : fatTableIsValidClusterNumber t c) (hrw : v.writable = true)
    (hfuel : (usedFrom t v.fatMap c).ncard + v.io.length + 2 ≤ fuel) :
    ∃ v', freeChainLoop t fuel v c = some v' := by
  induction fuel generalizing v c with
  | zero => omega
  | succ fuel ih =>
      obtain ⟨v₁, hset⟩ := @exists_setNextCluster t v _ fatClusterFree (valid_lt_entries hc)
      obtain ⟨hlater, -⟩ := setNextCluster_cases hset
      rw [freeChainLoop_round hmarks hc hset]
      cases hnext : chainNext t v.fatMap c with
      | none =>
          obtain ⟨fuel, rfl⟩ : ∃ n, fuel = n + 1 := ⟨fuel - 1, by omega⟩
          exact ⟨v₁, freeChainLoop_end v₁⟩
      | some d =>
          have hd := (valid_of_chainNext hnext).2
          rw [Option.getD_some]
          refine ih hd (hlater.1.trans hrw) ?_
          obtain ⟨⟨-, -, hmap⟩ | ⟨hfails, -, hmap⟩, -⟩ := setNextCluster_outcome hset
          · have hcard := ncard_usedFrom_erased hnext
            have hlength := hlater.2.length_le
            rw [← hmap] at hcard
            omega
          · have hcard := Set.ncard_le_ncard (usedFrom_next_subset hnext) (finite_usedFrom hc)
            have hlength := setNextCluster_io_lt hrw hset hfails
            rw [hmap]
            omega

theorem exists_freeChain [t.Formatted] (hmarks : t.ClusterNumbersBelowMarks) {v : Volume}
    (hrw : v.writable = true) (fatMap : ℕ → ℕ) (c : ℕ) :
    ∃ v', freeChain t v ((chainNext t fatMap c).getD fatClusterEndOfChainMax) = some v' := by
  rw [freeChain]
  cases hnext : chainNext t fatMap c with
  | none => exact ⟨v, freeChainLoop_end v⟩
  | some d =>
      rw [Option.getD_some]
      have hd := (valid_of_chainNext hnext).2
      have hcard := @ncard_usedFrom_le t v.fatMap d hd
      have hentries := t.clusters_le
      exact exists_freeChainLoop_any hmarks hd hrw (by omega)

/-! ## What is erased -/

/-- The entries of the clusters `cs` are free, and nothing else in the FAT has changed, in
memory or on disk. -/
structure EntriesFreed (t : FatTable) (v v' : Volume) (cs : Set ℕ) : Prop where
  freed : ∀ c ∈ cs, v'.fatMap c = fatClusterFree
  kept : ∀ c ∉ cs, v'.fatMap c = v.fatMap c
  disk : ∀ a < t.dataStartOffset, (∀ c ∈ cs, ∀ i < 4, a ≠ t.fatOffset + 4 * c + i) →
    v'.disk a = v.disk a

/-- A write to the data area does not reach the FAT. -/
theorem EntriesFreed.trans_data {v v' v'' : Volume} {cs : Set ℕ} (h : EntriesFreed t v v' cs)
    (hmap : v''.fatMap = v'.fatMap) (hdisk : ∀ a < t.dataStartOffset, v''.disk a = v'.disk a) :
    EntriesFreed t v v'' cs where
  freed c hc := by
    rw [hmap]
    exact h.freed c hc
  kept c hc := by
    rw [hmap]
    exact h.kept c hc
  disk a ha hne := (hdisk a ha).trans (h.disk a ha hne)

/-- An entry that is written, or was free and is not written. -/
theorem entriesFreed_one (hmarks : t.ClusterNumbersBelowMarks) {v v' : Volume} {c : ℕ}
    (hc : fatTableIsValidClusterNumber t c)
    (hset : fatTableSetNextCluster t v c fatClusterFree = some v')
    (hwritten : v.fatMap c ≠ fatClusterFree → v.WriteSucceeds 0) : EntriesFreed t v v' {c} := by
  obtain ⟨-, -, -, hcases⟩ := setNextCluster_cases hset
  have hmap : v'.fatMap = Function.update v.fatMap c fatClusterFree := by
    obtain ⟨⟨-, -, hmap⟩ | ⟨hfails, -, hmap⟩, -⟩ := setNextCluster_outcome hset
    · exact hmap
    · have hfree : v.fatMap c = fatClusterFree := not_not.mp fun hne => hfails (hwritten hne)
      rw [hmap, ← hfree, Function.update_eq_self]
  refine ⟨fun x hx => ?_, fun x hx => ?_, fun a _ hne => ?_⟩
  · rw [hmap, hx, Function.update_self]
  · rw [hmap, Function.update_of_ne hx]
  · rcases hcases with ⟨-, -, hdisk⟩ | ⟨-, -, -, k, -, hk, hdisk⟩
    · rw [hdisk]
    · by_contra hchanged
      rw [hdisk] at hchanged
      obtain ⟨hlow, hhigh⟩ := ByteStore.mem_range_of_store_ne hchanged
      have hbound : t.numDataClusters + 2 ≤ 0x0FFFFFF7 := hmarks
      have hlt := hc.2
      rw [Nat.mod_eq_of_lt (by omega)] at hlow hhigh
      exact hne c rfl (a - (t.fatOffset + 4 * c)) (by omega) (by omega)

theorem EntriesFreed.cons {v v₁ v' : Volume} {c : ℕ} {cs ds : Set ℕ}
    (hfirst : EntriesFreed t v v₁ {c}) (hrest : EntriesFreed t v₁ v' ds)
    (hcs : ∀ x, x ∈ cs ↔ x = c ∨ x ∈ ds) : EntriesFreed t v v' cs where
  freed x hx := by
    by_cases hds : x ∈ ds
    · exact hrest.freed x hds
    · rw [hrest.kept x hds]
      exact hfirst.freed x (((hcs x).mp hx).resolve_right hds)
  kept x hx := by
    rw [hcs, not_or] at hx
    rw [hrest.kept x hx.2]
    exact hfirst.kept x hx.1
  disk a ha hne := by
    have hone : ∀ x ∈ ({c} : Set ℕ), ∀ i < 4, a ≠ t.fatOffset + 4 * x + i :=
      fun x hx => hne x ((hcs x).mpr (.inl hx))
    rw [hrest.disk a ha fun x hx => hne x ((hcs x).mpr (.inr hx)), hfirst.disk a ha hone]

/-- When the coming writes succeed, the loop erases exactly the entries that it can reach. -/
theorem freeChainLoop_freed [t.Formatted] (hmarks : t.ClusterNumbersBelowMarks) {fuel : ℕ}
    {v v' : Volume} {c : ℕ} (hc : fatTableIsValidClusterNumber t c)
    (hwrites : ∀ k < (usedFrom t v.fatMap c).ncard, v.WriteSucceeds k)
    (h : freeChainLoop t fuel v c = some v') :
    EntriesFreed t v v' (clustersFrom t v.fatMap c) := by
  induction fuel generalizing v c with
  | zero => simp [freeChainLoop] at h
  | succ fuel ih =>
      obtain ⟨v₁, hset⟩ := @exists_setNextCluster t v _ fatClusterFree (valid_lt_entries hc)
      rw [freeChainLoop_round hmarks hc hset] at h
      have hfirst : EntriesFreed t v v₁ {c} := by
        refine entriesFreed_one hmarks hc hset fun hused => hwrites 0 ?_
        rw [Set.ncard_pos (finite_usedFrom hc)]
        exact ⟨c, Relation.ReflTransGen.refl, hused⟩
      cases hnext : chainNext t v.fatMap c with
      | none =>
          rw [hnext, Option.getD_none] at h
          have hclusters : clustersFrom t v.fatMap c = {c} :=
            Set.ext fun x => reaches_of_none hnext
          cases fuel with
          | zero => simp [freeChainLoop] at h
          | succ fuel =>
              obtain rfl := Option.some.inj ((freeChainLoop_end v₁).symm.trans h)
              rwa [hclusters]
      | some d =>
          rw [hnext, Option.getD_some] at h
          have hcard := ncard_usedFrom_erased hnext
          have hsucceeds := hwrites 0 (by omega)
          obtain ⟨⟨-, -, hmap⟩ | ⟨hfails, -⟩, hlater⟩ := setNextCluster_outcome hset
          · rw [← hmap] at hcard
            have hrest := ih (valid_of_chainNext hnext).2
              (fun k hk => (hlater k).mpr (hwrites (k + 1) (by omega))) h
            refine hfirst.cons hrest fun x => ?_
            rw [hmap]
            exact mem_clustersFrom_erased hnext
          · exact absurd hsucceeds hfails

/-! ## The two operations -/

theorem exists_writeDirEntry_any (v : Volume) (parent file : FatFile) :
    ∃ v', writeDirEntry t v (some parent) file = some v' := by
  simp only [writeDirEntry, Option.bind_eq_bind, Option.bind_some]
  split_ifs <;> exact ⟨_, rfl⟩

/-- `write_dir_entry` writes to the data area. -/
theorem writeDirEntry_fatKept {v v' : Volume} {p f : FatFile}
    (h : writeDirEntry t v (some p) f = some v') :
    v'.fatMap = v.fatMap ∧ ∀ a < t.dataStartOffset, v'.disk a = v.disk a := by
  obtain ⟨-, hmap, hcases⟩ := writeDirEntry_cases h
  refine ⟨hmap, fun a ha => ?_⟩
  rcases hcases with ⟨-, hdisk⟩ | ⟨-, -, hdisk⟩
  · have hdata := dataStart_le_clusterOffset (t := t) p.startCluster
    exact hdisk a fun i _ => by omega
  · have hdata := dataStart_le_slotAddr (t := t) p.startCluster f.posInParent
    rw [hdisk]
    exact writeSlot_outside _ _ fun i _ => by omega

/-- `fat_file_delete` erases the entry of the first cluster as its loop erases the others. -/
theorem exists_deleteLoop [t.Formatted] (hmarks : t.ClusterNumbersBelowMarks) {v : Volume} {c : ℕ}
    (hc : fatTableIsValidClusterNumber t c) (herrno : v.errno = 0)
    (hwrites : ∀ k < (clustersFrom t v.fatMap c).ncard, v.WriteSucceeds k) :
    ∃ next v₁ v₂, fatTableGetNextCluster t v c = some next ∧
      fatTableSetNextCluster t v c fatClusterFree = some v₁ ∧ v₁.errno = 0 ∧
      freeChain t v₁ next = some v₂ ∧ EntriesFreed t v v₂ (clustersFrom t v.fatMap c) := by
  have hreached : 0 < (clustersFrom t v.fatMap c).ncard := by
    rw [Set.ncard_pos (finite_clustersFrom hc)]
    exact ⟨c, Relation.ReflTransGen.refl⟩
  have hused : (usedFrom t v.fatMap c).ncard ≤ (clustersFrom t v.fatMap c).ncard :=
    Set.ncard_le_ncard (fun _ hx => hx.1) (finite_clustersFrom hc)
  have hsucceeds := hwrites 0 hreached
  obtain ⟨v₁, hset⟩ := @exists_setNextCluster t v _ fatClusterFree (valid_lt_entries hc)
  obtain ⟨⟨hsame, -⟩, -⟩ := setNextCluster_cases hset
  obtain ⟨v₂, hloop⟩ := exists_freeChain hmarks (hsame.trans hsucceeds.1) v.fatMap c
  refine ⟨_, v₁, v₂, getNextCluster_eq (valid_lt_entries hc), hset, ?_, hloop, ?_⟩
  · obtain ⟨⟨-, hkept, -⟩ | ⟨hfails, -⟩, -⟩ := setNextCluster_outcome hset
    · exact hkept.trans herrno
    · exact absurd hsucceeds hfails
  · rw [freeChain, ← freeChainLoop_round hmarks hc hset] at hloop
    exact freeChainLoop_freed hmarks hc (fun k hk => hwrites k (by omega)) hloop

theorem exists_deleteAny [t.Formatted] (hmarks : t.ClusterNumbersBelowMarks) {v : Volume}
    {file : FatFile} (hstart : fatTableIsValidClusterNumber t file.startCluster)
    (herrno : v.errno = 0)
    (hwrites : ∀ k < (clustersFrom t v.fatMap file.startCluster).ncard, v.WriteSucceeds k)
    (parent : FatFile) :
    ∃ file' v', fatFileDelete t v file (some parent) = some (file', v') ∧
      EntriesFreed t v v' (clustersFrom t v.fatMap file.startCluster) := by
  obtain ⟨next, v₁, v₂, hnext, hset, herrno₁, hloop, hfreed⟩ :=
    exists_deleteLoop hmarks hstart herrno hwrites
  obtain ⟨file', hfile'⟩ : ∃ file', file' = { file with
      dentry := (fillDentryTimeNow v₂ (file.dentry.setFileSize 0) false true).1.setByte 0
        fatFilenameDeletedChar } := ⟨_, rfl⟩
  obtain ⟨v₃, hwrite⟩ := @exists_writeDirEntry_any t
    { v₂ with clock := fun n => v₂.clock (n + 1) } parent file'
  obtain ⟨hmap, hdisk⟩ := writeDirEntry_fatKept hwrite
  refine ⟨file', v₃, ?_, hfreed.trans_data hmap hdisk⟩
  simp only [fatFileDelete, hnext, hset, herrno₁, hloop, fillDentryTimeNow_snd, ← hfile', hwrite,
    Option.bind_eq_bind, Option.bind_some, ne_eq, not_true_eq_false, if_false]

theorem exists_truncateAny [t.Formatted] (hmarks : t.ClusterNumbersBelowMarks) {v v₀ : Volume}
    {file : FatFile} {offset last : ℕ} (hrw : v.writable = true)
    (hseek : fatTableSeekCluster t v file.startCluster offset = some (last, v₀))
    (hlast : fatTableIsValidClusterNumber t last) (parent : FatFile) :
    ∃ file' v', fatFileTruncate t v file offset (some parent) = some (file', v') := by
  have hrw₀ : v₀.writable = true := (seekLoop_later hseek).1.trans hrw
  obtain ⟨v₁, hset⟩ := @exists_setNextCluster t v₀ _ fatClusterEndOfChainMax
    (valid_lt_entries hlast)
  obtain ⟨⟨hsame, -⟩, -⟩ := setNextCluster_cases hset
  obtain ⟨v₂, hloop⟩ := exists_freeChain hmarks (hsame.trans hrw₀) v₀.fatMap last
  obtain ⟨v₃, hwrite⟩ := @exists_writeDirEntry_any t
    { v₂ with clock := fun n => v₂.clock (n + 1) } parent
    { file with dentry := (fillDentryTimeNow v₂ (file.dentry.setFileSize offset) false true).1 }
  simp only [fatFileTruncate, hseek, getNextCluster_eq (valid_lt_entries hlast), hset, hloop,
    fillDentryTimeNow_snd, hwrite, Option.bind_eq_bind, Option.bind_some]
  split_ifs <;> exact ⟨_, _, rfl⟩

/-- Whatever the FAT of a formatted table holds, deletion and truncation end, and deletion
erases exactly the entries of the clusters that are reached from the first one. -/
theorem freeing_ends [t.Formatted] (hmarks : t.ClusterNumbersBelowMarks) {v : Volume}
    {file : FatFile} (hstart : fatTableIsValidClusterNumber t file.startCluster)
    (herrno : v.errno = 0)
    (hwrites : ∀ k < (clustersFrom t v.fatMap file.startCluster).ncard, v.WriteSucceeds k)
    (parent : FatFile) :
    (∃ file' v', fatFileDelete t v file (some parent) = some (file', v') ∧
      EntriesFreed t v v' (clustersFrom t v.fatMap file.startCluster)) ∧
    ∀ offset last v₀, fatTableSeekCluster t v file.startCluster offset = some (last, v₀) →
      fatTableIsValidClusterNumber t last →
      ∃ file' v', fatFileTruncate t v file offset (some parent) = some (file', v') := by
  refine ⟨exists_deleteAny hmarks hstart herrno hwrites parent, ?_⟩
  intro offset last v₀ hseek hlast
  refine exists_truncateAny hmarks (hwrites 0 ?_).1 hseek hlast parent
  rw [Set.ncard_pos (finite_clustersFrom hstart)]
  exact ⟨file.startCluster, Relation.ReflTransGen.refl⟩

/-- Two clusters that link to each other. -/
theorem freeing_ends_cycle :
    ∃ file' v', fatFileDelete smallTable (smallVolume [3, 2]) (emptyFile 2 (by decide))
        (some (emptyFile 4 (by decide))) = some (file', v') ∧
      v'.fatMap 2 = fatClusterFree ∧ v'.fatMap 3 = fatClusterFree := by
  obtain ⟨file', v', hdelete, hfreed⟩ :=
    (@freeing_ends smallTable inferInstance (by decide) (smallVolume [3, 2])
      (emptyFile 2 (by decide)) (by decide) rfl (fun _ _ => ⟨rfl, trivial⟩)
      (emptyFile 4 (by decide))).1
  have hthree : Reaches (chainNext smallTable (smallVolume [3, 2]).fatMap) 2 3 :=
    Relation.ReflTransGen.single rfl
  exact ⟨file', v', hdelete, hfreed.freed 2 Relation.ReflTransGen.refl, hfreed.freed 3 hthree⟩

end SistOp.FatFuse
