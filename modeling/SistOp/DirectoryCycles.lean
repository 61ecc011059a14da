import SistOp.ChainFreeing
import Mathlib.Tactic

/-!
# Listing a cyclic directory

`fat_file_read_children` follows the links of the FAT until they end.  The end mark of the
directory stops the loop over the entries of one cluster only, and nothing counts the clusters, so
a chain that returns to one of its clusters is read for ever.
-/

namespace SistOp.FatFuse

open SuccessorChain

variable {t : FatTable} {v : Volume}

theorem getNextCluster_of_fileNext {c d : ℕ} (hc : c < t.fatEntries)
    (h : fileNext t v.fatMap c = some d) :
    fatTableGetNextCluster t v c = some d ∧ fatTableIsValidClusterNumber t d ∧
      fatTableClusterIsValid d := by
  unfold fileNext at h
  split at h
  · rename_i hvalid
    obtain rfl := Option.some.inj h
    refine ⟨?_, hvalid⟩
    rw [getNextCluster_eq hc, chainNext, if_pos hvalid.1, Option.getD_some]
  · contradiction

theorem getNextCluster_of_end {c : ℕ} (hc : c < t.fatEntries)
    (h : fileNext t v.fatMap c = none) :
    ∃ d, fatTableGetNextCluster t v c = some d ∧ ¬ fatTableClusterIsValid d := by
  have hnext := getNextCluster_eq (v := v) hc
  refine ⟨_, hnext, fun hvalid => ?_⟩
  have hfollowed := fileNext_eq_getNextCluster hnext
  rw [h, if_pos hvalid] at hfollowed
  contradiction

/-! ## One cluster -/

/-- A cluster that is read is listed, and the loop goes on behind it. -/
theorem readChildrenLoop_round (hio : v.io = []) {fuel c d : ℕ} (hc : fatTableClusterIsValid c)
    (hnext : fatTableGetNextCluster t v c = some d) (dir : FatFile) (elems : List FatFile) :
    ∃ dir' elems', readChildrenLoop t (fuel + 1) v c dir elems =
      readChildrenLoop t fuel v d dir' elems' := by
  have hread := fullPread_of_ioSucceeds hio (fun _ => 0) (fatTableBytesPerCluster t)
    (fatTableClusterOffset t c)
  simp only [readChildrenLoop, if_pos hc, hread, ne_eq, not_true_eq_false, if_false, hnext,
    Option.bind_eq_bind, Option.bind_some]
  exact ⟨_, _, rfl⟩

theorem readChildrenLoop_end {fuel c : ℕ} (hc : ¬ fatTableClusterIsValid c) (dir : FatFile)
    (elems : List FatFile) :
    readChildrenLoop t (fuel + 1) v c dir elems =
      some ({ dir with childrenRead := true }, elems, v) := by
  rw [readChildrenLoop, if_neg hc]

/-! ## Whole chains -/

/-- A loop that ends has followed a chain. -/
theorem exists_isChain_of_readChildrenLoop [t.Formatted] (hio : v.io = []) {fuel c : ℕ}
    {dir : FatFile} {elems : List FatFile} {result : FatFile × List FatFile × Volume}
    (hnumber : fatTableIsValidClusterNumber t c) (hc : fatTableClusterIsValid c)
    (h : readChildrenLoop t fuel v c dir elems = some result) :
    ∃ cs, IsChain (fileNext t v.fatMap) (c :: cs) := by
  induction fuel generalizing c dir elems with
  | zero => simp [readChildrenLoop] at h
  | succ fuel ih =>
      cases hnext : fileNext t v.fatMap c with
      | none => exact ⟨[], hnext⟩
      | some d =>
          obtain ⟨hget, hnumber', hd⟩ :=
            getNextCluster_of_fileNext (valid_lt_entries hnumber) hnext
          obtain ⟨dir', elems', hround⟩ := readChildrenLoop_round hio hc hget dir elems
          rw [hround] at h
          obtain ⟨cs, hcs⟩ := ih hnumber' hd h
          exact ⟨d :: cs, hnext, hcs⟩

/-- A chain is read in as many rounds as it has clusters. -/
theorem exists_readChildrenLoop [t.Formatted] (hio : v.io = []) {fuel c : ℕ} {cs : List ℕ}
    (hnumber : fatTableIsValidClusterNumber t c) (hc : fatTableClusterIsValid c)
    (h : IsChain (fileNext t v.fatMap) (c :: cs)) (hfuel : (c :: cs).length < fuel)
    (dir : FatFile) (elems : List FatFile) :
    ∃ result, readChildrenLoop t fuel v c dir elems = some result := by
  induction cs generalizing fuel c dir elems with
  | nil =>
      obtain ⟨fuel, rfl⟩ : ∃ n, fuel = n + 2 := ⟨fuel - 2, by simp at hfuel; omega⟩
      obtain ⟨d, hget, hd⟩ := getNextCluster_of_end (valid_lt_entries hnumber) h
      obtain ⟨dir', elems', hround⟩ := readChildrenLoop_round hio hc hget dir elems
      rw [hround]
      exact ⟨_, readChildrenLoop_end hd dir' elems'⟩
  | cons d ds ih =>
      obtain ⟨fuel, rfl⟩ : ∃ n, fuel = n + 1 := ⟨fuel - 1, by omega⟩
      obtain ⟨hget, hnumber', hd⟩ :=
        getNextCluster_of_fileNext (valid_lt_entries hnumber) h.1
      obtain ⟨dir', elems', hround⟩ := readChildrenLoop_round hio hc hget dir elems
      rw [hround]
      apply ih hnumber' hd h.tail
      simpa using hfuel

theorem valid_of_fileNext {fatMap : ℕ → ℕ} {c d : ℕ} (h : fileNext t fatMap c = some d) :
    fatTableIsValidClusterNumber t d := by
  unfold fileNext at h
  split at h
  · rename_i hvalid
    obtain rfl := Option.some.inj h
    exact hvalid.1
  · contradiction

theorem finite_reaches_fileNext {fatMap : ℕ → ℕ} {c : ℕ}
    (hc : fatTableIsValidClusterNumber t c) : {x | Reaches (fileNext t fatMap) c x}.Finite := by
  refine (Set.finite_Ico 2 (t.numDataClusters + 2)).subset fun x hx => ?_
  induction hx with
  | refl => exact hc
  | tail _ hstep _ => exact valid_of_fileNext hstep

/-- A chain has no more clusters than the volume. -/
theorem length_le_of_isChain {fatMap : ℕ → ℕ} {c : ℕ} {cs : List ℕ}
    (hc : fatTableIsValidClusterNumber t c) (h : IsChain (fileNext t fatMap) (c :: cs)) :
    (c :: cs).length ≤ t.numDataClusters := by
  have hsubset : (c :: cs).toFinset ⊆ Finset.Ico 2 (t.numDataClusters + 2) := by
    intro x hx
    rw [List.mem_toFinset, ← h.reaches_iff] at hx
    rw [Finset.mem_Ico]
    induction hx with
    | refl => exact hc
    | tail _ hstep _ => exact valid_of_fileNext hstep
  have hcard := Finset.card_le_card hsubset
  rw [List.toFinset_card_of_nodup h.nodup, Nat.card_Ico] at hcard
  omega

/-! ## Listings that end -/

/-- The loop ends after some number of rounds. -/
def ListingEnds (t : FatTable) (v : Volume) (dir : FatFile) : Prop :=
  ∃ fuel result, readChildrenLoop t fuel v dir.startCluster dir [] = some result

/-- The rounds that `fatFileReadChildren` allows are enough for every listing that ends. -/
theorem ListingEnds.exists_readChildren [t.Formatted] {dir : FatFile}
    (hio : v.io = []) (hnumber : fatTableIsValidClusterNumber t dir.startCluster)
    (h : ListingEnds t v dir) : ∃ result, fatFileReadChildren t v dir = some result := by
  rw [fatFileReadChildren, if_pos hnumber]
  by_cases hc : fatTableClusterIsValid dir.startCluster
  · obtain ⟨fuel, result, hloop⟩ := h
    obtain ⟨cs, hcs⟩ := exists_isChain_of_readChildrenLoop hio hnumber hc hloop
    apply exists_readChildrenLoop hio hnumber hc hcs
    have hlength := length_le_of_isChain hnumber hcs
    have hentries := t.clusters_le
    omega
  · exact ⟨_, readChildrenLoop_end hc dir []⟩

/-- With successful reads, a listing on a formatted table ends exactly when the links of the
directory's first cluster lead to no cycle. -/
theorem listingEnds_iff [t.Formatted] {dir : FatFile} (hio : v.io = [])
    (hnumber : fatTableIsValidClusterNumber t dir.startCluster)
    (hvalid : fatTableClusterIsValid dir.startCluster) :
    ListingEnds t v dir ↔ ¬ LeadsToCycle (fileNext t v.fatMap) dir.startCluster := by
  rw [← exists_isChain_iff (finite_reaches_fileNext hnumber)]
  constructor
  · rintro ⟨fuel, result, hloop⟩
    exact exists_isChain_of_readChildrenLoop hio hnumber hvalid hloop
  · rintro ⟨cs, hcs⟩
    exact ⟨_, exists_readChildrenLoop hio hnumber hvalid hcs (Nat.lt_succ_self _) dir []⟩

/-- A directory of two clusters. -/
theorem listingEnds_iff_two :
    ListingEnds smallTable (smallVolume [3, fatClusterEndOfChainMax])
      (emptyFile 2 (by decide)) := by
  have hchain : FileChain smallTable (smallVolume [3, fatClusterEndOfChainMax]).fatMap [2, 3] :=
    ⟨by decide, by decide⟩
  exact (@listingEnds_iff smallTable (smallVolume [3, fatClusterEndOfChainMax]) inferInstance
    (emptyFile 2 (by decide)) rfl (by decide) (by decide)).mpr hchain.links.not_leadsToCycle

/-- A directory whose cluster links to itself. -/
theorem not_listingEnds_selfLink :
    (smallVolume [2]).io = [] ∧ fatTableIsValidClusterNumber smallTable 2 ∧
      fatTableClusterIsValid 2 ∧
      ¬ ListingEnds smallTable (smallVolume [2]) (emptyFile 2 (by decide)) := by
  refine ⟨rfl, by decide, by decide, fun ⟨fuel, result, hloop⟩ => ?_⟩
  obtain ⟨cs, hcs⟩ := exists_isChain_of_readChildrenLoop rfl (by decide) (by decide) hloop
  exact hcs.not_leadsToCycle ⟨2, 2, Relation.ReflTransGen.refl, rfl, Relation.ReflTransGen.refl⟩

end SistOp.FatFuse
