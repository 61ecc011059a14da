import SistOp.FatFile
import SistOp.ClusterChain

/-!
# Extending a chain when writes fail

`next_or_new_cluster` links the new cluster behind the last one before it marks the new one
used.  What is left when one of the two writes fails is what the file then reaches.
-/

namespace SistOp.FatFuse

open SuccessorChain

variable {t : FatTable}

/-- The cluster behind a cluster, where the loops of `fat_file.c` go on to it. -/
def fileNext (t : FatTable) (fatMap : ℕ → ℕ) (c : ℕ) : Option ℕ :=
  if fatTableIsValidClusterNumber t (fatMap c) ∧ fatTableClusterIsValid (fatMap c) then
    some (fatMap c)
  else none

/-- It is the cluster that `fat_table_get_next_cluster` returns, when it is no mark. -/
theorem fileNext_eq_getNextCluster {v : Volume} {c n : ℕ}
    (h : fatTableGetNextCluster t v c = some n) :
    fileNext t v.fatMap c = if fatTableClusterIsValid n then some n else none := by
  unfold fatTableGetNextCluster fatMapRead at h
  by_cases hc : c < t.fatEntries
  · by_cases hvalid : fatTableIsValidClusterNumber t (v.fatMap c)
    · simp only [if_pos hc, Option.bind_eq_bind, Option.bind_some, if_pos hvalid,
        Option.some.injEq] at h
      subst h
      simp [fileNext, hvalid]
    · simp only [if_pos hc, Option.bind_eq_bind, Option.bind_some, if_neg hvalid,
        Option.some.injEq] at h
      subst h
      simp [fileNext, hvalid, not_isValid_endOfChainMax]
  · simp [if_neg hc] at h

theorem fileNext_eq_chainNext (hmarks : t.ClusterNumbersBelowMarks) (fatMap : ℕ → ℕ) (c : ℕ) :
    fileNext t fatMap c = chainNext t fatMap c := by
  by_cases hvalid : fatTableIsValidClusterNumber t (fatMap c)
  · simp [fileNext, chainNext, hvalid, isValid_of_valid hmarks hvalid]
  · simp [fileNext, chainNext, hvalid]

theorem fileNext_of_invalid {fatMap : ℕ → ℕ} {c : ℕ} (h : ¬ fatTableClusterIsValid (fatMap c)) :
    fileNext t fatMap c = none := by
  simp [fileNext, h]

/-- A finite chain of clusters that are not free. -/
structure FileChain (t : FatTable) (fatMap : ℕ → ℕ) (cs : List ℕ) : Prop where
  links : IsChain (fileNext t fatMap) cs
  used : ∀ c ∈ cs, fatMap c ≠ fatClusterFree

/-- No cluster of the file is free, so none is handed out again. -/
structure FileClustersKept (t : FatTable) (v : Volume) (start : ℕ) : Prop where
  used : ∀ c, Reaches (fileNext t v.fatMap) start c → v.fatMap c ≠ fatClusterFree
  kept : ∀ c, fatTableGetNextFreeCluster t v = some c → fatTableClusterIsValid c →
    ¬ Reaches (fileNext t v.fatMap) start c

theorem FileClustersKept.of_used {v : Volume} {start : ℕ}
    (h : ∀ c, Reaches (fileNext t v.fatMap) start c → v.fatMap c ≠ fatClusterFree) :
    FileClustersKept t v start := by
  refine ⟨h, fun c hfree hvalid hreach => ?_⟩
  rcases getNextFreeCluster_eq_some hfree with hc | rfl
  · exact h c hreach hc.2
  · exact not_isValid_endOfChainMax hvalid

theorem FileClustersKept.of_chain {v : Volume} {start : ℕ} {cs : List ℕ}
    (h : FileChain t v.fatMap (start :: cs)) : FileClustersKept t v start :=
  .of_used fun c hc => h.used c (h.links.reaches_iff.mp hc)

theorem FileChain.congr {fatMap fatMap' : ℕ → ℕ} {cs : List ℕ} (h : FileChain t fatMap cs)
    (hsame : ∀ c ∈ cs, fatMap' c = fatMap c) : FileChain t fatMap' cs where
  links := h.links.congr fun c hc => by simp [fileNext, hsame c hc]
  used c hc := by
    rw [hsame c hc]
    exact h.used c hc

/-! ## The writes -/

/-- Whether an entry is written is said by the first outcome, and the memory follows. -/
theorem setNextCluster_outcome {v v' : Volume} {c n : ℕ}
    (h : fatTableSetNextCluster t v c n = some v') :
    ((v.WriteSucceeds 0 ∧ v'.errno = v.errno ∧ v'.fatMap = Function.update v.fatMap c n) ∨
      (¬ v.WriteSucceeds 0 ∧ v'.errno = Errno.eio ∧ v'.fatMap = v.fatMap)) ∧
    ∀ k, v'.WriteSucceeds k ↔ v.WriteSucceeds (k + 1) := by
  obtain ⟨⟨r, v₁⟩, hwrite⟩ : ∃ written, pwrite v (fun i => leByte n i.toNat) 4
      ((c * 4 % 2 ^ 32 + t.fatOffset : ℕ) : ℤ) = written := ⟨_, rfl⟩
  obtain ⟨hmap, -, -, -, hcases⟩ := pwrite_cases hwrite
  obtain ⟨hiff, hlater⟩ := pwrite_outcome (by decide) hwrite
  simp only [fatTableSetNextCluster, hwrite] at h
  split at h
  · rename_i hr
    obtain rfl := Option.some.inj h
    exact ⟨.inr ⟨fun hsucceeds => absurd (hiff.mpr hsucceeds) (by omega), rfl, hmap⟩, hlater⟩
  · rename_i hr
    split at h
    · obtain rfl := Option.some.inj h
      refine ⟨.inl ⟨hiff.mp (by omega), ?_, by simp only [hmap]⟩, hlater⟩
      rcases hcases with ⟨hfail, -, -⟩ | ⟨k, -, -, herrno, -⟩
      · omega
      · exact herrno
    · contradiction

section Linked

variable {fatMap fatMap' : ℕ → ℕ} {front : List ℕ} {last new : ℕ}

theorem FileChain.new_notMem (h : FileChain t fatMap (front ++ [last]))
    (hnew : IsFree t fatMap new) : new ∉ front ++ [last] :=
  fun hmem => h.used new hmem hnew.2

/-- A new cluster that is no mark is behind the last one. -/
theorem FileChain.links_new (h : FileChain t fatMap (front ++ [last]))
    (hnew : IsFree t fatMap new) (hvalid : fatTableClusterIsValid new) (hlast : fatMap' last = new)
    (hfront : ∀ c ∈ front, fatMap' c = fatMap c) (hend : fileNext t fatMap' new = none) :
    IsChain (fileNext t fatMap') (front ++ [last, new]) := by
  refine h.links.extend ?_ hend fun c hc => by simp [fileNext, hfront c hc]
  simp [fileNext, hlast, hnew.1, hvalid]

/-- A new cluster whose number is a mark ends the file where it ended. -/
theorem FileChain.links_mark (h : FileChain t fatMap (front ++ [last]))
    (hvalid : ¬ fatTableClusterIsValid new) (hlast : fatMap' last = new)
    (hfront : ∀ c ∈ front, fatMap' c = fatMap c) :
    IsChain (fileNext t fatMap') (front ++ [last]) := by
  refine h.links.congr fun c hc => ?_
  rcases List.mem_append.mp hc with hold | hlastc
  · simp [fileNext, hfront c hold]
  · obtain rfl := List.mem_singleton.mp hlastc
    have hbefore := h.links.next_last (i := front.length) (by simp) (by simp)
    simp only [List.getElem_append_right le_rfl, Nat.sub_self, List.getElem_cons_zero] at hbefore
    rw [hbefore, fileNext_of_invalid (hlast.symm ▸ hvalid)]

theorem FileChain.used_linked (h : FileChain t fatMap (front ++ [last]))
    (hnew : IsFree t fatMap new) (hlast : fatMap' last = new)
    (hfront : ∀ c ∈ front, fatMap' c = fatMap c) :
    ∀ c ∈ front ++ [last], fatMap' c ≠ fatClusterFree := by
  intro c hc
  rcases List.mem_append.mp hc with hold | hlastc
  · rw [hfront c hold]
    exact h.used c hc
  · obtain rfl := List.mem_singleton.mp hlastc
    have hge := hnew.1.1
    simp only [hlast, fatClusterFree]
    omega

end Linked

/-- The file is whole after the second write, or if it was not needed. -/
def ExtensionCompletes (t : FatTable) (v : Volume) (last : ℕ) : Prop :=
  ∀ next new, fatTableGetNextCluster t v last = some next → fatTableClusterIsEOC next →
    fatTableGetNextFreeCluster t v = some new → fatTableClusterIsValid new →
    v.WriteSucceeds 0 → v.WriteSucceeds 1

theorem FileChain.front_ne {fatMap : ℕ → ℕ} {front : List ℕ} {last new c : ℕ}
    (h : FileChain t fatMap (front ++ [last])) (hnew : IsFree t fatMap new) (hc : c ∈ front) :
    c ≠ last ∧ c ≠ new := by
  refine ⟨fun heq => ?_, fun heq => ?_⟩
  · exact (List.nodup_append.mp h.links.nodup).2.2 c hc last (by simp) heq
  · exact h.new_notMem hnew (heq ▸ List.mem_append_left _ hc)

/-- A cluster was found, and the two writes were made. -/
theorem extension_written {v v₁ v₂ : Volume} {start last next new : ℕ} {front rest : List ℕ}
    (h : FileChain t v.fatMap (front ++ [last])) (hcons : front ++ [last] = start :: rest)
    (hnext : fatTableGetNextCluster t v last = some next)
    (hfree : fatTableGetNextFreeCluster t v = some new) (hnew : IsFree t v.fatMap new)
    (heoc : fatTableClusterIsEOC next)
    (hfirst : fatTableSetNextCluster t v last new = some v₁)
    (hsecond : fatTableSetNextCluster t v₁ new fatClusterEndOfChainMax = some v₂) :
    FileClustersKept t v₂ start ↔ ExtensionCompletes t v last := by
  obtain ⟨hfirst, hlater⟩ := setNextCluster_outcome hfirst
  obtain ⟨hsecond, -⟩ := setNextCluster_outcome hsecond
  have hlong : front ++ [last, new] = start :: (rest ++ [new]) := by
    rw [← List.cons_append, ← hcons, List.append_assoc]
    rfl
  have hlastnew : last ≠ new := by
    rintro rfl
    exact h.new_notMem hnew (by simp)
  have hcompletes : (fatTableClusterIsValid new → v.WriteSucceeds 0 → v.WriteSucceeds 1) →
      ExtensionCompletes t v last := by
    intro hwrites next' new' _ _ hfree' hvalid
    obtain rfl := Option.some.inj (hfree.symm.trans hfree')
    exact hwrites hvalid
  have hmark : ∀ {w : Volume}, ¬ fatTableClusterIsValid new → w.fatMap last = new →
      (∀ c ∈ front, w.fatMap c = v.fatMap c) → FileClustersKept t w start := by
    intro w hvalid hlast hfront
    have hchain : FileChain t w.fatMap (front ++ [last]) :=
      ⟨h.links_mark hvalid hlast hfront, h.used_linked hnew hlast hfront⟩
    exact .of_chain (hcons ▸ hchain)
  rcases hfirst with ⟨hw₁, -, hmap₁⟩ | ⟨hw₁, -, hmap₁⟩
  · rcases hsecond with ⟨hw₂, -, hmap₂⟩ | ⟨hw₂, -, hmap₂⟩
    · -- the new cluster is linked and marked
      refine iff_of_true ?_ (hcompletes fun _ _ => (hlater 0).mp hw₂)
      rw [hmap₁] at hmap₂
      have hlast : v₂.fatMap last = new := by
        rw [hmap₂, Function.update_of_ne hlastnew, Function.update_self]
      have hmarked : v₂.fatMap new = fatClusterEndOfChainMax := by
        rw [hmap₂, Function.update_self]
      have hfront : ∀ c ∈ front, v₂.fatMap c = v.fatMap c := by
        intro c hc
        obtain ⟨hclast, hcnew⟩ := h.front_ne hnew hc
        rw [hmap₂, Function.update_of_ne hcnew, Function.update_of_ne hclast]
      by_cases hvalid : fatTableClusterIsValid new
      · have hend : fileNext t v₂.fatMap new = none :=
          fileNext_of_invalid (hmarked ▸ not_isValid_endOfChainMax)
        have hlinks := h.links_new hnew hvalid hlast hfront hend
        rw [hlong] at hlinks
        refine .of_chain ⟨hlinks, fun c hc => ?_⟩
        rw [← List.cons_append, ← hcons, List.mem_append, List.mem_singleton] at hc
        rcases hc with hold | rfl
        · exact h.used_linked hnew hlast hfront c hold
        · simp [hmarked]
      · exact hmark hvalid hlast hfront
    · -- the new cluster is linked and left free
      rw [hmap₁] at hmap₂
      have hlast : v₂.fatMap last = new := by rw [hmap₂, Function.update_self]
      have hleft : v₂.fatMap new = fatClusterFree := by
        rw [hmap₂, Function.update_of_ne hlastnew.symm]
        exact hnew.2
      have hfront : ∀ c ∈ front, v₂.fatMap c = v.fatMap c := by
        intro c hc
        rw [hmap₂, Function.update_of_ne (h.front_ne hnew hc).1]
      by_cases hvalid : fatTableClusterIsValid new
      · refine iff_of_false (fun hkept => ?_) fun hcond => ?_
        · have hend : fileNext t v₂.fatMap new = none := by
            simp [fileNext, hleft, fatTableIsValidClusterNumber]
          have hlinks := h.links_new hnew hvalid hlast hfront hend
          rw [hlong] at hlinks
          exact hkept.used new (hlinks.reaches_iff.mpr (by simp)) hleft
        · exact hw₂ ((hlater 0).mpr (hcond next new hnext heoc hfree hvalid hw₁))
      · exact iff_of_true (hmark hvalid hlast hfront) (hcompletes fun hv => absurd hv hvalid)
  · -- nothing is linked
    refine iff_of_true ?_ (hcompletes fun _ hw => absurd hw hw₁)
    refine .of_chain (hcons ▸ h.congr fun c hc => ?_)
    rcases hsecond with ⟨-, -, hmap₂⟩ | ⟨-, -, hmap₂⟩
    · have hcnew : c ≠ new := by
        rintro rfl
        exact h.new_notMem hnew hc
      rw [hmap₂, Function.update_of_ne hcnew, hmap₁]
    · rw [hmap₂, hmap₁]

/-- After `next_or_new_cluster` every cluster that the file reaches is used, if and only if the
second write succeeds where a cluster was found and linked. -/
theorem extension_keepsClusters_iff {v v' : Volume} {start last result : ℕ} {cs : List ℕ}
    (h : FileChain t v.fatMap cs) (hstart : cs.head? = some start)
    (hlast : cs.getLast? = some last)
    (hresult : nextOrNewCluster t v last = some (result, v')) :
    FileClustersKept t v' start ↔ ExtensionCompletes t v last := by
  obtain ⟨front, rfl⟩ := List.getLast?_eq_some_iff.mp hlast
  obtain ⟨rest, hcons⟩ := List.head?_eq_some_iff.mp hstart
  have hkept : ∀ {w : Volume}, FileChain t w.fatMap (front ++ [last]) →
      FileClustersKept t w start := by
    intro w hw
    rw [hcons] at hw
    exact .of_chain hw
  unfold nextOrNewCluster at hresult
  simp only [Option.bind_eq_bind, Option.bind_eq_some_iff] at hresult
  obtain ⟨next, hnext, hresult⟩ := hresult
  split_ifs at hresult with heoc
  · simp only [Option.bind_eq_some_iff] at hresult
    obtain ⟨new, hfree, hresult⟩ := hresult
    split_ifs at hresult with hfull
    · -- no cluster is free
      obtain ⟨rfl, rfl⟩ := Prod.mk.inj (Option.some.inj hresult)
      refine iff_of_true (hkept h) fun next' new' hnext' _ hfree' hvalid => ?_
      obtain rfl := Option.some.inj (hfree.symm.trans hfree')
      exact absurd hfull hvalid.1
    · have hnew : IsFree t v.fatMap new := by
        rcases getNextFreeCluster_eq_some hfree with hnew | rfl
        · exact hnew
        · exact absurd isEOC_endOfChainMax hfull
      obtain ⟨v₁, hfirst, hresult⟩ := Option.bind_eq_some_iff.mp hresult
      obtain ⟨v₂, hsecond, hresult⟩ := Option.bind_eq_some_iff.mp hresult
      have hv' : v' = v₂ := by
        split_ifs at hresult <;> exact (Prod.mk.inj (Option.some.inj hresult)).2.symm
      subst hv'
      exact extension_written h hcons hnext hfree hnew heoc hfirst hsecond
  · -- there is a next cluster
    obtain ⟨rfl, rfl⟩ := Prod.mk.inj (Option.some.inj hresult)
    refine iff_of_true (hkept h) fun next' new' hnext' heoc' => ?_
    obtain rfl := Option.some.inj (hnext.symm.trans hnext')
    exact absurd heoc' heoc

/-- A file of the one cluster 2; the second of the coming writes fails. -/
def secondWriteFails : Volume :=
  { smallVolume [fatClusterEndOfChainMax] with io := [.bytes 4, .error 5] }

theorem fileChain_one : FileChain smallTable (smallVolume [fatClusterEndOfChainMax]).fatMap [2] :=
  ⟨by decide, by decide⟩

theorem extension_keepsClusters_one :
    ∃ result v', nextOrNewCluster smallTable (smallVolume [fatClusterEndOfChainMax]) 2 =
      some (result, v') ∧ FileClustersKept smallTable v' 2 := by
  refine ⟨3, _, rfl, (extension_keepsClusters_iff fileChain_one rfl rfl rfl).mpr ?_⟩
  intro _ _ _ _ _ _ _
  exact ⟨rfl, trivial⟩

/-- Cluster 3 is linked behind cluster 2, and the next search hands it out. -/
theorem extension_leaves_free_cluster :
    FileChain smallTable secondWriteFails.fatMap [2] ∧
      ∃ v', nextOrNewCluster smallTable secondWriteFails 2 = some (0, v') ∧
        fatTableGetNextFreeCluster smallTable v' = some 3 ∧ ¬ FileClustersKept smallTable v' 2 := by
  refine ⟨fileChain_one, _, rfl, rfl, fun hkept => ?_⟩
  exact hkept.used 3 (Relation.ReflTransGen.single rfl) rfl

end SistOp.FatFuse
