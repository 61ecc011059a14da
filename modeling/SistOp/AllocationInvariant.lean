import SistOp.FileInit
import SistOp.FileDelete
import SistOp.FilePwrite
import Mathlib.Tactic

/-!
# The allocation invariant

An `AllocState` is a volume and its live files.  A step creates a file, writes to
one or deletes one, each with `errno` 0 on entry.  The invariant says which
clusters are used: those of the live chains, which share none, and those of a
reserved set that no file touches.
-/

namespace SistOp.FatFuse

variable {t : FatTable}

structure AllocState where
  vol : Volume
  live : List FatFile

namespace AllocState

/-- The volume as an operation finds it. -/
def entry (s : AllocState) : Volume := { s.vol with errno := 0 }

end AllocState

/-- One call of `fat_file_init`, `fat_file_pwrite` or `fat_file_delete`. -/
inductive AllocStep (t : FatTable) : AllocState → AllocState → Prop
  | init (s : AllocState) (filepath : CString) (file : Option FatFile) (v' : Volume)
      (hinit : fatFileInit t s.entry false filepath = some (file, v')) :
      AllocStep t s ⟨v', s.live ++ file.toList⟩
  | pwrite (s : AllocState) (front back : List FatFile) (file file' : FatFile)
      (buf : ℤ → UInt8) (size offset : ℕ) (parent : Option FatFile) (result : ℤ)
      (v' : Volume) (hlive : s.live = front ++ file :: back) (hsize : 0 < size)
      (hoffset : offset ≤ file.dentry.fileSize)
      (hwrite : fatFilePwrite t s.entry file buf size offset parent =
        some (result, file', v')) :
      AllocStep t s ⟨v', front ++ file' :: back⟩
  | delete (s : AllocState) (front back : List FatFile) (file file' : FatFile)
      (parent : Option FatFile) (v' : Volume)
      (hlive : s.live = front ++ file :: back)
      (hdelete : fatFileDelete t s.entry file parent = some (file', v')) :
      AllocStep t s ⟨v', front ++ back⟩

/-- The files with their chains: what the FAT says about them. -/
structure ChainsAgree (t : FatTable) (reserved : Set ℕ) (fatMap : ℕ → ℕ)
    (owned : List (FatFile × List ℕ)) : Prop where
  chain : ∀ p ∈ owned, ClusterChain t fatMap (p.1.startCluster :: p.2)
  disjoint : owned.Pairwise fun p q =>
    List.Disjoint (p.1.startCluster :: p.2) (q.1.startCluster :: q.2)
  apart : ∀ p ∈ owned, ∀ c ∈ p.1.startCluster :: p.2, c ∉ reserved
  used_iff : ∀ c, fatTableIsValidClusterNumber t c →
    (fatMap c ≠ fatClusterFree ↔
      c ∈ reserved ∨ ∃ p ∈ owned, c ∈ p.1.startCluster :: p.2)

/-- The chains of the live files are finite, duplicate-free and pairwise disjoint,
and a cluster is used exactly when it lies on one of them or is reserved. -/
def AllocInvariant (t : FatTable) (reserved : Set ℕ) (s : AllocState) : Prop :=
  ∃ owned : List (FatFile × List ℕ), owned.map Prod.fst = s.live ∧
    ChainsAgree t reserved s.vol.fatMap owned

/-- Writes succeed, cluster numbers stay below the marks, and the FAT has no entry
for the end-of-chain mark. -/
structure AllocSetting (t : FatTable) (s : AllocState) : Prop where
  marks : t.ClusterNumbersBelowMarks
  entries : t.fatEntries ≤ fatClusterEndOfChainMax
  succeeds : s.vol.IoSucceeds

/-! ## What the operations do to the FAT -/

/-- Behind the mark the write loop has no cluster to go on with. -/
theorem pwriteLoop_behind (hentries : t.fatEntries ≤ fatClusterEndOfChainMax)
    {buf : ℤ → UInt8} {fuel : ℕ} {v v' : Volume} {pos r off : ℕ} {rem : ℤ}
    (hio : v.IoSucceeds)
    (h : pwriteLoop t buf fuel v pos fatClusterEndOfChainMax r off = some (rem, v')) :
    v'.fatMap = v.fatMap ∧ v'.IoSucceeds := by
  cases fuel with
  | zero => simp [pwriteLoop] at h
  | succ fuel =>
      rcases Nat.eq_zero_or_pos r with rfl | hr
      · simp only [pwriteLoop, if_true, Option.some.injEq, Prod.mk.injEq] at h
        obtain ⟨-, rfl⟩ := h
        exact ⟨rfl, hio⟩
      · rw [pwriteLoop_round hio buf fuel pos _ hr off] at h
        split at h
        · rw [nextOrNewCluster, getNextCluster_outside hentries] at h
          simp at h
        · simp only [Option.some.injEq, Prod.mk.injEq] at h
          obtain ⟨-, rfl⟩ := h
          exact ⟨writeRound_fatMap _ _ _ _ _ _, writeRound_ioSucceeds hio _ _ _ _ _⟩

theorem writeDirEntry_fatMap {v v' : Volume} {parent : Option FatFile}
    {file : FatFile} (hio : v.IoSucceeds)
    (h : writeDirEntry t v parent file = some v') :
    v'.fatMap = v.fatMap ∧ v'.IoSucceeds := by
  cases parent with
  | none => simp [writeDirEntry] at h
  | some p =>
      obtain ⟨v'', hwrite, hio', hmap, -⟩ := exists_writeDirEntry (t := t) hio p file
      rw [h] at hwrite
      obtain rfl := Option.some.inj hwrite
      exact ⟨hmap, hio'⟩

/-- A write that returns has extended the chain of its file and nothing else. -/
theorem fatFilePwrite_extends [t.Formatted] (hmarks : t.ClusterNumbersBelowMarks)
    (hentries : t.fatEntries ≤ fatClusterEndOfChainMax) {v v' : Volume}
    {file file' : FatFile} {cs : List ℕ} {buf : ℤ → UInt8} {size offset : ℕ}
    {parent : Option FatFile} {result : ℤ}
    (h : ClusterChain t v.fatMap (file.startCluster :: cs)) (hio : v.IoSucceeds)
    (herrno : v.errno = 0) (hoffset : offset ≤ file.dentry.fileSize)
    (hwrite : fatFilePwrite t v file buf size offset parent =
      some (result, file', v')) :
    file'.startCluster = file.startCluster ∧ v'.IoSucceeds ∧
      ∃ new, Extends t v.fatMap v'.fatMap (file.startCluster :: cs) new := by
  have hoffset32 : offset < 2 ^ 32 := lt_of_le_of_lt hoffset (FatDirEntry.fileSize_lt _)
  have hsplit := hwrite
  rw [fatFilePwrite, if_neg (by omega)] at hsplit
  simp only [Option.bind_eq_bind, Option.bind_eq_some_iff, Prod.exists] at hsplit
  obtain ⟨c, v₁, hfirst, hsplit⟩ := hsplit
  by_cases herrno₁ : v₁.errno = 0
  · rw [if_neg (by simpa using herrno₁)] at hsplit
    simp only [Option.bind_eq_some_iff, Prod.exists] at hsplit
    obtain ⟨rem, v₂, hloop, -⟩ := hsplit
    rw [fatFilePwrite_eq parent hoffset hfirst herrno₁ hloop] at hwrite
    simp only [Option.bind_eq_bind, Option.bind_eq_some_iff, Option.some.injEq,
      Prod.mk.injEq] at hwrite
    obtain ⟨v₃, hentry, -, rfl, rfl⟩ := hwrite
    have hfinish : ∀ new, v₂.IoSucceeds →
        Extends t v.fatMap v₂.fatMap (file.startCluster :: cs) new →
        v₃.IoSucceeds ∧
          ∃ new, Extends t v.fatMap v₃.fatMap (file.startCluster :: cs) new := by
      intro new hio₂ hgrown
      obtain ⟨hmap, hio₃⟩ := writeDirEntry_fatMap
        (v := { v₂ with clock := fun n => v₂.clock (n + 1) }) ⟨hio₂.1, hio₂.2⟩ hentry
      refine ⟨hio₃, new, ?_⟩
      rw [hmap]
      exact hgrown
    refine ⟨rfl, ?_⟩
    rcases pwriteFirstCluster_eq_some hmarks hentries h hio herrno hoffset32 hfirst with
      ⟨new, hgrown, hsame, -, hk, hcluster⟩ | ⟨rfl, rfl⟩ | ⟨e, he, rfl⟩
    · subst hcluster
      obtain ⟨new', done, hwrote, -⟩ := pwriteLoop_eq_some hmarks buf hgrown.chain
        (hsame.ioSucceeds hio) herrno₁ hk rfl hloop
      exact hfinish _ hwrote.succeeds (hgrown.trans hwrote.grown)
    · obtain ⟨hmap, hio₂⟩ := pwriteLoop_behind hentries hio hloop
      apply hfinish [] hio₂
      rw [hmap]
      exact Extends.refl h
    · exact absurd herrno₁ he
  · rw [fatFilePwrite_of_error hoffset hfirst herrno₁] at hwrite
    simp only [Option.some.injEq, Prod.mk.injEq] at hwrite
    obtain ⟨-, rfl, rfl⟩ := hwrite
    refine ⟨rfl, ?_⟩
    rcases pwriteFirstCluster_eq_some hmarks hentries h hio herrno hoffset32 hfirst with
      ⟨new, hgrown, hsame, -⟩ | ⟨-, rfl⟩ | ⟨e, -, rfl⟩
    · exact ⟨hsame.ioSucceeds hio, new, hgrown⟩
    · exact ⟨hio, [], Extends.refl h⟩
    · exact ⟨⟨hio.1, hio.2⟩, [], Extends.refl h⟩

theorem fatFileDelete_freed [t.Formatted] (hmarks : t.ClusterNumbersBelowMarks) {v v' : Volume}
    {file file' : FatFile} {cs : List ℕ} {parent : Option FatFile}
    (h : ClusterChain t v.fatMap (file.startCluster :: cs)) (hio : v.IoSucceeds)
    (herrno : v.errno = 0)
    (hdelete : fatFileDelete t v file parent = some (file', v')) :
    v'.IoSucceeds ∧ v'.fatMap = freed v.fatMap (file.startCluster :: cs) := by
  obtain ⟨v₂, dentry, hsame, hmap, -, heq⟩ :=
    exists_fatFileDelete hmarks parent h hio herrno
  rw [heq] at hdelete
  simp only [Option.map_eq_some_iff, Prod.mk.injEq] at hdelete
  obtain ⟨v₃, hentry, -, rfl⟩ := hdelete
  obtain ⟨hmap', hio'⟩ :=
    writeDirEntry_fatMap (hsame.ioSucceeds ⟨hio.1, hio.2⟩) hentry
  exact ⟨hio', hmap'.trans hmap⟩

/-! ## The invariant -/

namespace ChainsAgree

variable {reserved : Set ℕ} {fatMap fatMap' : ℕ → ℕ}
  {front back : List (FatFile × List ℕ)} {p : FatFile × List ℕ}

/-- The chain of a file, the other chains and the reserved set are disjoint. -/
theorem notMem_others
    (h : ChainsAgree t reserved fatMap (front ++ p :: back)) :
    ∀ q ∈ front ++ back, ∀ c ∈ q.1.startCluster :: q.2, c ∉ p.1.startCluster :: p.2 := by
  have hpairs := List.pairwise_append.mp h.disjoint
  intro q hq c hcq hcp
  rcases List.mem_append.mp hq with hfront | hback
  · exact hpairs.2.2 q hfront p (by simp) hcq hcp
  · exact (List.pairwise_cons.mp hpairs.2.1).1 q hback hcp hcq

theorem disjoint_without
    (h : ChainsAgree t reserved fatMap (front ++ p :: back)) :
    (front ++ back).Pairwise fun p q =>
      List.Disjoint (p.1.startCluster :: p.2) (q.1.startCluster :: q.2) := by
  have hsub : (front ++ back).Sublist (front ++ p :: back) :=
    (List.Sublist.refl front).append (List.sublist_cons_self p back)
  exact h.disjoint.sublist hsub

theorem mem_without {q : FatFile × List ℕ} (hq : q ∈ front ++ back) :
    q ∈ front ++ p :: back := by
  rcases List.mem_append.mp hq with hfront | hback
  · exact List.mem_append_left _ hfront
  · exact List.mem_append_right _ (List.mem_cons_of_mem p hback)

/-- A chain may grow by free clusters. -/
theorem grow (h : ChainsAgree t reserved fatMap (front ++ p :: back)) {new : List ℕ}
    (hgrown : Extends t fatMap fatMap' (p.1.startCluster :: p.2) new) {file : FatFile}
    (hstart : file.startCluster = p.1.startCluster) :
    ChainsAgree t reserved fatMap' (front ++ (file, p.2 ++ new) :: back) := by
  have hothers := h.notMem_others
  have hp : p ∈ front ++ p :: back := by simp
  -- clusters of other chains were used, so they are not among the new ones
  have hkept : ∀ q ∈ front ++ back, ∀ c ∈ q.1.startCluster :: q.2,
      c ∉ new ∧ fatMap' c = fatMap c := by
    intro q hq c hc
    exact hgrown.frame_of_used (hothers q hq c hc)
      ((h.chain q (mem_without hq)).used c hc)
  have hmem : ∀ c, c ∈ file.startCluster :: (p.2 ++ new) ↔
      c ∈ p.1.startCluster :: p.2 ∨ c ∈ new := by
    intro c
    rw [hstart, ← List.cons_append, List.mem_append]
  refine ⟨?_, ?_, ?_, ?_⟩
  · intro q hq
    rcases List.mem_append.mp hq with hfront | hback
    · have hq' : q ∈ front ++ back := List.mem_append_left _ hfront
      exact (h.chain q (mem_without hq')).congr fun c hc => (hkept q hq' c hc).2
    · rcases List.mem_cons.mp hback with rfl | hback
      · show ClusterChain t fatMap' (file.startCluster :: (p.2 ++ new))
        rw [hstart, ← List.cons_append]
        exact hgrown.chain
      · have hq' : q ∈ front ++ back := List.mem_append_right _ hback
        exact (h.chain q (mem_without hq')).congr fun c hc => (hkept q hq' c hc).2
  · have hapart : ∀ q ∈ front ++ back,
        List.Disjoint (q.1.startCluster :: q.2) (file.startCluster :: (p.2 ++ new)) := by
      intro q hq c hcq hcp
      rcases (hmem c).mp hcp with hold | hnew
      · exact hothers q hq c hcq hold
      · exact (hkept q hq c hcq).1 hnew
    have hpairs := List.pairwise_append.mp h.disjoint_without
    refine List.pairwise_append.mpr ⟨hpairs.1, List.pairwise_cons.mpr ⟨?_, hpairs.2.1⟩, ?_⟩
    · intro q hq
      exact (hapart q (List.mem_append_right _ hq)).symm
    · intro q hq r hr
      rcases List.mem_cons.mp hr with rfl | hr
      · exact hapart q (List.mem_append_left _ hq)
      · exact hpairs.2.2 q hq r hr
  · intro q hq c hc
    have hfree : ∀ c ∈ new, c ∉ reserved := by
      intro c hnew hres
      obtain ⟨hvalid, hzero⟩ := hgrown.fresh c hnew
      exact (h.used_iff c hvalid).mpr (Or.inl hres) hzero
    rcases List.mem_append.mp hq with hfront | hback
    · exact h.apart q (mem_without (List.mem_append_left _ hfront)) c hc
    · rcases List.mem_cons.mp hback with rfl | hback
      · rcases (hmem c).mp hc with hold | hnew
        · exact h.apart p hp c hold
        · exact hfree c hnew
      · exact h.apart q (mem_without (List.mem_append_right _ hback)) c hc
  · intro c hvalid
    have howned : (∃ q ∈ front ++ (file, p.2 ++ new) :: back,
          c ∈ q.1.startCluster :: q.2) ↔
        (∃ q ∈ front ++ p :: back, c ∈ q.1.startCluster :: q.2) ∨ c ∈ new := by
      simp only [List.mem_append, List.mem_cons, or_and_right, exists_or,
        exists_eq_left, hstart]
      by_cases hnew : c ∈ new <;> simp [hnew]
    rw [howned, ← or_assoc, ← h.used_iff c hvalid]
    by_cases hnew : c ∈ new
    · have hused := hgrown.chain.used c (List.mem_append_right _ hnew)
      simp [hused, hnew]
    · by_cases hold : c ∈ p.1.startCluster :: p.2
      · have hbefore := (h.chain p hp).used c hold
        have hafter := hgrown.chain.used c (List.mem_append_left _ hold)
        simp [hbefore, hafter]
      · rw [hgrown.frame c hold hnew]
        simp [hnew]

/-- Freeing the chain of a file that is no longer live. -/
theorem remove (h : ChainsAgree t reserved fatMap (front ++ p :: back)) :
    ChainsAgree t reserved (freed fatMap (p.1.startCluster :: p.2)) (front ++ back) := by
  have hothers := h.notMem_others
  have hp : p ∈ front ++ p :: back := by simp
  refine ⟨?_, h.disjoint_without, fun q hq => h.apart q (mem_without hq), ?_⟩
  · intro q hq
    apply (h.chain q (mem_without hq)).congr
    intro c hc
    exact freed_of_notMem (hothers q hq c hc)
  · intro c hvalid
    by_cases hc : c ∈ p.1.startCluster :: p.2
    · rw [freed_of_mem hc]
      have hres := h.apart p hp c hc
      have hrest : ¬ ∃ q ∈ front ++ back, c ∈ q.1.startCluster :: q.2 := by
        rintro ⟨q, hq, hcq⟩
        exact hothers q hq c hcq hc
      exact iff_of_false (by simp) (by tauto)
    · rw [freed_of_notMem hc, h.used_iff c hvalid]
      have howned : (∃ q ∈ front ++ p :: back, c ∈ q.1.startCluster :: q.2) ↔
          ∃ q ∈ front ++ back, c ∈ q.1.startCluster :: q.2 := by
        constructor
        · rintro ⟨q, hq, hcq⟩
          rcases List.mem_append.mp hq with hfront | hback
          · exact ⟨q, List.mem_append_left _ hfront, hcq⟩
          · rcases List.mem_cons.mp hback with rfl | hback
            · exact absurd hcq hc
            · exact ⟨q, List.mem_append_right _ hback, hcq⟩
        · rintro ⟨q, hq, hcq⟩
          exact ⟨q, mem_without hq, hcq⟩
      rw [howned]

/-- A new file takes a free cluster. -/
theorem add {owned : List (FatFile × List ℕ)} (hmarks : t.ClusterNumbersBelowMarks)
    (h : ChainsAgree t reserved fatMap owned) {file : FatFile}
    (hfree : IsFree t fatMap file.startCluster) :
    ChainsAgree t reserved
      (Function.update fatMap file.startCluster fatClusterEndOfChainMax)
      (owned ++ [(file, [])]) := by
  have hkept : ∀ q ∈ owned, ∀ c ∈ q.1.startCluster :: q.2, c ≠ file.startCluster := by
    rintro q hq c hc rfl
    exact (h.chain q hq).used _ hc hfree.2
  refine ⟨?_, ?_, ?_, ?_⟩
  · intro q hq
    rcases List.mem_append.mp hq with hold | hnew
    · apply (h.chain q hold).congr
      intro c hc
      rw [Function.update_of_ne (hkept q hold c hc)]
    · rw [List.mem_singleton] at hnew
      subst hnew
      refine ⟨?_, ?_, ?_⟩
      · simp [chainNext, not_valid_endOfChain hmarks]
      · simpa using hfree.1
      · simp
  · refine List.pairwise_append.mpr ⟨h.disjoint, List.pairwise_singleton _ _, ?_⟩
    intro q hq r hr c hcq hcr
    rw [List.mem_singleton] at hr
    subst hr
    exact hkept q hq c hcq (by simpa using hcr)
  · intro q hq c hc
    rcases List.mem_append.mp hq with hold | hnew
    · exact h.apart q hold c hc
    · rw [List.mem_singleton] at hnew
      subst hnew
      obtain rfl : c = file.startCluster := by simpa using hc
      intro hres
      exact (h.used_iff _ hfree.1).mpr (Or.inl hres) hfree.2
  · intro c hvalid
    by_cases hc : c = file.startCluster
    · subst hc
      simp
    · rw [Function.update_of_ne hc, h.used_iff c hvalid]
      simp [or_and_right, exists_or, hc]

end ChainsAgree

/-! ## Steps and runs -/

theorem AllocStep.preserves [t.Formatted] {reserved : Set ℕ} {s s' : AllocState}
    (hstep : AllocStep t s s') (hset : AllocSetting t s)
    (hinv : AllocInvariant t reserved s) :
    AllocSetting t s' ∧ AllocInvariant t reserved s' := by
  obtain ⟨hmarks, hentries, hio⟩ := hset
  obtain ⟨owned, hlive, hagree⟩ := hinv
  have hentryIo : s.entry.IoSucceeds := ⟨hio.1, hio.2⟩
  cases hstep with
  | init filepath file v' hinit =>
      obtain ⟨hlater, hcases⟩ := fatFileInit_eq_some rfl hinit
      have hio' := hlater.ioSucceeds hentryIo
      rcases hcases with ⟨rfl, -, -, hmap, -⟩ |
        ⟨c, file, rfl, hnext, hfree, hbound, rfl, -, -, -, -, -, -, -, hmap, -⟩
      · refine ⟨⟨hmarks, hentries, hio'⟩, owned, by simpa using hlive, ?_⟩
        rw [hmap]
        exact hagree
      · refine ⟨⟨hmarks, hentries, hio'⟩, owned ++ [(file, [])], by simp [hlive], ?_⟩
        rw [hmap]
        rcases getNextFreeCluster_eq_some hnext with hcluster | hmark
        · exact hagree.add hmarks hcluster
        · omega
  | pwrite front back file file' buf size offset parent result v' hsplit _ hoffset hwrite =>
      rw [hsplit, List.map_eq_append_iff] at hlive
      obtain ⟨ownedFront, rest, rfl, rfl, hrest⟩ := hlive
      rw [List.map_eq_cons_iff] at hrest
      obtain ⟨p, ownedBack, rfl, rfl, rfl⟩ := hrest
      obtain ⟨hstart, hio', new, hgrown⟩ := fatFilePwrite_extends (v := s.entry) hmarks
        hentries (hagree.chain p (by simp)) hentryIo rfl hoffset hwrite
      exact ⟨⟨hmarks, hentries, hio'⟩, _, by simp, hagree.grow hgrown hstart⟩
  | delete front back file file' parent v' hsplit hdelete =>
      rw [hsplit, List.map_eq_append_iff] at hlive
      obtain ⟨ownedFront, rest, rfl, rfl, hrest⟩ := hlive
      rw [List.map_eq_cons_iff] at hrest
      obtain ⟨p, ownedBack, rfl, rfl, rfl⟩ := hrest
      obtain ⟨hio', hmap⟩ := fatFileDelete_freed (v := s.entry) hmarks
        (hagree.chain p (by simp)) hentryIo rfl hdelete
      refine ⟨⟨hmarks, hentries, hio'⟩, ownedFront ++ ownedBack, by simp, ?_⟩
      rw [hmap]
      exact hagree.remove

/-- On a formatted table, every run of creations, writes and deletions keeps the allocation
invariant. -/
theorem allocInvariant_of_run [t.Formatted] {reserved : Set ℕ} {s s' : AllocState}
    (hrun : Relation.ReflTransGen (AllocStep t) s s') (hset : AllocSetting t s)
    (hinv : AllocInvariant t reserved s) :
    AllocInvariant t reserved s' := by
  have hboth : AllocSetting t s' ∧ AllocInvariant t reserved s' := by
    induction hrun with
    | refl => exact ⟨hset, hinv⟩
    | tail _ hstep ih => exact hstep.preserves ih.1 ih.2
  exact hboth.2

/-- A small volume without files, whose cluster 2 is reserved. -/
def noFiles : AllocState where
  vol := smallVolume [fatClusterEndOfChainMax]
  live := []

theorem noFiles_allocInvariant : AllocInvariant smallTable {2} noFiles := by
  refine ⟨[], rfl, by simp, List.Pairwise.nil, by simp, ?_⟩
  intro c hc
  have hge := hc.1
  by_cases htwo : c = 2
  · subst htwo
    exact iff_of_true (by decide) (Or.inl rfl)
  · obtain ⟨k, rfl⟩ : ∃ k, c = k + 3 := ⟨c - 3, by omega⟩
    simp [noFiles, smallVolume]

/-- Two files are created there, one grows by a cluster, and the other is deleted. -/
theorem allocInvariant_of_run_grown :
    ∃ s', Relation.ReflTransGen (AllocStep smallTable) noFiles s' ∧ s'.live.length = 1 ∧
      s'.vol.fatMap 3 = 5 ∧ s'.vol.fatMap 4 = fatClusterFree ∧
      AllocInvariant smallTable {2} s' := by
  let parent := emptyFile 2 (by decide)
  have hcalls : (fatFileInit smallTable noFiles.entry false [charSlash, 0x61]).bind (fun a =>
      a.1.bind fun file =>
        (fatFileInit smallTable { a.2 with errno := 0 } false [charSlash, 0x62]).bind fun b =>
          b.1.bind fun other =>
            (fatFilePwrite smallTable { b.2 with errno := 0 } file (fun _ => 7) 40 0
              (some parent)).bind fun w =>
              (fatFileDelete smallTable { w.2.2 with errno := 0 } other (some parent)).map fun d =>
                (w.1, d.2.fatMap 3, d.2.fatMap 4)) = some (40, 5, fatClusterFree) := by
    decide +kernel
  simp only [Option.bind_eq_some_iff, Option.map_eq_some_iff, Prod.exists, Prod.mk.injEq] at hcalls
  obtain ⟨_, v₁, hfirst, file, rfl, _, v₂, hsecond, other, rfl, r, file', v₃, hwrite, other', v₄,
    hdelete, -, hgrown, hfreed⟩ := hcalls
  have hfile : AllocStep smallTable noFiles ⟨v₁, [file]⟩ := .init noFiles _ _ _ hfirst
  have hother : AllocStep smallTable ⟨v₁, [file]⟩ ⟨v₂, [file, other]⟩ :=
    .init ⟨v₁, [file]⟩ _ _ _ hsecond
  have hwritten : AllocStep smallTable ⟨v₂, [file, other]⟩ ⟨v₃, [file', other]⟩ :=
    .pwrite _ [] [other] file file' _ 40 0 _ r v₃ rfl (by decide) (Nat.zero_le _) hwrite
  have hdeleted : AllocStep smallTable ⟨v₃, [file', other]⟩ ⟨v₄, [file']⟩ :=
    .delete _ [file'] [] other other' _ v₄ rfl hdelete
  have hrun := (((Relation.ReflTransGen.single hfile).tail hother).tail hwritten).tail hdeleted
  exact ⟨_, hrun, rfl, hgrown, hfreed, allocInvariant_of_run hrun
    ⟨by decide, by decide, rfl, rfl⟩ noFiles_allocInvariant⟩

end SistOp.FatFuse
