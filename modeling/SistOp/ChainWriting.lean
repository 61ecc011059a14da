import SistOp.ClusterChain
import SistOp.FatFile
import Mathlib.Tactic

/-!
# Writing along a cluster chain

Byte `i` of a file lies at `chainAddr` of its chain.  One round of the write loop
writes the rest of a cluster and moves on to the next one, which may be new.  The
loop as a whole extends the chain and writes a range of the file.
-/

namespace SistOp.FatFuse

open ByteStore

variable {t : FatTable}

/-- The address of byte `i` along the clusters `cs`. -/
def chainAddr (t : FatTable) (cs : List ℕ) (i : ℕ) : ℕ :=
  fatTableClusterOffset t (cs.getD (i / fatTableBytesPerCluster t) 0) +
    i % fatTableBytesPerCluster t

/-- The first `n` bytes along the clusters `cs`. -/
def chainContent (t : FatTable) (disk : ℕ → UInt8) (cs : List ℕ) (n : ℕ) :
    List UInt8 :=
  (List.range n).map fun i => disk (chainAddr t cs i)

theorem dataStart_le_chainAddr (cs : List ℕ) (i : ℕ) :
    t.dataStartOffset ≤ chainAddr t cs i :=
  (dataStart_le_clusterOffset _).trans (Nat.le_add_right _ _)

theorem div_lt_of_lt_length {cs : List ℕ} {i : ℕ}
    (hi : i < cs.length * fatTableBytesPerCluster t) :
    i / fatTableBytesPerCluster t < cs.length :=
  (Nat.div_lt_iff_lt_mul bytesPerCluster_pos).mpr hi

theorem chainAddr_eq (cs : List ℕ) {i k : ℕ} (hk : k < cs.length)
    (hi : i / fatTableBytesPerCluster t = k) :
    chainAddr t cs i =
      fatTableClusterOffset t cs[k] + i % fatTableBytesPerCluster t := by
  subst hi
  simp [chainAddr, hk]

theorem chainAddr_append {cs new : List ℕ} {i : ℕ}
    (hi : i < cs.length * fatTableBytesPerCluster t) :
    chainAddr t (cs ++ new) i = chainAddr t cs i := by
  have hk := div_lt_of_lt_length hi
  rw [chainAddr_eq cs hk rfl,
    chainAddr_eq (cs ++ new) (by rw [List.length_append]; omega) rfl,
    List.getElem_append_left hk]

/-- Within a cluster, consecutive bytes have consecutive addresses. -/
theorem chainAddr_add (cs : List ℕ) {i j : ℕ}
    (hj : i % fatTableBytesPerCluster t + j < fatTableBytesPerCluster t) :
    chainAddr t cs (i + j) = chainAddr t cs i + j := by
  have hsplit : i + j = fatTableBytesPerCluster t * (i / fatTableBytesPerCluster t) +
      (i % fatTableBytesPerCluster t + j) := by
    have hdiv := Nat.div_add_mod i (fatTableBytesPerCluster t)
    omega
  have hdiv : (i + j) / fatTableBytesPerCluster t = i / fatTableBytesPerCluster t := by
    rw [hsplit, Nat.mul_add_div bytesPerCluster_pos, Nat.div_eq_of_lt hj, Nat.add_zero]
  have hmod : (i + j) % fatTableBytesPerCluster t =
      i % fatTableBytesPerCluster t + j := by
    rw [hsplit, Nat.mul_add_mod, Nat.mod_eq_of_lt hj]
  rw [chainAddr, chainAddr, hdiv, hmod, Nat.add_assoc]

/-- Distinct bytes along distinct clusters have distinct addresses. -/
theorem chainAddr_injective_of_nodup [t.Formatted] {cs : List ℕ} (hnodup : cs.Nodup)
    (hvalid : ∀ c ∈ cs, fatTableIsValidClusterNumber t c) {i j : ℕ}
    (hi : i < cs.length * fatTableBytesPerCluster t)
    (hj : j < cs.length * fatTableBytesPerCluster t)
    (heq : chainAddr t cs i = chainAddr t cs j) : i = j := by
  have hki := div_lt_of_lt_length hi
  have hkj := div_lt_of_lt_length hj
  rw [chainAddr_eq cs hki rfl, chainAddr_eq cs hkj rfl] at heq
  obtain ⟨hcluster, hmod⟩ :=
    clusterOffset_injective (valid_lt_u32 (hvalid _ (List.getElem_mem hki)))
      (valid_lt_u32 (hvalid _ (List.getElem_mem hkj)))
      (Nat.mod_lt _ bytesPerCluster_pos) (Nat.mod_lt _ bytesPerCluster_pos) heq
  have hindex := (List.Nodup.getElem_inj_iff hnodup).mp hcluster
  rw [← Nat.div_add_mod i (fatTableBytesPerCluster t), hindex, hmod, Nat.div_add_mod]

/-- Two ranges one behind the other, the second along a longer list of clusters. -/
theorem wroteThrough_append [t.Formatted] {cs new new' : List ℕ} {off k len : ℕ} {data : ℕ → UInt8}
    {disk disk' disk'' : ℕ → UInt8} (hnodup : (cs ++ (new ++ new')).Nodup)
    (hvalid : ∀ c ∈ cs ++ (new ++ new'), fatTableIsValidClusterNumber t c)
    (hroom : off + k ≤ (cs ++ new).length * fatTableBytesPerCluster t)
    (hroom' : off + k + len ≤ (cs ++ (new ++ new')).length * fatTableBytesPerCluster t)
    (h : WroteThrough (chainAddr t (cs ++ new)) off k data t.dataStartOffset disk disk')
    (h' : WroteThrough (chainAddr t (cs ++ (new ++ new'))) (off + k) len
      (fun i => data (k + i)) t.dataStartOffset disk' disk'') :
    WroteThrough (chainAddr t (cs ++ (new ++ new'))) off (k + len) data t.dataStartOffset
      disk disk'' := by
  have hfirst : WroteThrough (chainAddr t (cs ++ (new ++ new'))) off k data
      t.dataStartOffset disk disk' := by
    apply h.congr_addr
    intro j hj
    rw [← List.append_assoc]
    exact chainAddr_append (by omega)
  apply hfirst.append h'
  · intro i _
    exact dataStart_le_chainAddr _ _
  · intro i hi j hj heq
    have hsame := chainAddr_injective_of_nodup hnodup hvalid (by omega) (by omega) heq
    omega

/-- The bytes of a cluster outside a chain are not bytes of the chain. -/
theorem chainAddr_ne_of_notMem [t.Formatted] {fatMap : ℕ → ℕ} {cs : List ℕ}
    (h : ClusterChain t fatMap cs) {i d j : ℕ}
    (hi : i < cs.length * fatTableBytesPerCluster t) (hd : d ∉ cs) (hd32 : d < 2 ^ 32)
    (hj : j < fatTableBytesPerCluster t) :
    fatTableClusterOffset t d + j ≠ chainAddr t cs i := by
  intro heq
  have hk := div_lt_of_lt_length hi
  rw [chainAddr_eq cs hk rfl] at heq
  obtain ⟨hcluster, -⟩ :=
    clusterOffset_injective hd32 (valid_lt_u32 (h.valid _ (List.getElem_mem hk))) hj
      (Nat.mod_lt _ bytesPerCluster_pos) heq
  exact hd (hcluster ▸ List.getElem_mem hk)

/-! ## The next cluster -/

/-- What `next_or_new_cluster` can do at cluster `k` of a chain, when writes
succeed: step to the next cluster, which it links if needed, or fail because no
cluster is free. -/
theorem nextOrNewCluster_eq_some [t.Formatted] (hmarks : t.ClusterNumbersBelowMarks) {v v' : Volume}
    {cs : List ℕ} (h : ClusterChain t v.fatMap cs) (hio : v.IoSucceeds)
    (herrno : v.errno = 0) {k c : ℕ} (hk : k < cs.length)
    (hresult : nextOrNewCluster t v cs[k] = some (c, v')) :
    (∃ new, Extends t v.fatMap v'.fatMap cs new ∧ SameOutsideFat t v v' ∧
        FatBytesKept t v.disk v'.disk (cs ++ new) ∧
        (cs ++ new).length ≤ max cs.length (k + 2) ∧
        ∃ hk' : k + 1 < (cs ++ new).length, (cs ++ new)[k + 1] = c) ∨
      c = 0 ∧ v' = { v with errno := Errno.eio } := by
  unfold nextOrNewCluster at hresult
  by_cases hlast : k + 1 = cs.length
  · rw [h.getNext_last hk hlast] at hresult
    simp only [Option.bind_eq_bind, Option.bind_some, if_pos isEOC_endOfChainMax,
      Option.bind_eq_some_iff] at hresult
    obtain ⟨next, hnext, hresult⟩ := hresult
    rcases getNextFreeCluster_eq_some hnext with hfree | rfl
    · rw [if_neg (not_isEOC_of_valid hmarks hfree.1),
        setNextCluster_of_ioSucceeds hio
          (valid_lt_entries (h.valid _ (List.getElem_mem hk)))] at hresult
      simp only [Option.bind_some] at hresult
      have hio' : (setEntry t v cs[k] next).IoSucceeds := hio
      rw [setNextCluster_of_ioSucceeds hio' (valid_lt_entries hfree.1)] at hresult
      have herrno' :
          (setEntry t (setEntry t v cs[k] next) next fatClusterEndOfChainMax).errno =
            0 := herrno
      simp only [Option.bind_some, herrno', ne_eq, not_true_eq_false, if_false,
        Option.some.injEq, Prod.mk.injEq] at hresult
      obtain ⟨rfl, rfl⟩ := hresult
      have hsplit : cs = cs.take k ++ [cs[k]] := by
        rw [List.take_append_getElem hk, List.take_of_length_le (by omega)]
      have hcluster := h.valid _ (List.getElem_mem hk)
      refine Or.inl ⟨[next], ?_, ?_, ?_, by simp; omega, ?_⟩
      · have hchain : ClusterChain t v.fatMap (cs.take k ++ [cs[k]]) := by
          rwa [← hsplit]
        have hlink := Extends.link hmarks hchain hfree
        rwa [← hsplit] at hlink
      · exact (setEntry_sameOutsideFat v
          (valid_lt_entries (h.valid _ (List.getElem_mem hk)))).trans
          (setEntry_sameOutsideFat _ (valid_lt_entries hfree.1))
      · have hfirst : FatBytesKept t v.disk (setEntry t v cs[k] next).disk
            (cs ++ [next]) :=
          (setEntry_fatBytesKept hmarks v hcluster).mono (by simp)
        exact hfirst.trans ((setEntry_fatBytesKept hmarks _ hfree.1).mono (by simp))
          (List.Subset.refl _)
      · refine ⟨by simp; omega, ?_⟩
        simp [hlast]
    · rw [if_pos isEOC_endOfChainMax] at hresult
      simp only [Option.some.injEq, Prod.mk.injEq] at hresult
      exact Or.inr ⟨hresult.1.symm, hresult.2.symm⟩
  · have hinner : k + 1 < cs.length := by omega
    rw [h.getNext_inner hinner] at hresult
    simp only [Option.bind_eq_bind, Option.bind_some,
      if_neg (not_isEOC_of_valid hmarks (h.valid _ (List.getElem_mem hinner))),
      Option.some.injEq, Prod.mk.injEq] at hresult
    obtain ⟨rfl, rfl⟩ := hresult
    exact Or.inl ⟨[], Extends.refl h, SameOutsideFat.refl _, FatBytesKept.refl _ _,
      by simp, by simpa using hinner, by simp⟩

/-- With a next or a free cluster at hand the step is taken. -/
theorem exists_nextOrNewCluster [t.Formatted] (hmarks : t.ClusterNumbersBelowMarks) {v : Volume}
    {cs : List ℕ} (h : ClusterChain t v.fatMap cs) (hio : v.IoSucceeds)
    (herrno : v.errno = 0) {k : ℕ} (hk : k < cs.length)
    (hroom : k + 1 < cs.length + (freeClusters t v.fatMap).card) :
    ∃ c v', nextOrNewCluster t v cs[k] = some (c, v') ∧ v'.errno = 0 := by
  unfold nextOrNewCluster
  by_cases hlast : k + 1 = cs.length
  · obtain ⟨d, hd⟩ := Finset.card_pos.mp (show 0 < (freeClusters t v.fatMap).card by omega)
    obtain ⟨next, hnext, hfree⟩ := exists_getNextFreeCluster (mem_freeClusters.mp hd)
    have hio' : (setEntry t v cs[k] next).IoSucceeds := hio
    have herrno' :
        (setEntry t (setEntry t v cs[k] next) next fatClusterEndOfChainMax).errno =
          0 := herrno
    rw [h.getNext_last hk hlast]
    simp only [Option.bind_eq_bind, Option.bind_some, if_pos isEOC_endOfChainMax, hnext,
      if_neg (not_isEOC_of_valid hmarks hfree.1),
      setNextCluster_of_ioSucceeds hio
        (valid_lt_entries (h.valid _ (List.getElem_mem hk))),
      setNextCluster_of_ioSucceeds hio' (valid_lt_entries hfree.1), herrno', ne_eq,
      not_true_eq_false, if_false]
    exact ⟨_, _, rfl, herrno'⟩
  · have hinner : k + 1 < cs.length := by omega
    rw [h.getNext_inner hinner]
    simp only [Option.bind_eq_bind, Option.bind_some,
      if_neg (not_isEOC_of_valid hmarks (h.valid _ (List.getElem_mem hinner)))]
    exact ⟨_, _, rfl, herrno⟩

/-! ## The write loop -/

/-- From `v` to `v'` the chain `cs` grew by `new`, and `len` bytes of `data` were
written along it at `off`. -/
structure WroteFile (t : FatTable) (v v' : Volume) (cs new : List ℕ) (off len : ℕ)
    (data : ℕ → UInt8) : Prop where
  grown : Extends t v.fatMap v'.fatMap cs new
  room : off + len ≤ (cs ++ new).length * fatTableBytesPerCluster t
  bytes : WroteThrough (chainAddr t (cs ++ new)) off len data t.dataStartOffset
    v.disk v'.disk
  entries : FatBytesKept t v.disk v'.disk (cs ++ new)
  succeeds : v'.IoSucceeds

theorem WroteFile.append [t.Formatted] {v v' v'' : Volume} {cs new new' : List ℕ}
    {off k len : ℕ} {data : ℕ → UInt8} (h : WroteFile t v v' cs new off k data)
    (h' : WroteFile t v' v'' (cs ++ new) new' (off + k) len fun i => data (k + i)) :
    WroteFile t v v'' cs (new ++ new') off (k + len) data where
  grown := h.grown.trans h'.grown
  room := by
    have hroom := h'.room
    rw [List.append_assoc] at hroom
    omega
  bytes := by
    have hroom' := h'.room
    have hsecond := h'.bytes
    have hchain := h'.grown.chain
    rw [List.append_assoc] at hsecond hchain hroom'
    exact wroteThrough_append hchain.nodup hchain.valid h.room hroom' h.bytes hsecond
  entries := by
    rw [← List.append_assoc]
    exact h.entries.trans h'.entries (List.subset_append_left _ _)
  succeeds := h'.succeeds

/-- The bytes that one round writes. -/
def roundLen (t : FatTable) (bytesRemaining offset : ℕ) : ℕ :=
  min (fatTableBytesPerCluster t - offset % fatTableBytesPerCluster t) bytesRemaining

theorem remainingBytes_eq (bytesRemaining offset : ℕ) :
    fatTableGetClusterRemainingBytes t bytesRemaining offset =
      roundLen t bytesRemaining offset := by
  rw [fatTableGetClusterRemainingBytes, maskOffset_eq, roundLen]

theorem roundLen_pos {r offset : ℕ} (hr : 0 < r) : 0 < roundLen t r offset := by
  have hmod := Nat.mod_lt offset (bytesPerCluster_pos (t := t))
  unfold roundLen
  omega

/-- The round that does not finish the request ends at a cluster boundary. -/
theorem add_roundLen_div {r offset : ℕ} (hmore : 0 < r - roundLen t r offset) :
    (offset + roundLen t r offset) / fatTableBytesPerCluster t =
      offset / fatTableBytesPerCluster t + 1 := by
  have hmod := Nat.mod_lt offset (bytesPerCluster_pos (t := t))
  have hdiv := Nat.div_add_mod offset (fatTableBytesPerCluster t)
  have hlen : roundLen t r offset =
      fatTableBytesPerCluster t - offset % fatTableBytesPerCluster t := by
    unfold roundLen at *
    omega
  have hsum : offset + roundLen t r offset =
      fatTableBytesPerCluster t * (offset / fatTableBytesPerCluster t + 1) + 0 := by
    rw [Nat.mul_add, Nat.mul_one]
    omega
  rw [hsum, Nat.mul_add_div bytesPerCluster_pos, Nat.zero_div, Nat.add_zero]

/-- The volume after one round wrote to `cluster`. -/
def writeRound (t : FatTable) (v : Volume) (buf : ℤ → UInt8)
    (pos cluster bytesRemaining offset : ℕ) : Volume :=
  { v with
    disk := store v.disk
      (fatTableClusterOffset t cluster + offset % fatTableBytesPerCluster t)
      (roundLen t bytesRemaining offset) fun i => buf (pos + i) }

theorem writeRound_ioSucceeds {v : Volume} (hio : v.IoSucceeds) (buf : ℤ → UInt8)
    (pos cluster r off : ℕ) : (writeRound t v buf pos cluster r off).IoSucceeds :=
  ⟨hio.1, hio.2⟩

@[simp] theorem writeRound_fatMap (v : Volume) (buf : ℤ → UInt8)
    (pos cluster r off : ℕ) :
    (writeRound t v buf pos cluster r off).fatMap = v.fatMap := by
  simp only [writeRound]

@[simp] theorem writeRound_errno (v : Volume) (buf : ℤ → UInt8)
    (pos cluster r off : ℕ) :
    (writeRound t v buf pos cluster r off).errno = v.errno := by
  simp only [writeRound]

/-- A round leaves the FAT on disk alone. -/
theorem writeRound_fatBytesKept (v : Volume) (buf : ℤ → UInt8)
    (pos cluster r off : ℕ) (touched : List ℕ) :
    FatBytesKept t v.disk (writeRound t v buf pos cluster r off).disk touched := by
  intro a ha _
  have hstart := dataStart_le_clusterOffset (t := t) cluster
  simp only [writeRound]
  exact store_outside _ _ (Or.inl (by omega))

theorem pwriteLoop_round {v : Volume} (hio : v.IoSucceeds) (buf : ℤ → UInt8)
    (fuel pos cluster : ℕ) {r : ℕ} (hr : 0 < r) (off : ℕ) :
    pwriteLoop t buf (fuel + 1) v pos cluster r off =
      if 0 < r - roundLen t r off then do
        let (next, v') ←
          nextOrNewCluster t (writeRound t v buf pos cluster r off) cluster
        if v'.errno ≠ 0 ∨ ¬ fatTableClusterIsValid next then
          some (((r - roundLen t r off : ℕ) : ℤ), v')
        else
          pwriteLoop t buf fuel v' (pos + roundLen t r off) next
            (r - roundLen t r off) (off + roundLen t r off)
      else some (0, writeRound t v buf pos cluster r off) := by
  have hwrite := fullPwrite_of_ioSucceeds hio (fun i => buf (pos + i)) (roundLen t r off)
    (fatTableClusterOffset t cluster + off % fatTableBytesPerCluster t)
  rw [pwriteLoop, if_neg (by omega)]
  simp only [remainingBytes_eq, maskOffset_eq, hwrite, ne_eq, not_true_eq_false,
    if_false]
  rfl

/-- The first bytes of a round lie in the clusters, -/
theorem round_room {cs : List ℕ} {k n r off : ℕ} (hk : k < cs.length)
    (hoff : off / fatTableBytesPerCluster t = k) (hn : n ≤ roundLen t r off) :
    off + n ≤ cs.length * fatTableBytesPerCluster t := by
  have hdiv := Nat.div_add_mod off (fatTableBytesPerCluster t)
  have hmod := Nat.mod_lt off (bytesPerCluster_pos (t := t))
  have hmul := Nat.mul_le_mul_left (fatTableBytesPerCluster t) hk
  rw [hoff] at hdiv
  rw [Nat.mul_comm cs.length]
  unfold roundLen at hn
  rw [Nat.mul_succ] at hmul
  omega

/-- where they are copied to consecutive addresses. -/
theorem round_wroteThrough {cs : List ℕ} {k n r off : ℕ} (hk : k < cs.length)
    (hoff : off / fatTableBytesPerCluster t = k) (hn : n ≤ roundLen t r off)
    (disk data : ℕ → UInt8) :
    WroteThrough (chainAddr t cs) off n data t.dataStartOffset disk
      (store disk (fatTableClusterOffset t cs[k] + off % fatTableBytesPerCluster t) n data) := by
  have hmod := Nat.mod_lt off (bytesPerCluster_pos (t := t))
  have hround : WroteThrough (chainAddr t cs) off n data t.dataStartOffset disk
      (store disk (chainAddr t cs off) n data) := by
    refine WroteThrough.of_store fun j hj => chainAddr_add cs ?_
    unfold roundLen at hn
    omega
  rwa [chainAddr_eq cs hk hoff] at hround

theorem wroteFile_round {v v' : Volume} {cs new : List ℕ} (buf : ℤ → UInt8)
    {pos k r off : ℕ} (hk : k < cs.length)
    (hoff : off / fatTableBytesPerCluster t = k)
    (hgrown : Extends t v.fatMap v'.fatMap cs new)
    (hdata : ∀ a, t.dataStartOffset ≤ a →
      v'.disk a = (writeRound t v buf pos cs[k] r off).disk a)
    (hentries : FatBytesKept t (writeRound t v buf pos cs[k] r off).disk v'.disk
      (cs ++ new))
    (hsucceeds : v'.IoSucceeds) :
    WroteFile t v v' cs new off (roundLen t r off) fun i => buf (pos + i) := by
  have hend := round_room hk hoff (le_refl (roundLen t r off))
  have hstore : WroteThrough (chainAddr t cs) off (roundLen t r off)
      (fun i : ℕ => buf (pos + i)) t.dataStartOffset v.disk
      (writeRound t v buf pos cs[k] r off).disk :=
    round_wroteThrough hk hoff le_rfl v.disk fun i : ℕ => buf (pos + i)
  refine ⟨hgrown, ?_, ?_, (writeRound_fatBytesKept v buf pos cs[k] r off _).trans
    hentries (List.Subset.refl _), hsucceeds⟩
  · rw [List.length_append, Nat.add_mul]
    omega
  · apply (hstore.trans_same (fun _ _ => dataStart_le_chainAddr _ _)
      hdata).congr_addr
    intro j hj
    exact chainAddr_append (by omega)

/-- The clusters that `n` bytes need. -/
def clustersFor (t : FatTable) (n : ℕ) : ℕ :=
  (n + fatTableBytesPerCluster t - 1) / fatTableBytesPerCluster t

theorem lt_clustersFor {k n : ℕ} (h : k * fatTableBytesPerCluster t < n) :
    k < clustersFor t n := by
  have hpos := bytesPerCluster_pos (t := t)
  rw [clustersFor, Nat.lt_iff_add_one_le, Nat.le_div_iff_mul_le hpos, Nat.add_mul]
  omega

/-- A round that does not finish the request needs the next cluster. -/
theorem next_lt_clustersFor {r offset : ℕ} (hmore : 0 < r - roundLen t r offset) :
    offset / fatTableBytesPerCluster t + 1 < clustersFor t (offset + r) := by
  apply lt_clustersFor
  have hle := Nat.div_mul_le_self (offset + roundLen t r offset) (fatTableBytesPerCluster t)
  rw [add_roundLen_div hmore] at hle
  omega

/-- What the write loop did when it returns: it wrote `done` bytes, all of them
unless it left an error, and took no more clusters than they need. -/
theorem pwriteLoop_eq_some [t.Formatted] (hmarks : t.ClusterNumbersBelowMarks) (buf : ℤ → UInt8)
    {fuel : ℕ} {v v' : Volume} {cs : List ℕ} {pos k r off : ℕ} {rem : ℤ}
    (h : ClusterChain t v.fatMap cs) (hio : v.IoSucceeds) (herrno : v.errno = 0)
    (hk : k < cs.length) (hoff : off / fatTableBytesPerCluster t = k)
    (hresult : pwriteLoop t buf fuel v pos cs[k] r off = some (rem, v')) :
    ∃ new done, WroteFile t v v' cs new off done (fun i => buf (pos + i)) ∧
      done ≤ r ∧ rem = (r : ℤ) - done ∧ (v'.errno = 0 → done = r) ∧
      (cs ++ new).length ≤ max cs.length (clustersFor t (off + r)) := by
  induction fuel generalizing v cs pos k r off with
  | zero => simp [pwriteLoop] at hresult
  | succ fuel ih =>
      rcases Nat.eq_zero_or_pos r with rfl | hr
      · simp only [pwriteLoop, if_true, Option.some.injEq, Prod.mk.injEq] at hresult
        obtain ⟨rfl, rfl⟩ := hresult
        refine ⟨[], 0, ⟨Extends.refl h, ?_, WroteThrough.of_eq fun _ _ => rfl,
            FatBytesKept.refl _ _, hio⟩,
          le_rfl, by simp, fun _ => rfl, by simp⟩
        have hlt : off < cs.length * fatTableBytesPerCluster t := by
          rw [← Nat.div_lt_iff_lt_mul bytesPerCluster_pos, hoff]
          exact hk
        rw [List.append_nil]
        omega
      · rw [pwriteLoop_round hio buf fuel pos cs[k] hr off] at hresult
        have hlen : roundLen t r off ≤ r := min_le_right _ _
        by_cases hmore : 0 < r - roundLen t r off
        · rw [if_pos hmore] at hresult
          simp only [Option.bind_eq_bind, Option.bind_eq_some_iff, Prod.exists] at hresult
          obtain ⟨next, v₁, hnext, hresult⟩ := hresult
          have hround : ClusterChain t (writeRound t v buf pos cs[k] r off).fatMap cs := by
            rwa [writeRound_fatMap]
          have hio₁ := writeRound_ioSucceeds (t := t) hio buf pos cs[k] r off
          have herrno₀ : (writeRound t v buf pos cs[k] r off).errno = 0 := by
            rwa [writeRound_errno]
          rcases nextOrNewCluster_eq_some hmarks hround hio₁ herrno₀ hk hnext with
            ⟨new, hgrown, hsame, hkept, hlength, hk', hcluster⟩ | ⟨rfl, rfl⟩
          · rw [writeRound_fatMap] at hgrown
            have hfirst := wroteFile_round buf hk hoff hgrown hsame.data
              hkept (hsame.ioSucceeds hio₁)
            have herrno₁ : v₁.errno = 0 := hsame.errno.trans herrno₀
            have hvalid : fatTableClusterIsValid next := by
              rw [← hcluster]
              exact isValid_of_valid hmarks (hgrown.chain.valid _ (List.getElem_mem hk'))
            rw [if_neg (by simp [herrno₁, hvalid])] at hresult
            subst hcluster
            obtain ⟨new', done, hrest, hdone, hrem, hall, hneed⟩ :=
              ih hgrown.chain hfirst.succeeds herrno₁ hk'
                (by rw [add_roundLen_div hmore, hoff]) hresult
            refine ⟨new ++ new', roundLen t r off + done, hfirst.append ?_, by omega,
              by omega, fun hok => ?_, ?_⟩
            · simpa [Nat.cast_add, add_assoc] using hrest
            · have := hall hok
              omega
            · have hneeded := next_lt_clustersFor hmore
              rw [hoff] at hneeded
              rw [show off + roundLen t r off + (r - roundLen t r off) = off + r by omega,
                List.append_assoc] at hneed
              omega
          · rw [if_pos (Or.inl (by simp))] at hresult
            simp only [Option.some.injEq, Prod.mk.injEq] at hresult
            obtain ⟨rfl, rfl⟩ := hresult
            refine ⟨[], roundLen t r off, ?_, hlen, by omega, fun hok => ?_, by simp⟩
            · exact wroteFile_round buf hk hoff (Extends.refl hround) (fun _ _ => rfl)
                (FatBytesKept.refl _ _) ⟨hio₁.1, hio₁.2⟩
            · exact absurd hok (by simp)
        · rw [if_neg hmore] at hresult
          simp only [Option.some.injEq, Prod.mk.injEq] at hresult
          obtain ⟨rfl, rfl⟩ := hresult
          exact ⟨[], roundLen t r off,
            wroteFile_round buf hk hoff (by simpa using Extends.refl h)
              (fun _ _ => rfl) (FatBytesKept.refl _ _)
              (writeRound_ioSucceeds hio _ _ _ _ _),
            hlen, by omega, fun _ => by omega, by simp⟩

/-- With room for all bytes in the chain and the free clusters, the loop writes
them all. -/
theorem pwriteLoop_completes [t.Formatted] (hmarks : t.ClusterNumbersBelowMarks) (buf : ℤ → UInt8)
    (fuel pos r : ℕ) {v : Volume} {cs : List ℕ} {k off : ℕ}
    (h : ClusterChain t v.fatMap cs) (hio : v.IoSucceeds) (herrno : v.errno = 0)
    (hk : k < cs.length) (hoff : off / fatTableBytesPerCluster t = k)
    (hfuel : r < fuel)
    (hroom : clustersFor t (off + r) ≤ cs.length + (freeClusters t v.fatMap).card) :
    ∃ v', pwriteLoop t buf fuel v pos cs[k] r off = some (0, v') ∧ v'.errno = 0 := by
  induction fuel generalizing v cs pos k r off with
  | zero => omega
  | succ fuel ih =>
      rcases Nat.eq_zero_or_pos r with rfl | hr
      · exact ⟨v, by simp [pwriteLoop], herrno⟩
      · rw [pwriteLoop_round hio buf fuel pos cs[k] hr off]
        have hlen : roundLen t r off ≤ r := min_le_right _ _
        have hpos : 0 < roundLen t r off := roundLen_pos hr
        by_cases hmore : 0 < r - roundLen t r off
        · rw [if_pos hmore]
          have hround : ClusterChain t (writeRound t v buf pos cs[k] r off).fatMap cs := by
            rwa [writeRound_fatMap]
          have hio₁ := writeRound_ioSucceeds (t := t) hio buf pos cs[k] r off
          have herrno₀ : (writeRound t v buf pos cs[k] r off).errno = 0 := by
            rwa [writeRound_errno]
          have hnextDiv := add_roundLen_div hmore
          have hneeded := next_lt_clustersFor hmore
          rw [hoff] at hneeded
          obtain ⟨next, v₁, hnext, herrno₁⟩ := exists_nextOrNewCluster hmarks hround
            hio₁ herrno₀ hk (by rw [writeRound_fatMap]; omega)
          rw [hnext]
          simp only [Option.bind_eq_bind, Option.bind_some]
          rcases nextOrNewCluster_eq_some hmarks hround hio₁ herrno₀ hk hnext with
            ⟨new, hgrown, hsame, hkept, -, hk', hcluster⟩ | ⟨rfl, rfl⟩
          · have hvalid : fatTableClusterIsValid next := by
              rw [← hcluster]
              exact isValid_of_valid hmarks (hgrown.chain.valid _ (List.getElem_mem hk'))
            rw [if_neg (by simp [herrno₁, hvalid])]
            subst hcluster
            have hcard := hgrown.card_freeClusters h.used
            have hfree : (freeClusters t v.fatMap).card =
                (freeClusters t v₁.fatMap).card + new.length := hcard
            apply ih _ _ hgrown.chain (hsame.ioSucceeds hio₁) herrno₁ hk'
              (by rw [hnextDiv, hoff]) (by omega)
            rw [show off + roundLen t r off + (r - roundLen t r off) = off + r by omega,
              List.length_append]
            omega
          · simp at herrno₁
        · rw [if_neg hmore]
          exact ⟨_, rfl, herrno⟩

end SistOp.FatFuse
