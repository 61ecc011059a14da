import SistOp.FileTransfers
import SistOp.FileDelete
import Mathlib.Tactic

/-!
# Cutting a file

`fat_file_truncate` seeks to the new end, makes that cluster the last one of the chain and
frees the clusters behind it.  When the file fills its clusters and keeps them all, the seek
ends behind the chain, at the mark that is no cluster.
-/

namespace SistOp.FatFuse

open SuccessorChain

variable {t : FatTable}

/-! ## Cutting a chain -/

theorem isChain_take {α : Type*} {next next' : α → Option α} {cs : List α} {k : ℕ}
    (h : IsChain next cs) (hk : k < cs.length) (hsame : ∀ c ∈ cs.take k, next' c = next c)
    (hlast : next' cs[k] = none) : IsChain next' (cs.take (k + 1)) := by
  induction cs generalizing k with
  | nil => simp at hk
  | cons c cs ih =>
      cases k with
      | zero => simpa using hlast
      | succ k =>
          cases cs with
          | nil => simp at hk
          | cons d ds =>
              have hc : next' c = some d := by
                rw [hsame c (by simp)]
                exact h.1
              refine ⟨hc, ih h.tail (by simpa using hk) ?_ (by simpa using hlast)⟩
              intro e he
              exact hsame e (by simp only [List.take_succ_cons, List.mem_cons]; exact Or.inr he)

/-- The FAT after cluster `k` of `cs` became the last one and the rest was freed. -/
def cutMap (fatMap : ℕ → ℕ) (cs : List ℕ) (k : ℕ) : ℕ → ℕ :=
  freed (Function.update fatMap (cs.getD k 0) fatClusterEndOfChainMax) (cs.drop (k + 1))

theorem getElem_notMem_drop {cs : List ℕ} (h : cs.Nodup) {k : ℕ} (hk : k < cs.length) :
    cs[k] ∉ cs.drop (k + 1) := by
  have hsplit : cs.drop k = cs[k] :: cs.drop (k + 1) := List.drop_eq_getElem_cons hk
  have hnodup := h.sublist (List.drop_sublist k cs)
  rw [hsplit] at hnodup
  exact (List.nodup_cons.mp hnodup).1

section Cut

variable {fatMap : ℕ → ℕ} {cs : List ℕ} {k : ℕ}

theorem cutMap_drop {c : ℕ} (hc : c ∈ cs.drop (k + 1)) :
    cutMap fatMap cs k c = fatClusterFree := freed_of_mem hc

theorem cutMap_last (fatMap : ℕ → ℕ) (h : cs.Nodup) (hk : k < cs.length) :
    cutMap fatMap cs k cs[k] = fatClusterEndOfChainMax := by
  have hget : cs.getD k 0 = cs[k] := by simp [hk]
  rw [cutMap, freed_of_notMem (getElem_notMem_drop h hk), hget, Function.update_self]

theorem cutMap_other (hk : k < cs.length) {c : ℕ} (hlast : c ≠ cs[k])
    (hdrop : c ∉ cs.drop (k + 1)) : cutMap fatMap cs k c = fatMap c := by
  have hget : cs.getD k 0 = cs[k] := by simp [hk]
  rw [cutMap, freed_of_notMem hdrop, hget, Function.update_of_ne hlast]

theorem mem_take_ne_last (h : cs.Nodup) (hk : k < cs.length) {c : ℕ} (hc : c ∈ cs.take k) :
    c ≠ cs[k] ∧ c ∉ cs.drop (k + 1) := by
  have hsplit : cs.take k ++ (cs[k] :: cs.drop (k + 1)) = cs := by
    rw [← List.drop_eq_getElem_cons hk, List.take_append_drop]
  have hnodup := h
  rw [← hsplit, List.nodup_append] at hnodup
  have hapart := hnodup.2.2 c hc
  refine ⟨hapart _ List.mem_cons_self, fun hdrop => ?_⟩
  exact hapart c (List.mem_cons_of_mem _ hdrop) rfl

/-- The first `k + 1` clusters are a chain of the cut table. -/
theorem ClusterChain.cut (hmarks : t.ClusterNumbersBelowMarks)
    (h : ClusterChain t fatMap cs) (hk : k < cs.length) :
    ClusterChain t (cutMap fatMap cs k) (cs.take (k + 1)) := by
  have hsame : ∀ c ∈ cs.take k, cutMap fatMap cs k c = fatMap c := by
    intro c hc
    obtain ⟨hlast, hdrop⟩ := mem_take_ne_last h.nodup hk hc
    exact cutMap_other hk hlast hdrop
  have hmark := cutMap_last fatMap h.nodup hk
  refine ⟨isChain_take h.links hk ?_ ?_, ?_, ?_⟩
  · intro c hc
    rw [chainNext, chainNext, hsame c hc]
  · rw [chainNext, hmark, if_neg (not_valid_endOfChain hmarks)]
  · intro c hc
    exact h.valid c (List.mem_of_mem_take hc)
  · intro c hc
    rw [List.take_succ_eq_append_getElem hk, List.mem_append, List.mem_singleton] at hc
    rcases hc with hfront | rfl
    · rw [hsame c hfront]
      exact h.used c (List.mem_of_mem_take hfront)
    · rw [hmark]
      decide

/-- The clusters that are cut off become free, and no others. -/
theorem ClusterChain.isFree_cutMap (h : ClusterChain t fatMap cs) (hk : k < cs.length)
    (c : ℕ) :
    IsFree t (cutMap fatMap cs k) c ↔ IsFree t fatMap c ∨ c ∈ cs.drop (k + 1) := by
  by_cases hdrop : c ∈ cs.drop (k + 1)
  · have hvalid := h.valid c (List.mem_of_mem_drop hdrop)
    exact iff_of_true ⟨hvalid, cutMap_drop hdrop⟩ (Or.inr hdrop)
  · by_cases hlast : c = cs[k]
    · subst hlast
      have hused := h.used _ (List.getElem_mem hk)
      have hmark := cutMap_last fatMap h.nodup hk
      simp [IsFree, hmark, hused, hdrop]
    · simp [IsFree, cutMap_other hk hlast hdrop, hdrop]

end Cut

/-! ## The call -/

/-- The entry of a file after it was cut. -/
def truncatedDentry (v : Volume) (d : FatDirEntry) (offset : ℕ) : FatDirEntry :=
  (fillDentryTimeNow v (d.setFileSize offset) false true).1

theorem fileSize_truncatedDentry (v : Volume) (d : FatDirEntry) {offset : ℕ}
    (hoffset : offset < 2 ^ 32) : (truncatedDentry v d offset).fileSize = offset := by
  rw [truncatedDentry, fileSize_fillDentryTimeNow, FatDirEntry.fileSize_setFileSize,
    Nat.mod_eq_of_lt hoffset]

/-- The disk after cluster `k` of `cs` became the last one and the rest was freed. -/
def cutDisk (t : FatTable) (v : Volume) (cs : List ℕ) (k : ℕ) : ℕ → UInt8 :=
  erasedDisk t (setEntry t v (cs.getD k 0) fatClusterEndOfChainMax).disk (cs.drop (k + 1))

/-- What lies behind cluster `k` is a chain, also after the entry of that cluster changed. -/
theorem ClusterChain.drop_setEntry {v : Volume} {cs : List ℕ} {k : ℕ}
    (h : ClusterChain t v.fatMap cs) (hk : k < cs.length) (n : ℕ) :
    cs.drop (k + 1) = [] ∨
      ClusterChain t (setEntry t v cs[k] n).fatMap (cs.drop (k + 1)) := by
  by_cases hnil : cs.drop (k + 1) = []
  · exact Or.inl hnil
  · have hlinks : IsChain (chainNext t v.fatMap) (cs.take (k + 1) ++ cs.drop (k + 1)) := by
      rw [List.take_append_drop]
      exact h.links
    have hrest : ClusterChain t v.fatMap (cs.drop (k + 1)) :=
      ⟨hlinks.append_right hnil, fun c hc => h.valid c (List.mem_of_mem_drop hc),
        fun c hc => h.used c (List.mem_of_mem_drop hc)⟩
    refine Or.inr (hrest.congr fun c hc => ?_)
    rw [setEntry_fatMap, Function.update_of_ne]
    rintro rfl
    exact getElem_notMem_drop h.nodup hk hc

theorem ClusterChain.getNext_drop [t.Formatted] {v : Volume} {cs : List ℕ} {k : ℕ}
    (h : ClusterChain t v.fatMap cs) (hk : k < cs.length) :
    fatTableGetNextCluster t v cs[k] = some (restStart (cs.drop (k + 1))) := by
  by_cases hlast : k + 1 = cs.length
  · rw [h.getNext_last hk hlast, hlast, List.drop_length]
    rfl
  · have hinner : k + 1 < cs.length := by omega
    rw [h.getNext_inner hinner, List.drop_eq_getElem_cons hinner]
    rfl

/-- Inside the chain the call cuts it behind the cluster of the new end. -/
theorem fatFileTruncate_inside [t.Formatted] (hmarks : t.ClusterNumbersBelowMarks) {v : Volume}
    {f p : FatFile} {cs : List ℕ} {offset k : ℕ} (hchain : FileOnChain t v f cs)
    (hio : v.IoSucceeds) (herrno : v.errno = 0) (hoffset : offset ≤ f.dentry.fileSize)
    (hk : k < (f.startCluster :: cs).length) (hdiv : offset / fatTableBytesPerCluster t = k) :
    fatFileTruncate t v f offset (some p) =
      some ({ f with dentry := truncatedDentry v f.dentry offset },
        { v with
          disk := writtenBack t (cutDisk t v (f.startCluster :: cs) k) p
            { f with dentry := truncatedDentry v f.dentry offset }
          fatMap := cutMap v.fatMap (f.startCluster :: cs) k
          errno := if f.posInParent < slotsPerCluster t then v.errno else Errno.enospc
          clock := fun n => v.clock (n + 1) }) := by
  have hget : (f.startCluster :: cs).getD k 0 = (f.startCluster :: cs)[k] := by
    rw [List.getD_eq_getElem?_getD, List.getElem?_eq_getElem hk, Option.getD_some]
  have hoffset32 : offset < 2 ^ 32 := lt_of_le_of_lt hoffset (FatDirEntry.fileSize_lt _)
  have hseek := seekCluster_eq hmarks hchain.chain offset hoffset32
  subst hdiv
  rw [dif_pos hk] at hseek
  rw [cutMap, cutDisk, hget]
  generalize hlast : (f.startCluster :: cs)[offset / fatTableBytesPerCluster t] = last at *
  generalize hrest : (f.startCluster :: cs).drop (offset / fatTableBytesPerCluster t + 1) =
    rest at *
  have hbound : last < t.fatEntries := by
    rw [← hlast]
    exact valid_lt_entries (hchain.chain.valid _ (List.getElem_mem hk))
  have hnext : fatTableGetNextCluster t v last = some (restStart rest) := by
    rw [← hlast, ← hrest]
    exact hchain.chain.getNext_drop hk
  have hchainRest : rest = [] ∨
      ClusterChain t (setEntry t v last fatClusterEndOfChainMax).fatMap rest := by
    rw [← hlast, ← hrest]
    exact hchain.chain.drop_setEntry hk _
  have hlength : rest.length < t.fatEntries +
      (setEntry t v last fatClusterEndOfChainMax).io.length + 1 := by
    have hle := hchain.chain.length_le
    have hdrop : rest.length ≤ (f.startCluster :: cs).length := by
      rw [← hrest, List.length_drop]
      exact Nat.sub_le _ _
    omega
  have hloop := freeChainLoop_eq hmarks _ hchainRest
    (v := setEntry t v last fatClusterEndOfChainMax) ⟨hio.1, hio.2⟩ hlength
  -- the volume after the loop keeps its name, so that only its clock has to be looked at
  obtain ⟨cut, hcut⟩ : ∃ cut : Volume, cut = { setEntry t v last fatClusterEndOfChainMax with
      disk := erasedDisk t (setEntry t v last fatClusterEndOfChainMax).disk rest
      fatMap := freed (setEntry t v last fatClusterEndOfChainMax).fatMap rest } := ⟨_, rfl⟩
  rw [← hcut] at hloop
  have hset := setNextCluster_of_ioSucceeds (n := fatClusterEndOfChainMax) hio hbound
  have herrno' : (setEntry t v last fatClusterEndOfChainMax).errno = 0 := herrno
  rw [fatFileTruncate, if_neg (by omega), hseek]
  simp only [Option.bind_eq_bind, Option.bind_some, herrno, ne_eq, not_true_eq_false, if_false,
    hnext, hset, herrno', freeChain, hloop]
  have hdentry : (fillDentryTimeNow cut (f.dentry.setFileSize offset) false true).1 =
      truncatedDentry v f.dentry offset := by
    subst hcut
    rfl
  have hentry := @writeDirEntry_eq t { cut with clock := fun n => cut.clock (n + 1) }
    (by subst hcut; exact ⟨hio.1, hio.2⟩) p
    { f with dentry := truncatedDentry v f.dentry offset }
  rw [fillDentryTimeNow_snd, hdentry, hentry, Option.bind_some, hcut]
  simp only [setEntry, herrno]

/-! ## What the call has to do -/

/-- What cutting the file at `offset` has to leave behind. -/
structure KeepsPrefix (t : FatTable) (v v' : Volume) (f f' : FatFile) (cs : List ℕ)
    (offset : ℕ) (kept dropped : List ℕ) : Prop where
  split : f.startCluster :: cs = kept ++ dropped
  enough : max 1 (clustersFor t offset) ≤ kept.length
  size : f'.dentry.fileSize = offset
  start : kept.head? = some f'.startCluster
  chain : ClusterChain t v'.fatMap kept
  content : chainContent t v'.disk kept offset = (fileContent t v f cs).take offset
  freed : ∀ c, IsFree t v'.fatMap c ↔ IsFree t v.fatMap c ∨ c ∈ dropped

/-- `run` reads and writes no entry of the FAT but those of the clusters `cs`: whatever the
other entries are, it does the same and keeps them. -/
def OnlyEntriesOf (v : Volume) (cs : List ℕ) (run : Volume → Option (FatFile × Volume)) :
    Prop :=
  ∀ fatMap, (∀ c ∈ cs, fatMap c = v.fatMap c) →
    ∃ f' v', run v = some (f', v') ∧
      run { v with fatMap := fatMap } =
        some (f', { v' with fatMap := fun c => if c ∈ cs then v'.fatMap c else fatMap c })

/-- Cutting the file at `offset` keeps a prefix of it. -/
def TruncatesToPrefix (t : FatTable) (v : Volume) (f p : FatFile) (cs : List ℕ)
    (offset : ℕ) : Prop :=
  OnlyEntriesOf v (f.startCluster :: cs) (fatFileTruncate t · f offset (some p)) ∧
    ∃ f' v', fatFileTruncate t v f offset (some p) = some (f', v') ∧
      FatBytesKept t v.disk v'.disk (f.startCluster :: cs) ∧
      ∃ kept dropped, KeepsPrefix t v v' f f' cs offset kept dropped

/-! ## Cutting inside the chain -/

theorem FileOnChain.congr {v : Volume} {f : FatFile} {cs : List ℕ} (h : FileOnChain t v f cs)
    {fatMap : ℕ → ℕ} (hsame : ∀ c ∈ f.startCluster :: cs, fatMap c = v.fatMap c) :
    FileOnChain t { v with fatMap := fatMap } f cs :=
  ⟨h.chain.congr hsame, h.size_le⟩

theorem cutMap_congr {fatMap fatMap' : ℕ → ℕ} {cs : List ℕ} {k : ℕ} (hk : k < cs.length)
    (hsame : ∀ c ∈ cs, fatMap' c = fatMap c) :
    cutMap fatMap' cs k = fun c => if c ∈ cs then cutMap fatMap cs k c else fatMap' c := by
  funext c
  by_cases hc : c ∈ cs
  · rw [if_pos hc]
    by_cases hdrop : c ∈ cs.drop (k + 1)
    · rw [cutMap_drop hdrop, cutMap_drop hdrop]
    · by_cases hlast : c = cs[k]
      · subst hlast
        simp [cutMap, freed_of_notMem hdrop, hk]
      · rw [cutMap_other hk hlast hdrop, cutMap_other hk hlast hdrop, hsame c hc]
  · rw [if_neg hc]
    apply cutMap_other hk
    · rintro rfl
      exact hc (List.getElem_mem hk)
    · exact fun hdrop => hc (List.mem_of_mem_drop hdrop)

theorem erasedDisk_fatBytesKept (hmarks : t.ClusterNumbersBelowMarks) (v : Volume)
    {cs : List ℕ} (hcs : ∀ c ∈ cs, fatTableIsValidClusterNumber t c) :
    FatBytesKept t v.disk (erasedDisk t v.disk cs) cs := by
  induction cs generalizing v with
  | nil => exact FatBytesKept.refl _ _
  | cons c cs ih =>
      have hfirst := setEntry_fatBytesKept hmarks v (n := fatClusterFree) (hcs c (by simp))
      have hrest := ih (setEntry t v c fatClusterFree)
        fun d hd => hcs d (List.mem_cons_of_mem c hd)
      exact (hfirst.mono (by simp)).trans (hrest.mono (by simp)) (List.Subset.refl _)

theorem cutDisk_fatBytesKept (hmarks : t.ClusterNumbersBelowMarks) {v : Volume}
    {cs : List ℕ} (h : ClusterChain t v.fatMap cs) {k : ℕ} (hk : k < cs.length) :
    FatBytesKept t v.disk (cutDisk t v cs k) cs := by
  have hget : cs.getD k 0 = cs[k] := by simp [hk]
  have hlast := setEntry_fatBytesKept hmarks v (n := fatClusterEndOfChainMax)
    (h.valid _ (List.getElem_mem hk))
  have hvalid : ∀ c ∈ cs.drop (k + 1), fatTableIsValidClusterNumber t c :=
    fun c hc => h.valid c (List.mem_of_mem_drop hc)
  have hrest := erasedDisk_fatBytesKept hmarks (setEntry t v cs[k] fatClusterEndOfChainMax)
    hvalid
  rw [cutDisk, hget]
  refine (hlast.mono ?_).trans (hrest.mono ?_) (List.Subset.refl _)
  · simp [List.getElem_mem hk]
  · exact fun c hc => List.mem_of_mem_drop hc

theorem cutDisk_data [t.Formatted] {v : Volume} {cs : List ℕ} (h : ClusterChain t v.fatMap cs)
    {k : ℕ} (hk : k < cs.length) {a : ℕ} (ha : t.dataStartOffset ≤ a) :
    cutDisk t v cs k a = v.disk a := by
  have hget : cs.getD k 0 = cs[k] := by simp [hk]
  have hlast := (setEntry_sameOutsideFat v (n := fatClusterEndOfChainMax)
    (valid_lt_entries (h.valid _ (List.getElem_mem hk)))).data a ha
  rw [cutDisk, hget, erasedDisk_data _ ha, hlast]
  exact fun c hc => valid_lt_entries (h.valid c (List.mem_of_mem_drop hc))

theorem offset_lt_of_div {offset k : ℕ} (hdiv : offset / fatTableBytesPerCluster t = k) :
    offset < (k + 1) * fatTableBytesPerCluster t :=
  (Nat.div_lt_iff_lt_mul bytesPerCluster_pos).mp (by omega)

/-- The cluster of the new end and those in front of it are enough. -/
theorem clustersFor_le {offset k : ℕ} (hdiv : offset / fatTableBytesPerCluster t = k) :
    clustersFor t offset ≤ k + 1 := by
  have hlt := offset_lt_of_div hdiv
  have hmul : (k + 2) * fatTableBytesPerCluster t =
      (k + 1) * fatTableBytesPerCluster t + fatTableBytesPerCluster t := by ring
  have hbound : clustersFor t offset < k + 2 := by
    rw [clustersFor, Nat.div_lt_iff_lt_mul bytesPerCluster_pos]
    omega
  omega

theorem keepsPrefix_inside [t.Formatted] (hmarks : t.ClusterNumbersBelowMarks) {v v' : Volume}
    {f p : FatFile} {cs : List ℕ} {offset k : ℕ} (hchain : FileOnChain t v f cs)
    (hdirOut : p.startCluster ∉ f.startCluster :: cs) (hoffset : offset ≤ f.dentry.fileSize)
    (hk : k < (f.startCluster :: cs).length) (hdiv : offset / fatTableBytesPerCluster t = k)
    (hdisk : v'.disk = writtenBack t (cutDisk t v (f.startCluster :: cs) k) p
      { f with dentry := truncatedDentry v f.dentry offset })
    (hmap : v'.fatMap = cutMap v.fatMap (f.startCluster :: cs) k) :
    KeepsPrefix t v v' f { f with dentry := truncatedDentry v f.dentry offset } cs offset
      ((f.startCluster :: cs).take (k + 1)) ((f.startCluster :: cs).drop (k + 1)) := by
  have hoffset32 : offset < 2 ^ 32 := lt_of_le_of_lt hoffset (FatDirEntry.fileSize_lt _)
  have hin := offset_lt_of_div hdiv
  have hlength : ((f.startCluster :: cs).take (k + 1)).length = k + 1 := by
    rw [List.length_take]
    omega
  have hcut := hchain.chain.cut hmarks hk
  refine ⟨(List.take_append_drop _ _).symm, ?_, fileSize_truncatedDentry v f.dentry hoffset32,
    by simp, ?_, ?_, ?_⟩
  · rw [hlength]
    have hclusters := clustersFor_le hdiv
    omega
  · rw [hmap]
    exact hcut
  · apply List.ext_getElem
    · rw [List.length_take, length_fileContent, Nat.min_eq_left hoffset]
      simp [chainContent]
    · intro i hi hi'
      simp only [chainContent, List.length_map, List.length_range] at hi
      simp only [fileContent, chainContent, List.getElem_map, List.getElem_range,
        List.getElem_take]
      have haddr : chainAddr t (f.startCluster :: cs) i =
          chainAddr t ((f.startCluster :: cs).take (k + 1)) i := by
        have happend := @chainAddr_append t ((f.startCluster :: cs).take (k + 1))
          ((f.startCluster :: cs).drop (k + 1)) i (by rw [hlength]; omega)
        rwa [List.take_append_drop] at happend
      have hdata := cutDisk_data hchain.chain hk
        (dataStart_le_chainAddr ((f.startCluster :: cs).take (k + 1)) i)
      rw [haddr, ← hdata, hdisk]
      -- the entry in the directory is not a byte of the file
      by_contra hne
      obtain ⟨hslot, j, hj, heq⟩ := writtenBack_written hne
      rw [slotAddr, Nat.add_assoc] at heq
      exact chainAddr_ne_of_notMem hcut (by rw [hlength]; omega)
        (fun hmem => hdirOut (List.mem_of_mem_take hmem)) p.startCluster_lt
        (slot_byte_lt hslot hj) heq.symm
  · intro c
    rw [hmap]
    exact hchain.chain.isFree_cutMap hk c

theorem truncatesToPrefix_inside [t.Formatted] (hmarks : t.ClusterNumbersBelowMarks) {v : Volume}
    {f p : FatFile} {cs : List ℕ} {offset : ℕ} (hchain : FileOnChain t v f cs)
    (hio : v.IoSucceeds) (herrno : v.errno = 0)
    (hdirOut : p.startCluster ∉ f.startCluster :: cs) (hoffset : offset ≤ f.dentry.fileSize)
    (hin : offset < (f.startCluster :: cs).length * fatTableBytesPerCluster t) :
    TruncatesToPrefix t v f p cs offset := by
  have hk := div_lt_of_lt_length hin
  have hresult := fatFileTruncate_inside (p := p) hmarks hchain hio herrno hoffset hk rfl
  refine ⟨?_, _, _, hresult, ?_, _, _,
    keepsPrefix_inside hmarks hchain hdirOut hoffset hk rfl rfl rfl⟩
  · intro fatMap hsame
    refine ⟨_, _, hresult, ?_⟩
    have hother := fatFileTruncate_inside (p := p) hmarks (hchain.congr hsame)
      ⟨hio.1, hio.2⟩ herrno hoffset hk rfl
    simp only [cutMap_congr hk hsame] at hother
    exact hother
  · have hkept := cutDisk_fatBytesKept hmarks hchain.chain hk
    intro a ha hne
    refine Eq.trans ?_ (hkept a ha hne)
    by_contra hchanged
    obtain ⟨-, j, -, heq⟩ := writtenBack_written hchanged
    have hstart := dataStart_le_slotAddr (t := t) p.startCluster f.posInParent
    have hslot : a = slotAddr t p.startCluster f.posInParent + j := heq
    omega

/-! ## Cutting at the end of a full chain -/

/-- The seek ends at the mark behind the chain, so the entry of the mark is read. -/
theorem fatFileTruncate_atEnd [t.Formatted] (hmarks : t.ClusterNumbersBelowMarks) {v : Volume}
    {f : FatFile} {cs : List ℕ} {offset : ℕ} (parent : Option FatFile)
    (hchain : FileOnChain t v f cs) (herrno : v.errno = 0)
    (hoffset : offset ≤ f.dentry.fileSize)
    (hend : (f.startCluster :: cs).length * fatTableBytesPerCluster t ≤ offset) :
    fatFileTruncate t v f offset parent =
      (fatTableGetNextCluster t v fatClusterEndOfChainMax).bind fun nextCluster =>
        (fatTableSetNextCluster t v fatClusterEndOfChainMax fatClusterEndOfChainMax).bind
          fun v₁ =>
          if v₁.errno ≠ 0 then some (f, v₁)
          else (freeChain t v₁ nextCluster).bind fun v₂ =>
            (writeDirEntry t (fillDentryTimeNow v₂ (f.dentry.setFileSize offset) false true).2
              parent
              { f with dentry :=
                (fillDentryTimeNow v₂ (f.dentry.setFileSize offset) false true).1 }).map
              fun v₃ => ({ f with dentry :=
                (fillDentryTimeNow v₂ (f.dentry.setFileSize offset) false true).1 }, v₃) := by
  have hoffset32 : offset < 2 ^ 32 := lt_of_le_of_lt hoffset (FatDirEntry.fileSize_lt _)
  have hle := hchain.size_le
  have hfull : offset = (f.startCluster :: cs).length * fatTableBytesPerCluster t := by omega
  have hdiv : offset / fatTableBytesPerCluster t = (f.startCluster :: cs).length := by
    rw [hfull]
    exact Nat.mul_div_cancel _ bytesPerCluster_pos
  have hseek := seekCluster_eq hmarks hchain.chain offset hoffset32
  rw [dif_neg (by omega), if_pos hdiv] at hseek
  rw [fatFileTruncate, if_neg (by omega), hseek]
  simp only [Option.bind_eq_bind, Option.bind_some, herrno, ne_eq, not_true_eq_false, if_false,
    Option.map_eq_bind]
  rfl

/-- Where the FAT is large enough to have an entry for the mark, this entry is written. -/
theorem fatFileTruncate_marks [t.Formatted] (hmarks : t.ClusterNumbersBelowMarks) {v v' : Volume}
    {f f' p : FatFile} {cs : List ℕ} {offset : ℕ} (hchain : FileOnChain t v f cs)
    (hio : v.IoSucceeds) (herrno : v.errno = 0) (hoffset : offset ≤ f.dentry.fileSize)
    (hend : (f.startCluster :: cs).length * fatTableBytesPerCluster t ≤ offset)
    (hfree : v.fatMap fatClusterEndOfChainMax = fatClusterFree)
    (hresult : fatFileTruncate t v f offset (some p) = some (f', v')) :
    v'.fatMap fatClusterEndOfChainMax = fatClusterEndOfChainMax := by
  rw [fatFileTruncate_atEnd hmarks (some p) hchain herrno hoffset hend] at hresult
  by_cases hbound : fatClusterEndOfChainMax < t.fatEntries
  · have hio' : (setEntry t v fatClusterEndOfChainMax fatClusterEndOfChainMax).IoSucceeds := hio
    have hentry (file : FatFile) := @writeDirEntry_eq t
      { setEntry t v fatClusterEndOfChainMax fatClusterEndOfChainMax with
        clock := fun n =>
          (setEntry t v fatClusterEndOfChainMax fatClusterEndOfChainMax).clock (n + 1) }
      ⟨hio'.1, hio'.2⟩ p file
    have hstop : chainNext t v.fatMap fatClusterEndOfChainMax = none := by
      rw [chainNext, hfree, if_neg]
      rintro ⟨hge, -⟩
      simp at hge
    have herrno' :
        (setEntry t v fatClusterEndOfChainMax fatClusterEndOfChainMax).errno = 0 := herrno
    have hfreed : ∀ v₁, freeChain t v₁ fatClusterEndOfChainMax = some v₁ := by
      intro v₁
      rw [freeChain, freeChainLoop, if_neg not_isValid_endOfChainMax]
    rw [getNextCluster_eq hbound, hstop, Option.getD_none, Option.bind_some,
      setNextCluster_of_ioSucceeds hio hbound, Option.bind_some, if_neg (not_not.mpr herrno'),
      hfreed, Option.bind_some, fillDentryTimeNow_snd, hentry,
      Option.map_some, Option.some.injEq, Prod.mk.injEq] at hresult
    obtain ⟨-, rfl⟩ := hresult
    simp
  · rw [getNextCluster_outside (Nat.not_lt.mp hbound), Option.bind_none] at hresult
    contradiction

theorem not_truncatesToPrefix_atEnd [t.Formatted] (hmarks : t.ClusterNumbersBelowMarks) {v : Volume}
    {f p : FatFile} {cs : List ℕ} {offset : ℕ} (hchain : FileOnChain t v f cs)
    (hio : v.IoSucceeds) (herrno : v.errno = 0) (hoffset : offset ≤ f.dentry.fileSize)
    (hend : (f.startCluster :: cs).length * fatTableBytesPerCluster t ≤ offset) :
    ¬ TruncatesToPrefix t v f p cs offset := by
  rintro ⟨honly, -⟩
  have hout : fatClusterEndOfChainMax ∉ f.startCluster :: cs :=
    fun hmem => not_valid_endOfChain hmarks (hchain.chain.valid _ hmem)
  -- the same file on a FAT whose entry for the mark is zero
  have hsame : ∀ c ∈ f.startCluster :: cs,
      Function.update v.fatMap fatClusterEndOfChainMax fatClusterFree c = v.fatMap c := by
    intro c hc
    rw [Function.update_of_ne]
    rintro rfl
    exact hout hc
  obtain ⟨f', v', -, hresult⟩ := honly _ hsame
  have hzero : Function.update v.fatMap fatClusterEndOfChainMax fatClusterFree
      fatClusterEndOfChainMax = fatClusterFree := by simp
  have hmark := fatFileTruncate_marks hmarks (hchain.congr hsame) ⟨hio.1, hio.2⟩ herrno hoffset
    hend hzero hresult
  simp only [if_neg hout, Function.update_self] at hmark
  contradiction

/-- On a formatted table, cutting a file at an offset in it keeps a prefix, by the entries of
its own clusters, unless the offset is the end of a file that fills its clusters. -/
theorem truncatesToPrefix_iff [t.Formatted] (hmarks : t.ClusterNumbersBelowMarks) {v : Volume}
    {f p : FatFile} {cs : List ℕ} {offset : ℕ} (hchain : FileOnChain t v f cs)
    (hio : v.IoSucceeds) (herrno : v.errno = 0)
    (hdirOut : p.startCluster ∉ f.startCluster :: cs)
    (hoffset : offset ≤ f.dentry.fileSize) :
    TruncatesToPrefix t v f p cs offset ↔
      offset < (f.startCluster :: cs).length * fatTableBytesPerCluster t := by
  constructor
  · intro h
    by_contra hend
    exact not_truncatesToPrefix_atEnd hmarks hchain hio herrno hoffset (Nat.not_lt.mp hend) h
  · exact truncatesToPrefix_inside hmarks hchain hio herrno hdirOut hoffset

/-- At a cluster boundary inside the file the call keeps what it has to. -/
theorem truncatesToPrefix_inner :
    TruncatesToPrefix smallTable chainVolume (bytesAtThree 64) (emptyFile 2 (by decide)) [4]
      32 :=
  (truncatesToPrefix_iff (by decide) (bytesAtThree_onChain le_rfl) ⟨rfl, rfl⟩ rfl (by decide)
    (by rw [fileSize_bytesAtThree]; decide)).mpr (by decide)

/-- A file of 64 bytes that fills two clusters of 32 bytes, cut at its end. -/
theorem not_truncatesToPrefix_full :
    FileOnChain smallTable chainVolume (bytesAtThree 64) [4] ∧
      64 ≤ (bytesAtThree 64).dentry.fileSize ∧
      fatFileTruncate smallTable chainVolume (bytesAtThree 64) 64
        (some (emptyFile 2 (by decide))) = none ∧
      ¬ TruncatesToPrefix smallTable chainVolume (bytesAtThree 64) (emptyFile 2 (by decide))
        [4] 64 := by
  have hchain := bytesAtThree_onChain (n := 64) le_rfl
  have hoffset : 64 ≤ (bytesAtThree 64).dentry.fileSize := by
    rw [fileSize_bytesAtThree]
    decide
  refine ⟨hchain, hoffset, ?_,
    not_truncatesToPrefix_atEnd (by decide) hchain ⟨rfl, rfl⟩ rfl hoffset (by decide)⟩
  rw [fatFileTruncate_atEnd (by decide) _ hchain rfl hoffset (by decide),
    getNextCluster_outside (by decide)]
  rfl

end SistOp.FatFuse
