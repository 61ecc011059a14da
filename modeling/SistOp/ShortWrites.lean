import SistOp.ClusterFrames
import SistOp.FailedExtension
import SistOp.FileTransfers
import SistOp.StaleErrno
import Mathlib.Tactic

/-!
# Writes that stop early

A write of a file stops when `full_pwrite` stores only a part of its range, or when no cluster
is free.  `StopsCleanly` says what failures are met along the way; what was stored is then what
the returned count says, along clusters that are linked one behind the other.
-/

namespace SistOp.FatFuse

open ByteStore

variable {t : FatTable}

/-- Distinct used clusters, each linked to the one behind it, and the end of the links. -/
structure LinkedClusters (t : FatTable) (fatMap : ℕ → ℕ) (cs : List ℕ) : Prop where
  links : ∀ i (hi : i < cs.length) (hnext : i + 1 < cs.length), fatMap cs[i] = cs[i + 1]
  ends : ∀ i (hi : i < cs.length), i + 1 = cs.length →
    ¬ fatTableIsValidClusterNumber t (fatMap cs[i]) ∨ fatMap cs[i] = fatClusterEndOfChainMax
  nodup : cs.Nodup
  valid : ∀ c ∈ cs, fatTableIsValidClusterNumber t c
  used : ∀ c ∈ cs, fatMap c ≠ fatClusterFree
  notEOC : ∀ c ∈ cs, ¬ fatTableClusterIsEOC c

/-- A chain without the marks of the FAT. -/
theorem ClusterChain.linked {fatMap : ℕ → ℕ} {cs : List ℕ} (h : ClusterChain t fatMap cs)
    (hvalid : ∀ c ∈ cs, fatTableClusterIsValid c) : LinkedClusters t fatMap cs where
  links i _ hi := by
    have hnext := h.links.next_getElem hi
    unfold chainNext at hnext
    split at hnext
    · exact Option.some.inj hnext
    · contradiction
  ends i hi hlast := by
    have hnext := h.links.next_last hi hlast
    unfold chainNext at hnext
    split at hnext
    · contradiction
    · rename_i hinvalid
      exact .inl hinvalid
  nodup := h.nodup
  valid := h.valid
  used := h.used
  notEOC c hc := (hvalid c hc).1

namespace LinkedClusters

variable {fatMap : ℕ → ℕ} {v : Volume} {cs : List ℕ} {k : ℕ}

theorem getNext_inner [t.Formatted] (h : LinkedClusters t v.fatMap cs) (hk' : k < cs.length)
    (hk : k + 1 < cs.length) : fatTableGetNextCluster t v cs[k] = some cs[k + 1] := by
  have hvalid := h.valid _ (List.getElem_mem hk)
  have hlink := h.links k hk' hk
  have hnext : chainNext t v.fatMap cs[k] = some cs[k + 1] := by
    rw [chainNext, hlink, if_pos hvalid]
  rw [getNextCluster_eq (valid_lt_entries (h.valid _ (List.getElem_mem _))), hnext,
    Option.getD_some]

theorem getNext_last [t.Formatted] (h : LinkedClusters t v.fatMap cs) (hk : k < cs.length)
    (hlast : k + 1 = cs.length) :
    fatTableGetNextCluster t v cs[k] = some fatClusterEndOfChainMax := by
  rw [getNextCluster_eq (valid_lt_entries (h.valid _ (List.getElem_mem _))), chainNext]
  rcases h.ends k hk hlast with hinvalid | hend
  · rw [if_neg hinvalid, Option.getD_none]
  · rw [hend]
    split_ifs <;> rfl

/-- The two updates that link a free cluster behind the last one. -/
theorem link {new : ℕ} (h : LinkedClusters t fatMap cs) (hk : k < cs.length)
    (hlast : k + 1 = cs.length) (hnew : IsFree t fatMap new)
    (hmark : ¬ fatTableClusterIsEOC new) :
    LinkedClusters t (Function.update (Function.update fatMap cs[k] new) new
      fatClusterEndOfChainMax) (cs ++ [new]) := by
  have hout : new ∉ cs := fun hmem => h.used new hmem hnew.2
  have hne : ∀ i (hi : i < cs.length), cs[i] ≠ new :=
    fun i hi heq => hout (heq ▸ List.getElem_mem hi)
  have hlength : (cs ++ [new]).length = cs.length + 1 := by simp
  refine ⟨fun i _ hi => ?_, fun i hi hend => ?_, ?_, ?_, ?_, ?_⟩
  · rw [hlength] at hi
    have hi' : i < cs.length := by omega
    rw [List.getElem_append_left hi', Function.update_of_ne (hne i hi')]
    by_cases hik : i = k
    · subst hik
      rw [Function.update_self, List.getElem_append_right (by omega)]
      simp [hlast]
    · have hdiff : cs[i] ≠ cs[k] := fun heq =>
        hik ((List.Nodup.getElem_inj_iff h.nodup).mp heq)
      rw [Function.update_of_ne hdiff, List.getElem_append_left (by omega)]
      exact h.links i hi' (by omega)
  · right
    have hlastNew : (cs ++ [new])[i] = new := by
      rw [List.getElem_append_right (by omega)]
      simp
    rw [hlastNew, Function.update_self]
  · exact List.nodup_append.mpr ⟨h.nodup, List.nodup_singleton _, by
      rintro c hc d hd rfl
      exact hout (List.mem_singleton.mp hd ▸ hc)⟩
  · intro c hc
    rcases List.mem_append.mp hc with hold | hnewest
    · exact h.valid c hold
    · exact List.mem_singleton.mp hnewest ▸ hnew.1
  · intro c hc
    by_cases hcnew : c = new
    · subst hcnew
      simp
    · rw [Function.update_of_ne hcnew]
      by_cases hclast : c = cs[k]
      · subst hclast
        have hge := hnew.1.1
        rw [Function.update_self]
        simp only [fatClusterFree]
        omega
      · rw [Function.update_of_ne hclast]
        exact h.used c (by simpa [hcnew] using hc)
  · intro c hc
    rcases List.mem_append.mp hc with hold | hnewest
    · exact h.notEOC c hold
    · exact List.mem_singleton.mp hnewest ▸ hmark

end LinkedClusters

/-! ## The next cluster -/

/-- The writes that `next_or_new_cluster` makes succeed. -/
def ExtensionWrites (t : FatTable) (v : Volume) (last : ℕ) : Prop :=
  ∀ next new, fatTableGetNextCluster t v last = some next → fatTableClusterIsEOC next →
    fatTableGetNextFreeCluster t v = some new → ¬ fatTableClusterIsEOC new →
    v.WriteSucceeds 0 ∧ v.WriteSucceeds 1

/-- What a step along linked clusters does: it may link new ones, and an error is left unless
it gets to the next one. -/
structure LinkedStep (t : FatTable) (v v' : Volume) (cs new : List ℕ) : Prop where
  linked : LinkedClusters t v'.fatMap (cs ++ new)
  apart : ∀ c ∉ cs, v.fatMap c ≠ fatClusterFree → c ∉ new ∧ v'.fatMap c = v.fatMap c
  data : ∀ a, t.dataStartOffset ≤ a → v'.disk a = v.disk a

theorem LinkedStep.refl {v v' : Volume} {cs : List ℕ} (h : LinkedClusters t v.fatMap cs)
    (hmap : v'.fatMap = v.fatMap) (hdisk : v'.disk = v.disk) : LinkedStep t v v' cs [] where
  linked := by
    rw [List.append_nil, hmap]
    exact h
  apart c _ _ := ⟨List.not_mem_nil, by rw [hmap]⟩
  data a _ := by rw [hdisk]

theorem nextOrNewCluster_linked [t.Formatted] {v v' : Volume} {cs : List ℕ} {k c : ℕ}
    (h : LinkedClusters t v.fatMap cs) (hk : k < cs.length)
    (hwrites : ExtensionWrites t v cs[k])
    (hresult : nextOrNewCluster t v cs[k] = some (c, v')) :
    (∃ new, LinkedStep t v v' cs new ∧ v'.errno = v.errno ∧
        (v.errno = 0 → ∃ hk' : k + 1 < (cs ++ new).length, (cs ++ new)[k + 1] = c)) ∨
      v' = { v with errno := Errno.eio } := by
  unfold nextOrNewCluster at hresult
  by_cases hlast : k + 1 = cs.length
  · have hnext := h.getNext_last hk hlast
    simp only [hnext, Option.bind_eq_bind, Option.bind_some, if_pos isEOC_endOfChainMax,
      Option.bind_eq_some_iff] at hresult
    obtain ⟨x, hfree, hresult⟩ := hresult
    split_ifs at hresult with hfull
    · -- no cluster is free
      obtain ⟨rfl, rfl⟩ := Prod.mk.inj (Option.some.inj hresult)
      exact .inr rfl
    · have hnew : IsFree t v.fatMap x := by
        rcases getNextFreeCluster_eq_some hfree with hnew | rfl
        · exact hnew
        · exact absurd isEOC_endOfChainMax hfull
      obtain ⟨hfirst, hsecond⟩ := hwrites _ x hnext isEOC_endOfChainMax hfree hfull
      obtain ⟨v₁, hset₁, hresult⟩ := Option.bind_eq_some_iff.mp hresult
      obtain ⟨v₂, hset₂, hresult⟩ := Option.bind_eq_some_iff.mp hresult
      obtain ⟨⟨-, herrno₁, hmap₁⟩ | ⟨hfails, -⟩, hlater⟩ := setNextCluster_outcome hset₁
      swap
      · exact absurd hfirst hfails
      obtain ⟨⟨-, herrno₂, hmap₂⟩ | ⟨hfails, -⟩, -⟩ := setNextCluster_outcome hset₂
      swap
      · exact absurd ((hlater 0).mpr hsecond) hfails
      have hv' : v' = v₂ := by
        split_ifs at hresult <;> exact (Prod.mk.inj (Option.some.inj hresult)).2.symm
      subst hv'
      rw [hmap₁] at hmap₂
      refine .inl ⟨[x], ⟨?_, ?_, ?_⟩, herrno₂.trans herrno₁, ?_⟩
      · rw [hmap₂]
        exact h.link hk hlast hnew hfull
      · intro d hd hused
        have hdx : d ≠ x := by
          rintro rfl
          exact hused hnew.2
        have hdk : d ≠ cs[k] := by
          rintro rfl
          exact hd (List.getElem_mem hk)
        rw [hmap₂, Function.update_of_ne hdx, Function.update_of_ne hdk]
        exact ⟨by simpa using hdx, rfl⟩
      · intro a ha
        rw [setNextCluster_dataKept hset₂ ha, setNextCluster_dataKept hset₁ ha]
      · intro herrno
        rw [if_neg (by simp [herrno₂, herrno₁, herrno])] at hresult
        obtain ⟨rfl, -⟩ := Prod.mk.inj (Option.some.inj hresult)
        exact ⟨by simp; omega, by simp [hlast]⟩
  · have hinner : k + 1 < cs.length := by omega
    rw [h.getNext_inner (by omega) hinner] at hresult
    simp only [Option.bind_eq_bind, Option.bind_some,
      if_neg (h.notEOC _ (List.getElem_mem hinner)), Option.some.injEq, Prod.mk.injEq] at hresult
    obtain ⟨rfl, rfl⟩ := hresult
    exact .inl ⟨[], .refl h rfl rfl, rfl, fun _ => ⟨by simpa using hinner, by simp⟩⟩

/-! ## The write loop -/

/-- `full_pwrite` stored the first bytes of its range and returned their number. -/
def StoresPrefix (v : Volume) (buf : ℤ → UInt8) (count offset : ℕ) (written : ℤ × Volume) :
    Prop :=
  ∃ n ≤ count, written.1 = n ∧ written.2.disk = store v.disk offset n fun i => buf i

/-- Calls that are not interrupted store prefixes. -/
theorem fullPwriteLoop_storesPrefix (buf : ℤ → UInt8) (fuel : ℕ) {v : Volume} (pos : ℤ)
    (remaining offset : ℕ) (hno : v.Uninterrupted) :
    ∃ n ≤ remaining, (fullPwriteLoop buf fuel v pos remaining offset).1 = remaining - n ∧
      (fullPwriteLoop buf fuel v pos remaining offset).2.disk =
        store v.disk offset n fun i => buf (pos + i) := by
  induction fuel generalizing v pos remaining offset with
  | zero => exact ⟨0, Nat.zero_le _, rfl, by simp [fullPwriteLoop]⟩
  | succ fuel ih =>
      obtain ⟨⟨r, v₁⟩, hwrite⟩ : ∃ written,
          pwrite v (fun i => buf (pos + i)) remaining (offset : ℤ) = written := ⟨_, rfl⟩
      obtain ⟨-, hlater, -, -, hcases⟩ := pwrite_cases hwrite
      have hnothing : r ≤ 0 → v₁.disk = v.disk := by
        intro hr
        rcases hcases with ⟨-, -, hdisk⟩ | ⟨n, -, rfl, -, hdisk⟩
        · exact hdisk
        · obtain rfl : n = 0 := by omega
          simpa using hdisk
      simp only [fullPwriteLoop, hwrite]
      split_ifs with hzero hle hnone hintr
      · exact ⟨0, Nat.zero_le _, rfl, by simp⟩
      · exact ⟨0, Nat.zero_le _, rfl, by simpa using hnothing hle⟩
      · exact absurd hintr (pwrite_uninterrupted hno hwrite (by omega))
      · exact ⟨0, Nat.zero_le _, rfl, by simpa using hnothing hle⟩
      · rcases hcases with ⟨hr, -⟩ | ⟨n, hn, rfl, -, hdisk⟩
        · omega
        · obtain ⟨m, hm, hcount, hdisk'⟩ := ih (pos + n) (remaining - n) (offset + n)
            (hlater.uninterrupted hno)
          push_cast at hcount hdisk'
          rw [Int.toNat_natCast]
          refine ⟨n + m, by omega, by omega, ?_⟩
          rw [hdisk', hdisk, ← store_store_adjacent]
          congr 1
          funext i
          push_cast
          rw [add_assoc]

theorem fullPwrite_storesPrefix {v : Volume} (buf : ℤ → UInt8) (count offset : ℕ)
    (hno : v.Uninterrupted) :
    StoresPrefix v buf count offset (fullPwrite v buf count offset) := by
  obtain ⟨n, hn, hcount, hdisk⟩ := fullPwriteLoop_storesPrefix buf (v.io.length + 2) 0 count
    offset hno
  refine ⟨n, hn, ?_, ?_⟩
  · simp only [fullPwrite, hcount]
    omega
  · simpa [fullPwrite] using hdisk

/-- The data writes of the loop store prefixes, and its FAT writes succeed. -/
def StopsCleanly (t : FatTable) (buf : ℤ → UInt8) : ℕ → Volume → ℕ → ℕ → ℕ → ℕ → Prop
  | 0, _, _, _, _, _ => True
  | fuel + 1, v, pos, cluster, bytesRemaining, offset =>
      0 < bytesRemaining →
        let bytesToWrite := fatTableGetClusterRemainingBytes t bytesRemaining offset
        let clusterOff := fatTableClusterOffset t cluster + fatTableMaskOffset t offset
        let written := fullPwrite v (fun i => buf (pos + i)) bytesToWrite clusterOff
        StoresPrefix v (fun i => buf (pos + i)) bytesToWrite clusterOff written ∧
          (written.1 = bytesToWrite → 0 < bytesRemaining - bytesToWrite →
            ExtensionWrites t written.2 cluster ∧
              ∀ next v', nextOrNewCluster t written.2 cluster = some (next, v') →
                v'.errno = 0 → fatTableClusterIsValid next →
                StopsCleanly t buf fuel v' (pos + bytesToWrite) next
                  (bytesRemaining - bytesToWrite) (offset + bytesToWrite))

theorem fullPwrite_fatMap (v : Volume) (buf : ℤ → UInt8) (count : ℕ) (offset : ℤ) :
    (fullPwrite v buf count offset).2.fatMap = v.fatMap := by
  simp only [fullPwrite, fullPwriteLoop_fatMap]

/-- From `v` to `v'` the linked clusters `cs` grew by `new`, and `len` bytes of `data` were
written along them at `off`. -/
structure StoredAlong (t : FatTable) (v v' : Volume) (cs new : List ℕ) (off len : ℕ)
    (data : ℕ → UInt8) : Prop where
  linked : LinkedClusters t v'.fatMap (cs ++ new)
  apart : ∀ c ∉ cs, v.fatMap c ≠ fatClusterFree → c ∉ new
  room : off + len ≤ (cs ++ new).length * fatTableBytesPerCluster t
  bytes : WroteThrough (chainAddr t (cs ++ new)) off len data t.dataStartOffset v.disk v'.disk

theorem StoredAlong.append [t.Formatted] {v v₁ v₂ v' : Volume} {cs new new' : List ℕ}
    {off k len : ℕ} {data : ℕ → UInt8} (hmap : v₁.fatMap = v.fatMap)
    (hbytes : WroteThrough (chainAddr t cs) off k data t.dataStartOffset v.disk v₁.disk)
    (hroom : off + k ≤ cs.length * fatTableBytesPerCluster t)
    (hstep : LinkedStep t v₁ v₂ cs new)
    (h : StoredAlong t v₂ v' (cs ++ new) new' (off + k) len fun i => data (k + i)) :
    StoredAlong t v v' cs (new ++ new') off (k + len) data where
  linked := by
    rw [← List.append_assoc]
    exact h.linked
  apart c hc hused := by
    rw [← hmap] at hused
    obtain ⟨hnew, hkept⟩ := hstep.apart c hc hused
    rw [List.mem_append, not_or]
    exact ⟨hnew, h.apart c (by simp [hc, hnew]) (by rwa [hkept])⟩
  room := by
    have hroom' := h.room
    rw [List.append_assoc] at hroom'
    omega
  bytes := by
    have hroom' := h.room
    have hsecond := h.bytes
    have hlinked := h.linked
    rw [List.append_assoc] at hsecond hlinked hroom'
    have hlonger : off + k ≤ (cs ++ new).length * fatTableBytesPerCluster t := by
      rw [List.length_append, Nat.add_mul]
      omega
    refine wroteThrough_append hlinked.nodup hlinked.valid hlonger hroom' ?_ hsecond
    refine (hbytes.trans_same (fun _ _ => dataStart_le_chainAddr _ _) hstep.data).congr_addr ?_
    intro j hj
    exact chainAddr_append (by omega)

/-- What was written before the loop stops. -/
theorem StoredAlong.stop {v v₁ v' : Volume} {cs new : List ℕ} {off k : ℕ} {data : ℕ → UInt8}
    (hmap : v₁.fatMap = v.fatMap)
    (hbytes : WroteThrough (chainAddr t cs) off k data t.dataStartOffset v.disk v₁.disk)
    (hroom : off + k ≤ cs.length * fatTableBytesPerCluster t)
    (hstep : LinkedStep t v₁ v' cs new) : StoredAlong t v v' cs new off k data where
  linked := hstep.linked
  apart c hc hused := (hstep.apart c hc (by rwa [hmap])).1
  room := by
    rw [List.length_append, Nat.add_mul]
    omega
  bytes := by
    refine (hbytes.trans_same (fun _ _ => dataStart_le_chainAddr _ _) hstep.data).congr_addr ?_
    intro j hj
    exact chainAddr_append (by omega)

theorem pwriteLoop_stored [t.Formatted] (buf : ℤ → UInt8) {fuel : ℕ} {v v' : Volume} {cs : List ℕ}
    {pos k r off : ℕ} {rem : ℤ} (h : LinkedClusters t v.fatMap cs) (hk : k < cs.length)
    (hoff : off / fatTableBytesPerCluster t = k)
    (hclean : StopsCleanly t buf fuel v pos cs[k] r off)
    (hresult : pwriteLoop t buf fuel v pos cs[k] r off = some (rem, v')) :
    ∃ new done, StoredAlong t v v' cs new off done (fun i => buf (pos + i)) ∧ done ≤ r ∧
      rem = (r : ℤ) - done := by
  induction fuel generalizing v cs pos k r off with
  | zero => simp [pwriteLoop] at hresult
  | succ fuel ih =>
      rcases Nat.eq_zero_or_pos r with rfl | hr
      · simp only [pwriteLoop, if_true, Option.some.injEq, Prod.mk.injEq] at hresult
        obtain ⟨rfl, rfl⟩ := hresult
        refine ⟨[], 0, .stop rfl (WroteThrough.of_eq fun _ _ => rfl) ?_ (.refl h rfl rfl), le_rfl,
          by simp⟩
        exact round_room hk hoff (Nat.zero_le (roundLen t 0 off))
      · obtain ⟨⟨written, v₁⟩, hwrite⟩ : ∃ w, fullPwrite v (fun i => buf (pos + i))
            (roundLen t r off)
            ((fatTableClusterOffset t cs[k] + off % fatTableBytesPerCluster t : ℕ) : ℤ) = w :=
          ⟨_, rfl⟩
        simp only [StopsCleanly, remainingBytes_eq, maskOffset_eq, hwrite] at hclean
        simp only [pwriteLoop, if_neg hr.ne', remainingBytes_eq, maskOffset_eq, hwrite] at hresult
        obtain ⟨⟨n, hn, rfl, hdisk⟩, hrest⟩ := hclean hr
        have hmap : v₁.fatMap = v.fatMap := by
          have hkept := fullPwrite_fatMap v (fun i => buf (pos + i)) (roundLen t r off)
            ((fatTableClusterOffset t cs[k] + off % fatTableBytesPerCluster t : ℕ) : ℤ)
          rwa [hwrite] at hkept
        have hlinked : LinkedClusters t v₁.fatMap cs := by rwa [hmap]
        have hlen : roundLen t r off ≤ r := min_le_right _ _
        have hleft : ((r - roundLen t r off : ℕ) : ℤ) = r - (roundLen t r off : ℕ) :=
          Nat.cast_sub hlen
        have hroom := round_room hk hoff hn
        have hbytes : WroteThrough (chainAddr t cs) off n (fun i : ℕ => buf (pos + i))
            t.dataStartOffset v.disk v₁.disk := by
          rw [hdisk]
          exact round_wroteThrough hk hoff hn v.disk fun i : ℕ => buf (pos + i)
        by_cases hshort : (n : ℤ) ≠ (roundLen t r off : ℕ)
        · rw [if_pos hshort] at hresult
          obtain ⟨rfl, rfl⟩ := Prod.mk.inj (Option.some.inj hresult)
          exact ⟨[], n, .stop hmap hbytes hroom (.refl hlinked rfl rfl), by omega, rfl⟩
        · obtain rfl : n = roundLen t r off := by omega
          rw [if_neg (by simp)] at hresult
          by_cases hmore : 0 < r - roundLen t r off
          · obtain ⟨hwrites, hrest⟩ := hrest rfl hmore
            simp only [if_pos hmore, Option.bind_eq_bind, Option.bind_eq_some_iff,
              Prod.exists] at hresult
            obtain ⟨next, v₂, hnext, hresult⟩ := hresult
            rcases nextOrNewCluster_linked hlinked hk hwrites hnext with
              ⟨new, hstep, herrno, hindex⟩ | rfl
            · split_ifs at hresult with hstop
              · obtain ⟨rfl, rfl⟩ := Prod.mk.inj (Option.some.inj hresult)
                exact ⟨new, roundLen t r off, .stop hmap hbytes hroom hstep, hlen, hleft⟩
              · rw [not_or, not_not, not_not] at hstop
                obtain ⟨hk', rfl⟩ := hindex (herrno.symm.trans hstop.1)
                obtain ⟨new', done, hstored, hdone, hrem⟩ := ih hstep.linked hk'
                  (by rw [add_roundLen_div hmore, hoff]) (hrest _ v₂ hnext hstop.1 hstop.2) hresult
                refine ⟨new ++ new', roundLen t r off + done, .append hmap hbytes hroom hstep ?_,
                  by omega, ?_⟩
                · simpa [Nat.cast_add, add_assoc] using hstored
                · rw [hrem, hleft, Nat.cast_add, sub_sub]
            · -- no cluster is free
              rw [if_pos (.inl (by simp))] at hresult
              obtain ⟨rfl, rfl⟩ := Prod.mk.inj (Option.some.inj hresult)
              exact ⟨[], roundLen t r off, .stop hmap hbytes hroom (.refl hlinked rfl rfl), hlen,
                hleft⟩
          · rw [if_neg hmore] at hresult
            obtain ⟨rfl, rfl⟩ := Prod.mk.inj (Option.some.inj hresult)
            exact ⟨[], roundLen t r off, .stop hmap hbytes hroom (.refl hlinked rfl rfl), hlen,
              by omega⟩

/-! ## The first cluster -/

theorem LinkedClusters.seekLoop [t.Formatted] {v : Volume} {cs : List ℕ}
    (h : LinkedClusters t v.fatMap cs) (p : ℕ) {j : ℕ} (hin : j + p < cs.length) :
    fatTableSeekLoop t v p cs[j] = some (cs[j + p], v) := by
  induction p generalizing j with
  | zero => rfl
  | succ p ih =>
      have hmark : cs[j] ≠ fatClusterEndOfChainMax := fun heq =>
        h.notEOC _ (List.getElem_mem (show j < cs.length by omega)) (heq ▸ isEOC_endOfChainMax)
      rw [fatTableSeekLoop, if_neg hmark, h.getNext_inner (by omega) (by omega)]
      simp only [Option.bind_eq_bind, Option.bind_some]
      rw [ih (by omega)]
      simp only [show j + 1 + p = j + (p + 1) by omega]

theorem LinkedClusters.seekCluster [t.Formatted] {v : Volume} {c : ℕ} {cs : List ℕ}
    (h : LinkedClusters t v.fatMap (c :: cs)) {offset : ℕ} (hoffset : offset < 2 ^ 32)
    (hin : offset / fatTableBytesPerCluster t < (c :: cs).length) :
    fatTableSeekCluster t v c offset =
      some ((c :: cs)[offset / fatTableBytesPerCluster t], v) := by
  have hquot : offset / fatTableBytesPerCluster t < 2 ^ 32 :=
    lt_of_le_of_lt (Nat.div_le_self _ _) hoffset
  have hseek := @LinkedClusters.seekLoop t _ v (c :: cs) h (offset / fatTableBytesPerCluster t) 0
    (by omega)
  simp only [Nat.zero_add, List.getElem_cons_zero] at hseek
  rw [fatTableSeekCluster, positions_eq, Nat.mod_eq_of_lt hquot, hseek]

/-- The FAT writes for a new first cluster succeed. -/
def FirstClusterWrites (t : FatTable) (v : Volume) (file : FatFile) (offset : ℕ) : Prop :=
  offset % fatTableBytesPerCluster t = 0 → offset ≠ 0 →
    ∀ c v₀, fatTableSeekCluster t v file.startCluster (offset - 1) = some (c, v₀) → c ≠ 0 →
      ExtensionWrites t v₀ c

theorem pwriteFirstCluster_linked [t.Formatted] {v v' : Volume} {file : FatFile} {cs : List ℕ}
    {offset c : ℕ} (h : LinkedClusters t v.fatMap (file.startCluster :: cs)) (herrno : v.errno = 0)
    (hoffset : offset < 2 ^ 32)
    (hin : offset ≤ (file.startCluster :: cs).length * fatTableBytesPerCluster t)
    (hwrites : FirstClusterWrites t v file offset)
    (hresult : pwriteFirstCluster t v file offset = some (c, v')) :
    (∃ new, LinkedStep t v v' (file.startCluster :: cs) new ∧ v'.errno = 0 ∧
        ∃ hk : offset / fatTableBytesPerCluster t < (file.startCluster :: cs ++ new).length,
          (file.startCluster :: cs ++ new)[offset / fatTableBytesPerCluster t] = c) ∨
      v' = { v with errno := Errno.eio } := by
  have hlen : 0 < (file.startCluster :: cs).length := Nat.succ_pos _
  rcases boundary_or_inside hlen hin with ⟨halign, hpos, hquot, hle⟩ | ⟨hboundary, hk⟩
  · have hstart := startingPoint_div (t := t) hpos
    rw [if_pos halign] at hstart
    have hk : offset / fatTableBytesPerCluster t - 1 < (file.startCluster :: cs).length := by
      omega
    have hseek := h.seekCluster (show offset - 1 < 2 ^ 32 by omega) (by rwa [hstart])
    simp only [hstart] at hseek
    have hcluster := (h.valid _ (List.getElem_mem hk)).1
    rw [pwriteFirstCluster_boundary halign hpos hseek, if_pos (by omega)] at hresult
    have hextension := hwrites halign hpos _ v hseek (by omega)
    rcases nextOrNewCluster_linked h hk hextension hresult with ⟨new, hstep, hsame, hindex⟩ | hfail
    · obtain ⟨hk', hnext⟩ := hindex herrno
      have hindex : offset / fatTableBytesPerCluster t - 1 + 1 =
          offset / fatTableBytesPerCluster t := by omega
      simp only [hindex] at hk' hnext
      exact .inl ⟨new, hstep, hsame.trans herrno, hk', hnext⟩
    · exact .inr hfail
  · rw [pwriteFirstCluster_inside (by tauto), h.seekCluster hoffset hk] at hresult
    obtain ⟨rfl, rfl⟩ := Prod.mk.inj (Option.some.inj hresult)
    exact .inl ⟨[], .refl h rfl rfl, herrno, by simpa using hk, by simp⟩

/-! ## The whole write -/

/-- Of all the writes of `fat_file_pwrite` only the data writes may fail, leaving a prefix. -/
structure WriteStopsCleanly (t : FatTable) (v : Volume) (file : FatFile) (buf : ℤ → UInt8)
    (size offset : ℕ) : Prop where
  first : FirstClusterWrites t v file offset
  loop : ∀ c v₁, pwriteFirstCluster t v file offset = some (c, v₁) → v₁.errno = 0 →
    StopsCleanly t buf (size + 1) v₁ 0 c size offset

theorem chainContent_kept [t.Formatted] {v v' : Volume} {cs : List ℕ} {p n : ℕ}
    (hkept : KeepsOutside t {p} v v') (hvalid : ∀ c ∈ cs, fatTableIsValidClusterNumber t c)
    (hp : p ∉ cs)
    (hn : n ≤ cs.length * fatTableBytesPerCluster t) :
    chainContent t v'.disk cs n = chainContent t v.disk cs n := by
  refine List.map_congr_left fun i hi => ?_
  rw [List.mem_range] at hi
  have hk : i / fatTableBytesPerCluster t < cs.length := div_lt_of_lt_length (by omega)
  have hmem := List.getElem_mem hk
  have hout : cs[i / fatTableBytesPerCluster t] ∉ ({p} : Set ℕ) := fun heq => hp (heq ▸ hmem)
  rw [chainAddr_eq cs hk rfl]
  exact hkept.kept _ (valid_lt_u32 (hvalid _ hmem)) hout _ (Nat.mod_lt _ bytesPerCluster_pos)

/-- A write to a file with the clusters `cs` behind its first one. -/
structure WriteRequest (t : FatTable) (v : Volume) (f : FatFile) (cs : List ℕ)
    (buf : ℤ → UInt8) (size offset : ℕ) : Prop where
  onChain : FileOnChain t v f cs
  valid : ∀ c ∈ f.startCluster :: cs, fatTableClusterIsValid c
  offset_le : offset ≤ f.dentry.fileSize
  size_pos : 0 < size
  end_lt : offset + size < 2 ^ 32
  errno : v.errno = 0
  clean : WriteStopsCleanly t v f buf size offset

/-- What was stored is what the result `r` says: the first `r` bytes, or nothing. -/
structure ReportsStored (t : FatTable) (v v' : Volume) (f f' : FatFile) (cs : List ℕ)
    (buf : ℤ → UInt8) (size offset : ℕ) (r : ℤ) : Prop where
  startCluster : f'.startCluster = f.startCluster
  stored : 0 ≤ r → r ≤ size ∧ ∃ new, LinkedClusters t v'.fatMap (f.startCluster :: cs ++ new) ∧
    f'.dentry.fileSize = max f.dentry.fileSize (offset + r.toNat) ∧
    fileContent t v' f' (cs ++ new) =
      splice (fileContent t v f cs) (bufferBytes buf r.toNat) offset
  unchanged : r < 0 → LinkedClusters t v'.fatMap (f.startCluster :: cs) ∧
    f'.dentry.fileSize = f.dentry.fileSize ∧ fileContent t v' f' cs = fileContent t v f cs

/-- On a formatted table, a write reports what it stored when the parent's cluster is in use
apart from the file. -/
theorem shortWrite_reports [t.Formatted] {v v' : Volume} {f f' p : FatFile} {cs : List ℕ}
    {buf : ℤ → UInt8} {size offset : ℕ} {r : ℤ} (h : WriteRequest t v f cs buf size offset)
    (hparentUsed : v.fatMap p.startCluster ≠ fatClusterFree)
    (hparentOut : p.startCluster ∉ f.startCluster :: cs)
    (hresult : fatFilePwrite t v f buf size offset (some p) = some (r, f', v')) :
    ReportsStored t v v' f f' cs buf size offset r := by
  obtain ⟨hchain, hvalid, hoffset, hsize, hend, herrno, hclean⟩ := h
  have hlinked := hchain.chain.linked hvalid
  have hin := hchain.size_le
  cases hfirst : pwriteFirstCluster t v f offset with
  | none => simp [fatFilePwrite, Nat.not_lt.mpr hoffset, hfirst] at hresult
  | some found =>
      obtain ⟨c, v₁⟩ := found
      rcases pwriteFirstCluster_linked hlinked herrno (by omega) (hoffset.trans hin) hclean.first
        hfirst with ⟨new₁, hstep, herrno₁, hk, rfl⟩ | rfl
      · cases hloop : pwriteLoop t buf (size + 1) v₁ 0
            (f.startCluster :: cs ++ new₁)[offset / fatTableBytesPerCluster t] size offset with
        | none =>
            simp only [fatFilePwrite, if_neg (Nat.not_lt.mpr hoffset), hfirst, herrno₁, hloop,
              Option.bind_eq_bind, Option.bind_some, Option.bind_none, ne_eq, not_true_eq_false,
              if_false, reduceCtorEq] at hresult
        | some written =>
            obtain ⟨rem, v₂⟩ := written
            obtain ⟨new₂, done, hstored, hdone, rfl⟩ := pwriteLoop_stored buf hstep.linked hk rfl
              (hclean.loop _ v₁ hfirst herrno₁) hloop
            have hwhole : StoredAlong t v v₂ (f.startCluster :: cs) (new₁ ++ new₂) offset done
                fun i => buf i := by
              have happend := @StoredAlong.append t _ v v v₁ v₂ (f.startCluster :: cs) new₁ new₂
                offset 0 done (fun i => buf i) rfl (WroteThrough.of_eq fun _ _ => rfl)
                (hoffset.trans hin) hstep (by simpa using hstored)
              rwa [Nat.zero_add] at happend
            have hnewEnd : sizeT ((offset : ℤ) + size - (size - done)) = offset + done := by
              unfold sizeT
              omega
            rw [fatFilePwrite_eq (some p) hoffset hfirst herrno₁ hloop, hnewEnd] at hresult
            simp only [Option.bind_eq_bind, Option.bind_eq_some_iff, Option.some.injEq,
              Prod.mk.injEq] at hresult
            obtain ⟨v₃, hentry, rfl, rfl, rfl⟩ := hresult
            have hcount : (size : ℤ) - (size - done) = (done : ℕ) := by omega
            have hfileSize : (grownDentry v₂ f.dentry (offset + done)).fileSize =
                max f.dentry.fileSize (offset + done) := fileSize_grownDentry v₂ f.dentry (by omega)
            have hparentNew : p.startCluster ∉ f.startCluster :: cs ++ (new₁ ++ new₂) := by
              rw [List.mem_append, not_or]
              exact ⟨hparentOut, hwhole.apart _ hparentOut hparentUsed⟩
            have hroom : max f.dentry.fileSize (offset + done) ≤
                (f.startCluster :: cs ++ (new₁ ++ new₂)).length * fatTableBytesPerCluster t := by
              have hlonger := hwhole.room
              rw [List.length_append, Nat.add_mul] at hlonger ⊢
              omega
            rw [hcount]
            refine ⟨rfl, fun _ => ⟨by omega, new₁ ++ new₂, ?_, hfileSize, ?_⟩,
              fun hneg => absurd hneg (by omega)⟩
            · rw [(writeDirEntry_cases hentry).2.1]
              exact hwhole.linked
            · have hcontent := chainContent_wroteThrough hwhole.linked.nodup hwhole.linked.valid
                hwhole.room hwhole.bytes hoffset hin
              have hkept := chainContent_kept (writeDirEntry_keeps hentry) hwhole.linked.valid
                hparentNew hroom
              rw [fileContent, hfileSize, Int.toNat_natCast]
              exact hkept.trans hcontent
      · -- no cluster is free for the first byte
        rw [fatFilePwrite_of_error hoffset hfirst (show Errno.eio ≠ 0 by decide)] at hresult
        simp only [Option.some.injEq, Prod.mk.injEq] at hresult
        obtain ⟨rfl, rfl, rfl⟩ := hresult
        exact ⟨rfl, fun hr => absurd hr (by decide), fun _ => ⟨hlinked, rfl, rfl⟩⟩

/-! ## Small writes -/

theorem StopsCleanly.of_ioSucceeds (buf : ℤ → UInt8) (fuel : ℕ) {v : Volume} (hio : v.IoSucceeds)
    (pos c r off : ℕ) : StopsCleanly t buf fuel v pos c r off := by
  induction fuel generalizing v pos c r off with
  | zero => trivial
  | succ fuel ih =>
      have hwrite := fullPwrite_of_ioSucceeds hio (fun i => buf (pos + i)) (roundLen t r off)
        (fatTableClusterOffset t c + off % fatTableBytesPerCluster t)
      simp only [StopsCleanly, remainingBytes_eq, maskOffset_eq, hwrite]
      refine fun _ => ⟨⟨_, le_rfl, rfl, rfl⟩, fun _ _ => ⟨fun _ _ _ _ _ _ => ?_, ?_⟩⟩
      · simp [Volume.WriteSucceeds, hio.1, hio.2]
      · intro next v' hnext _ _
        exact ih ((nextOrNewCluster_later hnext).ioSucceeds ⟨hio.1, hio.2⟩) _ _ _ _

theorem WriteStopsCleanly.of_ioSucceeds {v : Volume} (hio : v.IoSucceeds) (file : FatFile)
    (buf : ℤ → UInt8) (size offset : ℕ) : WriteStopsCleanly t v file buf size offset where
  first _ _ c v₀ hseek _ _ _ _ _ _ _ := by
    have hio₀ := (seekLoop_later hseek).ioSucceeds hio
    simp [Volume.WriteSucceeds, hio₀.1, hio₀.2]
  loop c v₁ hfirst _ :=
    .of_ioSucceeds buf (size + 1) ((pwriteFirstCluster_later hfirst).ioSucceeds hio) 0 c size offset

/-- The file at cluster 3, of which a call writes five bytes before the next one fails. -/
def fiveBytesFit : Volume :=
  { smallVolume [fatClusterEndOfChainMax, fatClusterEndOfChainMax] with
    io := [.bytes 5, .error 28] }

theorem emptyFile_onChain {v : Volume} (h : ClusterChain smallTable v.fatMap [3]) :
    FileOnChain smallTable v (emptyFile 3 clusterThree_lt) [] := by
  refine ⟨h, ?_⟩
  rw [show (emptyFile 3 clusterThree_lt).dentry.fileSize = 0 from fileSize_zero]
  exact Nat.zero_le _

theorem fiveBytesFit_request :
    WriteRequest smallTable fiveBytesFit (emptyFile 3 clusterThree_lt) [] (fun _ => 1) 10 0 where
  onChain := emptyFile_onChain ⟨by decide, by decide, by decide⟩
  valid := by decide
  offset_le := Nat.zero_le _
  size_pos := by decide
  end_lt := by decide
  errno := rfl
  clean := by
    refine ⟨fun _ hpos => absurd rfl hpos, fun c v₁ hfirst _ => ?_⟩
    obtain ⟨rfl, rfl⟩ := Prod.mk.inj (Option.some.inj hfirst)
    refine fun _ => ⟨fullPwrite_storesPrefix _ _ _ ?_, fun hall => absurd hall (by decide)⟩
    intro e he
    obtain rfl : e = 28 := by simpa [fiveBytesFit] using he
    decide

/-- Five of ten bytes are stored and reported. -/
theorem shortWrite_reports_five :
    ∃ f' v', fatFilePwrite smallTable fiveBytesFit (emptyFile 3 clusterThree_lt) (fun _ => 1) 10 0
        (some (emptyFile 2 (by decide))) = some (5, f', v') ∧
      ReportsStored smallTable fiveBytesFit v' (emptyFile 3 clusterThree_lt) f' [] (fun _ => 1)
        10 0 5 := by
  obtain ⟨⟨r, f', v'⟩, hresult, hr⟩ := Option.map_eq_some_iff.mp
    (show (fatFilePwrite smallTable fiveBytesFit (emptyFile 3 clusterThree_lt) (fun _ => 1) 10 0
      (some (emptyFile 2 (by decide)))).map (·.1) = some 5 by decide)
  obtain rfl : r = 5 := hr
  exact ⟨f', v', hresult, shortWrite_reports fiveBytesFit_request (by decide) (by decide) hresult⟩

theorem getElem?_fileContent {v : Volume} {f : FatFile} {cs : List ℕ} {i : ℕ}
    (hi : i < f.dentry.fileSize) :
    (fileContent t v f cs)[i]? = some (v.disk (chainAddr t (f.startCluster :: cs) i)) := by
  simp [fileContent, chainContent, hi]

/-- A write that reports one byte has stored it where it was asked to. -/
theorem ReportsStored.first_byte {v v' : Volume} {f f' : FatFile} {cs : List ℕ} {buf : ℤ → UInt8}
    {size offset : ℕ} (h : ReportsStored t v v' f f' cs buf size offset 1)
    (hoffset : offset ≤ f.dentry.fileSize) :
    ∃ new, LinkedClusters t v'.fatMap (f.startCluster :: cs ++ new) ∧
      v'.disk (chainAddr t (f.startCluster :: cs ++ new) offset) = buf 0 := by
  obtain ⟨-, new, hlinked, hsize, hcontent⟩ := h.stored (by decide)
  have hbyte := congrArg (·[offset]?) hcontent
  have hlength : (fileContent t v f cs).length = f.dentry.fileSize := length_fileContent v f cs
  simp only [Int.toNat_one] at hsize
  simp only [getElem?_fileContent (show offset < f'.dentry.fileSize by omega),
    h.startCluster] at hbyte
  refine ⟨new, hlinked, Option.some.inj (hbyte.trans ?_)⟩
  rw [splice, List.getElem?_append_left (by simp [bufferBytes, hlength]; omega),
    List.getElem?_append_right (by simp)]
  simp [bufferBytes, hlength, hoffset]

/-- Cluster 3 ends its chain, cluster 2 is free. -/
def oneChain : Volume := smallVolume [fatClusterFree, fatClusterEndOfChainMax]

theorem oneChain_ioSucceeds : oneChain.IoSucceeds := ⟨rfl, rfl⟩

theorem oneChain_chain : ClusterChain smallTable oneChain.fatMap [3] :=
  ⟨by decide, by decide, by decide⟩

theorem firstByte_request :
    WriteRequest smallTable oneChain (emptyFile 3 clusterThree_lt) [] (fun _ => 1) 1 0 :=
  ⟨emptyFile_onChain oneChain_chain, by decide, Nat.zero_le _, by decide, by decide, rfl,
    .of_ioSucceeds oneChain_ioSucceeds _ _ _ _⟩

theorem nextByte_request :
    WriteRequest smallTable oneChain (bytesAtThree 32) [] (fun _ => 1) 1 32 := by
  have hsize : (bytesAtThree 32).dentry.fileSize = 32 := fileSize_bytesAtThree 32
  refine ⟨⟨oneChain_chain, by rw [hsize]; decide⟩, by decide, by rw [hsize], by decide, by decide,
    rfl, .of_ioSucceeds oneChain_ioSucceeds _ _ _ _⟩

/-- The entry is written over the stored byte, when the parent's cluster is on the chain, and
when it is free and becomes the next cluster of the file. -/
theorem shortWrite_overwritten :
    (WriteRequest smallTable oneChain (emptyFile 3 clusterThree_lt) [] (fun _ => 1) 1 0 ∧
      ∃ f' v', fatFilePwrite smallTable oneChain (emptyFile 3 clusterThree_lt) (fun _ => 1) 1 0
          (some (emptyFile 3 clusterThree_lt)) = some (1, f', v') ∧
        ¬ ReportsStored smallTable oneChain v' (emptyFile 3 clusterThree_lt) f' [] (fun _ => 1)
          1 0 1) ∧
    WriteRequest smallTable oneChain (bytesAtThree 32) [] (fun _ => 1) 1 32 ∧
      ∃ f' v', fatFilePwrite smallTable oneChain (bytesAtThree 32) (fun _ => 1) 1 32
          (some (emptyFile 2 (by decide))) = some (1, f', v') ∧
        ¬ ReportsStored smallTable oneChain v' (bytesAtThree 32) f' [] (fun _ => 1) 1 32 1 := by
  refine ⟨⟨firstByte_request, ?_⟩, nextByte_request, ?_⟩
  · obtain ⟨⟨r, f', v'⟩, hresult, hr⟩ := Option.map_eq_some_iff.mp
      (show (fatFilePwrite smallTable oneChain (emptyFile 3 clusterThree_lt) (fun _ => 1) 1 0
        (some (emptyFile 3 clusterThree_lt))).map (fun r => (r.1, r.2.2.disk 96)) = some (1, 0) by
          decide)
    obtain ⟨rfl, hbyte⟩ := Prod.mk.inj hr
    refine ⟨f', v', hresult, fun h => ?_⟩
    obtain ⟨new, -, hstored⟩ := h.first_byte (Nat.zero_le _)
    have haddr : chainAddr smallTable (3 :: ([] ++ new)) 0 = 96 := rfl
    exact absurd ((congrArg v'.disk haddr).symm.trans hstored) (by rw [hbyte]; decide)
  · obtain ⟨⟨r, f', v'⟩, hresult, hr⟩ := Option.map_eq_some_iff.mp
      (show (fatFilePwrite smallTable oneChain (bytesAtThree 32) (fun _ => 1) 1 32
        (some (emptyFile 2 (by decide)))).map (fun r => (r.1, r.2.2.disk 64, r.2.2.fatMap 3)) =
          some (1, 0, 2) by decide)
    simp only [Prod.mk.injEq] at hr
    obtain ⟨rfl, hbyte, hlink⟩ := hr
    refine ⟨f', v', hresult, fun h => ?_⟩
    obtain ⟨new, hlinked, hstored⟩ := h.first_byte nextByte_request.offset_le
    cases new with
    | nil =>
        -- cluster 2 is linked behind cluster 3
        have hend := hlinked.ends 0 (by simp) rfl
        simp only [List.append_nil, List.getElem_cons_zero] at hend
        rw [show (bytesAtThree 32).startCluster = 3 from rfl, hlink] at hend
        exact absurd hend (by decide)
    | cons d new =>
        have hd : d = 2 := (hlinked.links 0 (by simp) (by simp)).symm.trans hlink
        subst hd
        have haddr : chainAddr smallTable (3 :: ([] ++ 2 :: new)) 32 = 64 := rfl
        exact absurd ((congrArg v'.disk haddr).symm.trans hstored) (by rw [hbyte]; decide)

end SistOp.FatFuse
