import SistOp.EntryCreation
import Mathlib.Tactic

/-!
# Which clusters a step leaves alone

`KeepsOutside t cs v v'` says that the data clusters outside of `cs` hold the same bytes
in `v'` as in `v`.  Reading keeps the disk, writing the FAT keeps every cluster, and
writing an entry keeps all clusters but the one of the directory.
-/

namespace SistOp.FatFuse

open ByteStore

variable {t : FatTable}

def ClusterKept (t : FatTable) (c : ℕ) (v v' : Volume) : Prop :=
  ∀ i < fatTableBytesPerCluster t,
    v'.disk (fatTableClusterOffset t c + i) = v.disk (fatTableClusterOffset t c + i)

theorem ClusterKept.of_disk {v v' : Volume} (h : v'.disk = v.disk) (c : ℕ) :
    ClusterKept t c v v' := fun _ _ => by rw [h]

theorem ClusterKept.trans {v v' v'' : Volume} {c : ℕ} (h : ClusterKept t c v v')
    (h' : ClusterKept t c v' v'') : ClusterKept t c v v'' :=
  fun i hi => (h' i hi).trans (h i hi)

theorem ClusterKept.diskSlot {v v' : Volume} {c slot : ℕ} (h : ClusterKept t c v v')
    (hslot : slot < slotsPerCluster t) :
    diskSlot t v'.disk c slot = diskSlot t v.disk c slot := by
  apply diskSlot_congr
  intro i hi
  have hbyte := h _ (slot_byte_lt hslot hi)
  rwa [← Nat.add_assoc] at hbyte

structure KeepsOutside (t : FatTable) (cs : Set ℕ) (v v' : Volume) : Prop where
  later : v.Later v'
  kept : ∀ c < 2 ^ 32, c ∉ cs → ClusterKept t c v v'

theorem KeepsOutside.of_disk {cs : Set ℕ} {v v' : Volume} (hlater : v.Later v')
    (h : v'.disk = v.disk) : KeepsOutside t cs v v' :=
  ⟨hlater, fun c _ _ => ClusterKept.of_disk h c⟩

theorem KeepsOutside.refl (cs : Set ℕ) (v : Volume) : KeepsOutside t cs v v :=
  KeepsOutside.of_disk (Volume.Later.refl v) rfl

theorem KeepsOutside.trans {cs : Set ℕ} {v v' v'' : Volume} (h : KeepsOutside t cs v v')
    (h' : KeepsOutside t cs v' v'') : KeepsOutside t cs v v'' :=
  ⟨h.later.trans h'.later, fun c hc hcs => (h.kept c hc hcs).trans (h'.kept c hc hcs)⟩

theorem KeepsOutside.mono {cs ds : Set ℕ} {v v' : Volume} (h : KeepsOutside t cs v v')
    (hsub : cs ⊆ ds) : KeepsOutside t ds v v' :=
  ⟨h.later, fun c hc hcs => h.kept c hc fun hin => hcs (hsub hin)⟩

/-- Bytes of the data area that are kept are kept in every cluster. -/
theorem KeepsOutside.of_data {cs : Set ℕ} {v v' : Volume} (hlater : v.Later v')
    (h : ∀ a, t.dataStartOffset ≤ a → v'.disk a = v.disk a) : KeepsOutside t cs v v' :=
  ⟨hlater, fun c _ _ _ _ => h _ ((dataStart_le_clusterOffset c).trans (Nat.le_add_right _ _))⟩

/-- A copy into the bytes of cluster `d`. -/
theorem KeepsOutside.of_cluster {v v' : Volume} {d : ℕ} (hlater : v.Later v') (hd : d < 2 ^ 32)
    (h : ∀ a, (∀ i < fatTableBytesPerCluster t, a ≠ fatTableClusterOffset t d + i) →
      v'.disk a = v.disk a) : KeepsOutside t {d} v v' := by
  refine ⟨hlater, fun c hc hcs i hi => h _ fun j hj heq => hcs ?_⟩
  exact (clusterOffset_injective hc hd hi hj heq).1

/-! ## Reading -/

/-- What a read may change. -/
structure Volume.Reads (v v' : Volume) : Prop where
  later : v.Later v'
  disk : v'.disk = v.disk
  fatMap : v'.fatMap = v.fatMap

theorem Volume.Reads.refl (v : Volume) : v.Reads v := ⟨Volume.Later.refl v, rfl, rfl⟩

theorem Volume.Reads.trans {v v' v'' : Volume} (h : v.Reads v') (h' : v'.Reads v'') :
    v.Reads v'' :=
  ⟨h.later.trans h'.later, h'.disk.trans h.disk, h'.fatMap.trans h.fatMap⟩

theorem Volume.Reads.keepsOutside {v v' : Volume} (h : v.Reads v') (cs : Set ℕ) :
    KeepsOutside t cs v v' := KeepsOutside.of_disk h.later h.disk

theorem pread_reads (v : Volume) (buf : ℤ → UInt8) (pos : ℤ) (count : ℕ) (offset : ℤ) :
    v.Reads (pread v buf pos count offset).2.2 := by
  unfold pread
  split
  · exact ⟨⟨rfl, List.suffix_refl _⟩, rfl, rfl⟩
  · split
    · exact Volume.Reads.refl v
    · rename_i hcall
      exact ⟨⟨rfl, hcall ▸ List.suffix_cons _ _⟩, rfl, rfl⟩
    · rename_i hcall
      exact ⟨⟨rfl, hcall ▸ List.suffix_cons _ _⟩, rfl, rfl⟩

theorem fullPreadLoop_reads (fuel : ℕ) (v : Volume) (buf : ℤ → UInt8) (pos : ℤ)
    (remaining : ℕ) (offset : ℤ) :
    v.Reads (fullPreadLoop fuel v buf pos remaining offset).2.2 := by
  induction fuel generalizing v buf pos remaining offset with
  | zero => exact Volume.Reads.refl v
  | succ fuel ih =>
      have hread := pread_reads v buf pos remaining offset
      simp only [fullPreadLoop]
      split_ifs
      · exact Volume.Reads.refl v
      · exact ⟨hread.later, hread.disk, hread.fatMap⟩
      · exact hread.trans (ih _ _ _ _ _)
      · exact hread
      · exact hread.trans (ih _ _ _ _ _)

theorem fullPread_reads (v : Volume) (buf : ℤ → UInt8) (count : ℕ) (offset : ℤ) :
    v.Reads (fullPread v buf count offset).2.2 :=
  fullPreadLoop_reads (v.io.length + 2) v buf 0 count offset

/-! ## Writing -/

/-- No call is interrupted.  After an interrupted one `full_pwrite` writes one byte in
front of its range. -/
def Volume.Uninterrupted (v : Volume) : Prop :=
  ∀ e, IoOutcome.error e ∈ v.io → ((e : ℕ) : ℤ) ≠ Errno.eintr

theorem Volume.Later.uninterrupted {v v' : Volume} (h : v.Later v') (hno : v.Uninterrupted) :
    v'.Uninterrupted := fun e he => hno e (h.2.subset he)

theorem pwrite_uninterrupted {v v' : Volume} {buf : ℤ → UInt8} {count : ℕ} {offset r : ℤ}
    (hno : v.Uninterrupted) (h : pwrite v buf count offset = (r, v')) (hr : r < 0) :
    v'.errno ≠ Errno.eintr := by
  unfold pwrite at h
  split at h
  · obtain rfl := (Prod.mk.inj h).2
    simp
  · split at h
    · obtain rfl := (Prod.mk.inj h).2
      simp
    · split at h <;> obtain ⟨rfl, rfl⟩ := Prod.mk.inj h
      · omega
      · omega
      · rename_i e rest hcall
        exact hno e (hcall ▸ List.mem_cons_self)

theorem fullPwriteLoop_keeps (buf : ℤ → UInt8) (fuel : ℕ) {v : Volume} (pos : ℤ)
    (remaining offset : ℕ) (hno : v.Uninterrupted) :
    v.Later (fullPwriteLoop buf fuel v pos remaining offset).2 ∧
      (fullPwriteLoop buf fuel v pos remaining offset).2.fatMap = v.fatMap ∧
      ∀ a, a < offset ∨ offset + remaining ≤ a →
        (fullPwriteLoop buf fuel v pos remaining offset).2.disk a = v.disk a := by
  induction fuel generalizing v pos remaining offset with
  | zero => exact ⟨Volume.Later.refl v, rfl, fun _ _ => rfl⟩
  | succ fuel ih =>
      obtain ⟨⟨r, v₁⟩, hwrite⟩ : ∃ written,
          pwrite v (fun i => buf (pos + i)) remaining (offset : ℤ) = written := ⟨_, rfl⟩
      obtain ⟨hmap, hlater, -, -, hcases⟩ := pwrite_cases hwrite
      have hdisk : ∀ a, a < offset ∨ offset + remaining ≤ a → v₁.disk a = v.disk a := by
        intro a ha
        rcases hcases with ⟨-, -, hsame⟩ | ⟨n, hn, -, -, hstore⟩
        · rw [hsame]
        · rw [hstore]
          exact store_outside _ _ (by omega)
      simp only [fullPwriteLoop, hwrite]
      split_ifs with hzero hle hnone hintr
      · exact ⟨Volume.Later.refl v, rfl, fun _ _ => rfl⟩
      · exact ⟨hlater, hmap, hdisk⟩
      · exact absurd hintr (pwrite_uninterrupted hno hwrite (by omega))
      · exact ⟨hlater, hmap, hdisk⟩
      · rcases hcases with ⟨hr, -⟩ | ⟨n, hn, rfl, -⟩
        · omega
        · obtain ⟨hlater', hmap', hdisk'⟩ := ih (pos + n) (remaining - n) (offset + n)
            (hlater.uninterrupted hno)
          push_cast at hlater' hmap' hdisk'
          rw [Int.toNat_natCast]
          refine ⟨hlater.trans hlater', hmap'.trans hmap, fun a ha => ?_⟩
          exact (hdisk' a (by omega)).trans (hdisk a ha)

theorem fullPwrite_keeps {v : Volume} (buf : ℤ → UInt8) (count offset : ℕ)
    (hno : v.Uninterrupted) :
    v.Later (fullPwrite v buf count offset).2 ∧
      (fullPwrite v buf count offset).2.fatMap = v.fatMap ∧
      ∀ a, a < offset ∨ offset + count ≤ a →
        (fullPwrite v buf count offset).2.disk a = v.disk a :=
  fullPwriteLoop_keeps buf (v.io.length + 2) 0 count offset hno

/-- A write to the entry of a cluster does not reach the data. -/
theorem setNextCluster_dataKept [t.Formatted] {v v' : Volume} {c n : ℕ}
    (h : fatTableSetNextCluster t v c n = some v') {a : ℕ} (ha : t.dataStartOffset ≤ a) :
    v'.disk a = v.disk a := by
  obtain ⟨-, -, -, ⟨-, -, hdisk⟩ | ⟨-, hc, -, k, -, hk, hdisk⟩⟩ := setNextCluster_cases h
  · rw [hdisk]
  · have hentry := entry_lt_dataStart hc
    have hwrap : c * 4 % 2 ^ 32 ≤ c * 4 := Nat.mod_le _ _
    rw [hdisk]
    exact store_outside _ _ (.inr (by omega))

theorem setNextCluster_keeps [t.Formatted] {v v' : Volume} {c n : ℕ} (cs : Set ℕ)
    (h : fatTableSetNextCluster t v c n = some v') : KeepsOutside t cs v v' :=
  KeepsOutside.of_data (setNextCluster_cases h).1 fun _ ha => setNextCluster_dataKept h ha

/-- What holds of one freed entry and of none, and composes, holds of a freed chain. -/
theorem freeChainLoop_induction {rel : Volume → Volume → Prop} (hrefl : ∀ v, rel v v)
    (hset : ∀ {v v₁ v' : Volume} {c : ℕ},
      fatTableSetNextCluster t v c fatClusterFree = some v₁ → rel v₁ v' → rel v v')
    {fuel : ℕ} {v v' : Volume} {c : ℕ} (h : freeChainLoop t fuel v c = some v') : rel v v' := by
  induction fuel generalizing v c with
  | zero => simp [freeChainLoop] at h
  | succ fuel ih =>
      unfold freeChainLoop at h
      split at h
      · simp only [Option.bind_eq_bind, Option.bind_eq_some_iff] at h
        obtain ⟨next, -, v₁, hfree, h⟩ := h
        exact hset hfree (ih h)
      · obtain rfl := Option.some.inj h
        exact hrefl v

theorem freeChainLoop_keeps [t.Formatted] {fuel : ℕ} {v v' : Volume} {c : ℕ} (cs : Set ℕ)
    (h : freeChainLoop t fuel v c = some v') : KeepsOutside t cs v v' :=
  freeChainLoop_induction (KeepsOutside.refl cs)
    (fun hfree hrest => (setNextCluster_keeps cs hfree).trans hrest) h

theorem writeDirEntry_keeps {v v' : Volume} {p f : FatFile}
    (h : writeDirEntry t v (some p) f = some v') :
    KeepsOutside t {p.startCluster} v v' := by
  obtain ⟨hlater, -, ⟨-, hdisk⟩ | ⟨-, hfits, hdisk⟩⟩ := writeDirEntry_cases h
  · exact KeepsOutside.of_cluster hlater p.startCluster_lt hdisk
  · refine KeepsOutside.of_cluster hlater p.startCluster_lt fun a ha => ?_
    rw [hdisk]
    apply writeSlot_outside
    intro i hi
    rw [slotAddr, Nat.add_assoc]
    exact ha _ (slot_byte_lt hfits hi)

theorem fatFileInit_keeps [t.Formatted] {v v' : Volume} {isDir : Bool} {filepath : CString}
    {r : Option FatFile} (cs : Set ℕ) (herrno : v.errno = 0)
    (h : fatFileInit t v isDir filepath = some (r, v')) : KeepsOutside t cs v v' := by
  obtain ⟨hlater, ⟨-, -, -, -, hdisk⟩ | ⟨c, -, -, -, -, hc, -, -, -, -, -, -, -, -, -, k, -, hk,
    hdisk⟩⟩ := fatFileInit_eq_some herrno h
  · exact KeepsOutside.of_disk hlater hdisk
  · refine KeepsOutside.of_data hlater fun a ha => ?_
    have hentry := entry_lt_dataStart hc
    have hwrap : c * 4 % 2 ^ 32 ≤ c * 4 := Nat.mod_le _ _
    rw [hdisk]
    exact store_outside _ _ (Or.inr (by omega))

end SistOp.FatFuse
