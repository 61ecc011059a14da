import SistOp.ClusterChain
import SistOp.FatFile
import Mathlib.Tactic

/-!
# Deleting a file

Deletion frees the first cluster of a chain and then walks along the rest, freeing
it cluster by cluster.  The walk follows links that it has read before it erased
them.
-/

namespace SistOp.FatFuse

open ByteStore

variable {t : FatTable}

/-- The FAT after the entries of `cs` were erased. -/
def freed (fatMap : ℕ → ℕ) (cs : List ℕ) : ℕ → ℕ :=
  fun c => if c ∈ cs then fatClusterFree else fatMap c

theorem freed_of_mem {fatMap : ℕ → ℕ} {cs : List ℕ} {c : ℕ} (hc : c ∈ cs) :
    freed fatMap cs c = fatClusterFree := if_pos hc

theorem freed_of_notMem {fatMap : ℕ → ℕ} {cs : List ℕ} {c : ℕ} (hc : c ∉ cs) :
    freed fatMap cs c = fatMap c := if_neg hc

theorem freed_cons (fatMap : ℕ → ℕ) (c : ℕ) (cs : List ℕ) :
    freed (Function.update fatMap c fatClusterFree) cs = freed fatMap (c :: cs) := by
  funext d
  by_cases hd : d ∈ cs
  · rw [freed_of_mem hd, freed_of_mem (List.mem_cons_of_mem c hd)]
  · rw [freed_of_notMem hd]
    by_cases hdc : d = c
    · subst hdc
      rw [Function.update_self, freed_of_mem (by simp)]
    · rw [Function.update_of_ne hdc, freed_of_notMem (by simp [hdc, hd])]

/-- The rest of a chain, given by the cluster that starts it. -/
def restStart (cs : List ℕ) : ℕ := cs.head?.getD fatClusterEndOfChainMax

theorem ClusterChain.getNext_head [t.Formatted] {v : Volume} {c : ℕ} {cs : List ℕ}
    (h : ClusterChain t v.fatMap (c :: cs)) :
    fatTableGetNextCluster t v c = some (restStart cs) := by
  cases cs with
  | nil => exact h.getNext_last (k := 0) (by simp) rfl
  | cons d ds => exact h.getNext_inner (k := 0) (by simp)

theorem ClusterChain.tail {fatMap : ℕ → ℕ} {c : ℕ} {cs : List ℕ}
    (h : ClusterChain t fatMap (c :: cs)) (hne : cs ≠ []) :
    ClusterChain t fatMap cs := by
  cases cs with
  | nil => contradiction
  | cons d ds =>
      exact ⟨h.links.tail, fun x hx => h.valid x (List.mem_cons_of_mem c hx),
        fun x hx => h.used x (List.mem_cons_of_mem c hx)⟩

/-- Erasing the first entry of a chain leaves its rest a chain. -/
theorem ClusterChain.tail_setEntry {v : Volume} {c n : ℕ} {cs : List ℕ}
    (h : ClusterChain t v.fatMap (c :: cs)) (hne : cs ≠ []) :
    ClusterChain t (setEntry t v c n).fatMap cs := by
  apply (h.tail hne).congr
  intro d hd
  have hdc : d ≠ c := by
    rintro rfl
    exact (List.nodup_cons.mp h.nodup).1 hd
  rw [setEntry_fatMap, Function.update_of_ne hdc]

/-- The disk after the entries of `cs` were erased one by one. -/
def erasedDisk (t : FatTable) (disk : ℕ → UInt8) (cs : List ℕ) : ℕ → UInt8 :=
  cs.foldl (fun disk c => store disk (c * 4 % 2 ^ 32 + t.fatOffset) 4
    fun i => leByte fatClusterFree i) disk

/-- The loop erases the entries of a chain, whatever else the FAT holds. -/
theorem freeChainLoop_eq [t.Formatted] (hmarks : t.ClusterNumbersBelowMarks) {cs : List ℕ}
    (fuel : ℕ) {v : Volume} (h : cs = [] ∨ ClusterChain t v.fatMap cs)
    (hio : v.IoSucceeds) (hfuel : cs.length < fuel) :
    freeChainLoop t fuel v (restStart cs) =
      some { v with disk := erasedDisk t v.disk cs, fatMap := freed v.fatMap cs } := by
  induction cs generalizing fuel v with
  | nil =>
      obtain ⟨fuel, rfl⟩ : ∃ n, fuel = n + 1 := ⟨fuel - 1, by omega⟩
      rw [freeChainLoop, restStart, List.head?_nil, Option.getD_none,
        if_neg not_isValid_endOfChainMax]
      rfl
  | cons c cs ih =>
      obtain ⟨fuel, rfl⟩ : ∃ n, fuel = n + 1 := ⟨fuel - 1, by omega⟩
      have hchain : ClusterChain t v.fatMap (c :: cs) := by
        rcases h with hnil | hchain
        · contradiction
        · exact hchain
      have hvalid := hchain.valid c (by simp)
      have hbound := valid_lt_entries hvalid
      have hrest : cs = [] ∨ ClusterChain t (setEntry t v c fatClusterFree).fatMap cs := by
        by_cases hne : cs = []
        · exact Or.inl hne
        · exact Or.inr (hchain.tail_setEntry hne)
      rw [List.length_cons] at hfuel
      have hloop := ih fuel hrest ⟨hio.1, hio.2⟩ (by omega)
      have hstart : restStart (c :: cs) = c := rfl
      rw [freeChainLoop, hstart, if_pos (isValid_of_valid hmarks hvalid),
        hchain.getNext_head]
      simp only [Option.bind_eq_bind, Option.bind_some,
        setNextCluster_of_ioSucceeds hio hbound, hloop, setEntry_fatMap, freed_cons]
      rfl

theorem erasedDisk_data [t.Formatted] {disk : ℕ → UInt8} {cs : List ℕ}
    (hcs : ∀ c ∈ cs, c < t.fatEntries) {a : ℕ} (ha : t.dataStartOffset ≤ a) :
    erasedDisk t disk cs a = disk a := by
  induction cs generalizing disk with
  | nil => rfl
  | cons c cs ih =>
      have hentry := entry_lt_dataStart (hcs c (by simp))
      have hwrap : c * 4 % 2 ^ 32 ≤ c * 4 := Nat.mod_le _ _
      refine (ih fun d hd => hcs d (List.mem_cons_of_mem c hd)).trans ?_
      exact store_outside _ _ (Or.inr (by omega))

theorem exists_freeChainLoop [t.Formatted] (hmarks : t.ClusterNumbersBelowMarks) {cs : List ℕ}
    (fuel : ℕ) {v : Volume} (h : cs = [] ∨ ClusterChain t v.fatMap cs)
    (hio : v.IoSucceeds) (hfuel : cs.length < fuel) :
    ∃ v', freeChainLoop t fuel v (restStart cs) = some v' ∧ SameOutsideFat t v v' ∧
      v'.fatMap = freed v.fatMap cs := by
  refine ⟨_, freeChainLoop_eq hmarks fuel h hio hfuel, ⟨fun a ha => ?_, rfl, rfl, rfl, rfl,
    rfl⟩, rfl⟩
  apply erasedDisk_data _ ha
  intro c hc
  rcases h with rfl | hchain
  · simp at hc
  · exact valid_lt_entries (hchain.valid c hc)

/-- `fat_file_delete` frees the whole chain and then writes the erased entry. -/
theorem exists_fatFileDelete [t.Formatted] (hmarks : t.ClusterNumbersBelowMarks) {v : Volume}
    {file : FatFile} {cs : List ℕ} (parent : Option FatFile)
    (h : ClusterChain t v.fatMap (file.startCluster :: cs)) (hio : v.IoSucceeds)
    (herrno : v.errno = 0) :
    ∃ v₂ dentry, SameOutsideFat t { v with clock := fun n => v.clock (n + 1) } v₂ ∧
      v₂.fatMap = freed v.fatMap (file.startCluster :: cs) ∧
      dentry = ((fillDentryTimeNow v (file.dentry.setFileSize 0) false true).1.setByte 0
        fatFilenameDeletedChar) ∧
      fatFileDelete t v file parent =
        (writeDirEntry t v₂ parent { file with dentry := dentry }).map fun v' =>
          ({ file with dentry := dentry }, v') := by
  have hbound := valid_lt_entries (h.valid _ (List.mem_cons_self))
  have hrest : cs = [] ∨
      ClusterChain t (setEntry t v file.startCluster fatClusterFree).fatMap cs := by
    by_cases hne : cs = []
    · exact Or.inl hne
    · exact Or.inr (h.tail_setEntry hne)
  have hlength := h.length_le
  rw [List.length_cons] at hlength
  obtain ⟨v₁, hloop, hsame, hmap⟩ := exists_freeChainLoop hmarks
    (t.fatEntries + (setEntry t v file.startCluster fatClusterFree).io.length + 1)
    hrest ⟨hio.1, hio.2⟩ (by omega)
  have hfirst := setEntry_sameOutsideFat v (n := fatClusterFree) hbound
  have hall := hfirst.trans hsame
  have herrno₁ : (setEntry t v file.startCluster fatClusterFree).errno = 0 :=
    hfirst.errno.trans herrno
  refine ⟨{ v₁ with clock := fun n => v₁.clock (n + 1) }, _,
    ⟨hall.data, hall.errno, hall.writable, hall.io, ?_, hall.heap⟩, ?_, rfl, ?_⟩
  · rw [hall.clock]
  · rw [hmap, setEntry_fatMap, freed_cons]
  · have hentry : fillDentryTimeNow v₁ (file.dentry.setFileSize 0) false true =
        ((fillDentryTimeNow v (file.dentry.setFileSize 0) false true).1,
          { v₁ with clock := fun n => v₁.clock (n + 1) }) := by
      simp [fillDentryTimeNow, time, hall.clock]
    rw [fatFileDelete, h.getNext_head]
    simp only [Option.bind_eq_bind, Option.bind_some,
      setNextCluster_of_ioSucceeds hio hbound, herrno₁, ne_eq, not_true_eq_false,
      if_false, freeChain, hloop, hentry]
    cases writeDirEntry t { v₁ with clock := fun n => v₁.clock (n + 1) } parent _ <;> rfl

end SistOp.FatFuse
