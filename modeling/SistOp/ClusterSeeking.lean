import SistOp.ClusterChain
import Mathlib.Tactic

/-!
# Seeking behind the end of a chain

`fat_table_seek_cluster` looks for the end of the chain in front of each step.  The offset
exactly behind the last cluster takes it to the mark of the end, which it returns as a cluster.
-/

namespace SistOp.FatFuse

variable {t : FatTable}

/-- The cluster at the offset, or the failure value with its error. -/
def SeeksCluster (t : FatTable) (v : Volume) (c : ℕ) (cs : List ℕ) (offset : ℕ) : Prop :=
  fatTableSeekCluster t v c offset =
    match (c :: cs)[offset >>> t.clusterOrder]? with
    | some cluster => some (cluster, v)
    | none => some (0, { v with errno := Errno.eoverflow })

theorem ClusterChain.seekCluster_eq [t.Formatted] {v : Volume} {c : ℕ} {cs : List ℕ}
    (h : ClusterChain t v.fatMap (c :: cs)) (hvalid : ∀ d ∈ c :: cs, fatTableClusterIsValid d)
    (offset : ℕ) :
    fatTableSeekCluster t v c offset =
      match (c :: cs)[offset >>> t.clusterOrder % 2 ^ 32]? with
      | some cluster => some (cluster, v)
      | none =>
          if offset >>> t.clusterOrder % 2 ^ 32 = (c :: cs).length then
            some (fatClusterEndOfChainMax, v)
          else some (0, { v with errno := Errno.eoverflow }) := by
  have hloop := h.seekLoop_eq_of_isValid hvalid (offset >>> t.clusterOrder % 2 ^ 32) 0 (by simp)
  simp only [Nat.zero_add, List.getElem_cons_zero] at hloop
  rw [fatTableSeekCluster, hloop]
  by_cases hin : offset >>> t.clusterOrder % 2 ^ 32 < (c :: cs).length
  · rw [dif_pos hin, List.getElem?_eq_getElem hin]
  · rw [dif_neg hin, List.getElem?_eq_none (by omega)]

/-- On a formatted table, seeking along a chain works exactly for the offsets that are not
directly behind the last cluster, where the number of steps is taken modulo `2 ^ 32`. -/
theorem seeksCluster_iff [t.Formatted] {v : Volume} {c : ℕ} {cs : List ℕ}
    (h : ClusterChain t v.fatMap (c :: cs)) (hvalid : ∀ d ∈ c :: cs, fatTableClusterIsValid d)
    (herrno : v.errno = 0) (offset : ℕ) :
    SeeksCluster t v c cs offset ↔
      offset >>> t.clusterOrder < (c :: cs).length ∨
        (c :: cs).length < offset >>> t.clusterOrder % 2 ^ 32 := by
  have hlength : (c :: cs).length < 2 ^ 32 := lt_of_le_of_lt h.length_le t.entries_lt
  have hfailed : ∀ cluster,
      some (cluster, v) ≠ some (0, ({ v with errno := Errno.eoverflow } : Volume)) := by
    intro cluster hsame
    have herrno' := congrArg (Volume.errno ∘ Prod.snd) (Option.some.inj hsame)
    simp [herrno] at herrno'
  rw [SeeksCluster, h.seekCluster_eq hvalid offset]
  by_cases hin : offset >>> t.clusterOrder < (c :: cs).length
  · rw [Nat.mod_eq_of_lt (hin.trans hlength), List.getElem?_eq_getElem hin]
    exact iff_of_true rfl (.inl hin)
  · rw [@List.getElem?_eq_none _ (c :: cs) (offset >>> t.clusterOrder) (by omega)]
    rcases lt_trichotomy (offset >>> t.clusterOrder % 2 ^ 32) (c :: cs).length with hlt | heq | hgt
    · -- the number of steps wrapped around
      rw [List.getElem?_eq_getElem hlt]
      exact iff_of_false (fun hsame => hfailed _ hsame) (by omega)
    · rw [List.getElem?_eq_none heq.ge, if_pos heq]
      exact iff_of_false (fun hsame => hfailed _ hsame) (by omega)
    · rw [List.getElem?_eq_none hgt.le, if_neg hgt.ne']
      exact iff_of_true rfl (.inr hgt)

/-- A chain of two clusters of 32 bytes. -/
def chainOfTwo : Volume := smallVolume [3, fatClusterEndOfChainMax]

theorem chainOfTwo_chain : ClusterChain smallTable chainOfTwo.fatMap [2, 3] :=
  ⟨by decide, by decide, by decide⟩

theorem seeksCluster_iff_second : SeeksCluster smallTable chainOfTwo 2 [3] 32 :=
  (seeksCluster_iff chainOfTwo_chain (by decide) rfl 32).mpr (.inl (by decide))

/-- The offset behind the second cluster is no failure. -/
theorem seekCluster_end :
    ClusterChain smallTable chainOfTwo.fatMap [2, 3] ∧ chainOfTwo.errno = 0 ∧
      fatTableSeekCluster smallTable chainOfTwo 2 64 =
        some (fatClusterEndOfChainMax, chainOfTwo) ∧
      ¬ SeeksCluster smallTable chainOfTwo 2 [3] 64 := by
  refine ⟨chainOfTwo_chain, rfl, rfl, fun h => ?_⟩
  have hcluster := congrArg (Option.map Prod.fst) h
  exact absurd hcluster (by decide)

end SistOp.FatFuse
