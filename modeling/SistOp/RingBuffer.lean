import Mathlib.Data.BitVec
import Mathlib.Data.List.Range
import Mathlib.Tactic

/-!
# Ring buffers

A buffer of `size` cells between two counters of `w` bits that only ever count up, and round:
when `size` divides `2 ^ w`, nothing is seen of the counters going past their largest value.
-/

namespace SistOp

variable {α : Type*} {w : ℕ}

/-- The cell at which a counter stands. -/
def cell (size : ℕ) (i : BitVec w) : ℕ := i.toNat % size

/-- How many steps a counter has to go to meet another. -/
def gap (i j : BitVec w) : ℕ := (j - i).toNat

/-- What is in the cells from one counter to another. -/
def segment (size : ℕ) (data : ℕ → α) (i j : BitVec w) : List α :=
  (List.range (gap i j)).map fun k => data ((i.toNat + k) % size)

section Gap

variable {i j k : BitVec w}

@[simp] theorem gap_self : gap i i = 0 := by simp [gap]

theorem gap_eq_zero : gap i j = 0 ↔ i = j := by
  constructor
  · intro h
    have hsub : j - i = 0 := BitVec.eq_of_toNat_eq (by simpa [gap] using h)
    exact (sub_eq_zero.mp hsub).symm
  · rintro rfl
    exact gap_self

theorem gap_lt : gap i j < 2 ^ w := BitVec.isLt _

theorem toNat_add_one (h : i.toNat + 1 < 2 ^ w) : (i + 1).toNat = i.toNat + 1 := by
  have hone : (1 : BitVec w).toNat = 1 := by
    refine (BitVec.toNat_ofNat 1 w).trans (Nat.mod_eq_of_lt ?_)
    omega
  rw [BitVec.toNat_add, hone, Nat.mod_eq_of_lt h]

theorem gap_add_one (h : gap i j + 1 < 2 ^ w) : gap i (j + 1) = gap i j + 1 := by
  have hsub : j + 1 - i = j - i + 1 := by ring
  rw [gap, hsub, toNat_add_one h]
  rfl

theorem gap_sub_one (h : i ≠ j) : gap i (j - 1) + 1 = gap i j := by
  have hback : j - 1 + 1 = j := by ring
  by_cases hround : gap i (j - 1) + 1 < 2 ^ w
  · rw [← gap_add_one hround, hback]
  · -- the counter would have gone all the way round
    have hlt : gap i (j - 1) < 2 ^ w := gap_lt
    have hsub : j - i = j - 1 - i + BitVec.ofNat w 1 := by
      change j - i = j - 1 - i + 1
      ring
    refine absurd (gap_eq_zero.mp ?_) h
    rw [gap, hsub, BitVec.toNat_add, BitVec.toNat_ofNat, Nat.add_mod_mod]
    rw [gap] at hlt hround
    rw [show (j - 1 - i).toNat + 1 = 2 ^ w by omega, Nat.mod_self]

theorem gap_add_one_left (h : i ≠ j) : gap (i + 1) j + 1 = gap i j := by
  have hsub : j - (i + 1) = j - 1 - i := by ring
  rw [gap, hsub]
  exact gap_sub_one h

/-- Two ways in a row, when they do not go round. -/
theorem gap_add (h : gap i j + gap j k < 2 ^ w) : gap i k = gap i j + gap j k := by
  have hsub : k - i = j - i + (k - j) := by ring
  rw [gap, hsub, BitVec.toNat_add]
  exact Nat.mod_eq_of_lt h

/-- The counter that is `size` steps ahead. -/
theorem gap_eq_iff {size : ℕ} (h : size < 2 ^ w) :
    gap i j = size ↔ j = i + BitVec.ofNat w size := by
  constructor
  · intro hgap
    have hsub : j - i = BitVec.ofNat w size := by
      refine BitVec.eq_of_toNat_eq ?_
      rw [BitVec.toNat_ofNat, Nat.mod_eq_of_lt h]
      exact hgap
    rw [← hsub]
    ring
  · rintro rfl
    have hsub : i + BitVec.ofNat w size - i = BitVec.ofNat w size := by ring
    rw [gap, hsub, BitVec.toNat_ofNat, Nat.mod_eq_of_lt h]

end Gap

section Segment

variable {size : ℕ} {data : ℕ → α} {i j k : BitVec w} {x : α}

@[simp] theorem length_segment : (segment size data i j).length = gap i j := by simp [segment]

@[simp] theorem segment_self : segment size data i i = [] := by simp [segment]

theorem cell_add_gap (hsize : size ∣ 2 ^ w) : (i.toNat + gap i j) % size = cell size j := by
  have hj : j = i + (j - i) := by ring
  have hnat := congrArg BitVec.toNat hj
  rw [BitVec.toNat_add] at hnat
  rw [cell, hnat, Nat.mod_mod_of_dvd _ hsize]
  rfl

/-- A cell is filled at the far end. -/
theorem segment_push (hsize : size ∣ 2 ^ w) (h : gap i j < size) (hw : gap i j + 1 < 2 ^ w) :
    segment size (Function.update data (cell size j) x) i (j + 1) =
      segment size data i j ++ [x] := by
  rw [segment, gap_add_one hw, List.range_succ, List.map_append, segment]
  congr 1
  · apply List.map_congr_left
    intro m hm
    rw [List.mem_range] at hm
    rw [← cell_add_gap (i := i) hsize]
    refine Function.update_of_ne (fun heq => hm.ne ?_) _ _
    exact (Nat.ModEq.add_left_cancel' _ heq).eq_of_lt_of_lt (hm.trans h) h
  · simp [cell_add_gap hsize]

/-- A cell is emptied at the near end. -/
theorem segment_pop (hsize : size ∣ 2 ^ w) (h : i ≠ j) :
    segment size data i j = data (cell size i) :: segment size data (i + 1) j := by
  have hshift : ∀ m, ((i + 1).toNat + m) % size = (i.toNat + (m + 1)) % size := by
    intro m
    have hone : i + 1 = i + BitVec.ofNat w 1 := rfl
    rw [hone, BitVec.toNat_add, BitVec.toNat_ofNat, Nat.add_mod_mod, Nat.add_mod,
      Nat.mod_mod_of_dvd _ hsize, ← Nat.add_mod]
    congr 1
    omega
  rw [segment, ← gap_add_one_left h, List.range_succ_eq_map, List.map_cons, List.map_map, segment]
  simp only [hshift, Nat.add_zero]
  rfl

/-- The cell at the far end is taken back. -/
theorem segment_unpush (hsize : size ∣ 2 ^ w) (h : i ≠ j) :
    segment size data i j = segment size data i (j - 1) ++ [data (cell size (j - 1))] := by
  rw [segment, ← gap_sub_one h, List.range_succ, List.map_append, segment]
  simp [cell_add_gap hsize]

theorem segment_append (hsize : size ∣ 2 ^ w) (h : gap i j + gap j k < 2 ^ w) :
    segment size data i k = segment size data i j ++ segment size data j k := by
  rw [segment, gap_add h, List.range_add, List.map_append, List.map_map]
  congr 1
  apply List.map_congr_left
  intro m _
  rw [Function.comp_apply, ← Nat.add_assoc, Nat.add_mod, cell_add_gap hsize, cell]
  simp

end Segment

end SistOp
