import Mathlib.Computability.Language
import Mathlib.Tactic

/-!
# Languages of single letters

The words of one letter out of a set, repeated and followed by words of another language.
-/

namespace SistOp

open scoped Computability

variable {α : Type*} {s : Set α} {l : Language α} {a : α} {w : List α}

/-- The words of one letter of the set. -/
def letters (s : Set α) : Language α := (fun w => ∃ a ∈ s, w = [a] : Set (List α))

theorem mem_letters_mul : w ∈ letters s * l ↔ ∃ a v, w = a :: v ∧ a ∈ s ∧ v ∈ l := by
  rw [Language.mem_mul]
  constructor
  · rintro ⟨_, ⟨a, ha, rfl⟩, v, hv, rfl⟩
    exact ⟨a, v, rfl, ha, hv⟩
  · rintro ⟨a, v, rfl, ha, hv⟩
    exact ⟨[a], ⟨a, ha, rfl⟩, v, hv, rfl⟩

@[simp] theorem cons_mem_letters_mul : a :: w ∈ letters s * l ↔ a ∈ s ∧ w ∈ l := by
  simp [mem_letters_mul]

@[simp] theorem nil_notMem_letters_mul : [] ∉ letters s * l := by
  simp [mem_letters_mul]

theorem mem_kstar_letters : w ∈ (letters s)∗ ↔ ∀ a ∈ w, a ∈ s := by
  rw [Language.mem_kstar]
  constructor
  · rintro ⟨ws, rfl, hws⟩ a ha
    obtain ⟨v, hv, hav⟩ := List.mem_flatten.mp ha
    obtain ⟨b, hb, rfl⟩ := hws v hv
    exact List.mem_singleton.mp hav ▸ hb
  · intro hw
    refine ⟨w.map fun a => [a], ?_, ?_⟩
    · induction w with
      | nil => rfl
      | cons a w ih =>
          rw [List.map_cons, List.flatten_cons, ← ih fun b hb => hw b (List.mem_cons_of_mem a hb)]
          rfl
    · intro v hv
      obtain ⟨a, ha, rfl⟩ := List.mem_map.mp hv
      exact ⟨a, hw a ha, rfl⟩

theorem mem_kstar_letters_mul :
    w ∈ (letters s)∗ * l ↔ ∃ u v, w = u ++ v ∧ (∀ a ∈ u, a ∈ s) ∧ v ∈ l := by
  rw [Language.mem_mul]
  constructor
  · rintro ⟨u, hu, v, hv, rfl⟩
    exact ⟨u, v, rfl, mem_kstar_letters.mp hu, hv⟩
  · rintro ⟨u, v, rfl, hu, hv⟩
    exact ⟨u, mem_kstar_letters.mpr hu, v, hv, rfl⟩

@[simp] theorem nil_mem_kstar_letters_mul : [] ∈ (letters s)∗ * l ↔ [] ∈ l := by
  rw [mem_kstar_letters_mul]
  constructor
  · rintro ⟨u, v, huv, -, hv⟩
    obtain ⟨rfl, rfl⟩ := List.append_eq_nil_iff.mp huv.symm
    exact hv
  · exact fun h => ⟨[], [], rfl, by simp, h⟩

/-- The repetition stops here, or takes one letter more. -/
@[simp] theorem cons_mem_kstar_letters_mul :
    a :: w ∈ (letters s)∗ * l ↔ a :: w ∈ l ∨ a ∈ s ∧ w ∈ (letters s)∗ * l := by
  simp only [mem_kstar_letters_mul]
  constructor
  · rintro ⟨u, v, huv, hu, hv⟩
    cases u with
    | nil => exact .inl (huv ▸ hv)
    | cons b u =>
        obtain ⟨rfl, rfl⟩ := List.cons.inj huv
        exact .inr ⟨hu a List.mem_cons_self, u, v, rfl,
          fun b hb => hu b (List.mem_cons_of_mem a hb), hv⟩
  · rintro (hw | ⟨ha, u, v, rfl, hu, hv⟩)
    · exact ⟨[], a :: w, rfl, by simp, hw⟩
    · refine ⟨a :: u, v, rfl, fun b hb => ?_, hv⟩
      rcases List.mem_cons.mp hb with rfl | hb
      · exact ha
      · exact hu b hb

/-- A suffix of the word is in the language. -/
theorem mem_top_mul : w ∈ ⊤ * l ↔ ∃ v, v <:+ w ∧ v ∈ l := by
  rw [Language.mem_mul]
  constructor
  · rintro ⟨u, -, v, hv, rfl⟩
    exact ⟨v, List.suffix_append u v, hv⟩
  · rintro ⟨v, ⟨u, rfl⟩, hv⟩
    exact ⟨u, trivial, v, hv, rfl⟩

@[simp] theorem nil_mem_top_mul : [] ∈ ⊤ * l ↔ [] ∈ l := by
  simp [mem_top_mul]

@[simp] theorem cons_mem_top_mul : a :: w ∈ ⊤ * l ↔ a :: w ∈ l ∨ w ∈ ⊤ * l := by
  simp only [mem_top_mul, List.suffix_cons_iff]
  grind

end SistOp
