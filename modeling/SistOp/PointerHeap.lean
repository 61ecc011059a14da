import Mathlib.Tactic

/-!
# A heap of numbered cells

Pointers of a C program are numbers of cells.  `malloc` takes the next number
that was never used, so a freed cell stays dead and every later access to it is
a fault (`none`), as is a second `free`.  The field `unused` keeps cells that
were never handed out empty.
-/

namespace SistOp

structure Heap (α : Type*) where
  cell : ℕ → Option α
  next : ℕ
  unused : ∀ a, next ≤ a → cell a = none

namespace Heap

variable {α : Type*}

def empty : Heap α where
  cell := fun _ => none
  next := 0
  unused := fun _ _ => rfl

def get (h : Heap α) (a : ℕ) : Option α := h.cell a

def alloc (h : Heap α) (x : α) : Heap α where
  cell := Function.update h.cell h.next (some x)
  next := h.next + 1
  unused := by
    intro a ha
    rw [Function.update_of_ne (by omega)]
    exact h.unused a (by omega)

theorem lt_next {h : Heap α} {a : ℕ} {x : α} (hget : h.get a = some x) :
    a < h.next := by
  by_contra hge
  have hnone := h.unused a (by omega)
  rw [get, hnone] at hget
  contradiction

/-- Distinct live cells are no more than the cells ever used. -/
theorem length_le_next {h : Heap α} {as : List ℕ} (hnodup : as.Nodup)
    (hlive : ∀ a ∈ as, ∃ x, h.get a = some x) : as.length ≤ h.next := by
  have hsubset : as.toFinset ⊆ Finset.range h.next := by
    intro a ha
    obtain ⟨x, hx⟩ := hlive a (List.mem_toFinset.mp ha)
    exact Finset.mem_range.mpr (lt_next hx)
  have hcard := Finset.card_le_card hsubset
  rwa [List.toFinset_card_of_nodup hnodup, Finset.card_range] at hcard

/-- Overwrites a live cell. -/
def write (h : Heap α) (a : ℕ) (x : α) : Option (Heap α) :=
  if ha : a < h.next then
    if (h.cell a).isSome then
      some
        { cell := Function.update h.cell a (some x)
          next := h.next
          unused := by
            intro b hb
            rw [Function.update_of_ne (by omega)]
            exact h.unused b hb }
    else none
  else none

/-- Applies `f` to a live cell. -/
def modify (h : Heap α) (a : ℕ) (f : α → α) : Option (Heap α) := do
  let x ← h.get a
  h.write a (f x)

/-- Kills a live cell. -/
def free (h : Heap α) (a : ℕ) : Option (Heap α) :=
  if (h.cell a).isSome then
    some
      { cell := Function.update h.cell a none
        next := h.next
        unused := by
          intro b hb
          by_cases hab : b = a
          · subst hab
            simp
          · rw [Function.update_of_ne hab]
            exact h.unused b hb }
  else none

@[simp] theorem get_empty (a : ℕ) : (empty : Heap α).get a = none := rfl

@[simp] theorem next_empty : (empty : Heap α).next = 0 := rfl

@[simp] theorem next_alloc (h : Heap α) (x : α) :
    (h.alloc x).next = h.next + 1 := rfl

@[simp] theorem get_next (h : Heap α) : h.get h.next = none :=
  h.unused h.next le_rfl

@[simp] theorem get_alloc_self (h : Heap α) (x : α) :
    (h.alloc x).get h.next = some x := by
  simp [get, alloc]

theorem get_alloc_of_ne (h : Heap α) (x : α) {a : ℕ} (ha : a ≠ h.next) :
    (h.alloc x).get a = h.get a := by
  simp [get, alloc, Function.update_of_ne ha]

theorem get_alloc_of_live {h : Heap α} (x : α) {a : ℕ} {y : α}
    (hget : h.get a = some y) : (h.alloc x).get a = some y := by
  rw [get_alloc_of_ne h x (ne_of_lt (lt_next hget))]
  exact hget

theorem write_eq_some {h h' : Heap α} {a : ℕ} {x : α}
    (hwrite : h.write a x = some h') :
    (∃ y, h.get a = some y) ∧ h'.next = h.next ∧ h'.get a = some x ∧
      ∀ b, b ≠ a → h'.get b = h.get b := by
  unfold write at hwrite
  split at hwrite
  · split at hwrite
    · rename_i hlive
      simp only [Option.some.injEq] at hwrite
      subst hwrite
      refine ⟨Option.isSome_iff_exists.mp hlive, rfl, ?_, ?_⟩
      · simp [get]
      · intro b hb
        simp [get, Function.update_of_ne hb]
    · contradiction
  · contradiction

theorem exists_write {h : Heap α} {a : ℕ} {y : α} (hget : h.get a = some y)
    (x : α) : ∃ h', h.write a x = some h' := by
  have hlt := lt_next hget
  have hlive : (h.cell a).isSome := by
    rw [get] at hget
    simp [hget]
  simp [write, hlt, hlive]

theorem write_same {h : Heap α} {a : ℕ} {x : α} (hget : h.get a = some x) :
    h.write a x = some h := by
  have hlt := lt_next hget
  have hcell : h.cell a = some x := hget
  have hsame : Function.update h.cell a (some x) = h.cell := by
    rw [← hcell]
    exact Function.update_eq_self a h.cell
  simp only [write, dif_pos hlt, hcell, Option.isSome_some, if_true, Option.some.injEq]
  cases h
  simpa using hsame

theorem modify_eq_some {h h' : Heap α} {a : ℕ} {f : α → α}
    (hmodify : h.modify a f = some h') :
    ∃ x, h.get a = some x ∧ h.write a (f x) = some h' := by
  simpa [modify, Option.bind_eq_some_iff] using hmodify

/-- A write that keeps a view of its cell keeps that view of every cell. -/
theorem map_get_write {β : Type*} {g : α → β} {h h' : Heap α} {a : ℕ} {x y : α}
    (hget : h.get a = some y) (hwrite : h.write a x = some h') (hsame : g x = g y) (b : ℕ) :
    (h'.get b).map g = (h.get b).map g := by
  obtain ⟨-, -, hself, hothers⟩ := write_eq_some hwrite
  by_cases hb : b = a
  · rw [hb, hself, hget, Option.map_some, Option.map_some, hsame]
  · rw [hothers b hb]

theorem map_get_modify {β : Type*} {g : α → β} {h h' : Heap α} {a : ℕ} {f : α → α}
    (hmodify : h.modify a f = some h') (hsame : ∀ x, g (f x) = g x) (b : ℕ) :
    (h'.get b).map g = (h.get b).map g := by
  obtain ⟨y, hget, hwrite⟩ := modify_eq_some hmodify
  exact map_get_write hget hwrite (hsame y) b

theorem free_eq_some {h h' : Heap α} {a : ℕ} (hfree : h.free a = some h') :
    (∃ y, h.get a = some y) ∧ h'.next = h.next ∧ h'.get a = none ∧
      ∀ b, b ≠ a → h'.get b = h.get b := by
  unfold free at hfree
  split at hfree
  · rename_i hlive
    simp only [Option.some.injEq] at hfree
    subst hfree
    refine ⟨Option.isSome_iff_exists.mp hlive, rfl, ?_, ?_⟩
    · simp [get]
    · intro b hb
      simp [get, Function.update_of_ne hb]
  · contradiction

theorem exists_free {h : Heap α} {a : ℕ} {y : α} (hget : h.get a = some y) :
    ∃ h', h.free a = some h' := by
  have hlive : (h.cell a).isSome := by
    rw [get] at hget
    simp [hget]
  simp [free, hlive]

end Heap

end SistOp
