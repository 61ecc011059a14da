import Mathlib.Tactic

/-!
# Byte stores

A store maps addresses to values.  `store m off len data` is the effect of
copying `len` values to address `off`.  The lemmas say what such a copy leaves
alone, and that two adjacent copies are one.  `WroteThrough` is the same for data
that an address map spreads over the store.
-/

namespace SistOp.ByteStore

variable {β : Type*}

/-- The store after `data 0 .. data (len - 1)` is copied to `off`. -/
def store (m : ℕ → β) (off len : ℕ) (data : ℕ → β) : ℕ → β :=
  fun a => if off ≤ a ∧ a < off + len then data (a - off) else m a

theorem store_apply (m : ℕ → β) (off len : ℕ) (data : ℕ → β) (a : ℕ) :
    store m off len data a =
      if off ≤ a ∧ a < off + len then data (a - off) else m a := rfl

@[simp] theorem store_zero (m : ℕ → β) (off : ℕ) (data : ℕ → β) :
    store m off 0 data = m := by
  funext a
  simp [store_apply]

theorem store_inside (m : ℕ → β) {off len : ℕ} (data : ℕ → β) {i : ℕ}
    (hi : i < len) : store m off len data (off + i) = data i := by
  have hin : off ≤ off + i ∧ off + i < off + len := by omega
  rw [store_apply, if_pos hin, Nat.add_sub_cancel_left]

theorem store_outside (m : ℕ → β) {off len : ℕ} (data : ℕ → β) {a : ℕ}
    (ha : a < off ∨ off + len ≤ a) : store m off len data a = m a := by
  have hout : ¬ (off ≤ a ∧ a < off + len) := by omega
  rw [store_apply, if_neg hout]

/-- An address where the store changed lies in the copied range. -/
theorem mem_range_of_store_ne {m : ℕ → β} {off len : ℕ} {data : ℕ → β} {a : ℕ}
    (hne : store m off len data a ≠ m a) : off ≤ a ∧ a < off + len := by
  by_contra hout
  exact hne (if_neg hout)

theorem store_store_adjacent (m : ℕ → β) (off k len : ℕ) (data : ℕ → β) :
    store (store m off k data) (off + k) len (fun i => data (k + i)) =
      store m off (k + len) data := by
  funext a
  simp only [store_apply]
  by_cases hlow : off + k ≤ a
  · by_cases hhigh : a < off + k + len
    · rw [if_pos ⟨hlow, hhigh⟩, if_pos (by omega)]
      congr 1
      omega
    · rw [if_neg (by omega), if_neg (by omega), if_neg (by omega)]
  · by_cases hin : off ≤ a ∧ a < off + k
    · rw [if_neg (by omega), if_pos hin, if_pos (by omega)]
    · rw [if_neg (by omega), if_neg hin, if_neg (by omega)]

/-- From address `lo` on, `m'` is `m` after `data 0 .. data (len - 1)` was written
to `addr off .. addr (off + len - 1)`. -/
structure WroteThrough (addr : ℕ → ℕ) (off len : ℕ) (data : ℕ → β) (lo : ℕ)
    (m m' : ℕ → β) : Prop where
  inside : ∀ j < len, m' (addr (off + j)) = data j
  outside : ∀ a, lo ≤ a → (∀ j < len, a ≠ addr (off + j)) → m' a = m a

namespace WroteThrough

variable {addr : ℕ → ℕ} {off len lo : ℕ} {data : ℕ → β} {m m' m'' : ℕ → β}

theorem of_eq (hsame : ∀ a, lo ≤ a → m' a = m a) :
    WroteThrough addr off 0 data lo m m' where
  inside := fun _ hj => absurd hj (by omega)
  outside := fun a ha _ => hsame a ha

/-- A copy to a range that the map sends to consecutive addresses. -/
theorem of_store (hrange : ∀ j < len, addr (off + j) = addr off + j) :
    WroteThrough addr off len data lo m (store m (addr off) len data) where
  inside := by
    intro j hj
    rw [hrange j hj, store_inside m data hj]
  outside := by
    intro a _ hne
    by_contra hchanged
    obtain ⟨hlow, hhigh⟩ := mem_range_of_store_ne hchanged
    apply hne (a - addr off) (by omega)
    rw [hrange _ (by omega)]
    omega

theorem congr_addr {addr' : ℕ → ℕ} (h : WroteThrough addr off len data lo m m')
    (haddr : ∀ j < len, addr' (off + j) = addr (off + j)) :
    WroteThrough addr' off len data lo m m' where
  inside := by
    intro j hj
    rw [haddr j hj]
    exact h.inside j hj
  outside := by
    intro a ha hne
    apply h.outside a ha
    intro j hj
    rw [← haddr j hj]
    exact hne j hj

theorem trans_same (h : WroteThrough addr off len data lo m m')
    (hlo : ∀ j < len, lo ≤ addr (off + j)) (hsame : ∀ a, lo ≤ a → m'' a = m' a) :
    WroteThrough addr off len data lo m m'' where
  inside := by
    intro j hj
    rw [hsame _ (hlo j hj)]
    exact h.inside j hj
  outside := by
    intro a ha hne
    rw [hsame a ha]
    exact h.outside a ha hne

/-- Writing the next range after the first one writes both. -/
theorem append {k : ℕ} (h : WroteThrough addr off k data lo m m')
    (h' : WroteThrough addr (off + k) len (fun i => data (k + i)) lo m' m'')
    (hlo : ∀ i < k, lo ≤ addr (off + i))
    (hdisjoint : ∀ i < k, ∀ j < len, addr (off + i) ≠ addr (off + k + j)) :
    WroteThrough addr off (k + len) data lo m m'' where
  inside := by
    intro j hj
    by_cases hfirst : j < k
    · rw [h'.outside _ (hlo j hfirst) (hdisjoint j hfirst)]
      exact h.inside j hfirst
    · have hsecond := h'.inside (j - k) (by omega)
      rwa [show off + k + (j - k) = off + j by omega,
        show k + (j - k) = j by omega] at hsecond
  outside := by
    intro a ha hne
    rw [h'.outside a ha, h.outside a ha]
    · intro j hj
      exact hne j (by omega)
    · intro j hj
      rw [Nat.add_assoc]
      exact hne (k + j) (by omega)

end WroteThrough

end SistOp.ByteStore
