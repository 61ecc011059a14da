import Mathlib.Data.List.Basic
import Mathlib.Logic.Function.Basic

/-!
# Redo logs

Writes that are replayed over a store, and the store that a redo log stands for: what is written
is read at once and becomes durable with the next commit.
-/

namespace SistOp

variable {κ δ : Type*} [DecidableEq κ]

/-! ## Replaying writes -/

def redo (writes : List (κ × δ)) (store : κ → δ) : κ → δ :=
  writes.foldl (fun store write => Function.update store write.1 write.2) store

variable {writes : List (κ × δ)} {store store' : κ → δ} {k : κ}

@[simp] theorem redo_nil : redo [] store = store := rfl

@[simp] theorem redo_cons (write : κ × δ) :
    redo (write :: writes) store = redo writes (Function.update store write.1 write.2) := rfl

/-- The stores may differ where the writes go. -/
theorem redo_congr (h : k ∉ writes.map Prod.fst → store k = store' k) :
    redo writes store k = redo writes store' k := by
  induction writes generalizing store store' with
  | nil => exact h (by simp)
  | cons write writes ih =>
      rw [redo_cons, redo_cons]
      refine ih fun hk => ?_
      by_cases hwrite : k = write.1
      · rw [hwrite, Function.update_self, Function.update_self]
      · rw [Function.update_of_ne hwrite, Function.update_of_ne hwrite]
        exact h (by simp [hwrite, hk])

/-- A write that will be replayed can be made before. -/
theorem redo_update_of_mem {write : κ × δ} (h : write ∈ writes) (d : δ) :
    redo writes (Function.update store write.1 d) = redo writes store := by
  funext k
  refine redo_congr fun hk => Function.update_of_ne ?_ _ _
  rintro rfl
  exact hk (List.mem_map_of_mem h)

/-- When each key is written to what it is to hold, replaying gives just that. -/
theorem redo_eq_of_forall_mem {goal : κ → δ} (hwrites : ∀ write ∈ writes, write.2 = goal write.1)
    (hrest : k ∉ writes.map Prod.fst → store k = goal k) : redo writes store k = goal k := by
  induction writes generalizing store with
  | nil => exact hrest (by simp)
  | cons write writes ih =>
      rw [redo_cons]
      refine ih (fun w hw => hwrites w (List.mem_cons_of_mem _ hw)) fun hk => ?_
      by_cases hwrite : k = write.1
      · rw [hwrite, Function.update_self, hwrites write List.mem_cons_self]
      · rw [Function.update_of_ne hwrite]
        exact hrest (by simp [hwrite, hk])

/-! ## Writes that become durable together -/

structure AtomicStore (κ δ : Type*) where
  durable : κ → δ
  volatile : κ → δ

inductive StoreAct (κ δ : Type*) where
  | write (k : κ) (d : δ)
  | commit
  | crash

namespace AtomicStore

def act (store : AtomicStore κ δ) : StoreAct κ δ → AtomicStore κ δ
  | .write k d => { store with volatile := Function.update store.volatile k d }
  | .commit => { store with durable := store.volatile }
  | .crash => { store with volatile := store.durable }

def run (store : AtomicStore κ δ) (acts : List (StoreAct κ δ)) : AtomicStore κ δ :=
  acts.foldl act store

variable {store : AtomicStore κ δ} {acts acts' : List (StoreAct κ δ)}

@[simp] theorem run_nil : store.run [] = store := rfl

@[simp] theorem run_append : store.run (acts ++ acts') = (store.run acts).run acts' :=
  List.foldl_append

/-- Only a commit changes what is durable. -/
theorem durable_run (h : StoreAct.commit ∉ acts) : (store.run acts).durable = store.durable := by
  induction acts generalizing store with
  | nil => rfl
  | cons a acts ih =>
      simp only [List.mem_cons, not_or] at h
      refine (ih h.2).trans ?_
      cases a with
      | write k d => rfl
      | commit => exact absurd rfl h.1
      | crash => rfl

end AtomicStore

end SistOp
