import Mathlib.Logic.Relation

/-!
# Transition systems

States that a system reaches from a start, and the induction rule for its invariants.
-/

namespace SistOp

universe u

structure TransitionSystem (σ : Type u) where
  start : σ → Prop
  step : σ → σ → Prop

namespace TransitionSystem

variable {σ : Type u} {system : TransitionSystem σ} {s t : σ}

def Reachable (system : TransitionSystem σ) (s : σ) : Prop :=
  ∃ s₀, system.start s₀ ∧ Relation.ReflTransGen system.step s₀ s

theorem Reachable.of_start (h : system.start s) : system.Reachable s :=
  ⟨s, h, .refl⟩

theorem Reachable.tail (hs : system.Reachable s) (hstep : system.step s t) :
    system.Reachable t := by
  obtain ⟨s₀, hstart, hsteps⟩ := hs
  exact ⟨s₀, hstart, hsteps.tail hstep⟩

/-- A property of the starts that every step keeps holds in every reachable state. -/
theorem Reachable.invariant {property : σ → Prop}
    (hstart : ∀ s, system.start s → property s)
    (hstep : ∀ s t, property s → system.step s t → property t)
    (hs : system.Reachable s) : property s := by
  obtain ⟨s₀, hs₀, hsteps⟩ := hs
  induction hsteps with
  | refl => exact hstart s₀ hs₀
  | tail _ h ih => exact hstep _ _ ih h

end TransitionSystem

/-! ## Runs with events -/

variable {σ ε : Type*} {step step' : σ → ε → σ → Prop} {s t u : σ} {l l' : List (ε × σ)}

/-- A run from `s` to `t`, with the event of each step and the state behind it. -/
inductive Runs (step : σ → ε → σ → Prop) (s : σ) : List (ε × σ) → σ → Prop where
  | nil : Runs step s [] s
  | snoc {l : List (ε × σ)} {t u : σ} {e : ε} (h : Runs step s l t) (hstep : step t e u) :
      Runs step s (l ++ [(e, u)]) u

namespace Runs

/-- What every step keeps holds at the end of a run. -/
theorem invariant {property : σ → Prop} (h : Runs step s l t) (hs : property s)
    (hstep : ∀ t e u, property t → step t e u → property u) : property t := by
  induction h with
  | nil => exact hs
  | snoc _ h ih => exact hstep _ _ _ ih h

theorem invariant_mem {property : σ → Prop} (h : Runs step s l t) (hs : property s)
    (hstep : ∀ t e u, property t → step t e u → property u) : ∀ x ∈ l, property x.2 := by
  induction h with
  | nil => simp
  | snoc h hlast ih =>
      rw [List.forall_mem_append, List.forall_mem_singleton]
      exact ⟨ih, hstep _ _ _ (h.invariant hs hstep) hlast⟩

/-- A run of one system is a run of another when every step is, in the states that an
invariant admits. -/
theorem mono_of_invariant {property : σ → Prop} (h : Runs step s l t) (hs : property s)
    (hinv : ∀ t e u, property t → step t e u → property u)
    (hsub : ∀ t e u, property t → step t e u → step' t e u) : Runs step' s l t := by
  induction h with
  | nil => exact .nil
  | snoc h hstep ih => exact ih.snoc (hsub _ _ _ (h.invariant hs hinv) hstep)

theorem mono (h : Runs step s l t) (hsub : ∀ t e u, step t e u → step' t e u) :
    Runs step' s l t :=
  h.mono_of_invariant trivial (fun _ _ _ _ _ => trivial) fun t e u _ => hsub t e u

/-- Conditions on the steps that agree in every state of the system admit the same runs. -/
theorem restricted_congr {property : σ → Prop} {cond cond' : σ → ε → σ → Prop}
    (hs : property s) (hinv : ∀ t e u, property t → step t e u → property u)
    (hiff : ∀ t e u, property t → step t e u → (cond t e u ↔ cond' t e u)) :
    Runs (fun t e u => step t e u ∧ cond t e u) s l t ↔
      Runs (fun t e u => step t e u ∧ cond' t e u) s l t := by
  have hkept : ∀ {c : σ → ε → σ → Prop} t e u, property t → step t e u ∧ c t e u →
      property u := fun t e u ht h => hinv t e u ht h.1
  constructor
  · intro h
    exact h.mono_of_invariant hs hkept fun t e u ht h =>
      ⟨h.1, (hiff t e u ht h.1).mp h.2⟩
  · intro h
    exact h.mono_of_invariant hs hkept fun t e u ht h =>
      ⟨h.1, (hiff t e u ht h.1).mpr h.2⟩

/-- What the step of each event admits. -/
theorem forall_event {property : ε → Prop} (h : Runs step s l t)
    (hstep : ∀ t e u, step t e u → property e) : ∀ x ∈ l, property x.1 := by
  induction h with
  | nil => simp
  | snoc _ hlast ih =>
      rw [List.forall_mem_append, List.forall_mem_singleton]
      exact ⟨ih, hstep _ _ _ hlast⟩

theorem trans (h : Runs step s l t) (h' : Runs step t l' u) : Runs step s (l ++ l') u := by
  induction h' with
  | nil => rwa [List.append_nil]
  | snoc _ hstep ih =>
      rw [← List.append_assoc]
      exact ih.snoc hstep

theorem cons {e : ε} (hstep : step s e t) (h : Runs step t l u) :
    Runs step s ((e, t) :: l) u :=
  (Runs.nil.snoc hstep).trans h

theorem end_eq (h : Runs step s l t) : t = (l.getLast?.map Prod.snd).getD s := by
  cases h with
  | nil => rfl
  | snoc _ _ => simp

theorem snoc_iff {e : ε} {v : σ} :
    Runs step s (l ++ [(e, v)]) u ↔ v = u ∧ ∃ t, Runs step s l t ∧ step t e u := by
  constructor
  · intro h
    generalize hl : l ++ [(e, v)] = l₁ at h
    cases h with
    | nil => simp at hl
    | snoc h hstep =>
        obtain ⟨rfl, hx⟩ := List.append_inj' hl rfl
        obtain ⟨rfl, rfl⟩ := Prod.mk.inj (List.cons.inj hx).1
        exact ⟨rfl, _, h, hstep⟩
  · rintro ⟨rfl, t, h, hstep⟩
    exact h.snoc hstep

/-- The last step of a run under a condition on the steps. -/
theorem restricted_snoc_iff {cond : σ → ε → σ → Prop} {e : ε} (h : Runs step s l t)
    (hlast : step t e u) :
    Runs (fun t e u => step t e u ∧ cond t e u) s (l ++ [(e, u)]) u ↔
      Runs (fun t e u => step t e u ∧ cond t e u) s l t ∧ cond t e u := by
  constructor
  · intro hrun
    obtain ⟨-, t', hfront, -, hcond⟩ := snoc_iff.mp hrun
    obtain rfl : t = t' := h.end_eq.trans hfront.end_eq.symm
    exact ⟨hfront, hcond⟩
  · rintro ⟨hfront, hcond⟩
    exact hfront.snoc ⟨hlast, hcond⟩

/-- Where a step keeps a property exactly under its condition, a run meets the conditions if and
only if the property holds in each of its states. -/
theorem restricted_iff {inv property : σ → Prop} {cond : σ → ε → Prop} (h : Runs step s l t)
    (hs : inv s ∧ property s) (hinv : ∀ t e u, inv t → step t e u → inv u)
    (hstep : ∀ t e u, inv t → property t → step t e u → (property u ↔ cond t e)) :
    Runs (fun t e u => step t e u ∧ cond t e) s l t ↔ ∀ x ∈ l, property x.2 := by
  induction h with
  | nil => simp [Runs.nil]
  | @snoc l t u e h hlast ih =>
      have hinvt : inv t := h.invariant hs.1 hinv
      have hprop : (∀ x ∈ l, property x.2) → property t := by
        intro hall
        cases h with
        | nil => exact hs.2
        | snoc _ _ => exact hall _ (List.mem_append_right _ List.mem_cons_self)
      rw [List.forall_mem_append, List.forall_mem_singleton, restricted_snoc_iff h hlast, ih]
      exact and_congr_right fun hall => (hstep t e u hinvt (hprop hall) hlast).symm

end Runs

/-! ## Runs that are computed -/

/-- The run of a list of actions, when each of them is possible in its turn. -/
def trace {α : Type*} (act : σ → α → Option (ε × σ)) :
    List α → σ → Option (List (ε × σ) × σ)
  | [], s => some ([], s)
  | a :: actions, s =>
      (act s a).bind fun x => (trace act actions x.2).map fun y => (x :: y.1, y.2)

theorem Runs.of_trace {α : Type*} {act : σ → α → Option (ε × σ)}
    (hact : ∀ s a e t, act s a = some (e, t) → step s e t) {actions : List α}
    (h : trace act actions s = some (l, t)) : Runs step s l t := by
  induction actions generalizing s l with
  | nil =>
      cases h
      exact .nil
  | cons a actions ih =>
      simp only [trace, Option.bind_eq_some_iff, Option.map_eq_some_iff] at h
      obtain ⟨⟨e, u⟩, hstep, ⟨l', t'⟩, hrest, hl⟩ := h
      cases hl
      exact .cons (hact s a e u hstep) (ih hrest)

/-- A run with a property that can be computed. -/
theorem Runs.exists_of_trace {α : Type*} {act : σ → α → Option (ε × σ)}
    (hact : ∀ s a e t, act s a = some (e, t) → step s e t) {actions : List α}
    {property : List (ε × σ) × σ → Bool} (h : (trace act actions s).any property = true) :
    ∃ l t, Runs step s l t ∧ property (l, t) = true := by
  cases hrun : trace act actions s with
  | none => simp [hrun] at h
  | some x => exact ⟨x.1, x.2, .of_trace hact hrun, by simpa [hrun] using h⟩

/-- A run that is computed from its events, which determine the steps. -/
theorem Runs.exists_of_events (act : σ → ε → Option σ) (s : σ) (events : List ε)
    (property : σ → Bool)
    (h : (trace (fun s e => (act s e).map (Prod.mk e)) events s).any
      (fun run => property run.2) = true) :
    ∃ l t, Runs (fun s e t => act s e = some t) s l t ∧ property t = true := by
  refine Runs.exists_of_trace (fun s e e' t hact => ?_) h
  simp only [Option.map_eq_some_iff, Prod.mk.injEq] at hact
  obtain ⟨t, hstep, rfl, rfl⟩ := hact
  exact hstep

/-- The same where each event has to meet a condition. -/
theorem Runs.exists_of_events_if (act : σ → ε → Option σ) (cond : σ → ε → Bool) (s : σ)
    (events : List ε) (property : σ → Bool)
    (h : (trace (fun s e => (if cond s e then act s e else none).map (Prod.mk e)) events s).any
      (fun run => property run.2) = true) :
    ∃ l t, Runs (fun s e t => act s e = some t ∧ cond s e = true) s l t ∧ property t = true := by
  obtain ⟨l, t, hrun, hproperty⟩ := Runs.exists_of_events _ s events property h
  refine ⟨l, t, hrun.mono fun s e t hstep => ?_, hproperty⟩
  rw [Option.ite_none_right_eq_some] at hstep
  exact hstep.symm

end SistOp
