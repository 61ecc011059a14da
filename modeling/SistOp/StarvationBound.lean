import SistOp.SchedulerActions
import Mathlib.Tactic

/-!
# No process starves

The README says that processes of low priority can starve.  On one CPU they do not: the scan
of an outer iteration passes every level, and a process that a boost moves behind the scan is
at the top when the next iteration begins.
-/

namespace SistOp.Mlfq

/-! ## Levels -/

section Levels

variable {n nprio : ℕ} {κ : Type} {s t : Machine n κ} {c : κ} {e : Event n}

/-- Every priority is a level, and so is what a scheduler is going to store. -/
structure Levels (nprio : ℕ) (s : Machine n κ) : Prop where
  proc : ∀ k, (s.proc k).priority < nprio
  store : ∀ c i j x, s.cpu c = .store i j (some x) → x < nprio

theorem SlotStep.level {k : Fin n} {p : Proc n} (h : SlotStep c s e k p)
    (hlevels : Levels nprio s) : p.priority < nprio := by
  have hk := hlevels.proc k
  have htop : 0 < nprio := by omega
  cases h with
  | keeps h _ =>
      rw [h.priority]
      exact hk
  | freed => exact htop
  | dispatched => exact hk
  | left how => simpa using hk
  | @updated i priority _ hcpu =>
      cases priority with
      | none => exact hk
      | some x => exact hlevels.store c i k x hcpu
  | boosted => exact htop

theorem Levels.boot (hnprio : 1 ≤ nprio) (initproc : Fin n) :
    Levels nprio (boot κ initproc) where
  proc k := by
    by_cases hk : k = initproc
    · subst hk
      simp only [Mlfq.boot, Function.update_self, Proc.found, emptyProc]
      omega
    · simp only [Mlfq.boot, Function.update_of_ne hk, emptyProc]
      omega
  store c i j x hcpu := by simp [Mlfq.boot] at hcpu

variable [DecidableEq κ]

theorem Levels.step (h : Levels nprio s) (hstep : Step nprio s e t) : Levels nprio t := by
  obtain ⟨c, hc⟩ := hstep
  refine ⟨fun k => (hc.slot k).level h, fun c' i j x hcpu => ?_⟩
  by_cases hc' : c' = c
  · subst hc'
    rcases hc.stored hcpu with hcpu | ⟨-, hx⟩
    · exact h.store c' i j x hcpu
    · exact Proc.newPriority_lt (h.proc j) hx.symm
  · rw [hc.otherCpu hc'] at hcpu
    exact h.store c' i j x hcpu

theorem Reachable.levels (hnprio : 1 ≤ nprio) (h : Reachable nprio s) : Levels nprio s := by
  obtain ⟨initproc, l, hrun⟩ := h
  exact hrun.invariant (Levels.boot hnprio initproc) fun _ _ _ hs hstep => hs.step hstep

end Levels

/-! ## A process that waits -/

variable {n nprio : ℕ} {s t : Machine n Unit} {e : Event n} {p : Fin n}

structure Waits (p : Fin n) (s : Machine n Unit) : Prop where
  runnable : (s.proc p).state = .runnable
  notCurrent : (s.cpu ()).current ≠ some p

/-- The scan has still to come by a slot of a priority. -/
def Cpu.Before (p : Fin n) (priority : ℕ) : Cpu n → Prop
  | .scan i j => i < priority ∨ i = priority ∧ j ≤ p
  | .test i j => i < priority ∨ i = priority ∧ j ≤ p
  | .enter i j | .run i j | .back i j | .store i j _ => i < priority ∨ i = priority ∧ j < p
  | .boost i j => 0 < i ∧ i ≤ priority ∧ j ≤ p

theorem SlotStep.waits {q : Proc n} (h : SlotStep () s e p q) (hw : Waits p s)
    (hnot : ∀ i, e ≠ .dispatch p i) :
    q.state = .runnable ∧ (q.priority = (s.proc p).priority ∨ q.priority = 0) := by
  cases h with
  | keeps h _ =>
      refine ⟨?_, Or.inl h.priority⟩
      rw [h.state_kept (Or.inr hw.runnable), hw.runnable]
  | freed hstate _ => simp [hw.runnable] at hstate
  | dispatched he => exact absurd he (hnot _)
  | left how _ hcpu _ => exact absurd (by rw [hcpu]; rfl) hw.notCurrent
  | updated _ hcpu => exact absurd (by rw [hcpu]; rfl) hw.notCurrent
  | boosted => exact ⟨hw.runnable, Or.inr rfl⟩

/-- A process waits, and keeps its priority or goes to the top, until it is dispatched. -/
theorem Waits.step (h : Waits p s) (hstep : CpuStep nprio () s e t)
    (hnot : ∀ i, e ≠ .dispatch p i) :
    Waits p t ∧ ((t.proc p).priority = (s.proc p).priority ∨ (t.proc p).priority = 0) := by
  obtain ⟨hrunnable, hpriority⟩ := (hstep.slot p).waits h hnot
  refine ⟨⟨hrunnable, fun hcur => ?_⟩, hpriority⟩
  rcases hstep.current hcur with hcur | ⟨i, he, -⟩
  · exact h.notCurrent hcur
  · exact hnot i he

/-- While the scan has still to come by a process that waits, the outer iteration goes on;
only a boost takes the process from behind the scan. -/
theorem Waits.ahead (h : Waits p s) (hlevel : (s.proc p).priority < nprio)
    (hbefore : (s.cpu ()).Before p (s.proc p).priority) (hstep : CpuStep nprio () s e t)
    (hnot : ∀ i, e ≠ .dispatch p i) :
    e ≠ .round ∧ ((t.cpu ()).Before p (s.proc p).priority ∨
      0 < (s.proc p).priority ∧ (t.proc p).priority = 0) := by
  have hp := p.isLt
  cases hstep with
  | acquire hcpu hj hfree =>
      rw [hcpu] at hbefore
      refine ⟨by simp, Or.inl ?_⟩
      simpa [Cpu.Before, Fin.le_def] using hbefore
  | @skip i j hcpu hother =>
      rw [hcpu] at hbefore
      refine ⟨by simp, Or.inl ?_⟩
      have hne : i = (s.proc p).priority → j ≠ p := by
        rintro hi rfl
        exact hother ⟨h.runnable, hi.symm⟩
      simp only [Cpu.Before] at hbefore
      simp only [Machine.goto_cpu, Function.update_self, Cpu.Before]
      rcases hbefore with hlt | ⟨hi, hj⟩
      · exact Or.inl hlt
      · have hjp := hne hi
        refine Or.inr ⟨hi, ?_⟩
        have : (j : ℕ) ≠ p := fun h => hjp (Fin.ext h)
        have : (j : ℕ) ≤ p := hj
        omega
  | @dispatch i j hcpu hrunnable hlevel =>
      rw [hcpu] at hbefore
      refine ⟨by simp, Or.inl ?_⟩
      have hne : j ≠ p := by
        rintro rfl
        exact hnot i rfl
      simp only [Cpu.Before] at hbefore
      simp only [Machine.goto_cpu, Function.update_self, Cpu.Before]
      rcases hbefore with hlt | ⟨hi, hj⟩
      · exact Or.inl hlt
      · exact Or.inr ⟨hi, lt_of_le_of_ne hj hne⟩
  | enter hcpu =>
      rw [hcpu] at hbefore
      exact ⟨by simp, Or.inl (by simpa [Cpu.Before] using hbefore)⟩
  | kernel hcpu hfree hsection =>
      refine ⟨?_, Or.inl hbefore⟩
      rcases hsection.event with he | he | he <;> simp [he]
  | parent => exact ⟨by simp, Or.inl hbefore⟩
  | interrupt hcpu hfree hsection => exact ⟨by simp [hsection.event], Or.inl hbefore⟩
  | leave how hcpu =>
      rw [hcpu] at hbefore
      exact ⟨by simp, Or.inl (by simpa [Cpu.Before] using hbefore)⟩
  | update hcpu =>
      rw [hcpu] at hbefore
      exact ⟨by simp, Or.inl (by simpa [Cpu.Before] using hbefore)⟩
  | @store i j priority hcpu =>
      rw [hcpu] at hbefore
      refine ⟨by simp, Or.inl ?_⟩
      simp only [Cpu.Before] at hbefore
      simp only [Machine.goto_cpu, Function.update_self, Cpu.Before]
      rcases hbefore with hlt | ⟨hi, hj⟩
      · exact Or.inl hlt
      · exact Or.inr ⟨hi, hj⟩
  | @level i ticks hcpu _ =>
      rw [hcpu] at hbefore
      simp only [Cpu.Before] at hbefore
      have hnext : i + 1 < nprio := by omega
      simp only [whileTest, if_pos hnext, Machine.goto_cpu, Function.update_self, Cpu.Before]
      exact ⟨by simp, Or.inl (by omega)⟩
  | @levelBoost i ticks hcpu _ =>
      rw [hcpu] at hbefore
      simp only [Cpu.Before] at hbefore
      refine ⟨by simp, Or.inl ?_⟩
      simp only [Machine.goto_cpu, Function.update_self, Cpu.Before]
      omega
  | @boost i j hcpu hj =>
      rw [hcpu] at hbefore
      simp only [Cpu.Before] at hbefore
      refine ⟨by simp, ?_⟩
      by_cases hjp : j = p
      · have hslot : (⟨j, hj⟩ : Fin n) = p := Fin.ext hjp
        refine Or.inr ⟨by omega, ?_⟩
        simp [hslot]
      · refine Or.inl ?_
        simp only [Machine.goto_cpu, Function.update_self, Cpu.Before]
        omega
  | @boosted i hcpu =>
      rw [hcpu] at hbefore
      simp only [Cpu.Before] at hbefore
      omega

/-! ## Two outer iterations -/

/-- How far a process that waits has come, with the outer iterations that have ended. -/
def Coming (p : Fin n) (s : Machine n Unit) (rounds : ℕ) : Prop :=
  rounds = 0 ∧ ((s.proc p).priority = 0 ∨ (s.cpu ()).Before p (s.proc p).priority) ∨
    rounds = 1 ∧ (s.proc p).priority = 0 ∧ (s.cpu ()).Before p 0

theorem CpuStep.round (h : CpuStep nprio () s e t) (he : e = .round) :
    t.cpu () = .scan 0 0 := by
  cases h with
  | level =>
      unfold whileTest at he ⊢
      split at he <;> simp at he
      simp [*]
  | boosted =>
      unfold whileTest at he ⊢
      split at he <;> simp at he
      simp [*]
  | kernel hcpu hfree hsection =>
      rcases hsection.event with h | h | h <;> simp [h] at he
  | interrupt hcpu hfree hsection => simp [hsection.event] at he
  | _ => simp at he

theorem Coming.step {rounds : ℕ} (h : Coming p s rounds) (hw : Waits p s)
    (hlevel : (s.proc p).priority < nprio) (hstep : CpuStep nprio () s e t)
    (hnot : ∀ i, e ≠ .dispatch p i) :
    Coming p t (rounds + if e = .round then 1 else 0) := by
  have hpriority := (hw.step hstep hnot).2
  rcases h with ⟨rfl, htop | hbefore⟩ | ⟨rfl, htop, hbefore⟩
  · -- at the top, behind the scan perhaps
    have htop' : (t.proc p).priority = 0 := by
      rcases hpriority with h | h
      · rw [h, htop]
      · exact h
    by_cases he : e = .round
    · rw [if_pos he]
      refine Or.inr ⟨rfl, htop', ?_⟩
      rw [hstep.round he]
      exact Or.inr ⟨rfl, Nat.zero_le _⟩
    · rw [if_neg he]
      exact Or.inl ⟨rfl, Or.inl htop'⟩
  · obtain ⟨he, hnext⟩ := hw.ahead hlevel hbefore hstep hnot
    rw [if_neg he]
    refine Or.inl ⟨rfl, ?_⟩
    rcases hpriority with hkept | htop'
    · rcases hnext with hnext | ⟨-, htop'⟩
      · rw [hkept]
        exact Or.inr hnext
      · exact Or.inl htop'
    · exact Or.inl htop'
  · -- the scan has to come by before this iteration ends
    obtain ⟨he, hnext⟩ := hw.ahead hlevel (by rwa [htop]) hstep hnot
    rw [if_neg he]
    refine Or.inr ⟨rfl, ?_, ?_⟩
    · rcases hpriority with h | h
      · rw [h, htop]
      · exact h
    · rcases hnext with hnext | ⟨hpos, -⟩
      · rwa [htop] at hnext
      · omega

theorem Waits.run (hnprio : 1 ≤ nprio) (h : Reachable nprio s) (hw : Waits p s)
    (hcpu : s.cpu () = .scan 0 0) {l : List (Event n × Machine n Unit)}
    (hrun : Runs (Step nprio) s l t) (hnot : ∀ i, .dispatch p i ∉ l.map Prod.fst) :
    Waits p t ∧ Coming p t ((l.map Prod.fst).count .round) := by
  induction hrun with
  | nil =>
      refine ⟨hw, Or.inl ⟨rfl, Or.inr ?_⟩⟩
      rw [hcpu]
      simp only [Cpu.Before]
      omega
  | @snoc l t u e hrun hstep ih =>
      simp only [List.map_append, List.map_cons, List.map_nil, List.mem_append, not_or,
        List.mem_singleton] at hnot
      obtain ⟨hwt, hcoming⟩ := ih fun i => (hnot i).1
      have hstep' : CpuStep nprio () t e u := by
        obtain ⟨c, hc⟩ := hstep
        exact hc
      have hnot' : ∀ i, e ≠ .dispatch p i := fun i he => (hnot i).2 he.symm
      have hlevel := ((h.runs hrun).levels hnprio).proc p
      refine ⟨(hwt.step hstep' hnot').1, ?_⟩
      simpa [List.count_append, List.count_singleton] using
        hcoming.step hwt hlevel hstep' hnot'

/-- A process that is runnable when an outer iteration begins is dispatched before the next
one ends. -/
theorem Reachable.dispatched_in_two_rounds (hnprio : 1 ≤ nprio) (h : Reachable nprio s)
    (hcpu : s.cpu () = .scan 0 0) (hrunnable : (s.proc p).state = .runnable)
    {l : List (Event n × Machine n Unit)} (hrun : Runs (Step nprio) s l t)
    (hrounds : 2 ≤ (l.map Prod.fst).count .round) :
    ∃ i, .dispatch p i ∈ l.map Prod.fst := by
  by_contra hnot
  have hw : Waits p s := ⟨hrunnable, by simp [hcpu, Cpu.current]⟩
  have hcoming := (hw.run hnprio h hcpu hrun (not_exists.1 hnot)).2
  rcases hcoming with ⟨hcount, -⟩ | ⟨hcount, -⟩ <;> omega

/-- init forks; it and its child yield until an outer iteration ends with both on level 1. -/
def forkAndYield (forked : Fin 2) : List (Action 2) :=
  List.flatten [List.replicate 3 (.schedule 1),
    [.allocproc forked 2, .parent forked, .fork forked, .leave .yield],
    List.replicate 5 (.schedule 1), [.leave .yield], List.replicate 6 (.schedule 1),
    [.leave .yield], List.replicate 5 (.schedule 1), [.leave .yield],
    List.replicate 3 (.schedule 1)]

/-- An outer iteration in which two processes yield on level 1. -/
def yieldBoth : List (Action 2) :=
  List.flatten [List.replicate 8 (.schedule 1), [.leave .yield], List.replicate 5 (.schedule 1),
    [.leave .yield], List.replicate 3 (.schedule 1)]

theorem dispatched_in_two_rounds_forked :
    ∃ s : Machine 2 Unit, Reachable 2 s ∧ (s.proc 0).state = .runnable ∧
      (s.proc 1).state = .runnable ∧
      ∃ l t, Runs (Step 2) s l t ∧ 2 ≤ (l.map Prod.fst).count .round ∧
        ∃ i, .dispatch 1 i ∈ l.map Prod.fst := by
  obtain ⟨l, s, hboot, hs⟩ := exists_runs 2 () (boot Unit (0 : Fin 2)) (forkAndYield 1)
    (fun r => decide (r.2.cpu () = .scan 0 0 ∧ (r.2.proc 0).state = .runnable ∧
        (r.2.proc 1).state = .runnable) &&
      (trace (fun s : Machine 2 Unit => s.act 2 ()) (yieldBoth ++ yieldBoth) r.2).any
        fun r' : List (Event 2 × Machine 2 Unit) × Machine 2 Unit =>
          decide (2 ≤ (r'.1.map Prod.fst).count .round)) (by decide +kernel)
  rw [Bool.and_eq_true, decide_eq_true_eq] at hs
  obtain ⟨⟨hcpu, hinit, hchild⟩, hnext⟩ := hs
  obtain ⟨l', t, hrun, hrounds⟩ := exists_runs 2 () s (yieldBoth ++ yieldBoth) _ hnext
  rw [decide_eq_true_eq] at hrounds
  have hreach : Reachable 2 s := ⟨0, l, hboot⟩
  exact ⟨s, hreach, hinit, hchild, l', t, hrun, hrounds,
    hreach.dispatched_in_two_rounds (by decide) hcpu hchild hrun hrounds⟩

end SistOp.Mlfq
