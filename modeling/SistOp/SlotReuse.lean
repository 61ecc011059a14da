import SistOp.SchedulerActions
import Mathlib.Tactic

/-!
# Slots that are used again

The scheduler updates the priority of a process that has exited, and another CPU frees the
slot.  Both hold the lock of the process, so the slot is freed behind the update.
-/

namespace SistOp.Mlfq

variable {n nprio : ℕ} {κ : Type} {s t : Machine n κ} {c : κ} {e : Event n}

/-! ## The invariant -/

/-- What a CPU relies on at its place. -/
def CpuOk (s : Machine n κ) (c : κ) : Prop :=
  match s.cpu c with
  | .scan _ _ | .boost _ _ => True
  | .test _ j => s.lock j = some c
  | .enter _ j => s.lock j = some c ∧ (s.proc j).state = .running
  | .run _ j => (s.proc j).state = .running
  | .back _ j | .store _ j _ => s.lock j = some c ∧ (s.proc j).state ≠ .unused

/-- A slot as `freeproc` leaves it. -/
def Fresh (p : Proc n) : Prop := p.state = .unused → p.priority = 0 ∧ p.chosen = 0

structure SlotInvariant (s : Machine n κ) : Prop where
  cpus : ∀ c, CpuOk s c
  apart : ∀ c c' j, (s.cpu c).current = some j → (s.cpu c').current = some j → c = c'
  fresh : ∀ k, Fresh (s.proc k)

theorem CpuOk.locked (h : CpuOk s c) {j : Fin n} (hheld : (s.cpu c).held = some j) :
    s.lock j = some c := by
  unfold CpuOk at h
  cases hcpu : s.cpu c <;> rw [hcpu] at h hheld <;>
    simp only [Cpu.held, Option.some.injEq, reduceCtorEq] at hheld
  all_goals
    subst hheld
    first
    | exact h
    | exact h.1

/-! ## What a step leaves alone -/

/-- A step of one CPU keeps the slots that another one has locked, and the processes that
run on other CPUs. -/
structure StepFrame (c : κ) (s t : Machine n κ) : Prop where
  cpu : ∀ c', c' ≠ c → t.cpu c' = s.cpu c'
  locked : ∀ k c', c' ≠ c → s.lock k = some c' →
    t.lock k = some c' ∧ (t.proc k).state = (s.proc k).state
  running : ∀ k, (s.cpu c).current ≠ some k → (s.proc k).state = .running →
    (t.proc k).state = .running

/-- A running process runs on, until it leaves. -/
theorem SlotStep.running {k : Fin n} {p : Proc n} (h : SlotStep c s e k p)
    (hcur : (s.cpu c).current ≠ some k) (hrun : (s.proc k).state = .running) :
    p.state = .running := by
  cases h with
  | keeps h _ => rw [h.state_kept (Or.inl hrun), hrun]
  | freed hfreed _ => simp [hrun] at hfreed
  | dispatched => rfl
  | left how _ hcpu _ => exact absurd (by rw [hcpu]; rfl) hcur
  | updated => exact hrun
  | boosted => exact hrun

/-- Nothing but its holder changes the state of a locked slot. -/
theorem SlotStep.locked {k : Fin n} {p : Proc n} {c' : κ} (h : SlotStep c s e k p)
    (hok : CpuOk s c) (hne : c' ≠ c) (hlock : s.lock k = some c') :
    p.state = (s.proc k).state := by
  cases h with
  | keeps _ hstate =>
      rcases hstate with hfree | hstate
      · simp [hlock] at hfree
      · exact hstate
  | freed _ hfree => simp [hlock] at hfree
  | dispatched _ hcpu _ _ =>
      have hheld : s.lock k = some c := hok.locked (by rw [hcpu]; rfl)
      rw [hlock, Option.some.injEq] at hheld
      exact absurd hheld hne
  | left _ _ _ hfree => simp [hlock] at hfree
  | updated => rfl
  | boosted => rfl

theorem SlotStep.fresh {k : Fin n} {p : Proc n} (h : SlotStep c s e k p) (hok : CpuOk s c)
    (hfresh : Fresh (s.proc k)) : Fresh p := by
  intro hunused
  cases h with
  | keeps h _ =>
      have hstate : (s.proc k).state = .unused := by
        rcases h.state with hstate | ⟨-, hused⟩ | ⟨-, -, hrunnable⟩
        · rw [← hstate, hunused]
        · simp [hunused] at hused
        · simp [hunused] at hrunnable
      rw [h.priority, h.chosen]
      exact hfresh hstate
  | freed => exact ⟨rfl, rfl⟩
  | dispatched => simp [Proc.dispatched] at hunused
  | left how => cases how <;> simp [Leave.state] at hunused
  | updated _ hcpu =>
      -- the slot is freed behind the update: the scheduler has its lock
      simp only [CpuOk, hcpu] at hok
      exact absurd hunused hok.2
  | boosted => exact ⟨rfl, (hfresh hunused).2⟩

variable [DecidableEq κ]

theorem CpuStep.lockKept {k : Fin n} {c' : κ} (h : CpuStep nprio c s e t) (hok : CpuOk s c)
    (hne : c' ≠ c) (hlock : s.lock k = some c') : t.lock k = some c' := by
  have held : ∀ {j : Fin n} {holder : Option κ}, (s.cpu c).held = some j →
      Function.update s.lock j holder k = some c' := by
    intro j holder hheld
    have hk : k ≠ j := by
      rintro rfl
      rw [hok.locked hheld, Option.some.injEq] at hlock
      exact hne hlock.symm
    rwa [Function.update_of_ne hk]
  have free : ∀ {j : Fin n} {holder : Option κ}, s.lock j = none →
      Function.update s.lock j holder k = some c' := by
    intro j holder hfree
    have hk : k ≠ j := by
      rintro rfl
      simp [hlock] at hfree
    rwa [Function.update_of_ne hk]
  cases h with
  | acquire _ _ hfree => exact free hfree
  | leave _ _ hfree => exact free hfree
  | skip hcpu => exact held (by rw [hcpu]; rfl)
  | enter hcpu => exact held (by rw [hcpu]; rfl)
  | store hcpu => exact held (by rw [hcpu]; rfl)
  | _ => exact hlock

theorem CpuStep.frame (h : CpuStep nprio c s e t) (hok : CpuOk s c) : StepFrame c s t where
  cpu _ hne := h.otherCpu hne
  locked k _ hne hlock := ⟨h.lockKept hok hne hlock, (h.slot k).locked hok hne hlock⟩
  running k hcur hrun := (h.slot k).running hcur hrun

/-! ## What a step establishes -/

theorem CpuStep.own (h : CpuStep nprio c s e t) (hok : CpuOk s c) : CpuOk t c := by
  cases h with
  | acquire hcpu hj hfree => simp [CpuOk]
  | skip hcpu hother => simp [CpuOk]
  | @dispatch i j hcpu hrunnable hlevel =>
      have hlock : s.lock j = some c := hok.locked (by rw [hcpu]; rfl)
      simp [CpuOk, hlock, Proc.dispatched]
  | enter hcpu =>
      simp only [CpuOk, hcpu] at hok
      simp [CpuOk, hok.2]
  | @kernel i j k _ p hcpu hfree hsection =>
      simp only [CpuOk, hcpu] at hok
      simp only [CpuOk, Machine.setProc_cpu, hcpu, Machine.setProc_proc]
      by_cases hk : j = k
      · subst hk
        rw [Function.update_self]
        rw [(hsection.keeps hok).state_kept (Or.inl hok), hok]
      · rw [Function.update_of_ne hk]
        exact hok
  | @parent i j k _ hcpu _ =>
      simp only [CpuOk, hcpu] at hok
      simp only [CpuOk, Machine.setProc_cpu, hcpu, Machine.setProc_proc]
      by_cases hk : j = k
      · subst hk
        rw [Function.update_self]
        exact hok
      · rw [Function.update_of_ne hk]
        exact hok
  | interrupt hcpu hfree hsection =>
      rcases hcpu with ⟨i, j, hcpu⟩ | ⟨i, j, hcpu⟩ <;> simp [CpuOk, hcpu]
  | leave how hcpu _ _ => cases how <;> simp [CpuOk, Leave.state]
  | update hcpu =>
      simp only [CpuOk, hcpu] at hok
      simpa [CpuOk] using hok
  | store hcpu => simp [CpuOk]
  | level => unfold whileTest; split <;> simp [CpuOk]
  | levelBoost => simp [CpuOk]
  | boost => simp [CpuOk]
  | boosted => unfold whileTest; split <;> simp [CpuOk]

/-! ## Every reachable state -/

theorem SlotInvariant.step (h : SlotInvariant s) (hstep : Step nprio s e t) :
    SlotInvariant t := by
  obtain ⟨c, hc⟩ := hstep
  have hframe := hc.frame (h.cpus c)
  -- a process that another CPU has is not the one that this CPU tests
  have tested : ∀ {c' : κ} {i : ℕ} {j : Fin n}, c' ≠ c → (s.cpu c').current = some j →
      s.cpu c = .test i j → (s.proc j).state = .runnable → False := by
    intro c' i j hne hcur htest hrunnable
    have hlock : s.lock j = some c := (h.cpus c).locked (by rw [htest]; rfl)
    have hok := h.cpus c'
    cases hcpu : s.cpu c' <;>
      simp only [hcpu, CpuOk, Cpu.current, Option.some.injEq, reduceCtorEq] at hok hcur <;>
      subst hcur
    case run => simp [hok] at hrunnable
    all_goals
      rw [hok.1, Option.some.injEq] at hlock
      exact hne hlock
  refine ⟨fun c' => ?_, fun c₁ c₂ j h₁ h₂ => ?_, fun k => ?_⟩
  · by_cases hc' : c' = c
    · subst hc'
      exact hc.own (h.cpus c')
    have hok := h.cpus c'
    have hcur : ∀ {j : Fin n}, (s.cpu c').current = some j → (s.cpu c).current ≠ some j :=
      fun hcur hcur' => hc' (h.apart c' c _ hcur hcur')
    unfold CpuOk at hok ⊢
    rw [hframe.cpu c' hc']
    cases hcpu : s.cpu c' <;> rw [hcpu] at hok
    case scan => trivial
    case boost => trivial
    case test i j => exact (hframe.locked j c' hc' hok).1
    case run i j => exact hframe.running j (hcur (by rw [hcpu]; rfl)) hok
    case enter i j =>
      have hkept := hframe.locked j c' hc' hok.1
      exact ⟨hkept.1, hkept.2.trans hok.2⟩
    case back i j =>
      have hkept := hframe.locked j c' hc' hok.1
      exact ⟨hkept.1, by rw [hkept.2]; exact hok.2⟩
    case store i j priority =>
      have hkept := hframe.locked j c' hc' hok.1
      exact ⟨hkept.1, by rw [hkept.2]; exact hok.2⟩
  · by_cases hc₁ : c₁ = c <;> by_cases hc₂ : c₂ = c
    · rw [hc₁, hc₂]
    · subst hc₁
      rw [hframe.cpu c₂ hc₂] at h₂
      rcases hc.current h₁ with h₁ | ⟨i, -, htest, hrunnable⟩
      · exact h.apart _ _ _ h₁ h₂
      · exact absurd hrunnable fun hrunnable => tested hc₂ h₂ htest hrunnable
    · subst hc₂
      rw [hframe.cpu c₁ hc₁] at h₁
      rcases hc.current h₂ with h₂ | ⟨i, -, htest, hrunnable⟩
      · exact h.apart _ _ _ h₁ h₂
      · exact absurd hrunnable fun hrunnable => tested hc₁ h₁ htest hrunnable
    · rw [hframe.cpu c₁ hc₁] at h₁
      rw [hframe.cpu c₂ hc₂] at h₂
      exact h.apart _ _ _ h₁ h₂
  · exact (hc.slot k).fresh (h.cpus c) (h.fresh k)

omit [DecidableEq κ] in
theorem SlotInvariant.boot (initproc : Fin n) : SlotInvariant (boot κ initproc) where
  cpus _ := trivial
  apart _ _ _ h := by simp [Mlfq.boot, Cpu.current] at h
  fresh k _ := by
    by_cases hk : k = initproc
    · subst hk
      simp [Mlfq.boot, Proc.found, emptyProc]
    · simp [Mlfq.boot, hk, emptyProc]

theorem Reachable.slots (h : Reachable nprio s) : SlotInvariant s := by
  obtain ⟨initproc, l, hrun⟩ := h
  exact hrun.invariant (SlotInvariant.boot initproc) fun _ _ _ hs hstep => hs.step hstep

theorem KernelSection.allocated {self k j : Fin n} {p p' : Proc n}
    (h : KernelSection self k p e p') (he : e = .alloc j) :
    j = k ∧ p.state = .unused ∧ ∃ pid, p' = p.found pid := by
  cases h with
  | allocproc pid hunused =>
      cases he
      exact ⟨rfl, hunused, pid, rfl⟩
  | wakeup h =>
      have hevent := h.event
      simp [he] at hevent
  | kill => split at he <;> simp at he
  | _ => simp at he

/-- `allocproc` returns an unused slot, with the scheduler's fields as it finds them. -/
theorem CpuStep.allocated (h : CpuStep nprio c s e t) {k : Fin n} (he : e = .alloc k) :
    (s.proc k).state = .unused ∧ ∃ pid, t.proc k = (s.proc k).found pid := by
  cases h with
  | @kernel i j k₀ _ p hcpu hfree hsection =>
      obtain ⟨rfl, hunused, pid, hfound⟩ := hsection.allocated he
      exact ⟨hunused, pid, by simp [hfound]⟩
  | interrupt hcpu hfree hsection =>
      have hevent := hsection.event
      simp [he] at hevent
  | level => unfold whileTest at he; split at he <;> simp at he
  | boosted => unfold whileTest at he; split at he <;> simp at he
  | _ => simp at he

/-- A slot that is used again starts at the top, and so does every new process. -/
theorem Reachable.unused_top (h : Reachable nprio s) :
    (∀ k, (s.proc k).state = .unused →
      (s.proc k).priority = 0 ∧ (s.proc k).chosen = 0) ∧
    ∀ t k, Step nprio s (.alloc k) t →
      (t.proc k).priority = 0 ∧ (t.proc k).chosen = 0 := by
  refine ⟨h.slots.fresh, fun t k hstep => ?_⟩
  obtain ⟨c, hc⟩ := hstep
  obtain ⟨hunused, pid, hfound⟩ := hc.allocated rfl
  rw [hfound]
  exact h.slots.fresh k hunused

/-- init forks and yields, its child yields, falls to level 1 and exits there, and init waits
for it. -/
def forkAndWait (forked : Fin 2) : List (Action 2) :=
  List.flatten [List.replicate 3 (.schedule 1),
    [.allocproc forked 2, .parent forked, .fork forked, .leave .yield],
    List.replicate 5 (.schedule 1), [.leave .yield], List.replicate 6 (.schedule 1),
    [.leave .yield], List.replicate 5 (.schedule 1), [.leave (.exit 0)],
    List.replicate 6 (.schedule 1), [.wait forked]]

/-- The slot of the child is used again. -/
theorem unused_top_forkAndWait :
    ∃ l, ∃ s t : Machine 2 Unit, Runs (Step 3) (boot Unit 0) l s ∧
      (∃ x ∈ l, (x.2.proc 1).state = .zombie ∧ (x.2.proc 1).priority = 1 ∧
        (x.2.proc 1).chosen = 2) ∧
      ((s.proc 1).priority = 0 ∧ (s.proc 1).chosen = 0) ∧
      Step 3 s (.alloc 1) t ∧ (t.proc 1).priority = 0 ∧ (t.proc 1).chosen = 0 := by
  obtain ⟨l, s, hrun, hs⟩ := exists_runs 3 () (boot Unit (0 : Fin 2)) (forkAndWait 1)
    (fun r => decide ((∃ x ∈ r.1, (x.2.proc 1).state = .zombie ∧ (x.2.proc 1).priority = 1 ∧
      (x.2.proc 1).chosen = 2) ∧ r.2.cpu () = .run 2 0 ∧ r.2.lock 1 = none ∧
      (r.2.proc 1).state = .unused)) (by decide +kernel)
  simp only [decide_eq_true_eq] at hs
  obtain ⟨hexited, hcpu, hfree, hunused⟩ := hs
  have hreach : Reachable 3 s := ⟨0, l, hrun⟩
  have halloc : Step 3 s (.alloc 1) _ := ⟨(), .kernel hcpu hfree (.allocproc 3 hunused)⟩
  exact ⟨l, s, _, hrun, hexited, hreach.unused_top.1 1 hunused, halloc,
    hreach.unused_top.2 _ 1 halloc⟩

end SistOp.Mlfq
