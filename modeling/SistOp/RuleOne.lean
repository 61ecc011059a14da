import SistOp.StarvationBound
import Mathlib.Tactic

/-!
# Regla 1

The README says that a process with a higher priority runs and another does not.  The scan
does not begin again when a process becomes runnable behind it, so the rule holds in the runs
in which processes become runnable in front of the scan.
-/

namespace SistOp.Mlfq

variable {n nprio : ℕ} {s t : Machine n Unit} {e : Event n}

/-! ## In front of the scan -/

/-- At the level `i` the scan has still to come by slot `q` when it is at slot `j`, or there
is no lower level to which it can go on. -/
def Ahead (nprio i j : ℕ) (s : Machine n Unit) (q : Fin n) : Prop :=
  i < (s.proc q).priority ∨ i = (s.proc q).priority ∧ (j ≤ q ∨ i + 1 = nprio)

/-- A process becomes runnable in front of the scan.  Behind a boost, and during it, there is
nothing left to dispatch in this iteration. -/
def Prompt (nprio : ℕ) (s : Machine n Unit) (e : Event n) : Prop :=
  ∀ q, e = .wake q →
    match s.cpu () with
    | .scan i j => Ahead nprio i j s q ∨ ∀ k, (s.proc k).priority < i
    | .run i j => Ahead nprio i (j + 1) s q
    | _ => True

/-- What Regla 1 relies on at each place of the scheduler. -/
def InOrder (nprio : ℕ) (s : Machine n Unit) : Prop :=
  match s.cpu () with
  | .scan i j =>
      (∀ q, (s.proc q).state = .runnable → Ahead nprio i j s q) ∨
        ∀ k, (s.proc k).priority < i
  | .test i j =>
      (∀ q, (s.proc q).state = .runnable → Ahead nprio i j s q) ∨
        ∀ k, (s.proc k).priority < i
  | .enter i j | .run i j =>
      (s.proc j).state = .running ∧ (s.proc j).priority = i ∧
        ∀ q, (s.proc q).state = .runnable → Ahead nprio i (j + 1) s q
  | .back i j =>
      (s.proc j).priority = i ∧
        ∀ q, q ≠ j → (s.proc q).state = .runnable → Ahead nprio i (j + 1) s q
  | .store i j priority =>
      (s.proc j).priority = i ∧ priority = (s.proc j).newPriority nprio ∧
        ∀ q, q ≠ j → (s.proc q).state = .runnable → Ahead nprio i (j + 1) s q
  | .boost i j => 0 < i ∧ ∀ k : Fin n, k < j → (s.proc k).priority = 0

theorem Ahead.congr {i j : ℕ} {q : Fin n} (h : Ahead nprio i j s q)
    (hpriority : (t.proc q).priority = (s.proc q).priority) : Ahead nprio i j t q := by
  unfold Ahead at h ⊢
  rwa [hpriority]

theorem Ahead.next {i : ℕ} {j q : Fin n} (h : Ahead nprio i j s q) (hne : q ≠ j) :
    Ahead nprio i (j + 1) s q := by
  have hval : (q : ℕ) ≠ j := fun h => hne (Fin.ext h)
  unfold Ahead at h ⊢
  omega

/-! ## Sections of the kernel -/

/-- What the order of the processes depends on when a section writes a slot. -/
structure Writes (k : Fin n) (p : Proc n) (e : Event n) (p' : Proc n) : Prop where
  priority : p'.priority ≤ p.priority
  running : p.state = .running → p'.state = .running ∧ p'.priority = p.priority
  runnable : p'.state = .runnable →
    (p.state = .runnable ∨ e = .wake k) ∧ p'.priority = p.priority

theorem SectionKeeps.writes {k : Fin n} {p p' : Proc n} (h : SectionKeeps k p e p') :
    Writes k p e p' where
  priority := h.priority.le
  running hrun := ⟨by rw [h.state_kept (Or.inl hrun), hrun], h.priority⟩
  runnable hrunnable := by
    refine ⟨?_, h.priority⟩
    rcases h.state with hstate | ⟨-, hused⟩ | ⟨he, -⟩
    · exact Or.inl (by rw [← hstate, hrunnable])
    · simp [hrunnable] at hused
    · exact Or.inr he

theorem KernelSection.writes {self k : Fin n} {p p' : Proc n}
    (h : KernelSection self k p e p') : Writes k p e p' := by
  rcases h.effect with hkeeps | ⟨hstate, -, rfl⟩
  · exact hkeeps.writes
  · refine ⟨Nat.zero_le _, fun hrun => ?_, fun hrunnable => ?_⟩
    · simp [hrun] at hstate
    · simp [Proc.freeproc] at hrunnable

theorem InOrder.section {k : Fin n} {p : Proc n} (h : InOrder nprio s)
    (hwrites : Writes k (s.proc k) e p)
    (hcpu : (∃ i j, s.cpu () = .scan i j) ∨ (∃ i j, s.cpu () = .boost i j) ∨
      ∃ i j, s.cpu () = .run i j)
    (hprompt : Prompt nprio s e) : InOrder nprio (s.setProc k p) := by
  -- a process that is runnable now was so, or wakes
  have ahead : ∀ {i j : ℕ}, (∀ q, (s.proc q).state = .runnable → Ahead nprio i j s q) →
      (e = .wake k → Ahead nprio i j s k) →
      ∀ q, ((s.setProc k p).proc q).state = .runnable →
        Ahead nprio i j (s.setProc k p) q := by
    intro i j hall hwake q hq
    by_cases hqk : q = k
    · subst hqk
      have hq' : p.state = .runnable := by simpa using hq
      obtain ⟨hwas, hpriority⟩ := hwrites.runnable hq'
      have hahead : Ahead nprio i j s q := by
        rcases hwas with hwas | he
        · exact hall q hwas
        · exact hwake he
      exact hahead.congr (by simpa using hpriority)
    · have hq' : (s.proc q).state = .runnable := by simpa [hqk] using hq
      exact (hall q hq').congr (by simp [hqk])
  have priority : ∀ q, ((s.setProc k p).proc q).priority ≤ (s.proc q).priority := by
    intro q
    by_cases hqk : q = k
    · subst hqk
      simpa using hwrites.priority
    · simp [hqk]
  rcases hcpu with ⟨i, j, hcpu⟩ | ⟨i, j, hcpu⟩ | ⟨i, j, hcpu⟩
  · simp only [InOrder, hcpu] at h
    simp only [InOrder, Machine.setProc_cpu, hcpu]
    by_cases hbelow : ∀ q, (s.proc q).priority < i
    · exact Or.inr fun q => (priority q).trans_lt (hbelow q)
    · refine Or.inl (ahead (h.resolve_right hbelow) fun he => ?_)
      have hwake := hprompt k he
      simp only [hcpu] at hwake
      exact hwake.resolve_right hbelow
  · simp only [InOrder, hcpu] at h
    simp only [InOrder, Machine.setProc_cpu, hcpu]
    refine ⟨h.1, fun q hq => ?_⟩
    have hle := priority q
    rw [h.2 q hq] at hle
    omega
  · simp only [InOrder, hcpu] at h
    simp only [InOrder, Machine.setProc_cpu, hcpu]
    obtain ⟨hrun, hlevel, hall⟩ := h
    have hself : ((s.setProc k p).proc j).state = .running ∧
        ((s.setProc k p).proc j).priority = i := by
      by_cases hjk : j = k
      · subst hjk
        have hkept := hwrites.running hrun
        simpa [hkept.2, hlevel] using hkept.1
      · simpa [hjk, hlevel] using hrun
    refine ⟨hself.1, hself.2, ahead hall fun he => ?_⟩
    have hwake := hprompt k he
    simpa [hcpu] using hwake

/-! ## The scheduler goes on -/

/-- Behind the last slot of a level the processes that wait are on lower levels. -/
theorem inOrder_whileTest {i : ℕ} (hafter : (∀ q, (s.proc q).state = .runnable →
      i < nprio → i ≤ (s.proc q).priority) ∨ ∀ k, (s.proc k).priority < i) :
    InOrder nprio (s.goto () (whileTest (n := n) nprio i).2) := by
  unfold whileTest
  split
  next hi =>
    simp only [InOrder, Machine.goto_cpu, Function.update_self, Machine.goto_proc]
    rcases hafter with hafter | hbelow
    · refine Or.inl fun q hq => ?_
      have hle := hafter q hq hi
      simp only [Ahead, Machine.goto_proc]
      omega
    · exact Or.inr hbelow
  next =>
    simp only [InOrder, Machine.goto_cpu, Function.update_self, Machine.goto_proc]
    refine Or.inl fun q _ => ?_
    simp only [Ahead, Machine.goto_proc]
    omega

theorem InOrder.step (h : InOrder nprio s) (hlevels : Levels nprio s)
    (hstep : CpuStep nprio () s e t) (hprompt : Prompt nprio s e) : InOrder nprio t := by
  cases hstep with
  | acquire hcpu hj hfree =>
      simp only [InOrder, hcpu] at h
      simpa [InOrder, Ahead] using h
  | @skip i j hcpu hother =>
      simp only [InOrder, hcpu] at h
      simp only [InOrder, Machine.goto_cpu, Function.update_self]
      refine h.imp_left fun h q hq => ?_
      have hq' : (s.proc q).state = .runnable := hq
      by_cases hqj : q = j
      · subst hqj
        have hlevel : (s.proc q).priority ≠ i := fun hi => hother ⟨hq', hi⟩
        have hahead := h q hq'
        simp only [Ahead, Machine.goto_proc, Machine.setLock_proc] at hahead ⊢
        omega
      · exact (h q hq').next hqj
  | @dispatch i j hcpu hrunnable hlevel =>
      simp only [InOrder, hcpu] at h
      simp only [InOrder, Machine.goto_cpu, Function.update_self, Machine.goto_proc,
        Machine.setProc_proc]
      refine ⟨rfl, hlevel, fun q hq => ?_⟩
      have hqj : q ≠ j := by
        rintro rfl
        simp [Proc.dispatched] at hq
      rw [Function.update_of_ne hqj] at hq
      rcases h with h | h
      · exact ((h q hq).next hqj).congr (by simp [hqj])
      · have hbelow := h j
        omega
  | @enter i j hcpu =>
      simp only [InOrder, hcpu] at h
      simp only [InOrder, Machine.goto_cpu, Function.update_self, Machine.goto_proc,
        Machine.setLock_proc, Machine.setProc_proc]
      refine ⟨h.1, h.2.1, fun q hq => ?_⟩
      by_cases hqj : q = j
      · subst hqj
        rw [Function.update_self] at hq
        exact (h.2.2 q hq).congr (by simp)
      · rw [Function.update_of_ne hqj] at hq
        exact (h.2.2 q hq).congr (by simp [hqj])
  | @kernel i j k _ p hcpu hfree hsection =>
      exact h.section hsection.writes (Or.inr (Or.inr ⟨i, j, hcpu⟩)) hprompt
  | @parent i j k _ hcpu _ =>
      exact h.section ⟨le_rfl, fun hrun => ⟨hrun, rfl⟩, fun hq => ⟨Or.inl hq, rfl⟩⟩
        (Or.inr (Or.inr ⟨i, j, hcpu⟩)) hprompt
  | @interrupt k _ p hcpu hfree hsection =>
      refine h.section hsection.keeps.writes ?_ hprompt
      exact hcpu.imp_right Or.inl
  | @leave i j how hcpu _ _ =>
      simp only [InOrder, hcpu] at h
      simp only [InOrder, Machine.goto_cpu, Function.update_self, Machine.goto_proc,
        Machine.setLock_proc, Machine.setProc_proc]
      refine ⟨by simpa using h.2.1, fun q hqj hq => ?_⟩
      rw [Function.update_of_ne hqj] at hq
      exact (h.2.2 q hq).congr (by simp [hqj])
  | @update i j hcpu =>
      simp only [InOrder, hcpu] at h
      simp only [InOrder, Machine.goto_cpu, Function.update_self]
      exact ⟨h.1, rfl, h.2⟩
  | @store i j priority hcpu =>
      simp only [InOrder, hcpu] at h
      obtain ⟨hlevel, rfl, h⟩ := h
      simp only [InOrder, Machine.goto_cpu, Function.update_self]
      refine Or.inl fun q hq => ?_
      by_cases hqj : q = j
      · subst hqj
        have hlt := hlevels.proc q
        have hstate : (s.proc q).state = .runnable := by simpa using hq
        simp only [Ahead, Machine.goto_proc, Machine.setLock_proc, Machine.setProc_proc,
          Function.update_self, Proc.newPriority, hstate]
        by_cases hlast : (s.proc q).priority < nprio - 1
        · simp [hlast]
          omega
        · simp [hlast]
          omega
      · have hq' : (s.proc q).state = .runnable := by simpa [hqj] using hq
        exact (h q hqj hq').congr (by simp [hqj])
  | @level i ticks hcpu _ =>
      simp only [InOrder, hcpu] at h
      refine inOrder_whileTest ?_
      rcases h with h | h
      · refine Or.inl fun q hq hi => ?_
        have hahead := h q hq
        have hqn := q.isLt
        unfold Ahead at hahead
        omega
      · refine Or.inr fun k => ?_
        have hbelow := h k
        omega
  | @levelBoost i ticks hcpu _ =>
      simp only [InOrder, Machine.goto_cpu, Function.update_self]
      exact ⟨by omega, fun k hk => by omega⟩
  | @boost i j hcpu hj =>
      simp only [InOrder, hcpu] at h
      simp only [InOrder, Machine.goto_cpu, Function.update_self, Machine.goto_proc,
        Machine.setProc_proc]
      refine ⟨h.1, fun k hk => ?_⟩
      by_cases hkj : k = ⟨j, hj⟩
      · subst hkj
        simp
      · have hne : (k : ℕ) ≠ j := fun h => hkj (Fin.ext h)
        rw [Function.update_of_ne hkj]
        exact h.2 k (by omega)
  | @boosted i hcpu =>
      simp only [InOrder, hcpu] at h
      refine inOrder_whileTest (Or.inr fun k => ?_)
      rw [h.2 k k.isLt]
      exact h.1

/-! ## Runs -/

theorem InOrder.boot (initproc : Fin n) : InOrder nprio (boot Unit initproc) := by
  simp only [InOrder, Mlfq.boot]
  refine Or.inl fun q _ => ?_
  simp only [Ahead]
  omega

theorem InOrder.dispatch {k : Fin n} {i : ℕ} (h : InOrder nprio s)
    (hstep : Step nprio s (.dispatch k i) t) (q : Fin n)
    (hq : (s.proc q).state = .runnable) : i ≤ (s.proc q).priority := by
  obtain ⟨c, hc⟩ := hstep
  have hslot : s.cpu () = .test i k ∧ (s.proc k).priority = i := by
    generalize he : Event.dispatch k i = e at hc
    cases hc with
    | dispatch hcpu hrunnable hlevel =>
        cases he
        exact ⟨hcpu, hlevel⟩
    | kernel hcpu hfree hsection =>
        rcases hsection.event with h | h | h <;> simp [h] at he
    | interrupt hcpu hfree hsection => simp [hsection.event] at he
    | level => unfold whileTest at he; split at he <;> simp at he
    | boosted => unfold whileTest at he; split at he <;> simp at he
    | _ => simp at he
  simp only [InOrder, hslot.1] at h
  rcases h with h | h
  · have hahead := h q hq
    unfold Ahead at hahead
    omega
  · have hbelow := h k
    omega

theorem InOrder.run {initproc : Fin n} (hnprio : 1 ≤ nprio)
    {l : List (Event n × Machine n Unit)}
    (hrun : Runs (fun s e t => Step nprio s e t ∧ Prompt nprio s e)
      (Mlfq.boot Unit initproc) l s) :
    Levels nprio s ∧ InOrder nprio s := by
  induction hrun with
  | nil => exact ⟨Levels.boot hnprio initproc, InOrder.boot initproc⟩
  | snoc _ hstep ih =>
      obtain ⟨⟨c, hc⟩, hprompt⟩ := hstep
      exact ⟨ih.1.step ⟨c, hc⟩, ih.2.step ih.1 hc hprompt⟩

/-- In a run in which processes become runnable in front of the scan only, the scheduler
dispatches no process while one with a higher priority can run. -/
theorem highest_runs {initproc : Fin n} (hnprio : 1 ≤ nprio)
    {l : List (Event n × Machine n Unit)}
    (hrun : Runs (fun s e t => Step nprio s e t ∧ Prompt nprio s e) (boot Unit initproc) l s)
    {k : Fin n} {i : ℕ} (hstep : Step nprio s (.dispatch k i) t) :
    ∀ q, (s.proc q).state = .runnable → i ≤ (s.proc q).priority :=
  (InOrder.run hnprio hrun).2.dispatch hstep

/-- init forks and yields, and so does its child; then the scan is at init on level 1. -/
def forkOnLevelZero (forked : Fin 2) : List (Action 2) :=
  List.flatten [List.replicate 3 (.schedule 1),
    [.allocproc forked 2, .parent forked, .fork forked, .leave .yield],
    List.replicate 5 (.schedule 1), [.leave .yield], List.replicate 4 (.schedule 1)]

/-- The child has become runnable in front of the scan, and waits while init is dispatched. -/
theorem highest_runs_forked :
    ∃ l s t, Runs (fun s e t => Step 3 s e t ∧ Prompt 3 s e) (boot Unit (0 : Fin 2)) l s ∧
      .wake 1 ∈ l.map Prod.fst ∧ (s.proc 1).state = .runnable ∧ Step 3 s (.dispatch 0 1) t ∧
        ∀ q, (s.proc q).state = .runnable → 1 ≤ (s.proc q).priority := by
  obtain ⟨l, s, hrun, hs⟩ := exists_runs_if 3 () (boot Unit (0 : Fin 2))
    (fun s e => decide (∀ q, e = .wake q → s.cpu () = .run 0 0 ∧ (s.proc q).priority = 0 ∧ 1 ≤ q))
    (forkOnLevelZero 1)
    (fun r => decide (.wake 1 ∈ r.1.map Prod.fst ∧ (r.2.proc 1).state = .runnable ∧
      r.2.cpu () = .test 1 0 ∧ (r.2.proc 0).state = .runnable ∧ (r.2.proc 0).priority = 1))
    (by decide +kernel)
  simp only [decide_eq_true_eq] at hs
  obtain ⟨hwake, hwaits, hcpu, hrunnable, hlevel⟩ := hs
  have hprompt : Runs (fun s e t => Step 3 s e t ∧ Prompt 3 s e) (boot Unit (0 : Fin 2)) l s := by
    refine hrun.mono fun s e t ⟨hstep, hcond⟩ => ⟨hstep, fun q he => ?_⟩
    obtain ⟨hcpu, hpriority, hq⟩ := of_decide_eq_true hcond q he
    rw [hcpu]
    exact .inr ⟨hpriority.symm, .inl hq⟩
  have hdispatch : Step 3 s (.dispatch 0 1) _ := ⟨(), .dispatch hcpu hrunnable hlevel⟩
  exact ⟨l, s, _, hprompt, hwake, hwaits, hdispatch,
    highest_runs (by decide) hprompt hdispatch⟩

/-- init yields on level 0 and, when it runs on level 1, forks and yields; the clock never
boosts. -/
def forkOnLevelOne (forked : Fin 2) : List (Action 2) :=
  [.schedule 1, .schedule 1, .schedule 1, .leave .yield, .schedule 1, .schedule 1,
    .schedule 1, .schedule 1, .schedule 1, .schedule 1, .schedule 1, .schedule 1,
    .allocproc forked 2, .fork forked, .leave .yield, .schedule 1, .schedule 1, .schedule 1,
    .schedule 1, .schedule 1, .schedule 1]

/-- The child of init waits at the top while the scheduler dispatches init at the bottom. -/
theorem highest_fork :
    ∃ l s t, Runs (Step 3) (boot Unit (0 : Fin 2)) l s ∧ Step 3 s (.dispatch 0 2) t ∧
      (s.proc 1).state = .runnable ∧ (s.proc 1).priority < 2 := by
  obtain ⟨l, s, hrun, hs⟩ := exists_runs 3 () (boot Unit (0 : Fin 2)) (forkOnLevelOne 1)
    (fun r => decide (r.2.cpu () = .test 2 0 ∧ (r.2.proc 1).state = .runnable ∧
      (r.2.proc 1).priority < 2 ∧ (r.2.proc 0).state = .runnable ∧
      (r.2.proc 0).priority = 2)) (by decide)
  simp only [decide_eq_true_eq] at hs
  obtain ⟨hcpu, hwaits, hlow, hrunnable, hlevel⟩ := hs
  exact ⟨l, s, _, hrun, ⟨(), .dispatch hcpu hrunnable hlevel⟩, hwaits, hlow⟩

end SistOp.Mlfq
