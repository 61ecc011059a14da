import SistOp.MlfqScheduler
import Mathlib.Tactic

/-!
# Actions of the scheduler

The scheduler of a CPU as a function: without the process that runs, its next step depends
only on the clock.  With a choice of what the process does, this computes runs.
-/

namespace SistOp.Mlfq

inductive Action (n : ℕ) where
  /-- The scheduler goes on; the clock shows `ticks`. -/
  | schedule (ticks : ℕ)
  | allocproc (k : Fin n) (pid : ℕ)
  /-- `fork` makes its caller the parent. -/
  | parent (k : Fin n)
  | fork (k : Fin n)
  | wait (k : Fin n)
  | leave (how : Leave)

namespace Machine

variable {n : ℕ} {κ : Type} [DecidableEq κ]

/-- The next step of `scheduler`. -/
def schedule (nprio ticks : ℕ) (c : κ) (s : Machine n κ) : Option (Event n × Machine n κ) :=
  match s.cpu c with
  | .scan i j =>
      if hj : j < n then
        if s.lock ⟨j, hj⟩ = none then
          some (.quiet, (s.setLock ⟨j, hj⟩ (some c)).goto c (.test i ⟨j, hj⟩))
        else none
      else if j = n then
        if ticks % 16 = 0 then some (.quiet, s.goto c (.boost (i + 1) 0))
        else some ((whileTest nprio (i + 1)).1, s.goto c (whileTest nprio (i + 1)).2)
      else none
  | .test i j =>
      if (s.proc j).state = .runnable ∧ (s.proc j).priority = i then
        some (.dispatch j i, (s.setProc j (s.proc j).dispatched).goto c (.enter i j))
      else some (.quiet, (s.setLock j none).goto c (.scan i (j + 1)))
  | .enter i j =>
      some (.quiet,
        ((s.setProc j { s.proc j with chan := 0 }).setLock j none).goto c (.run i j))
  | .run _ _ => none
  | .back i j => some (.quiet, s.goto c (.store i j ((s.proc j).newPriority nprio)))
  | .store i j priority =>
      some (.updated j, ((s.setProc j { s.proc j with
        priority := priority.getD (s.proc j).priority }).setLock j none).goto c
          (.scan i (j + 1)))
  | .boost i j =>
      if hj : j < n then
        some (.quiet,
          (s.setProc ⟨j, hj⟩ { s.proc ⟨j, hj⟩ with priority := 0 }).goto c (.boost i (j + 1)))
      else if j = n then some ((whileTest nprio i).1, s.goto c (whileTest nprio i).2)
      else none

/-- A section of the process that runs on the CPU, for a free slot in some state. -/
def processSection (c : κ) (s : Machine n κ) (k : Fin n) (state : ProcState)
    (e : Event n) (p : Proc n) : Option (Event n × Machine n κ) :=
  match s.cpu c with
  | .run _ _ =>
      if s.lock k = none ∧ (s.proc k).state = state then some (e, s.setProc k p) else none
  | _ => none

def act (nprio : ℕ) (c : κ) (s : Machine n κ) : Action n → Option (Event n × Machine n κ)
  | .schedule ticks => s.schedule nprio ticks c
  | .allocproc k pid => s.processSection c k .unused (.alloc k) ((s.proc k).found pid)
  | .parent k =>
      match s.cpu c with
      | .run _ j =>
          if (s.proc k).state = .used then
            some (.quiet, s.setProc k { s.proc k with parent := some j })
          else none
      | _ => none
  | .fork k => s.processSection c k .used (.wake k) { s.proc k with state := .runnable }
  | .wait k =>
      if (s.cpu c).current = (s.proc k).parent then
        s.processSection c k .zombie .quiet (s.proc k).freeproc
      else none
  | .leave how =>
      match s.cpu c with
      | .run i j =>
          if s.lock j = none ∧ (how.state = .zombie → j ≠ s.initproc) then
            some (.leave j how.state,
              ((s.setProc j ((s.proc j).leave how)).setLock j (some c)).goto c (.back i j))
          else none
      | _ => none

end Machine

variable {n nprio : ℕ} {κ : Type} [DecidableEq κ] {s t : Machine n κ} {c : κ} {e : Event n}

theorem schedule_step {ticks : ℕ} (h : s.schedule nprio ticks c = some (e, t)) :
    CpuStep nprio c s e t := by
  unfold Machine.schedule at h
  cases hcpu : s.cpu c with
  | scan i j =>
      simp only [hcpu] at h
      split_ifs at h with hj hfree hn hticks <;>
        simp only [Option.some.injEq, Prod.mk.injEq] at h <;> obtain ⟨rfl, rfl⟩ := h
      · exact .acquire hcpu hj hfree
      · subst hn
        exact .levelBoost ticks hcpu hticks
      · subst hn
        exact .level ticks hcpu hticks
  | test i j =>
      simp only [hcpu] at h
      split_ifs at h with htest <;>
        simp only [Option.some.injEq, Prod.mk.injEq] at h <;> obtain ⟨rfl, rfl⟩ := h
      · exact .dispatch hcpu htest.1 htest.2
      · exact .skip hcpu htest
  | enter i j =>
      simp only [hcpu, Option.some.injEq, Prod.mk.injEq] at h
      obtain ⟨rfl, rfl⟩ := h
      exact .enter hcpu
  | run i j => simp [hcpu] at h
  | back i j =>
      simp only [hcpu, Option.some.injEq, Prod.mk.injEq] at h
      obtain ⟨rfl, rfl⟩ := h
      exact .update hcpu
  | store i j priority =>
      simp only [hcpu, Option.some.injEq, Prod.mk.injEq] at h
      obtain ⟨rfl, rfl⟩ := h
      exact .store hcpu
  | boost i j =>
      simp only [hcpu] at h
      split_ifs at h with hj hn <;>
        simp only [Option.some.injEq, Prod.mk.injEq] at h <;> obtain ⟨rfl, rfl⟩ := h
      · exact .boost hcpu hj
      · subst hn
        exact .boosted hcpu

theorem processSection_step {k : Fin n} {state : ProcState} {e' : Event n} {p : Proc n}
    (h : s.processSection c k state e' p = some (e, t))
    (hsection : ∀ i j, s.cpu c = .run i j → (s.proc k).state = state →
      KernelSection j k (s.proc k) e' p) : CpuStep nprio c s e t := by
  unfold Machine.processSection at h
  cases hcpu : s.cpu c with
  | run i j =>
      simp only [hcpu] at h
      split_ifs at h with hfree
      simp only [Option.some.injEq, Prod.mk.injEq] at h
      obtain ⟨rfl, rfl⟩ := h
      exact .kernel hcpu hfree.1 (hsection i j hcpu hfree.2)
  | _ => simp [hcpu] at h

theorem act_step {action : Action n} (h : s.act nprio c action = some (e, t)) :
    CpuStep nprio c s e t := by
  cases action with
  | schedule ticks => exact schedule_step h
  | allocproc k pid => exact processSection_step h fun _ _ _ hstate => .allocproc pid hstate
  | parent k =>
      simp only [Machine.act] at h
      cases hcpu : s.cpu c with
      | run i j =>
          simp only [hcpu] at h
          split_ifs at h with hused
          simp only [Option.some.injEq, Prod.mk.injEq] at h
          obtain ⟨rfl, rfl⟩ := h
          exact .parent hcpu (.inl ⟨hused, rfl⟩)
      | _ => simp [hcpu] at h
  | fork k => exact processSection_step h fun _ _ _ hstate => .fork hstate
  | wait k =>
      simp only [Machine.act, Option.ite_none_right_eq_some] at h
      refine processSection_step h.2 fun i j hcpu hzombie => .wait ?_ hzombie
      rw [← h.1, hcpu]
      rfl
  | leave how =>
      simp only [Machine.act] at h
      cases hcpu : s.cpu c with
      | run i j =>
          simp only [hcpu] at h
          split_ifs at h with hfree
          simp only [Option.some.injEq, Prod.mk.injEq] at h
          obtain ⟨rfl, rfl⟩ := h
          exact .leave how hcpu hfree.1 hfree.2
      | _ => simp [hcpu] at h

/-- The runs that the actions of one CPU compute. -/
theorem exists_runs (nprio : ℕ) (c : κ) (s : Machine n κ) (actions : List (Action n))
    (property : List (Event n × Machine n κ) × Machine n κ → Bool)
    (h : (trace (fun s => s.act nprio c) actions s).any property = true) :
    ∃ l t, Runs (Step nprio) s l t ∧ property (l, t) = true :=
  Runs.exists_of_trace (fun _ _ _ _ hact => ⟨c, act_step hact⟩) h

/-- The same where each event has to meet a condition. -/
theorem exists_runs_if (nprio : ℕ) (c : κ) (s : Machine n κ)
    (cond : Machine n κ → Event n → Bool) (actions : List (Action n))
    (property : List (Event n × Machine n κ) × Machine n κ → Bool)
    (h : (trace (fun s a => (s.act nprio c a).filter fun x => cond s x.1) actions s).any property =
      true) :
    ∃ l t, Runs (fun s e t => Step nprio s e t ∧ cond s e = true) s l t ∧
      property (l, t) = true := by
  refine Runs.exists_of_trace (fun s a e t hact => ?_) h
  rw [Option.filter_eq_some_iff] at hact
  exact ⟨⟨c, act_step hact.1⟩, hact.2⟩

end SistOp.Mlfq
