import SistOp.SchedulerActions
import SistOp.SlotReuse
import Mathlib.Tactic

/-!
# Processes that always block

The Reglas 4 and 5 of the README move a process down when it uses its quantum and up when it
blocks.  The scheduler tests the level together with the state, so that a process that blocks
on the top level falls into the branch of the others.
-/

namespace SistOp.Mlfq

variable {n nprio : ℕ} {κ : Type} {s t : Machine n κ} {c : κ} {e : Event n} {p : Fin n}

/-- A process that has blocked moves up, and from the top down. -/
theorem Proc.newPriority_sleeping {q : Proc n} (hsleeps : q.state = .sleeping)
    (hnprio : 2 ≤ nprio) :
    q.newPriority nprio = some (if 0 < q.priority then q.priority - 1 else 1) := by
  unfold Proc.newPriority
  by_cases hpos : 0 < q.priority
  · simp [hpos, hsleeps]
  · have hzero : q.priority = 0 := by omega
    have hlevels : 0 < nprio - 1 := by omega
    simp [hzero, hlevels]

/-! ## What is stored -/

section Steps

variable [DecidableEq κ]

theorem CpuStep.wentBack (h : CpuStep nprio c s e t) {i : ℕ} {j : Fin n}
    (hcpu : t.cpu c = .back i j) :
    ∃ how : Leave, e = .leave j how.state ∧ (t.proc j).state = how.state := by
  cases h with
  | leave how hrun =>
      simp only [Machine.goto_cpu, Function.update_self, Cpu.back.injEq] at hcpu
      obtain ⟨rfl, rfl⟩ := hcpu
      exact ⟨how, rfl, by simp⟩
  | kernel hrun => simp [hrun] at hcpu
  | parent hrun => simp [hrun] at hcpu
  | interrupt hidle =>
      rcases hidle with ⟨i', j', hidle⟩ | ⟨i', j', hidle⟩ <;> simp [hidle] at hcpu
  | level => unfold whileTest at hcpu; split at hcpu <;> simp at hcpu
  | boosted => unfold whileTest at hcpu; split at hcpu <;> simp at hcpu
  | _ => simp at hcpu

theorem CpuStep.updated (h : CpuStep nprio c s e t) (he : e = .updated p) :
    ∃ i priority, s.cpu c = .store i p priority ∧
      (t.proc p).priority = priority.getD (s.proc p).priority := by
  cases h with
  | @store i j priority hcpu =>
      cases he
      exact ⟨i, priority, hcpu, by simp⟩
  | kernel hcpu hfree hsection =>
      rcases hsection.event with h | h | h <;> simp [h] at he
  | interrupt hcpu hfree hsection => simp [hsection.event] at he
  | level => unfold whileTest at he; split at he <;> simp at he
  | boosted => unfold whileTest at he; split at he <;> simp at he
  | _ => simp at he

end Steps

/-! ## Below the top -/

/-- The process lives, its priority is bounded, and so is what a scheduler is going to store
to it. -/
structure Bounded (p : Fin n) (b : ℕ) (s : Machine n κ) : Prop where
  priority : (s.proc p).priority ≤ b
  live : (s.proc p).state ≠ .unused ∧ (s.proc p).state ≠ .zombie
  back : ∀ c i, s.cpu c = .back i p → (s.proc p).state = .sleeping
  store : ∀ c i x, s.cpu c = .store i p (some x) → x ≤ b

theorem Bounded.slot {b : ℕ} {q : Proc n} (h : Bounded p b s) (hslot : SlotStep c s e p q)
    (hleave : ∀ st, e = .leave p st → st = .sleeping) :
    q.priority ≤ b ∧ q.state ≠ .unused ∧ q.state ≠ .zombie := by
  cases hslot with
  | keeps hkeeps _ =>
      rw [hkeeps.priority]
      refine ⟨h.priority, ?_⟩
      rcases hkeeps.state with hstate | ⟨-, hused⟩ | ⟨-, -, hrunnable⟩
      · rw [hstate]
        exact h.live
      · simp [hused]
      · simp [hrunnable]
  | freed hstate _ => exact absurd hstate (not_or.2 h.live)
  | dispatched => exact ⟨h.priority, by simp [Proc.dispatched]⟩
  | left how he _ _ =>
      rw [Proc.leave_priority, Proc.leave_state, hleave _ he]
      exact ⟨h.priority, by simp⟩
  | @updated i priority _ hcpu =>
      refine ⟨?_, h.live⟩
      cases priority with
      | none => exact h.priority
      | some x => exact h.store c i x hcpu
  | boosted => exact ⟨Nat.zero_le _, h.live⟩

variable [DecidableEq κ]

theorem Bounded.step {b : ℕ} (hb : 0 < b) (hnprio : 2 ≤ nprio) (h : Bounded p b s)
    (hslots : SlotInvariant s) (hstep : Step nprio s e t)
    (hleave : ∀ st, e = .leave p st → st = .sleeping) : Bounded p b t := by
  obtain ⟨c, hc⟩ := hstep
  obtain ⟨hpriority, hlive⟩ := h.slot (hc.slot p) hleave
  refine ⟨hpriority, hlive, fun c' i hcpu => ?_, fun c' i x hcpu => ?_⟩
  · by_cases hc' : c' = c
    · subst hc'
      obtain ⟨how, he, hstate⟩ := hc.wentBack hcpu
      rw [hstate, hleave _ he]
    · have hback : s.cpu c' = .back i p := by rw [← hc.otherCpu hc', hcpu]
      have hlock : s.lock p = some c' := (hslots.cpus c').locked (by rw [hback]; rfl)
      rw [((hc.frame (hslots.cpus c)).locked p c' hc' hlock).2]
      exact h.back c' i hback
  · by_cases hc' : c' = c
    · subst hc'
      rcases hc.stored hcpu with hstore | ⟨hback, hx⟩
      · exact h.store c' i x hstore
      · rw [Proc.newPriority_sleeping (h.back c' i hback) hnprio, Option.some.injEq] at hx
        have hle := h.priority
        split at hx <;> omega
    · rw [hc.otherCpu hc'] at hcpu
      exact h.store c' i x hcpu

/-! ## At the top -/

omit [DecidableEq κ] in
/-- At the top the priority stays, until it is updated. -/
theorem SlotStep.top {q : Proc n} (h : SlotStep c s e p q)
    (htop : (s.proc p).priority = 0) (hnot : e ≠ .updated p) : q.priority = 0 := by
  cases h with
  | keeps h _ => rw [h.priority, htop]
  | freed => rfl
  | dispatched => exact htop
  | left how => rw [Proc.leave_priority, htop]
  | updated he => exact absurd he hnot
  | boosted => rfl

/-- What a scheduler is going to store to a process at the top moves it down. -/
def Falls (p : Fin n) (s : Machine n κ) : Prop :=
  ∀ c i priority, s.cpu c = .store i p priority → priority = some 1

theorem Falls.step (hnprio : 2 ≤ nprio) (h : Falls p s) (htop : (s.proc p).priority = 0)
    (hstep : Step nprio s e t) : Falls p t := by
  obtain ⟨c, hc⟩ := hstep
  intro c' i priority hcpu
  by_cases hc' : c' = c
  · subst hc'
    rcases hc.stored hcpu with hstore | ⟨-, rfl⟩
    · exact h c' i priority hstore
    · have hlevels : 0 < nprio - 1 := by omega
      simp [Proc.newPriority, htop, hlevels]
  · rw [hc.otherCpu hc'] at hcpu
    exact h c' i priority hcpu

/-! ## Runs -/

section Runs

variable {l : List (Event n × Machine n κ)}

theorem Bounded.run {b : ℕ} (hb : 0 < b) (hnprio : 2 ≤ nprio) (h : Bounded p b s)
    (hs : Reachable nprio s) (hrun : Runs (Step nprio) s l t)
    (hleave : ∀ st, .leave p st ∈ l.map Prod.fst → st = .sleeping) :
    Bounded p b t ∧ ∀ x ∈ l, (x.2.proc p).priority ≤ b := by
  induction hrun with
  | nil => exact ⟨h, by simp⟩
  | @snoc l t u e hrun hstep ih =>
      simp only [List.map_append, List.map_cons, List.map_nil, List.mem_append,
        List.mem_singleton] at hleave
      obtain ⟨hbounded, hall⟩ := ih fun st hst => hleave st (Or.inl hst)
      have hnext : Bounded p b u :=
        hbounded.step hb hnprio (hs.runs hrun).slots hstep fun st he =>
          hleave st (Or.inr he.symm)
      refine ⟨hnext, fun x hx => ?_⟩
      rcases List.mem_append.1 hx with hx | hx
      · exact hall x hx
      · rw [List.mem_singleton] at hx
        subst hx
        exact hnext.priority

theorem top_run (htop : (s.proc p).priority = 0) (hrun : Runs (Step nprio) s l t)
    (hnot : .updated p ∉ l.map Prod.fst) :
    (t.proc p).priority = 0 ∧ ∀ x ∈ l, (x.2.proc p).priority = 0 := by
  induction hrun with
  | nil => exact ⟨htop, by simp⟩
  | @snoc l t u e hrun hstep ih =>
      simp only [List.map_append, List.map_cons, List.map_nil, List.mem_append,
        List.mem_singleton, not_or] at hnot
      obtain ⟨ht, hall⟩ := ih hnot.1
      obtain ⟨c, hc⟩ := hstep
      have hu : (u.proc p).priority = 0 := (hc.slot p).top ht (Ne.symm hnot.2)
      refine ⟨hu, fun x hx => ?_⟩
      rcases List.mem_append.1 hx with hx | hx
      · exact hall x hx
      · rw [List.mem_singleton] at hx
        subst hx
        exact hu

theorem Falls.run (hnprio : 2 ≤ nprio) (h : Falls p s) (htop : (s.proc p).priority = 0)
    (hrun : Runs (Step nprio) s l t) (hall : ∀ x ∈ l, (x.2.proc p).priority = 0) :
    (Falls p t ∧ (t.proc p).priority = 0) ∧ .updated p ∉ l.map Prod.fst := by
  induction hrun with
  | nil => exact ⟨⟨h, htop⟩, by simp⟩
  | @snoc l t u e hrun hstep ih =>
      obtain ⟨⟨hfalls, ht⟩, hnot⟩ := ih fun x hx => hall x (List.mem_append_left _ hx)
      have hu : (u.proc p).priority = 0 := hall (e, u) (by simp)
      refine ⟨⟨hfalls.step hnprio ht hstep, hu⟩, ?_⟩
      simp only [List.map_append, List.map_cons, List.map_nil, List.mem_append,
        List.mem_singleton, not_or]
      refine ⟨hnot, fun he => ?_⟩
      obtain ⟨c, hc⟩ := hstep
      obtain ⟨i, priority, hcpu, hstored⟩ := hc.updated he.symm
      rw [hfalls c i priority hcpu, hu] at hstored
      simp at hstored

/-- A process that always blocks keeps its priority when it does not start at the top; at the
top it falls when it comes back for the first time. -/
theorem blocking_run_iff (hnprio : 2 ≤ nprio) (hs : Reachable nprio s)
    (hcur : ∀ c, (s.cpu c).current ≠ some p)
    (hlive : (s.proc p).state ≠ .unused ∧ (s.proc p).state ≠ .zombie)
    (hrun : Runs (Step nprio) s l t)
    (hleave : ∀ st, .leave p st ∈ l.map Prod.fst → st = .sleeping) :
    (∀ x ∈ l, (x.2.proc p).priority ≤ (s.proc p).priority) ↔
      0 < (s.proc p).priority ∨ .updated p ∉ l.map Prod.fst := by
  by_cases hb : 0 < (s.proc p).priority
  · have hbounded : Bounded p (s.proc p).priority s :=
      ⟨le_rfl, hlive, fun c i hcpu => absurd (by rw [hcpu]; rfl) (hcur c),
        fun c i x hcpu => absurd (by rw [hcpu]; rfl) (hcur c)⟩
    exact ⟨fun _ => Or.inl hb, fun _ => (hbounded.run hb hnprio hs hrun hleave).2⟩
  · have htop : (s.proc p).priority = 0 := by omega
    have hfalls : Falls p s := fun c i priority hcpu =>
      absurd (by rw [hcpu]; rfl) (hcur c)
    rw [htop]
    constructor
    · intro hall
      exact Or.inr
        (hfalls.run hnprio htop hrun fun x hx => Nat.le_zero.1 (hall x hx)).2
    · intro hnot x hx
      exact ((top_run htop hrun (hnot.resolve_left (by simp))).2 x hx).le

end Runs

/-- The first process on the only slot blocks when it runs. -/
def blockOnce : List (Action 1) :=
  [.schedule 1, .schedule 1, .schedule 1, .leave (.sleep 7), .schedule 1, .schedule 1]

def blockOnceEvents : List (Event 1) :=
  [.quiet, .dispatch 0 0, .quiet, .leave 0 .sleeping, .quiet, .updated 0]

theorem blocking_run_one :
    ∃ l t, Runs (Step 3) (boot Unit (0 : Fin 1)) l t ∧
      l.map Prod.fst = blockOnceEvents ∧
      ((∀ x ∈ l, (x.2.proc 0).priority ≤ ((boot Unit (0 : Fin 1)).proc 0).priority) ↔
        0 < ((boot Unit (0 : Fin 1)).proc 0).priority ∨ .updated 0 ∉ l.map Prod.fst) := by
  obtain ⟨l, t, hrun, hevents⟩ := exists_runs 3 () (boot Unit (0 : Fin 1)) blockOnce
    (fun r => decide (r.1.map Prod.fst = blockOnceEvents)) (by decide)
  simp only [decide_eq_true_eq] at hevents
  refine ⟨l, t, hrun, hevents, blocking_run_iff (by decide) (boot_reachable 3 0)
    (fun c => by simp [boot, Cpu.current]) (by decide) hrun ?_⟩
  intro st hst
  simp [hevents, blockOnceEvents] at hst
  exact hst

/-- init forks and blocks, and so does its child, for the first time. -/
def childBlocks (forked : Fin 2) : List (Action 2) :=
  [.schedule 1, .schedule 1, .schedule 1, .allocproc forked 2, .fork forked, .leave (.sleep 7),
    .schedule 1, .schedule 1, .schedule 1, .schedule 1, .schedule 1, .leave (.sleep 8),
    .schedule 1, .schedule 1]

def childBlocksEvents (init forked : Fin 2) : List (Event 2) :=
  [.quiet, .dispatch init 0, .quiet, .alloc forked, .wake forked, .leave init .sleeping, .quiet,
    .updated init, .quiet, .dispatch forked 0, .quiet, .leave forked .sleeping, .quiet,
    .updated forked]

/-- The child has blocked at its only dispatch and is on level 1. -/
theorem blocking_run_child :
    ∃ l t, Runs (Step 3) (boot Unit (0 : Fin 2)) l t ∧
      (∀ st, .leave 1 st ∈ l.map Prod.fst → st = .sleeping) ∧
      (∃ x ∈ l, x.1 = .alloc 1 ∧ (x.2.proc 1).priority = 0) ∧
      (t.proc 1).state = .sleeping ∧ (t.proc 1).priority = 1 := by
  obtain ⟨l, t, hrun, hproperty⟩ := exists_runs 3 () (boot Unit (0 : Fin 2)) (childBlocks 1)
    (fun r => decide (r.1.map Prod.fst = childBlocksEvents 0 1 ∧
      (∃ x ∈ r.1, x.1 = .alloc 1 ∧ (x.2.proc 1).priority = 0) ∧
      (r.2.proc 1).state = .sleeping ∧ (r.2.proc 1).priority = 1)) (by decide)
  simp only [decide_eq_true_eq] at hproperty
  obtain ⟨hevents, hcreated, hsleeps, hfallen⟩ := hproperty
  refine ⟨l, t, hrun, fun st hst => ?_, hcreated, hsleeps, hfallen⟩
  simp [hevents, childBlocksEvents] at hst
  exact hst

end SistOp.Mlfq
