import SistOp.SchedulerActions
import Mathlib.Tactic

/-!
# The periods of the boost

The only CPU with its clock.  `scheduler` looks at `ticks` between two passes over the table,
one for each level, and a pass lasts as long as the processes that it dispatches.  The boost of
tick `16 * m` is left out when a pass that began before this tick is still under way at its end.
-/

namespace SistOp.Mlfq

variable {n : ℕ}

namespace Cpu

/-- Behind the last slot of a level. -/
def passDone : Cpu n → Bool
  | .scan _ j => j = n
  | _ => false

/-- In `scheduler`, without a lock. -/
def idle : Cpu n → Bool
  | .scan _ _ | .boost _ _ => true
  | _ => false

def running : Cpu n → Bool
  | .run _ _ => true
  | _ => false

end Cpu

/-- The machine with its clock.  The code's `ticks` is an `uint`; it wraps at a multiple of 16. -/
structure Clocked (n : ℕ) where
  machine : Machine n Unit
  ticks : ℕ
  /-- Whether the process on the CPU has had its tick. -/
  ticked : Bool
  /-- The tick in which the pass over the level began, with the boost in front of it; the first
  pass has no test in front of it. -/
  passSince : Option ℕ

inductive ClockEvent (n : ℕ) where
  | cpu (e : Event n)
  /-- `scheduler` enters the loop of the boost. -/
  | boost
  | clockintr
  deriving DecidableEq

namespace Clocked

/-- The next step of `scheduler`, by the clock of the machine. -/
def schedule (nprio : ℕ) (s : Clocked n) : Option (ClockEvent n × Clocked n) :=
  (s.machine.schedule nprio s.ticks ()).map fun x =>
    if (s.machine.cpu ()).passDone then
      (if s.ticks % 16 = 0 then .boost else .cpu x.1,
        { s with machine := x.2, ticked := false, passSince := some s.ticks })
    else (.cpu x.1, { s with machine := x.2, ticked := false })

def boot (initproc : Fin n) : Clocked n where
  machine := Mlfq.boot Unit initproc
  ticks := 0
  ticked := false
  passSince := none

end Clocked

/-- A step of the CPU or of its clock.  A process on the CPU has one tick at most. -/
inductive ClockStep (nprio : ℕ) (s : Clocked n) : ClockEvent n → Clocked n → Prop where
  | scheduler {e : ClockEvent n} {t : Clocked n} (h : s.schedule nprio = some (e, t)) :
      ClockStep nprio s e t
  | process {e : Event n} {t : Machine n Unit} (hcpu : (s.machine.cpu ()).running)
      (h : CpuStep nprio () s.machine e t) :
      ClockStep nprio s (.cpu e) { s with machine := t }
  | wakeup {k : Fin n} {e : Event n} {p : Proc n} (hcpu : (s.machine.cpu ()).idle)
      (hfree : s.machine.lock k = none) (h : WakeupSection none k (s.machine.proc k) e p) :
      ClockStep nprio s (.cpu e) { s with machine := s.machine.setProc k p }
  | clockintrIdle (hcpu : (s.machine.cpu ()).idle) :
      ClockStep nprio s .clockintr { s with ticks := s.ticks + 1 }
  | clockintrRun (hcpu : (s.machine.cpu ()).running) (hfirst : s.ticked = false) :
      ClockStep nprio s .clockintr { s with ticks := s.ticks + 1, ticked := true }

section Steps

variable {nprio : ℕ} {s u : Clocked n} {e : ClockEvent n}

/-- What a step does to the clock and to the pass. -/
inductive ClockEffect (s u : Clocked n) : ClockEvent n → Prop where
  | clockintr (hticks : u.ticks = s.ticks + 1) (hpass : u.passSince = s.passSince) :
      ClockEffect s u .clockintr
  | boost (hperiod : s.ticks % 16 = 0) (hticks : u.ticks = s.ticks)
      (hpass : u.passSince = some s.ticks) : ClockEffect s u .boost
  | level {e : Event n} (hperiod : s.ticks % 16 ≠ 0) (hticks : u.ticks = s.ticks)
      (hpass : u.passSince = some s.ticks) : ClockEffect s u (.cpu e)
  | other {e : Event n} (hticks : u.ticks = s.ticks) (hpass : u.passSince = s.passSince) :
      ClockEffect s u (.cpu e)

theorem ClockStep.effect (h : ClockStep nprio s e u) : ClockEffect s u e := by
  cases h with
  | scheduler h =>
      unfold Clocked.schedule at h
      rw [Option.map_eq_some_iff] at h
      obtain ⟨x, -, h⟩ := h
      split_ifs at h with hdone hperiod
      · obtain ⟨rfl, rfl⟩ := Prod.mk.inj h
        exact .boost hperiod rfl rfl
      · obtain ⟨rfl, rfl⟩ := Prod.mk.inj h
        exact .level hperiod rfl rfl
      · obtain ⟨rfl, rfl⟩ := Prod.mk.inj h
        exact .other rfl rfl
  | process => exact .other rfl rfl
  | wakeup => exact .other rfl rfl
  | clockintrIdle => exact .clockintr rfl rfl
  | clockintrRun => exact .clockintr rfl rfl

/-- The clock apart, this is the machine. -/
theorem ClockStep.machine (h : ClockStep nprio s e u) :
    u.machine = s.machine ∨ ∃ e', Step nprio s.machine e' u.machine := by
  cases h with
  | scheduler h =>
      unfold Clocked.schedule at h
      rw [Option.map_eq_some_iff] at h
      obtain ⟨x, hx, h⟩ := h
      refine Or.inr ⟨x.1, (), ?_⟩
      have hstep := schedule_step hx
      split_ifs at h <;> obtain ⟨-, rfl⟩ := Prod.mk.inj h <;> exact hstep
  | process _ h => exact Or.inr ⟨_, (), h⟩
  | @wakeup k e p hcpu hfree h =>
      refine Or.inr ⟨e, (), .interrupt ?_ hfree h⟩
      cases hc : s.machine.cpu () with
      | scan i j => exact Or.inl ⟨i, j, rfl⟩
      | boost i j => exact Or.inr ⟨i, j, rfl⟩
      | _ => simp [hc, Cpu.idle] at hcpu
  | clockintrIdle => exact Or.inl rfl
  | clockintrRun => exact Or.inl rfl

theorem Clocked.reachable {initproc : Fin n} {l : List (ClockEvent n × Clocked n)}
    (h : Runs (ClockStep nprio) (Clocked.boot initproc) l s) : Reachable nprio s.machine := by
  induction h with
  | nil => exact boot_reachable nprio initproc
  | snoc _ hstep ih =>
      rcases hstep.machine with heq | ⟨e', hstep'⟩
      · rwa [heq]
      · exact ih.runs (Runs.nil.snoc hstep')

end Steps

/-! ## Runs that are computed -/

inductive ClockAction (n : ℕ) where
  | schedule
  /-- A tick of the process on the CPU. -/
  | clockintr
  | process (action : Action n)

def Clocked.act (nprio : ℕ) (s : Clocked n) : ClockAction n → Option (ClockEvent n × Clocked n)
  | .schedule => s.schedule nprio
  | .clockintr =>
      if (s.machine.cpu ()).running ∧ s.ticked = false then
        some (.clockintr, { s with ticks := s.ticks + 1, ticked := true })
      else none
  | .process action =>
      if (s.machine.cpu ()).running then
        (s.machine.act nprio () action).map fun x => (.cpu x.1, { s with machine := x.2 })
      else none

theorem Clocked.act_step {nprio : ℕ} {s u : Clocked n} {e : ClockEvent n}
    {action : ClockAction n} (h : s.act nprio action = some (e, u)) : ClockStep nprio s e u := by
  cases action with
  | schedule => exact .scheduler h
  | clockintr =>
      simp only [Clocked.act] at h
      split_ifs at h with hcpu
      obtain ⟨rfl, rfl⟩ := Prod.mk.inj (Option.some.inj h)
      exact .clockintrRun hcpu.1 hcpu.2
  | process action =>
      simp only [Clocked.act] at h
      split_ifs at h with hcpu
      rw [Option.map_eq_some_iff] at h
      obtain ⟨x, hact, h⟩ := h
      obtain ⟨rfl, rfl⟩ := Prod.mk.inj h
      exact .process hcpu (Mlfq.act_step hact)

theorem exists_clockRuns (nprio : ℕ) (s : Clocked n) (actions : List (ClockAction n))
    (property : List (ClockEvent n × Clocked n) × Clocked n → Bool)
    (h : (trace (fun s => s.act nprio) actions s).any property = true) :
    ∃ l t, Runs (ClockStep nprio) s l t ∧ property (l, t) = true :=
  Runs.exists_of_trace (fun s a e u (hact : s.act nprio a = some (e, u)) =>
    Clocked.act_step hact) h

/-! ## Periods -/

/-- The boost is executed in the period `m`. -/
def Boosted (m : ℕ) (l : List (ClockEvent n × Clocked n)) : Prop :=
  ∃ x ∈ l, x.1 = .boost ∧ 16 * m ≤ x.2.ticks ∧ x.2.ticks < 16 * m + 16

/-- Tick `16 * m` ends in a pass that began in this tick. -/
def EndsInTime (m : ℕ) (s : Clocked n) (e : ClockEvent n) : Prop :=
  e = .clockintr → s.ticks = 16 * m → s.passSince = some (16 * m)

section Periods

variable {nprio m : ℕ} {s t u : Clocked n} {e : ClockEvent n}
  {l : List (ClockEvent n × Clocked n)}

theorem boosted_append_iff :
    Boosted m (l ++ [(e, u)]) ↔
      Boosted m l ∨ e = .boost ∧ 16 * m ≤ u.ticks ∧ u.ticks < 16 * m + 16 := by
  simp only [Boosted, List.mem_append, List.mem_singleton, or_and_right, exists_or,
    exists_eq_left]

/-- What a run knows of the period `m`. -/
structure Sampled (m : ℕ) (l : List (ClockEvent n × Clocked n)) (s : Clocked n) : Prop where
  since : ∀ k, s.passSince = some k → k ≤ s.ticks
  early : s.ticks < 16 * m → ¬ Boosted m l
  inTick : s.ticks = 16 * m → (Boosted m l ↔ s.passSince = some (16 * m))

theorem Sampled.boot (initproc : Fin n) : Sampled m [] (Clocked.boot initproc) where
  since k h := by simp [Clocked.boot] at h
  early _ := by simp [Boosted]
  inTick _ := by simp [Boosted, Clocked.boot]

theorem Sampled.step (h : Sampled m l s) (hstep : ClockEffect s u e) :
    Sampled m (l ++ [(e, u)]) u := by
  cases hstep with
  | clockintr hticks hpass =>
      have hsame : Boosted m (l ++ [(.clockintr, u)]) ↔ Boosted m l := by
        simp [boosted_append_iff]
      refine ⟨fun k hk => ?_, fun hlt => ?_, fun hat => ?_⟩
      · have := h.since k (hpass.symm.trans hk)
        omega
      · rw [hsame]
        exact h.early (by omega)
      · rw [hsame, hpass]
        refine iff_of_false (h.early (by omega)) fun hk => ?_
        have := h.since _ hk
        omega
  | boost hperiod hticks hpass =>
      refine ⟨fun k hk => ?_, fun hlt => ?_, fun hat => ?_⟩
      · obtain rfl := Option.some.inj (hpass.symm.trans hk)
        exact hticks.ge
      · rw [boosted_append_iff]
        rintro (hold | ⟨-, hle, -⟩)
        · exact h.early (by omega) hold
        · omega
      · rw [boosted_append_iff]
        exact iff_of_true (.inr ⟨rfl, by omega, by omega⟩) (by rw [hpass, ← hticks, hat])
  | @level e hperiod hticks hpass =>
      have hsame : Boosted m (l ++ [(.cpu e, u)]) ↔ Boosted m l := by
        simp [boosted_append_iff]
      refine ⟨fun k hk => ?_, fun hlt => ?_, fun hat => by omega⟩
      · obtain rfl := Option.some.inj (hpass.symm.trans hk)
        exact hticks.ge
      · rw [hsame]
        exact h.early (by omega)
  | @other e hticks hpass =>
      have hsame : Boosted m (l ++ [(.cpu e, u)]) ↔ Boosted m l := by
        simp [boosted_append_iff]
      refine ⟨fun k hk => ?_, fun hlt => ?_, fun hat => ?_⟩
      · rw [hticks]
        exact h.since k (hpass.symm.trans hk)
      · rw [hsame]
        exact h.early (by omega)
      · rw [hsame, hpass]
        exact h.inTick (by omega)

theorem Sampled.run {initproc : Fin n} (h : Runs (ClockStep nprio) (Clocked.boot initproc) l s) :
    Sampled m l s := by
  induction h with
  | nil => exact .boot initproc
  | snoc _ hstep ih => exact ih.step hstep.effect

/-- Behind tick `16 * m`, the next step leaves the period as it is. -/
theorem Sampled.boosted_iff (h : Sampled m l s) (hstep : ClockEffect s u e) :
    (16 * m < u.ticks → Boosted m (l ++ [(e, u)])) ↔
      (16 * m < s.ticks → Boosted m l) ∧ EndsInTime m s e := by
  rw [boosted_append_iff]
  cases hstep with
  | clockintr hticks hpass =>
      rcases lt_trichotomy s.ticks (16 * m) with hlt | hat | hgt
      · refine iff_of_true (fun _ => by omega) ⟨fun _ => by omega, fun _ _ => by omega⟩
      · -- the tick ends
        have hin := h.inTick hat
        simp [EndsInTime, hticks, hat, hin]
      · simp [EndsInTime, hticks, hgt.ne', hgt, hgt.trans (Nat.lt_succ_self _)]
  | boost hperiod hticks hpass =>
      simp only [EndsInTime, hticks, true_and, reduceCtorEq, false_implies, and_true]
      constructor
      · intro hboosted hlt
        exact (hboosted hlt).resolve_right fun hperiod => by omega
      · exact fun hboosted hlt => .inl (hboosted hlt)
  | level hperiod hticks hpass => simp [EndsInTime, hticks]
  | other hticks hpass => simp [EndsInTime, hticks]

/-- In a run that goes past tick `16 * m`, the boost is executed in the period of this tick
exactly when the tick ends in a pass that began in it. -/
theorem boosted_runs_iff {initproc : Fin n}
    (hrun : Runs (ClockStep nprio) (Clocked.boot initproc) l t) (hpast : 16 * m < t.ticks) :
    Boosted m l ↔
      Runs (fun s e u => ClockStep nprio s e u ∧ EndsInTime m s e) (Clocked.boot initproc) l t := by
  suffices hall : Runs (fun s e u => ClockStep nprio s e u ∧ EndsInTime m s e)
      (Clocked.boot initproc) l t ↔ (16 * m < t.ticks → Boosted m l) by
    rw [hall]
    exact ⟨fun h _ => h, fun h => h hpast⟩
  clear hpast
  induction hrun with
  | nil => simp [Runs.nil, Clocked.boot]
  | snoc hfront hstep ih =>
      rw [hfront.restricted_snoc_iff hstep, ih,
        (Sampled.run hfront).boosted_iff hstep.effect]

end Periods

/-- The scheduler passes by a slot. -/
def skipSlot : List (ClockAction n) := [.schedule, .schedule]

/-- The process of a slot runs until it yields. -/
def runSlot (actions : List (ClockAction n)) : List (ClockAction n) :=
  [.schedule, .schedule, .schedule] ++ actions ++ [.process (.leave .yield), .schedule, .schedule]

/-- init yields before its tick, and the scheduler boosts behind every level. -/
def boostFirst : List (ClockAction 1) :=
  runSlot [] ++ [.schedule, .schedule, .schedule] ++
    skipSlot ++ [.schedule, .schedule, .schedule] ++
    skipSlot ++ [.schedule, .schedule, .schedule] ++ runSlot [.clockintr]

theorem boosted_runs_iff_one :
    ∃ l t, Runs (ClockStep 3) (Clocked.boot (0 : Fin 1)) l t ∧ 0 < t.ticks ∧ Boosted 0 l ∧
      Runs (fun s e u => ClockStep 3 s e u ∧ EndsInTime 0 s e) (Clocked.boot 0) l t := by
  obtain ⟨l, t, hrun, h⟩ := exists_clockRuns 3 (Clocked.boot (0 : Fin 1)) boostFirst
    (fun r => decide (0 < r.2.ticks ∧ ∃ x ∈ r.1, x.1 = .boost ∧ x.2.ticks < 16)) (by decide +kernel)
  obtain ⟨hpast, x, hx, hboost, hlt⟩ := of_decide_eq_true h
  have hboosted : Boosted 0 l := ⟨x, hx, hboost, Nat.zero_le _, hlt⟩
  exact ⟨l, t, hrun, hpast, hboosted, (boosted_runs_iff hrun hpast).mp hboosted⟩

/-- A pass over two slots, with the test behind it. -/
def passOver (first second : List (ClockAction 2)) : List (ClockAction 2) :=
  first ++ second ++ [.schedule]

/-- init computes, forks on level 1, and both processes compute on the last level. -/
def computeRounds (forked : Fin 2) (rounds : ℕ) : List (ClockAction 2) :=
  passOver (runSlot [.clockintr]) skipSlot ++
    passOver (runSlot [.process (.allocproc forked 2), .process (.fork forked), .clockintr])
      skipSlot ++
    passOver (runSlot [.clockintr]) skipSlot ++ passOver skipSlot (runSlot [.clockintr]) ++
    passOver skipSlot (runSlot [.clockintr]) ++
    passOver (runSlot [.clockintr]) (runSlot [.clockintr]) ++
    (List.replicate rounds (passOver skipSlot skipSlot ++ passOver skipSlot skipSlot ++
      passOver (runSlot [.clockintr]) (runSlot [.clockintr]))).flatten

/-- Two processes that compute take the passes over the last level from odd ticks to odd ticks:
tick 16 lies inside of one. -/
theorem boost_missed :
    ∃ l t, Runs (ClockStep 3) (Clocked.boot (0 : Fin 2)) l t ∧ 16 * 1 + 16 < t.ticks ∧
      ¬ Boosted 1 l := by
  obtain ⟨l, t, hrun, h⟩ := exists_clockRuns 3 (Clocked.boot (0 : Fin 2)) (computeRounds 1 13)
    (fun r => decide (32 < r.2.ticks ∧ ∀ x ∈ r.1, x.1 ≠ .boost)) (by decide +kernel)
  obtain ⟨hpast, hnone⟩ := of_decide_eq_true h
  refine ⟨l, t, hrun, hpast, ?_⟩
  rintro ⟨x, hx, hboost, -⟩
  exact hnone x hx hboost

end SistOp.Mlfq
