import SistOp.Semaphores
import Mathlib.Tactic

/-!
# pingpong

The program `pingpong.c` behind its `fork`, with the semaphores 0 and 1 of the kernel.  A step
is a call of `sem_down` or `sem_up`, a `printf`, or the test or one of the two stores of
`sem_close`, which takes no lock.
-/

namespace SistOp.Xv6.Pingpong

def parent : Fin 2 := 0

def child : Fin 2 := 1

inductive Line where
  | ping | pong
  deriving Repr, DecidableEq

/-- The next call of a process, with its loop variable. -/
inductive Pc where
  | down (i : ℕ)
  /-- In the loop of `sem_down`, behind `sleep`. -/
  | asleep (i : ℕ)
  | print (i : ℕ)
  | up (i : ℕ)
  | closeTest (sem : Int32)
  | closeValue (sem : Int32)
  | closeInit (sem : Int32)
  | done
  deriving DecidableEq

/-- The semaphore that a process lowers. -/
def downSem (p : Fin 2) : Int32 := if p = child then 0 else 1

/-- The semaphore that a process raises. -/
def upSem (p : Fin 2) : Int32 := if p = child then 1 else 0

def line (p : Fin 2) : Line := if p = child then .ping else .pong

def other (p : Fin 2) : Fin 2 := if p = child then parent else child

/-- The test of the loop; `sem_close(1)` comes behind it. -/
def loopHead (N i : ℕ) : Pc := if i < N then .down i else .closeTest 1

/-- `sem_close(0)` comes behind `sem_close(1)`. -/
def afterClose (sem : Int32) : Pc := if sem = 1 then .closeTest 0 else .done

structure State where
  machine : Machine 2
  pc : Fin 2 → Pc
  printed : List Line

namespace State

def goto (s : State) (p : Fin 2) (pc : Pc) : State :=
  { s with pc := Function.update s.pc p pc }

def setMachine (s : State) (machine : Machine 2) : State := { s with machine := machine }

def printf (s : State) (text : Line) : State := { s with printed := s.printed ++ [text] }

section Fields

variable (s : State) (p : Fin 2) (pc : Pc) (machine : Machine 2) (text : Line)

@[simp] theorem goto_machine : (s.goto p pc).machine = s.machine := rfl
@[simp] theorem goto_pc : (s.goto p pc).pc = Function.update s.pc p pc := rfl
@[simp] theorem goto_printed : (s.goto p pc).printed = s.printed := rfl
@[simp] theorem setMachine_machine : (s.setMachine machine).machine = machine := rfl
@[simp] theorem setMachine_pc : (s.setMachine machine).pc = s.pc := rfl
@[simp] theorem setMachine_printed : (s.setMachine machine).printed = s.printed := rfl
@[simp] theorem printf_machine : (s.printf text).machine = s.machine := rfl
@[simp] theorem printf_pc : (s.printf text).pc = s.pc := rfl
@[simp] theorem printf_printed : (s.printf text).printed = s.printed ++ [text] := rfl

end Fields

/-- `sem_down` has taken a token, or the process sleeps. -/
def downed (s : State) (p : Fin 2) (i : ℕ) (result : Option Int32 × Machine 2) : State :=
  match result.1 with
  | some _ => (s.setMachine result.2).goto p (.print i)
  | none => (s.setMachine result.2).goto p (.asleep i)

/-- The next step of a process; `taken` says whether `sem_close` finds the lock taken by the
other process. -/
def next (N : ℕ) (taken : Bool) (p : Fin 2) (s : State) : Option State :=
  match s.pc p with
  | .down i => some (s.downed p i (s.machine.semDown p (downSem p)))
  | .asleep i =>
      if (s.machine.procs p).state = .runnable then
        some (s.downed p i ((s.machine.leaveSleep p).semDownLoop p (downSem p)))
      else none
  | .print i => some ((s.printf (line p)).goto p (.up i))
  | .up i =>
      some ((s.setMachine (s.machine.semUp p (upSem p)).2).goto p (loopHead N (i + 1)))
  | .closeTest sem =>
      if taken then
        if s.pc (other p) = .done then none else some (s.goto p (afterClose sem))
      else some (s.goto p (.closeValue sem))
  | .closeValue sem =>
      some ((s.setMachine (s.machine.setValue sem 0)).goto p (.closeInit sem))
  | .closeInit sem =>
      some ((s.setMachine (s.machine.setInitValue sem 0)).goto p (afterClose sem))
  | .done => none

end State

/-- The event of a step is the process with the place that it leaves. -/
def Step (N : ℕ) (s : State) (e : Fin 2 × Pc) (t : State) : Prop :=
  s.pc e.1 = e.2 ∧ ∃ taken, s.next N taken e.1 = some t

/-- The processes behind `fork`. -/
def start (N : ℕ) (m : Machine 2) : State where
  machine := (((m.semOpen 0 1).2.semOpen 1 1).2.semDown parent 1).2
  pc := fun _ => loopHead N 0
  printed := []

/-! ## The steps -/

/-- What a step of a process does. -/
inductive Move (N : ℕ) (p : Fin 2) (s : State) : State → Prop where
  | take {i : ℕ} (hpc : s.pc p = .down i)
      (hvalue : 0 < (s.machine.semArray (downSem p)).value) :
      Move N p s ((s.setMachine (s.machine.setValue (downSem p)
        ((s.machine.semArray (downSem p)).value - 1))).goto p (.print i))
  | sleep {i : ℕ} (hpc : s.pc p = .down i)
      (hvalue : (s.machine.semArray (downSem p)).value ≤ 0) :
      Move N p s ((s.setMachine (s.machine.sleep p (downSem p))).goto p (.asleep i))
  | takeAgain {i : ℕ} (hpc : s.pc p = .asleep i)
      (hstate : (s.machine.procs p).state = .runnable)
      (hvalue : 0 < (s.machine.semArray (downSem p)).value) :
      Move N p s ((s.setMachine ((s.machine.leaveSleep p).setValue (downSem p)
        ((s.machine.semArray (downSem p)).value - 1))).goto p (.print i))
  | sleepAgain {i : ℕ} (hpc : s.pc p = .asleep i)
      (hstate : (s.machine.procs p).state = .runnable)
      (hvalue : (s.machine.semArray (downSem p)).value ≤ 0) :
      Move N p s
        ((s.setMachine ((s.machine.leaveSleep p).sleep p (downSem p))).goto p (.asleep i))
  | print {i : ℕ} (hpc : s.pc p = .print i) :
      Move N p s ((s.printf (line p)).goto p (.up i))
  | upFails {i : ℕ} (hpc : s.pc p = .up i)
      (hvalue : (s.machine.semArray (upSem p)).initValue =
        (s.machine.semArray (upSem p)).value) :
      Move N p s (s.goto p (loopHead N (i + 1)))
  | up {i : ℕ} (hpc : s.pc p = .up i)
      (hvalue : (s.machine.semArray (upSem p)).initValue ≠
        (s.machine.semArray (upSem p)).value) :
      Move N p s ((s.setMachine ((s.machine.setValue (upSem p)
        ((s.machine.semArray (upSem p)).value + 1)).wakeup p (upSem p))).goto p
          (loopHead N (i + 1)))
  | closeTaken {sem : Int32} (hpc : s.pc p = .closeTest sem)
      (hother : s.pc (other p) ≠ .done) : Move N p s (s.goto p (afterClose sem))
  | closeTest {sem : Int32} (hpc : s.pc p = .closeTest sem) :
      Move N p s (s.goto p (.closeValue sem))
  | closeValue {sem : Int32} (hpc : s.pc p = .closeValue sem) :
      Move N p s ((s.setMachine (s.machine.setValue sem 0)).goto p (.closeInit sem))
  | closeInit {sem : Int32} (hpc : s.pc p = .closeInit sem) :
      Move N p s ((s.setMachine (s.machine.setInitValue sem 0)).goto p (afterClose sem))

variable {N : ℕ} {p : Fin 2} {s t : State} {e : Fin 2 × Pc}

theorem move_of_next {taken : Bool} (h : s.next N taken p = some t) : Move N p s t := by
  unfold State.next at h
  cases hpc : s.pc p with
  | down i =>
      simp only [hpc, Option.some.injEq] at h
      subst h
      by_cases hvalue : 0 < (s.machine.semArray (downSem p)).value
      · rw [State.downed, Machine.semDown_eq_loop, Machine.semDownLoop_some _ _ _ hvalue]
        exact .take hpc hvalue
      · rw [Int32.not_lt] at hvalue
        rw [State.downed, Machine.semDown_eq_loop, Machine.semDownLoop_none _ _ _ hvalue]
        exact .sleep hpc hvalue
  | asleep i =>
      simp only [hpc] at h
      split_ifs at h with hstate
      simp only [Option.some.injEq] at h
      subst h
      by_cases hvalue : 0 < (s.machine.semArray (downSem p)).value
      · rw [State.downed, Machine.semDownLoop_some _ _ _ (by simpa using hvalue)]
        exact .takeAgain hpc hstate hvalue
      · rw [Int32.not_lt] at hvalue
        rw [State.downed, Machine.semDownLoop_none _ _ _ (by simpa using hvalue)]
        exact .sleepAgain hpc hstate hvalue
  | print i =>
      simp only [hpc, Option.some.injEq] at h
      subst h
      exact .print hpc
  | up i =>
      simp only [hpc, Option.some.injEq] at h
      subst h
      unfold Machine.semUp
      split
      next hvalue => exact .upFails hpc hvalue
      next hvalue => exact .up hpc hvalue
  | closeTest sem =>
      simp only [hpc] at h
      split_ifs at h with htaken hdone <;> simp only [Option.some.injEq] at h <;> subst h
      · exact .closeTaken hpc hdone
      · exact .closeTest hpc
  | closeValue sem =>
      simp only [hpc, Option.some.injEq] at h
      subst h
      exact .closeValue hpc
  | closeInit sem =>
      simp only [hpc, Option.some.injEq] at h
      subst h
      exact .closeInit hpc
  | done => simp [hpc] at h

theorem Step.move (h : Step N s e t) : Move N e.1 s t := by
  obtain ⟨-, taken, hnext⟩ := h
  exact move_of_next hnext

/-- The other process stays where it is. -/
theorem Move.otherPc (h : Move N p s t) {q : Fin 2} (hq : q ≠ p) : t.pc q = s.pc q := by
  cases h <;> simp [hq]

/-! ## Runs that are computed -/

/-- A step of a chosen process. -/
def act (N : ℕ) (s : State) (a : Fin 2 × Bool) : Option ((Fin 2 × Pc) × State) :=
  (s.next N a.2 a.1).map fun t => ((a.1, s.pc a.1), t)

theorem act_step (s : State) (a : Fin 2 × Bool) (e : Fin 2 × Pc) (t : State)
    (h : act N s a = some (e, t)) : Step N s e t := by
  simp only [act, Option.map_eq_some_iff, Prod.mk.injEq] at h
  obtain ⟨u, hnext, rfl, rfl⟩ := h
  exact ⟨rfl, a.2, hnext⟩

theorem exists_runs (N : ℕ) (s : State) (actions : List (Fin 2 × Bool))
    (property : List ((Fin 2 × Pc) × State) × State → Bool)
    (h : (trace (act N) actions s).any property = true) :
    ∃ l t, Runs (Step N) s l t ∧ property (l, t) = true :=
  Runs.exists_of_trace act_step h

/-- Two running processes and closed semaphores. -/
def idle : Machine 2 where
  semArray := fun _ => ⟨0, 0⟩
  procs := fun _ => ⟨.running, none, false⟩

end SistOp.Xv6.Pingpong
