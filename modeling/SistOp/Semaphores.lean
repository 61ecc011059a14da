import Mathlib.Data.Fintype.Card
import Mathlib.Tactic
import SistOp.TransitionSystem

/-!
# Semaphores

`sem.c` with `sleep` and `wakeup` of `proc.c`, cut where a lock is given up: each function is
what a process does between taking the lock of the semaphore and releasing it.
-/

namespace SistOp.Xv6

/-! ## Values -/

theorem toInt_sub_one {v : Int32} (h : 0 < v) : (v - 1).toInt = v.toInt - 1 := by
  have hlt := v.toInt_lt
  rw [Int32.lt_iff_toInt_lt, Int32.toInt_zero] at h
  rw [Int32.toInt_sub, Int32.toInt_one, Int.bmod_eq_of_le] <;> omega

theorem toInt_add_one {v k : Int32} (h : v < k) : (v + 1).toInt = v.toInt + 1 := by
  have hge := v.le_toInt
  have hlt := k.toInt_lt
  rw [Int32.lt_iff_toInt_lt] at h
  rw [Int32.toInt_add, Int32.toInt_one, Int.bmod_eq_of_le] <;> omega

/-! ## The calls -/

inductive ProcState where
  | unused | used | sleeping | runnable | running | zombie
  deriving Repr, DecidableEq

/-- A process; its channel is the index of the semaphore it sleeps on. -/
structure Proc where
  state : ProcState
  chan : Option Int32
  killed : Bool
  deriving DecidableEq

structure Semaphore where
  value : Int32
  initValue : Int32
  deriving DecidableEq

structure Machine (n : ℕ) where
  semArray : Int32 → Semaphore
  procs : Fin n → Proc

def maxSem : Int32 := 32

namespace Machine

variable {n : ℕ}

def setValue (m : Machine n) (sem value : Int32) : Machine n :=
  { m with semArray := Function.update m.semArray sem { m.semArray sem with value := value } }

def setInitValue (m : Machine n) (sem value : Int32) : Machine n :=
  { m with semArray := Function.update m.semArray sem { m.semArray sem with initValue := value } }

def setProc (m : Machine n) (p : Fin n) (proc : Proc) : Machine n :=
  { m with procs := Function.update m.procs p proc }

/-- `sleep` up to the switch to the scheduler. -/
def sleep (m : Machine n) (p : Fin n) (chan : Int32) : Machine n :=
  m.setProc p { m.procs p with chan := some chan, state := .sleeping }

/-- The scheduler runs a runnable process, which leaves `sleep`. -/
def leaveSleep (m : Machine n) (p : Fin n) : Machine n :=
  m.setProc p { m.procs p with chan := none, state := .running }

def wakeup (m : Machine n) (self : Fin n) (chan : Int32) : Machine n :=
  { m with procs := fun p =>
      if p ≠ self ∧ (m.procs p).state = .sleeping ∧ (m.procs p).chan = some chan then
        { m.procs p with state := .runnable }
      else m.procs p }

def kill (m : Machine n) (p : Fin n) : Machine n :=
  let proc := { m.procs p with killed := true }
  m.setProc p (if proc.state = .sleeping then { proc with state := .runnable } else proc)

def semOpen (m : Machine n) (sem value : Int32) : Int32 × Machine n :=
  if maxSem < sem then (-1, m)
  else (0, (m.setValue sem value).setInitValue sem value)

/-- The loop of `sem_down`: it takes a token, or nothing is returned and the process sleeps. -/
def semDownLoop (m : Machine n) (p : Fin n) (sem : Int32) : Option Int32 × Machine n :=
  if (m.semArray sem).value ≤ 0 then (none, m.sleep p sem)
  else (some 0, m.setValue sem ((m.semArray sem).value - 1))

def semDown (m : Machine n) (p : Fin n) (sem : Int32) : Option Int32 × Machine n :=
  if 0 < (m.semArray sem).value then (some 0, m.setValue sem ((m.semArray sem).value - 1))
  else m.semDownLoop p sem

def semUp (m : Machine n) (p : Fin n) (sem : Int32) : Int32 × Machine n :=
  if (m.semArray sem).initValue = (m.semArray sem).value then (-1, m)
  else (0, (m.setValue sem ((m.semArray sem).value + 1)).wakeup p sem)

/-- `sem_close` looks at the lock bit of the semaphore and does not take the lock. -/
def semClose (m : Machine n) (sem : Int32) (locked : Bool) : Int32 × Machine n :=
  if locked then (-1, m) else (0, (m.setValue sem 0).setInitValue sem 0)

section SemArray

variable (m : Machine n) (p : Fin n) (sem value : Int32)

@[simp] theorem setValue_semArray :
    (m.setValue sem value).semArray sem = ⟨value, (m.semArray sem).initValue⟩ := by
  simp [setValue]

@[simp] theorem setInitValue_semArray :
    (m.setInitValue sem value).semArray sem = ⟨(m.semArray sem).value, value⟩ := by
  simp [setInitValue]

@[simp] theorem setProc_semArray (proc : Proc) : (m.setProc p proc).semArray = m.semArray := rfl

@[simp] theorem sleep_semArray : (m.sleep p sem).semArray = m.semArray := rfl

@[simp] theorem leaveSleep_semArray : (m.leaveSleep p).semArray = m.semArray := rfl

@[simp] theorem wakeup_semArray : (m.wakeup p sem).semArray = m.semArray := rfl

@[simp] theorem kill_semArray : (m.kill p).semArray = m.semArray := rfl

theorem semDownLoop_none (h : (m.semArray sem).value ≤ 0) :
    m.semDownLoop p sem = (none, m.sleep p sem) := if_pos h

theorem semDownLoop_some (h : 0 < (m.semArray sem).value) :
    m.semDownLoop p sem = (some 0, m.setValue sem ((m.semArray sem).value - 1)) :=
  if_neg (by rwa [Int32.not_le])

/-- The first test of `sem_down` is the one of its loop. -/
theorem semDown_eq_loop : m.semDown p sem = m.semDownLoop p sem := by
  unfold semDown
  split_ifs with h
  · rw [semDownLoop_some m p sem h]
  · rfl

end SemArray

end Machine

end SistOp.Xv6
