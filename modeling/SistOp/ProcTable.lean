import Mathlib.Logic.Function.Basic
import Mathlib.Tactic

/-!
# The process table

The entries of `proc.c` with the fields of the scheduler, and what the functions of that
file do to one entry between taking and releasing its lock.
-/

namespace SistOp.Mlfq

inductive ProcState where
  | unused | used | sleeping | runnable | running | zombie
  deriving Repr, DecidableEq

/-- `struct proc`: the fields that `proc.c` tests to change the state of a process, and the
two of the scheduler.  A channel is an address. -/
structure Proc (n : ℕ) where
  state : ProcState
  chan : ℕ
  killed : Bool
  xstate : ℤ
  pid : ℕ
  parent : Option (Fin n)
  priority : ℕ
  chosen : ℕ
  deriving DecidableEq

/-- How a process gives the CPU back. -/
inductive Leave where
  | yield
  | sleep (chan : ℕ)
  | exit (status : ℤ)
  deriving DecidableEq

def Leave.state : Leave → ProcState
  | .yield => .runnable
  | .sleep _ => .sleeping
  | .exit _ => .zombie

namespace Proc

variable {n : ℕ}

/-- `freeproc`. -/
def freeproc (_ : Proc n) : Proc n where
  state := .unused
  chan := 0
  killed := false
  xstate := 0
  pid := 0
  parent := none
  priority := 0
  chosen := 0

/-- `allocproc` from the label `found` on. -/
def found (p : Proc n) (pid : ℕ) : Proc n := { p with pid := pid, state := .used }

/-- What `scheduler` stores in front of `swtch`; the counter is an `uint`. -/
def dispatched (p : Proc n) : Proc n :=
  { p with chosen := (p.chosen + 1) % 2 ^ 32, state := .running }

/-- `yield`, `sleep` and `exit` up to `sched`. -/
def leave (p : Proc n) : Leave → Proc n
  | .yield => { p with state := .runnable }
  | .sleep chan => { p with chan := chan, state := .sleeping }
  | .exit status => { p with xstate := status, state := .zombie }

/-- The body of the loop of `wakeup` for a process that sleeps on the channel. -/
def woken (p : Proc n) : Proc n := { p with state := .runnable }

/-- `kill` of the process that it finds. -/
def kill (p : Proc n) : Proc n :=
  if p.state = .sleeping then { p with killed := true, state := .runnable }
  else { p with killed := true }

/-- What `scheduler` stores to the priority after `swtch`, when it stores at all. -/
def newPriority (nprio : ℕ) (p : Proc n) : Option ℕ :=
  if 0 < p.priority ∧ p.state = .sleeping then some (p.priority - 1)
  else if p.priority < nprio - 1 then some (p.priority + 1)
  else none

@[simp] theorem leave_state (p : Proc n) (how : Leave) : (p.leave how).state = how.state := by
  cases how <;> rfl

@[simp] theorem leave_priority (p : Proc n) (how : Leave) :
    (p.leave how).priority = p.priority := by
  cases how <;> rfl

@[simp] theorem leave_chosen (p : Proc n) (how : Leave) : (p.leave how).chosen = p.chosen := by
  cases how <;> rfl

@[simp] theorem kill_priority (p : Proc n) : p.kill.priority = p.priority := by
  unfold kill
  split <;> rfl

@[simp] theorem kill_chosen (p : Proc n) : p.kill.chosen = p.chosen := by
  unfold kill
  split <;> rfl

theorem kill_state_of_ne {p : Proc n} (h : p.state ≠ .sleeping) : p.kill.state = p.state := by
  rw [kill, if_neg h]

theorem kill_state_of_sleeping {p : Proc n} (h : p.state = .sleeping) :
    p.kill.state = .runnable := by
  rw [kill, if_pos h]

/-- A new priority is a level. -/
theorem newPriority_lt {nprio x : ℕ} {p : Proc n} (hp : p.priority < nprio)
    (h : p.newPriority nprio = some x) : x < nprio := by
  unfold newPriority at h
  split_ifs at h <;> simp only [Option.some.injEq] at h <;> omega

end Proc

/-! ## Kernel sections -/

inductive Event (n : ℕ) where
  | quiet
  /-- `allocproc` returns a process. -/
  | alloc (k : Fin n)
  /-- A process becomes runnable. -/
  | wake (k : Fin n)
  /-- The scheduler switches to a process at a level. -/
  | dispatch (k : Fin n) (i : ℕ)
  /-- A process switches back in a state. -/
  | leave (k : Fin n) (state : ProcState)
  /-- The scheduler has updated the priority of a process that came back. -/
  | updated (k : Fin n)
  /-- The outer loop of the scheduler begins again. -/
  | round
  deriving DecidableEq

/-- A section of `wakeup` on slot `k`; `myproc` is `none` when the scheduler is interrupted. -/
inductive WakeupSection {n : ℕ} (myproc : Option (Fin n)) (k : Fin n) (p : Proc n) :
    Event n → Proc n → Prop where
  | wakeup (chan : ℕ) (hother : myproc ≠ some k) (hsleeps : p.state = .sleeping)
      (hchan : p.chan = chan) : WakeupSection myproc k p (.wake k) p.woken

/-- What the process `self` does to slot `k` while it holds the lock of the slot. -/
inductive KernelSection {n : ℕ} (self k : Fin n) (p : Proc n) : Event n → Proc n → Prop where
  /-- `allocproc` succeeds, and so does the copying of `fork`. -/
  | allocproc (pid : ℕ) (hunused : p.state = .unused) :
      KernelSection self k p (.alloc k) (p.found pid)
  /-- An allocation fails in `allocproc` or in `fork`. -/
  | allocFails (pid : ℕ) (hunused : p.state = .unused) :
      KernelSection self k p .quiet (p.found pid).freeproc
  /-- The last section of `fork`. -/
  | fork (hused : p.state = .used) :
      KernelSection self k p (.wake k) { p with state := .runnable }
  | wait (hparent : p.parent = some self) (hzombie : p.state = .zombie) :
      KernelSection self k p .quiet p.freeproc
  | wakeup {e : Event n} {p' : Proc n} (h : WakeupSection (some self) k p e p') :
      KernelSection self k p e p'
  | kill (pid : ℕ) (hpid : p.pid = pid) :
      KernelSection self k p (if p.state = .sleeping then .wake k else .quiet) p.kill

/-- What a section can do to a slot: it frees it, or it keeps what the scheduler wrote and
moves the state on. -/
structure SectionKeeps {n : ℕ} (k : Fin n) (p : Proc n) (e : Event n) (p' : Proc n) :
    Prop where
  priority : p'.priority = p.priority
  chosen : p'.chosen = p.chosen
  state : p'.state = p.state ∨ (p.state = .unused ∧ p'.state = .used) ∨
    (e = .wake k ∧ (p.state = .used ∨ p.state = .sleeping) ∧ p'.state = .runnable)

/-- A section leaves the state of a process that runs or can run. -/
theorem SectionKeeps.state_kept {n : ℕ} {k : Fin n} {p p' : Proc n} {e : Event n}
    (h : SectionKeeps k p e p') (hruns : p.state = .running ∨ p.state = .runnable) :
    p'.state = p.state := by
  rcases h.state with hstate | ⟨hunused, -⟩ | ⟨-, hwaits, -⟩
  · exact hstate
  · rcases hruns with hruns | hruns <;> simp [hruns] at hunused
  · rcases hruns with hruns | hruns <;> simp [hruns] at hwaits

namespace WakeupSection

variable {n : ℕ} {myproc : Option (Fin n)} {k : Fin n} {p p' : Proc n} {e : Event n}

theorem keeps (h : WakeupSection myproc k p e p') : SectionKeeps k p e p' := by
  cases h with
  | wakeup _ _ hsleeps _ => exact ⟨rfl, rfl, Or.inr (Or.inr ⟨rfl, Or.inr hsleeps, rfl⟩)⟩

theorem event (h : WakeupSection myproc k p e p') : e = .wake k := by
  cases h
  rfl

end WakeupSection

namespace KernelSection

variable {n : ℕ} {self k : Fin n} {p p' : Proc n} {e : Event n}

theorem effect (h : KernelSection self k p e p') :
    SectionKeeps k p e p' ∨
      ((p.state = .unused ∨ p.state = .zombie) ∧ e = .quiet ∧ p' = p.freeproc) := by
  cases h with
  | allocproc pid hunused => exact Or.inl ⟨rfl, rfl, Or.inr (Or.inl ⟨hunused, rfl⟩)⟩
  | allocFails pid hunused => exact Or.inr ⟨Or.inl hunused, rfl, rfl⟩
  | fork hused => exact Or.inl ⟨rfl, rfl, Or.inr (Or.inr ⟨rfl, Or.inl hused, rfl⟩)⟩
  | wait _ hzombie => exact Or.inr ⟨Or.inr hzombie, rfl, rfl⟩
  | wakeup h => exact Or.inl h.keeps
  | kill pid hpid =>
      refine Or.inl ⟨p.kill_priority, p.kill_chosen, ?_⟩
      by_cases hsleeps : p.state = .sleeping
      · rw [if_pos hsleeps]
        exact Or.inr (Or.inr ⟨rfl, Or.inr hsleeps, Proc.kill_state_of_sleeping hsleeps⟩)
      · exact Or.inl (Proc.kill_state_of_ne hsleeps)

/-- No section frees the process that runs. -/
theorem keeps (h : KernelSection self k p e p') (hrun : p.state = .running) :
    SectionKeeps k p e p' := by
  rcases h.effect with hkeeps | ⟨hfreed, -, -⟩
  · exact hkeeps
  · simp [hrun] at hfreed

/-- The events of a section. -/
theorem event (h : KernelSection self k p e p') : e = .quiet ∨ e = .alloc k ∨ e = .wake k := by
  cases h with
  | allocproc => exact Or.inr (Or.inl rfl)
  | allocFails => exact Or.inl rfl
  | fork => exact Or.inr (Or.inr rfl)
  | wait => exact Or.inl rfl
  | wakeup h => exact Or.inr (Or.inr h.event)
  | kill =>
      split
      · exact Or.inr (Or.inr rfl)
      · exact Or.inl rfl

end KernelSection

end SistOp.Mlfq
