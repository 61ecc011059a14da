import SistOp.ProcTable
import SistOp.TransitionSystem

/-!
# The life of a process

`fork`, `exit`, `wait` and `kill` of `proc.c`, one section at a time: what a process does
between taking and releasing the lock of a slot is a step, and so is each turn of the loops
under `wait_lock`.  A process that waits for `wait_lock` takes no step.  Any runnable process
may be chosen, at any time; how the rest of the kernel sleeps and wakes is left open, except
that it uses other channels than `wait`.
-/

namespace SistOp.Mlfq

/-- The next section of a process in `proc.c`; `user` is all that it does elsewhere. -/
inductive LifePc (n : ℕ) where
  | user (ret : Option ℤ)
  | forkScan (rest : List (Fin n))
  | forkParent (np : Fin n) (pid : ℕ)
  | forkState (np : Fin n) (pid : ℕ)
  | exitAcquire (status : ℤ)
  | exitReparent (status : ℤ) (rest : List (Fin n))
  | exitWakeInit (status : ℤ) (rest visit : List (Fin n))
  | exitWakeParent (status : ℤ) (chan : ℕ) (visit : List (Fin n))
  | exitZombie (status : ℤ)
  | gone
  | waitAcquire
  | waitScan (rest : List (Fin n)) (havekids : Bool)
  | waitTest (havekids : Bool)
  | waitSleep
  | waitReacquire
  | killScan (pid : ℤ) (rest : List (Fin n))
  deriving DecidableEq

/-- The table, with what the calls of `exit` have left and those of `wait` have taken. -/
structure Procs (n : ℕ) where
  proc : Fin n → Proc n
  pc : Fin n → LifePc n
  waitLock : Option (Fin n)
  nextpid : ℕ
  initproc : Fin n
  exited : List (ℕ × ℤ)
  reaped : List (ℕ × ℤ)
  /-- The identifiers that `kill` found and those of the callers of `setkilled`. -/
  targets : List ℤ
  /-- `nextpid` when the last call of a process began. -/
  asked : Fin n → ℕ

inductive LifeEvent (n : ℕ) where
  | fork (p : Fin n)
  /-- `exit` from `acquire(&wait_lock)` on: the files are closed before. -/
  | exit (p : Fin n) (status : ℤ)
  | wait (p : Fin n)
  | kill (p : Fin n) (pid : ℤ)
  | setkilled (p : Fin n)
  /-- The next section of a call; `ok` is whether its allocations or its `copyout` succeed. -/
  | advance (p : Fin n) (ok : Bool)
  | schedule (p : Fin n)
  | yield (p : Fin n)
  | sleep (p : Fin n) (chan : ℕ)
  | wakeup (p : Fin n) (chan : ℕ)
  deriving DecidableEq

/-- The address of a `struct proc`; other channels lie above. -/
def chanOf {n : ℕ} (q : Fin n) : ℕ := q + 1

/-- A pointer to a `struct proc` as a channel. -/
def chanOfParent {n : ℕ} : Option (Fin n) → ℕ
  | none => 0
  | some q => chanOf q

namespace Procs

variable {n : ℕ}

def setProc (k : Procs n) (p : Fin n) (x : Proc n) : Procs n :=
  { k with proc := Function.update k.proc p x }

def goto (k : Procs n) (p : Fin n) (next : LifePc n) : Procs n :=
  { k with pc := Function.update k.pc p next }

def setWaitLock (k : Procs n) (holder : Option (Fin n)) : Procs n :=
  { k with waitLock := holder }

/-- `allocpid`; it returns the old counter. -/
def allocpid (k : Procs n) : Procs n := { k with nextpid := k.nextpid + 1 }

section Fields

variable (k : Procs n) (p q : Fin n) (x : Proc n) (next : LifePc n) (holder : Option (Fin n))

@[grind =] theorem setProc_proc : (k.setProc p x).proc q = if q = p then x else k.proc q := by
  simp [setProc, Function.update_apply]

@[grind =] theorem goto_pc : (k.goto p next).pc q = if q = p then next else k.pc q := by
  simp [goto, Function.update_apply]

@[simp, grind =] theorem setProc_pc : (k.setProc p x).pc = k.pc := rfl

@[simp, grind =] theorem setProc_waitLock : (k.setProc p x).waitLock = k.waitLock := rfl

@[simp, grind =] theorem setProc_nextpid : (k.setProc p x).nextpid = k.nextpid := rfl

@[simp, grind =] theorem setProc_initproc : (k.setProc p x).initproc = k.initproc := rfl

@[simp, grind =] theorem goto_proc : (k.goto p next).proc = k.proc := rfl

@[simp, grind =] theorem goto_waitLock : (k.goto p next).waitLock = k.waitLock := rfl

@[simp, grind =] theorem goto_nextpid : (k.goto p next).nextpid = k.nextpid := rfl

@[simp, grind =] theorem goto_initproc : (k.goto p next).initproc = k.initproc := rfl

@[simp, grind =] theorem setWaitLock_proc : (k.setWaitLock holder).proc = k.proc := rfl

@[simp, grind =] theorem setWaitLock_pc : (k.setWaitLock holder).pc = k.pc := rfl

@[simp, grind =] theorem setWaitLock_waitLock : (k.setWaitLock holder).waitLock = holder := rfl

@[simp, grind =] theorem setWaitLock_nextpid : (k.setWaitLock holder).nextpid = k.nextpid := rfl

@[simp, grind =] theorem setWaitLock_initproc :
    (k.setWaitLock holder).initproc = k.initproc := rfl

@[simp, grind =] theorem allocpid_proc : k.allocpid.proc = k.proc := rfl

@[simp, grind =] theorem allocpid_pc : k.allocpid.pc = k.pc := rfl

@[simp, grind =] theorem allocpid_waitLock : k.allocpid.waitLock = k.waitLock := rfl

@[simp, grind =] theorem allocpid_nextpid : k.allocpid.nextpid = k.nextpid + 1 := rfl

@[simp, grind =] theorem allocpid_initproc : k.allocpid.initproc = k.initproc := rfl

@[simp, grind =] theorem setProc_asked : (k.setProc p x).asked = k.asked := rfl

@[simp, grind =] theorem goto_asked : (k.goto p next).asked = k.asked := rfl

@[simp, grind =] theorem setWaitLock_asked : (k.setWaitLock holder).asked = k.asked := rfl

@[simp, grind =] theorem allocpid_asked : k.allocpid.asked = k.asked := rfl

end Fields

/-- A turn of the loop of `wakeup` that `self` calls. -/
def wakeSlot (k : Procs n) (self q : Fin n) (chan : ℕ) : Procs n :=
  if q ≠ self ∧ (k.proc q).state = .sleeping ∧ (k.proc q).chan = chan then
    k.setProc q (k.proc q).woken
  else k

/-- `fork` up to the first `release(&np->lock)`. -/
def forkChild (k : Procs n) (p np : Fin n) : Procs n :=
  (k.allocpid.setProc np ((k.proc np).found k.nextpid)).goto p (.forkParent np k.nextpid)

/-- The same where an allocation fails. -/
def forkFails (k : Procs n) (p np : Fin n) : Procs n :=
  (k.allocpid.setProc np ((k.proc np).found k.nextpid).freeproc).goto p (.user (some (-1)))

/-- The last section of `exit`. -/
def zombie (k : Procs n) (p : Fin n) (status : ℤ) : Procs n :=
  { ((k.setProc p ((k.proc p).leave (.exit status))).setWaitLock none).goto p .gone with
    exited := k.exited ++ [((k.proc p).pid, status)] }

/-- `wait` has found the zombie `pp`, and frees it. -/
def reap (k : Procs n) (p pp : Fin n) : Procs n :=
  { (((k.setProc pp (k.proc pp).freeproc).goto pp (.user none)).setWaitLock none).goto p
      (.user (some (k.proc pp).pid)) with
    reaped := k.reaped ++ [((k.proc pp).pid, (k.proc pp).xstate)] }

/-- The section of `kill` on the process that it looks for. -/
def hit (k : Procs n) (p q : Fin n) : Procs n :=
  { (k.setProc q (k.proc q).kill).goto p (.user (some 0)) with
    targets := ((k.proc q).pid : ℤ) :: k.targets }

section Fields

variable (k : Procs n) (p q r : Fin n) (status : ℤ)

@[grind =] theorem zombie_pc : (k.zombie p status).pc r = if r = p then .gone else k.pc r := by
  simp [zombie, goto_pc]

@[grind =] theorem reap_pc : (k.reap p q).pc r =
    if r = p then .user (some (k.proc q).pid) else if r = q then .user none else k.pc r := by
  simp [reap, goto_pc]

@[grind =] theorem hit_pc : (k.hit p q).pc r = if r = p then .user (some 0) else k.pc r := by
  simp [hit, goto_pc]

@[simp, grind =] theorem zombie_asked : (k.zombie p status).asked = k.asked := rfl

@[simp, grind =] theorem reap_asked : (k.reap p q).asked = k.asked := rfl

@[simp, grind =] theorem hit_asked : (k.hit p q).asked = k.asked := rfl

end Fields

def waitLoop (k : Procs n) (p : Fin n) : Option (Procs n) :=
  if k.waitLock = none then
    some ((k.setWaitLock (some p)).goto p (.waitScan (List.finRange n) false))
  else none

/-- The next section of a process that runs in one of the calls. -/
def advance (k : Procs n) (p : Fin n) (ok : Bool) : Option (Procs n) :=
  match k.pc p with
  | .user _ | .gone => none
  | .forkScan [] => some (k.goto p (.user (some (-1))))
  | .forkScan (np :: rest) =>
      if (k.proc np).state = .unused then
        -- `nextpid` is an `int`: nothing is said about what follows its overflow
        if 2 ^ 31 ≤ k.nextpid + 1 then none
        else if ok then some (k.forkChild p np) else some (k.forkFails p np)
      else some (k.goto p (.forkScan rest))
  | .forkParent np pid =>
      if k.waitLock = none then
        some ((k.setProc np { k.proc np with parent := some p }).goto p (.forkState np pid))
      else none
  | .forkState np pid =>
      some ((k.setProc np { k.proc np with state := .runnable }).goto p (.user (some pid)))
  | .exitAcquire status =>
      if k.waitLock = none then
        some ((k.setWaitLock (some p)).goto p (.exitReparent status (List.finRange n)))
      else none
  | .exitReparent status [] =>
      some (k.goto p (.exitWakeParent status (chanOfParent (k.proc p).parent) (List.finRange n)))
  | .exitReparent status (pp :: rest) =>
      if (k.proc pp).parent = some p then
        some ((k.setProc pp { k.proc pp with parent := some k.initproc }).goto p
          (.exitWakeInit status rest (List.finRange n)))
      else some (k.goto p (.exitReparent status rest))
  | .exitWakeInit status rest [] => some (k.goto p (.exitReparent status rest))
  | .exitWakeInit status rest (q :: visit) =>
      some ((k.wakeSlot p q (chanOf k.initproc)).goto p (.exitWakeInit status rest visit))
  | .exitWakeParent status _ [] => some (k.goto p (.exitZombie status))
  | .exitWakeParent status chan (q :: visit) =>
      some ((k.wakeSlot p q chan).goto p (.exitWakeParent status chan visit))
  | .exitZombie status => some (k.zombie p status)
  | .waitAcquire | .waitReacquire => k.waitLoop p
  | .waitScan [] havekids => some (k.goto p (.waitTest havekids))
  | .waitScan (pp :: rest) havekids =>
      if (k.proc pp).parent = some p then
        if (k.proc pp).state = .zombie then
          if ok then some (k.reap p pp)
          else some ((k.setWaitLock none).goto p (.user (some (-1))))
        else some (k.goto p (.waitScan rest true))
      else some (k.goto p (.waitScan rest havekids))
  | .waitTest havekids =>
      if havekids = false ∨ (k.proc p).killed then
        some ((k.setWaitLock none).goto p (.user (some (-1))))
      else some (k.goto p .waitSleep)
  | .waitSleep =>
      some (((k.setProc p ((k.proc p).leave (.sleep (chanOf p)))).setWaitLock none).goto p
        .waitReacquire)
  | .killScan _ [] => some (k.goto p (.user (some (-1))))
  | .killScan pid (q :: rest) =>
      if ((k.proc q).pid : ℤ) = pid then some (k.hit p q)
      else some (k.goto p (.killScan pid rest))

/-- A process that runs elsewhere enters one of the calls. -/
def call (k : Procs n) (p : Fin n) (entry : LifePc n) : Option (Procs n) :=
  match k.pc p with
  | .user _ =>
      if (k.proc p).state = .running then
        some { k.goto p entry with asked := Function.update k.asked p k.nextpid }
      else none
  | _ => none

def step (k : Procs n) : LifeEvent n → Option (Procs n)
  | .fork p => k.call p (.forkScan (List.finRange n))
  -- `panic("init exiting")`
  | .exit p status => if p = k.initproc then none else k.call p (.exitAcquire status)
  | .wait p => k.call p .waitAcquire
  | .kill p pid => k.call p (.killScan pid (List.finRange n))
  | .setkilled p =>
      match k.pc p with
      | .user _ =>
          if (k.proc p).state = .running then
            some { k.setProc p { k.proc p with killed := true } with
              targets := ((k.proc p).pid : ℤ) :: k.targets }
          else none
      | _ => none
  | .advance p ok => if (k.proc p).state = .running then k.advance p ok else none
  | .schedule p =>
      -- whoever slept clears its channel before it releases its own lock
      if (k.proc p).state = .runnable then
        some (k.setProc p { (k.proc p).dispatched with chan := 0 })
      else none
  | .yield p =>
      -- no timer interrupt while a lock is held
      if (k.proc p).state = .running ∧ k.waitLock ≠ some p then
        some (k.setProc p ((k.proc p).leave .yield))
      else none
  | .sleep p chan =>
      match k.pc p with
      | .user _ =>
          if (k.proc p).state = .running ∧ n < chan then
            some (k.setProc p ((k.proc p).leave (.sleep chan)))
          else none
      | _ => none
  | .wakeup p chan =>
      if (k.proc p).state = .sleeping ∧ (k.proc p).chan = chan ∧ n < chan then
        some (k.setProc p (k.proc p).woken)
      else none

def Step (k : Procs n) (e : LifeEvent n) (k' : Procs n) : Prop := k.step e = some k'

def freeSlot : Proc n := ⟨.unused, 0, false, 0, 0, none, 0, 0⟩

/-- `userinit`, in the slot that `allocproc` finds. -/
def userinit (init : Fin n) : Procs n where
  proc := Function.update (fun _ => freeSlot) init { freeSlot with pid := 1, state := .runnable }
  pc _ := .user none
  waitLock := none
  nextpid := 2
  initproc := init
  exited := []
  reaped := []
  targets := []
  asked _ := 0

end Procs

end SistOp.Mlfq
