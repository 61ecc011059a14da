import SistOp.Semaphores

/-!
# Semaphore calls step by step

The calls of `sem.c` with `sleep`, `wakeup` and the part of `scheduler` that runs a process
again.  Each `acquire`, `release`, test and store is a step of its own; a spinning process and
a kernel in `panic` take no step.
-/

namespace SistOp.Xv6

inductive SemCall where
  | semOpen (sem value : Int32)
  | semDown (sem : Int32)
  | semUp (sem : Int32)
  | semClose (sem : Int32)
  deriving DecidableEq

def SemCall.handle : SemCall → Int32
  | .semOpen sem _ | .semDown sem | .semUp sem | .semClose sem => sem

/-- The next instruction of a process, with the variables that are still used. -/
inductive Pc (n : ℕ) where
  | user (ret : Option Int32)
  | openAcquire (sem value : Int32)
  | openTest (sem value : Int32)
  | openValue (sem value : Int32)
  | openInit (sem value : Int32)
  | openRelease (sem : Int32)
  | downAcquire (sem : Int32)
  | downTest (sem : Int32)
  | downLoop (sem : Int32)
  | downTake (sem : Int32)
  | downRelease (sem : Int32)
  | sleepAcquire (sem : Int32)
  | sleepRelease (sem : Int32)
  | sleepChan (sem : Int32)
  | sleepState (sem : Int32)
  | sleepSched (sem : Int32)
  | suspended (sem : Int32)
  | sleepTidy (sem : Int32)
  | sleepUnlock (sem : Int32)
  | sleepReacquire (sem : Int32)
  | upAcquire (sem : Int32)
  | upTest (sem : Int32)
  | upFail (sem : Int32)
  | upStore (sem : Int32)
  | wakeupNext (sem : Int32) (rest : List (Fin n))
  | wakeupTest (sem : Int32) (q : Fin n) (rest : List (Fin n))
  | wakeupStore (sem : Int32) (q : Fin n) (rest : List (Fin n))
  | wakeupRelease (sem : Int32) (q : Fin n) (rest : List (Fin n))
  | upRelease (sem : Int32)
  | closeTest (sem : Int32)
  | closeValue (sem : Int32)
  | closeInit (sem : Int32)
  deriving DecidableEq

/-- What the scheduler does with the process whose lock it holds. -/
inductive SchedStage where
  | testing | switching | leaving
  deriving DecidableEq

inductive Holder (n : ℕ) where
  | proc (p : Fin n)
  | scheduler (stage : SchedStage)
  deriving DecidableEq

/-- The locks with their holders, and the next instruction of each process. -/
structure Kernel (n : ℕ) where
  machine : Machine n
  lk : Int32 → Option (Fin n)
  procLock : Fin n → Option (Holder n)
  pc : Fin n → Pc n

def SemCall.entry {n : ℕ} : SemCall → Pc n
  | .semOpen sem value => .openAcquire sem value
  | .semDown sem => .downAcquire sem
  | .semUp sem => .upAcquire sem
  | .semClose sem => .closeTest sem

namespace Kernel

variable {n : ℕ}

def goto (k : Kernel n) (p : Fin n) (next : Pc n) : Kernel n :=
  { k with pc := Function.update k.pc p next }

def setLk (k : Kernel n) (sem : Int32) (holder : Option (Fin n)) : Kernel n :=
  { k with lk := Function.update k.lk sem holder }

def acquire (k : Kernel n) (p : Fin n) (sem : Int32) (next : Pc n) : Option (Kernel n) :=
  if k.lk sem = none then some ((k.setLk sem (some p)).goto p next) else none

def release (k : Kernel n) (p : Fin n) (sem : Int32) (next : Pc n) : Option (Kernel n) :=
  if k.lk sem = some p then some ((k.setLk sem none).goto p next) else none

def setProcLock (k : Kernel n) (q : Fin n) (holder : Option (Holder n)) : Kernel n :=
  { k with procLock := Function.update k.procLock q holder }

def acquireProc (k : Kernel n) (p q : Fin n) (next : Pc n) : Option (Kernel n) :=
  if k.procLock q = none then some ((k.setProcLock q (some (.proc p))).goto p next) else none

def releaseProc (k : Kernel n) (p q : Fin n) (next : Pc n) : Option (Kernel n) :=
  if k.procLock q = some (.proc p) then some ((k.setProcLock q none).goto p next) else none

def withMachine (k : Kernel n) (m : Machine n) : Kernel n := { k with machine := m }

def setChan (k : Kernel n) (p : Fin n) (chan : Option Int32) : Kernel n :=
  k.withMachine (k.machine.setProc p { k.machine.procs p with chan := chan })

def setState (k : Kernel n) (p : Fin n) (state : ProcState) : Kernel n :=
  k.withMachine (k.machine.setProc p { k.machine.procs p with state := state })

def value (k : Kernel n) (sem : Int32) : Int32 := (k.machine.semArray sem).value

def initValue (k : Kernel n) (sem : Int32) : Int32 := (k.machine.semArray sem).initValue

def state (k : Kernel n) (p : Fin n) : ProcState := (k.machine.procs p).state

def chan (k : Kernel n) (p : Fin n) : Option Int32 := (k.machine.procs p).chan

def stepProc (k : Kernel n) (p : Fin n) : Option (Kernel n) :=
  match k.pc p with
  | .user _ => none
  | .openAcquire sem value => k.acquire p sem (.openTest sem value)
  | .openTest sem value =>
      -- returns with the lock taken
      if maxSem < sem then some (k.goto p (.user (some (-1))))
      else some (k.goto p (.openValue sem value))
  | .openValue sem value =>
      some ((k.withMachine (k.machine.setValue sem value)).goto p (.openInit sem value))
  | .openInit sem value =>
      some ((k.withMachine (k.machine.setInitValue sem value)).goto p (.openRelease sem))
  | .openRelease sem => k.release p sem (.user (some 0))
  | .downAcquire sem => k.acquire p sem (.downTest sem)
  | .downTest sem =>
      if 0 < k.value sem then some (k.goto p (.downTake sem)) else some (k.goto p (.downLoop sem))
  | .downLoop sem =>
      if k.value sem ≤ 0 then some (k.goto p (.sleepAcquire sem))
      else some (k.goto p (.downTake sem))
  | .downTake sem =>
      some ((k.withMachine (k.machine.setValue sem (k.value sem - 1))).goto p (.downRelease sem))
  | .downRelease sem => k.release p sem (.user (some 0))
  | .sleepAcquire sem => k.acquireProc p p (.sleepRelease sem)
  | .sleepRelease sem => k.release p sem (.sleepChan sem)
  | .sleepChan sem => some ((k.setChan p (some sem)).goto p (.sleepState sem))
  | .sleepState sem => some ((k.setState p .sleeping).goto p (.sleepSched sem))
  | .sleepSched sem =>
      -- the scheduler of this processor goes on, and releases the lock of the process
      if k.procLock p = some (.proc p) then
        some ((k.setProcLock p (some (.scheduler .leaving))).goto p (.suspended sem))
      else none
  | .suspended _ => none
  | .sleepTidy sem => some ((k.setChan p none).goto p (.sleepUnlock sem))
  | .sleepUnlock sem => k.releaseProc p p (.sleepReacquire sem)
  | .sleepReacquire sem => k.acquire p sem (.downLoop sem)
  | .upAcquire sem => k.acquire p sem (.upTest sem)
  | .upTest sem =>
      if k.initValue sem = k.value sem then some (k.goto p (.upFail sem))
      else some (k.goto p (.upStore sem))
  | .upFail sem => k.release p sem (.user (some (-1)))
  | .upStore sem =>
      some ((k.withMachine (k.machine.setValue sem (k.value sem + 1))).goto p
        (.wakeupNext sem (List.finRange n)))
  | .wakeupNext sem [] => some (k.goto p (.upRelease sem))
  | .wakeupNext sem (q :: rest) =>
      if q = p then some (k.goto p (.wakeupNext sem rest))
      else k.acquireProc p q (.wakeupTest sem q rest)
  | .wakeupTest sem q rest =>
      if k.state q = .sleeping ∧ k.chan q = some sem then
        some (k.goto p (.wakeupStore sem q rest))
      else some (k.goto p (.wakeupRelease sem q rest))
  | .wakeupStore sem q rest =>
      some ((k.setState q .runnable).goto p (.wakeupRelease sem q rest))
  | .wakeupRelease sem q rest => k.releaseProc p q (.wakeupNext sem rest)
  | .upRelease sem => k.release p sem (.user (some 0))
  | .closeTest sem =>
      if (k.lk sem).isSome then some (k.goto p (.user (some (-1))))
      else some (k.goto p (.closeValue sem))
  | .closeValue sem =>
      some ((k.withMachine (k.machine.setValue sem 0)).goto p (.closeInit sem))
  | .closeInit sem =>
      some ((k.withMachine (k.machine.setInitValue sem 0)).goto p (.user (some 0)))

/-- A processor's scheduler at one process. -/
def stepScheduler (k : Kernel n) (p : Fin n) : Option (Kernel n) :=
  match k.procLock p with
  | none => some (k.setProcLock p (some (.scheduler .testing)))
  | some (.scheduler .testing) =>
      if k.state p = .runnable then
        some ((k.setState p .running).setProcLock p (some (.scheduler .switching)))
      else some (k.setProcLock p (some (.scheduler .leaving)))
  | some (.scheduler .switching) =>
      match k.pc p with
      | .suspended sem => some ((k.setProcLock p (some (.proc p))).goto p (.sleepTidy sem))
      | _ => none
  | some (.scheduler .leaving) => some (k.setProcLock p none)
  | some (.proc _) => none

end Kernel

/-- A call of an allowed process, or one step. -/
inductive KernelStep {n : ℕ} (allowed : Fin n → SemCall → Prop) : Kernel n → Kernel n → Prop
  | call {k : Kernel n} (p : Fin n) (c : SemCall) (h : allowed p c) {ret : Option Int32}
      (hpc : k.pc p = .user ret) : KernelStep allowed k (k.goto p c.entry)
  | proc {k k' : Kernel n} (p : Fin n) (h : k.stepProc p = some k') : KernelStep allowed k k'
  | scheduler {k k' : Kernel n} (p : Fin n) (h : k.stepScheduler p = some k') :
      KernelStep allowed k k'

/-- No lock is taken and every process runs in user space. -/
structure Kernel.Started {n : ℕ} (k : Kernel n) : Prop where
  lk : ∀ sem, k.lk sem = none
  procLock : ∀ p, k.procLock p = none
  pc : ∀ p, k.pc p = .user none
  state : ∀ p, k.state p = .running

def kernelSystem (n : ℕ) (allowed : Fin n → SemCall → Prop) : TransitionSystem (Kernel n) where
  start := Kernel.Started
  step := KernelStep allowed

def startedKernel : Kernel 2 where
  machine := ⟨fun _ => ⟨0, 1⟩, fun _ => ⟨.running, none, false⟩⟩
  lk _ := none
  procLock _ := none
  pc _ := .user none

theorem startedKernel_started : startedKernel.Started :=
  ⟨fun _ => rfl, fun _ => rfl, fun _ => rfl, fun _ => rfl⟩

/-! ## One step -/

namespace Kernel

variable {n : ℕ} (k : Kernel n) (p q : Fin n) (sem : Int32)

section Fields

variable (next : Pc n) (holder : Option (Holder n)) (owner : Option (Fin n)) (m : Machine n)
  (c : Option Int32) (st : ProcState) (sem' v : Int32)

@[simp, grind =] theorem goto_pc_self : (k.goto p next).pc p = next := Function.update_self ..

@[grind =] theorem goto_pc_of_ne {q : Fin n} (h : q ≠ p) : (k.goto p next).pc q = k.pc q :=
  Function.update_of_ne h ..

@[simp, grind =] theorem goto_machine : (k.goto p next).machine = k.machine := rfl
@[simp, grind =] theorem goto_lk : (k.goto p next).lk sem = k.lk sem := rfl
@[simp, grind =] theorem goto_procLock : (k.goto p next).procLock q = k.procLock q := rfl
@[simp, grind =] theorem goto_value : (k.goto p next).value sem = k.value sem := rfl
@[simp, grind =] theorem goto_state : (k.goto p next).state q = k.state q := rfl
@[simp, grind =] theorem goto_chan : (k.goto p next).chan q = k.chan q := rfl

@[simp, grind =] theorem setLk_machine : (k.setLk sem owner).machine = k.machine := rfl
@[simp, grind =] theorem setLk_procLock : (k.setLk sem owner).procLock q = k.procLock q := rfl
@[simp, grind =] theorem setLk_pc : (k.setLk sem owner).pc q = k.pc q := rfl
@[simp, grind =] theorem setLk_value : (k.setLk sem owner).value sem' = k.value sem' := rfl
@[simp, grind =] theorem setLk_state : (k.setLk sem owner).state q = k.state q := rfl
@[simp, grind =] theorem setLk_chan : (k.setLk sem owner).chan q = k.chan q := rfl

@[simp, grind =] theorem setLk_lk :
    (k.setLk sem owner).lk sem' = if sem' = sem then owner else k.lk sem' :=
  Function.update_apply ..

@[simp, grind =] theorem setProcLock_machine : (k.setProcLock p holder).machine = k.machine := rfl
@[simp, grind =] theorem setProcLock_lk : (k.setProcLock p holder).lk sem = k.lk sem := rfl
@[simp, grind =] theorem setProcLock_pc : (k.setProcLock p holder).pc q = k.pc q := rfl
@[simp, grind =] theorem setProcLock_value : (k.setProcLock p holder).value sem = k.value sem := rfl
@[simp, grind =] theorem setProcLock_state : (k.setProcLock p holder).state q = k.state q := rfl
@[simp, grind =] theorem setProcLock_chan : (k.setProcLock p holder).chan q = k.chan q := rfl

@[simp, grind =] theorem setProcLock_procLock :
    (k.setProcLock p holder).procLock q = if q = p then holder else k.procLock q :=
  Function.update_apply ..

@[simp, grind =] theorem withMachine_machine : (k.withMachine m).machine = m := rfl
@[simp, grind =] theorem withMachine_lk : (k.withMachine m).lk sem = k.lk sem := rfl
@[simp, grind =] theorem withMachine_procLock : (k.withMachine m).procLock q = k.procLock q := rfl
@[simp, grind =] theorem withMachine_pc : (k.withMachine m).pc q = k.pc q := rfl

@[simp, grind =] theorem setValue_value : (k.withMachine (k.machine.setValue sem v)).value sem' =
    if sem' = sem then v else k.value sem' := by
  by_cases h : sem' = sem <;> simp [value, Machine.setValue, h]

@[simp, grind =] theorem setValue_state :
    (k.withMachine (k.machine.setValue sem v)).state q = k.state q := rfl
@[simp, grind =] theorem setValue_chan :
    (k.withMachine (k.machine.setValue sem v)).chan q = k.chan q := rfl

@[simp, grind =] theorem setInitValue_value :
    (k.withMachine (k.machine.setInitValue sem v)).value sem' = k.value sem' := by
  by_cases h : sem' = sem <;> simp [value, Machine.setInitValue, h]

@[simp, grind =] theorem setInitValue_state :
    (k.withMachine (k.machine.setInitValue sem v)).state q = k.state q := rfl
@[simp, grind =] theorem setInitValue_chan :
    (k.withMachine (k.machine.setInitValue sem v)).chan q = k.chan q := rfl

@[simp, grind =] theorem setChan_lk : (k.setChan p c).lk sem = k.lk sem := rfl
@[simp, grind =] theorem setChan_procLock : (k.setChan p c).procLock q = k.procLock q := rfl
@[simp, grind =] theorem setChan_pc : (k.setChan p c).pc q = k.pc q := rfl
@[simp, grind =] theorem setChan_value : (k.setChan p c).value sem = k.value sem := rfl

@[simp, grind =] theorem setChan_state : (k.setChan p c).state q = k.state q := by
  by_cases h : q = p <;> simp [setChan, state, Machine.setProc, h]

@[simp, grind =] theorem setChan_chan : (k.setChan p c).chan q = if q = p then c else k.chan q := by
  by_cases h : q = p <;> simp [setChan, chan, Machine.setProc, h]

@[simp, grind =] theorem setState_lk : (k.setState p st).lk sem = k.lk sem := rfl
@[simp, grind =] theorem setState_procLock : (k.setState p st).procLock q = k.procLock q := rfl
@[simp, grind =] theorem setState_pc : (k.setState p st).pc q = k.pc q := rfl
@[simp, grind =] theorem setState_value : (k.setState p st).value sem = k.value sem := rfl

@[simp, grind =] theorem setState_chan : (k.setState p st).chan q = k.chan q := by
  by_cases h : q = p <;> simp [setState, chan, Machine.setProc, h]

@[simp, grind =] theorem setState_state :
    (k.setState p st).state q = if q = p then st else k.state q := by
  by_cases h : q = p <;> simp [setState, state, Machine.setProc, h]

end Fields

variable {k p q sem} {next : Pc n} {k' : Kernel n}

@[grind =] theorem acquire_eq_some : k.acquire p sem next = some k' ↔
    k.lk sem = none ∧ (k.setLk sem (some p)).goto p next = k' := by
  simp [acquire]

@[grind =] theorem release_eq_some : k.release p sem next = some k' ↔
    k.lk sem = some p ∧ (k.setLk sem none).goto p next = k' := by
  simp [release]

@[grind =] theorem acquireProc_eq_some : k.acquireProc p q next = some k' ↔
    k.procLock q = none ∧ (k.setProcLock q (some (.proc p))).goto p next = k' := by
  simp [acquireProc]

@[grind =] theorem releaseProc_eq_some : k.releaseProc p q next = some k' ↔
    k.procLock q = some (.proc p) ∧ (k.setProcLock q none).goto p next = k' := by
  simp [releaseProc]

/-- A step of a process leaves the instructions and the locks of the others alone. -/
structure LockFrame (p : Fin n) (k k' : Kernel n) : Prop where
  pc : ∀ q ≠ p, k'.pc q = k.pc q
  lk : ∀ sem, ∀ q ≠ p, (k'.lk sem = some q ↔ k.lk sem = some q)
  procLock : ∀ q, ∀ r ≠ p, (k'.procLock q = some (.proc r) ↔ k.procLock q = some (.proc r))
  switching : ∀ q, k'.procLock q = some (.scheduler .switching) ↔
    k.procLock q = some (.scheduler .switching)

namespace LockFrame

theorem withMachine (m : Machine n) : LockFrame p k (k.withMachine m) where
  pc _ _ := rfl
  lk _ _ _ := Iff.rfl
  procLock _ _ _ := Iff.rfl
  switching _ := Iff.rfl

theorem refl : LockFrame p k k := withMachine k.machine

theorem goto (h : LockFrame p k k') (next : Pc n) : LockFrame p k (k'.goto p next) :=
  { h with pc := fun q hq => (goto_pc_of_ne k' p next hq).trans (h.pc q hq) }

theorem setLk {owner : Option (Fin n)} (hfrom : k.lk sem = none ∨ k.lk sem = some p)
    (hto : owner = none ∨ owner = some p) : LockFrame p k (k.setLk sem owner) :=
  { (refl : LockFrame p k k) with lk := by grind }

theorem setProcLock {holder : Option (Holder n)}
    (hfrom : k.procLock q = none ∨ k.procLock q = some (.proc p))
    (hto : holder = none ∨ holder = some (.proc p) ∨ holder = some (.scheduler .leaving)) :
    LockFrame p k (k.setProcLock q holder) :=
  { (refl : LockFrame p k k) with
    procLock := by grind
    switching := by grind }

end LockFrame

theorem lockFrame_of_step (h : k.stepProc p = some k') : LockFrame p k k' := by
  cases hpc : k.pc p with
  | user ret | suspended sem => simp [stepProc, hpc] at h
  | openAcquire sem value | downAcquire sem | upAcquire sem | sleepReacquire sem =>
      simp only [stepProc, hpc, acquire_eq_some] at h
      obtain ⟨hfree, rfl⟩ := h
      exact (LockFrame.setLk (.inl hfree) (.inr rfl)).goto _
  | openRelease sem | downRelease sem | sleepRelease sem | upFail sem | upRelease sem =>
      simp only [stepProc, hpc, release_eq_some] at h
      obtain ⟨hheld, rfl⟩ := h
      exact (LockFrame.setLk (.inr hheld) (.inl rfl)).goto _
  | openTest sem value | downTest sem | downLoop sem | upTest sem | wakeupTest sem q rest
  | closeTest sem =>
      simp only [stepProc, hpc] at h
      split_ifs at h <;> obtain rfl := Option.some.inj h <;> exact LockFrame.refl.goto _
  | openValue sem value | openInit sem value | downTake sem | sleepChan sem | sleepState sem
  | sleepTidy sem | upStore sem | wakeupStore sem q rest | closeValue sem | closeInit sem =>
      simp only [stepProc, hpc, Option.some.injEq] at h
      subst h
      exact (LockFrame.withMachine _).goto _
  | sleepAcquire sem =>
      simp only [stepProc, hpc, acquireProc_eq_some] at h
      obtain ⟨hfree, rfl⟩ := h
      exact (LockFrame.setProcLock (.inl hfree) (.inr (.inl rfl))).goto _
  | sleepSched sem =>
      simp only [stepProc, hpc] at h
      split_ifs at h with hheld
      obtain rfl := Option.some.inj h
      exact (LockFrame.setProcLock (.inr hheld) (.inr (.inr rfl))).goto _
  | sleepUnlock sem | wakeupRelease sem q rest =>
      simp only [stepProc, hpc, releaseProc_eq_some] at h
      obtain ⟨hheld, rfl⟩ := h
      exact (LockFrame.setProcLock (.inr hheld) (.inl rfl)).goto _
  | wakeupNext sem rest =>
      cases rest with
      | nil =>
          simp only [stepProc, hpc, Option.some.injEq] at h
          subst h
          exact LockFrame.refl.goto _
      | cons q rest =>
          simp only [stepProc, hpc] at h
          split_ifs at h
          · obtain rfl := Option.some.inj h
            exact LockFrame.refl.goto _
          · obtain ⟨hfree, rfl⟩ := acquireProc_eq_some.mp h
            exact (LockFrame.setProcLock (.inl hfree) (.inr (.inl rfl))).goto _

end Kernel

end SistOp.Xv6
