import SistOp.Semaphores

/-!
# The calls of one semaphore

The system calls on a semaphore, each taken as one step, with the tests of `killed` in
`usertrap`.  A call has the lock of the semaphore for its step, or until it sleeps.
-/

namespace SistOp.Xv6

/-- Where a process is: in user mode, behind the first test of `usertrap`, in the loop of
`sem_down`, in front of the second test, or gone. -/
inductive CallPlace where
  | user | syscall | inDown | returning | exited
  deriving DecidableEq

/-- The processes and one semaphore: the bit of its lock, and whether a `sem_close` that
returned 0 is behind its last `sem_open`. -/
structure Calls (n : ℕ) where
  machine : Machine n
  place : Fin n → CallPlace
  locked : Bool
  closed : Bool

inductive CallEvent (n : ℕ) where
  | trap (p : Fin n)
  | semOpen (p : Fin n) (value : Int32)
  | semDown (p : Fin n)
  | resume (p : Fin n)
  | semUp (p : Fin n)
  | semClose (p : Fin n)
  | leave (p : Fin n)
  | kill (p : Fin n)

/-- The process waits for the semaphore. -/
def Machine.Asleep {n : ℕ} (m : Machine n) (p : Fin n) (sem : Int32) : Prop :=
  (m.procs p).state = .sleeping ∧ (m.procs p).chan = some sem

instance {n : ℕ} (m : Machine n) (p : Fin n) (sem : Int32) : Decidable (m.Asleep p sem) := by
  unfold Machine.Asleep
  infer_instance

def Machine.exit {n : ℕ} (m : Machine n) (p : Fin n) : Machine n :=
  m.setProc p { m.procs p with state := .zombie }

namespace Calls

variable {n : ℕ} (s : Calls n) (p : Fin n) (sem value : Int32)

def goto (place : CallPlace) : Calls n := { s with place := Function.update s.place p place }

/-- `usertrap` exits a killed process, before the system call and behind it. -/
def testKilled (next : CallPlace) : Calls n :=
  if (s.machine.procs p).killed then { s with machine := s.machine.exit p }.goto p .exited
  else s.goto p next

/-- A `sem_open` that returns -1 keeps the lock. -/
def semOpen : Calls n :=
  let (ret, machine) := s.machine.semOpen sem value
  { s with
    machine := machine, locked := ret == -1, closed := s.closed && ret == -1 }.goto p .returning

/-- `sem_down` has returned, or the process sleeps in it. -/
def afterDown (ran : Option Int32 × Machine n) : Calls n :=
  { s with machine := ran.2 }.goto p (if ran.1 = none then .inDown else .returning)

def semDown : Calls n := s.afterDown p (s.machine.semDown p sem)

/-- The scheduler runs a process that was made runnable, and its loop tests the value. -/
def resume : Calls n := s.afterDown p ((s.machine.leaveSleep p).semDownLoop p sem)

def semUp : Calls n := { s with machine := (s.machine.semUp p sem).2 }.goto p .returning

def semClose : Calls n :=
  let (ret, machine) := s.machine.semClose sem s.locked
  { s with machine := machine, closed := s.closed || ret == 0 }.goto p .returning

def kill : Calls n := { s with machine := s.machine.kill p }

end Calls

inductive CallStep {n : ℕ} (sem : Int32) : Calls n → CallEvent n → Calls n → Prop where
  | trap {s : Calls n} (p : Fin n) (h : s.place p = .user) :
      CallStep sem s (.trap p) (s.testKilled p .syscall)
  | semOpen {s : Calls n} (p : Fin n) (value : Int32) (h : s.place p = .syscall)
      (hfree : s.locked = false) : CallStep sem s (.semOpen p value) (s.semOpen p sem value)
  | semDown {s : Calls n} (p : Fin n) (h : s.place p = .syscall) (hfree : s.locked = false) :
      CallStep sem s (.semDown p) (s.semDown p sem)
  | resume {s : Calls n} (p : Fin n) (h : s.place p = .inDown)
      (hrunnable : (s.machine.procs p).state = .runnable) (hfree : s.locked = false) :
      CallStep sem s (.resume p) (s.resume p sem)
  | semUp {s : Calls n} (p : Fin n) (h : s.place p = .syscall) (hfree : s.locked = false) :
      CallStep sem s (.semUp p) (s.semUp p sem)
  | semClose {s : Calls n} (p : Fin n) (h : s.place p = .syscall) :
      CallStep sem s (.semClose p) (s.semClose p sem)
  | leave {s : Calls n} (p : Fin n) (h : s.place p = .returning) :
      CallStep sem s (.leave p) (s.testKilled p .user)
  | kill {s : Calls n} (p : Fin n) : CallStep sem s (.kill p) (s.kill p)

namespace Calls

variable {n : ℕ}

/-- Nobody sleeps and nobody is in a call. -/
structure Started (s : Calls n) : Prop where
  awake : ∀ p, (s.machine.procs p).state ≠ .sleeping
  place : ∀ p, s.place p = .user
  unlocked : s.locked = false
  opened : s.closed = false

/-- Between two calls the lock is free, and a closed semaphore has no tokens and takes none. -/
structure Settled (sem : Int32) (s : Calls n) : Prop where
  unlocked : s.locked = false
  closed : s.closed → s.machine.semArray sem = ⟨0, 0⟩

end Calls

/-! ## What a step does -/

section Step

variable {n : ℕ} {sem : Int32} {s t : Calls n} {p : Fin n} {e : CallEvent n}

theorem Calls.Settled.start (h : s.Started) : s.Settled sem where
  unlocked := h.unlocked
  closed hclosed := by simp [h.opened] at hclosed

theorem semOpen_valid (hsem : sem < maxSem) (m : Machine n) (value : Int32) :
    m.semOpen sem value = (0, (m.setValue sem value).setInitValue sem value) := by
  rw [Machine.semOpen, if_neg (Int32.not_lt.mpr (Int32.le_of_lt hsem))]

/-- On a closed semaphore the loop of `sem_down` sleeps. -/
theorem semDownLoop_closed {m : Machine n} (h : m.semArray sem = ⟨0, 0⟩) (p : Fin n) :
    m.semDownLoop p sem = (none, m.sleep p sem) :=
  m.semDownLoop_none p sem (by rw [h]; decide)

theorem semUp_closed {m : Machine n} (h : m.semArray sem = ⟨0, 0⟩) (p : Fin n) :
    m.semUp p sem = (-1, m) := by
  rw [Machine.semUp, h, if_pos rfl]

theorem Calls.Settled.testKilled (h : s.Settled sem) (p : Fin n) (next : CallPlace) :
    (s.testKilled p next).Settled sem := by
  unfold Calls.testKilled
  split_ifs
  · exact ⟨h.unlocked, h.closed⟩
  · exact ⟨h.unlocked, h.closed⟩

theorem Calls.Settled.afterDown (h : s.Settled sem) {m : Machine n}
    (hm : m.semArray = s.machine.semArray) :
    (s.afterDown p (m.semDownLoop p sem)).Settled sem where
  unlocked := h.unlocked
  closed hclosed := by
    have hzero := h.closed hclosed
    rw [← hm] at hzero
    rw [semDownLoop_closed hzero]
    exact hzero

theorem Calls.Settled.step (hsem : sem < maxSem) (h : s.Settled sem) (hstep : CallStep sem s e t) :
    t.Settled sem := by
  cases hstep with
  | trap p _ | leave p _ => exact h.testKilled p _
  | semOpen p value _ _ =>
      rw [Calls.semOpen, semOpen_valid hsem]
      refine ⟨rfl, fun hclosed => ?_⟩
      simp [Calls.goto] at hclosed
  | semDown p _ _ =>
      rw [Calls.semDown, Machine.semDown_eq_loop]
      exact h.afterDown rfl
  | resume p _ _ _ => exact h.afterDown rfl
  | semUp p _ _ =>
      refine ⟨h.unlocked, fun hclosed => ?_⟩
      have hzero := h.closed hclosed
      simpa [Calls.semUp, Calls.goto, semUp_closed hzero] using hzero
  | semClose p _ =>
      refine ⟨h.unlocked, fun _ => ?_⟩
      simp [Calls.semClose, Calls.goto, Machine.semClose, h.unlocked]
  | kill p => exact ⟨h.unlocked, h.closed⟩

end Step

/-! ## Runs that are computed -/

namespace Calls

variable {n : ℕ}

/-- The step of an event, when it is possible. -/
def act (sem : Int32) (s : Calls n) (e : CallEvent n) : Option (CallEvent n × Calls n) :=
  match e with
  | .trap p => if s.place p = .user then some (e, s.testKilled p .syscall) else none
  | .semOpen p value =>
      if s.place p = .syscall ∧ s.locked = false then some (e, s.semOpen p sem value) else none
  | .semDown p =>
      if s.place p = .syscall ∧ s.locked = false then some (e, s.semDown p sem) else none
  | .resume p =>
      if s.place p = .inDown ∧ (s.machine.procs p).state = .runnable ∧ s.locked = false then
        some (e, s.resume p sem)
      else none
  | .semUp p =>
      if s.place p = .syscall ∧ s.locked = false then some (e, s.semUp p sem) else none
  | .semClose p => if s.place p = .syscall then some (e, s.semClose p sem) else none
  | .leave p => if s.place p = .returning then some (e, s.testKilled p .user) else none
  | .kill p => some (e, s.kill p)

theorem act_step {sem : Int32} (s : Calls n) (e e' : CallEvent n) (t : Calls n)
    (h : s.act sem e = some (e', t)) : CallStep sem s e' t := by
  cases e with
  | trap p | leave p | semClose p =>
      simp only [act, Option.ite_none_right_eq_some, Option.some.injEq, Prod.mk.injEq] at h
      obtain ⟨hplace, rfl, rfl⟩ := h
      constructor
      exact hplace
  | semOpen p value | semDown p | semUp p =>
      simp only [act, Option.ite_none_right_eq_some, Option.some.injEq, Prod.mk.injEq] at h
      obtain ⟨⟨hplace, hfree⟩, rfl, rfl⟩ := h
      constructor
      · exact hplace
      · exact hfree
  | resume p =>
      simp only [act, Option.ite_none_right_eq_some, Option.some.injEq, Prod.mk.injEq] at h
      obtain ⟨⟨hplace, hrunnable, hfree⟩, rfl, rfl⟩ := h
      exact .resume p hplace hrunnable hfree
  | kill p =>
      simp only [act, Option.some.injEq, Prod.mk.injEq] at h
      obtain ⟨rfl, rfl⟩ := h
      exact .kill p

end Calls

/-! ## A closed semaphore -/

namespace Calls

variable {n : ℕ} {sem : Int32} {s t u : Calls n} {e : CallEvent n}
variable {l : List (CallEvent n × Calls n)}

/-- Nobody sleeps on the semaphore once it is closed. -/
def ClosedEmpty (sem : Int32) (s : Calls n) : Prop :=
  s.closed → ∀ p, ¬ s.machine.Asleep p sem

/-- `sem_close` finds nobody asleep, and nobody tests the value in `sem_down` while the semaphore
is closed. -/
def ClosesEmpty (sem : Int32) (s : Calls n) : CallEvent n → Prop
  | .semClose _ => ∀ p, ¬ s.machine.Asleep p sem
  | .semDown _ | .resume _ => s.closed = false
  | _ => True

theorem ClosedEmpty.mono (h : s.ClosedEmpty sem) (hclosed : t.closed → s.closed)
    (hasleep : ∀ p, t.machine.Asleep p sem → s.machine.Asleep p sem) : t.ClosedEmpty sem :=
  fun hc p hp => h (hclosed hc) p (hasleep p hp)

theorem ClosedEmpty.testKilled (h : s.ClosedEmpty sem) (p : Fin n) (next : CallPlace) :
    (s.testKilled p next).ClosedEmpty sem := by
  unfold Calls.testKilled
  split_ifs
  · refine h.mono (fun hc => hc) fun q hq => ?_
    by_cases hqp : q = p
    · simp [Calls.goto, Machine.exit, Machine.setProc, Machine.Asleep, hqp] at hq
    · simpa [Calls.goto, Machine.exit, Machine.setProc, Machine.Asleep, hqp] using hq
  · exact h

theorem ClosedEmpty.kill (h : s.ClosedEmpty sem) (p : Fin n) : (s.kill p).ClosedEmpty sem := by
  refine h.mono (fun hc => hc) fun q hq => ?_
  by_cases hqp : q = p
  · subst hqp
    simp only [Calls.kill, Machine.kill, Machine.setProc, Machine.Asleep,
      Function.update_self] at hq
    split_ifs at hq with hstate
    · simp at hq
    · exact absurd hq.1 hstate
  · simpa [Calls.kill, Machine.kill, Machine.setProc, Machine.Asleep, hqp] using hq

/-- The value is tested in `sem_down`: a closed semaphore puts the process to sleep. -/
theorem closedEmpty_afterDown (h : s.Settled sem) {m : Machine n}
    (hm : m.semArray = s.machine.semArray) (p : Fin n) :
    (s.afterDown p (m.semDownLoop p sem)).ClosedEmpty sem ↔ s.closed = false := by
  constructor
  · intro hempty
    by_contra hopen
    have hclosed : s.closed = true := by simpa using hopen
    have hzero := h.closed hclosed
    rw [← hm] at hzero
    refine hempty hclosed p ?_
    simp [Calls.afterDown, Calls.goto, semDownLoop_closed hzero, Machine.sleep, Machine.setProc,
      Machine.Asleep]
  · intro hopen hclosed
    simp [Calls.afterDown, Calls.goto, hopen] at hclosed

theorem closedEmpty_step (hsem : sem < maxSem) (hsettled : s.Settled sem)
    (h : s.ClosedEmpty sem) (hstep : CallStep sem s e t) :
    t.ClosedEmpty sem ↔ s.ClosesEmpty sem e := by
  cases hstep with
  | trap p _ | leave p _ => exact iff_of_true (h.testKilled p _) trivial
  | semOpen p value _ _ =>
      refine iff_of_true (fun hclosed => ?_) trivial
      simp [Calls.semOpen, Calls.goto, semOpen_valid hsem] at hclosed
  | semDown p _ _ =>
      rw [Calls.semDown, Machine.semDown_eq_loop]
      exact closedEmpty_afterDown hsettled rfl p
  | resume p _ _ _ => exact closedEmpty_afterDown hsettled (s.machine.leaveSleep_semArray p) p
  | semUp p _ _ =>
      refine iff_of_true (fun hclosed => ?_) trivial
      have hsame : (s.semUp p sem).machine = s.machine := by
        simp [Calls.semUp, Calls.goto, semUp_closed (hsettled.closed hclosed)]
      rw [hsame]
      exact h hclosed
  | semClose p _ =>
      have hclose : s.semClose p sem =
          { s with
            machine := (s.machine.setValue sem 0).setInitValue sem 0, closed := true }.goto p
              .returning := by
        simp [Calls.semClose, Machine.semClose, hsettled.unlocked]
      rw [hclose]
      exact ⟨fun hempty => hempty rfl, fun hempty _ => hempty⟩
  | kill p => exact iff_of_true (h.kill p) trivial

/-- In a run nobody ever sleeps on the semaphore while it is closed, if and only if every
`sem_close` finds nobody asleep on it and no value is tested in `sem_down` while it is closed.
A closed semaphore has no token, and `sem_up` gives it none. -/
theorem closed_nobody_asleep (hsem : 0 ≤ sem ∧ sem < maxSem) (hs : s.Started)
    (hrun : Runs (CallStep sem) s l t) :
    (Runs (fun u e v => CallStep sem u e v ∧ u.ClosesEmpty sem e) s l t ↔
      ∀ x ∈ l, x.2.closed → ∀ p, ¬ x.2.machine.Asleep p sem) ∧
    ∀ x ∈ l, x.2.closed → x.2.machine.semArray sem = ⟨0, 0⟩ ∧
      ∀ p, x.2.machine.semUp p sem = (-1, x.2.machine) := by
  have hstart : s.ClosedEmpty sem := fun hclosed => by simp [hs.opened] at hclosed
  have hsettled : ∀ (u : Calls n) e v, Settled sem u → CallStep sem u e v → Settled sem v :=
    fun _ _ _ h hstep => h.step hsem.2 hstep
  refine ⟨hrun.restricted_iff ⟨Settled.start hs, hstart⟩ hsettled
    fun _ _ _ hinv h hstep => closedEmpty_step hsem.2 hinv h hstep, fun x hx hclosed => ?_⟩
  have hzero := (hrun.invariant_mem (Settled.start hs) hsettled x hx).closed hclosed
  exact ⟨hzero, semUp_closed hzero⟩

/-- Two processes in user mode and a semaphore that was never opened. -/
def idleCalls : Calls 2 where
  machine := ⟨fun _ => ⟨0, 0⟩, fun _ => ⟨.running, none, false⟩⟩
  place := fun _ => .user
  locked := false
  closed := false

theorem idleCalls_started : idleCalls.Started := ⟨by decide, by decide, rfl, rfl⟩

/-- A process sleeps in `sem_down` and is woken, before the semaphore is closed. -/
theorem closed_nobody_asleep_woken :
    ∃ l t, Runs (fun u e v => CallStep 0 u e v ∧ u.ClosesEmpty 0 e) idleCalls l t ∧
      (∃ x ∈ l, x.2.machine.Asleep 1 0) ∧ t.closed := by
  let actions : List (CallEvent 2) :=
    [.trap 0, .semOpen 0 1, .leave 0, .trap 0, .semDown 0, .leave 0, .trap 1, .semDown 1, .trap 0,
      .semUp 0, .leave 0, .resume 1, .trap 0, .semClose 0]
  have hrun : (trace (act 0) actions idleCalls).any (fun x =>
      x.1.all (fun y => !y.2.closed || decide (∀ p, ¬ y.2.machine.Asleep p 0)) &&
        x.1.any (fun y => decide (y.2.machine.Asleep 1 0)) && x.2.closed) = true := by decide
  obtain ⟨l, t, hrun, hall⟩ := Runs.exists_of_trace act_step hrun
  simp only [Bool.and_eq_true, List.all_eq_true, List.any_eq_true, Bool.or_eq_true,
    Bool.not_eq_true', decide_eq_true_eq] at hall
  obtain ⟨⟨hawake, hasleep⟩, hclosed⟩ := hall
  refine ⟨l, t, (closed_nobody_asleep (by decide) idleCalls_started hrun).1.mpr ?_, hasleep,
    hclosed⟩
  intro x hx hopen
  exact (hawake x hx).resolve_left (by simp [hopen])

/-- `sem_open(0, 0)`, a `sem_down` that sleeps, and `sem_close(0)` returns 0. -/
theorem closed_asleep :
    ∃ l t, Runs (CallStep 0) idleCalls l t ∧
      (t.closed && decide (t.machine.Asleep 1 0)) = true := by
  let actions : List (CallEvent 2) :=
    [.trap 0, .semOpen 0 0, .leave 0, .trap 1, .semDown 1, .trap 0, .semClose 0]
  have hrun : (trace (act 0) actions idleCalls).any
      (fun x => x.2.closed && decide (x.2.machine.Asleep 1 0)) = true := by decide
  exact Runs.exists_of_trace act_step hrun

/-! ## A killed process -/

/-- No killed process sleeps. -/
def KilledAwake (s : Calls n) : Prop :=
  ∀ p, (s.machine.procs p).killed → (s.machine.procs p).state ≠ .sleeping

/-- A killed process that tests the value in `sem_down` finds a token. -/
def KilledFindsToken (sem : Int32) (s : Calls n) : CallEvent n → Prop
  | .semDown p | .resume p => (s.machine.procs p).killed → 0 < (s.machine.semArray sem).value
  | _ => True

theorem KilledAwake.of_procs (h : s.KilledAwake) (hprocs : t.machine.procs = s.machine.procs) :
    t.KilledAwake := by
  unfold KilledAwake
  rw [hprocs]
  exact h

theorem KilledAwake.testKilled (h : s.KilledAwake) (p : Fin n) (next : CallPlace) :
    (s.testKilled p next).KilledAwake := by
  unfold Calls.testKilled
  split_ifs
  · intro q
    by_cases hqp : q = p
    · simp [Calls.goto, Machine.exit, Machine.setProc, hqp]
    · simpa [Calls.goto, Machine.exit, Machine.setProc, hqp] using h q
  · exact h

theorem KilledAwake.kill (h : s.KilledAwake) (p : Fin n) : (s.kill p).KilledAwake := by
  intro q
  by_cases hqp : q = p
  · subst hqp
    simp only [Calls.kill, Machine.kill, Machine.setProc, Function.update_self]
    split_ifs with hstate
    · simp
    · exact fun _ => hstate
  · simpa [Calls.kill, Machine.kill, Machine.setProc, hqp] using h q

theorem wakeup_procs (m : Machine n) (p : Fin n) (sem : Int32) (q : Fin n) :
    (m.wakeup p sem).procs q = m.procs q ∨ ((m.wakeup p sem).procs q).state = .runnable := by
  unfold Machine.wakeup
  dsimp only
  split_ifs
  · exact .inr rfl
  · exact .inl rfl

theorem KilledAwake.semUp (h : s.KilledAwake) (p : Fin n) : (s.semUp p sem).KilledAwake := by
  unfold Calls.semUp Machine.semUp
  split_ifs
  · exact h
  · intro q
    rcases wakeup_procs (s.machine.setValue sem ((s.machine.semArray sem).value + 1)) p sem q
      with hsame | hrunnable
    · simp only [Calls.goto, hsame]
      exact h q
    · simp [Calls.goto, hrunnable]

/-- The value is tested in `sem_down` by a process that is awake. -/
theorem killedAwake_afterDown (h : s.KilledAwake) {m : Machine n} {p : Fin n}
    (hm : m.semArray = s.machine.semArray) (hothers : ∀ q ≠ p, m.procs q = s.machine.procs q)
    (hkilled : (m.procs p).killed = (s.machine.procs p).killed)
    (hawake : (m.procs p).state = .sleeping → (s.machine.procs p).state = .sleeping) :
    (s.afterDown p (m.semDownLoop p sem)).KilledAwake ↔
      ((s.machine.procs p).killed → 0 < (s.machine.semArray sem).value) := by
  by_cases hvalue : 0 < (s.machine.semArray sem).value
  · rw [m.semDownLoop_some p sem (hm ▸ hvalue)]
    refine iff_of_true (fun q => ?_) fun _ => hvalue
    by_cases hqp : q = p
    · subst hqp
      exact fun hk hs => h q (hkilled ▸ hk) (hawake hs)
    · have hq := h q
      rw [← hothers q hqp] at hq
      exact hq
  · rw [m.semDownLoop_none p sem (hm ▸ Int32.not_lt.mp hvalue)]
    constructor
    · intro hall hk
      refine absurd ?_ (hall p ?_)
      · simp [Calls.afterDown, Calls.goto, Machine.sleep, Machine.setProc]
      · simpa [Calls.afterDown, Calls.goto, Machine.sleep, Machine.setProc, hkilled] using hk
    · intro hk q
      by_cases hqp : q = p
      · subst hqp
        intro hkq
        refine absurd (hk ?_) hvalue
        simpa [Calls.afterDown, Calls.goto, Machine.sleep, Machine.setProc, hkilled] using hkq
      · have hq := h q
        rw [← hothers q hqp] at hq
        simpa [Calls.afterDown, Calls.goto, Machine.sleep, Machine.setProc, hqp] using hq

theorem killedAwake_step (h : s.KilledAwake) (hstep : CallStep sem s e t) :
    t.KilledAwake ↔ s.KilledFindsToken sem e := by
  cases hstep with
  | trap p _ | leave p _ => exact iff_of_true (h.testKilled p _) trivial
  | semOpen p value _ _ =>
      refine iff_of_true (h.of_procs ?_) trivial
      unfold Calls.semOpen Machine.semOpen
      split_ifs <;> rfl
  | semDown p _ _ =>
      rw [Calls.semDown, Machine.semDown_eq_loop]
      exact killedAwake_afterDown h rfl (fun _ _ => rfl) rfl id
  | resume p _ _ _ =>
      refine killedAwake_afterDown h (s.machine.leaveSleep_semArray p) (fun q hq => ?_) ?_ ?_
      · simp [Machine.leaveSleep, Machine.setProc, hq]
      · simp [Machine.leaveSleep, Machine.setProc]
      · simp [Machine.leaveSleep, Machine.setProc]
  | semUp p _ _ => exact iff_of_true (h.semUp p) trivial
  | semClose p _ =>
      refine iff_of_true (h.of_procs ?_) trivial
      unfold Calls.semClose Machine.semClose
      split_ifs <;> rfl
  | kill p => exact iff_of_true (h.kill p) trivial

/-- In a run no killed process ever sleeps in `sem_down`, if and only if every killed process
that tests the value there finds a token. -/
theorem killed_never_sleeps (hs : s.Started) (hrun : Runs (CallStep sem) s l t) :
    Runs (fun u e v => CallStep sem u e v ∧ u.KilledFindsToken sem e) s l t ↔
      ∀ x ∈ l, ∀ p, (x.2.machine.procs p).killed → (x.2.machine.procs p).state ≠ .sleeping := by
  have hstart : s.KilledAwake := fun p _ => hs.awake p
  exact @Runs.restricted_iff _ _ _ _ _ _ (fun _ => True) _ _ hrun ⟨trivial, hstart⟩
    (fun _ _ _ _ _ => trivial) fun _ _ _ _ h hstep => killedAwake_step h hstep

/-- A process that sleeps in `sem_down` is killed behind the `sem_up` that gave it a token. -/
theorem killed_never_sleeps_woken :
    ∃ l t, Runs (fun u e v => CallStep 0 u e v ∧ u.KilledFindsToken 0 e) idleCalls l t ∧
      (∃ x ∈ l, x.2.machine.Asleep 1 0) ∧ (t.machine.procs 1).killed ∧ t.place 1 = .returning := by
  let actions : List (CallEvent 2) :=
    [.trap 0, .semOpen 0 1, .leave 0, .trap 0, .semDown 0, .leave 0, .trap 1, .semDown 1, .trap 0,
      .semUp 0, .kill 1, .resume 1]
  have hrun : (trace (act 0) actions idleCalls).any (fun x =>
      x.1.all (fun y => decide (∀ p, (y.2.machine.procs p).killed →
          (y.2.machine.procs p).state ≠ .sleeping)) &&
        x.1.any (fun y => decide (y.2.machine.Asleep 1 0)) &&
        ((x.2.machine.procs 1).killed && decide (x.2.place 1 = .returning))) = true := by decide
  obtain ⟨l, t, hrun, hall⟩ := Runs.exists_of_trace act_step hrun
  simp only [Bool.and_eq_true, List.all_eq_true, List.any_eq_true, decide_eq_true_eq] at hall
  obtain ⟨⟨hawake, hasleep⟩, hkilled, hplace⟩ := hall
  exact ⟨l, t, (killed_never_sleeps idleCalls_started hrun).mpr hawake, hasleep, hkilled, hplace⟩

/-- A process sleeps in `sem_down`, is killed, runs, finds the value 0 again and sleeps again. -/
theorem killed_sleeps_again :
    ∃ l t, Runs (CallStep 0) idleCalls l t ∧
      ((t.machine.procs 1).killed && decide (t.machine.Asleep 1 0)) = true := by
  let actions : List (CallEvent 2) := [.trap 1, .semDown 1, .kill 1, .resume 1]
  have hrun : (trace (act 0) actions idleCalls).any
      (fun x => (x.2.machine.procs 1).killed && decide (x.2.machine.Asleep 1 0)) = true := by
    decide
  exact Runs.exists_of_trace act_step hrun

end Calls

end SistOp.Xv6
