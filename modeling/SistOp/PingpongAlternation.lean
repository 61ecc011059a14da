import SistOp.Pingpong
import Mathlib.Tactic

/-!
# pingpong alternates

The two semaphores pass one token to and fro.  It is at the semaphore that a process lowers,
or with the process until it raises the other one; `sem_close` can only destroy it.
-/

namespace SistOp.Xv6

namespace Machine

variable {n : ℕ} (m : Machine n) (sem value x : Int32)

theorem setValue_value : ((m.setValue sem value).semArray x).value =
    if x = sem then value else (m.semArray x).value := by
  by_cases hx : x = sem <;> simp [setValue, hx]

theorem setValue_initValue :
    ((m.setValue sem value).semArray x).initValue = (m.semArray x).initValue := by
  by_cases hx : x = sem <;> simp [setValue, hx]

theorem setInitValue_value :
    ((m.setInitValue sem value).semArray x).value = (m.semArray x).value := by
  by_cases hx : x = sem <;> simp [setInitValue, hx]

theorem setInitValue_initValue : ((m.setInitValue sem value).semArray x).initValue =
    if x = sem then value else (m.semArray x).initValue := by
  by_cases hx : x = sem <;> simp [setInitValue, hx]

end Machine

namespace Pingpong

variable {N : ℕ} {p q : Fin 2} {s t : State} {e : Fin 2 × Pc}

/-! ## The two processes -/

theorem upSem_eq (p : Fin 2) : upSem p = downSem (other p) := by
  revert p
  decide

theorem other_ne (p : Fin 2) : other p ≠ p := by
  revert p
  decide

@[simp] theorem other_other (p : Fin 2) : other (other p) = p := by
  revert p
  decide

theorem eq_or_other (p q : Fin 2) : q = p ∨ q = other p := by
  revert p q
  decide

@[simp] theorem downSem_inj : downSem p = downSem q ↔ p = q := by
  revert p q
  decide

/-! ## The token -/

/-- Between `sem_down` and the `sem_up` that follows it. -/
def Inside : Pc → Prop
  | .print _ | .up _ => True
  | _ => False

inductive Stage where
  | free | taken | printed
  deriving DecidableEq

def nthLine (k : ℕ) : Line := if k % 2 = 0 then .ping else .pong

/-- The process is the one that prints line `k`. -/
def Turn (p : Fin 2) (k : ℕ) : Prop := k % 2 = if p = child then 0 else 1

/-- The process that prints next when the token is with a process. -/
def printsNext : Fin 2 × Stage → Fin 2
  | (p, .free) | (p, .taken) => p
  | (p, .printed) => other p

/-- The token is free at the semaphore that a process lowers, or the process has it, or it is
lost. -/
structure Holds (token : Option (Fin 2 × Stage)) (s : State) : Prop where
  value : ∀ p, (s.machine.semArray (downSem p)).value =
    if token = some (p, .free) then 1 else 0
  print : ∀ p i, s.pc p = .print i → token = some (p, .taken)
  up : ∀ p i, s.pc p = .up i → token = some (p, .printed)
  lines : s.printed = (List.range s.printed.length).map nthLine
  turn : ∀ x, token = some x → Turn (printsNext x) s.printed.length

theorem Turn.line {k : ℕ} (h : Turn p k) : line p = nthLine k := by
  unfold Turn at h
  unfold Pingpong.line nthLine
  split at h <;> simp [*]

theorem Turn.next {k : ℕ} (h : Turn p k) : Turn (other p) (k + 1) := by
  revert h
  have hp := eq_or_other child p
  rcases hp with rfl | rfl <;> simp [Turn, other, child, parent] <;> omega

namespace Holds

variable {token : Option (Fin 2 × Stage)}

theorem free_of_pos (h : Holds token s)
    (hvalue : 0 < (s.machine.semArray (downSem p)).value) : token = some (p, .free) := by
  by_contra hne
  rw [h.value p, if_neg hne] at hvalue
  exact absurd hvalue (by decide)

theorem inside (h : Holds token s) (hinside : Inside (s.pc p)) :
    ∃ stage, token = some (p, stage) := by
  cases hpc : s.pc p <;> simp only [hpc, Inside] at hinside
  case print i => exact ⟨.taken, h.print p i hpc⟩
  case up i => exact ⟨.printed, h.up p i hpc⟩

/-- A step that prints nothing passes the token on, keeps it or loses it. -/
theorem pass {token' : Option (Fin 2 × Stage)} {machine : Machine 2} {pc : Pc}
    (h : Holds token s)
    (hvalue : ∀ q, (machine.semArray (downSem q)).value =
      if token' = some (q, .free) then 1 else 0)
    (hprint : ∀ i, pc = .print i → token' = some (p, .taken))
    (hup : ∀ i, pc = .up i → token' = some (p, .printed))
    (hothers : ∀ q stage, q ≠ p → stage ≠ .free → token = some (q, stage) → token' = token)
    (hturn : ∀ x, token' = some x → ∃ y, token = some y ∧ printsNext x = printsNext y) :
    Holds token' ((s.setMachine machine).goto p pc) where
  value q := by simpa using hvalue q
  print q i hpc := by
    by_cases hq : q = p
    · subst hq
      exact hprint i (by simpa using hpc)
    · have htaken := h.print q i (by simpa [hq] using hpc)
      rw [hothers q .taken hq (by simp) htaken, htaken]
  up q i hpc := by
    by_cases hq : q = p
    · subst hq
      exact hup i (by simpa using hpc)
    · have hprinted := h.up q i (by simpa [hq] using hpc)
      rw [hothers q .printed hq (by simp) hprinted, hprinted]
  lines := h.lines
  turn x hx := by
    obtain ⟨y, hy, hxy⟩ := hturn x hx
    rw [hxy]
    exact h.turn y hy

/-- A step outside that leaves the values of the semaphores. -/
theorem keep {machine : Machine 2} {pc : Pc} (h : Holds token s)
    (hvalue : ∀ q, (machine.semArray (downSem q)).value =
      (s.machine.semArray (downSem q)).value)
    (hprint : ∀ i, pc ≠ .print i) (hup : ∀ i, pc ≠ .up i) :
    Holds token ((s.setMachine machine).goto p pc) :=
  h.pass (fun q => (hvalue q).trans (h.value q)) (fun i hpc => absurd hpc (hprint i))
    (fun i hpc => absurd hpc (hup i)) (fun _ _ _ _ _ => rfl) fun x hx => ⟨x, hx, rfl⟩

/-- A step that only moves the process, outside. -/
theorem stay {pc : Pc} (h : Holds token s) (hprint : ∀ i, pc ≠ .print i)
    (hup : ∀ i, pc ≠ .up i) : Holds token (s.goto p pc) := by
  have hkeep : Holds token ((s.setMachine s.machine).goto p pc) :=
    h.keep (fun _ => rfl) hprint hup
  exact hkeep

/-- `sem_down` finds one and leaves zero. -/
theorem lowered (h : Holds (some (p, .free)) s) (q : Fin 2) :
    (if downSem q = downSem p then (s.machine.semArray (downSem p)).value - 1
      else (s.machine.semArray (downSem q)).value) = 0 := by
  split
  next => rw [h.value p, if_pos rfl, Int32.sub_self]
  next hq =>
    rw [h.value q, if_neg]
    rintro htoken
    simp only [Option.some.injEq, Prod.mk.injEq, and_true] at htoken
    exact hq (by rw [htoken])

theorem take {machine : Machine 2} {i : ℕ} (h : Holds (some (p, .free)) s)
    (hvalue : ∀ q, (machine.semArray (downSem q)).value = 0) :
    Holds (some (p, .taken)) ((s.setMachine machine).goto p (.print i)) := by
  refine h.pass (fun q => by simpa using hvalue q) (fun _ _ => rfl) (fun j hpc => by simp at hpc)
    (fun q stage hq _ htoken => ?_) fun x hx => ?_
  · simp only [Option.some.injEq, Prod.mk.injEq] at htoken
    exact absurd htoken.1.symm hq
  · cases hx
    exact ⟨(p, .free), rfl, rfl⟩

theorem raise {machine : Machine 2} {pc : Pc} (h : Holds (some (p, .printed)) s)
    (hvalue : ∀ q, (machine.semArray (downSem q)).value = if other p = q then 1 else 0)
    (hprint : ∀ i, pc ≠ .print i) (hup : ∀ i, pc ≠ .up i) :
    Holds (some (other p, .free)) ((s.setMachine machine).goto p pc) := by
  refine h.pass (fun q => by simpa using hvalue q) (fun i hpc => absurd hpc (hprint i))
    (fun i hpc => absurd hpc (hup i)) (fun q stage hq _ htoken => ?_) fun x hx => ?_
  · simp only [Option.some.injEq, Prod.mk.injEq] at htoken
    exact absurd htoken.1.symm hq
  · cases hx
    exact ⟨(p, .printed), rfl, rfl⟩

/-- The token is lost, at a semaphore that is closed or in a `sem_up` that fails. -/
theorem lose {machine : Machine 2} {pc : Pc} (h : Holds token s)
    (hvalue : ∀ q, (machine.semArray (downSem q)).value = 0)
    (hprint : ∀ i, pc ≠ .print i) (hup : ∀ i, pc ≠ .up i)
    (hothers : ∀ q stage, q ≠ p → stage ≠ .free → token ≠ some (q, stage)) :
    Holds none ((s.setMachine machine).goto p pc) :=
  h.pass (fun q => by simpa using hvalue q) (fun i hpc => absurd hpc (hprint i))
    (fun i hpc => absurd hpc (hup i))
    (fun q stage hq hstage htoken => absurd htoken (hothers q stage hq hstage))
    fun x hx => by simp at hx

theorem dropped {pc : Pc} (h : Holds (some (p, .printed)) s) (hprint : ∀ i, pc ≠ .print i)
    (hup : ∀ i, pc ≠ .up i) : Holds none (s.goto p pc) := by
  have hlose : Holds none ((s.setMachine s.machine).goto p pc) := by
    refine h.lose (fun q => by simpa using h.value q) hprint hup fun q stage hq _ htoken => ?_
    simp only [Option.some.injEq, Prod.mk.injEq] at htoken
    exact hq htoken.1.symm
  exact hlose

/-- `sem_up` finds zero and leaves one. -/
theorem raised (h : Holds (some (p, .printed)) s) (q : Fin 2) :
    (if downSem q = upSem p then (s.machine.semArray (upSem p)).value + 1
      else (s.machine.semArray (downSem q)).value) = if other p = q then 1 else 0 := by
  have hzero : ∀ q, (s.machine.semArray (downSem q)).value = 0 := fun q => by
    simpa using h.value q
  simp only [upSem_eq, downSem_inj, hzero, Int32.zero_add]
  by_cases hq : other p = q
  · rw [if_pos hq.symm, if_pos hq]
  · rw [if_neg (Ne.symm hq), if_neg hq]

theorem destroyed {pc : Pc} (q : Fin 2) (h : Holds (some (q, .free)) s)
    (hprint : ∀ i, pc ≠ .print i) (hup : ∀ i, pc ≠ .up i) :
    Holds none ((s.setMachine (s.machine.setValue (downSem q) 0)).goto p pc) := by
  refine h.lose (fun r => ?_) hprint hup fun r stage _ hstage htoken => ?_
  · rw [Machine.setValue_value]
    split
    next => rfl
    next hr =>
      rw [h.value r, if_neg]
      rintro htoken
      simp only [Option.some.injEq, Prod.mk.injEq, and_true] at htoken
      exact hr (by rw [htoken])
  · simp only [Option.some.injEq, Prod.mk.injEq] at htoken
    exact hstage htoken.2.symm

theorem closed {sem : Int32} {pc : Pc} (h : Holds token s)
    (hfree : ∀ q, downSem q = sem → token ≠ some (q, .free))
    (hprint : ∀ i, pc ≠ .print i) (hup : ∀ i, pc ≠ .up i) :
    Holds token ((s.setMachine (s.machine.setValue sem 0)).goto p pc) := by
  refine h.keep (fun q => ?_) hprint hup
  rw [Machine.setValue_value]
  split
  next hq => rw [h.value q, if_neg (hfree q hq)]
  next => rfl

theorem printed {i j : ℕ} (h : Holds token s) (hpc : s.pc p = .print j) :
    Holds (some (p, .printed)) ((s.printf (line p)).goto p (.up i)) := by
  have htoken := h.print p j hpc
  subst htoken
  have hturn : Turn p s.printed.length := h.turn _ rfl
  refine ⟨fun q => ?_, fun q k hq => ?_, fun q k hq => ?_, ?_, fun x hx => ?_⟩
  · simpa using h.value q
  · by_cases hqp : q = p
    · subst hqp
      simp at hq
    · have htaken := h.print q k (by simpa [hqp] using hq)
      simp only [Option.some.injEq, Prod.mk.injEq, and_true] at htaken
      exact absurd htaken.symm hqp
  · by_cases hqp : q = p
    · rw [hqp]
    · simpa using h.up q k (by simpa [hqp] using hq)
  · simp only [State.goto_printed, State.printf_printed, List.length_append, List.length_cons,
      List.length_nil, List.range_succ, List.map_append, List.map_cons, List.map_nil]
    rw [← h.lines, hturn.line]
  · cases hx
    simpa [printsNext] using hturn.next

end Holds

/-! ## Steps -/

theorem loopHead_ne_print (N i j : ℕ) : loopHead N i ≠ .print j := by
  unfold loopHead
  split <;> simp

theorem loopHead_ne_up (N i j : ℕ) : loopHead N i ≠ .up j := by
  unfold loopHead
  split <;> simp

theorem afterClose_ne_print (sem : Int32) (j : ℕ) : afterClose sem ≠ .print j := by
  unfold afterClose
  split <;> simp

theorem afterClose_ne_up (sem : Int32) (j : ℕ) : afterClose sem ≠ .up j := by
  unfold afterClose
  split <;> simp

theorem Holds.step {token : Option (Fin 2 × Stage)} (h : Holds token s)
    (hmove : Move N p s t) : ∃ token', Holds token' t := by
  cases hmove with
  | @take i hpc hvalue =>
      have htoken := h.free_of_pos hvalue
      subst htoken
      exact ⟨_, h.take fun q => by rw [Machine.setValue_value, h.lowered q]⟩
  | @takeAgain i hpc hstate hvalue =>
      have htoken := h.free_of_pos hvalue
      subst htoken
      refine ⟨_, h.take fun q => ?_⟩
      rw [Machine.setValue_value, Machine.leaveSleep_semArray, h.lowered q]
  | sleep hpc hvalue => exact ⟨token, h.keep (fun q => by simp) (by simp) (by simp)⟩
  | sleepAgain hpc hstate hvalue =>
      exact ⟨token, h.keep (fun q => by simp) (by simp) (by simp)⟩
  | print hpc => exact ⟨_, h.printed hpc⟩
  | @upFails i hpc hvalue =>
      have htoken := h.up p i hpc
      subst htoken
      exact ⟨none, h.dropped (loopHead_ne_print N (i + 1)) (loopHead_ne_up N (i + 1))⟩
  | @up i hpc hvalue =>
      have htoken := h.up p i hpc
      subst htoken
      refine ⟨_, h.raise (fun q => ?_) (loopHead_ne_print N (i + 1))
        (loopHead_ne_up N (i + 1))⟩
      rw [Machine.wakeup_semArray, Machine.setValue_value, h.raised q]
  | @closeTaken sem hpc hother =>
      exact ⟨token, h.stay (afterClose_ne_print sem) (afterClose_ne_up sem)⟩
  | closeTest hpc => exact ⟨token, h.stay (by simp) (by simp)⟩
  | @closeValue sem hpc =>
      by_cases hfree : ∃ q, downSem q = sem ∧ token = some (q, .free)
      · obtain ⟨q, rfl, rfl⟩ := hfree
        exact ⟨none, h.destroyed q (by simp) (by simp)⟩
      · exact ⟨token, h.closed (fun q hq htoken => hfree ⟨q, hq, htoken⟩) (by simp) (by simp)⟩
  | @closeInit sem hpc =>
      refine ⟨token, h.keep (fun q => ?_) (afterClose_ne_print sem) (afterClose_ne_up sem)⟩
      rw [Machine.setInitValue_value]

/-! ## Runs -/

theorem start_machine (N : ℕ) (m : Machine 2) : (start N m).machine =
    ((((m.setValue 0 1).setInitValue 0 1).setValue 1 1).setInitValue 1 1).setValue 1 0 := by
  have hopened : ((m.semOpen 0 1).2.semOpen 1 1).2 =
      (((m.setValue 0 1).setInitValue 0 1).setValue 1 1).setInitValue 1 1 := by
    simp only [Machine.semOpen, if_neg (show ¬ maxSem < 0 by decide),
      if_neg (show ¬ maxSem < 1 by decide)]
  have hvalue : (((((m.setValue 0 1).setInitValue 0 1).setValue 1 1).setInitValue 1 1).semArray
      1).value = 1 := by simp
  simp only [start, hopened, Machine.semDown, hvalue, if_pos (show (0 : Int32) < 1 by decide),
    Int32.sub_self]

theorem Holds.start (N : ℕ) (m : Machine 2) :
    Holds (some (child, .free)) (Pingpong.start N m) where
  value q := by
    rw [start_machine]
    rcases eq_or_other child q with rfl | rfl
    · simp [Machine.setValue_value, Machine.setInitValue_value, downSem]
    · simp [downSem, other, parent, child]
  print q i hpc := absurd hpc (loopHead_ne_print N 0 i)
  up q i hpc := absurd hpc (loopHead_ne_up N 0 i)
  lines := rfl
  turn x hx := by
    cases hx
    rfl

theorem Holds.run {l : List ((Fin 2 × Pc) × State)} {m : Machine 2}
    (hrun : Runs (Step N) (Pingpong.start N m) l s) : ∃ token, Holds token s := by
  induction hrun with
  | nil => exact ⟨_, Holds.start N m⟩
  | snoc _ hstep ih =>
      obtain ⟨token, h⟩ := ih
      exact h.step hstep.move

/-- The lines alternate, and no process is behind its `sem_down` while the other one is. -/
theorem alternates {l : List ((Fin 2 × Pc) × State)} {m : Machine 2}
    (hrun : Runs (Step N) (start N m) l s) :
    s.printed = (List.range s.printed.length).map nthLine ∧
      ¬ (Inside (s.pc parent) ∧ Inside (s.pc child)) := by
  obtain ⟨token, h⟩ := Holds.run hrun
  refine ⟨h.lines, fun ⟨hparent, hchild⟩ => ?_⟩
  obtain ⟨stage, hp⟩ := h.inside hparent
  obtain ⟨stage', hc⟩ := h.inside hchild
  rw [hp] at hc
  simp [parent, child] at hc

/-- Both processes go through their loops once and close the semaphores. -/
def inTurn : List (Fin 2 × Bool) :=
  [(parent, false), (child, false), (child, false), (child, false), (parent, false),
    (parent, false), (parent, false), (child, false), (child, false), (child, false),
    (child, false), (child, false), (child, false), (parent, false), (parent, false),
    (parent, false), (parent, false), (parent, false), (parent, false)]

theorem alternates_once :
    ∃ l s, Runs (Step 1) (start 1 idle) l s ∧ s.pc parent = .done ∧ s.pc child = .done ∧
      s.printed.length = 2 ∧ s.printed = (List.range s.printed.length).map nthLine := by
  obtain ⟨l, s, hrun, hs⟩ := exists_runs 1 (start 1 idle) inTurn
    (fun r => decide (r.2.pc parent = .done ∧ r.2.pc child = .done ∧
      r.2.printed.length = 2)) (by decide)
  simp only [decide_eq_true_eq] at hs
  exact ⟨l, s, hrun, hs.1, hs.2.1, hs.2.2, (alternates hrun).1⟩

end Pingpong

end SistOp.Xv6
