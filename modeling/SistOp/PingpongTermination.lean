import SistOp.PingpongAlternation
import Mathlib.Tactic

/-!
# The end of pingpong

The child may close semaphore 1 while the token for the last PONG is there.  The token is
lost then, and the parent sleeps for ever.  When the parent has taken it before, both
processes come to their end.
-/

namespace SistOp.Xv6.Pingpong

variable {N : ℕ} {p q : Fin 2} {s t : State} {e : Fin 2 × Pc}

/-! ## Every run ends -/

/-- The weight of what a process has still to do. -/
def remaining (N : ℕ) (runnable : Bool) : Pc → ℕ
  | .down i => 8 * (N - i) + 15
  | .asleep i => if runnable then 8 * (N - i) + 14 else 8 * (N - i) + 13
  | .print i => 8 * (N - i) + 12
  | .up i => 8 * (N - i) + 11
  | .closeTest sem => if sem = 1 then 6 else 3
  | .closeValue sem => if sem = 1 then 5 else 2
  | .closeInit sem => if sem = 1 then 4 else 1
  | .done => 0

def State.rank (N : ℕ) (s : State) (p : Fin 2) : ℕ :=
  remaining N (decide ((s.machine.procs p).state = .runnable)) (s.pc p)

theorem remaining_loopHead (N i : ℕ) (runnable : Bool) :
    remaining N runnable (loopHead N (i + 1)) + 2 ≤ 8 * (N - i) + 11 := by
  unfold loopHead
  split
  next h =>
    simp only [remaining]
    omega
  next => simp [remaining]

theorem remaining_afterClose (N : ℕ) (sem : Int32) (runnable : Bool) :
    remaining N runnable (afterClose sem) < if sem = 1 then 4 else 1 := by
  unfold afterClose
  by_cases h : sem = 1 <;> simp [remaining, h]

/-- How much `wakeup` can add to what the other process has to do. -/
def wakes : Pc → ℕ
  | .up _ => 1
  | _ => 0

/-- Only `sem_up` touches the other process. -/
theorem Move.procs_other (h : Move N p s t) :
    (t.machine.procs (other p) = s.machine.procs (other p)) ∨ ∃ i, s.pc p = .up i := by
  have hne := other_ne p
  cases h with
  | @up i hpc hvalue => exact Or.inr ⟨i, hpc⟩
  | sleep => exact Or.inl (by simp [Machine.sleep, Machine.setProc, hne])
  | takeAgain =>
      exact Or.inl (by simp [Machine.setValue, Machine.leaveSleep, Machine.setProc, hne])
  | sleepAgain =>
      exact Or.inl (by simp [Machine.sleep, Machine.leaveSleep, Machine.setProc, hne])
  | _ => exact Or.inl rfl

theorem Move.rank_other (h : Move N p s t) :
    t.rank N (other p) ≤ s.rank N (other p) + wakes (s.pc p) := by
  have hpc := h.otherPc (other_ne p)
  rcases h.procs_other with hprocs | ⟨i, hup⟩
  · have hrank : t.rank N (other p) = s.rank N (other p) := by
      simp only [State.rank, hpc, hprocs]
    omega
  · simp only [State.rank, hpc, hup, wakes]
    cases s.pc (other p) <;> simp only [remaining] <;> (repeat' split) <;> omega

/-- What a process has to do gets less with each of its steps. -/
theorem Move.rank_self (h : Move N p s t) :
    t.rank N p + wakes (s.pc p) < s.rank N p := by
  cases h with
  | take hpc hvalue => simp [State.rank, hpc, wakes, remaining]
  | sleep hpc hvalue =>
      simp [State.rank, hpc, wakes, remaining, Machine.sleep, Machine.setProc]
  | takeAgain hpc hstate hvalue => simp [State.rank, hpc, wakes, remaining, hstate]
  | sleepAgain hpc hstate hvalue =>
      simp [State.rank, hpc, wakes, remaining, hstate, Machine.sleep, Machine.setProc]
  | print hpc => simp [State.rank, hpc, wakes, remaining]
  | @upFails i hpc hvalue =>
      simp only [State.rank, hpc, State.goto_pc, Function.update_self]
      exact remaining_loopHead N i _
  | @up i hpc hvalue =>
      simp only [State.rank, hpc, State.goto_pc, Function.update_self]
      exact remaining_loopHead N i _
  | @closeTaken sem hpc hother =>
      simp only [State.rank, hpc, State.goto_pc, Function.update_self]
      refine (remaining_afterClose N sem _).trans_le ?_
      simp only [remaining]
      split <;> omega
  | @closeTest sem hpc =>
      simp only [State.rank, hpc, State.goto_pc, Function.update_self, remaining, wakes]
      split <;> omega
  | @closeValue sem hpc =>
      simp only [State.rank, hpc, State.goto_pc, Function.update_self, remaining, wakes]
      split <;> omega
  | @closeInit sem hpc =>
      simp only [State.rank, hpc, State.goto_pc, Function.update_self]
      exact remaining_afterClose N sem _

theorem Move.rank_lt (h : Move N p s t) :
    t.rank N p + t.rank N (other p) < s.rank N p + s.rank N (other p) := by
  have hother := h.rank_other
  have hself := h.rank_self
  omega

theorem rank_comm (s : State) (p : Fin 2) :
    s.rank N p + s.rank N (other p) = s.rank N parent + s.rank N child := by
  rcases eq_or_other parent p with rfl | rfl
  · rfl
  · exact Nat.add_comm _ _

/-- A run is at most as long as what the processes have to do. -/
theorem length_le {l : List ((Fin 2 × Pc) × State)} (hrun : Runs (Step N) s l t) :
    l.length + (t.rank N parent + t.rank N child) ≤ s.rank N parent + s.rank N child := by
  induction hrun with
  | nil => simp
  | @snoc l t u e _ hstep ih =>
      have hlt := hstep.move.rank_lt
      rw [rank_comm, rank_comm] at hlt
      simp only [List.length_append, List.length_cons, List.length_nil]
      omega

theorem start_rank_le (N : ℕ) (m : Machine 2) (p : Fin 2) :
    (start N m).rank N p ≤ 8 * N + 15 := by
  simp only [State.rank, start, loopHead]
  split
  next => simp [remaining]
  next =>
    simp only [remaining]
    split <;> omega

/-! ## Sleeping processes -/

/-- A process in the loop of `sem_down` has been woken, or sleeps with nothing to take. -/
def Sleepers (s : State) : Prop :=
  ∀ p i, s.pc p = .asleep i → (s.machine.procs p).state = .runnable ∨
    (s.machine.procs p).state = .sleeping ∧ (s.machine.procs p).chan = some (downSem p) ∧
      (s.machine.semArray (downSem p)).value ≤ 0

/-- A process lowers its own semaphore only, and closes both. -/
theorem Move.value_other (h : Move N p s t) :
    (t.machine.semArray (downSem (other p))).value =
        (s.machine.semArray (downSem (other p))).value ∨
      (t.machine.semArray (downSem (other p))).value = 0 ∨ ∃ i, s.pc p = .up i := by
  have hne := other_ne p
  cases h with
  | take => exact Or.inl (by simp [Machine.setValue_value, hne])
  | takeAgain => exact Or.inl (by simp [Machine.setValue_value, hne])
  | @closeValue sem hpc =>
      by_cases hsem : downSem (other p) = sem
      · exact Or.inr (Or.inl (by simp [hsem]))
      · exact Or.inl (by simp [Machine.setValue_value, hsem])
  | closeInit => exact Or.inl (by simp [Machine.setInitValue_value])
  | upFails hpc => exact Or.inr (Or.inr ⟨_, hpc⟩)
  | up hpc => exact Or.inr (Or.inr ⟨_, hpc⟩)
  | _ => exact Or.inl (by simp)

theorem Sleepers.own (hmove : Move N p s t) {i : ℕ} (hasleep : t.pc p = .asleep i) :
    (t.machine.procs p).state = .sleeping ∧ (t.machine.procs p).chan = some (downSem p) ∧
      (t.machine.semArray (downSem p)).value ≤ 0 := by
  cases hmove with
  | sleep hpc hvalue => simpa [Machine.sleep, Machine.setProc] using hvalue
  | sleepAgain hpc hstate hvalue => simpa [Machine.sleep, Machine.setProc] using hvalue
  | upFails => simp [loopHead] at hasleep; split at hasleep <;> simp at hasleep
  | up => simp [loopHead] at hasleep; split at hasleep <;> simp at hasleep
  | closeTaken => simp [afterClose] at hasleep; split at hasleep <;> simp at hasleep
  | closeInit => simp [afterClose] at hasleep; split at hasleep <;> simp at hasleep
  | _ => simp at hasleep

/-- `sem_up` wakes the other process. -/
theorem Move.woken (h : Move N p s t) {i : ℕ} (hup : s.pc p = .up i)
    (hstate : (s.machine.procs (other p)).state = .runnable ∨
      (s.machine.procs (other p)).state = .sleeping ∧
        (s.machine.procs (other p)).chan = some (downSem (other p))) :
    (t.machine.procs (other p)).state = .runnable ∨
      t.machine = s.machine := by
  have hne := other_ne p
  cases h with
  | upFails => exact Or.inr rfl
  | up =>
      refine Or.inl ?_
      rcases hstate with hrunnable | ⟨hsleeping, hchan⟩
      · simp [Machine.wakeup, Machine.setValue, hrunnable]
      · simp [Machine.wakeup, Machine.setValue, hsleeping, hchan, hne, upSem_eq]
  | _ => simp_all

theorem Sleepers.step (h : Sleepers s) (hmove : Move N p s t) : Sleepers t := by
  intro q i hasleep
  rcases eq_or_other p q with rfl | rfl
  · exact Or.inr (Sleepers.own hmove hasleep)
  have hsleeper := h (other p) i (by rw [← hmove.otherPc (other_ne p), hasleep])
  by_cases hup : ∃ i, s.pc p = .up i
  · obtain ⟨j, hup⟩ := hup
    rcases hmove.woken hup (hsleeper.imp_right fun hs => ⟨hs.1, hs.2.1⟩) with hwoken | hsame
    · exact Or.inl hwoken
    · rw [hsame]
      exact hsleeper
  · have hprocs := hmove.procs_other.resolve_right hup
    rw [hprocs]
    refine hsleeper.imp_right fun hs => ⟨hs.1, hs.2.1, ?_⟩
    rcases hmove.value_other with hvalue | hvalue | hup'
    · rw [hvalue]
      exact hs.2.2
    · rw [hvalue]
      exact Int32.le_refl 0
    · exact absurd hup' hup

/-! ## Rounds -/

/-- In the loop of the process. -/
def Loops : Pc → Prop
  | .down _ | .asleep _ | .print _ | .up _ => True
  | _ => False

/-- In front of `sem_down` or in it. -/
def Waits : Pc → Prop
  | .down _ | .asleep _ => True
  | _ => False

/-- The iterations that a process has behind it. -/
def round (N : ℕ) : Pc → ℕ
  | .down i | .asleep i | .print i | .up i => i
  | _ => N

/-- The process that has the token is where it has it. -/
structure Place (x : Fin 2 × Stage) (s : State) : Prop where
  taken : x.2 = .taken → ∃ i, s.pc x.1 = .print i
  printed : x.2 = .printed → ∃ i, s.pc x.1 = .up i

/-- The token is in use, and the child is ahead when it is on its way to the parent. -/
structure Rounds (N : ℕ) (x : Fin 2 × Stage) (s : State) : Prop where
  holds : Holds (some x) s
  place : Place x s
  ahead : round N (s.pc child) = round N (s.pc parent) + if x.1 = child then 0 else 1
  parentIn : round N (s.pc parent) < N
  range : ∀ p, Loops (s.pc p) → round N (s.pc p) < N
  init : Loops (s.pc child) → ∀ p, (s.machine.semArray (downSem p)).initValue = 1

/-- Both processes are past their loops. -/
def Ended (s : State) : Prop := ∀ p, ¬ Loops (s.pc p)

theorem round_loopHead {i : ℕ} (h : i ≤ N) : round N (loopHead N i) = i := by
  unfold loopHead
  split
  next => rfl
  next hlt =>
    have hN : i = N := by omega
    rw [hN]
    rfl

theorem loops_loopHead {i : ℕ} : Loops (loopHead N i) ↔ i < N := by
  unfold loopHead
  split <;> simp [Loops, *]

theorem loops_of_round {pc : Pc} (h : round N pc < N) : Loops pc := by
  cases pc <;> simp [round, Loops] at h ⊢

theorem not_loops_afterClose (sem : Int32) : ¬ Loops (afterClose sem) := by
  unfold afterClose
  split <;> simp [Loops]

theorem round_of_not_loops {pc : Pc} (h : ¬ Loops pc) : round N pc = N := by
  cases pc <;> simp [round, Loops] at h ⊢

theorem Place.keep {x : Fin 2 × Stage} (h : Place x s) (hmove : Move N p s t)
    (hprint : ∀ i, s.pc p ≠ .print i) (hup : ∀ i, s.pc p ≠ .up i) : Place x t := by
  by_cases hx : x.1 = p
  · refine ⟨fun hstage => ?_, fun hstage => ?_⟩
    · obtain ⟨i, hi⟩ := h.taken hstage
      exact absurd (hx ▸ hi) (hprint i)
    · obtain ⟨i, hi⟩ := h.printed hstage
      exact absurd (hx ▸ hi) (hup i)
  · have hpc := hmove.otherPc hx
    refine ⟨?_, ?_⟩ <;> rw [hpc]
    · exact h.taken
    · exact h.printed

/-- A step that leaves the rounds of the processes. -/
theorem Rounds.keep {x x' : Fin 2 × Stage} (h : Rounds N x s) (hx : x'.1 = x.1)
    (hholds : Holds (some x') t) (hplace : Place x' t)
    (hround : ∀ q, round N (t.pc q) = round N (s.pc q))
    (hloops : ∀ q, Loops (t.pc q) ↔ Loops (s.pc q))
    (hinit : Loops (s.pc child) → ∀ q, (t.machine.semArray (downSem q)).initValue =
      (s.machine.semArray (downSem q)).initValue) : Rounds N x' t where
  holds := hholds
  place := hplace
  ahead := by rw [hround, hround, hx, h.ahead]
  parentIn := by rw [hround]; exact h.parentIn
  range p hp := by
    rw [hround]
    exact h.range p ((hloops p).1 hp)
  init hchild p := by
    have hloop := (hloops child).1 hchild
    rw [hinit hloop p, h.init hloop p]

/-- The child closes semaphore 1 when the parent has the last token. -/
def Orderly (s : State) (e : Fin 2 × Pc) : Prop :=
  e = (child, .closeValue 1) → ¬ Waits (s.pc parent)

/-- The child may be past its loop when the parent is not, but not the other way round. -/
theorem Rounds.parentLoops {x : Fin 2 × Stage} (h : Rounds N x s) : Loops (s.pc parent) :=
  loops_of_round h.parentIn

theorem Rounds.owner {x : Fin 2 × Stage} (h : Rounds N x s) : Loops (s.pc x.1) := by
  rcases eq_or_other child x.1 with hx | hx
  · have hahead := h.ahead
    rw [if_pos hx, Nat.add_zero] at hahead
    rw [hx]
    exact loops_of_round (by rw [hahead]; exact h.parentIn)
  · rw [hx]
    exact h.parentLoops

theorem Rounds.waits (h : Rounds N (p, .free) s) : Waits (s.pc p) := by
  have howner : Loops (s.pc p) := h.owner
  cases hpc : s.pc p with
  | down => trivial
  | asleep => trivial
  | print i => exact absurd (h.holds.print p i hpc) (by simp)
  | up i => exact absurd (h.holds.up p i hpc) (by simp)
  | closeTest => simp [hpc, Loops] at howner
  | closeValue => simp [hpc, Loops] at howner
  | closeInit => simp [hpc, Loops] at howner
  | done => simp [hpc, Loops] at howner

/-- An iteration ends with `sem_up`. -/
theorem Move.sameRound (h : Move N p s t) (hloops : Loops (s.pc p))
    (hup : ∀ i, s.pc p ≠ .up i) :
    round N (t.pc p) = round N (s.pc p) ∧ Loops (t.pc p) := by
  cases h with
  | upFails hpc => exact absurd hpc (hup _)
  | up hpc => exact absurd hpc (hup _)
  | closeInit hpc => simp [hpc, Loops] at hloops
  | take hpc => simp [hpc, round, Loops]
  | sleep hpc => simp [hpc, round, Loops]
  | takeAgain hpc => simp [hpc, round, Loops]
  | sleepAgain hpc => simp [hpc, round, Loops]
  | print hpc => simp [hpc, round, Loops]
  | _ => simp_all [Loops]

theorem Move.closes (h : Move N p s t) (hloops : ¬ Loops (s.pc p)) : ¬ Loops (t.pc p) := by
  cases h with
  | closeTaken => simpa using not_loops_afterClose _
  | closeInit => simpa using not_loops_afterClose _
  | closeTest => simp [Loops]
  | closeValue => simp [Loops]
  | _ => simp_all [Loops]

/-- A step in which no iteration ends. -/
theorem Rounds.within {x x' : Fin 2 × Stage} (h : Rounds N x s) (hmove : Move N p s t)
    (hround : round N (t.pc p) = round N (s.pc p)) (hloops : Loops (t.pc p) ↔ Loops (s.pc p))
    (hx : x'.1 = x.1) (hholds : Holds (some x') t) (hplace : Place x' t)
    (hinit : Loops (s.pc child) → ∀ q, (t.machine.semArray (downSem q)).initValue =
      (s.machine.semArray (downSem q)).initValue) : Rounds N x' t := by
  refine h.keep hx hholds hplace (fun q => ?_) (fun q => ?_) hinit <;>
    rcases eq_or_other p q with rfl | rfl
  · exact hround
  · rw [hmove.otherPc (other_ne p)]
  · exact hloops
  · rw [hmove.otherPc (other_ne p)]

/-- The child closes the semaphores while the parent is in its last iteration. -/
theorem Rounds.closing {x : Fin 2 × Stage} (h : Rounds N x s) (hmove : Move N p s t)
    (hpc : ¬ Loops (s.pc p)) (horderly : Orderly s (p, s.pc p)) : Rounds N x t := by
  have hp : p = child := by
    rcases eq_or_other child p with hp | hp
    · exact hp
    · exact absurd h.parentLoops (by rwa [hp] at hpc)
  subst hp
  have hclosed := hmove.closes hpc
  have hround : round N (t.pc child) = round N (s.pc child) := by
    rw [round_of_not_loops hclosed, round_of_not_loops hpc]
  have hplace : Place x t := h.place.keep hmove (fun i hi => by simp [hi, Loops] at hpc)
    (fun i hi => by simp [hi, Loops] at hpc)
  refine h.within hmove hround (iff_of_false hclosed hpc) rfl ?_ hplace
    fun hloops => absurd hloops hpc
  cases hmove with
  | @closeTaken sem hpc' _ =>
      exact h.holds.stay (afterClose_ne_print sem) (afterClose_ne_up sem)
  | closeTest => exact h.holds.stay (by simp) (by simp)
  | @closeInit sem hpc' =>
      refine h.holds.keep (fun q => ?_) (afterClose_ne_print sem) (afterClose_ne_up sem)
      rw [Machine.setInitValue_value]
  | @closeValue sem hpc' =>
      refine h.holds.closed (fun q hq htoken => ?_) (by simp) (by simp)
      cases htoken
      rcases eq_or_other child q with rfl | hqp
      · exact hpc h.owner
      · have hqp' : q = parent := hqp
        subst hqp'
        have hsem : sem = 1 := hq.symm
        exact horderly (by rw [hpc', hsem]) h.waits
  | _ => simp_all [Loops]

/-- While the child is in its loop, `sem_up` does not fail. -/
theorem Rounds.raises (h : Rounds N (p, .printed) s) (hchild : Loops (s.pc child)) :
    (s.machine.semArray (upSem p)).initValue ≠ (s.machine.semArray (upSem p)).value := by
  have hvalue : (s.machine.semArray (downSem (other p))).value = 0 := by
    simpa using h.holds.value (other p)
  rw [upSem_eq, h.init hchild (other p), hvalue]
  decide

theorem Move.raised {i : ℕ} (hmove : Move N p s t) (hpc : s.pc p = .up i)
    (hvalue : (s.machine.semArray (upSem p)).initValue ≠
      (s.machine.semArray (upSem p)).value) :
    t = (s.setMachine ((s.machine.setValue (upSem p)
      ((s.machine.semArray (upSem p)).value + 1)).wakeup p (upSem p))).goto p
        (loopHead N (i + 1)) := by
  cases hmove with
  | up hpc' =>
      rw [hpc] at hpc'
      cases hpc'
      rfl
  | upFails _ hfails => exact absurd hfails hvalue
  | _ => simp_all

/-- The token goes to the other semaphore, and the process to its next iteration. -/
theorem Rounds.raise {i : ℕ} (h : Rounds N (p, .printed) s) (hpc : s.pc p = .up i)
    (hchild : Loops (s.pc child)) (hmove : Move N p s t)
    (hahead : round N (t.pc child) = round N (t.pc parent) + if other p = child then 0 else 1)
    (hparent : round N (t.pc parent) < N) : Rounds N (other p, .free) t := by
  have hraises := h.raises hchild
  have ht := hmove.raised hpc hraises
  refine ⟨?_, ⟨by simp, by simp⟩, hahead, hparent, fun q hq => ?_, fun _ q => ?_⟩
  · rw [ht]
    refine h.holds.raise (fun q => ?_) (loopHead_ne_print N (i + 1))
      (loopHead_ne_up N (i + 1))
    rw [Machine.wakeup_semArray, Machine.setValue_value, h.holds.raised q]
  · rcases eq_or_other p q with rfl | rfl
    · rw [ht] at hq ⊢
      simp only [State.goto_pc, Function.update_self] at hq ⊢
      rw [loops_loopHead] at hq
      rwa [round_loopHead hq.le]
    · rw [hmove.otherPc (other_ne p)] at hq ⊢
      exact h.range (other p) hq
  · rw [ht]
    simp [Machine.setValue_initValue, h.init hchild q]

theorem Move.pc_up {i : ℕ} (hmove : Move N p s t) (hpc : s.pc p = .up i) :
    t.pc p = loopHead N (i + 1) := by
  cases hmove with
  | up hpc' =>
      rw [hpc] at hpc'
      cases hpc'
      simp
  | upFails hpc' =>
      rw [hpc] at hpc'
      cases hpc'
      simp
  | _ => simp_all

/-- The child ends an iteration. -/
theorem Rounds.childUp {i : ℕ} (h : Rounds N (child, .printed) s) (hpc : s.pc child = .up i)
    (hmove : Move N child s t) : Rounds N (parent, .free) t := by
  have hloops : Loops (s.pc child) := h.owner
  have hparent : t.pc parent = s.pc parent := hmove.otherPc (other_ne child)
  have hahead := h.ahead
  have hin := h.parentIn
  have hi : round N (s.pc child) = i := by rw [hpc]; rfl
  rw [if_pos rfl, hi] at hahead
  refine h.raise hpc hloops hmove ?_ (by rw [hparent]; exact hin)
  rw [hmove.pc_up hpc, hparent, round_loopHead (by omega), if_neg (other_ne child)]
  omega

/-- The parent ends an iteration, or both loops are at their end. -/
theorem Rounds.parentUp {i : ℕ} (h : Rounds N (parent, .printed) s)
    (hpc : s.pc parent = .up i) (hmove : Move N parent s t) :
    Rounds N (child, .free) t ∨ Ended t := by
  have hchild : t.pc child = s.pc child := hmove.otherPc (other_ne parent)
  have hahead := h.ahead
  have hi : round N (s.pc parent) = i := by rw [hpc]; rfl
  rw [if_neg (by decide), hi] at hahead
  by_cases hloops : Loops (s.pc child)
  · have hrange := h.range child hloops
    have hround : round N (t.pc parent) = i + 1 := by
      rw [hmove.pc_up hpc, round_loopHead (by omega)]
    refine Or.inl (h.raise hpc hloops hmove ?_ (by omega))
    rw [hchild, hround, hahead, if_pos (by decide)]
  · refine Or.inr fun q => ?_
    rcases eq_or_other child q with rfl | hq
    · rwa [hchild]
    · have hq' : q = parent := hq
      rw [hq', hmove.pc_up hpc, loops_loopHead]
      rw [round_of_not_loops hloops] at hahead
      omega

theorem Rounds.step {x : Fin 2 × Stage} (h : Rounds N x s) (hmove : Move N p s t)
    (horderly : Orderly s (p, s.pc p)) : (∃ x', Rounds N x' t) ∨ Ended t := by
  by_cases hloops : Loops (s.pc p)
  swap
  · exact Or.inl ⟨x, h.closing hmove hloops horderly⟩
  by_cases hup : ∃ i, s.pc p = .up i
  · obtain ⟨i, hpc⟩ := hup
    have htoken := h.holds.up p i hpc
    cases htoken
    rcases eq_or_other child p with rfl | hp
    · exact Or.inl ⟨_, h.childUp hpc hmove⟩
    · have hp' : p = parent := hp
      subst hp'
      exact (h.parentUp hpc hmove).imp_left fun h => ⟨_, h⟩
  have hup' : ∀ i, s.pc p ≠ .up i := fun i hi => hup ⟨i, hi⟩
  obtain ⟨hround, hloops'⟩ := hmove.sameRound hloops hup'
  have hstays := iff_of_true hloops' hloops
  cases hmove with
  | @take i hpc hvalue =>
      have htoken := h.holds.free_of_pos hvalue
      cases htoken
      have hmove := Move.take (N := N) hpc hvalue
      refine Or.inl ⟨(p, .taken), h.within hmove hround hstays rfl (h.holds.take fun q => ?_)
        ⟨fun _ => ⟨i, by simp⟩, by simp⟩ fun _ q => ?_⟩
      · rw [Machine.setValue_value, h.holds.lowered q]
      · simp [Machine.setValue_initValue]
  | @takeAgain i hpc hstate hvalue =>
      have htoken := h.holds.free_of_pos hvalue
      cases htoken
      have hmove := Move.takeAgain (N := N) hpc hstate hvalue
      refine Or.inl ⟨(p, .taken), h.within hmove hround hstays rfl (h.holds.take fun q => ?_)
        ⟨fun _ => ⟨i, by simp⟩, by simp⟩ fun _ q => ?_⟩
      · rw [Machine.setValue_value, Machine.leaveSleep_semArray, h.holds.lowered q]
      · simp [Machine.setValue_initValue]
  | @sleep i hpc hvalue =>
      have hmove := Move.sleep (N := N) hpc hvalue
      exact Or.inl ⟨x, h.within hmove hround hstays rfl
        (h.holds.keep (fun q => by simp) (by simp) (by simp))
        (h.place.keep hmove (by simp [hpc]) hup') fun _ q => by simp⟩
  | @sleepAgain i hpc hstate hvalue =>
      have hmove := Move.sleepAgain (N := N) hpc hstate hvalue
      exact Or.inl ⟨x, h.within hmove hround hstays rfl
        (h.holds.keep (fun q => by simp) (by simp) (by simp))
        (h.place.keep hmove (by simp [hpc]) hup') fun _ q => by simp⟩
  | @print i hpc =>
      have htoken := h.holds.print p i hpc
      cases htoken
      have hmove := Move.print (N := N) hpc
      exact Or.inl ⟨(p, .printed), h.within hmove hround hstays rfl (h.holds.printed hpc)
        ⟨by simp, fun _ => ⟨i, by simp⟩⟩ fun _ q => by simp⟩
  | upFails hpc => exact absurd hpc (hup' _)
  | up hpc => exact absurd hpc (hup' _)
  | _ => simp_all [Loops]

theorem Ended.step (h : Ended s) (hmove : Move N p s t) : Ended t := by
  intro q
  rcases eq_or_other p q with rfl | rfl
  · exact hmove.closes (h q)
  · rw [hmove.otherPc (other_ne p)]
    exact h (other p)

/-! ## The last step -/

theorem can_step (hpc : ∀ i, s.pc p = .asleep i → (s.machine.procs p).state = .runnable)
    (hdone : s.pc p ≠ .done) : ∃ e t, Step N s e t := by
  have hnext : ∃ t, s.next N false p = some t := by
    unfold State.next
    cases h : s.pc p with
    | asleep i => simp [hpc i h]
    | done => exact absurd h hdone
    | _ => simp
  obtain ⟨t, ht⟩ := hnext
  exact ⟨(p, s.pc p), t, rfl, false, ht⟩

theorem Rounds.can_step {x : Fin 2 × Stage} (h : Rounds N x s) (hs : Sleepers s) :
    ∃ e t, Step N s e t := by
  have howner := h.owner
  refine Pingpong.can_step (p := x.1) (fun i hi => ?_) fun hdone => ?_
  · rcases hs x.1 i hi with hrunnable | ⟨-, -, hvalue⟩
    · exact hrunnable
    · obtain ⟨p, stage⟩ := x
      cases stage with
      | free =>
          rw [h.holds.value p, if_pos rfl] at hvalue
          exact absurd hvalue (by decide)
      | taken =>
          obtain ⟨j, hj⟩ := h.place.taken rfl
          rw [hi] at hj
          simp at hj
      | printed =>
          obtain ⟨j, hj⟩ := h.place.printed rfl
          rw [hi] at hj
          simp at hj
  · simp [hdone, Loops] at howner

theorem Ended.done (h : Ended s) (hend : ∀ e t, ¬ Step N s e t) (p : Fin 2) :
    s.pc p = .done := by
  by_contra hdone
  obtain ⟨e, t, hstep⟩ := can_step (N := N) (fun i hi => by
    have hloops := h p
    simp [hi, Loops] at hloops) hdone
  exact hend e t hstep

/-! ## The token that is lost -/

/-- The parent waits for a token that is lost. -/
structure Lost (s : State) : Prop where
  waits : Waits (s.pc parent)
  value : (s.machine.semArray 1).value ≤ 0
  childEnds : ¬ Loops (s.pc child)

theorem Lost.step (h : Lost s) (hmove : Move N p s t) : Lost t := by
  obtain ⟨hwaits, hvalue, hends⟩ := h
  rcases eq_or_other child p with rfl | hp
  · have hparent : t.pc parent = s.pc parent := hmove.otherPc (other_ne child)
    refine ⟨by rwa [hparent], ?_, hmove.closes hends⟩
    rcases hmove.value_other with hkept | hzero | ⟨i, hup⟩
    · exact le_of_eq_of_le hkept hvalue
    · exact le_of_eq_of_le hzero (Int32.le_refl 0)
    · simp [hup, Loops] at hends
  · have hp' : p = parent := hp
    subst hp'
    have hchild : t.pc child = s.pc child := hmove.otherPc (other_ne parent)
    have hnone : ¬ 0 < (s.machine.semArray (downSem parent)).value := Int32.not_lt.2 hvalue
    refine ⟨?_, ?_, by rwa [hchild]⟩ <;> cases hmove with
    | take _ htoken => exact absurd htoken hnone
    | takeAgain _ _ htoken => exact absurd htoken hnone
    | sleep => simp [Waits, hvalue]
    | sleepAgain => simp [Waits, hvalue]
    | _ => simp_all [Waits]

theorem Move.loses (hmove : Move N child s t) (hpc : s.pc child = .closeValue 1)
    (hwaits : Waits (s.pc parent)) : Lost t := by
  have hparent : t.pc parent = s.pc parent := hmove.otherPc (other_ne child)
  have hends : ¬ Loops (s.pc child) := by simp [hpc, Loops]
  refine ⟨by rwa [hparent], ?_, hmove.closes hends⟩
  cases hmove with
  | closeValue hpc' =>
      rw [hpc] at hpc'
      cases hpc'
      simp
  | _ => simp_all

/-! ## Runs -/

section Runs

variable {m : Machine 2} {l : List ((Fin 2 × Pc) × State)}

theorem Sleepers.run (hrun : Runs (Step N) (start N m) l s) : Sleepers s := by
  induction hrun with
  | nil =>
      intro p i hpc
      simp [start, loopHead] at hpc
      split at hpc <;> simp at hpc
  | snoc _ hstep ih => exact ih.step hstep.move

theorem Rounds.start (hN : 0 < N) (m : Machine 2) :
    Rounds N (child, .free) (Pingpong.start N m) where
  holds := Holds.start N m
  place := ⟨by simp, by simp⟩
  ahead := rfl
  parentIn := by
    simp only [Pingpong.start]
    rwa [round_loopHead (Nat.zero_le N)]
  range p _ := by
    simp only [Pingpong.start]
    rwa [round_loopHead (Nat.zero_le N)]
  init _ p := by
    rw [start_machine]
    rcases eq_or_other child p with rfl | rfl
    · simp [Machine.setValue_initValue, Machine.setInitValue_initValue, downSem]
    · simp [downSem, other, parent, child]

/-- In the steps of a run the child closes semaphore 1 when the parent has the last token; a
step of the child leaves the parent where it is. -/
def OrderlyRun (l : List ((Fin 2 × Pc) × State)) : Prop :=
  ∀ x ∈ l, Orderly x.2 x.1

theorem orderly_of_move (hmove : Move N e.1 s t) (h : Orderly t e) : Orderly s e := by
  intro he
  have hparent : t.pc parent = s.pc parent := by
    rw [he] at hmove
    exact hmove.otherPc (other_ne child)
  rw [← hparent]
  exact h he

theorem Rounds.run (hrun : Runs (Step N) (Pingpong.start N m) l s) (horderly : OrderlyRun l) :
    (∃ x, Rounds N x s) ∨ Ended s := by
  induction hrun with
  | nil =>
      by_cases hN : 0 < N
      · exact Or.inl ⟨_, Rounds.start hN m⟩
      · refine Or.inr fun p => ?_
        simp only [Pingpong.start, loops_loopHead]
        omega
  | @snoc l t u e _ hstep ih =>
      have hmove := hstep.move
      have hlast : Orderly t (e.1, t.pc e.1) := by
        rw [hstep.1]
        exact orderly_of_move hmove (horderly (e, u) (by simp))
      rcases ih fun x hx => horderly x (List.mem_append_left _ hx) with ⟨x, hrounds⟩ | hended
      · exact hrounds.step hmove hlast
      · exact Or.inr (hended.step hmove)

theorem Lost.run (hrun : Runs (Step N) (start N m) l s) (hdisorder : ¬ OrderlyRun l) :
    Lost s := by
  induction hrun with
  | nil => exact absurd (fun x hx => by simp at hx) hdisorder
  | @snoc l t u e _ hstep ih =>
      have hmove := hstep.move
      by_cases hbefore : OrderlyRun l
      · have hlast : ¬ Orderly u e := by
          intro hlast
          refine hdisorder fun x hx => ?_
          rcases List.mem_append.1 hx with hx | hx
          · exact hbefore x hx
          · rw [List.mem_singleton] at hx
            rwa [hx]
        simp only [Orderly, Classical.not_imp, not_not] at hlast
        obtain ⟨rfl, hwaits⟩ := hlast
        have hparent : u.pc parent = t.pc parent := hmove.otherPc (other_ne child)
        exact hmove.loses hstep.1 (by rwa [← hparent])
      · exact (ih hbefore).step hmove

/-- A process has finished, and the other one sleeps in `sem_down`. -/
def Stuck (s : State) : Prop :=
  ∃ p, s.pc p = .done ∧ (∃ i, s.pc (other p) = .asleep i) ∧
    (s.machine.procs (other p)).state = .sleeping

theorem Stuck.final (h : Stuck s) : ∀ e t, ¬ Step N s e t := by
  obtain ⟨p, hdone, ⟨i, hasleep⟩, hsleeping⟩ := h
  rintro e t ⟨-, taken, hnext⟩
  rcases eq_or_other p e.1 with he | he
  · simp [State.next, he, hdone] at hnext
  · simp [State.next, he, hasleep, hsleeping] at hnext

/-- Every run of pingpong is bounded.  Where it cannot go on, both processes have finished
exactly when the child has not closed semaphore 1 too early, and in such runs neither is ever
stuck. -/
theorem completes_iff (hrun : Runs (Step N) (start N m) l s) :
    l.length ≤ 2 * (8 * N + 15) ∧ (OrderlyRun l → ¬ Stuck s) ∧
      ((∀ e t, ¬ Step N s e t) → ((∀ p, s.pc p = .done) ↔ OrderlyRun l)) := by
  have hfinal : OrderlyRun l → (∀ e t, ¬ Step N s e t) → ∀ p, s.pc p = .done := by
    intro horderly hend
    rcases Rounds.run hrun horderly with ⟨x, hrounds⟩ | hended
    · obtain ⟨e, t, hstep⟩ := hrounds.can_step (Sleepers.run hrun)
      exact absurd hstep (hend e t)
    · exact hended.done hend
  refine ⟨?_, fun horderly hstuck => ?_, fun hend => ⟨fun hdone => ?_, fun horderly =>
    hfinal horderly hend⟩⟩
  · have hlength := length_le hrun
    have hparent := start_rank_le N m parent
    have hchild := start_rank_le N m child
    omega
  · have hdone := hfinal horderly hstuck.final
    obtain ⟨p, -, ⟨i, hasleep⟩, -⟩ := hstuck
    rw [hdone (other p)] at hasleep
    simp at hasleep
  · by_contra hdisorder
    have hlost := Lost.run hrun hdisorder
    have hwaits := hlost.waits
    rw [hdone parent] at hwaits
    exact hwaits

theorem completes_once :
    ∃ l s, Runs (Step 1) (start 1 idle) l s ∧ (∀ p, s.pc p = .done) ∧
      ((∀ e t, ¬ Step 1 s e t) → OrderlyRun l) := by
  obtain ⟨l, s, hrun, hs⟩ := exists_runs 1 (start 1 idle) inTurn
    (fun r => decide (∀ p, r.2.pc p = .done)) (by decide)
  simp only [decide_eq_true_eq] at hs
  exact ⟨l, s, hrun, hs, fun hend => ((completes_iff hrun).2.2 hend).1 hs⟩

/-- The child goes through its loop and closes both semaphores before the parent is at its
`sem_down`. -/
def childFirst : List (Fin 2 × Bool) := List.replicate 9 (child, false) ++ [(parent, false)]

theorem completes_childFirst :
    ∃ l s, Runs (Step 1) (start 1 idle) l s ∧ Stuck s := by
  obtain ⟨l, s, hrun, hs⟩ := exists_runs 1 (start 1 idle) childFirst
    (fun r => decide (r.2.pc child = .done ∧ r.2.pc parent = .asleep 0 ∧
      (r.2.machine.procs parent).state = .sleeping)) (by decide)
  simp only [decide_eq_true_eq] at hs
  exact ⟨l, s, hrun, child, hs.1, ⟨0, hs.2.1⟩, hs.2.2⟩

end Runs

end SistOp.Xv6.Pingpong
