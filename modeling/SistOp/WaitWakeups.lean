import SistOp.ProcReaping

/-!
# Asleep in `wait`

Nobody sleeps in `wait` beside a child that has exited, except for `initproc` while an exit that
hands it such a child is about to wake it.
-/

namespace SistOp.Mlfq.Procs

variable {n : ℕ}

/-- None of its children has exited. -/
def NoZombies (k : Procs n) (p : Fin n) : Prop :=
  ∀ q, (k.proc q).parent = some p → (k.proc q).state ≠ .zombie

/-- An exit has yet to come by in its `wakeup(initproc)`. -/
def BeingWoken (k : Procs n) (p : Fin n) : Prop :=
  ∃ r status rest visit, k.waitLock = some r ∧ k.pc r = .exitWakeInit status rest visit ∧ p ∈ visit

def Waits (k : Procs n) : Prop :=
  ∀ p, k.Asleep p → k.NoZombies p ∨ p = k.initproc ∧ k.BeingWoken p

/-- A section that wakes nobody, and leaves nobody asleep beside a new zombie. -/
structure Calm (k k' : Procs n) : Prop where
  asleep : ∀ p, k'.Asleep p → k.Asleep p ∨ k'.NoZombies p
  zombie : ∀ p, k.NoZombies p → k'.NoZombies p
  waking : ∀ p, k.BeingWoken p → k'.BeingWoken p
  initproc : k'.initproc = k.initproc

section Calm

variable {k k' k'' : Procs n} {p q : Fin n} {x : Proc n} {next : LifePc n}

theorem Waits.calm (h : k.Waits) (hcalm : Calm k k') : k'.Waits := by
  intro p hp
  rcases hcalm.asleep p hp with hold | hnone
  · rcases h p hold with hnone | ⟨hinit, hwoken⟩
    · exact .inl (hcalm.zombie p hnone)
    · exact .inr ⟨hinit.trans hcalm.initproc.symm, hcalm.waking p hwoken⟩
  · exact .inl hnone

theorem Waits.withRecords (h : k.Waits) (exited reaped : List (ℕ × ℤ)) (targets : List ℤ)
    (asked : Fin n → ℕ) :
    Waits { k with exited := exited, reaped := reaped, targets := targets, asked := asked } := h

namespace Calm

theorem trans (h : Calm k k') (h' : Calm k' k'') : Calm k k'' where
  asleep p hp := by
    rcases h'.asleep p hp with hp | hnone
    · exact (h.asleep p hp).imp_right (h'.zombie p)
    · exact .inr hnone
  zombie p hp := h'.zombie p (h.zombie p hp)
  waking p hp := h'.waking p (h.waking p hp)
  initproc := h'.initproc.trans h.initproc

/-- A slot changes that neither becomes a zombie nor falls asleep. -/
theorem setProc (hparent : x.parent = (k.proc q).parent ∨ x.state ≠ .zombie)
    (hzombie : x.state = .zombie → (k.proc q).state = .zombie)
    (hasleep : x.state = .sleeping → (k.proc q).state = .sleeping ∨ k.pc q ≠ .waitReacquire) :
    Calm k (k.setProc q x) where
  asleep p hp := by
    by_cases hpq : p = q
    · subst hpq
      simp only [Asleep, setProc_proc, if_true, setProc_pc] at hp ⊢
      grind
    · exact .inl (by simpa [Asleep, setProc_proc, hpq] using hp)
  zombie p hp r := by
    have hr := hp r
    grind
  waking p hp := hp
  initproc := rfl

/-- A process goes on without waking anybody, and does not go to sleep in `wait`. -/
theorem move {holder : Option (Fin n)}
    (hp : ∀ status rest visit, k.pc p ≠ .exitWakeInit status rest visit)
    (hholder : ∀ q ≠ p, k.waitLock = some q → holder = some q)
    (hasleep : next = .waitReacquire → (k.proc p).state ≠ .sleeping) :
    Calm k ((k.setWaitLock holder).goto p next) where
  asleep q hq := by
    simp only [Asleep, goto_pc, goto_proc, setWaitLock_pc, setWaitLock_proc] at hq ⊢
    grind
  zombie q hq := hq
  waking q hq := by
    obtain ⟨r, status, rest, visit, hr, hpc, hmem⟩ := hq
    have hne : r ≠ p := by
      rintro rfl
      exact hp _ _ _ hpc
    exact ⟨r, status, rest, visit, hholder r hne hr, by simpa [goto_pc, hne] using hpc, hmem⟩
  initproc := rfl

theorem goto (hp : ∀ status rest visit, k.pc p ≠ .exitWakeInit status rest visit)
    (hnext : next ≠ .waitReacquire) : Calm k (k.goto p next) :=
  move hp (fun _ _ hq => hq) fun heq => absurd heq hnext

theorem allocpid : Calm k k.allocpid :=
  ⟨fun _ => .inl, fun _ => id, fun _ => id, rfl⟩

theorem wakeSlot {chan : ℕ} : Calm k (k.wakeSlot p q chan) := by
  unfold Procs.wakeSlot
  split_ifs
  · exact setProc (.inl rfl) (by simp [Proc.woken]) (by simp [Proc.woken])
  · exact ⟨fun _ => .inl, fun _ => id, fun _ => id, rfl⟩

theorem kill : Calm k (k.setProc q (k.proc q).kill) := by
  by_cases hsleeping : (k.proc q).state = .sleeping
  · exact setProc (.inl (by simp [Proc.kill, hsleeping])) (by simp [Proc.kill, hsleeping])
      (by simp [Proc.kill, hsleeping])
  · exact setProc (.inl (by simp [Proc.kill, hsleeping])) (by simp [Proc.kill, hsleeping])
      (by simp [Proc.kill, hsleeping])

end Calm

/-- Whoever holds `wait_lock` and is not in `wakeup(initproc)` leaves nobody asleep beside a
zombie. -/
theorem Waits.noZombies (h : k.Waits) (hheld : k.waitLock = some p)
    (hp : ∀ status rest visit, k.pc p = .exitWakeInit status rest visit → visit = [])
    (hq : k.Asleep q) : k.NoZombies q := by
  rcases h q hq with hnone | ⟨-, r, status, rest, visit, hr, hpc, hmem⟩
  · exact hnone
  · obtain rfl : r = p := Option.some.inj (hr.symm.trans hheld)
    simp [hp _ _ _ hpc] at hmem

/-- Who takes `wait_lock` finds nobody asleep beside a zombie. -/
theorem Waits.noZombies_of_free (h : k.Waits) (hfree : k.waitLock = none) (hq : k.Asleep q) :
    k.NoZombies q := by
  rcases h q hq with hnone | ⟨-, r, status, rest, visit, hr, -⟩
  · exact hnone
  · simp [hfree] at hr

/-- A turn of `wakeup(initproc)`. -/
theorem Waits.wakeInit {status : ℤ} {rest visit : List (Fin n)} (h : k.Waits) (hinv : k.Inv)
    (hp : k.pc p = .exitWakeInit status rest (q :: visit)) :
    ((k.wakeSlot p q (chanOf k.initproc)).goto p (.exitWakeInit status rest visit)).Waits := by
  have hheld : k.waitLock = some p := by
    have hstands := hinv.stands p
    simp only [Stands, hp] at hstands
    exact hstands.1
  intro r hr
  have hwoken := asleep_of_goto (by simp) hr
  have hslept := asleep_of_wakeSlot hwoken
  rcases h r hslept with hnone | ⟨rfl, s, status', rest', visit', hs, hpc, hmem⟩
  · refine .inl fun c hc => ?_
    simp only [goto_proc, wakeSlot_parent] at hc ⊢
    have hstate := wakeSlot_state (k := k) (p := p) (q := q) (r := c) (chanOf k.initproc)
    grind [NoZombies]
  · obtain rfl : s = p := Option.some.inj (hs.symm.trans hheld)
    rw [hp] at hpc
    cases hpc
    have hself : k.initproc ≠ s := by
      intro heq
      simp [Asleep, heq, hp] at hslept
    have hne := ne_of_asleep_wakeSlot hwoken hself ((hinv.stands _).chan_of_asleep hslept)
    refine .inr ⟨by simp, s, status, rest, visit, by simp [hheld], by simp [goto_pc], ?_⟩
    simpa [hne] using hmem

/-- A child goes to `initproc`, who is woken next. -/
theorem Waits.reparent {status : ℤ} {pp : Fin n} {rest : List (Fin n)} (h : k.Waits)
    (hheld : k.waitLock = some p) (hp : k.pc p = .exitReparent status (pp :: rest)) :
    ((k.setProc pp { k.proc pp with parent := some k.initproc }).goto p
      (.exitWakeInit status rest (List.finRange n))).Waits := by
  intro r hr
  have hslept : k.Asleep r := by
    have hr' := asleep_of_goto (by simp) hr
    by_cases hrpp : r = pp
    · simpa [Asleep, setProc_proc, hrpp] using hr'
    · simpa [Asleep, setProc_proc, hrpp] using hr'
  by_cases hinit : r = k.initproc
  · exact .inr ⟨hinit, p, status, rest, List.finRange n, hheld, by simp [goto_pc],
      List.mem_finRange r⟩
  · refine .inl fun c hc => ?_
    have hnone := h.noZombies hheld (by simp [hp]) hslept c
    simp only [goto_proc, setProc_proc] at hc ⊢
    grind

/-- The parent of the new zombie is awake. -/
theorem Waits.exitZombie {status : ℤ} (h : k.Waits) (hinv : k.Inv)
    (hp : k.pc p = .exitZombie status) : (k.zombie p status).Waits := by
  have hstands := hinv.stands p
  simp only [Stands, hp] at hstands
  obtain ⟨hheld, -, -, -, hawake⟩ := hstands
  intro r hr
  have hslot : (k.zombie p status).proc = (k.setProc p ((k.proc p).leave (.exit status))).proc :=
    rfl
  have hslept : k.Asleep r := by
    by_cases hrp : r = p
    · simp [Asleep, hrp, zombie_pc] at hr
    · simpa [Asleep, zombie_pc, hslot, setProc_proc, hrp] using hr
  have hnone := h.noZombies hheld (by simp [hp]) hslept
  refine .inl fun c hc => ?_
  rw [hslot, setProc_proc] at hc ⊢
  by_cases hcp : c = p
  · rw [if_pos hcp] at hc
    exact absurd hslept (hawake r hc)
  · rw [if_neg hcp] at hc ⊢
    exact hnone c hc

theorem Waits.advance {ok : Bool} (h : k.Waits) (hinv : k.Inv)
    (hrunning : (k.proc p).state = .running) (hstep : k.advance p ok = some k') : k'.Waits := by
  have hstands := hinv.stands p
  cases hp : k.pc p with
  | user ret | gone => simp [Procs.advance, hp] at hstep
  | forkScan rest =>
      cases rest with
      | nil =>
          simp only [Procs.advance, hp, Option.some.injEq] at hstep
          exact hstep ▸ h.calm (.goto (by simp [hp]) (by simp))
      | cons np rest =>
          simp only [Procs.advance, hp] at hstep
          split_ifs at hstep with hunused hoverflow hok
          · have hslot : Calm k.allocpid (k.allocpid.setProc np ((k.proc np).found k.nextpid)) :=
              .setProc (.inl rfl) (by simp [Proc.found]) (by simp [Proc.found])
            exact Option.some.inj hstep ▸ h.calm ((Calm.allocpid.trans hslot).trans
              (.goto (by simp [hp]) (by simp)))
          · have hslot : Calm k.allocpid
                (k.allocpid.setProc np ((k.proc np).found k.nextpid).freeproc) :=
              .setProc (.inr (by simp [Proc.freeproc])) (by simp [Proc.freeproc])
                (by simp [Proc.freeproc])
            exact Option.some.inj hstep ▸ h.calm ((Calm.allocpid.trans hslot).trans
              (.goto (by simp [hp]) (by simp)))
          · exact Option.some.inj hstep ▸ h.calm (.goto (by simp [hp]) (by simp))
  | forkParent np pid =>
      simp only [Stands, hp] at hstands
      simp only [Procs.advance, hp, Option.ite_none_right_eq_some, Option.some.injEq] at hstep
      have hslot : Calm k (k.setProc np { k.proc np with parent := some p }) :=
        .setProc (.inr (by simp [hstands])) id (by simp [hstands])
      exact hstep.2 ▸ h.calm (hslot.trans (.goto (by simp [hp]) (by simp)))
  | forkState np pid =>
      simp only [Procs.advance, hp, Option.some.injEq] at hstep
      have hslot : Calm k (k.setProc np { k.proc np with state := .runnable }) :=
        .setProc (.inl rfl) (by simp) (by simp)
      exact hstep ▸ h.calm (hslot.trans (.goto (by simp [hp]) (by simp)))
  | exitAcquire status | waitAcquire | waitReacquire =>
      simp only [Procs.advance, hp, waitLoop, Option.ite_none_right_eq_some,
        Option.some.injEq] at hstep
      obtain ⟨hfree, rfl⟩ := hstep
      exact h.calm (.move (by simp [hp]) (by simp [hfree]) (by simp))
  | exitReparent status rest =>
      simp only [Stands, hp] at hstands
      cases rest with
      | nil =>
          simp only [Procs.advance, hp, Option.some.injEq] at hstep
          exact hstep ▸ h.calm (.goto (by simp [hp]) (by simp))
      | cons pp rest =>
          simp only [Procs.advance, hp] at hstep
          split_ifs at hstep
          · exact Option.some.inj hstep ▸ h.reparent hstands.1 hp
          · exact Option.some.inj hstep ▸ h.calm (.goto (by simp [hp]) (by simp))
  | exitWakeInit status rest visit =>
      simp only [Stands, hp] at hstands
      cases visit with
      | nil =>
          simp only [Procs.advance, hp, Option.some.injEq] at hstep
          exact hstep ▸ fun q hq => .inl (h.noZombies hstands.1 (by simp [hp])
            (asleep_of_goto (by simp) hq))
      | cons q visit =>
          simp only [Procs.advance, hp, Option.some.injEq] at hstep
          exact hstep ▸ h.wakeInit hinv hp
  | exitWakeParent status chan visit =>
      cases visit <;> simp only [Procs.advance, hp, Option.some.injEq] at hstep
      · exact hstep ▸ h.calm (.goto (by simp [hp]) (by simp))
      · exact hstep ▸ h.calm (Calm.wakeSlot.trans (.goto (by simp [hp]) (by simp)))
  | exitZombie status =>
      simp only [Procs.advance, hp, Option.some.injEq] at hstep
      exact hstep ▸ h.exitZombie hinv hp
  | waitScan rest havekids =>
      simp only [Stands, hp] at hstands
      cases rest with
      | nil =>
          simp only [Procs.advance, hp, Option.some.injEq] at hstep
          exact hstep ▸ h.calm (.goto (by simp [hp]) (by simp))
      | cons pp rest =>
          simp only [Procs.advance, hp] at hstep
          split_ifs at hstep with hchild hzombie hok
          · have hgone : ∀ status rest visit, k.pc pp ≠ .exitWakeInit status rest visit := by
              intro status rest visit hpp
              have hother := hinv.stands pp
              simp [Stands, hpp, hzombie] at hother
            have hslot : Calm k (k.setProc pp (k.proc pp).freeproc) :=
              .setProc (.inr (by simp [Proc.freeproc])) (by simp [Proc.freeproc])
                (by simp [Proc.freeproc])
            have hne : p ≠ pp := by
              rintro rfl
              simp [hrunning] at hzombie
            have hfreed : Calm k ((k.setProc pp (k.proc pp).freeproc).goto pp (.user none)) :=
              hslot.trans (.goto hgone (by simp))
            have hreap : Calm ((k.setProc pp (k.proc pp).freeproc).goto pp (.user none))
                ((((k.setProc pp (k.proc pp).freeproc).goto pp (.user none)).setWaitLock
                  none).goto p (.user (some (k.proc pp).pid))) :=
              .move (by simp [goto_pc, hne, hp]) (by simp [hstands.1, eq_comm]) (by simp)
            exact Option.some.inj hstep ▸ (h.calm (hfreed.trans hreap)).withRecords _ _ _ _
          · exact Option.some.inj hstep ▸ h.calm (.move (by simp [hp])
              (by simp [hstands.1, eq_comm]) (by simp))
          · exact Option.some.inj hstep ▸ h.calm (.goto (by simp [hp]) (by simp))
          · exact Option.some.inj hstep ▸ h.calm (.goto (by simp [hp]) (by simp))
  | waitTest havekids =>
      simp only [Stands, hp] at hstands
      simp only [Procs.advance, hp] at hstep
      split_ifs at hstep
      · exact Option.some.inj hstep ▸ h.calm (.move (by simp [hp])
          (by simp [hstands.1, eq_comm]) (by simp))
      · exact Option.some.inj hstep ▸ h.calm (.goto (by simp [hp]) (by simp))
  | waitSleep =>
      simp only [Stands, hp] at hstands
      simp only [Procs.advance, hp, Option.some.injEq] at hstep
      subst hstep
      obtain ⟨hheld, -, hnone, -⟩ := hstands
      refine fun r hr => .inl ?_
      have hold : k.NoZombies r := by
        by_cases hrp : r = p
        · exact hrp ▸ hnone
        · exact h.noZombies hheld (by simp [hp]) (by simpa [Asleep, goto_pc, setProc_proc, hrp]
            using hr)
      intro c hc
      have hchild := hold c
      simp only [goto_proc, setWaitLock_proc, setProc_proc] at hc ⊢
      by_cases hcp : c = p
      · simp [hcp, Proc.leave]
      · rw [if_neg hcp] at hc ⊢
        exact hchild hc
  | killScan pid rest =>
      cases rest with
      | nil =>
          simp only [Procs.advance, hp, Option.some.injEq] at hstep
          exact hstep ▸ h.calm (.goto (by simp [hp]) (by simp))
      | cons q rest =>
          simp only [Procs.advance, hp] at hstep
          split_ifs at hstep
          · have hhit : Calm k ((k.setProc q (k.proc q).kill).goto p (.user (some 0))) :=
              Calm.kill.trans (.goto (by simp [hp]) (by simp))
            exact Option.some.inj hstep ▸ (h.calm hhit).withRecords _ _ _ _
          · exact Option.some.inj hstep ▸ h.calm (.goto (by simp [hp]) (by simp))

theorem Waits.call {entry : LifePc n} (h : k.Waits) (hstep : k.call p entry = some k')
    (hentry : entry ≠ .waitReacquire) : k'.Waits := by
  unfold Procs.call at hstep
  cases hp : k.pc p with
  | user ret =>
      simp only [hp, Option.ite_none_right_eq_some, Option.some.injEq] at hstep
      have hentered : Calm k (k.goto p entry) := .goto (by simp [hp]) hentry
      exact hstep.2 ▸ (h.calm hentered).withRecords _ _ _ _
  | _ => simp [hp] at hstep

theorem Waits.step {e : LifeEvent n} (h : k.Waits) (hinv : k.Inv) (hstep : k.Step e k') :
    k'.Waits := by
  cases e with
  | fork p | wait p | kill p pid => exact h.call hstep (by simp)
  | exit p status =>
      simp only [Step, Procs.step, Option.ite_none_left_eq_some] at hstep
      exact h.call hstep.2 (by simp)
  | setkilled p =>
      cases hp : k.pc p with
      | user ret =>
          simp only [Step, Procs.step, hp, Option.ite_none_right_eq_some,
            Option.some.injEq] at hstep
          have hslot : Calm k (k.setProc p { k.proc p with killed := true }) :=
            .setProc (.inl rfl) id .inl
          exact hstep.2 ▸ (h.calm hslot).withRecords _ _ _ _
      | _ => simp [Step, Procs.step, hp] at hstep
  | advance p ok =>
      simp only [Step, Procs.step, Option.ite_none_right_eq_some] at hstep
      exact h.advance hinv hstep.1 hstep.2
  | schedule p =>
      simp only [Step, Procs.step, Option.ite_none_right_eq_some, Option.some.injEq] at hstep
      exact hstep.2 ▸ h.calm (.setProc (.inl rfl) (by simp [Proc.dispatched])
        (by simp [Proc.dispatched]))
  | yield p =>
      simp only [Step, Procs.step, Option.ite_none_right_eq_some, Option.some.injEq] at hstep
      exact hstep.2 ▸ h.calm (.setProc (.inl rfl) (by simp [Proc.leave]) (by simp [Proc.leave]))
  | sleep p chan =>
      cases hp : k.pc p with
      | user ret =>
          simp only [Step, Procs.step, hp, Option.ite_none_right_eq_some,
            Option.some.injEq] at hstep
          exact hstep.2 ▸ h.calm (.setProc (.inl rfl) (by simp [Proc.leave]) fun _ =>
            .inr (by simp [hp]))
      | _ => simp [Step, Procs.step, hp] at hstep
  | wakeup p chan =>
      simp only [Step, Procs.step, Option.ite_none_right_eq_some, Option.some.injEq] at hstep
      exact hstep.2 ▸ h.calm (.setProc (.inl rfl) (by simp [Proc.woken]) (by simp [Proc.woken]))

end Calm

/-! ## Runs -/

/-- What `wait` returns, and what it does to the table at its last step. -/
inductive WaitReturns (k k' : Procs n) (p : Fin n) (ok : Bool) : ℤ → Prop where
  | collected (q : Fin n) (hchild : (k.proc q).parent = some p)
      (hzombie : (k.proc q).state = .zombie) (hfreed : (k'.proc q).state = .unused)
      (hreaped : k'.reaped = k.reaped ++ [((k.proc q).pid, (k.proc q).xstate)]) :
      WaitReturns k k' p ok (k.proc q).pid
  | copyout (q : Fin n) (hchild : (k.proc q).parent = some p)
      (hzombie : (k.proc q).state = .zombie) (hok : ok = false) (hkept : k'.proc = k.proc) :
      WaitReturns k k' p ok (-1)
  | childless (hnone : ∀ q, (k.proc q).parent ≠ some p) (hkept : k'.proc = k.proc) :
      WaitReturns k k' p ok (-1)
  | killed (hkilled : (k.proc p).killed = true) (hchild : ∃ q, (k.proc q).parent = some p)
      (hnone : k.NoZombies p) (hkept : k'.proc = k.proc) : WaitReturns k k' p ok (-1)

/-- What `kill` returns, and what it does to the table at its last step. -/
inductive KillReturns (k k' : Procs n) (p : Fin n) (pid : ℤ) : ℤ → Prop where
  | missed (hnone : ∀ q, ((k.proc q).pid : ℤ) = pid → (k.proc q).state ≠ .unused →
      k.asked p ≤ (k.proc q).pid) (hkept : k'.proc = k.proc) : KillReturns k k' p pid (-1)
  | found (q : Fin n) (hpid : ((k.proc q).pid : ℤ) = pid)
      (hkilled : k'.proc q = (k.proc q).kill) (hothers : ∀ r ≠ q, k'.proc r = k.proc r) :
      KillReturns k k' p pid 0

/-- A parent that may still call `wait`. -/
def HasParent (k : Procs n) (q p : Fin n) : Prop :=
  (k.proc q).parent = some p ∧ (k.proc p).Live

section Runs

variable {k k' : Procs n} {init p q : Fin n} {ok : Bool} {l : List (LifeEvent n × Procs n)}

theorem inv_of_runs (h : Runs Step (userinit init) l k) : k.Inv :=
  h.invariant (inv_userinit init) fun _ _ _ hinv hstep => hinv.step hstep

theorem books_userinit : (userinit init).Books where
  once := List.nodup_nil
  lt := by simp [userinit]
  running := by simp [userinit]
  balance := by
    have hnone : ∀ q, ((userinit init).proc q).remains = 0 := by
      intro q
      refine if_neg ?_
      by_cases hq : q = init <;> simp [userinit, hq, freeSlot]
    simp only [zombies, hnone, Finset.sum_const_zero]
    rfl

/-- No process is counted twice, and whatever was left at an exit has been collected once or waits
in a zombie. -/
theorem exited_of_runs (h : Runs Step (userinit init) l k) : (k.exited.map Prod.fst).Nodup ∧
    (k.exited : Multiset (ℕ × ℤ)) = k.reaped + k.zombies := by
  have hbooks : k.Books := by
    induction h with
    | nil => exact books_userinit
    | snoc h hstep ih => exact ih.step (inv_of_runs h) hstep
  exact ⟨hbooks.once, hbooks.balance⟩

/-- Sections in which nothing fails. -/
def sections (p : Fin n) (m : ℕ) : List (LifeEvent n) := List.replicate m (.advance p true)

/-- `initproc` sleeps in `wait` on a process that has a child of its own. -/
def waiting (init child : Fin n) : List (LifeEvent n) :=
  List.flatten [[.schedule init, .fork init], sections init 4,
    [.schedule child, .fork child], sections child 5, [.wait init], sections init 7]

/-- The process exits with status 7, and `initproc` comes by its slot in `wait`. -/
def orphaned (init child : Fin n) : List (LifeEvent n) :=
  List.flatten [waiting init child, [.exit child 7], sections child 14, [.schedule init],
    sections init 2]

theorem exited_of_runs_orphaned : ∃ k : Procs 3, k.exited = [(2, 7)] ∧
    (k.exited.map Prod.fst).Nodup ∧ (k.exited : Multiset (ℕ × ℤ)) = k.reaped + k.zombies := by
  obtain ⟨l, k, hrun, hend⟩ := Runs.exists_of_events step (userinit 0) (orphaned (0 : Fin 3) 1)
    (fun k => decide (k.exited = [(2, 7)])) (by decide +kernel)
  exact ⟨k, of_decide_eq_true hend, exited_of_runs hrun⟩

/-- Everybody whose `fork` is over descends from `initproc`, through processes that may still
call `wait`. -/
theorem descends_of_runs (h : Runs Step (userinit init) l k)
    (hq : (k.proc q).state ≠ .unused) (hforked : ∀ p, (k.pc p).forked ≠ some q) :
    Relation.ReflTransGen k.HasParent q k.initproc := by
  have hinv := inv_of_runs h
  induction hpid : (k.proc q).pid using Nat.strong_induction_on generalizing q with
  | _ pid ih =>
      cases hparent : (k.proc q).parent with
      | none =>
          rcases hinv.orphan q hparent with hunused | rfl | ⟨p, hp⟩
          · exact absurd hunused hq
          · exact .refl
          · exact absurd hp (hforked p)
      | some b =>
          obtain ⟨hlive, hlt, -, -⟩ := hinv.parent q b hparent
          refine .head ⟨hparent, hlive⟩ (ih _ (hpid ▸ hlt) ?_ (fun p hp => ?_) rfl)
          · rcases hlive with hb | hb | hb <;> simp [hb]
          · have hused := hinv.state_of_forked hp
            rcases hlive with hb | hb | hb <;> simp [hused] at hb

theorem descends_of_runs_orphaned : ∃ k : Procs 3, (k.proc 1).state = .zombie ∧
    Relation.ReflTransGen k.HasParent 2 k.initproc := by
  obtain ⟨l, k, hrun, hend⟩ := Runs.exists_of_events step (userinit 0) (orphaned (0 : Fin 3) 1)
    (fun k => decide ((k.proc 1).state = .zombie ∧ (k.proc 2).state ≠ .unused ∧
      ∀ p, (k.pc p).forked ≠ some 2)) (by decide +kernel)
  obtain ⟨hzombie, hused, hforked⟩ := of_decide_eq_true hend
  exact ⟨k, hzombie, descends_of_runs hrun hused hforked⟩

/-- `wait` returns a child that has exited, or finds that there is none to wait for. -/
theorem wait_returns {r : ℤ} (h : Runs Step (userinit init) l k)
    (hstep : k.Step (.advance p ok) k') (hp : k.pc p = .waitSleep ∨ k.pc p = .waitAcquire ∨
      k.pc p = .waitReacquire ∨ ∃ rest havekids, k.pc p = .waitScan rest havekids ∨
        k.pc p = .waitTest havekids) (hret : k'.pc p = .user (some r)) :
    WaitReturns k k' p ok r := by
  have hstands := (inv_of_runs h).stands p
  simp only [Step, step, Option.ite_none_right_eq_some] at hstep
  obtain ⟨hrunning, hstep⟩ := hstep
  rcases hp with hp | hp | hp | ⟨rest, havekids, hp | hp⟩
  · simp only [Procs.advance, hp, Option.some.injEq] at hstep
    simp [← hstep, goto_pc] at hret
  · simp only [Procs.advance, hp, waitLoop, Option.ite_none_right_eq_some,
      Option.some.injEq] at hstep
    simp [← hstep.2, goto_pc] at hret
  · simp only [Procs.advance, hp, waitLoop, Option.ite_none_right_eq_some,
      Option.some.injEq] at hstep
    simp [← hstep.2, goto_pc] at hret
  · cases rest with
    | nil =>
        simp only [Procs.advance, hp, Option.some.injEq] at hstep
        simp [← hstep, goto_pc] at hret
    | cons pp rest =>
        simp only [Procs.advance, hp] at hstep
        split_ifs at hstep with hchild hzombie hok
        · obtain rfl := Option.some.inj hstep
          simp only [reap_pc, if_true, LifePc.user.injEq, Option.some.injEq] at hret
          subst hret
          exact .collected pp hchild hzombie (by simp [reap, setProc_proc, Proc.freeproc]) rfl
        · obtain rfl := Option.some.inj hstep
          simp only [goto_pc, if_true, LifePc.user.injEq, Option.some.injEq] at hret
          subst hret
          exact .copyout pp hchild hzombie (by simpa using hok) rfl
        · simp [← Option.some.inj hstep, goto_pc] at hret
        · simp [← Option.some.inj hstep, goto_pc] at hret
  · simp only [Stands, hp] at hstands
    obtain ⟨-, -, hscanned, hchild⟩ := hstands
    simp only [Procs.advance, hp] at hstep
    split_ifs at hstep with hreturns
    · obtain rfl := Option.some.inj hstep
      simp only [goto_pc, if_true, LifePc.user.injEq, Option.some.injEq] at hret
      subst hret
      cases hkids : havekids with
      | false => exact .childless (fun q hq => by simpa [hkids] using (hscanned q hq).1) rfl
      | true =>
          exact .killed (by simpa [hkids] using hreturns) (hchild hkids)
            (fun q hq => (hscanned q hq).2) rfl
    · simp [← Option.some.inj hstep, goto_pc] at hret

theorem wait_returns_orphaned : ∃ k k' : Procs 3, WaitReturns k k' 0 true 2 := by
  obtain ⟨l, k, hrun, hend⟩ := Runs.exists_of_events step (userinit 0) (orphaned (0 : Fin 3) 1)
    (fun k : Procs 3 => decide (k.pc 0 = .waitScan [1, 2] false) &&
      (k.step (.advance 0 true)).any fun k' : Procs 3 => decide (k'.pc 0 = .user (some 2)))
    (by decide +kernel)
  rw [Bool.and_eq_true, Option.any_eq_true] at hend
  obtain ⟨hp, k', hstep, hret⟩ := hend
  exact ⟨k, k', wait_returns hrun hstep
    (.inr (.inr (.inr ⟨[1, 2], false, .inl (of_decide_eq_true hp)⟩))) (of_decide_eq_true hret)⟩

theorem waits_of_runs (h : Runs Step (userinit init) l k) : k.Waits := by
  induction h with
  | nil => exact fun p hp => absurd hp.2 (by simp [userinit])
  | snoc h hstep ih => exact ih.step (inv_of_runs h) hstep

/-- Between the sections under `wait_lock`, who sleeps in `wait` has children, none of which has
exited. -/
theorem noZombies_of_asleep (h : Runs Step (userinit init) l k) (hfree : k.waitLock = none)
    (hasleep : k.Asleep p) : (∃ q, (k.proc q).parent = some p) ∧ k.NoZombies p := by
  refine ⟨?_, (waits_of_runs h).noZombies_of_free hfree hasleep⟩
  have hstands := (inv_of_runs h).stands p
  rw [Stands, hasleep.2] at hstands
  exact (hstands.2.2 hasleep.1).2

theorem noZombies_of_asleep_waiting : ∃ k : Procs 3, k.Asleep 0 ∧
    (∃ q, (k.proc q).parent = some 0) ∧ k.NoZombies 0 := by
  obtain ⟨l, k, hrun, hend⟩ := Runs.exists_of_events step (userinit 0) (waiting (0 : Fin 3) 1)
    (fun k => decide (k.waitLock = none ∧ (k.proc 0).state = .sleeping ∧
      k.pc 0 = .waitReacquire)) (by decide +kernel)
  obtain ⟨hfree, hasleep⟩ := of_decide_eq_true hend
  exact ⟨k, hasleep, noZombies_of_asleep hrun hfree hasleep⟩

theorem scans_of_runs (h : Runs Step (userinit init) l k) : k.Scans := by
  induction h with
  | nil => exact ⟨fun _ => Nat.zero_le _, by simp [userinit]⟩
  | snoc h hstep ih => exact ih.step (inv_of_runs h) hstep

/-- `kill` misses nobody who was there when it was called, and strikes one process at most. -/
theorem kill_returns {pid r : ℤ} {rest : List (Fin n)} (h : Runs Step (userinit init) l k)
    (hstep : k.Step (.advance p ok) k') (hp : k.pc p = .killScan pid rest)
    (hret : k'.pc p = .user (some r)) : KillReturns k k' p pid r := by
  simp only [Step, step, Option.ite_none_right_eq_some] at hstep
  obtain ⟨-, hstep⟩ := hstep
  cases rest with
  | nil =>
      simp only [Procs.advance, hp, Option.some.injEq] at hstep
      subst hstep
      simp only [goto_pc, if_true, LifePc.user.injEq, Option.some.injEq] at hret
      subst hret
      refine .missed (fun q hpid hq => ?_) rfl
      exact ((scans_of_runs h).rest p pid [] hp q hpid hq).resolve_left List.not_mem_nil
  | cons q rest =>
      simp only [Procs.advance, hp] at hstep
      split_ifs at hstep with hpid
      · obtain rfl := Option.some.inj hstep
        simp only [hit_pc, if_true, LifePc.user.injEq, Option.some.injEq] at hret
        subst hret
        have hslot : (k.hit p q).proc = (k.setProc q (k.proc q).kill).proc := rfl
        apply KillReturns.found q hpid
        · rw [hslot, setProc_proc, if_pos rfl]
        · intro r hr
          rw [hslot, setProc_proc, if_neg hr]
      · simp [← Option.some.inj hstep, goto_pc] at hret

/-- `initproc` looks for its child, whose slot is next. -/
def killing (init : Fin n) : List (LifeEvent n) :=
  List.flatten [[.schedule init, .fork init], sections init 4, [.kill init 2], sections init 1]

theorem kill_returns_killing : ∃ k k' : Procs 3, KillReturns k k' 0 2 0 := by
  obtain ⟨l, k, hrun, hend⟩ := Runs.exists_of_events step (userinit 0) (killing (0 : Fin 3))
    (fun k : Procs 3 => decide (k.pc 0 = .killScan 2 [1, 2]) &&
      (k.step (.advance 0 true)).any fun k' : Procs 3 => decide (k'.pc 0 = .user (some 0)))
    (by decide +kernel)
  rw [Bool.and_eq_true, Option.any_eq_true] at hend
  obtain ⟨hp, k', hstep, hret⟩ := hend
  exact ⟨k, k', kill_returns hrun hstep (of_decide_eq_true hp) (of_decide_eq_true hret)⟩

/-- Unless `kill(0)` is called, a process is killed only if its own identifier was asked for, or
by itself. -/
theorem killed_of_runs
    (h : Runs (fun k e k' => Step k e k' ∧ ∀ p, e ≠ .kill p 0) (userinit init) l k)
    (hq : (k.proc q).killed = true) : ((k.proc q).pid : ℤ) ∈ k.targets := by
  have haimed : k.Aimed := by
    clear hq
    induction h with
    | nil =>
        refine ⟨fun q hq => ?_, by simp [userinit], by simp [userinit]⟩
        by_cases hinit : q = init <;> simp [userinit, hinit, freeSlot] at hq
    | snoc h hstep ih => exact ih.step (inv_of_runs (h.mono fun _ _ _ h => h.1)) hstep.2 hstep.1
  exact haimed.killed q hq

theorem killed_of_runs_killing : ∃ k : Procs 3, (k.proc 1).killed = true ∧
    ((k.proc 1).pid : ℤ) ∈ k.targets := by
  obtain ⟨l, k, hrun, hkilled⟩ := Runs.exists_of_events_if step
    (fun _ e => decide (∀ p, e ≠ .kill p 0)) (userinit 0) (killing (0 : Fin 3) ++ sections 0 1)
    (fun k => (k.proc 1).killed) (by decide +kernel)
  exact ⟨k, hkilled, killed_of_runs (hrun.mono fun _ _ _ h => ⟨h.1, of_decide_eq_true h.2⟩) hkilled⟩

/-- `kill(0)` finds a free slot, whose next process begins its life killed. -/
theorem exists_born_killed : ∃ l, ∃ k : Procs 3, Runs Step (userinit 0) l k ∧
    (k.proc 1).state = .runnable ∧ (k.proc 1).killed = true ∧
    ((k.proc 1).pid : ℤ) ∉ k.targets := by
  obtain ⟨l, k, hrun, hend⟩ := Runs.exists_of_events step (userinit 0)
    (List.flatten [[.schedule 0, .kill 0 0], sections 0 2, [.fork 0], sections 0 4])
    (fun k : Procs 3 => decide ((k.proc 1).state = .runnable ∧ (k.proc 1).killed = true ∧
      ((k.proc 1).pid : ℤ) ∉ k.targets)) (by decide +kernel)
  exact ⟨l, k, hrun, of_decide_eq_true hend⟩

end Runs

end SistOp.Mlfq.Procs
