import SistOp.SemaphoreSteps

/-!
# The handles of the semaphore calls

One call of a process, from its start to its return, among any steps of the others: which
elements of `sem_array` it touches and which locks it has when it returns.
-/

namespace SistOp.Xv6

namespace Pc

variable {n : ℕ}

/-- The handle of the call. -/
def handle : Pc n → Option Int32
  | .user _ => none
  | .openAcquire sem _ | .openTest sem _ | .openValue sem _ | .openInit sem _ | .openRelease sem
  | .downAcquire sem | .downTest sem | .downLoop sem | .downTake sem | .downRelease sem
  | .sleepAcquire sem | .sleepRelease sem | .sleepChan sem | .sleepState sem | .sleepSched sem
  | .suspended sem | .sleepTidy sem | .sleepUnlock sem | .sleepReacquire sem
  | .upAcquire sem | .upTest sem | .upFail sem | .upStore sem | .upRelease sem
  | .wakeupNext sem _ | .wakeupTest sem _ _ | .wakeupStore sem _ _ | .wakeupRelease sem _ _
  | .closeTest sem | .closeValue sem | .closeInit sem => some sem

/-- The element of `sem_array` that the instruction reads or writes. -/
def element : Pc n → Option Int32
  | .openAcquire sem _ | .openValue sem _ | .openInit sem _ | .openRelease sem
  | .downAcquire sem | .downTest sem | .downLoop sem | .downTake sem | .downRelease sem
  | .sleepRelease sem | .sleepReacquire sem
  | .upAcquire sem | .upTest sem | .upFail sem | .upStore sem | .upRelease sem
  | .closeTest sem | .closeValue sem | .closeInit sem => some sem
  | _ => none

/-- Between the `acquire` and the `release` of the semaphore's lock. -/
def HoldsLk : Pc n → Prop
  | .openTest _ _ | .openValue _ _ | .openInit _ _ | .openRelease _
  | .downTest _ | .downLoop _ | .downTake _ | .downRelease _ | .sleepAcquire _ | .sleepRelease _
  | .upTest _ | .upFail _ | .upStore _ | .upRelease _
  | .wakeupNext _ _ | .wakeupTest _ _ _ | .wakeupStore _ _ _ | .wakeupRelease _ _ _ => True
  | _ => False

/-- The process whose lock is held on the way. -/
def holdsProc (p : Fin n) : Pc n → Option (Fin n)
  | .sleepRelease _ | .sleepChan _ | .sleepState _ | .sleepSched _ | .sleepTidy _
  | .sleepUnlock _ => some p
  | .wakeupTest _ q _ | .wakeupStore _ q _ | .wakeupRelease _ q _ => some q
  | _ => none

/-- The process whose lock the call has taken, the scheduler's time with it included. -/
def takenProc (p : Fin n) : Pc n → Option (Fin n)
  | .suspended _ => some p
  | pc => pc.holdsProc p

theorem element_handle {pc : Pc n} {sem : Int32} (h : pc.element = some sem) :
    pc.handle = some sem := by
  cases pc <;> simp_all [element, handle]

end Pc

section Call

variable {n : ℕ}

/-- The states between the start of a call in a state and the process's next call. -/
def DuringCall (k : Kernel n) (p : Fin n) (c : SemCall) : Kernel n → Prop :=
  Relation.ReflTransGen (KernelStep fun q _ => q ≠ p) (k.goto p c.entry)

/-- The call touches elements of the array only, a handle outside of it is answered with -1
and no change, and the process returns with the locks it had. -/
structure ValidatesHandle (k : Kernel n) (p : Fin n) (c : SemCall) : Prop where
  inArray : ∀ t sem, DuringCall k p c t → (t.pc p).element = some sem → 0 ≤ sem ∧ sem < maxSem
  rejects : ¬ (0 ≤ c.handle ∧ c.handle < maxSem) → ∀ t, DuringCall k p c t →
    (∀ ret, t.pc p = .user ret → ret = some (-1)) ∧
      ∀ t', t.stepProc p = some t' → t'.machine.semArray = t.machine.semArray
  lk : ∀ t ret, DuringCall k p c t → t.pc p = .user ret →
    ∀ sem, t.lk sem = some p ↔ k.lk sem = some p
  procLock : ∀ t ret, DuringCall k p c t → t.pc p = .user ret →
    ∀ q, t.procLock q = some (.proc p) ↔ k.procLock q = some (.proc p)

/-- The locks of a process in a call: those it came with, and those of the way. -/
structure InCall (k : Kernel n) (p : Fin n) (sem : Int32) (t : Kernel n) : Prop where
  handle : ∀ s, (t.pc p).handle = some s → s = sem
  lk : ∀ s, t.lk s = some p ↔ k.lk s = some p ∨ (s = sem ∧ (t.pc p).HoldsLk)
  lkFresh : (t.pc p).HoldsLk → k.lk sem ≠ some p
  procLock : ∀ q, t.procLock q = some (.proc p) ↔
    k.procLock q = some (.proc p) ∨ (t.pc p).holdsProc p = some q
  procFresh : ∀ q, (t.pc p).takenProc p = some q → k.procLock q ≠ some (.proc p)

namespace InCall

variable {k t t' : Kernel n} {p : Fin n} {sem : Int32}

theorem start {c : SemCall} : InCall k p c.handle (k.goto p c.entry) := by
  cases c <;> constructor <;>
    simp [SemCall.entry, SemCall.handle, Pc.handle, Pc.HoldsLk, Pc.holdsProc, Pc.takenProc]

/-- The others leave the locks of the process alone. -/
theorem of_lockFrame {q : Fin n} (h : InCall k p sem t) (hq : p ≠ q)
    (hframe : Kernel.LockFrame q t t') : InCall k p sem t' where
  handle := by rw [hframe.pc p hq]; exact h.handle
  lk s := by rw [hframe.lk s p hq, hframe.pc p hq]; exact h.lk s
  lkFresh := by rw [hframe.pc p hq]; exact h.lkFresh
  procLock r := by rw [hframe.procLock r p hq, hframe.pc p hq]; exact h.procLock r
  procFresh := by rw [hframe.pc p hq]; exact h.procFresh

/-- The instruction does not touch a lock. -/
theorem moved {t₁ : Kernel n} {next : Pc n} (h : InCall k p sem t) (hlk : ∀ s, t₁.lk s = t.lk s)
    (hprocLock : ∀ q, t₁.procLock q = t.procLock q)
    (hhandle : ∀ s, next.handle = some s → (t.pc p).handle = some s)
    (hholds : next.HoldsLk ↔ (t.pc p).HoldsLk)
    (hproc : next.holdsProc p = (t.pc p).holdsProc p)
    (htaken : next.takenProc p = (t.pc p).takenProc p) : InCall k p sem (t₁.goto p next) where
  handle s hs := h.handle s (hhandle s (by simpa using hs))
  lk s := by simpa [hlk, hholds] using h.lk s
  lkFresh hs := h.lkFresh (by simpa [hholds] using hs)
  procLock q := by simpa [hprocLock, hproc] using h.procLock q
  procFresh q hq := h.procFresh q (by simpa [htaken] using hq)

theorem acquired {next : Pc n} (h : InCall k p sem t) (hfree : t.lk sem = none)
    (hhandle : ∀ s, next.handle = some s → (t.pc p).handle = some s)
    (hin : next.HoldsLk) (hproc : next.holdsProc p = (t.pc p).holdsProc p)
    (htaken : next.takenProc p = (t.pc p).takenProc p) :
    InCall k p sem ((t.setLk sem (some p)).goto p next) where
  handle s hs := h.handle s (hhandle s (by simpa using hs))
  lk s := by
    have hold := h.lk s
    by_cases hs : s = sem
    · simp [hs, hin]
    · simpa [hs] using hold
  lkFresh _ hheld := by
    have hold := (h.lk sem).mpr (.inl hheld)
    simp [hfree] at hold
  procLock q := by simpa [hproc] using h.procLock q
  procFresh q hq := h.procFresh q (by simpa [htaken] using hq)

theorem released {next : Pc n} (h : InCall k p sem t)
    (hhandle : ∀ s, next.handle = some s → (t.pc p).handle = some s)
    (hin : (t.pc p).HoldsLk) (hout : ¬ next.HoldsLk)
    (hproc : next.holdsProc p = (t.pc p).holdsProc p)
    (htaken : next.takenProc p = (t.pc p).takenProc p) :
    InCall k p sem ((t.setLk sem none).goto p next) where
  handle s hs := h.handle s (hhandle s (by simpa using hs))
  lk s := by
    have hold := h.lk s
    by_cases hs : s = sem
    · simp [hs, hout, h.lkFresh hin]
    · simpa [hs] using hold
  lkFresh hs := absurd hs (by simpa using hout)
  procLock q := by simpa [hproc] using h.procLock q
  procFresh q hq := h.procFresh q (by simpa [htaken] using hq)

theorem acquiredProc {next : Pc n} {q : Fin n} (h : InCall k p sem t)
    (hfree : t.procLock q = none)
    (hhandle : ∀ s, next.handle = some s → (t.pc p).handle = some s)
    (hholds : next.HoldsLk ↔ (t.pc p).HoldsLk) (hout : (t.pc p).holdsProc p = none)
    (hin : next.holdsProc p = some q) (htaken : next.takenProc p = some q) :
    InCall k p sem ((t.setProcLock q (some (.proc p))).goto p next) where
  handle s hs := h.handle s (hhandle s (by simpa using hs))
  lk s := by simpa [hholds] using h.lk s
  lkFresh hs := h.lkFresh (by simpa [hholds] using hs)
  procLock r := by
    have hold := h.procLock r
    by_cases hr : r = q
    · simp [hr, hin]
    · simpa [hr, hin, hout, Ne.symm hr] using hold
  procFresh r hr hheld := by
    obtain rfl : q = r := by simpa [htaken] using hr
    have hold := (h.procLock q).mpr (.inl hheld)
    simp [hfree] at hold

theorem releasedProc {next : Pc n} {q : Fin n} {holder : Option (Holder n)} (h : InCall k p sem t)
    (hholder : holder ≠ some (.proc p))
    (hhandle : ∀ s, next.handle = some s → (t.pc p).handle = some s)
    (hholds : next.HoldsLk ↔ (t.pc p).HoldsLk) (hin : (t.pc p).holdsProc p = some q)
    (hin' : (t.pc p).takenProc p = some q) (hout : next.holdsProc p = none)
    (htaken : ∀ r, next.takenProc p = some r → r = q) :
    InCall k p sem ((t.setProcLock q holder).goto p next) where
  handle s hs := h.handle s (hhandle s (by simpa using hs))
  lk s := by simpa [hholds] using h.lk s
  lkFresh hs := h.lkFresh (by simpa [hholds] using hs)
  procLock r := by
    have hold := h.procLock r
    by_cases hr : r = q
    · simp [hr, hholder, hout, h.procFresh q hin']
    · simpa [hr, hin, hout, Ne.symm hr] using hold
  procFresh r hr := by
    obtain rfl := htaken r (by simpa using hr)
    exact h.procFresh r hin'

theorem step_self (h : InCall k p sem t) (hsem : sem < maxSem) (hstep : t.stepProc p = some t') :
    InCall k p sem t' := by
  have hsame : ∀ s, (t.pc p).handle = some s → s = sem := h.handle
  cases hpc : t.pc p with
  | user ret | suspended s => simp [Kernel.stepProc, hpc] at hstep
  | openAcquire s value | downAcquire s | upAcquire s | sleepReacquire s =>
      obtain rfl := hsame s (by rw [hpc]; rfl)
      simp only [Kernel.stepProc, hpc, Kernel.acquire_eq_some] at hstep
      obtain ⟨hfree, rfl⟩ := hstep
      refine h.acquired hfree ?_ ?_ ?_ ?_ <;>
        simp [hpc, Pc.handle, Pc.HoldsLk, Pc.holdsProc, Pc.takenProc]
  | openRelease s | downRelease s | sleepRelease s | upFail s | upRelease s =>
      obtain rfl := hsame s (by rw [hpc]; rfl)
      simp only [Kernel.stepProc, hpc, Kernel.release_eq_some] at hstep
      obtain ⟨-, rfl⟩ := hstep
      refine h.released ?_ ?_ ?_ ?_ ?_ <;>
        simp [hpc, Pc.handle, Pc.HoldsLk, Pc.holdsProc, Pc.takenProc]
  | openTest s value =>
      obtain rfl := hsame s (by rw [hpc]; rfl)
      simp only [Kernel.stepProc, hpc, if_neg (Int32.not_lt.mpr (Int32.le_of_lt hsem)),
        Option.some.injEq] at hstep
      subst hstep
      refine h.moved (fun _ => rfl) (fun _ => rfl) ?_ ?_ ?_ ?_ <;>
        simp [hpc, Pc.handle, Pc.HoldsLk, Pc.holdsProc, Pc.takenProc]
  | downTest s | downLoop s | upTest s | wakeupTest s q rest | closeTest s =>
      simp only [Kernel.stepProc, hpc] at hstep
      split_ifs at hstep <;> obtain rfl := Option.some.inj hstep <;>
        refine h.moved (fun _ => rfl) (fun _ => rfl) ?_ ?_ ?_ ?_ <;>
        simp [hpc, Pc.handle, Pc.HoldsLk, Pc.holdsProc, Pc.takenProc]
  | openValue s value | openInit s value | downTake s | sleepChan s | sleepState s
  | sleepTidy s | upStore s | wakeupStore s q rest | closeValue s | closeInit s =>
      simp only [Kernel.stepProc, hpc, Option.some.injEq] at hstep
      subst hstep
      refine h.moved (fun _ => rfl) (fun _ => rfl) ?_ ?_ ?_ ?_ <;>
        simp [hpc, Pc.handle, Pc.HoldsLk, Pc.holdsProc, Pc.takenProc]
  | sleepAcquire s =>
      simp only [Kernel.stepProc, hpc, Kernel.acquireProc_eq_some] at hstep
      obtain ⟨hfree, rfl⟩ := hstep
      refine h.acquiredProc hfree ?_ ?_ ?_ ?_ ?_ <;>
        simp [hpc, Pc.handle, Pc.HoldsLk, Pc.holdsProc, Pc.takenProc]
  | sleepSched s =>
      simp only [Kernel.stepProc, hpc] at hstep
      split_ifs at hstep
      obtain rfl := Option.some.inj hstep
      refine h.releasedProc (by simp) ?_ ?_ ?_ ?_ ?_ ?_ <;>
        simp [hpc, Pc.handle, Pc.HoldsLk, Pc.holdsProc, Pc.takenProc]
  | sleepUnlock s | wakeupRelease s q rest =>
      simp only [Kernel.stepProc, hpc, Kernel.releaseProc_eq_some] at hstep
      obtain ⟨-, rfl⟩ := hstep
      refine h.releasedProc (by simp) ?_ ?_ ?_ ?_ ?_ ?_ <;>
        simp [hpc, Pc.handle, Pc.HoldsLk, Pc.holdsProc, Pc.takenProc]
  | wakeupNext s rest =>
      cases rest with
      | nil =>
          simp only [Kernel.stepProc, hpc, Option.some.injEq] at hstep
          subst hstep
          refine h.moved (fun _ => rfl) (fun _ => rfl) ?_ ?_ ?_ ?_ <;>
            simp [hpc, Pc.handle, Pc.HoldsLk, Pc.holdsProc, Pc.takenProc]
      | cons q rest =>
          simp only [Kernel.stepProc, hpc] at hstep
          split_ifs at hstep
          · obtain rfl := Option.some.inj hstep
            refine h.moved (fun _ => rfl) (fun _ => rfl) ?_ ?_ ?_ ?_ <;>
              simp [hpc, Pc.handle, Pc.HoldsLk, Pc.holdsProc, Pc.takenProc]
          · obtain ⟨hfree, rfl⟩ := Kernel.acquireProc_eq_some.mp hstep
            refine h.acquiredProc hfree ?_ ?_ ?_ ?_ ?_ <;>
              simp [hpc, Pc.handle, Pc.HoldsLk, Pc.holdsProc, Pc.takenProc]

/-- The scheduler takes or gives back a lock that is not the process's. -/
theorem scheduled {q : Fin n} {holder : Option (Holder n)} (h : InCall k p sem t)
    (hfrom : t.procLock q ≠ some (.proc p)) (hto : holder ≠ some (.proc p)) :
    InCall k p sem (t.setProcLock q holder) where
  handle := h.handle
  lk := h.lk
  lkFresh := h.lkFresh
  procLock r := by
    rw [Kernel.setProcLock_procLock]
    split_ifs with hr
    · rw [hr]
      simpa [hto] using (not_congr (h.procLock q)).mp hfrom
    · exact h.procLock r
  procFresh := h.procFresh

/-- The process runs again with its own lock, which the scheduler took for it. -/
theorem switched {s : Int32} (h : InCall k p sem t) (hpc : t.pc p = .suspended s) :
    InCall k p sem ((t.setProcLock p (some (.proc p))).goto p (.sleepTidy s)) := by
  have hhandle := h.handle
  have hlk := h.lk
  have hprocLock := h.procLock
  have hprocFresh := h.procFresh
  simp only [hpc, Pc.handle, Pc.HoldsLk, Pc.holdsProc] at hhandle hlk hprocLock
  simp only [hpc, Pc.takenProc] at hprocFresh
  refine ⟨?_, ?_, ?_, fun r => ?_, ?_⟩
  · simpa [Pc.handle] using hhandle
  · simpa [Pc.HoldsLk] using hlk
  · simp [Pc.HoldsLk]
  · by_cases hr : r = p
    · simp [hr, Pc.holdsProc]
    · simpa [hr, Pc.holdsProc, Ne.symm hr] using hprocLock r
  · simpa [Pc.takenProc, Pc.holdsProc] using hprocFresh

theorem step_scheduler {q : Fin n} (h : InCall k p sem t) (hstep : t.stepScheduler q = some t') :
    InCall k p sem t' := by
  unfold Kernel.stepScheduler at hstep
  split at hstep
  case h_1 hfree =>
    obtain rfl := Option.some.inj hstep
    exact h.scheduled (by simp [hfree]) (by simp)
  case h_2 htesting =>
    split_ifs at hstep
    · obtain rfl := Option.some.inj hstep
      have hstate : InCall k p sem (t.setState q .running) :=
        ⟨h.handle, h.lk, h.lkFresh, h.procLock, h.procFresh⟩
      exact hstate.scheduled (by simp [htesting]) (by simp)
    · obtain rfl := Option.some.inj hstep
      exact h.scheduled (by simp [htesting]) (by simp)
  case h_3 hswitching =>
    split at hstep
    case h_1 s hpc =>
      obtain rfl := Option.some.inj hstep
      by_cases hq : p = q
      · subst hq
        exact h.switched hpc
      · have hother : InCall k p sem (t.setProcLock q (some (.proc q))) :=
          h.scheduled (by simp [hswitching]) (by simpa using Ne.symm hq)
        exact hother.of_lockFrame hq (Kernel.LockFrame.refl.goto _)
    case h_2 => simp at hstep
  case h_4 hleaving =>
    obtain rfl := Option.some.inj hstep
    exact h.scheduled (by simp [hleaving]) (by simp)
  case h_5 => simp at hstep

theorem step (h : InCall k p sem t) (hsem : sem < maxSem)
    (hstep : KernelStep (fun q _ => q ≠ p) t t') : InCall k p sem t' := by
  cases hstep with
  | call q c hq hpc => exact h.of_lockFrame hq.symm (Kernel.LockFrame.refl.goto _)
  | proc q hstep =>
      by_cases hq : p = q
      · subst hq
        exact h.step_self hsem hstep
      · exact h.of_lockFrame hq (Kernel.lockFrame_of_step hstep)
  | scheduler q hstep => exact h.step_scheduler hstep

theorem of_duringCall {c : SemCall} (hsem : c.handle < maxSem) (ht : DuringCall k p c t) :
    InCall k p c.handle t := by
  induction ht with
  | refl => exact start
  | tail _ hstep ih => exact ih.step hsem hstep

end InCall

/-- A call of the semaphores validates its handle exactly when the handle is valid. -/
theorem validatesHandle_iff (k : Kernel n) (p : Fin n) (c : SemCall) :
    ValidatesHandle k p c ↔ 0 ≤ c.handle ∧ c.handle < maxSem := by
  constructor
  · intro hvalid
    refine hvalid.inArray (k.goto p c.entry) c.handle .refl ?_
    cases c <;> simp [SemCall.entry, SemCall.handle, Pc.element]
  · intro hsem
    refine ⟨fun t sem ht helement => ?_, fun hnot => absurd hsem hnot,
      fun t ret ht hreturned sem => ?_, fun t ret ht hreturned q => ?_⟩
    · have hin := InCall.of_duringCall hsem.2 ht
      obtain rfl := hin.handle sem (Pc.element_handle helement)
      exact hsem
    · simpa [hreturned, Pc.HoldsLk] using (InCall.of_duringCall hsem.2 ht).lk sem
    · simpa [hreturned, Pc.holdsProc] using (InCall.of_duringCall hsem.2 ht).procLock q

/-- `sem_open(33, 1)` returns -1 and leaves the lock of the element taken. -/
theorem semOpen_beyond_leaves_lock :
    (kernelSystem 2 fun _ _ => True).Reachable startedKernel ∧
      ¬ ValidatesHandle startedKernel 0 (.semOpen 33 1) := by
  refine ⟨.of_start startedKernel_started, fun hvalid => ?_⟩
  let called := startedKernel.goto 0 (.openAcquire 33 1)
  let locked := (called.setLk 33 (some 0)).goto 0 (.openTest 33 1)
  have hlocked : called.stepProc 0 = some locked := rfl
  have hreturned : locked.stepProc 0 = some (locked.goto 0 (.user (some (-1)))) := rfl
  have hduring : DuringCall startedKernel 0 (.semOpen 33 1) (locked.goto 0 (.user (some (-1)))) :=
    (Relation.ReflTransGen.single (.proc 0 hlocked)).tail (.proc 0 hreturned)
  have hlk := (hvalid.lk _ _ hduring rfl 33).mp rfl
  simp [startedKernel] at hlk

end Call

end SistOp.Xv6
