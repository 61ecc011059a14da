import SistOp.SemaphoreSteps

/-!
# No lost wakeup

Only `sem_down` and `sem_up` are called.  A process on its way to sleep, or asleep, has seen a
value that is still at most 0, or somebody in `wakeup` has yet to visit it.
-/

namespace SistOp.Xv6

def downUp {n : ℕ} (_ : Fin n) : SemCall → Prop
  | .semDown _ | .semUp _ => True
  | .semOpen _ _ | .semClose _ => False

namespace Kernel

variable {n : ℕ}

/-- What a process knows at its next instruction: its locks and what it has tested or set. -/
def Knows (k : Kernel n) (p : Fin n) : Pc n → Prop
  | .user _ | .downAcquire _ | .sleepReacquire _ | .upAcquire _ => True
  | .downTest sem | .downLoop sem | .downRelease sem | .upTest sem | .upFail sem
  | .upStore sem | .upRelease sem | .wakeupNext sem _ => k.lk sem = some p
  | .downTake sem => k.lk sem = some p ∧ 0 < k.value sem
  | .sleepAcquire sem => k.lk sem = some p ∧ k.value sem ≤ 0
  | .sleepRelease sem =>
      k.lk sem = some p ∧ k.value sem ≤ 0 ∧ k.procLock p = some (.proc p)
  | .sleepChan _ | .sleepTidy _ | .sleepUnlock _ => k.procLock p = some (.proc p)
  | .sleepState sem => k.procLock p = some (.proc p) ∧ k.chan p = some sem
  | .sleepSched sem => k.procLock p = some (.proc p) ∧ k.chan p = some sem
  | .suspended sem => k.chan p = some sem
  | .wakeupTest sem q _ | .wakeupRelease sem q _ =>
      k.lk sem = some p ∧ k.procLock q = some (.proc p) ∧ q ≠ p
  | .wakeupStore sem q _ =>
      k.lk sem = some p ∧ k.procLock q = some (.proc p) ∧ q ≠ p
  | .openAcquire _ _ | .openTest _ _ | .openValue _ _ | .openInit _ _ | .openRelease _
  | .closeTest _ | .closeValue _ | .closeInit _ => False

/-- What a step of a process with this knowledge leaves alone. -/
structure Frame (p : Fin n) (k k' : Kernel n) : Prop extends LockFrame p k k' where
  value : ∀ sem, k.lk sem ≠ some p → k'.value sem = k.value sem
  chan : ∀ q ≠ p, k'.chan q = k.chan q
  state : ∀ q ≠ p, k'.state q = k.state q ∨
    k'.state q = .runnable ∧ k.procLock q = some (.proc p)

theorem value_of_ne_of_step {k k' : Kernel n} {p : Fin n} (hknows : k.Knows p (k.pc p))
    (h : k.stepProc p = some k') {sem : Int32} (hsem : k.lk sem ≠ some p) :
    k'.value sem = k.value sem := by
  cases hpc : k.pc p with
  | wakeupNext s rest => cases rest <;> simp only [stepProc, hpc] at h <;> grind
  | openAcquire s v | openTest s v | openValue s v | openInit s v | openRelease s | closeTest s
  | closeValue s | closeInit s => simp [Knows, hpc] at hknows
  | _ =>
      simp only [stepProc, Knows, hpc] at h hknows
      grind

theorem proc_of_ne_of_step {k k' : Kernel n} {p q : Fin n} (hknows : k.Knows p (k.pc p))
    (h : k.stepProc p = some k') (hq : q ≠ p) :
    k'.chan q = k.chan q ∧ (k'.state q = k.state q ∨
      k'.state q = .runnable ∧ k.procLock q = some (.proc p)) := by
  cases hpc : k.pc p with
  | wakeupNext s rest => cases rest <;> simp only [stepProc, hpc] at h <;> grind
  | openAcquire s v | openTest s v | openValue s v | openInit s v | openRelease s | closeTest s
  | closeValue s | closeInit s => simp [Knows, hpc] at hknows
  | _ =>
      simp only [stepProc, Knows, hpc] at h hknows
      grind

theorem frame_of_step {k k' : Kernel n} {p : Fin n} (hknows : k.Knows p (k.pc p))
    (h : k.stepProc p = some k') : Frame p k k' :=
  { lockFrame_of_step h with
    value := fun _ => value_of_ne_of_step hknows h
    chan := fun _ hq => (proc_of_ne_of_step hknows h hq).1
    state := fun _ hq => (proc_of_ne_of_step hknows h hq).2 }

/-- What a process knows lasts while its locks, its channel and the values they guard do. -/
theorem Knows.mono {k k' : Kernel n} {q : Fin n} (hpc : k'.pc q = k.pc q)
    (hlk : ∀ sem, k.lk sem = some q → k'.lk sem = some q)
    (hprocLock : ∀ r, k.procLock r = some (.proc q) → k'.procLock r = some (.proc q))
    (hvalue : ∀ sem, k.lk sem = some q → k'.value sem = k.value sem)
    (hchan : k'.chan q = k.chan q) (h : k.Knows q (k.pc q)) : k'.Knows q (k'.pc q) := by
  rw [hpc]
  cases hat : k.pc q <;> simp only [Knows, hat] at h ⊢ <;> grind

theorem Knows.frame {k k' : Kernel n} {p q : Fin n} (hframe : Frame p k k') (hq : q ≠ p)
    (h : k.Knows q (k.pc q)) : k'.Knows q (k'.pc q) := by
  refine h.mono (hframe.pc q hq) (fun sem => (hframe.lk sem q hq).mpr)
    (fun r => (hframe.procLock r q hq).mpr) (fun sem hheld => ?_) (hframe.chan q hq)
  refine hframe.value sem ?_
  rw [hheld]
  simpa using hq

theorem knows_self_of_step {k k' : Kernel n} {p : Fin n} (hknows : k.Knows p (k.pc p))
    (h : k.stepProc p = some k') : k'.Knows p (k'.pc p) := by
  cases hpc : k.pc p with
  | user ret | suspended sem => simp [stepProc, hpc] at h
  | openAcquire sem value | openTest sem value | openValue sem value | openInit sem value
  | openRelease sem | closeTest sem | closeValue sem | closeInit sem => simp [Knows, hpc] at hknows
  | downAcquire sem | upAcquire sem | sleepReacquire sem =>
      simp only [stepProc, hpc, acquire_eq_some] at h
      obtain ⟨hfree, rfl⟩ := h
      simp [Knows]
  | downRelease sem | sleepRelease sem | upFail sem | upRelease sem =>
      simp only [stepProc, hpc, release_eq_some] at h
      obtain ⟨hheld, rfl⟩ := h
      simp_all [Knows]
  | downTest sem | downLoop sem | upTest sem | wakeupTest sem q rest =>
      simp only [stepProc, hpc] at h
      split_ifs at h <;> obtain rfl := Option.some.inj h <;> simp_all [Knows]
  | downTake sem | upStore sem | sleepChan sem | sleepTidy sem | sleepState sem =>
      simp only [stepProc, hpc, Option.some.injEq] at h
      subst h
      simp_all [Knows]
  | sleepAcquire sem =>
      simp only [stepProc, hpc, acquireProc_eq_some] at h
      obtain ⟨hfree, rfl⟩ := h
      simp_all [Knows]
  | sleepSched sem =>
      simp only [stepProc, hpc] at h
      split_ifs at h
      obtain rfl := Option.some.inj h
      simp_all [Knows]
  | sleepUnlock sem | wakeupRelease sem q rest =>
      simp only [stepProc, hpc, releaseProc_eq_some] at h
      obtain ⟨hheld, rfl⟩ := h
      simp_all [Knows]
  | wakeupNext sem rest =>
      cases rest with
      | nil =>
          simp only [stepProc, hpc, Option.some.injEq] at h
          subst h
          simp_all [Knows]
      | cons q rest =>
          simp only [stepProc, hpc] at h
          split_ifs at h
          · obtain rfl := Option.some.inj h
            simp_all [Knows]
          · obtain ⟨hfree, rfl⟩ := acquireProc_eq_some.mp h
            simp_all [Knows]
  | wakeupStore sem q rest =>
      simp only [stepProc, hpc, Option.some.injEq] at h
      subst h
      simp_all [Knows]

/-- The process has seen a value of at most 0 and is on its way to sleep on the semaphore, or
sleeps on it. -/
def Falling (k : Kernel n) (p : Fin n) (sem : Int32) : Prop :=
  match k.pc p with
  | .sleepChan s | .sleepState s | .sleepSched s => s = sem
  | .suspended s => s = sem ∧ k.state p = .sleeping
  | _ => False

end Kernel

/-- The processes that a `wakeup` on the semaphore has yet to visit. -/
def Pc.toVisit {n : ℕ} (sem : Int32) : Pc n → List (Fin n)
  | .wakeupNext s rest | .wakeupRelease s _ rest => if s = sem then rest else []
  | .wakeupTest s q rest | .wakeupStore s q rest => if s = sem then q :: rest else []
  | _ => []

namespace Kernel

variable {n : ℕ}

structure NoLostWakeup (k : Kernel n) : Prop where
  knows : ∀ p, k.Knows p (k.pc p)
  switching : ∀ p, k.procLock p = some (.scheduler .switching) → k.state p ≠ .sleeping
  sleeping : ∀ p, k.state p = .sleeping →
    ∃ sem, k.pc p = .sleepSched sem ∨ k.pc p = .suspended sem
  falling : ∀ p sem, k.Falling p sem →
    k.value sem ≤ 0 ∨ ∃ r, p ∈ (k.pc r).toVisit sem

section Step

variable {k k' : Kernel n} {p q : Fin n} {sem : Int32}

theorem state_self_of_step (hknows : k.Knows p (k.pc p)) (h : k.stepProc p = some k') :
    k'.state p = k.state p ∨ ∃ sem, k.pc p = .sleepState sem ∧ k'.pc p = .sleepSched sem := by
  cases hpc : k.pc p with
  | sleepState sem =>
      simp only [stepProc, hpc, Option.some.injEq] at h
      subst h
      exact .inr ⟨sem, rfl, goto_pc_self ..⟩
  | wakeupStore sem q rest =>
      simp only [stepProc, hpc, Option.some.injEq] at h
      simp only [Knows, hpc] at hknows
      grind
  | wakeupNext sem rest => cases rest <;> simp only [stepProc, hpc] at h <;> grind
  | _ =>
      simp only [stepProc, hpc] at h
      grind

theorem value_of_step (hknows : k.Knows p (k.pc p)) (h : k.stepProc p = some k') :
    k'.value sem = k.value sem ∨ 0 < k.value sem ∨ ∀ q, q ∈ (k'.pc p).toVisit sem := by
  cases hpc : k.pc p with
  | downTake s =>
      simp only [stepProc, hpc, Option.some.injEq] at h
      simp only [Knows, hpc] at hknows
      by_cases hs : sem = s
      · exact .inr (.inl (hs ▸ hknows.2))
      · grind
  | upStore s =>
      simp only [stepProc, hpc, Option.some.injEq] at h
      subst h
      by_cases hs : sem = s
      · simp [hs, Pc.toVisit]
      · simp [hs]
  | openValue s value | closeValue s => simp [Knows, hpc] at hknows
  | wakeupNext sem rest => cases rest <;> simp only [stepProc, hpc] at h <;> grind
  | _ =>
      simp only [stepProc, hpc] at h
      grind

/-- A process whose lock another one holds is asleep if it is falling asleep. -/
theorem asleep_of_locked {r : Fin n} (hr : r ≠ q) (hknows : k.Knows q (k.pc q))
    (hlock : k.procLock q = some (.proc r)) (hfalling : k.Falling q sem) :
    k.state q = .sleeping ∧ k.chan q = some sem := by
  cases hpc : k.pc q <;> simp only [Falling, Knows, hpc] at hfalling hknows <;> grind

/-- `wakeup` passes a process by only if it does not sleep on the semaphore any more. -/
theorem visited_of_step (hknows : k.Knows p (k.pc p)) (h : k.stepProc p = some k')
    (hq : q ≠ p) (hknowsq : k.Knows q (k.pc q)) (hfalling : k.Falling q sem)
    (hfalling' : k'.Falling q sem) (hmem : q ∈ (k.pc p).toVisit sem) :
    q ∈ (k'.pc p).toVisit sem := by
  cases hpc : k.pc p with
  | wakeupNext s rest =>
      simp only [Pc.toVisit, hpc] at hmem
      split_ifs at hmem with hs
      · cases rest with
        | nil => simp at hmem
        | cons q' rest =>
            simp only [stepProc, hpc] at h
            split_ifs at h with hself
            · -- `wakeup` skips the process that runs it
              obtain rfl := Option.some.inj h
              rw [hself, List.mem_cons] at hmem
              simpa [Pc.toVisit, hs] using hmem.resolve_left hq
            · obtain ⟨-, rfl⟩ := acquireProc_eq_some.mp h
              simpa [Pc.toVisit, hs] using hmem
      · simp at hmem
  | wakeupTest s q' rest =>
      simp only [Pc.toVisit, hpc] at hmem
      simp only [Knows, hpc] at hknows
      split_ifs at hmem with hs
      · simp only [stepProc, hpc] at h
        split_ifs at h with htest
        · obtain rfl := Option.some.inj h
          simpa [Pc.toVisit, hs] using hmem
        · obtain rfl := Option.some.inj h
          have hne : q ≠ q' := by
            rintro rfl
            exact htest (hs ▸ asleep_of_locked hq.symm hknowsq hknows.2.1 hfalling)
          simpa [Pc.toVisit, hs, hne] using hmem
      · simp at hmem
  | wakeupStore s q' rest =>
      simp only [Pc.toVisit, hpc] at hmem
      simp only [Knows, hpc] at hknows
      split_ifs at hmem with hs
      · have hframe := frame_of_step (by simpa [Knows, hpc] using hknows) h
        have hknowsq' := hknowsq.frame hframe hq
        simp only [stepProc, hpc, Option.some.injEq] at h
        subst h
        have hne : q ≠ q' := by
          rintro rfl
          have hasleep := asleep_of_locked hq.symm hknowsq' hknows.2.1 hfalling'
          simp at hasleep
        simpa [Pc.toVisit, hs, hne] using hmem
      · simp at hmem
  | wakeupRelease s q' rest =>
      simp only [Pc.toVisit, hpc] at hmem
      split_ifs at hmem with hs
      · simp only [stepProc, hpc, releaseProc_eq_some] at h
        obtain ⟨-, rfl⟩ := h
        simpa [Pc.toVisit, hs] using hmem
      · simp at hmem
  | _ => simp [Pc.toVisit, hpc] at hmem

theorem pc_of_step_sleepSched (hpc : k.pc p = .sleepSched sem) (h : k.stepProc p = some k') :
    k'.pc p = .suspended sem := by
  simp only [stepProc, hpc] at h
  grind

theorem falling_of_falling' (hframe : Frame p k k') (hq : q ≠ p) (h : k'.Falling q sem) :
    k.Falling q sem := by
  have hstate := hframe.state q hq
  rw [Falling, hframe.pc q hq] at h
  unfold Falling
  split at h <;> grind

/-- A process that begins to fall asleep has tested the value under the lock. -/
theorem falling_self_of_step (h : k.stepProc p = some k') (hfalling : k'.Falling p sem) :
    k'.value sem = k.value sem ∧ p ∉ (k.pc p).toVisit sem ∧
      (k.pc p = .sleepRelease sem ∨ k.Falling p sem) := by
  unfold Falling at *
  cases hpc : k.pc p with
  | wakeupNext s rest => cases rest <;> simp only [stepProc, hpc] at h <;> grind
  | sleepRelease s | sleepChan s | sleepState s | sleepSched s =>
      simp only [stepProc, hpc] at h
      grind [Pc.toVisit]
  | _ =>
      simp only [stepProc, hpc] at h
      grind

end Step

namespace NoLostWakeup

variable {k k' : Kernel n} {p : Fin n}

theorem start (h : k.Started) : k.NoLostWakeup where
  knows p := by simp [h.pc p, Knows]
  switching p hp := by simp [h.procLock p] at hp
  sleeping p hp := by simp [h.state p] at hp
  falling p sem hp := by simp [Falling, h.pc p] at hp

theorem step_proc (hinv : k.NoLostWakeup) (h : k.stepProc p = some k') : k'.NoLostWakeup := by
  have hframe := frame_of_step (hinv.knows p) h
  have hself := state_self_of_step (hinv.knows p) h
  have hknows : ∀ q, k'.Knows q (k'.pc q) := by
    intro q
    by_cases hq : q = p
    · rw [hq]
      exact knows_self_of_step (hinv.knows p) h
    · exact (hinv.knows q).frame hframe hq
  refine ⟨hknows, fun q hswitching => ?_, fun q hsleeping => ?_, fun q sem hfalling => ?_⟩
  · have hold := hinv.switching q ((hframe.switching q).mp hswitching)
    by_cases hq : q = p
    · subst hq
      rcases hself with hstate | ⟨sem, hpc, hpc'⟩
      · rwa [hstate]
      · -- the process holds its own lock
        have hknowsq := hknows q
        simp [Knows, hpc', hswitching] at hknowsq
    · rcases hframe.state q hq with hstate | ⟨hstate, -⟩
      · rwa [hstate]
      · simp [hstate]
  · by_cases hq : q = p
    · subst hq
      rcases hself with hstate | ⟨sem, -, hpc'⟩
      · rcases hinv.sleeping q (hstate ▸ hsleeping) with ⟨sem, hpc | hpc⟩
        · exact ⟨sem, .inr (pc_of_step_sleepSched hpc h)⟩
        · simp [stepProc, hpc] at h
      · exact ⟨sem, .inl hpc'⟩
    · rw [hframe.pc q hq]
      rcases hframe.state q hq with hstate | ⟨hstate, -⟩
      · exact hinv.sleeping q (hstate ▸ hsleeping)
      · simp [hstate] at hsleeping
  · by_cases hq : q = p
    · subst hq
      obtain ⟨hvalue, hnot, hrelease | hold⟩ := falling_self_of_step h hfalling
      · have hknowsq := hinv.knows q
        simp only [Knows, hrelease] at hknowsq
        exact .inl (hvalue ▸ hknowsq.2.1)
      · rcases hinv.falling q sem hold with hle | ⟨r, hr⟩
        · exact .inl (hvalue ▸ hle)
        · have hrq : r ≠ q := by
            rintro rfl
            exact hnot hr
          exact .inr ⟨r, by rwa [hframe.pc r hrq]⟩
    · have hold := falling_of_falling' hframe hq hfalling
      rcases hinv.falling q sem hold with hle | ⟨r, hr⟩
      · rcases value_of_step (hinv.knows p) h with hvalue | hpos | hall
        · exact .inl (hvalue ▸ hle)
        · exact absurd hle (by simpa using hpos)
        · exact .inr ⟨p, hall q⟩
      · by_cases hrp : r = p
        · subst hrp
          exact .inr ⟨r, visited_of_step (hinv.knows r) h hq (hinv.knows q) hold hfalling hr⟩
        · exact .inr ⟨r, by rwa [hframe.pc r hrp]⟩

theorem step_call (hinv : k.NoLostWakeup) {c : SemCall} (hc : downUp p c) {ret : Option Int32}
    (hpc : k.pc p = .user ret) : (k.goto p c.entry).NoLostWakeup := by
  have hframe : Frame p k (k.goto p c.entry) :=
    { LockFrame.refl.goto _ with
      value := fun _ _ => rfl
      chan := fun _ _ => rfl
      state := fun _ _ => .inl rfl }
  refine ⟨fun q => ?_, hinv.switching, fun q hsleeping => ?_, fun q sem hfalling => ?_⟩
  · by_cases hq : q = p
    · subst hq
      cases c <;> simp [downUp, SemCall.entry, Knows] at hc ⊢
    · exact (hinv.knows q).frame hframe hq
  · obtain ⟨sem, hold⟩ := hinv.sleeping q hsleeping
    have hq : q ≠ p := by
      rintro rfl
      simp [hpc] at hold
    exact ⟨sem, by rwa [hframe.pc q hq]⟩
  · have hq : q ≠ p := by
      rintro rfl
      cases c <;> simp [SemCall.entry, Falling] at hfalling
    rcases hinv.falling q sem (falling_of_falling' hframe hq hfalling) with hle | ⟨r, hr⟩
    · exact .inl hle
    · have hrp : r ≠ p := by
        rintro rfl
        simp [hpc, Pc.toVisit] at hr
      exact .inr ⟨r, by rwa [hframe.pc r hrp]⟩

theorem falling_iff {q : Fin n} {sem : Int32} (hpc : k'.pc q = k.pc q)
    (hstate : k'.state q = k.state q) : k'.Falling q sem ↔ k.Falling q sem := by
  unfold Falling
  rw [hpc]
  split <;> simp [hstate]

theorem setProcLock {holder : Option (Holder n)} (hinv : k.NoLostWakeup)
    (hfrom : ∀ q, k.procLock p ≠ some (.proc q))
    (hto : holder ≠ some (.scheduler .switching)) : (k.setProcLock p holder).NoLostWakeup where
  knows q := Knows.mono (k := k) rfl (fun _ => id) (by grind) (fun _ _ => rfl) rfl (hinv.knows q)
  switching q hq := hinv.switching q (by grind)
  sleeping := hinv.sleeping
  falling := hinv.falling

theorem run (hinv : k.NoLostWakeup) (htesting : k.procLock p = some (.scheduler .testing)) :
    ((k.setState p .running).setProcLock p (some (.scheduler .switching))).NoLostWakeup where
  knows q := Knows.mono (k := k) rfl (fun _ => id) (by grind) (fun _ _ => rfl) (by simp)
    (hinv.knows q)
  switching q hq := by
    have hold := hinv.switching q
    grind
  sleeping q hq := hinv.sleeping q (by grind)
  falling q sem hfalling := by
    refine hinv.falling q sem ?_
    unfold Falling at hfalling ⊢
    rw [setProcLock_pc, setState_pc] at hfalling
    split at hfalling <;> grind

theorem switch (hinv : k.NoLostWakeup) {sem : Int32}
    (hswitching : k.procLock p = some (.scheduler .switching)) (hpc : k.pc p = .suspended sem) :
    ((k.setProcLock p (some (.proc p))).goto p (.sleepTidy sem)).NoLostWakeup where
  knows q := by
    by_cases hq : q = p
    · simp [hq, Knows]
    · refine Knows.mono (k := k) (goto_pc_of_ne _ _ _ hq) (fun _ => id) ?_ (fun _ _ => rfl) rfl
        (hinv.knows q)
      intro r hr
      simp only [goto_procLock, setProcLock_procLock]
      grind
  switching q hq := by
    simp only [goto_procLock, setProcLock_procLock] at hq
    exact hinv.switching q (by grind)
  sleeping q hq := by
    have hawake := hinv.switching p hswitching
    have hsleeping := hinv.sleeping q hq
    grind
  falling q sem hfalling := by
    have hq : q ≠ p := by
      rintro rfl
      simp [Falling] at hfalling
    have hold : k.Falling q sem := (falling_iff (goto_pc_of_ne _ _ _ hq) rfl).mp hfalling
    rcases hinv.falling q sem hold with hle | ⟨r, hr⟩
    · exact .inl hle
    · refine .inr ⟨r, ?_⟩
      have hrp : r ≠ p := by
        rintro rfl
        simp [hpc, Pc.toVisit] at hr
      rwa [goto_pc_of_ne _ _ _ hrp]

theorem step_scheduler (hinv : k.NoLostWakeup) (h : k.stepScheduler p = some k') :
    k'.NoLostWakeup := by
  unfold stepScheduler at h
  split at h
  case h_1 hfree =>
    obtain rfl := Option.some.inj h
    exact hinv.setProcLock (by simp [hfree]) (by simp)
  case h_2 htesting =>
    split_ifs at h
    · obtain rfl := Option.some.inj h
      exact hinv.run htesting
    · obtain rfl := Option.some.inj h
      exact hinv.setProcLock (by simp [htesting]) (by simp)
  case h_3 hswitching =>
    split at h
    case h_1 sem hpc =>
      obtain rfl := Option.some.inj h
      exact hinv.switch hswitching hpc
    case h_2 => simp at h
  case h_4 hleaving =>
    obtain rfl := Option.some.inj h
    exact hinv.setProcLock (by simp [hleaving]) (by simp)
  case h_5 => simp at h

theorem step (hinv : k.NoLostWakeup) (h : KernelStep downUp k k') : k'.NoLostWakeup := by
  cases h with
  | call p c hc hpc => exact hinv.step_call hc hpc
  | proc p h => exact hinv.step_proc h
  | scheduler p h => exact hinv.step_scheduler h

theorem of_reachable (hk : (kernelSystem n downUp).Reachable k) : k.NoLostWakeup :=
  hk.invariant (fun _ => start) fun _ _ hinv h => hinv.step h

/-- Somebody in `wakeup` holds the lock of the semaphore. -/
theorem lk_of_toVisit (hinv : k.NoLostWakeup) {q r : Fin n} {sem : Int32}
    (hr : q ∈ (k.pc r).toVisit sem) : k.lk sem = some r := by
  have hknows := hinv.knows r
  cases hpc : k.pc r <;> simp only [Pc.toVisit, Knows, hpc] at hr hknows <;> grind

theorem falling_of_sleeping (hinv : k.NoLostWakeup) {sem : Int32} (hstate : k.state p = .sleeping)
    (hchan : k.chan p = some sem) : k.Falling p sem := by
  have hknows := hinv.knows p
  rcases hinv.sleeping p hstate with ⟨s, hpc | hpc⟩
  · simp only [Knows, hpc] at hknows
    obtain rfl : s = sem := Option.some.inj (hknows.2.symm.trans hchan)
    simp [Falling, hpc]
  · simp only [Knows, hpc] at hknows
    obtain rfl : s = sem := Option.some.inj (hknows.symm.trans hchan)
    simp [Falling, hpc, hstate]

end NoLostWakeup

end Kernel

/-! ## A run of two processes -/

/-- A step of a system of `sem_down` and `sem_up`. -/
inductive KernelMove (n : ℕ) where
  | down (p : Fin n) (sem : Int32)
  | up (p : Fin n) (sem : Int32)
  | proc (p : Fin n)
  | scheduler (p : Fin n)

def Kernel.call {n : ℕ} (k : Kernel n) (p : Fin n) (c : SemCall) : Option (Kernel n) :=
  match k.pc p with
  | .user _ => some (k.goto p c.entry)
  | _ => none

def Kernel.move {n : ℕ} (k : Kernel n) : KernelMove n → Option (Kernel n)
  | .down p sem => k.call p (.semDown sem)
  | .up p sem => k.call p (.semUp sem)
  | .proc p => k.stepProc p
  | .scheduler p => k.stepScheduler p

theorem KernelStep.of_call {n : ℕ} {k k' : Kernel n} {p : Fin n} {c : SemCall} (hc : downUp p c)
    (h : k.call p c = some k') : KernelStep downUp k k' := by
  unfold Kernel.call at h
  split at h
  · rename_i ret hpc
    obtain rfl := Option.some.inj h
    exact .call p c hc hpc
  · contradiction

theorem KernelStep.of_move {n : ℕ} {k k' : Kernel n} {m : KernelMove n}
    (h : k.move m = some k') : KernelStep downUp k k' := by
  cases m with
  | down p sem => exact .of_call (show downUp p (.semDown sem) from trivial) h
  | up p sem => exact .of_call (show downUp p (.semUp sem) from trivial) h
  | proc p => exact .proc p h
  | scheduler p => exact .scheduler p h

/-- `p` calls `sem_up` while `q` is on its way to sleep, wakes it, and sees it sleep again. -/
def wakeups {n : ℕ} (p q : Fin n) : List (KernelMove n) :=
  .down q 0 :: .replicate 5 (.proc q) ++ .up p 0 :: .replicate 4 (.proc p) ++
    .replicate 3 (.proc q) ++ .scheduler q :: .replicate 6 (.proc p) ++
    .replicate 3 (.scheduler q) ++ .replicate 6 (.proc q) ++ .down q 0 :: .replicate 8 (.proc q)

/-! ## No wakeup is lost -/

/-- Nobody sleeps on a semaphore whose lock is free and whose value is positive. -/
theorem no_lost_wakeup {n : ℕ} {k : Kernel n} (hk : (kernelSystem n downUp).Reachable k)
    (sem : Int32) :
    ¬ (k.lk sem = none ∧ 0 < k.value sem ∧
      ∃ p, k.state p = .sleeping ∧ k.chan p = some sem) := by
  rintro ⟨hfree, hpos, p, hstate, hchan⟩
  have hinv := Kernel.NoLostWakeup.of_reachable hk
  rcases hinv.falling p sem (hinv.falling_of_sleeping hstate hchan) with hle | ⟨r, hr⟩
  · exact absurd hle (by simpa using hpos)
  · have hheld := hinv.lk_of_toVisit hr
    simp [hfree] at hheld

theorem no_lost_wakeup_again :
    ∃ k, (kernelSystem 2 downUp).Reachable k ∧ k.lk 0 = none ∧ k.state 1 = .sleeping ∧
      k.chan 1 = some 0 ∧ ¬ 0 < k.value 0 := by
  obtain ⟨l, k, hrun, hend⟩ := Runs.exists_of_events Kernel.move startedKernel (wakeups 0 1)
    (fun k => decide (k.lk 0 = none ∧ k.state 1 = .sleeping ∧ k.chan 1 = some 0))
    (by decide +kernel)
  have hk : (kernelSystem 2 downUp).Reachable k :=
    hrun.invariant (.of_start startedKernel_started) fun _ _ _ hreach hstep =>
      hreach.tail (KernelStep.of_move hstep)
  obtain ⟨hfree, hstate, hchan⟩ := of_decide_eq_true hend
  exact ⟨k, hk, hfree, hstate, hchan, fun hpos =>
    no_lost_wakeup hk 0 ⟨hfree, hpos, 1, hstate, hchan⟩⟩

end SistOp.Xv6
