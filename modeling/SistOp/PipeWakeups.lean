import SistOp.PipeTransfer

/-!
# Wakeups of a pipe

Nobody sleeps at a pipe that has what they wait for, unless a writer was killed in its loop: that
one returns without waking the readers for what it has written.
-/

namespace SistOp.Xv6

namespace PipeSystem

variable {n : ℕ} {s s' : PipeSystem n} {p q : Fin n} {src : List (Option UInt8)} {dst : List Bool}
  {i : ℕ} {pc : PipePc}

/-- Readers sleep only while there is nothing in the pipe and a writer may come. -/
def ReadersWait (s : PipeSystem n) : Prop :=
  ∀ p dst, s.pc p = .readSleep dst →
    s.pipe.nread = s.pipe.nwrite ∧ s.pipe.writeopen = true

/-- Writers sleep only while the pipe is full and a reader may come. -/
def WritersWait (s : PipeSystem n) : Prop :=
  ∀ p src i, s.pc p = .writeSleep src i →
    gap s.pipe.nread s.pipe.nwrite = PIPESIZE ∧ s.pipe.readopen = true

/-- A process on its way to waking the readers: it will get there as long as it is not killed. -/
def WillWakeReaders (s : PipeSystem n) (p : Fin n) : Prop :=
  match s.pc p with
  | .writeLoop _ _ => s.killed p = false
  | .writeEnd _ _ => True
  | _ => False

def WillWakeWriters (s : PipeSystem n) (p : Fin n) : Prop :=
  match s.pc p with
  | .readCopy _ _ | .readEnd _ _ => True
  | _ => False

/-- Who should not sleep any more will be woken by the process that has the lock. -/
structure Waits (s : PipeSystem n) : Prop where
  readers : s.ReadersWait ∨ ∃ p, s.WillWakeReaders p
  writers : s.WritersWait ∨ ∃ p, s.WillWakeWriters p

/-- No process is killed while it is in the loop of `pipewrite`. -/
def KillsOutside (s : PipeSystem n) : PipeEvent n → Prop
  | .kill p => ∀ src i, s.pc p ≠ .writeLoop src i
  | _ => True

theorem killsOutside_of_not_isKill {e : PipeEvent n} (h : (!isKill e) = true) :
    s.KillsOutside e := by
  cases e with
  | kill p => cases h
  | _ => trivial

theorem WillWakeReaders.holding (h : s.WillWakeReaders p) : (s.pc p).holding = true := by
  cases hp : s.pc p <;> simp [WillWakeReaders, hp, PipePc.holding] at h ⊢

theorem WillWakeWriters.holding (h : s.WillWakeWriters p) : (s.pc p).holding = true := by
  cases hp : s.pc p <;> simp [WillWakeWriters, hp, PipePc.holding] at h ⊢

theorem Waits.of_free (hinv : s.Inv) (h : s.Waits) (hfree : s.lock = none) :
    s.ReadersWait ∧ s.WritersWait := by
  have hnone : ∀ p, ¬ (s.pc p).holding = true := by
    intro p hp
    rw [← hinv.lock p, hfree] at hp
    cases hp
  exact ⟨h.readers.resolve_right fun ⟨p, hp⟩ => hnone p hp.holding,
    h.writers.resolve_right fun ⟨p, hp⟩ => hnone p hp.holding⟩

theorem Waits.readers_of_holding (hinv : s.Inv) (h : s.Waits) (hp : (s.pc p).holding = true) :
    s.ReadersWait ∨ s.WillWakeReaders p := by
  rcases h.readers with hwait | ⟨q, hq⟩
  · exact .inl hwait
  · have hlock := (hinv.lock q).mpr hq.holding
    rw [(hinv.lock p).mpr hp, Option.some.injEq] at hlock
    exact .inr (hlock ▸ hq)

theorem Waits.writers_of_holding (hinv : s.Inv) (h : s.Waits) (hp : (s.pc p).holding = true) :
    s.WritersWait ∨ s.WillWakeWriters p := by
  rcases h.writers with hwait | ⟨q, hq⟩
  · exact .inl hwait
  · have hlock := (hinv.lock q).mpr hq.holding
    rw [(hinv.lock p).mpr hp, Option.some.injEq] at hlock
    exact .inr (hlock ▸ hq)

/-- Fewer sleep, at the same pipe. -/
theorem ReadersWait.mono (h : s.ReadersWait) (hpipe : s'.pipe = s.pipe)
    (hpc : ∀ p dst, s'.pc p = .readSleep dst → s.pc p = .readSleep dst) : s'.ReadersWait := by
  intro p dst hp
  rw [hpipe]
  exact h p dst (hpc p dst hp)

theorem WritersWait.mono (h : s.WritersWait) (hpipe : s'.pipe = s.pipe)
    (hpc : ∀ p src i, s'.pc p = .writeSleep src i → s.pc p = .writeSleep src i) :
    s'.WritersWait := by
  intro p src i hp
  rw [hpipe]
  exact h p src i (hpc p src i hp)

theorem pc_of_goto {pc' : PipePc} (h : (s.goto p pc).pc q = pc') (hne : pc ≠ pc') :
    s.pc q = pc' := by
  by_cases hq : q = p
  · simp [goto, hq, hne] at h
  · simpa [goto, hq] using h

theorem pc_of_release {pc' : PipePc} (h : (s.release p pc).pc q = pc') (hne : pc ≠ pc') :
    s.pc q = pc' :=
  pc_of_goto (s := { s with lock := none }) h hne

theorem readersWait_wakeupReaders (s : PipeSystem n) : s.wakeupReaders.ReadersWait := by
  intro p dst hp
  cases hpc : s.pc p <;> simp [wakeupReaders, hpc, PipePc.wokenReader] at hp

theorem writersWait_wakeupWriters (s : PipeSystem n) : s.wakeupWriters.WritersWait := by
  intro p src i hp
  cases hpc : s.pc p <;> simp [wakeupWriters, hpc, PipePc.wokenWriter] at hp

theorem WritersWait.wakeupReaders (h : s.WritersWait) : s.wakeupReaders.WritersWait := by
  refine h.mono rfl fun p src i hp => ?_
  cases hpc : s.pc p <;> simp_all [PipeSystem.wakeupReaders, PipePc.wokenReader]

theorem ReadersWait.wakeupWriters (h : s.ReadersWait) : s.wakeupWriters.ReadersWait := by
  refine h.mono rfl fun p dst hp => ?_
  cases hpc : s.pc p <;> simp_all [PipeSystem.wakeupWriters, PipePc.wokenWriter]

theorem Waits.writeLoop (hinv : s.Inv) (h : s.Waits) (hp : s.pc p = .writeLoop src i) :
    (s.writeLoop p src i).Waits := by
  have hholding : (s.pc p).holding = true := by simp [hp, PipePc.holding]
  have hreaders := h.readers_of_holding hinv hholding
  have hwriters : s.WritersWait := by
    refine (h.writers_of_holding hinv hholding).resolve_right fun hwake => ?_
    simp [WillWakeWriters, hp] at hwake
  have hend : (s.goto p (.writeEnd src i)).Waits := by
    refine ⟨.inr ⟨p, ?_⟩, .inl (hwriters.mono rfl fun q src i hq => pc_of_goto hq (by simp))⟩
    simp [WillWakeReaders, goto]
  cases hbyte : src[i]? with
  | none =>
      simp only [PipeSystem.writeLoop, hbyte]
      exact hend
  | some byte =>
      simp only [PipeSystem.writeLoop, hbyte]
      split_ifs with hgone hfull
      · refine ⟨.inl ?_, .inl (hwriters.mono rfl fun q src i hq => pc_of_goto hq (by simp))⟩
        rcases hreaders with hwait | hwake
        · exact hwait.mono rfl fun q dst hq => pc_of_goto hq (by simp)
        · -- not killed, so the readers are gone
          simp only [WillWakeReaders, hp] at hwake
          have hclosed : s.pipe.readopen = false := by simpa [hwake] using hgone
          intro q dst hq
          have hslept : s.pc q = .readSleep dst := pc_of_goto hq (by simp)
          have hopen := hinv.readopen q
          rw [hslept] at hopen
          simp [hclosed, PipePc.reading] at hopen
      · refine ⟨.inl ?_, .inl ?_⟩
        · exact (readersWait_wakeupReaders s).mono rfl fun q dst hq =>
            pc_of_release hq (by simp)
        · intro q src' j hq
          by_cases hqp : q = p
          · rw [not_or] at hgone
            have hopen : s.pipe.readopen = true := by simpa using hgone.1
            exact ⟨(gap_eq_iff (by decide)).mpr hfull, hopen⟩
          · refine hwriters.wakeupReaders q src' j ?_
            simpa [PipeSystem.release, goto, hqp] using hq
      · cases byte with
        | none => exact hend
        | some ch =>
            rw [not_or] at hgone
            have halive : s.killed p = false := by simpa using hgone.2
            have hwake : ((s.put p ch).goto p (.writeLoop src (i + 1))).WillWakeReaders p := by
              simpa [WillWakeReaders, goto, PipeSystem.put] using halive
            refine ⟨.inr ⟨p, hwake⟩, .inl fun q src' j hq => ?_⟩
            have hslept := hwriters q src' j (pc_of_goto (s := s.put p ch) hq (by simp))
            exact absurd ((gap_eq_iff (by decide)).mp hslept.1) hfull

theorem Waits.writeEnd (hinv : s.Inv) (h : s.Waits) (hp : s.pc p = .writeEnd src i) :
    (s.wakeupReaders.release p (.user (some (.write src, i)))).Waits := by
  have hwriters : s.WritersWait := by
    have hholding : (s.pc p).holding = true := by simp [hp, PipePc.holding]
    refine (h.writers_of_holding hinv hholding).resolve_right fun hwake => ?_
    simp [WillWakeWriters, hp] at hwake
  refine ⟨.inl ?_, .inl ?_⟩
  · exact (readersWait_wakeupReaders s).mono rfl fun q dst hq =>
      pc_of_release hq (by simp)
  · exact hwriters.wakeupReaders.mono rfl fun q src i hq => pc_of_release hq (by simp)

theorem Waits.readLoop (hinv : s.Inv) (h : s.Waits) (hp : s.pc p = .readLoop dst) :
    (s.readLoop p dst).Waits := by
  have hholding : (s.pc p).holding = true := by simp [hp, PipePc.holding]
  have hreaders : s.ReadersWait := by
    refine (h.readers_of_holding hinv hholding).resolve_right fun hwake => ?_
    simp [WillWakeReaders, hp] at hwake
  have hwriters : s.WritersWait := by
    refine (h.writers_of_holding hinv hholding).resolve_right fun hwake => ?_
    simp [WillWakeWriters, hp] at hwake
  simp only [PipeSystem.readLoop]
  split_ifs with hwait hkilled
  · exact ⟨.inl (hreaders.mono rfl fun q dst hq => pc_of_goto hq (by simp)),
      .inl (hwriters.mono rfl fun q src i hq => pc_of_goto hq (by simp))⟩
  · refine ⟨.inl fun q dst' hq => ?_,
      .inl (hwriters.mono rfl fun q src i hq => pc_of_goto hq (by simp))⟩
    exact hwait
  · exact ⟨.inl (hreaders.mono rfl fun q dst hq => pc_of_goto hq (by simp)),
      .inl (hwriters.mono rfl fun q src i hq => pc_of_goto hq (by simp))⟩

theorem Waits.readCopy (hinv : s.Inv) (h : s.Waits) (hp : s.pc p = .readCopy dst i) :
    (s.readCopy p dst i).Waits := by
  have hreaders : s.ReadersWait := by
    have hholding : (s.pc p).holding = true := by simp [hp, PipePc.holding]
    refine (h.readers_of_holding hinv hholding).resolve_right fun hwake => ?_
    simp [WillWakeReaders, hp] at hwake
  have hend : (s.goto p (.readEnd dst i)).Waits := by
    refine ⟨.inl (hreaders.mono rfl fun q dst hq => pc_of_goto hq (by simp)), .inr ⟨p, ?_⟩⟩
    simp [WillWakeWriters, goto]
  cases hcopied : dst[i]? with
  | none =>
      simp only [PipeSystem.readCopy, hcopied]
      exact hend
  | some copied =>
      simp only [PipeSystem.readCopy, hcopied]
      by_cases hempty : s.pipe.nread = s.pipe.nwrite
      · rw [if_pos hempty]
        exact hend
      · rw [if_neg hempty]
        refine ⟨.inl fun q dst' hq => ?_, .inr ⟨p, ?_⟩⟩
        · have hslept := hreaders q dst' (pc_of_goto (s := s.take p) hq (by cases copied <;> simp))
          exact absurd hslept.1 hempty
        · cases copied <;> simp [WillWakeWriters, goto]

theorem Waits.readEnd (hinv : s.Inv) (h : s.Waits) (hp : s.pc p = .readEnd dst i) :
    (s.wakeupWriters.release p (.user (some (.read dst, i)))).Waits := by
  have hreaders : s.ReadersWait := by
    have hholding : (s.pc p).holding = true := by simp [hp, PipePc.holding]
    refine (h.readers_of_holding hinv hholding).resolve_right fun hwake => ?_
    simp [WillWakeReaders, hp] at hwake
  refine ⟨.inl ?_, .inl ?_⟩
  · exact hreaders.wakeupWriters.mono rfl fun q dst hq => pc_of_release hq (by simp)
  · exact (writersWait_wakeupWriters s).mono rfl fun q src i hq =>
      pc_of_release hq (by simp)

/-- A process that neither sleeps nor has the lock goes on to where it does neither, or takes the
lock. -/
theorem Waits.of_free_goto (hinv : s.Inv) (h : s.Waits) (hfree : s.lock = none)
    (hpc : ∀ dst, pc ≠ .readSleep dst) (hpc' : ∀ src i, pc ≠ .writeSleep src i)
    (lock : Option (Fin n)) (calls : Fin n → ℕ) :
    ({ s with lock := lock, calls := calls }.goto p pc).Waits := by
  obtain ⟨hreaders, hwriters⟩ := h.of_free hinv hfree
  exact ⟨.inl (hreaders.mono rfl fun q dst hq => pc_of_goto hq (hpc dst)),
    .inl (hwriters.mono rfl fun q src i hq => pc_of_goto hq (hpc' src i))⟩

theorem Waits.stepProc (hinv : s.Inv) (h : s.Waits) (hstep : s.stepProc p = some s') :
    s'.Waits := by
  cases hp : s.pc p with
  | user last | writeSleep src i | readSleep dst => simp [PipeSystem.stepProc, hp] at hstep
  | writeAcquire src i | readAcquire dst =>
      simp only [PipeSystem.stepProc, hp, PipeSystem.acquire, Option.ite_none_right_eq_some,
        Option.some.injEq] at hstep
      obtain ⟨hfree, rfl⟩ := hstep
      exact h.of_free_goto hinv hfree (by simp) (by simp) _ _
  | writeLoop src i =>
      simp only [PipeSystem.stepProc, hp, Option.some.injEq] at hstep
      exact hstep ▸ h.writeLoop hinv hp
  | writeEnd src i =>
      simp only [PipeSystem.stepProc, hp, Option.some.injEq] at hstep
      exact hstep ▸ h.writeEnd hinv hp
  | readLoop dst =>
      simp only [PipeSystem.stepProc, hp, Option.some.injEq] at hstep
      exact hstep ▸ h.readLoop hinv hp
  | readCopy dst i =>
      simp only [PipeSystem.stepProc, hp, Option.some.injEq] at hstep
      exact hstep ▸ h.readCopy hinv hp
  | readEnd dst i =>
      simp only [PipeSystem.stepProc, hp, Option.some.injEq] at hstep
      exact hstep ▸ h.readEnd hinv hp

theorem Waits.enter {c : PipeCall} {last : Option (PipeCall × ℤ)} (h : s.Waits)
    (hp : s.pc p = .user last) : (s.enter p c).Waits := by
  have hother : ∀ q, q ≠ p → (s.enter p c).pc q = s.pc q := fun q hq => Function.update_of_ne hq _ _
  constructor
  · rcases h.readers with hwait | ⟨q, hq⟩
    · refine .inl (hwait.mono rfl fun q dst hq => pc_of_goto hq ?_)
      cases c <;> simp [PipeCall.entry]
    · have hne : q ≠ p := by
        rintro rfl
        simp [WillWakeReaders, hp] at hq
      refine .inr ⟨q, ?_⟩
      rw [WillWakeReaders, hother q hne]
      exact hq
  · rcases h.writers with hwait | ⟨q, hq⟩
    · refine .inl (hwait.mono rfl fun q src i hq => pc_of_goto hq ?_)
      cases c <;> simp [PipeCall.entry]
    · have hne : q ≠ p := by
        rintro rfl
        simp [WillWakeWriters, hp] at hq
      refine .inr ⟨q, ?_⟩
      rw [WillWakeWriters, hother q hne]
      exact hq

theorem Waits.kill (h : s.Waits) (hp : ∀ src i, s.pc p ≠ .writeLoop src i) : (s.kill p).Waits := by
  have hself : (s.kill p).pc p = (s.pc p).woken := Function.update_self _ _ _
  have hother : ∀ q, q ≠ p → (s.kill p).pc q = s.pc q := fun q hq => Function.update_of_ne hq _ _
  have hwoken : ∀ q, (s.kill p).pc q = s.pc q ∨ (s.kill p).pc q = (s.pc q).woken := by
    intro q
    by_cases hq : q = p
    · exact .inr (hq ▸ hself)
    · exact .inl (hother q hq)
  constructor
  · rcases h.readers with hwait | ⟨q, hq⟩
    · refine .inl (hwait.mono rfl fun q dst hq => ?_)
      rcases hwoken q with hpc | hpc
      · rwa [hpc] at hq
      · cases hpcq : s.pc q <;> simp [hpc, hpcq, PipePc.woken] at hq
    · refine .inr ⟨q, ?_⟩
      by_cases hqp : q = p
      · subst hqp
        cases hpc : s.pc q <;> simp [WillWakeReaders, hself, hpc, PipePc.woken] at hq hp ⊢
      · rw [WillWakeReaders, hother q hqp]
        simpa [WillWakeReaders, PipeSystem.kill, goto, hqp] using hq
  · rcases h.writers with hwait | ⟨q, hq⟩
    · refine .inl (hwait.mono rfl fun q src i hq => ?_)
      rcases hwoken q with hpc | hpc
      · rwa [hpc] at hq
      · cases hpcq : s.pc q <;> simp [hpc, hpcq, PipePc.woken] at hq
    · refine .inr ⟨q, ?_⟩
      by_cases hqp : q = p
      · subst hqp
        cases hpc : s.pc q <;> simp [WillWakeWriters, hself, hpc, PipePc.woken] at hq ⊢
      · rw [WillWakeWriters, hother q hqp]
        exact hq

theorem Waits.pipeclose (hinv : s.Inv) (h : s.Waits) (hfree : s.lock = none) (writable : Bool) :
    (s.pipeclose writable).Waits := by
  obtain ⟨hreaders, hwriters⟩ := h.of_free hinv hfree
  cases writable with
  | true =>
      refine ⟨.inl ?_, .inl ?_⟩
      · intro q dst hq
        cases hpc : s.pc q <;>
          simp [PipeSystem.pipeclose, wakeupReaders, hpc, PipePc.wokenReader] at hq
      · intro q src i hq
        refine hwriters q src i ?_
        cases hpc : s.pc q <;>
          simp_all [PipeSystem.pipeclose, wakeupReaders, PipePc.wokenReader]
  | false =>
      refine ⟨.inl ?_, .inl ?_⟩
      · intro q dst hq
        refine hreaders q dst ?_
        cases hpc : s.pc q <;>
          simp_all [PipeSystem.pipeclose, wakeupWriters, PipePc.wokenWriter]
      · intro q src i hq
        cases hpc : s.pc q <;>
          simp [PipeSystem.pipeclose, wakeupWriters, hpc, PipePc.wokenWriter] at hq

theorem Waits.step {e : PipeEvent n} (hinv : s.Inv) (h : s.Waits) (he : s.KillsOutside e)
    (hstep : s.Step e s') : s'.Waits := by
  cases e with
  | call p c =>
      cases hp : s.pc p with
      | user last =>
          cases c <;> simp only [Step, act, hp, Option.ite_none_right_eq_some,
            Option.some.injEq] at hstep <;> exact hstep.2 ▸ h.enter hp
      | _ => simp [Step, act, hp] at hstep
  | step p => exact h.stepProc hinv hstep
  | kill p => exact Option.some.inj hstep ▸ h.kill he
  | close writable =>
      cases writable <;> simp only [Step, act, Option.ite_none_right_eq_some,
        Option.some.injEq] at hstep <;> exact hstep.2 ▸ h.pipeclose hinv hstep.1.1 _

section Runs

variable {data : ℕ → UInt8} {l : List (PipeEvent n × PipeSystem n)}

theorem waits_of_runs
    (h : Runs (fun s e s' => Step s e s' ∧ s.KillsOutside e) (pipealloc data) l s) : s.Waits := by
  induction h with
  | nil =>
      exact ⟨.inl fun p dst hp => by simp [pipealloc] at hp,
        .inl fun p src i hp => by simp [pipealloc] at hp⟩
  | snoc hrun hstep ih =>
      exact ih.step (inv_of_runs (hrun.mono fun _ _ _ h => h.1)) hstep.2 hstep.1

/-- When nobody has the lock, a sleeping reader has nothing to read and a sleeping writer no
room, so that the two never sleep at once; no process is to be killed in the loop of
`pipewrite`. -/
theorem pipe_asleep
    (h : Runs (fun s e s' => Step s e s' ∧ s.KillsOutside e) (pipealloc data) l s)
    (hfree : s.lock = none) :
    (∀ p dst, s.pc p = .readSleep dst → s.contents = [] ∧ s.pipe.writeopen = true) ∧
      (∀ p src i, s.pc p = .writeSleep src i →
        s.contents.length = PIPESIZE ∧ s.pipe.readopen = true) ∧
      ∀ p q dst src i, s.pc p = .readSleep dst → s.pc q ≠ .writeSleep src i := by
  have hinv := inv_of_runs (h.mono fun _ _ _ h => h.1)
  obtain ⟨hreaders, hwriters⟩ := (waits_of_runs h).of_free hinv hfree
  refine ⟨fun p dst hp => ?_, fun p src i hp => ?_, fun p q dst src i hp hq => ?_⟩
  · obtain ⟨hempty, hopen⟩ := hreaders p dst hp
    exact ⟨by simp [contents, hempty], hopen⟩
  · obtain ⟨hfull, hopen⟩ := hwriters p src i hp
    exact ⟨length_segment.trans hfull, hopen⟩
  · have hempty := (hreaders p dst hp).1
    have hfull := (hwriters q src i hq).1
    rw [hempty, gap_self] at hfull
    cases hfull

theorem pipe_asleep_reader : ∃ s : PipeSystem 2, s.pc 1 = .readSleep [true] ∧
    s.contents = [] ∧ s.pipe.writeopen = true := by
  obtain ⟨l, s, hrun, hend⟩ := Runs.exists_of_events_if act (fun _ e => !isKill e)
    (pipealloc fun _ => 0) [.call 1 (.read [true]), .step 1, .step 1]
    (fun s : PipeSystem 2 => decide (s.lock = none ∧ s.pc 1 = .readSleep [true]))
    (by decide +kernel)
  obtain ⟨hfree, hp⟩ := of_decide_eq_true hend
  have hsteps := hrun.mono fun s e s' h => (⟨h.1, killsOutside_of_not_isKill h.2⟩ :
    Step s e s' ∧ s.KillsOutside e)
  exact ⟨s, hp, (pipe_asleep hsteps hfree).1 1 [true] hp⟩

/-- Killed between two bytes, the writer leaves a reader asleep beside the first. -/
theorem exists_asleep_beside_byte : ∃ l, ∃ s : PipeSystem 2,
    Runs Step (pipealloc fun _ => 0) l s ∧ s.lock = none ∧ s.pc 1 = .readSleep [true] ∧
      s.contents = [7] := by
  obtain ⟨l, s, hrun, hend⟩ := Runs.exists_of_events act (pipealloc fun _ => 0)
    [.call 1 (.read [true]), .step 1, .step 1, .call 0 (.write [some 7, some 8]), .step 0, .step 0,
      .kill 0, .step 0]
    (fun s : PipeSystem 2 => decide (s.lock = none ∧ s.pc 1 = .readSleep [true] ∧
      s.contents = [7])) (by decide +kernel)
  exact ⟨l, s, hrun, of_decide_eq_true hend⟩

end Runs

end PipeSystem

end SistOp.Xv6
