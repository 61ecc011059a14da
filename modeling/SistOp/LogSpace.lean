import SistOp.LogRecovery

/-!
# The space in the log

How many blocks an operation may log without a `panic`, and that nobody sleeps in `begin_op`
once there is room.
-/

namespace SistOp.Xv6

/-- What an operation that may log 9 blocks has left of them. -/
def Standing.left : Standing → ℕ
  | .inOp logged _ => MAXOPBLOCKS - 1 - logged.card
  | _ => 0

@[simp] theorem Standing.left_inOp (logged changed : Finset ℕ) :
    (Standing.inOp logged changed).left = MAXOPBLOCKS - 1 - logged.card := rfl

namespace Fs

variable {n : ℕ} {sb : Superblock} {fs fs' : Fs n} {store : AtomicStore ℕ BlockData} {p q : Fin n}
  {b k : ℕ}

/-! ## The wait in `begin_op` -/

/-- What makes `begin_op` wait. -/
def MustWait (fs : Fs n) : Prop :=
  fs.log.committing = true ∨
    LOGSIZE < fs.log.lh.n + (fs.log.outstanding + 1) * MAXOPBLOCKS

/-- Who sleeps in `begin_op` would have to wait again. -/
def SleepersWait (fs : Fs n) : Prop := ∀ p, fs.standing p = .asleep → fs.MustWait

theorem not_asleep_wakeup : fs.wakeup.standing p ≠ .asleep := by
  by_cases h : fs.standing p = .asleep <;> simp [wakeup, h]

theorem standing_wakeup (h : fs.standing p ≠ .asleep) : fs.wakeup.standing p = fs.standing p :=
  if_neg h

theorem asleep_of_setStanding {standing : Standing}
    (h : (fs.setStanding p standing).standing q = .asleep) (hstanding : standing ≠ .asleep) :
    fs.standing q = .asleep := by
  by_cases hq : q = p
  · simp [setStanding, hq, hstanding] at h
  · simpa [setStanding, hq] using h

theorem SleepersWait.beginOp (h : fs.SleepersWait) : (fs.beginOp p).SleepersWait := by
  simp only [Fs.beginOp]
  split_ifs with hcommitting hroom
  · exact fun _ _ => .inl hcommitting
  · exact fun _ _ => .inr hroom
  · intro q hq
    rcases h q (asleep_of_setStanding hq (by simp)) with hwait | hwait
    · exact .inl hwait
    · refine .inr (hwait.trans_le ?_)
      change _ ≤ fs.log.lh.n + (fs.log.outstanding + 1 + 1) * MAXOPBLOCKS
      gcongr
      omega

theorem SleepersWait.logWrite {logged changed : Finset ℕ} (h : fs.SleepersWait) :
    (fs.logWrite sb p logged changed b).SleepersWait := by
  simp only [Fs.logWrite]
  split_ifs
  · exact h
  · exact h
  · intro q hq
    rcases h q (asleep_of_setStanding hq (by simp)) with hwait | hwait
    · exact .inl hwait
    · refine .inr (hwait.trans_le ?_)
      change _ ≤ fs.log.lh.n + 1 + (fs.log.outstanding + 1) * MAXOPBLOCKS
      omega
  · intro q hq
    exact h q (asleep_of_setStanding hq (by simp))

/-- With less outstanding there may be room, and all are woken; the last leaves a commit. -/
theorem SleepersWait.endOp (hpanic : (fs.endOp p).panic = none) : (fs.endOp p).SleepersWait := by
  simp only [Fs.endOp] at hpanic ⊢
  split_ifs at hpanic ⊢
  · exact fun _ _ => .inl rfl
  · exact fun q hq => absurd hq not_asleep_wakeup

theorem SleepersWait.congr (h : fs.SleepersWait)
    (hasleep : ∀ p, fs'.standing p = .asleep → fs.standing p = .asleep)
    (hlog : fs'.log = fs.log) : fs'.SleepersWait := by
  intro p hp
  simpa [MustWait, hlog] using h p (hasleep p hp)

/-- Between `end_op` and the end of its commit, nobody has to be woken. -/
theorem SleepersWait.of_committing (h : fs.log.committing = true) : fs.SleepersWait :=
  fun _ _ => .inl h

theorem commitStep_frame (h : fs.commitStep sb p = some fs') : fs.pc ≠ .idle ∧
    (fs' = fs.endCommit p ∨ fs'.standing = fs.standing ∧
      fs'.log.committing = fs.log.committing ∧ fs'.panic = fs.panic) := by
  cases hpc : fs.pc <;> simp only [Fs.commitStep, hpc] at h
  case commit =>
    obtain rfl := Option.some.inj h
    exact ⟨by simp, .inr ⟨rfl, rfl, rfl⟩⟩
  case endCommit =>
    obtain rfl := Option.some.inj h
    exact ⟨by simp, .inl rfl⟩
  case writeLog | installTrans | eraseHead =>
    split_ifs at h <;> exact Option.some.inj h ▸ ⟨by simp, .inr ⟨rfl, rfl, rfl⟩⟩
  all_goals cases h

theorem SleepersWait.commitStep (hup : fs.Up sb store)
    (hstep : fs.commitStep sb p = some fs') : fs'.SleepersWait := by
  obtain ⟨hbusy, rfl | ⟨-, hcommitting, -⟩⟩ := commitStep_frame hstep
  · exact fun q hq => absurd hq not_asleep_wakeup
  · exact .of_committing (hcommitting.trans (hup.committing.mpr hbusy))

theorem SleepersWait.stepUp {e : LogEvent n} (hup : fs.Up sb store) (h : fs.SleepersWait)
    (hstep : fs.stepUp sb e = some fs') (hpanic : fs'.panic = none) : fs'.SleepersWait := by
  cases e with
  | beginOp p =>
      simp only [Fs.stepUp, Option.ite_none_right_eq_some, Option.some.injEq] at hstep
      exact hstep.2 ▸ h.beginOp
  | bread p b | brelse p b | evict b =>
      simp only [Fs.stepUp, Option.ite_none_right_eq_some, Option.some.injEq] at hstep
      exact hstep.2 ▸ h.congr (fun _ => id) rfl
  | modify p b data =>
      simp only [Fs.stepUp] at hstep
      split at hstep
      · rw [Option.ite_none_right_eq_some, Option.some.injEq] at hstep
        exact hstep.2 ▸ h.congr (fun q hq => asleep_of_setStanding hq (by simp)) rfl
      · cases hstep
  | logWrite p b =>
      simp only [Fs.stepUp] at hstep
      split at hstep
      · rw [Option.ite_none_right_eq_some, Option.some.injEq] at hstep
        exact hstep.2 ▸ h.logWrite
      · cases hstep
  | endOp p =>
      simp only [Fs.stepUp] at hstep
      split at hstep
      · rw [Option.ite_none_right_eq_some, Option.some.injEq] at hstep
        obtain ⟨-, rfl⟩ := hstep
        exact .endOp hpanic
      · cases hstep
  | commit p =>
      simp only [Fs.stepUp, Option.ite_none_right_eq_some] at hstep
      exact .commitStep hup hstep.2
  | writeHead p =>
      simp only [Fs.stepUp, Option.ite_none_right_eq_some, Option.some.injEq] at hstep
      obtain ⟨⟨-, hpc, -⟩, rfl⟩ := hstep
      exact .of_committing (hup.committing.mpr (by simp [hpc]))
  | recover | crash => simp [Fs.stepUp] at hstep

theorem recoverStep_frame (h : fs.recoverStep sb = some fs') :
    fs'.standing = fs.standing ∧ fs'.log.committing = fs.log.committing ∧
      fs'.panic = fs.panic := by
  cases hpc : fs.pc <;> simp only [Fs.recoverStep, hpc] at h
  case recoverTrans tail =>
    split_ifs at h <;> exact Option.some.inj h ▸ ⟨rfl, rfl, rfl⟩
  all_goals first
    | obtain rfl := Option.some.inj h
      exact ⟨rfl, rfl, rfl⟩
    | cases h

theorem booting_of_recoverStep (h : fs.recoverStep sb = some fs') : fs.pc.booting = true := by
  cases hpc : fs.pc <;> simp [Fs.recoverStep, hpc, LogPc.booting] at h ⊢

theorem SleepersWait.step {e : LogEvent n} (hinv : fs.Recoverable sb store)
    (h : fs.panic = none → fs.SleepersWait) (hstep : fs.Step sb e fs')
    (hpanic : fs'.panic = none) : fs'.SleepersWait := by
  cases e with
  | crash =>
      obtain rfl := Option.some.inj hstep
      exact fun q hq => absurd hq (by simp [powerOn])
  | recover =>
      simp only [Step, Fs.step, Option.ite_none_right_eq_some] at hstep
      obtain ⟨hup, hstep⟩ := hstep
      intro q hq
      rw [(recoverStep_frame hstep).1, (hinv.boot hup (booting_of_recoverStep hstep)).user] at hq
      cases hq
  | _ =>
      simp only [Step, Fs.step, Option.ite_none_right_eq_some] at hstep
      obtain ⟨⟨hup, hboot⟩, hstep⟩ := hstep
      exact .stepUp (hinv.up hup hboot) (h hup) hstep hpanic

/-! ## The process in `commit` -/

/-- While a commit is in progress, there is a process to finish it. -/
def HasCommitter (fs : Fs n) : Prop :=
  fs.log.committing = true → ∃ p, fs.standing p = .committing

theorem HasCommitter.congr (h : fs.HasCommitter) (hlog : fs'.log.committing = fs.log.committing)
    (hstanding : ∀ q, fs.standing q = .committing → fs'.standing q = .committing) :
    fs'.HasCommitter := by
  intro hcommitting
  obtain ⟨q, hq⟩ := h (hlog ▸ hcommitting)
  exact ⟨q, hstanding q hq⟩

theorem committing_setStanding {standing : Standing} (hp : fs.standing p ≠ .committing)
    (hq : fs.standing q = .committing) : (fs.setStanding p standing).standing q = .committing := by
  have hne : q ≠ p := by
    rintro rfl
    exact hp hq
  simpa [setStanding, hne] using hq

theorem HasCommitter.commitStep (hp : fs.standing p = .committing)
    (hstep : fs.commitStep sb p = some fs') : fs'.HasCommitter := by
  obtain ⟨-, rfl | ⟨hstanding, -, -⟩⟩ := commitStep_frame hstep
  · exact fun hcommitting => absurd hcommitting Bool.false_ne_true
  · exact fun _ => ⟨p, hstanding ▸ hp⟩

theorem HasCommitter.stepUp {e : LogEvent n} (h : fs.HasCommitter)
    (hstep : fs.stepUp sb e = some fs') : fs'.HasCommitter := by
  cases e with
  | beginOp p =>
      simp only [Fs.stepUp, Option.ite_none_right_eq_some, Option.some.injEq] at hstep
      obtain ⟨hp, rfl⟩ := hstep
      have hne : fs.standing p ≠ .committing := by
        rcases hp with hp | hp <;> simp [hp]
      simp only [Fs.beginOp]
      split_ifs <;> exact h.congr rfl fun q hq => committing_setStanding hne hq
  | bread p b | brelse p b | evict b =>
      simp only [Fs.stepUp, Option.ite_none_right_eq_some, Option.some.injEq] at hstep
      exact hstep.2 ▸ h.congr rfl fun _ => id
  | modify p b data =>
      simp only [Fs.stepUp] at hstep
      split at hstep
      · next hp =>
          rw [Option.ite_none_right_eq_some, Option.some.injEq] at hstep
          exact hstep.2 ▸ h.congr rfl fun q hq => committing_setStanding (by simp [hp]) hq
      · cases hstep
  | logWrite p b =>
      simp only [Fs.stepUp] at hstep
      split at hstep
      · next hp =>
          rw [Option.ite_none_right_eq_some, Option.some.injEq] at hstep
          obtain ⟨-, rfl⟩ := hstep
          have hne : fs.standing p ≠ .committing := by simp [hp]
          simp only [Fs.logWrite]
          split_ifs
          · exact h
          · exact h
          · exact h.congr rfl fun q hq => committing_setStanding hne hq
          · exact h.congr rfl fun q hq => committing_setStanding hne hq
      · cases hstep
  | endOp p =>
      simp only [Fs.stepUp] at hstep
      split at hstep
      · next hp =>
          rw [Option.ite_none_right_eq_some, Option.some.injEq] at hstep
          obtain ⟨-, rfl⟩ := hstep
          have hne : fs.standing p ≠ .committing := by simp [hp]
          simp only [Fs.endOp]
          split_ifs
          · exact h
          · exact fun _ => ⟨p, by simp [setStanding]⟩
          · refine h.congr rfl fun q hq => ?_
            have hkept : (fs.setStanding p .user).standing q = .committing :=
              committing_setStanding hne hq
            have hawake : (fs.setStanding p .user).standing q ≠ .asleep := by simp [hkept]
            exact (standing_wakeup hawake).trans hkept
      · cases hstep
  | commit p =>
      simp only [Fs.stepUp, Option.ite_none_right_eq_some] at hstep
      exact .commitStep hstep.1 hstep.2
  | writeHead p =>
      simp only [Fs.stepUp, Option.ite_none_right_eq_some, Option.some.injEq] at hstep
      exact hstep.2 ▸ h.congr rfl fun _ => id
  | recover | crash => simp [Fs.stepUp] at hstep

theorem HasCommitter.step {e : LogEvent n} (h : fs.HasCommitter) (hstep : fs.Step sb e fs') :
    fs'.HasCommitter := by
  cases e with
  | crash =>
      obtain rfl := Option.some.inj hstep
      exact fun hcommitting => absurd hcommitting Bool.false_ne_true
  | recover =>
      simp only [Step, Fs.step, Option.ite_none_right_eq_some] at hstep
      obtain ⟨hup, hstep⟩ := hstep
      obtain ⟨hstanding, hlog, -⟩ := recoverStep_frame hstep
      refine h.congr hlog fun q hq => ?_
      rwa [hstanding]
  | _ =>
      simp only [Step, Fs.step, Option.ite_none_right_eq_some] at hstep
      exact h.stepUp hstep.2

section Runs

variable {disk : ℕ → BlockData} {l : List (LogEvent n × Fs n)}

theorem waiting_of_runs (hvalid : sb.ValidHeader disk)
    (h : Runs (Step sb) (powerOn disk) l fs) :
    (fs.panic = none → fs.SleepersWait) ∧ fs.HasCommitter := by
  induction h with
  | nil => exact ⟨fun _ p hp => absurd hp (by simp [powerOn]), fun h => absurd h Bool.false_ne_true⟩
  | snoc hrun hstep ih =>
      have hinv := recoverable_of_runs hvalid hrun
      exact ⟨fun hpanic => .step hinv ih.1 hstep hpanic, ih.2.step hstep⟩

/-- No wakeup of `begin_op` is lost: a process that sleeps there would still not be let in, and
there is an operation or a commit whose end will wake it. -/
theorem mustWait_of_asleep (hvalid : sb.ValidHeader disk)
    (h : Runs (Step sb) (powerOn disk) l fs) (hpanic : fs.panic = none)
    (hp : fs.standing p = .asleep) : fs.MustWait ∧
      ∃ q, (fs.standing q).running = true ∨ fs.standing q = .committing := by
  obtain ⟨hwait, hcommitter⟩ := waiting_of_runs hvalid h
  have hinv := recoverable_of_runs hvalid h
  refine ⟨hwait hpanic p hp, ?_⟩
  rcases hwait hpanic p hp with hcommitting | hroom
  · obtain ⟨q, hq⟩ := hcommitter hcommitting
    exact ⟨q, .inr hq⟩
  · have hboot : fs.pc.booting = false := by
      rw [Bool.eq_false_iff]
      intro hboot
      rw [(hinv.boot hpanic hboot).user p] at hp
      cases hp
    have hup := hinv.up hpanic hboot
    by_cases hidle : fs.pc = .idle
    · have hout : fs.log.outstanding ≠ 0 := by
        intro hzero
        rw [hup.outstanding_idle hidle hzero, hzero] at hroom
        exact absurd hroom (by decide)
      rw [hup.count, Finset.card_ne_zero] at hout
      obtain ⟨q, hq⟩ := hout
      exact ⟨q, .inl (Finset.mem_filter.mp hq).2⟩
    · obtain ⟨q, hq⟩ := hcommitter (hup.committing.mpr hidle)
      exact ⟨q, .inr hq⟩

/-- A fourth operation cannot begin beside three. -/
theorem mustWait_of_asleep_fourth : ∃ fs : Fs 4, fs.standing 3 = .asleep ∧ fs.MustWait ∧
    ∃ q, (fs.standing q).running = true ∨ fs.standing q = .committing := by
  obtain ⟨l, fs, hrun, hend⟩ := Runs.exists_of_events (Fs.step mkfsSuperblock)
    (powerOn fun _ _ => 0 : Fs 4)
    (.replicate 3 .recover ++ [.beginOp 0, .beginOp 1, .beginOp 2, .beginOp 3])
    (fun fs => decide (fs.panic = none ∧ fs.standing 3 = .asleep)) (by decide +kernel)
  obtain ⟨hpanic, hasleep⟩ := of_decide_eq_true hend
  exact ⟨fs, hasleep,
    mustWait_of_asleep validHeader_zero hrun hpanic hasleep⟩

end Runs

/-! ## Reserved blocks -/

/-- The blocks that an operation has logged once it has logged this one. -/
def logs (fs : Fs n) : LogEvent n → Finset ℕ
  | .logWrite p b => insert b (fs.standing p).logged
  | _ => ∅

/-- An operation that logs a block has logged at most `k` different ones. -/
def Within (k : ℕ) (fs : Fs n) (e : LogEvent n) : Prop := (fs.logs e).card ≤ k

instance (k : ℕ) (fs : Fs n) (e : LogEvent n) : Decidable (fs.Within k e) :=
  Nat.decLe _ _

/-- What the running operations may still log fits in the log. -/
structure Roomy (fs : Fs n) : Prop where
  logged : ∀ p, ∀ b ∈ (fs.standing p).logged, b ∈ fs.log.lh.entries
  room : (∃ p, (fs.standing p).running = true) →
    fs.log.lh.n + ∑ p, (fs.standing p).left ≤ LOGSIZE - 2

theorem sum_left_setStanding (fs : Fs n) (p : Fin n) (standing : Standing) :
    (∑ q, ((fs.setStanding p standing).standing q).left) + (fs.standing p).left =
      (∑ q, (fs.standing q).left) + standing.left := by
  have hrest : ∑ q ∈ Finset.univ.erase p, ((fs.setStanding p standing).standing q).left =
      ∑ q ∈ Finset.univ.erase p, (fs.standing q).left := by
    apply Finset.sum_congr rfl
    intro q hq
    simp [setStanding, Finset.ne_of_mem_erase hq]
  rw [← Finset.sum_erase_add _ _ (Finset.mem_univ p), hrest,
    ← Finset.sum_erase_add _ (fun q => (fs.standing q).left) (Finset.mem_univ p)]
  simp [setStanding]
  omega

theorem left_of_not_running (h : (fs.standing p).running = false) : (fs.standing p).left = 0 := by
  cases hp : fs.standing p <;> simp [hp, Standing.running, Standing.left] at h ⊢

theorem logged_of_not_running (h : (fs.standing p).running = false) :
    (fs.standing p).logged = ∅ := by
  cases hp : fs.standing p <;> simp [hp, Standing.running, Standing.logged] at h ⊢

/-- Each running operation has room for nine blocks reserved, or less. -/
theorem sum_left_le (fs : Fs n) : ∑ p, (fs.standing p).left ≤
    (Finset.univ.filter fun p => (fs.standing p).running = true).card * (MAXOPBLOCKS - 1) := by
  rw [← smul_eq_mul, ← Finset.sum_const, Finset.sum_filter]
  apply Finset.sum_le_sum
  intro p _
  cases hp : fs.standing p <;> simp [Standing.left, Standing.running]

theorem Roomy.of_not_running (h : ∀ p, (fs.standing p).running = false) : fs.Roomy where
  logged p b hb := by simp [logged_of_not_running (h p)] at hb
  room := by simp [h]

theorem Roomy.congr (h : fs.Roomy) (hstanding : ∀ p, (fs'.standing p).running =
      (fs.standing p).running ∧ (fs'.standing p).logged = (fs.standing p).logged ∧
        (fs'.standing p).left = (fs.standing p).left)
    (hlh : fs'.log.lh = fs.log.lh) : fs'.Roomy where
  logged p b hb := by
    rw [(hstanding p).2.1] at hb
    exact hlh ▸ h.logged p b hb
  room := by
    simpa only [hstanding, hlh] using h.room

theorem Roomy.beginOp (h : fs.Roomy) (hup : fs.Up sb store)
    (hp : (fs.standing p).running = false) : (fs.beginOp p).Roomy := by
  have hasleep : (fs.setStanding p .asleep).Roomy := by
    refine h.congr (fun q => ?_) rfl
    by_cases hq : q = p
    · rw [hq, hp, logged_of_not_running hp, left_of_not_running hp]
      simp [setStanding, Standing.running, Standing.logged, Standing.left]
    · simp [setStanding, hq]
  simp only [Fs.beginOp]
  split_ifs with hcommitting hroom
  · exact hasleep
  · exact hasleep
  · constructor
    · intro q b hb
      by_cases hq : q = p
      · simp [setStanding, hq, Standing.logged] at hb
      · exact h.logged q b (by simpa [setStanding, hq] using hb)
    · intro _
      have hidle : fs.pc = .idle := by
        by_contra hpc
        exact hcommitting (hup.committing.mpr hpc)
      have hempty := hup.outstanding_idle hidle
      have hsum := sum_left_setStanding fs p (.inOp ∅ ∅)
      have hle := sum_left_le fs
      rw [← hup.count] at hle
      rw [left_of_not_running hp] at hsum
      change fs.log.lh.n + ∑ q, ((fs.setStanding p (.inOp ∅ ∅)).standing q).left ≤ _
      simp only [Standing.left_inOp, Finset.card_empty, MAXOPBLOCKS, LOGSIZE] at hsum hle hroom ⊢
      omega

theorem Roomy.logWrite {logged changed : Finset ℕ} (h : fs.Roomy) (hup : fs.Up sb store)
    (hsize : LOGSIZE ≤ sb.nlog) (hpanic : fs.panic = none)
    (hp : fs.standing p = .inOp logged changed)
    (hlimit : (insert b logged).card ≤ MAXOPBLOCKS - 1) :
    (fs.logWrite sb p logged changed b).panic = none ∧
      (fs.logWrite sb p logged changed b).Roomy := by
  have hrun : (fs.standing p).running = true := by simp [hp, Standing.running]
  have hout : ¬ fs.log.outstanding < 1 := by
    rw [not_lt, Nat.one_le_iff_ne_zero, hup.count, Finset.card_ne_zero]
    exact ⟨p, by simp [hrun]⟩
  have hroom := h.room ⟨p, hrun⟩
  have hspace : ¬ (LOGSIZE ≤ fs.log.lh.n ∨ sb.nlog - 1 ≤ fs.log.lh.n) := by
    simp only [LOGSIZE, MAXOPBLOCKS] at hsize hroom ⊢
    omega
  have hsum := sum_left_setStanding fs p (.inOp (insert b logged) (changed.erase b))
  rw [hp, Standing.left_inOp, Standing.left_inOp] at hsum
  have hlogged : ∀ c ∈ logged, c ∈ fs.log.lh.entries := by
    simpa [hp, Standing.logged] using h.logged p
  rw [Fs.logWrite, if_neg hspace, if_neg hout]
  by_cases hmem : b ∈ fs.log.lh.entries
  · have hfind := (Logheader.find_of_mem hmem).1.ne
    simp only [hfind, if_false, Logheader.update_find hmem]
    refine ⟨hpanic, fun q c hc => ?_, fun _ => ?_⟩
    · by_cases hq : q = p
      · simp only [setStanding, hq, Function.update_self, Standing.logged,
          Finset.mem_insert] at hc
        rcases hc with rfl | hc
        · exact hmem
        · exact hlogged c hc
      · exact h.logged q c (by simpa [setStanding, hq, setLh] using hc)
    · have hcard := Finset.card_le_card (Finset.subset_insert b logged)
      change fs.log.lh.n + ∑ q, ((fs.setStanding p _).standing q).left ≤ _
      omega
  · have hfind := Logheader.find_of_notMem hmem
    have hentries := Logheader.entries_push hmem
    simp only [hfind, if_true] at hentries ⊢
    refine ⟨hpanic, fun q c hc => ?_, fun _ => ?_⟩
    · change c ∈ Logheader.entries ⟨fs.log.lh.n + 1, Function.update fs.log.lh.block _ b⟩
      rw [hentries, List.mem_append, List.mem_singleton]
      by_cases hq : q = p
      · simp only [setStanding, hq, Function.update_self, Standing.logged,
          Finset.mem_insert] at hc
        exact hc.symm.imp_left (hlogged c)
      · exact .inl (h.logged q c (by simpa [setStanding, hq, setLh, bpin] using hc))
    · have hnew : b ∉ logged := fun hb => hmem (hlogged b hb)
      rw [Finset.card_insert_of_notMem hnew] at hlimit hsum
      change fs.log.lh.n + 1 + ∑ q, ((fs.setStanding p _).standing q).left ≤ _
      omega

theorem Roomy.wakeup (h : fs.Roomy) : fs.wakeup.Roomy := by
  refine h.congr (fun p => ?_) rfl
  by_cases hp : fs.standing p = .asleep
  · simp [Fs.wakeup, hp, Standing.running, Standing.logged, Standing.left]
  · simp [standing_wakeup hp]

theorem Roomy.endOp {logged : Finset ℕ} (h : fs.Roomy) (hup : fs.Up sb store)
    (hpanic : fs.panic = none) (hp : fs.standing p = .inOp logged ∅) :
    (fs.endOp p).panic = none ∧ (fs.endOp p).Roomy := by
  have hrun : (fs.standing p).running = true := by simp [hp, Standing.running]
  have hcommitting : ¬ fs.log.committing = true := by
    rw [hup.committing, hup.idle_of_running hrun]
    simp
  have hkept : (fs.endOp p).panic = none := by
    simp only [Fs.endOp, if_neg hcommitting]
    split_ifs <;> exact hpanic
  refine ⟨hkept, ?_⟩
  by_cases hlast : (fs.endOp p).pc = .idle
  · simp only [Fs.endOp, if_neg hcommitting] at hlast ⊢
    split_ifs at hlast ⊢
    · cases hlast
    · refine Roomy.wakeup ⟨fun q b hb => ?_, fun _ => ?_⟩
      · by_cases hq : q = p
        · simp [setStanding, hq, Standing.logged] at hb
        · exact h.logged q b (by simpa [setStanding, hq] using hb)
      · have hroom := h.room ⟨p, hrun⟩
        have hsum := sum_left_setStanding fs p .user
        have huser : Standing.user.left = 0 := rfl
        change fs.log.lh.n + ∑ q, ((fs.setStanding p .user).standing q).left ≤ _
        omega
  · exact .of_not_running ((hup.endOp hp hkept).quiet hlast)

theorem Roomy.stepUp {e : LogEvent n} (hsize : LOGSIZE ≤ sb.nlog) (hup : fs.Up sb store)
    (h : fs.Roomy) (hpanic : fs.panic = none) (hlimit : fs.Within (MAXOPBLOCKS - 1) e)
    (hstep : fs.stepUp sb e = some fs') : fs'.panic = none ∧ fs'.Roomy := by
  cases e with
  | beginOp p =>
      simp only [Fs.stepUp, Option.ite_none_right_eq_some, Option.some.injEq] at hstep
      obtain ⟨hp, rfl⟩ := hstep
      refine ⟨?_, h.beginOp hup ?_⟩
      · simp only [Fs.beginOp]
        split_ifs <;> exact hpanic
      · rcases hp with hp | hp <;> simp [hp, Standing.running]
  | bread p b | brelse p b | evict b =>
      simp only [Fs.stepUp, Option.ite_none_right_eq_some, Option.some.injEq] at hstep
      exact hstep.2 ▸ ⟨hpanic, h.congr (fun _ => ⟨rfl, rfl, rfl⟩) rfl⟩
  | modify p b data =>
      cases hp : fs.standing p with
      | inOp logged changed =>
          simp only [Fs.stepUp, hp, Option.ite_none_right_eq_some, Option.some.injEq] at hstep
          refine hstep.2 ▸ ⟨hpanic, h.congr (fun q => ?_) rfl⟩
          by_cases hq : q = p
          · simp [setStanding, hq, hp, Standing.running, Standing.logged]
          · simp [setStanding, hq]
      | user | asleep | woken | committing => simp [Fs.stepUp, hp] at hstep
  | logWrite p b =>
      cases hp : fs.standing p with
      | inOp logged changed =>
          simp only [Fs.stepUp, hp, Option.ite_none_right_eq_some, Option.some.injEq] at hstep
          simp only [Within, logs, hp, Standing.logged] at hlimit
          exact hstep.2 ▸ h.logWrite hup hsize hpanic hp hlimit
      | user | asleep | woken | committing => simp [Fs.stepUp, hp] at hstep
  | endOp p =>
      cases hp : fs.standing p with
      | inOp logged changed =>
          simp only [Fs.stepUp, hp, Option.ite_none_right_eq_some, Option.some.injEq] at hstep
          obtain ⟨rfl, rfl⟩ := hstep
          exact h.endOp hup hpanic hp
      | user | asleep | woken | committing => simp [Fs.stepUp, hp] at hstep
  | commit p =>
      simp only [Fs.stepUp, Option.ite_none_right_eq_some] at hstep
      obtain ⟨hbusy, rfl | ⟨hstanding, -, hkept⟩⟩ := commitStep_frame hstep.2
      · refine ⟨hpanic, .of_not_running fun q => ?_⟩
        rw [Fs.endCommit, running_wakeup, running_setStanding]
        split_ifs
        · rfl
        · exact hup.quiet hbusy q
      · refine ⟨hkept.trans hpanic, .of_not_running fun q => ?_⟩
        rw [hstanding]
        exact hup.quiet hbusy q
  | writeHead p =>
      simp only [Fs.stepUp, Option.ite_none_right_eq_some, Option.some.injEq] at hstep
      exact hstep.2 ▸ ⟨hpanic, h.congr (fun _ => ⟨rfl, rfl, rfl⟩) rfl⟩
  | recover | crash => simp [Fs.stepUp] at hstep

theorem Roomy.step {e : LogEvent n} (hsize : LOGSIZE ≤ sb.nlog) (hinv : fs.Recoverable sb store)
    (h : fs.panic = none ∧ fs.Roomy) (hlimit : fs.Within (MAXOPBLOCKS - 1) e)
    (hstep : fs.Step sb e fs') : fs'.panic = none ∧ fs'.Roomy := by
  cases e with
  | crash =>
      obtain rfl := Option.some.inj hstep
      exact ⟨rfl, .of_not_running fun _ => rfl⟩
  | recover =>
      simp only [Step, Fs.step, Option.ite_none_right_eq_some] at hstep
      obtain ⟨hpanic, hstep⟩ := hstep
      obtain ⟨hstanding, -, hkept⟩ := recoverStep_frame hstep
      refine ⟨hkept.trans hpanic, .of_not_running fun q => ?_⟩
      rw [hstanding, (hinv.boot hpanic (booting_of_recoverStep hstep)).user]
      rfl
  | _ =>
      simp only [Step, Fs.step, Option.ite_none_right_eq_some] at hstep
      obtain ⟨⟨hpanic, hboot⟩, hstep⟩ := hstep
      exact h.2.stepUp hsize (hinv.up hpanic hboot) hpanic hlimit hstep

theorem panic_eq_none_of_runs {disk : ℕ → BlockData} {l : List (LogEvent n × Fs n)}
    (hsize : LOGSIZE ≤ sb.nlog) (hvalid : sb.ValidHeader disk)
    (h : Runs (fun fs e fs' => Step sb fs e fs' ∧ fs.Within (MAXOPBLOCKS - 1) e)
      (powerOn disk) l fs) : fs.panic = none ∧ fs.Roomy := by
  induction h with
  | nil => exact ⟨rfl, .of_not_running fun _ => rfl⟩
  | snoc hrun hstep ih =>
      have hinv := recoverable_of_runs hvalid (hrun.mono fun _ _ _ h => h.1)
      exact Roomy.step hsize hinv ih hstep.2 hstep.1

/-- Three operations log ten blocks each, none of them twice. -/
def tenEach : List (LogEvent 3) :=
  let logBlock (i : ℕ) : List (LogEvent 3) :=
    let p : Fin 3 := Fin.ofNat 3 i
    [.bread p (40 + i), .logWrite p (40 + i)]
  .replicate 3 .recover ++ [.beginOp 0, .beginOp 1, .beginOp 2] ++ (List.range 30).flatMap logBlock

theorem exists_panic : ∃ l, ∃ fs : Fs 3,
    Runs (fun fs e fs' => Step mkfsSuperblock fs e fs' ∧ fs.Within MAXOPBLOCKS e)
      (powerOn fun _ _ => 0) l fs ∧ fs.panic = some "too big a transaction" := by
  obtain ⟨l, fs, hrun, hpanic⟩ := Runs.exists_of_events_if (Fs.step mkfsSuperblock)
    (fun fs e => decide (fs.Within MAXOPBLOCKS e)) (powerOn fun _ _ => 0) tenEach
    (fun fs => decide (fs.panic = some "too big a transaction")) (by decide +kernel)
  exact ⟨l, fs, hrun.mono fun _ _ _ h => ⟨h.1, of_decide_eq_true h.2⟩, of_decide_eq_true hpanic⟩

end Fs

end SistOp.Xv6
