import SistOp.LogInvariant

/-!
# Crash safety of the log

Whatever the processes do and whenever the power goes, the disk holds what was there when no
operation was in progress: the machine is an atomic store in which only commits are durable.
-/

namespace SistOp.Xv6

namespace Fs

variable {n : ℕ} {sb : Superblock} {fs fs' : Fs n} {store : AtomicStore ℕ BlockData} {p : Fin n}
  {b : ℕ}

/-! ## Steps -/

/-- Until there is an entry in the header of the log, the disk is what a recovery leaves. -/
theorem Recoverable.of_header (hheader : (sb.header fs.disk).n = 0)
    (hdisk : ∀ b, sb.Home b → fs.disk b = store.durable b)
    (hup : fs.panic = none → fs.pc.booting = false → fs.Up sb store)
    (hboot : fs.panic = none → fs.pc.booting = true → fs.Booting sb store) :
    fs.Recoverable sb store where
  durable b hb := by
    rw [Superblock.recovered_of_header hheader]
    exact hdisk b hb
  valid := by
    refine ⟨hheader.trans_lt sb.nlog_pos, hheader.le.trans (Nat.zero_le _), fun b hb => ?_⟩
    rw [Logheader.mem_entries, hheader] at hb
    obtain ⟨i, hi, -⟩ := hb
    exact absurd hi (Nat.not_lt_zero i)
  up := hup
  boot := hboot

theorem Recoverable.disk_of_header (h : fs.Recoverable sb store)
    (hheader : (sb.header fs.disk).n = 0) (hb : sb.Home b) : fs.disk b = store.durable b := by
  rw [← h.durable b hb, Superblock.recovered_of_header hheader]

/-- A step of a machine that is up and stays so, and that does not write to the disk. -/
theorem Recoverable.of_up {store' : AtomicStore ℕ BlockData} (h : fs.Recoverable sb store)
    (hdisk : fs'.disk = fs.disk) (hdurable : store'.durable = store.durable)
    (hpc : fs'.pc.booting = false) (hup : fs'.panic = none → fs'.Up sb store') :
    fs'.Recoverable sb store' where
  durable b hb := by
    rw [hdisk, hdurable]
    exact h.durable b hb
  valid := by
    rw [hdisk]
    exact h.valid
  up hpanic _ := hup hpanic
  boot _ hboot := absurd hboot (by simp [hpc])

/-- Copying a block home leaves what a recovery would. -/
theorem Recoverable.of_recovered (h : fs.Recoverable sb store)
    (hheader : sb.header fs'.disk = sb.header fs.disk)
    (hrecovered : sb.recovered fs'.disk = sb.recovered fs.disk)
    (hup : fs'.panic = none → fs'.pc.booting = false → fs'.Up sb store)
    (hboot : fs'.panic = none → fs'.pc.booting = true → fs'.Booting sb store) :
    fs'.Recoverable sb store where
  durable := by
    rw [hrecovered]
    exact h.durable
  valid := by
    have hvalid := h.valid
    constructor
    · rw [hheader]
      exact hvalid.fits
    · rw [hheader]
      exact hvalid.sized
    · rw [hheader]
      exact hvalid.home
  up := hup
  boot := hboot

theorem Recoverable.commitStep (h : fs.Recoverable sb store) (hup : fs.Up sb store)
    (hstep : fs.commitStep sb p = some fs') : fs'.Recoverable sb store := by
  have hphase := hup.phase
  cases hpc : fs.pc with
  | commit =>
      simp only [Fs.commitStep, hpc, Option.some.injEq] at hstep
      rw [hpc] at hphase
      subst hstep
      refine h.of_up rfl rfl ?_ fun _ => ?_
      · simp only [setPc]
        split_ifs <;> rfl
      · split_ifs with hn
        · exact hup.setPc (by simp [hpc]) (by simp) (by simp [pending, setPc, hpc])
            ⟨hphase, Nat.zero_le _, fun i _ hi => absurd hi (Nat.not_lt_zero i)⟩
        · exact hup.setPc (by simp [hpc]) (by simp) (by simp [pending, setPc, hpc])
            ⟨hphase, Nat.eq_zero_of_not_pos hn⟩
  | writeLog tail =>
      simp only [Fs.commitStep, hpc] at hstep
      rw [hpc] at hphase
      split_ifs at hstep with htail hfree
      · obtain rfl := Option.some.inj hstep
        have hup' := hup.writeLog hpc htail
        refine .of_header hup'.phase.1 (fun b hb => ?_) (fun _ _ => hup') fun _ hboot =>
          absurd hboot (by simp [setPc, LogPc.booting])
        have hroom := hup.room
        have hne : b ≠ sb.slot tail := by
          rintro rfl
          exact sb.not_home_slot (by omega) hb
        rw [← h.disk_of_header hphase.1 hb]
        exact Function.update_of_ne hne _ _
      · obtain rfl := Option.some.inj hstep
        obtain ⟨hheader, hle, hcopied⟩ := hphase
        refine h.of_up rfl rfl rfl fun _ => ?_
        refine hup.setPc (by simp [hpc]) (by simp) (by simp [pending, setPc, hpc]) ⟨hheader, ?_⟩
        obtain rfl : tail = fs.log.lh.n := by omega
        exact hcopied
  | installTrans tail =>
      simp only [Fs.commitStep, hpc] at hstep
      split_ifs at hstep with htail hfree
      · obtain rfl := Option.some.inj hstep
        obtain ⟨hup', hheader, hrecovered⟩ := hup.installTrans h.valid hpc htail
        exact h.of_recovered hheader hrecovered (fun _ _ => hup') fun _ hboot =>
          absurd hboot (by simp [setPc, LogPc.booting])
      · obtain rfl := Option.some.inj hstep
        exact h.of_up rfl rfl rfl fun _ => hup.installed hpc htail
  | eraseHead =>
      simp only [Fs.commitStep, hpc] at hstep
      rw [hpc] at hphase
      split_ifs at hstep with hfree
      obtain rfl := Option.some.inj hstep
      obtain ⟨hheader, hdisk, -⟩ := eraseHead_spec sb fs
      refine .of_header hheader (fun b hb => (hdisk b hb).trans (hphase b hb).1)
        (fun _ _ => hup.eraseHead hpc) fun _ hboot => absurd hboot (by simp [setPc, LogPc.booting])
  | endCommit =>
      simp only [Fs.commitStep, hpc, Option.some.injEq] at hstep
      subst hstep
      exact h.of_up rfl rfl rfl fun _ => hup.endCommit hpc
  | idle | writeHead | readHead | recoverTrans tail | eraseRecovered =>
      simp [Fs.commitStep, hpc] at hstep

theorem Recoverable.recoverStep (h : fs.Recoverable sb store) (hpanic : fs.panic = none)
    (hstep : fs.recoverStep sb = some fs') : fs'.Recoverable sb store := by
  cases hpc : fs.pc with
  | readHead =>
      have hboot := h.boot hpanic (by simp [hpc, LogPc.booting])
      simp only [Fs.recoverStep, hpc, Option.some.injEq] at hstep
      subst hstep
      exact ⟨h.durable, h.valid, fun _ hup => absurd hup (by simp [setPc, LogPc.booting]),
        fun _ _ => hboot.readHead h.durable⟩
  | recoverTrans tail =>
      have hboot := h.boot hpanic (by simp [hpc, LogPc.booting])
      simp only [Fs.recoverStep, hpc] at hstep
      split_ifs at hstep with htail
      · obtain rfl := Option.some.inj hstep
        obtain ⟨hboot', hheader, hrecovered⟩ := hboot.recoverTrans h.valid hpc htail
        exact h.of_recovered hheader hrecovered
          (fun _ hup => absurd hup (by simp [setPc, LogPc.booting])) fun _ _ => hboot'
      · obtain rfl := Option.some.inj hstep
        exact ⟨h.durable, h.valid, fun _ hup => absurd hup (by simp [setPc, LogPc.booting]),
          fun _ _ => hboot.recovered hpc htail⟩
  | eraseRecovered =>
      have hboot := h.boot hpanic (by simp [hpc, LogPc.booting])
      have hphase := hboot.phase
      rw [hpc] at hphase
      simp only [Fs.recoverStep, hpc, Option.some.injEq] at hstep
      subst hstep
      obtain ⟨hheader, hdisk, -⟩ := eraseHead_spec sb fs
      exact .of_header hheader (fun b hb => (hdisk b hb).trans (hphase b hb))
        (fun _ _ => hboot.eraseHead hpc) fun _ hboot =>
          absurd hboot (by simp [setPc, LogPc.booting])
  | idle | commit | writeLog tail | writeHead | installTrans tail | eraseHead | endCommit =>
      simp [Fs.recoverStep, hpc] at hstep

theorem Recoverable.crash (h : fs.Recoverable sb store) :
    (powerOn fs.disk : Fs n).Recoverable sb { store with volatile := store.durable } :=
  ⟨h.durable, h.valid, fun _ hup => absurd hup (by simp [powerOn, LogPc.booting]),
    fun _ _ => powerOn_booting rfl⟩

theorem disk_logWrite {logged changed : Finset ℕ} :
    (fs.logWrite sb p logged changed b).disk = fs.disk ∧
      (fs.logWrite sb p logged changed b).pc = fs.pc := by
  simp only [Fs.logWrite]
  split_ifs <;> exact ⟨rfl, rfl⟩

theorem disk_beginOp : (fs.beginOp p).disk = fs.disk ∧ (fs.beginOp p).pc = fs.pc := by
  simp only [Fs.beginOp]
  split_ifs <;> exact ⟨rfl, rfl⟩

theorem disk_endOp (fs : Fs n) (p : Fin n) : (fs.endOp p).disk = fs.disk ∧
    ((fs.endOp p).pc = fs.pc ∨ (fs.endOp p).pc = .commit) := by
  simp only [Fs.endOp]
  split_ifs
  · exact ⟨rfl, .inl rfl⟩
  · exact ⟨rfl, .inr rfl⟩
  · exact ⟨rfl, .inl rfl⟩

/-- A step does to the disk, the buffers and the log what its event does to the store. -/
theorem Recoverable.stepUp {e : LogEvent n} (h : fs.Recoverable sb store)
    (hpanic : fs.panic = none) (hup : fs.pc.booting = false)
    (hstep : fs.stepUp sb e = some fs') : fs'.Recoverable sb (storeAfter store [e]) := by
  have hinv := h.up hpanic hup
  cases e with
  | beginOp p =>
      simp only [Fs.stepUp, Option.ite_none_right_eq_some, Option.some.injEq] at hstep
      obtain ⟨hp, rfl⟩ := hstep
      refine h.of_up disk_beginOp.1 rfl ?_ fun _ => hinv.beginOp hp
      rw [disk_beginOp.2]
      exact hup
  | bread p b =>
      simp only [Fs.stepUp, Option.ite_none_right_eq_some, Option.some.injEq] at hstep
      obtain ⟨hb, rfl⟩ := hstep
      exact h.of_up rfl rfl hup fun _ => hinv.bread hb
  | modify p b data =>
      cases hp : fs.standing p with
      | inOp logged changed =>
          simp only [Fs.stepUp, hp, Option.ite_none_right_eq_some, Option.some.injEq] at hstep
          obtain ⟨⟨hb, hhome⟩, rfl⟩ := hstep
          exact h.of_up rfl rfl hup fun _ => hinv.modify hp hb hhome
      | user | asleep | woken | committing => simp [Fs.stepUp, hp] at hstep
  | logWrite p b =>
      cases hp : fs.standing p with
      | inOp logged changed =>
          simp only [Fs.stepUp, hp, Option.ite_none_right_eq_some, Option.some.injEq] at hstep
          obtain ⟨⟨hb, hhome⟩, rfl⟩ := hstep
          refine h.of_up disk_logWrite.1 rfl ?_ fun hpanic' => hinv.logWrite hp hb hhome hpanic'
          rw [disk_logWrite.2]
          exact hup
      | user | asleep | woken | committing => simp [Fs.stepUp, hp] at hstep
  | brelse p b =>
      simp only [Fs.stepUp, Option.ite_none_right_eq_some, Option.some.injEq] at hstep
      obtain ⟨⟨hb, hchanged⟩, rfl⟩ := hstep
      exact h.of_up rfl rfl hup fun _ => hinv.brelse hb hchanged
  | endOp p =>
      cases hp : fs.standing p with
      | inOp logged changed =>
          simp only [Fs.stepUp, hp, Option.ite_none_right_eq_some, Option.some.injEq] at hstep
          obtain ⟨rfl, rfl⟩ := hstep
          refine h.of_up (disk_endOp fs p).1 rfl ?_ fun hpanic' => hinv.endOp hp hpanic'
          rcases disk_endOp fs p with ⟨-, hpc | hpc⟩
          · rw [hpc, hup]
          · rw [hpc]
            rfl
      | user | asleep | woken | committing => simp [Fs.stepUp, hp] at hstep
  | evict b =>
      simp only [Fs.stepUp, Option.ite_none_right_eq_some, Option.some.injEq] at hstep
      obtain ⟨⟨hb, hpins⟩, rfl⟩ := hstep
      exact h.of_up rfl rfl hup fun _ => hinv.evict hb hpins
  | commit p =>
      simp only [Fs.stepUp, Option.ite_none_right_eq_some] at hstep
      exact h.commitStep hinv hstep.2
  | writeHead p =>
      simp only [Fs.stepUp, Option.ite_none_right_eq_some, Option.some.injEq] at hstep
      obtain ⟨⟨-, hpc, -⟩, rfl⟩ := hstep
      obtain ⟨hup', hvalid, hrecovered⟩ := hinv.writeHead hpc
      exact ⟨hrecovered, hvalid, fun _ _ => hup',
        fun _ hboot => absurd hboot (by simp [setPc, LogPc.booting])⟩
  | recover | crash => simp [Fs.stepUp] at hstep

theorem Recoverable.step {e : LogEvent n} (h : fs.Recoverable sb store)
    (hstep : fs.Step sb e fs') : fs'.Recoverable sb (storeAfter store [e]) := by
  cases e with
  | crash =>
      obtain rfl := Option.some.inj hstep
      exact h.crash
  | recover =>
      simp only [Step, Fs.step, Option.ite_none_right_eq_some] at hstep
      exact h.recoverStep hstep.1 hstep.2
  | _ =>
      simp only [Step, Fs.step, Option.ite_none_right_eq_some] at hstep
      exact h.stepUp hstep.1.1 hstep.1.2 hstep.2

/-- The log, the buffers and the disk do what an atomic store does: from any disk with a valid
header on, whatever the processes do and whenever the power goes. -/
theorem recoverable_of_runs {disk : ℕ → BlockData} {l : List (LogEvent n × Fs n)}
    (hvalid : sb.ValidHeader disk) (h : Runs (Step sb) (powerOn disk) l fs) :
    fs.Recoverable sb
      (storeAfter ⟨sb.recovered disk, sb.recovered disk⟩ (l.map Prod.fst)) := by
  induction h with
  | nil =>
      exact ⟨fun _ _ => rfl, hvalid, fun _ hup => absurd hup (by simp [powerOn, LogPc.booting]),
        fun _ _ => powerOn_booting rfl⟩
  | snoc _ hstep ih =>
      have hnext := ih.step hstep
      simpa [storeAfter] using hnext

/-! ## What a crash leaves -/

section Runs

variable {disk : ℕ → BlockData} {l : List (LogEvent n × Fs n)}

/-- With the power gone at any time, in the middle of a commit or of a recovery, the blocks come
back as they were made durable; until then, each process reads what was written last. -/
theorem atomicStore_of_runs (hvalid : sb.ValidHeader disk)
    (h : Runs (Step sb) (powerOn disk) l fs) (hb : sb.Home b) :
    sb.recovered fs.disk b =
        (storeAfter ⟨sb.recovered disk, sb.recovered disk⟩ (l.map Prod.fst)).durable b ∧
      (fs.panic = none → fs.pc.booting = false → fs.bread b =
        (storeAfter ⟨sb.recovered disk, sb.recovered disk⟩ (l.map Prod.fst)).volatile b) := by
  have hinv := recoverable_of_runs hvalid h
  exact ⟨hinv.durable b hb, fun hpanic hup => (hinv.up hpanic hup).view b hb⟩

/-- Blocks 40 and 41 are written in one operation, and the power goes twice: when the first of
them has been copied home, and when the recovery has done as much. -/
def crashes (p : Fin n) : List (LogEvent n) :=
  [.recover, .recover, .recover, .beginOp p, .bread p 40, .modify p 40 fun _ => 7, .logWrite p 40,
    .brelse p 40, .bread p 41, .modify p 41 fun _ => 8, .logWrite p 41, .brelse p 41, .endOp p,
    .commit p, .commit p, .commit p, .commit p, .writeHead p, .commit p, .crash, .recover,
    .recover, .crash]

theorem validHeader_zero : mkfsSuperblock.ValidHeader fun _ _ => 0 :=
  ⟨by decide, by decide, by simp [Superblock.header, Logheader.entries]⟩

theorem atomicStore_of_runs_crashes : ∃ l, ∃ fs : Fs 1,
    Runs (Step mkfsSuperblock) (powerOn fun _ _ => 0) l fs ∧ fs.disk 41 0 = 0 ∧
      mkfsSuperblock.recovered fs.disk 41 =
        (storeAfter ⟨mkfsSuperblock.recovered fun _ _ => 0,
          mkfsSuperblock.recovered fun _ _ => 0⟩ (l.map Prod.fst)).durable 41 := by
  obtain ⟨l, fs, hrun, hold⟩ := Runs.exists_of_events (Fs.step mkfsSuperblock)
    (powerOn fun _ _ => 0) (crashes (0 : Fin 1)) (fun fs => decide (fs.disk 41 0 = 0))
    (by decide +kernel)
  exact ⟨l, fs, hrun, of_decide_eq_true hold,
    (atomicStore_of_runs validHeader_zero hrun (by decide)).1⟩

/-- Only the `write_head` of a commit changes what a recovery leaves. -/
theorem Recoverable.recovered_step {e : LogEvent n} (h : fs.Recoverable sb store)
    (hstep : fs.Step sb e fs') (he : ∀ p, e ≠ .writeHead p) (hb : sb.Home b) :
    sb.recovered fs'.disk b = sb.recovered fs.disk b := by
  rw [(h.step hstep).durable b hb, h.durable b hb, storeAfter, AtomicStore.durable_run]
  cases e with
  | writeHead p => exact absurd rfl (he p)
  | _ => simp [LogEvent.storeAct]

/-- When a commit writes its header, no operation is in progress, and what a recovery leaves is
what the processes see. -/
theorem Recoverable.recovered_writeHead (h : fs.Recoverable sb store)
    (hstep : fs.Step sb (.writeHead p) fs') :
    (∀ q, (fs'.standing q).running = false) ∧
      ∀ b, sb.Home b → sb.recovered fs'.disk b = fs'.bread b := by
  have hinv := h.step hstep
  simp only [Step, Fs.step, Fs.stepUp, Option.ite_none_right_eq_some, Option.some.injEq] at hstep
  obtain ⟨⟨hpanic, -⟩, -, rfl⟩ := hstep
  have hup := hinv.up hpanic rfl
  refine ⟨hup.quiet (by simp [setPc]), fun b hb => ?_⟩
  rw [hinv.durable b hb, hup.view b hb]
  rfl

/-- What a recovery leaves is the file system as all processes saw it at one moment of the run,
that of the last commit, with no operation in progress: of each operation all or nothing. -/
theorem exists_quiet_of_runs (hvalid : sb.ValidHeader disk)
    (h : Runs (Step sb) (powerOn disk) l fs) :
    ∃ before after fs', l = before ++ after ∧ Runs (Step sb) (powerOn disk) before fs' ∧
      (∀ x ∈ after, ∀ p, x.1 ≠ .writeHead p) ∧ (∀ p, (fs'.standing p).running = false) ∧
      (before = [] ∨ ∃ p, before.getLast?.map Prod.fst = some (.writeHead p)) ∧
      ∀ b, sb.Home b → sb.recovered fs.disk b =
        if before = [] then sb.recovered disk b else fs'.bread b := by
  induction h with
  | nil => exact ⟨[], [], _, rfl, .nil, by simp, fun _ => rfl, .inl rfl, fun _ _ => rfl⟩
  | @snoc l fs₁ fs₂ e hrun hstep ih =>
      have hinv := recoverable_of_runs hvalid hrun
      by_cases he : ∃ p, e = .writeHead p
      · obtain ⟨p, rfl⟩ := he
        obtain ⟨hquiet, hseen⟩ := hinv.recovered_writeHead hstep
        refine ⟨l ++ [(.writeHead p, fs₂)], [], fs₂, by simp, hrun.snoc hstep, by simp, hquiet,
          .inr ⟨p, by simp⟩, fun b hb => ?_⟩
        simpa using hseen b hb
      · push Not at he
        obtain ⟨before, after, fs', rfl, hbefore, hafter, hquiet, hlast, hseen⟩ := ih
        refine ⟨before, after ++ [(e, fs₂)], fs', by simp, hbefore, ?_, hquiet, hlast,
          fun b hb => (hinv.recovered_step hstep he hb).trans (hseen b hb)⟩
        simp only [List.mem_append, List.mem_singleton]
        rintro x (hx | rfl)
        · exact hafter x hx
        · exact he

theorem exists_quiet_of_runs_crashes : ∃ l, ∃ fs : Fs 1,
    Runs (Step mkfsSuperblock) (powerOn fun _ _ => 0) l fs ∧
    ∃ before after fs', l = before ++ after ∧
      Runs (Step mkfsSuperblock) (powerOn fun _ _ => 0) before fs' ∧
      (∀ x ∈ after, ∀ p, x.1 ≠ .writeHead p) ∧ (∀ p, (fs'.standing p).running = false) ∧
      (before = [] ∨ ∃ p, before.getLast?.map Prod.fst = some (.writeHead p)) ∧
      ∀ b, mkfsSuperblock.Home b → mkfsSuperblock.recovered fs.disk b =
        if before = [] then mkfsSuperblock.recovered (fun _ _ => 0) b else fs'.bread b := by
  obtain ⟨l, fs, hrun, -⟩ := Runs.exists_of_events (Fs.step mkfsSuperblock)
    (powerOn fun _ _ => 0) (crashes (0 : Fin 1)) (fun _ => true) (by decide +kernel)
  exact ⟨l, fs, hrun, exists_quiet_of_runs validHeader_zero hrun⟩

/-- When no operation and no commit is in progress, everything that was written is at home. -/
theorem disk_eq_bread_of_runs (hvalid : sb.ValidHeader disk)
    (h : Runs (Step sb) (powerOn disk) l fs) (hpanic : fs.panic = none) (hpc : fs.pc = .idle)
    (hquiet : ∀ p, (fs.standing p).running = false) (b : ℕ) :
    fs.disk b = fs.bread b ∧ sb.recovered fs.disk b = fs.bread b := by
  have hup := (recoverable_of_runs hvalid h).up hpanic (by simp [hpc, LogPc.booting])
  have hphase := hup.phase
  rw [hpc] at hphase
  have hout : fs.log.outstanding = 0 := by
    rw [hup.count, Finset.card_eq_zero, Finset.filter_eq_empty_iff]
    exact fun p _ => Bool.eq_false_iff.mp (hquiet p)
  have hempty : fs.log.lh.entries = [] := by simp [Logheader.entries, hphase.2 hout]
  have hclean : fs.bread b = fs.disk b := by
    refine hup.clean b (by simp [Up.pending_idle hpc, hempty]) fun p => ?_
    simp [changed_of_not_running (hquiet p)]
  rw [Superblock.recovered_of_header hphase.1]
  exact ⟨hclean.symm, hclean.symm⟩

theorem disk_eq_bread_of_runs_crashes : ∃ fs : Fs 1, fs.disk 41 0 = 8 ∧
    fs.disk 41 = fs.bread 41 ∧ mkfsSuperblock.recovered fs.disk 41 = fs.bread 41 := by
  obtain ⟨l, fs, hrun, hend⟩ := Runs.exists_of_events (Fs.step mkfsSuperblock)
    (powerOn fun _ _ => 0) (crashes (0 : Fin 1) ++ .replicate 5 .recover)
    (fun fs => decide (fs.disk 41 0 = 8 ∧ fs.panic = none ∧ fs.pc = .idle ∧
      ∀ p, (fs.standing p).running = false)) (by decide +kernel)
  obtain ⟨hdata, hpanic, hpc, hquiet⟩ := of_decide_eq_true hend
  exact ⟨fs, hdata, disk_eq_bread_of_runs validHeader_zero hrun hpanic
    hpc hquiet 41⟩

end Runs

end Fs

end SistOp.Xv6
