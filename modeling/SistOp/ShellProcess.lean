import SistOp.ExecuteRuns

/-!
# The shell's own process

Descriptors and waited children of the shell after `execute_pipeline`, for every outcome of
`pipe` and of the two forks.
-/

namespace SistOp.MyBash

/-- One or two commands, none of them a builtin. -/
structure ExternalPipeline (p : Pipeline) : Prop where
  length : p.scmd.length = 1 ∨ p.scmd.length = 2
  external : ∀ cmd ∈ p.scmd, External cmd

/-- The shell returns with its descriptors as before, and has waited once for each child that
it created if the pipeline waits, and for nothing else. -/
structure ShellKept (p : Pipeline) (s : Process) (ran : Ran Bool) : Prop where
  returned : ∃ isExit, ran.ending = .returned isExit
  fds : ran.process.fds = s.fds
  waited : ∃ pids waits, ran.process.children = s.children ++ pids ∧
    ran.process.waited = s.waited ++ waits ∧
    waits.Perm (if p.wait then pids.map fun pid => (pid : ℤ) else [])

/-- `pipe` succeeds and the first fork fails, or the second one does and the pipeline waits. -/
def ForkFailsInPipe (host : Host) (s : Process) (p : Pipeline) : Prop :=
  p.scmd.length = 2 ∧ host.pipeOk = true ∧ mockPipe s.fds s.pipes ≠ none ∧
    (host.forkResult s.forks = none ∨ (host.forkResult (s.forks + 1) = none ∧ p.wait = true))

theorem mockFdLookup_some {t : FdTable} {fd : ℕ} (h : mockFdLookup t = some fd) :
    t fd = none ∧ fd < mockFdTableSize := by
  constructor
  · simpa using List.find?_some h
  · exact List.mem_range.mp (List.mem_of_find?_eq_some h)

/-- The two ends of a pipe were closed descriptors, and closing them gives the table back. -/
theorem mockPipe_close {t t' : FdTable} {counter rEnd wEnd : ℕ}
    (h : mockPipe t counter = some (rEnd, wEnd, t')) :
    (mockClose (mockClose t' wEnd).2 rEnd).2 = t ∧ t' ≠ t := by
  unfold mockPipe at h
  cases hread : mockFdLookup t with
  | none => simp [hread] at h
  | some r =>
      simp only [hread] at h
      cases hwrite : mockFdLookup
          (Function.update t r (some ⟨.pipe, pipeName counter, true, false⟩)) with
      | none => simp [hwrite] at h
      | some w =>
          simp only [hwrite, Option.some.injEq, Prod.mk.injEq] at h
          obtain ⟨rfl, rfl, rfl⟩ := h
          obtain ⟨hr, hrlt⟩ := mockFdLookup_some hread
          obtain ⟨hw, hwlt⟩ := mockFdLookup_some hwrite
          have hne : r ≠ w := by
            rintro rfl
            simp at hw
          rw [Function.update_of_ne hne.symm] at hw
          constructor
          · funext fd
            have hropen : ((r : ℤ) < mockFdTableSize) := by exact_mod_cast hrlt
            have hwopen : ((w : ℤ) < mockFdTableSize) := by exact_mod_cast hwlt
            by_cases hfr : fd = r
            · subst hfr
              simp [mockClose, isOpenFd, hne, hropen, hwopen, hr]
            · by_cases hfw : fd = w
              · subst hfw
                simp [mockClose, isOpenFd, hne, hropen, hwopen, hw, hfr]
              · simp [mockClose, isOpenFd, hne, hropen, hwopen, hfr, hfw]
          · intro heq
            have hat := congrFun heq r
            rw [Function.update_of_ne hne, Function.update_self, hr] at hat
            simp at hat

section Kept

variable (host : Host) {s : Process} {cmd₁ cmd₂ : Scommand}

theorem pipe_cases (s : Process) :
    ((host.pipeOk = false ∨ mockPipe s.fds s.pipes = none) ∧
      SysCall.pipe.perform host s = (none, s)) ∨
    (host.pipeOk = true ∧ ∃ rEnd wEnd fds, mockPipe s.fds s.pipes = some (rEnd, wEnd, fds) ∧
      SysCall.pipe.perform host s =
        (some ((rEnd : ℤ), (wEnd : ℤ)), { s with fds := fds, pipes := s.pipes + 1 })) := by
  cases hok : host.pipeOk with
  | false => exact .inl ⟨.inl rfl, by rw [SysCall.perform, hok]; rfl⟩
  | true =>
      cases hpipe : mockPipe s.fds s.pipes with
      | none => exact .inl ⟨.inr rfl, by rw [SysCall.perform, hok, hpipe]; rfl⟩
      | some ends =>
          obtain ⟨rEnd, wEnd, fds⟩ := ends
          exact .inr ⟨rfl, rEnd, wEnd, fds, rfl, by rw [SysCall.perform, hok, hpipe]; rfl⟩

theorem shellKept_single (hcmd : External cmd₁) (wait isExit : Bool) :
    ShellKept ⟨[cmd₁], wait⟩ s (Sys.run host (executePipeline ⟨[cmd₁], wait⟩ isExit) s) := by
  cases hfork : host.forkResult s.forks with
  | none =>
      rw [run_single_noFork host hcmd wait isExit hfork]
      exact ⟨⟨isExit, rfl⟩, rfl, [], [], by simp, by simp, by cases wait <;> simp⟩
  | some pid =>
      rw [run_single host hcmd wait isExit hfork]
      refine ⟨⟨isExit, rfl⟩, rfl, [pid], if wait then [(pid : ℤ)] else [], rfl, ?_, ?_⟩
      · cases wait <;> simp
      · cases wait <;> simp

/-- The closing calls of the shell undo the pipe. -/
theorem pairParent_fds {rEnd wEnd counter : ℕ} {t : FdTable} (wait : Bool) (pids : List ℤ)
    {s₁ : Process} (h : mockPipe t counter = some (rEnd, wEnd, s₁.fds)) :
    (pairParent host rEnd wEnd wait pids s₁).fds = t :=
  (mockPipe_close h).1

theorem pairParent_waited (fdRead fdWrite : ℤ) (wait : Bool) (pids : List ℤ) (s₁ : Process) :
    (pairParent host fdRead fdWrite wait pids s₁).waited =
      s₁.waited ++ if wait then pids else [] := by
  cases wait <;> simp [pairParent, SysCall.after, SysCall.perform]

theorem shellKept_pair (hcmd : External cmd₁) (wait isExit : Bool) :
    ShellKept ⟨[cmd₁, cmd₂], wait⟩ s
        (Sys.run host (executePipeline ⟨[cmd₁, cmd₂], wait⟩ isExit) s) ↔
      ¬ ForkFailsInPipe host s ⟨[cmd₁, cmd₂], wait⟩ := by
  rcases pipe_cases host s with ⟨hbad, hpipe⟩ | ⟨hok, rEnd, wEnd, fds, hmock, hpipe⟩
  · rw [run_pair_noPipe host hcmd wait isExit hpipe]
    have hcond : ¬ ForkFailsInPipe host s ⟨[cmd₁, cmd₂], wait⟩ := by
      rintro ⟨-, hok, hmock, -⟩
      rcases hbad with hbad | hbad
      · rw [hok] at hbad
        simp at hbad
      · exact hmock hbad
    refine iff_of_true ⟨⟨isExit, rfl⟩, rfl, [], [], by simp, by simp, ?_⟩ hcond
    cases wait <;> simp
  · have hpair : (⟨[cmd₁, cmd₂], wait⟩ : Pipeline).scmd.length = 2 := rfl
    have hmade : mockPipe s.fds s.pipes ≠ none := by simp [hmock]
    cases hfork₁ : host.forkResult s.forks with
    | none =>
        rw [run_pair_noFork host hcmd wait isExit hpipe hfork₁]
        refine iff_of_false ?_ (not_not.mpr ⟨hpair, hok, hmade, .inl hfork₁⟩)
        rintro ⟨-, hfds, -⟩
        exact (mockPipe_close hmock).2 hfds
    | some pid₁ =>
        cases hfork₂ : host.forkResult (s.forks + 1) with
        | none =>
            rw [run_pair_noSecondFork host hcmd wait isExit hpipe hfork₁ hfork₂]
            cases wait with
            | true =>
                refine iff_of_false ?_ (not_not.mpr ⟨hpair, hok, hmade, .inr ⟨hfork₂, rfl⟩⟩)
                rintro ⟨-, -, pids, waits, hpids, hwaits, hperm⟩
                rw [pairParent_waited, if_pos rfl] at hwaits
                obtain rfl : [pid₁] = pids := List.append_cancel_left hpids
                obtain rfl : [(pid₁ : ℤ), -1] = waits := List.append_cancel_left hwaits
                have hlen := hperm.length_eq
                simp at hlen
            | false =>
                refine iff_of_true ⟨⟨isExit, rfl⟩, ?_, [pid₁], [], rfl, ?_, by simp⟩ ?_
                · exact pairParent_fds host false _ hmock
                · exact pairParent_waited host _ _ false _ _
                · rintro ⟨-, -, -, hnone | ⟨-, hwait⟩⟩
                  · rw [hfork₁] at hnone
                    simp at hnone
                  · simp at hwait
        | some pid₂ =>
            rw [run_pair host hcmd wait isExit hpipe hfork₁ hfork₂]
            refine iff_of_true ⟨⟨isExit, rfl⟩, ?_, [pid₁, pid₂],
              if wait then [(pid₁ : ℤ), (pid₂ : ℤ)] else [], rfl, ?_, ?_⟩ ?_
            · exact pairParent_fds host wait _ hmock
            · exact pairParent_waited host _ _ wait _ _
            · cases wait <;> simp
            · rintro ⟨-, -, -, hnone | ⟨hnone, -⟩⟩
              · rw [hfork₁] at hnone
                simp at hnone
              · rw [hfork₂] at hnone
                simp at hnone

end Kept

/-- The shell's process is kept except when a fork fails after the pipe was made. -/
theorem shellKept_iff (host : Host) (s : Process) (p : Pipeline) (isExit : Bool)
    (hp : ExternalPipeline p) :
    ShellKept p s (Sys.run host (executePipeline p isExit) s) ↔ ¬ ForkFailsInPipe host s p := by
  obtain ⟨scmd, wait⟩ := p
  obtain ⟨hlen, hext⟩ := hp
  rcases hlen with hlen | hlen
  · obtain ⟨cmd, rfl⟩ := List.length_eq_one_iff.mp hlen
    refine iff_of_true (shellKept_single host (hext cmd (by simp)) wait isExit) ?_
    rintro ⟨htwo, -⟩
    simp at htwo
  · obtain ⟨cmd₁, cmd₂, rfl⟩ := List.length_eq_two.mp hlen
    exact shellKept_pair host (hext cmd₁ (by simp)) wait isExit

/-- `a | b` -/
def pairPipeline : Pipeline := ⟨[⟨[['a']], none, none⟩, ⟨[['b']], none, none⟩], true⟩

/-- A system where the first `forks` forks of the shell give the children 102, 103, … -/
def forkingHost (forks : ℕ) : Host where
  openOk _ _ := true
  pipeOk := true
  forkResult n := if n < forks then some (101 + n).succPNat else none
  execOk _ := true
  chdirTo _ path := some path

theorem shellKept_pairPipeline :
    ShellKept pairPipeline mockProcess
      (Sys.run (forkingHost 2) (executePipeline pairPipeline false) mockProcess) :=
  (shellKept_iff (forkingHost 2) mockProcess pairPipeline false ⟨by decide, by decide⟩).mpr
    fun ⟨_, _, _, hfork⟩ => absurd hfork (by decide)

/-- The second `fork` fails and the shell waits for any child that it has. -/
theorem second_fork_failure_waits_any :
    ¬ ShellKept pairPipeline mockProcess
      (Sys.run (forkingHost 1) (executePipeline pairPipeline false) mockProcess) := by
  rintro ⟨-, -, pids, waits, hpids, hwaits, hperm⟩
  have hchildren : (Sys.run (forkingHost 1) (executePipeline pairPipeline false)
      mockProcess).process.children = [102] := rfl
  have hwaited : (Sys.run (forkingHost 1) (executePipeline pairPipeline false)
      mockProcess).process.waited = [102, -1] := rfl
  obtain rfl : [102] = pids := hchildren.symm.trans hpids
  obtain rfl : [102, -1] = waits := hwaited.symm.trans hwaits
  have hlen := hperm.length_eq
  simp [pairPipeline] at hlen

end SistOp.MyBash
