import SistOp.Execute

/-!
# Runs of `execute_pipeline`

What the shell and its children do, for every answer of the system, when the first command
is not a builtin.
-/

namespace SistOp.MyBash

/-- A command with arguments that no builtin takes. -/
def External (cmd : Scommand) : Prop := builtinIsInternal cmd = some false

instance (cmd : Scommand) : Decidable (External cmd) :=
  inferInstanceAs (Decidable (_ = _))

/-! ## Redirections -/

/-- A process after `change_fd_in` or `change_fd_out`. -/
def redirect (host : Host) (mode : AccessMode) (fd : ℤ) (file : Option CString) (s : Process) :
    Process :=
  match file with
  | none => s
  | some path =>
      let opened := (SysCall.openFile path mode).perform host s
      let moved := (SysCall.dup2 opened.1 fd).perform host opened.2
      ((SysCall.close opened.1).perform host moved.2).2

section Child

variable {α : Type} (host : Host) (s : Process)

theorem run_changeFdIn (redIn : Option CString) (k : Unit → Sys α) :
    Sys.run host (changeFdIn redIn >>= k) s =
      Sys.run host (k ()) (redirect host .rdonly stdinFileno redIn s) := by
  cases redIn <;> rfl

theorem run_changeFdOut (redOut : Option CString) (k : Unit → Sys α) :
    Sys.run host (changeFdOut redOut >>= k) s =
      Sys.run host (k ()) (redirect host .wronly stdoutFileno redOut s) := by
  cases redOut <;> rfl

/-- The end of a child in `execvp`, or in the `exit` after it. -/
def execRan (argv : List CString) : Ran α :=
  ⟨if host.execOk argv then .execed else .stopped .exited,
    { s with execs := s.execs ++ [⟨argv, s.fds⟩] }, []⟩

theorem run_execOrExit (argv : List CString) (k : Unit → Sys α) :
    Sys.run host (execOrExit argv >>= k) s = execRan host s argv := by
  rw [execOrExit, bind_assoc, Sys.run_execvp_bind, execRan]
  by_cases hexec : host.execOk argv <;> simp [hexec]

theorem redirect_frame (mode : AccessMode) (fd : ℤ) (file : Option CString) :
    ∃ fds opened, redirect host mode fd file s = { s with fds := fds, opened := opened } := by
  cases file with
  | none => exact ⟨s.fds, s.opened, rfl⟩
  | some path =>
      by_cases hopen : host.openOk path mode
      · simp only [redirect, SysCall.perform, hopen, if_true]
        exact ⟨_, _, rfl⟩
      · simp only [redirect, SysCall.perform, hopen]
        exact ⟨_, _, rfl⟩

end Child

/-! ## One command -/

section Single

variable (host : Host) {s : Process} {cmd : Scommand}

/-- The child of a single command. -/
def singleChild (cmd : Scommand) (s : Process) : Ran Bool :=
  execRan host (redirect host .rdonly stdinFileno cmd.redirIn
    (redirect host .wronly stdoutFileno cmd.redirOut s)) cmd.args

theorem executePipeline_single (hcmd : External cmd) (wait isExit : Bool) :
    executePipeline ⟨[cmd], wait⟩ isExit =
      executeSingle ⟨[cmd], wait⟩ >>= executeRest isExit := by
  rw [executePipeline, if_neg (by simp [pipelineIsEmpty]), pipelineFront_mk, Sys.asserting_bind,
    hcmd, Sys.asserting_bind, if_neg (by simp), if_pos (by simp [pipelineLength])]

theorem run_single_noFork (hcmd : External cmd) (wait isExit : Bool)
    (hfork : host.forkResult s.forks = none) :
    Sys.run host (executePipeline ⟨[cmd], wait⟩ isExit) s =
      ⟨.returned isExit, { s with forks := s.forks + 1 }, []⟩ := by
  rw [executePipeline_single hcmd, executeSingle, bind_assoc, Sys.run_fork_none host hfork]
  rfl

theorem run_single (hcmd : External cmd) (wait isExit : Bool) {pid : ℕ+}
    (hfork : host.forkResult s.forks = some pid) :
    Sys.run host (executePipeline ⟨[cmd], wait⟩ isExit) s =
      let child := singleChild host cmd { s with forks := s.forks + 1 }.forked
      ⟨.returned isExit,
        { s with
          forks := s.forks + 1
          children := s.children ++ [pid]
          waited := if wait then s.waited ++ [(pid : ℤ)] else s.waited
          chldIgnored := true },
        [⟨pid, child.ending, child.process⟩]⟩ := by
  have hpos : ¬ (pid : ℤ) < 0 := by omega
  rw [executePipeline_single hcmd, executeSingle, bind_assoc, Sys.run_fork_some host hfork]
  cases wait <;>
    simp [hpos, run_changeFdOut, run_changeFdIn, run_execOrExit, pipelineGetWait, pipelineLength,
      executeRest, singleChild, execRan, SysCall.perform]

end Single

/-! ## Two commands -/

def SysCall.after (host : Host) (c : SysCall) (s : Process) : Process := (c.perform host s).2

section Pair

variable (host : Host) {s s₁ : Process} {cmd₁ cmd₂ : Scommand} {fdRead fdWrite : ℤ}

/-- The child of the first command of a pipe. -/
def firstChild (cmd : Scommand) (fdRead fdWrite : ℤ) (s : Process) : Ran Bool :=
  let s := (SysCall.dup2 fdWrite stdoutFileno).after host s
  let s := (SysCall.close fdRead).after host s
  let s := (SysCall.close fdWrite).after host s
  execRan host (redirect host .rdonly stdinFileno cmd.redirIn
    (redirect host .wronly stdoutFileno cmd.redirOut s)) cmd.args

/-- The child of the second command: both of its redirections go to `change_fd_out`. -/
def secondChild (cmd : Scommand) (fdRead fdWrite : ℤ) (s : Process) : Ran Bool :=
  let s := (SysCall.dup2 fdRead stdinFileno).after host s
  let s := (SysCall.close fdWrite).after host s
  let s := (SysCall.close fdRead).after host s
  execRan host (redirect host .wronly stdoutFileno cmd.redirIn
    (redirect host .wronly stdoutFileno cmd.redirOut s)) cmd.args

/-- The shell after both forks. -/
def pairParent (fdRead fdWrite : ℤ) (wait : Bool) (pids : List ℤ) (s : Process) : Process :=
  let s := (SysCall.close fdRead).after host ((SysCall.close fdWrite).after host s)
  { s with
    waited := if wait then s.waited ++ pids else s.waited
    chldIgnored := true }

theorem executePipeline_pair (hcmd : External cmd₁) (wait isExit : Bool) :
    executePipeline ⟨[cmd₁, cmd₂], wait⟩ isExit = (do
      executePair ⟨[cmd₁, cmd₂], wait⟩
      return isExit) := by
  rw [executePipeline, if_neg (by simp [pipelineIsEmpty]), pipelineFront_mk, Sys.asserting_bind,
    hcmd, Sys.asserting_bind, if_neg (by simp), if_neg (by simp [pipelineLength]), executeRest,
    if_pos (by simp [pipelineLength])]

theorem run_pair_noPipe (hcmd : External cmd₁) (wait isExit : Bool)
    (hpipe : SysCall.pipe.perform host s = (none, s₁)) :
    Sys.run host (executePipeline ⟨[cmd₁, cmd₂], wait⟩ isExit) s =
      ⟨.returned isExit, s₁, []⟩ := by
  rw [executePipeline_pair hcmd, executePair, bind_assoc, Sys.run_perform_bind, hpipe]
  rfl

theorem run_pair_noFork (hcmd : External cmd₁) (wait isExit : Bool)
    (hpipe : SysCall.pipe.perform host s = (some (fdRead, fdWrite), s₁))
    (hfork : host.forkResult s₁.forks = none) :
    Sys.run host (executePipeline ⟨[cmd₁, cmd₂], wait⟩ isExit) s =
      ⟨.returned isExit, { s₁ with forks := s₁.forks + 1 }, []⟩ := by
  rw [executePipeline_pair hcmd, executePair, bind_assoc, Sys.run_perform_bind, hpipe]
  simp [Sys.run_fork_none host hfork]

theorem run_pair_noSecondFork (hcmd : External cmd₁) (wait isExit : Bool) {pid₁ : ℕ+}
    (hpipe : SysCall.pipe.perform host s = (some (fdRead, fdWrite), s₁))
    (hfork₁ : host.forkResult s₁.forks = some pid₁)
    (hfork₂ : host.forkResult (s₁.forks + 1) = none) :
    Sys.run host (executePipeline ⟨[cmd₁, cmd₂], wait⟩ isExit) s =
      let s₂ := { s₁ with forks := s₁.forks + 1 }
      let child₁ := firstChild host cmd₁ fdRead fdWrite s₂.forked
      ⟨.returned isExit,
        pairParent host fdRead fdWrite wait [(pid₁ : ℤ), -1]
          { s₁ with forks := s₁.forks + 2, children := s₁.children ++ [pid₁] },
        [⟨pid₁, child₁.ending, child₁.process⟩]⟩ := by
  have hpos : ¬ (pid₁ : ℤ) < 0 := by omega
  rw [executePipeline_pair hcmd, executePair, bind_assoc, Sys.run_perform_bind, hpipe]
  cases wait <;>
    simp [hpos, Sys.run_fork_some host hfork₁, Sys.run_fork_none host (s := { s₁ with
      forks := s₁.forks + 1, children := s₁.children ++ [pid₁] }) hfork₂, run_changeFdOut,
      run_changeFdIn, run_execOrExit, pipelineGetWait, pairParent, firstChild, SysCall.after,
      execRan, SysCall.perform]

theorem run_pair (hcmd : External cmd₁) (wait isExit : Bool) {pid₁ pid₂ : ℕ+}
    (hpipe : SysCall.pipe.perform host s = (some (fdRead, fdWrite), s₁))
    (hfork₁ : host.forkResult s₁.forks = some pid₁)
    (hfork₂ : host.forkResult (s₁.forks + 1) = some pid₂) :
    Sys.run host (executePipeline ⟨[cmd₁, cmd₂], wait⟩ isExit) s =
      let s₂ := { s₁ with forks := s₁.forks + 1 }
      let s₃ := { s₁ with forks := s₁.forks + 2 }
      let child₁ := firstChild host cmd₁ fdRead fdWrite s₂.forked
      let child₂ := secondChild host cmd₂ fdRead fdWrite s₃.forked
      ⟨.returned isExit,
        pairParent host fdRead fdWrite wait [(pid₁ : ℤ), (pid₂ : ℤ)]
          { s₃ with children := s₁.children ++ [pid₁, pid₂] },
        [⟨pid₁, child₁.ending, child₁.process⟩, ⟨pid₂, child₂.ending, child₂.process⟩]⟩ := by
  have hpos₁ : ¬ (pid₁ : ℤ) < 0 := by omega
  rw [executePipeline_pair hcmd, executePair, bind_assoc, Sys.run_perform_bind, hpipe]
  cases wait <;>
    simp [hpos₁, Sys.run_fork_some host hfork₁, Sys.run_fork_some host (s := { s₁ with
      forks := s₁.forks + 1, children := s₁.children ++ [pid₁] }) hfork₂, run_changeFdOut,
      run_changeFdIn, run_execOrExit, pipelineGetWait, pairParent, firstChild, secondChild,
      SysCall.after, execRan, SysCall.perform, Process.forked]

end Pair

end SistOp.MyBash
