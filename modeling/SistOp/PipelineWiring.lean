import SistOp.ShellProcess

/-!
# Descriptors of the children

What each child of a pipeline has on its descriptors when it calls `execvp`, when the
system calls succeed.
-/

namespace SistOp.MyBash

/-! ## Tables with few descriptors -/

def shellTable (input output error : MockFile) : FdTable
  | 0 => some input
  | 1 => some output
  | 2 => some error
  | _ => none

def pipeTable (input output error readEnd writeEnd : MockFile) : FdTable
  | 0 => some input
  | 1 => some output
  | 2 => some error
  | 3 => some readEnd
  | 4 => some writeEnd
  | _ => none

def openedFile (mode : AccessMode) (path : CString) : MockFile :=
  ⟨.open, path, mode = .rdonly, mode = .wronly⟩

/-- The file of a redirection, or what is there without one. -/
def redirected (mode : AccessMode) (file : MockFile) (redir : Option CString) : MockFile :=
  (redir.map (openedFile mode)).getD file

def pipeReadEnd (counter : ℕ) : MockFile := ⟨.pipe, pipeName counter, true, false⟩
def pipeWriteEnd (counter : ℕ) : MockFile := ⟨.pipe, pipeName counter, false, true⟩

section Tables

variable (a b e r w f : MockFile)

theorem mockPipe_shellTable (counter : ℕ) :
    mockPipe (shellTable a b e) counter =
      some (3, 4, pipeTable a b e (pipeReadEnd counter) (pipeWriteEnd counter)) := by
  have hread : mockFdLookup (shellTable a b e) = some 3 := rfl
  have hwrite : mockFdLookup (Function.update (shellTable a b e) 3
      (some ⟨.pipe, pipeName counter, true, false⟩)) = some 4 := rfl
  simp only [mockPipe, hread, hwrite, Option.some.injEq, Prod.mk.injEq, true_and]
  funext fd
  rcases fd with _ | _ | _ | _ | _ | fd <;> simp [shellTable, pipeTable, pipeReadEnd, pipeWriteEnd]

theorem open_dup_close_stdin (path : CString) :
    (mockClose (mockDup2 (mockOpen (shellTable a b e) path .rdonly).2 3 0).2 3).2 =
      shellTable (openedFile .rdonly path) b e := by
  funext fd
  rcases fd with _ | _ | _ | _ | fd <;> rfl

theorem open_dup_close_stdout (path : CString) :
    (mockClose (mockDup2 (mockOpen (shellTable a b e) path .wronly).2 3 1).2 3).2 =
      shellTable a (openedFile .wronly path) e := by
  funext fd
  rcases fd with _ | _ | _ | _ | fd <;> rfl

theorem firstChild_table :
    (mockClose (mockClose (mockDup2 (pipeTable a b e r w) 4 1).2 3).2 4).2 =
      shellTable a w e := by
  funext fd
  rcases fd with _ | _ | _ | _ | _ | fd <;> rfl

theorem secondChild_table :
    (mockClose (mockClose (mockDup2 (pipeTable a b e r w) 3 0).2 4).2 3).2 =
      shellTable r b e := by
  funext fd
  rcases fd with _ | _ | _ | _ | _ | fd <;> rfl

end Tables

/-! ## Children -/

/-- `pipe`, `fork` and `open` succeed. -/
structure Host.Succeeds (host : Host) : Prop where
  openOk : ∀ path mode, host.openOk path mode = true
  pipeOk : host.pipeOk = true
  forkOk : ∀ n, ∃ pid, host.forkResult n = some pid

section Children

variable {host : Host} (hhost : host.Succeeds) {s : Process} {a b e : MockFile}

include hhost in
theorem redirect_stdin (hs : s.fds = shellTable a b e) (file : Option CString) :
    redirect host .rdonly stdinFileno file s =
      { s with
        fds := shellTable (redirected .rdonly a file) b e
        opened := s.opened ++ file.toList.map (·, .rdonly) } := by
  cases file with
  | none => simp [redirect, redirected, ← hs]
  | some path =>
      have htable := open_dup_close_stdin a b e path
      rw [← hs] at htable
      have hfd : (mockOpen s.fds path .rdonly).1 = 3 := by rw [hs]; rfl
      simp [redirect, SysCall.perform, hhost.openOk, hfd, stdinFileno, htable, redirected]

include hhost in
theorem redirect_stdout (hs : s.fds = shellTable a b e) (file : Option CString) :
    redirect host .wronly stdoutFileno file s =
      { s with
        fds := shellTable a (redirected .wronly b file) e
        opened := s.opened ++ file.toList.map (·, .wronly) } := by
  cases file with
  | none => simp [redirect, redirected, ← hs]
  | some path =>
      have htable := open_dup_close_stdout a b e path
      rw [← hs] at htable
      have hfd : (mockOpen s.fds path .wronly).1 = 3 := by rw [hs]; rfl
      simp [redirect, SysCall.perform, hhost.openOk, hfd, stdoutFileno, htable, redirected]

/-- A child that has only opened the given files and calls `execvp` with the given table. -/
structure ExecsWith (child : Process) (argv : List CString) (fds : FdTable)
    (opened : List (CString × AccessMode)) : Prop where
  execs : child.execs = [⟨argv, fds⟩]
  opened : child.opened = opened

include hhost in
theorem singleChild_execs (hs : s.fds = shellTable a b e) (cmd : Scommand) :
    ExecsWith (singleChild host cmd s.forked).process cmd.args
      (shellTable (redirected .rdonly a cmd.redirIn) (redirected .wronly b cmd.redirOut) e)
      (cmd.redirOut.toList.map (·, .wronly) ++ cmd.redirIn.toList.map (·, .rdonly)) := by
  have hfork : s.forked.fds = shellTable a b e := hs
  rw [singleChild, redirect_stdout hhost hfork, redirect_stdin hhost rfl]
  exact ⟨rfl, rfl⟩

include hhost in
theorem firstChild_execs {r w : MockFile} (hs : s.fds = pipeTable a b e r w) (cmd : Scommand) :
    ExecsWith (firstChild host cmd 3 4 s.forked).process cmd.args
      (shellTable (redirected .rdonly a cmd.redirIn) (redirected .wronly w cmd.redirOut) e)
      (cmd.redirOut.toList.map (·, .wronly) ++ cmd.redirIn.toList.map (·, .rdonly)) := by
  have htable : ((SysCall.close 4).after host ((SysCall.close 3).after host
      ((SysCall.dup2 4 stdoutFileno).after host s.forked))).fds = shellTable a w e := by
    rw [← firstChild_table a b e r w, ← hs]
    rfl
  rw [firstChild, redirect_stdout hhost htable, redirect_stdin hhost rfl]
  exact ⟨rfl, rfl⟩

include hhost in
theorem secondChild_execs {r w : MockFile} (hs : s.fds = pipeTable a b e r w) (cmd : Scommand) :
    ExecsWith (secondChild host cmd 3 4 s.forked).process cmd.args
      (shellTable r (redirected .wronly (redirected .wronly b cmd.redirOut) cmd.redirIn) e)
      (cmd.redirOut.toList.map (·, .wronly) ++ cmd.redirIn.toList.map (·, .wronly)) := by
  have htable : ((SysCall.close 3).after host ((SysCall.close 4).after host
      ((SysCall.dup2 3 stdinFileno).after host s.forked))).fds = shellTable r b e := by
    rw [← secondChild_table a b e r w, ← hs]
    rfl
  rw [secondChild, redirect_stdout hhost htable, redirect_stdout hhost rfl]
  exact ⟨rfl, rfl⟩

end Children

/-! ## The wiring of a pipeline -/

/-- The table that a command should find: its own files where it has redirections. -/
def wiredTable (cmd : Scommand) (input output error : MockFile) : FdTable :=
  shellTable (redirected .rdonly input cmd.redirIn) (redirected .wronly output cmd.redirOut) error

/-- One call of `execvp` for each command, with the command's arguments and table; the shell
opens nothing, and only output redirections are opened for writing. -/
structure Wired (p : Pipeline) (s : Process) (a b e : MockFile) (ran : Ran Bool) : Prop where
  execs : ran.descendants.map (fun child => child.process.execs) =
    match p.scmd with
    | [cmd] => [[⟨cmd.args, wiredTable cmd a b e⟩]]
    | [cmd₁, cmd₂] =>
        [[⟨cmd₁.args, wiredTable cmd₁ a (pipeWriteEnd s.pipes) e⟩],
          [⟨cmd₂.args, wiredTable cmd₂ (pipeReadEnd s.pipes) b e⟩]]
    | _ => []
  shell : ran.process.execs = s.execs ∧ ran.process.opened = s.opened
  opened : ∀ child ∈ ran.descendants, ∀ path, (path, .wronly) ∈ child.process.opened →
    ∃ cmd ∈ p.scmd, cmd.redirOut = some path

section Wiring

variable {host : Host} (hhost : host.Succeeds) {s : Process} {a b e : MockFile}

theorem opened_for_writing {cmd : Scommand} {path : CString}
    (h : (path, AccessMode.wronly) ∈
      cmd.redirOut.toList.map (·, .wronly) ++ cmd.redirIn.toList.map (·, .rdonly)) :
    cmd.redirOut = some path := by
  simpa using h

include hhost in
theorem wired_single {cmd : Scommand} (hcmd : External cmd) (wait isExit : Bool)
    (hs : s.fds = shellTable a b e) :
    Wired ⟨[cmd], wait⟩ s a b e (Sys.run host (executePipeline ⟨[cmd], wait⟩ isExit) s) := by
  obtain ⟨pid, hfork⟩ := hhost.forkOk s.forks
  rw [run_single host hcmd wait isExit hfork]
  have hchild := singleChild_execs hhost (s := { s with forks := s.forks + 1 }) hs cmd
  refine ⟨congrArg (fun execs => [execs]) hchild.execs, ⟨rfl, rfl⟩, ?_⟩
  intro child hmem path hpath
  obtain rfl := List.mem_singleton.mp hmem
  rw [hchild.opened] at hpath
  exact ⟨cmd, List.mem_singleton.mpr rfl, opened_for_writing hpath⟩

include hhost in
theorem wired_pair_iff {cmd₁ cmd₂ : Scommand} (hcmd : External cmd₁) (wait isExit : Bool)
    (hs : s.fds = shellTable a b e) :
    Wired ⟨[cmd₁, cmd₂], wait⟩ s a b e
        (Sys.run host (executePipeline ⟨[cmd₁, cmd₂], wait⟩ isExit) s) ↔
      cmd₂.redirIn = none := by
  obtain ⟨pid₁, hfork₁⟩ := hhost.forkOk s.forks
  obtain ⟨pid₂, hfork₂⟩ := hhost.forkOk (s.forks + 1)
  have hpipe : SysCall.pipe.perform host s = (some ((3 : ℤ), (4 : ℤ)),
      { s with
        fds := pipeTable a b e (pipeReadEnd s.pipes) (pipeWriteEnd s.pipes)
        pipes := s.pipes + 1 }) := by
    simp only [SysCall.perform, hhost.pipeOk, hs, mockPipe_shellTable]
    rfl
  rw [run_pair host hcmd wait isExit hpipe hfork₁ hfork₂]
  have hfirst := firstChild_execs hhost (s := { s with
    fds := pipeTable a b e (pipeReadEnd s.pipes) (pipeWriteEnd s.pipes)
    pipes := s.pipes + 1
    forks := s.forks + 1 }) rfl cmd₁
  have hsecond := secondChild_execs hhost (s := { s with
    fds := pipeTable a b e (pipeReadEnd s.pipes) (pipeWriteEnd s.pipes)
    pipes := s.pipes + 1
    forks := s.forks + 2 }) rfl cmd₂
  constructor
  · rintro ⟨hexecs, -, -⟩
    by_contra hin
    obtain ⟨path, hpath⟩ := Option.ne_none_iff_exists'.mp hin
    -- the second child still has the pipe on descriptor 0
    have hlists := (List.cons.inj (List.cons.inj hexecs).2).1
    have hcall := List.singleton_injective (hsecond.execs.symm.trans hlists)
    have hstdin := congrFun (congrArg ExecCall.fds hcall) 0
    simp [wiredTable, shellTable, redirected, hpath, openedFile, pipeReadEnd] at hstdin
  · intro hin
    have hchild := hsecond.execs
    have hopened := hsecond.opened
    rw [hin] at hchild hopened
    refine ⟨?_, ⟨rfl, rfl⟩, ?_⟩
    · refine congrArg₂ (fun x y => [x, y]) hfirst.execs ?_
      rw [wiredTable, hin]
      exact hchild
    · intro child hmem path hpath
      rcases List.mem_cons.mp hmem with rfl | hmem
      · rw [hfirst.opened] at hpath
        exact ⟨cmd₁, by simp, opened_for_writing hpath⟩
      · obtain rfl := List.mem_singleton.mp hmem
        rw [hopened] at hpath
        exact ⟨cmd₂, by simp, by simpa using hpath⟩

end Wiring

/-- The children find what is written exactly when the second command of a pipe, if there is
one, has no input redirection. -/
theorem wired_iff (host : Host) (s : Process) (a b e : MockFile) (p : Pipeline) (isExit : Bool)
    (hp : ExternalPipeline p) (hhost : host.Succeeds) (hs : s.fds = shellTable a b e) :
    Wired p s a b e (Sys.run host (executePipeline p isExit) s) ↔
      ∀ cmd₁ cmd₂, p.scmd = [cmd₁, cmd₂] → cmd₂.redirIn = none := by
  obtain ⟨scmd, wait⟩ := p
  obtain ⟨hlen, hext⟩ := hp
  rcases hlen with hlen | hlen
  · obtain ⟨cmd, rfl⟩ := List.length_eq_one_iff.mp hlen
    refine iff_of_true (wired_single hhost (hext cmd (by simp)) wait isExit hs) ?_
    rintro cmd₁ cmd₂ h
    simp at h
  · obtain ⟨cmd₁, cmd₂, rfl⟩ := List.length_eq_two.mp hlen
    rw [wired_pair_iff hhost (hext cmd₁ (by simp)) wait isExit hs]
    constructor
    · rintro hin c₁ c₂ h
      obtain ⟨-, rfl, -⟩ := by simpa using h
      exact hin
    · intro h
      exact h cmd₁ cmd₂ rfl

/-! ## Two pipelines -/

def ttyin : MockFile := ⟨.dev, ['t', 't', 'y', 'i', 'n'], true, false⟩
def ttyout : MockFile := ⟨.dev, ['t', 't', 'y', 'o', 'u', 't'], false, true⟩

theorem mockResetTable_eq : mockResetTable = shellTable ttyin ttyout ttyout := by
  funext fd
  rcases fd with _ | _ | _ | fd <;> rfl

def succeedingHost : Host :=
  { forkingHost 0 with forkResult := fun n => some (101 + n).succPNat }

theorem succeedingHost_succeeds : succeedingHost.Succeeds :=
  ⟨fun _ _ => rfl, rfl, fun n => ⟨(101 + n).succPNat, rfl⟩⟩

/-- `a < i | b > o` -/
def outwardPipeline : Pipeline :=
  ⟨[⟨[['a']], some ['i'], none⟩, ⟨[['b']], none, some ['o']⟩], true⟩

theorem wired_outwardPipeline :
    Wired outwardPipeline mockProcess ttyin ttyout ttyout
      (Sys.run succeedingHost (executePipeline outwardPipeline false) mockProcess) :=
  (wired_iff succeedingHost mockProcess ttyin ttyout ttyout outwardPipeline false
    ⟨by decide, by decide⟩ succeedingHost_succeeds mockResetTable_eq).mpr (by
      rintro cmd₁ cmd₂ h
      obtain ⟨-, rfl, -⟩ := by simpa [outwardPipeline] using h
      rfl)

/-- `a | b < i`: the input file of the second command is opened as its output. -/
theorem second_input_not_wired :
    ¬ Wired ⟨[⟨[['a']], none, none⟩, ⟨[['b']], some ['i'], none⟩], true⟩ mockProcess
      ttyin ttyout ttyout
      (Sys.run succeedingHost
        (executePipeline ⟨[⟨[['a']], none, none⟩, ⟨[['b']], some ['i'], none⟩], true⟩ false)
        mockProcess) := by
  intro h
  have hin := (wired_pair_iff succeedingHost_succeeds (by decide) true false mockResetTable_eq).mp h
  simp at hin

end SistOp.MyBash
