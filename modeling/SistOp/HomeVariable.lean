import SistOp.CommandsRun

/-!
# The value of HOME

`getenv` returns the environment's own string, and two branches of `cd` write to it.  Each
run of builtin commands is compared with the value that HOME had before it.
-/

namespace SistOp.MyBash

/-! ## One builtin command -/

theorem Sys.run_bind_pure_process {α β : Type} (host : Host) (m : Sys α) (b : β) (s : Process) :
    (Sys.run host (m >>= fun _ => Pure.pure b) s).process = (Sys.run host m s).process := by
  change (Sys.run host (m.bind fun _ => Sys.pure b) s).process = _
  induction m generalizing s with
  | pure a => rfl
  | stop e => rfl
  | call c k ih => exact ih _ _
  | fork k ih =>
      simp only [Sys.bind, Sys.run]
      cases host.forkResult s.forks with
      | none => exact ih _ _
      | some pid => exact ih _ _
  | execvp argv k ih =>
      simp only [Sys.bind, Sys.run]
      split_ifs
      · rfl
      · exact ih _ _

/-- The process in which the branches of `builtin_run` start. -/
def Process.called (s : Process) (cmd : Scommand) : Process :=
  { s with builtins := s.builtins ++ [cmd.args] }

@[simp] theorem Process.called_home (s : Process) (cmd : Scommand) :
    (s.called cmd).home = s.home := rfl

@[simp] theorem Process.called_chdirs (s : Process) (cmd : Scommand) :
    (s.called cmd).chdirs = s.chdirs := rfl

section OneCommand

variable (host : Host) (s : Process) {cmd : Scommand} {args rest : List CString}

theorem builtinRun_of_cd (hargs : cmd.args = cdName :: args) :
    (Sys.run host (builtinRun cmd false) s).process =
      (Sys.run host (runCd cmd) (s.called cmd)).process := by
  obtain ⟨⟨help, hhelp⟩, ⟨exit, hexit⟩, -⟩ := cmdIs_cons hargs
  have hcd : cmdIsCd cmd = some true := by
    rw [cmdIsCd, scommandFront_cons hargs]
    rfl
  have hinternal : builtinIsInternal cmd = some true := by
    rw [builtinIsInternal, hcd]
    rfl
  rw [builtinRun, Sys.run_perform_bind, hinternal, Sys.asserting_bind, if_pos rfl, hhelp,
    Sys.asserting_bind, hexit, Sys.asserting_bind, hcd, Sys.asserting_bind, if_pos rfl]
  exact Sys.run_bind_pure_process host (runCd cmd) _ _

theorem builtinRun_of_not_cd (hinternal : builtinIsInternal cmd = some true)
    (hargs : ∀ args, cmd.args ≠ cdName :: args) :
    (Sys.run host (builtinRun cmd false) s).process = s.called cmd := by
  obtain ⟨arg, args, hcons⟩ := args_of_builtinIsInternal hinternal
  obtain ⟨⟨help, hhelp⟩, ⟨exit, hexit⟩, -⟩ := cmdIs_cons hcons
  have harg : arg ≠ cdName := by
    rintro rfl
    exact hargs args hcons
  have hcd : cmdIsCd cmd = some false := by
    simp [cmdIsCd, scommandFront_cons hcons, harg]
  rw [builtinRun, Sys.run_perform_bind, hinternal, Sys.asserting_bind, if_pos rfl, hhelp,
    Sys.asserting_bind, hexit, Sys.asserting_bind, hcd, Sys.asserting_bind]
  rfl

theorem runCd_toHome (hargs : cmd.args = cdName :: rest)
    (hrest : rest = [] ∨ rest.head? = some ['~']) :
    (Sys.run host (runCd cmd) s).process = (SysCall.chdir s.home).after host s := by
  rw [runCd, scommandPopFront_cons hargs, Sys.asserting_bind, Sys.run_perform_bind]
  cases rest with
  | nil => rfl
  | cons dir rest =>
      obtain rfl : dir = ['~'] := by simpa using hrest
      rfl

theorem runCd_dot (hargs : cmd.args = cdName :: ['.'] :: rest) :
    (Sys.run host (runCd cmd) s).process = (SysCall.getcwdHome maxBuff).after host s := by
  rw [runCd, scommandPopFront_cons hargs, Sys.asserting_bind, Sys.run_perform_bind]
  rfl

theorem chdir_after_home (path : Option CString) :
    ((SysCall.chdir path).after host s).home = s.home := by
  simp only [SysCall.after, SysCall.perform]
  split <;> rfl

/-- A first argument of at least two characters goes to `cdPath`. -/
theorem runCd_path {first second : Char} {dir : CString}
    (hargs : cmd.args = cdName :: (first :: second :: dir) :: rest) :
    (Sys.run host (runCd cmd) s).process =
      (Sys.run host (cdPath (first :: second :: dir)) s).process := by
  rw [runCd, scommandPopFront_cons hargs, Sys.asserting_bind, Sys.run_perform_bind]
  exact Sys.run_bind_pure_process host (cdPath (first :: second :: dir)) () s

theorem runCd_underHome {dir home : CString}
    (hargs : cmd.args = cdName :: ('~' :: '/' :: dir) :: rest) (hhome : s.home = some home) :
    (Sys.run host (runCd cmd) s).process.home = some (home ++ '/' :: dir) := by
  rw [runCd_path host s hargs, cdPath, if_pos ⟨rfl, rfl⟩, Sys.run_perform_bind]
  simp only [SysCall.perform, hhome]
  exact chdir_after_home host _ _

theorem runCd_underNoHome {dir : CString}
    (hargs : cmd.args = cdName :: ('~' :: '/' :: dir) :: rest) (hhome : s.home = none) :
    (Sys.run host (runCd cmd) s).process = s := by
  rw [runCd_path host s hargs, cdPath, if_pos ⟨rfl, rfl⟩, Sys.run_perform_bind]
  simp only [SysCall.perform, hhome]
  rfl

theorem cdPath_home {desired : CString}
    (hunder : ¬ (desired[0]? = some '~' ∧ desired[1]? = some '/')) :
    (Sys.run host (cdPath desired) s).process.home = s.home := by
  rw [cdPath, if_neg hunder]
  split_ifs
  · rw [Sys.run_perform_bind]
    simp only [SysCall.perform]
    cases s.cwdFits maxBuff with
    | none => rfl
    | some cwd => exact chdir_after_home host s _
  · exact chdir_after_home host s _

theorem runCd_elsewhere {dir : CString} (hargs : cmd.args = cdName :: dir :: rest)
    (htilde : dir ≠ ['~']) (hdot : dir ≠ ['.']) (hunder : ∀ path, dir ≠ '~' :: '/' :: path) :
    (Sys.run host (runCd cmd) s).process.home = s.home := by
  match dir with
  | [] =>
      rw [runCd, scommandPopFront_cons hargs, Sys.asserting_bind, Sys.run_perform_bind]
      rfl
  | [letter] =>
      rw [runCd, scommandPopFront_cons hargs, Sys.asserting_bind, Sys.run_perform_bind,
        if_neg (by simp [scommandIsEmpty]), scommandFront_cons rfl, Sys.asserting_bind]
      simp only [List.length_singleton, if_true, if_neg htilde, if_neg hdot]
      exact chdir_after_home host s _
  | first :: second :: path =>
      rw [runCd_path host s hargs]
      refine cdPath_home host s ?_
      rintro ⟨hfirst, hsecond⟩
      obtain rfl : first = '~' := by simpa using hfirst
      obtain rfl : second = '/' := by simpa using hsecond
      exact hunder path rfl

end OneCommand

/-! ## Sequences of builtin commands -/

structure BuiltinStep where
  before : Process
  cmd : Scommand
  after : Process

/-- The steps of a sequence of builtin commands, up to one that crashes. -/
def builtinTrace (host : Host) : Process → List Scommand → List BuiltinStep
  | _, [] => []
  | s, cmd :: cmds =>
      let ran := Sys.run host (builtinRun cmd false) s
      ⟨s, cmd, ran.process⟩ ::
        match ran.ending with
        | .returned _ => builtinTrace host ran.process cmds
        | _ => []

/-- HOME has its value after the step, and `cd`, `cd ~` and `cd ~/dir` went by it. -/
structure KeepsHome (home : Option CString) (step : BuiltinStep) : Prop where
  value : step.after.home = home
  toHome : ∀ rest, step.cmd.args = cdName :: rest → (rest = [] ∨ rest.head? = some ['~']) →
    step.after.chdirs = step.before.chdirs ++ [home]
  underHome : ∀ dir rest, step.cmd.args = cdName :: ('~' :: '/' :: dir) :: rest →
    step.after.chdirs = step.before.chdirs ++ [home.map (· ++ '/' :: dir)]

/-- No `cd ~/dir`, and `cd .` only where the directory is not written over another HOME: it
is the value of HOME, it does not fit in the buffer, or HOME is unset. -/
structure Harmless (s : Process) (cmd : Scommand) : Prop where
  noDir : ∀ dir rest, cmd.args ≠ cdName :: ('~' :: '/' :: dir) :: rest
  dot : ∀ rest, cmd.args = cdName :: ['.'] :: rest →
    s.home = none ∨ s.cwdFits maxBuff = none ∨ s.home = some s.cwd

/-- Every step of the sequence keeps the HOME that it started with. -/
def HomeKept (host : Host) (s : Process) (cmds : List Scommand) : Prop :=
  ∀ step ∈ builtinTrace host s cmds, KeepsHome s.home step

def HarmlessSequence (host : Host) (s : Process) (cmds : List Scommand) : Prop :=
  ∀ step ∈ builtinTrace host s cmds, Harmless step.before step.cmd

section Steps

variable (host : Host) {s : Process} {cmd : Scommand}

theorem getcwdHome_after_home :
    ((SysCall.getcwdHome maxBuff).after host s).home = s.home ↔
      s.home = none ∨ s.cwdFits maxBuff = none ∨ s.home = some s.cwd := by
  simp only [SysCall.after, SysCall.perform, Process.cwdFits]
  cases hhome : s.home with
  | none => simpa using hhome
  | some home =>
      by_cases hfits : s.cwd.length + 1 ≤ maxBuff
      · simp [hfits, eq_comm]
      · simpa [hfits] using hhome

theorem chdir_after_chdirs (path : Option CString) :
    ((SysCall.chdir path).after host s).chdirs = s.chdirs ++ [path] := by
  simp only [SysCall.after, SysCall.perform]
  split <;> rfl

theorem harmless_of_keepsHome
    (hkeeps : KeepsHome s.home ⟨s, cmd, (Sys.run host (builtinRun cmd false) s).process⟩) :
    Harmless s cmd := by
  have hvalue : (Sys.run host (builtinRun cmd false) s).process.home = s.home := hkeeps.value
  refine ⟨fun dir rest hunder => ?_, fun rest hdot => ?_⟩
  · cases hset : s.home with
    | none =>
        -- the crash comes before the `chdir`
        have hchdirs : (Sys.run host (builtinRun cmd false) s).process.chdirs =
            s.chdirs ++ [s.home.map (· ++ '/' :: dir)] := hkeeps.underHome dir rest hunder
        rw [builtinRun_of_cd host s hunder,
          runCd_underNoHome host (s.called cmd) hunder hset] at hchdirs
        simp at hchdirs
    | some home =>
        rw [builtinRun_of_cd host s hunder,
          runCd_underHome host (s.called cmd) hunder hset, hset] at hvalue
        simp at hvalue
  · rw [builtinRun_of_cd host s hdot, runCd_dot host (s.called cmd) hdot] at hvalue
    exact (getcwdHome_after_home host (s := s.called cmd)).mp hvalue

theorem builtinRun_home (hcmd : builtinIsInternal cmd = some true) (hharmless : Harmless s cmd) :
    (Sys.run host (builtinRun cmd false) s).process.home = s.home := by
  by_cases hcd : ∃ args, cmd.args = cdName :: args
  · obtain ⟨args, hargs⟩ := hcd
    rw [builtinRun_of_cd host s hargs]
    match args with
    | [] =>
        rw [runCd_toHome host _ hargs (.inl rfl)]
        exact chdir_after_home host _ _
    | dir :: rest =>
        by_cases htilde : dir = ['~']
        · rw [runCd_toHome host _ hargs (.inr (by rw [htilde]; rfl))]
          exact chdir_after_home host _ _
        · by_cases hdot : dir = ['.']
          · subst hdot
            rw [runCd_dot host _ hargs]
            exact (getcwdHome_after_home host).mpr (hharmless.dot rest hargs)
          · refine runCd_elsewhere host _ hargs htilde hdot fun path hunder => ?_
            subst hunder
            exact hharmless.noDir path rest hargs
  · rw [builtinRun_of_not_cd host s hcmd fun args hargs => hcd ⟨args, hargs⟩]
    rfl

theorem keepsHome_of_harmless (hcmd : builtinIsInternal cmd = some true)
    (hharmless : Harmless s cmd) :
    KeepsHome s.home ⟨s, cmd, (Sys.run host (builtinRun cmd false) s).process⟩ := by
  refine ⟨builtinRun_home host hcmd hharmless, fun rest hargs hrest => ?_,
    fun dir rest hargs => absurd hargs (hharmless.noDir dir rest)⟩
  rw [builtinRun_of_cd host s hargs, runCd_toHome host _ hargs hrest, chdir_after_chdirs]
  rfl

theorem keepsHome_step_iff (hcmd : builtinIsInternal cmd = some true) :
    KeepsHome s.home ⟨s, cmd, (Sys.run host (builtinRun cmd false) s).process⟩ ↔
      Harmless s cmd :=
  ⟨harmless_of_keepsHome host, keepsHome_of_harmless host hcmd⟩

end Steps

def cdCommand (args : List CString) : Scommand := ⟨cdName :: args, none, none⟩

theorem cmd_of_mem_builtinTrace (host : Host) {s : Process} {cmds : List Scommand}
    {step : BuiltinStep} (hstep : step ∈ builtinTrace host s cmds) : step.cmd ∈ cmds := by
  induction cmds generalizing s with
  | nil => simp [builtinTrace] at hstep
  | cons cmd cmds ih =>
      rw [builtinTrace, List.mem_cons] at hstep
      rcases hstep with rfl | hstep
      · simp
      · split at hstep
        · exact List.mem_cons_of_mem _ (ih hstep)
        · simp at hstep

end SistOp.MyBash
