import SistOp.LineMeaning
import SistOp.PipelineWiring

/-!
# Asserts and skipped commands

Two properties of whole pipelines: no `assert` fails on the pipeline of a line, and every
command of a pipeline runs once.
-/

namespace SistOp.MyBash

/-! ## Programs that only make calls -/

namespace Sys

variable {α β : Type}

/-- No fork, no `execvp`, no builtin and no failing `assert`. -/
def OnlyCalls {α : Type} : Sys α → Prop
  | pure _ => True
  | stop e => e ≠ .assertFailed
  | call c k => (∀ args, c ≠ .builtinCall args) ∧ ∀ r, (k r).OnlyCalls
  | fork _ => False
  | execvp _ _ => False

namespace OnlyCalls

theorem bind {m : Sys α} {f : α → Sys β} (hm : m.OnlyCalls) (hf : ∀ a, (f a).OnlyCalls) :
    (m >>= f).OnlyCalls := by
  induction m with
  | pure a => exact hf a
  | stop e => exact hm
  | call c k ih => exact ⟨hm.1, fun r => ih r (hm.2 r)⟩
  | fork k ih => exact hm.elim
  | execvp argv k ih => exact hm.elim

theorem perform_bind {c : SysCall} (hc : ∀ args, c ≠ .builtinCall args) {f : c.Result → Sys β}
    (hf : ∀ r, (f r).OnlyCalls) : (Sys.perform c >>= f).OnlyCalls :=
  ⟨hc, hf⟩

theorem ite {c : Prop} [Decidable c] {m n : Sys α} (hm : c → m.OnlyCalls)
    (hn : ¬ c → n.OnlyCalls) : (if c then m else n).OnlyCalls := by
  split_ifs with h
  · exact hm h
  · exact hn h

end OnlyCalls

theorem perform_keeps (host : Host) {c : SysCall} (hc : ∀ args, c ≠ .builtinCall args)
    (s : Process) :
    (c.perform host s).2.builtins = s.builtins ∧ (c.perform host s).2.execs = s.execs := by
  cases c with
  | builtinCall args => exact absurd rfl (hc args)
  | _ =>
      simp only [SysCall.perform]
      repeat' split
      all_goals simp

/-- What a run of such a program leaves as it was. -/
structure CallsRan {α : Type} (s : Process) (ran : Ran α) : Prop where
  ending : ran.ending ≠ .stopped .assertFailed
  builtins : ran.process.builtins = s.builtins
  execs : ran.process.execs = s.execs
  descendants : ran.descendants = []

theorem OnlyCalls.run {m : Sys α} (h : m.OnlyCalls) (host : Host) (s : Process) :
    CallsRan s (m.run host s) := by
  induction m generalizing s with
  | pure a => exact ⟨by simp [Sys.run], rfl, rfl, rfl⟩
  | stop e => exact ⟨fun heq => h (Ending.stopped.inj heq), rfl, rfl, rfl⟩
  | call c k ih =>
      obtain ⟨hbuiltins, hexecs⟩ := perform_keeps host h.1 s
      have hrun := ih (c.perform host s).1 (h.2 _) (c.perform host s).2
      exact ⟨hrun.ending, hrun.builtins.trans hbuiltins, hrun.execs.trans hexecs,
        hrun.descendants⟩
  | fork k ih => exact h.elim
  | execvp argv k ih => exact h.elim

end Sys

/-! ## Builtins -/

theorem args_of_builtinIsInternal {cmd : Scommand} {internal : Bool}
    (h : builtinIsInternal cmd = some internal) : ∃ arg args, cmd.args = arg :: args := by
  cases hargs : cmd.args with
  | nil => simp [builtinIsInternal, cmdIsCd, scommandFront_nil hargs] at h
  | cons arg args => exact ⟨arg, args, rfl⟩

theorem cmdIs_cons {cmd : Scommand} {arg : CString} {args : List CString}
    (hargs : cmd.args = arg :: args) :
    (∃ help, cmdIsHelp cmd = some help) ∧ (∃ exit, cmdIsExit cmd = some exit) ∧
      ∃ cd, cmdIsCd cmd = some cd := by
  have hfront := scommandFront_cons hargs
  refine ⟨?_, ?_, _, by rw [cmdIsCd, hfront]; rfl⟩
  · unfold cmdIsHelp
    split_ifs
    · exact ⟨_, by rw [hfront]; rfl⟩
    · exact ⟨false, rfl⟩
  · unfold cmdIsExit
    split_ifs
    · exact ⟨_, by rw [hfront]; rfl⟩
    · exact ⟨false, rfl⟩

theorem builtinIsInternal_cons {cmd : Scommand} {arg : CString} {args : List CString}
    (hargs : cmd.args = arg :: args) : ∃ internal, builtinIsInternal cmd = some internal := by
  obtain ⟨⟨help, hhelp⟩, ⟨exit, hexit⟩, ⟨cd, hcd⟩⟩ := cmdIs_cons hargs
  rw [builtinIsInternal, hcd]
  cases cd with
  | true => exact ⟨true, rfl⟩
  | false =>
      cases exit with
      | true => exact ⟨true, by simp [hexit]⟩
      | false => exact ⟨help, by simp [hexit, hhelp]⟩

theorem cdPath_onlyCalls (desired : CString) : (cdPath desired).OnlyCalls := by
  unfold cdPath
  refine .ite (fun _ => ?_) fun _ => .ite (fun _ => ?_) fun _ => ?_
  · refine .perform_bind (by simp) fun r => ?_
    cases r with
    | none => exact Stop.noConfusion
    | some path => exact .perform_bind (by simp) fun _ => trivial
  · refine .perform_bind (by simp) fun r => ?_
    cases r with
    | none => exact Stop.noConfusion
    | some path => exact .perform_bind (by simp) fun _ => trivial
  · exact .perform_bind (by simp) fun _ => trivial

theorem runCd_onlyCalls {cmd : Scommand} {arg : CString} {args : List CString}
    (hargs : cmd.args = arg :: args) : (runCd cmd).OnlyCalls := by
  unfold runCd
  rw [scommandPopFront_cons hargs, Sys.asserting_bind]
  refine .perform_bind (by simp) fun home => .ite (fun _ => ?_) fun hsome => ?_
  · exact .perform_bind (by simp) fun _ => trivial
  · cases args with
    | nil => simp [scommandIsEmpty] at hsome
    | cons desired rest =>
        rw [scommandFront_cons rfl, Sys.asserting_bind, scommandPopFront_cons rfl]
        refine .ite (fun _ => .ite (fun _ => ?_) fun _ => .ite (fun _ => ?_) fun _ => ?_)
          fun _ => .ite (fun _ => ?_) fun _ => ?_
        · exact .perform_bind (by simp) fun _ => trivial
        · exact .perform_bind (by simp) fun _ => trivial
        · exact .perform_bind (by simp) fun _ => trivial
        · exact .bind (cdPath_onlyCalls desired) fun _ => trivial
        · trivial

/-- A builtin is recorded, and then only calls are made. -/
theorem builtinRun_eq {cmd : Scommand} (hcmd : builtinIsInternal cmd = some true)
    (isExit : Bool) :
    ∃ body : Sys Bool, body.OnlyCalls ∧
      builtinRun cmd isExit = Sys.perform (.builtinCall cmd.args) >>= fun _ => body := by
  obtain ⟨arg, args, hargs⟩ := args_of_builtinIsInternal hcmd
  obtain ⟨⟨help, hhelp⟩, ⟨exit, hexit⟩, ⟨cd, hcd⟩⟩ := cmdIs_cons hargs
  refine ⟨_, ?_, rfl⟩
  rw [hcmd, Sys.asserting_bind, if_pos rfl, hhelp, Sys.asserting_bind, hexit, Sys.asserting_bind,
    hcd, Sys.asserting_bind]
  refine .ite (fun _ => ?_) fun _ => trivial
  exact .bind (runCd_onlyCalls hargs) fun _ => trivial

/-! ## The other runs -/

section Runs

variable (host : Host) (s : Process) {cmd : Scommand}

theorem run_builtin (hcmd : builtinIsInternal cmd = some true) (cmds : List Scommand)
    (wait isExit : Bool) :
    Sys.CallsRan { s with builtins := s.builtins ++ [cmd.args] }
      (Sys.run host (executePipeline ⟨cmd :: cmds, wait⟩ isExit) s) := by
  obtain ⟨body, hbody, hrun⟩ := builtinRun_eq hcmd isExit
  rw [executePipeline, if_neg (by simp [pipelineIsEmpty]), pipelineFront_mk, Sys.asserting_bind,
    hcmd, Sys.asserting_bind, if_pos rfl, hrun, Sys.run_perform_bind]
  exact hbody.run host _

theorem run_long (hcmd : External cmd) {cmds : List Scommand} (hlen : 2 ≤ cmds.length)
    (wait isExit : Bool) :
    Sys.run host (executePipeline ⟨cmd :: cmds, wait⟩ isExit) s = ⟨.returned isExit, s, []⟩ := by
  rw [executePipeline, if_neg (by simp [pipelineIsEmpty]), pipelineFront_mk, Sys.asserting_bind,
    hcmd, Sys.asserting_bind, if_neg (by simp),
    if_neg (by simp only [pipelineLength, List.length_cons]; omega),
    executeRest, if_neg (by simp only [pipelineLength, List.length_cons]; omega)]
  rfl

theorem run_noArguments (hargs : cmd.args = []) (cmds : List Scommand) (wait isExit : Bool) :
    Sys.run host (executePipeline ⟨cmd :: cmds, wait⟩ isExit) s =
      ⟨.stopped .assertFailed, s, []⟩ := by
  have hinternal : builtinIsInternal cmd = none := by
    simp [builtinIsInternal, cmdIsCd, scommandFront_nil hargs]
  rw [executePipeline, if_neg (by simp [pipelineIsEmpty]), pipelineFront_mk, Sys.asserting_bind,
    hinternal]
  rfl

theorem run_empty (wait isExit : Bool) :
    Sys.run host (executePipeline ⟨[], wait⟩ isExit) s = ⟨.returned isExit, s, []⟩ := rfl

end Runs

/-! ## No failing assert -/

def AssertsHold (ran : Ran Bool) : Prop :=
  ran.ending ≠ .stopped .assertFailed ∧
    ∀ child ∈ ran.descendants, child.ending ≠ .stopped .assertFailed

theorem execRan_ending (host : Host) (s : Process) (argv : List CString) :
    (execRan host s argv : Ran Bool).ending ≠ .stopped .assertFailed := by
  unfold execRan
  cases host.execOk argv <;> simp

theorem singleChild_ending (host : Host) (cmd : Scommand) (s : Process) :
    (singleChild host cmd s).ending ≠ .stopped .assertFailed :=
  execRan_ending host _ _

theorem firstChild_ending (host : Host) (cmd : Scommand) (fdRead fdWrite : ℤ) (s : Process) :
    (firstChild host cmd fdRead fdWrite s).ending ≠ .stopped .assertFailed :=
  execRan_ending host _ _

theorem secondChild_ending (host : Host) (cmd : Scommand) (fdRead fdWrite : ℤ) (s : Process) :
    (secondChild host cmd fdRead fdWrite s).ending ≠ .stopped .assertFailed :=
  execRan_ending host _ _

theorem assertsHold_single (host : Host) (s : Process) {cmd : Scommand} (hcmd : External cmd)
    (wait isExit : Bool) :
    AssertsHold (Sys.run host (executePipeline ⟨[cmd], wait⟩ isExit) s) := by
  cases hfork : host.forkResult s.forks with
  | none =>
      rw [run_single_noFork host hcmd wait isExit hfork]
      exact ⟨by simp, by simp⟩
  | some pid =>
      rw [run_single host hcmd wait isExit hfork]
      exact ⟨by simp, by simpa using singleChild_ending host cmd _⟩

theorem assertsHold_pair (host : Host) (s : Process) {cmd₁ cmd₂ : Scommand}
    (hcmd : External cmd₁) (wait isExit : Bool) :
    AssertsHold (Sys.run host (executePipeline ⟨[cmd₁, cmd₂], wait⟩ isExit) s) := by
  rcases pipe_cases host s with ⟨-, hpipe⟩ | ⟨-, rEnd, wEnd, fds, -, hpipe⟩
  · rw [run_pair_noPipe host hcmd wait isExit hpipe]
    exact ⟨by simp, by simp⟩
  · cases hfork₁ : host.forkResult s.forks with
    | none =>
        rw [run_pair_noFork host hcmd wait isExit hpipe hfork₁]
        exact ⟨by simp, by simp⟩
    | some pid₁ =>
        cases hfork₂ : host.forkResult (s.forks + 1) with
        | none =>
            rw [run_pair_noSecondFork host hcmd wait isExit hpipe hfork₁ hfork₂]
            exact ⟨by simp, by simpa using firstChild_ending host cmd₁ _ _ _⟩
        | some pid₂ =>
            rw [run_pair host hcmd wait isExit hpipe hfork₁ hfork₂]
            exact ⟨by simp, by simpa using
              ⟨firstChild_ending host cmd₁ _ _ _, secondChild_ending host cmd₂ _ _ _⟩⟩

theorem executePipeline_assertsHold {p : Pipeline} (hp : ∀ cmd ∈ p.scmd.head?, cmd.args ≠ [])
    (host : Host) (s : Process) (isExit : Bool) :
    AssertsHold (Sys.run host (executePipeline p isExit) s) := by
  obtain ⟨scmd, wait⟩ := p
  cases scmd with
  | nil =>
      rw [run_empty]
      exact ⟨by simp, by simp⟩
  | cons cmd cmds =>
      obtain ⟨arg, args, hargs⟩ := List.exists_cons_of_ne_nil (hp cmd rfl)
      obtain ⟨internal, hinternal⟩ := builtinIsInternal_cons hargs
      cases internal with
      | true =>
          have hran := run_builtin host s hinternal cmds wait isExit
          exact ⟨hran.ending, by simp [hran.descendants]⟩
      | false =>
          match cmds with
          | [] => exact assertsHold_single host s hinternal wait isExit
          | [_] => exact assertsHold_pair host s hinternal wait isExit
          | _ :: _ :: _ =>
              rw [run_long host s hinternal (by simp)]
              exact ⟨by simp, by simp⟩

/-- Parsing the line and executing its pipeline fail no `assert`, whatever the system answers. -/
def NoAssertFails (lex : Lexer) (line rest : List Char) : Prop :=
  ∃ p state, parsePipeline lex ⟨line ++ '\n' :: rest, []⟩ = some (p, state) ∧
    ∀ host s isExit, AssertsHold (Sys.run host (executePipeline p isExit) s)

/-- The line is accepted and its first command has redirections only. -/
def StartsWithoutArgument (line : List Char) : Prop :=
  ∃ items cmds background, AcceptedAs (tokens line) (items :: cmds) background ∧
    ∀ item ∈ items, item.1 ≠ .normal

theorem Scommand.ofItems_args_eq_nil (items : List Item) :
    (Scommand.ofItems items).args = [] ↔ ∀ item ∈ items, item.1 ≠ .normal := by
  rw [Scommand.ofItems_fields]
  simp [List.filter_eq_nil_iff]

theorem noAssertFails_iff (lex : Lexer) (line rest : List Char) (hline : '\n' ∉ line) :
    NoAssertFails lex line rest ↔ ¬ StartsWithoutArgument line := by
  obtain ⟨out, hparse⟩ := parsePipeline_line lex rest [] hline
  constructor
  · rintro ⟨p, state, hp, hrun⟩ ⟨items, cmds, background, haccept, hredirs⟩
    obtain ⟨rfl, -⟩ := Prod.mk.inj (Option.some.inj (hparse.symm.trans hp))
    have hran := (hrun succeedingHost mockProcess false).1
    rw [linePipeline_of_accepted haccept, Pipeline.ofItems, List.map_cons,
      run_noArguments _ _ ((Scommand.ofItems_args_eq_nil items).mpr hredirs)] at hran
    exact hran rfl
  · intro hstart
    refine ⟨_, _, hparse, executePipeline_assertsHold ?_⟩
    intro cmd hcmd hargs
    have hne : (linePipeline (tokens line)).scmd ≠ [] := by
      rintro hnil
      simp [hnil] at hcmd
    obtain ⟨cmds, background, haccept⟩ := acceptedAs_of_ne_nil hne
    obtain ⟨items, cmds, rfl⟩ := List.exists_cons_of_ne_nil haccept.1.nonempty
    rw [linePipeline_of_accepted haccept] at hcmd
    obtain rfl : Scommand.ofItems items = cmd := by simpa [Pipeline.ofItems] using hcmd
    exact hstart ⟨items, cmds, background, haccept, (Scommand.ofItems_args_eq_nil items).mp hargs⟩

theorem noAssertFails_word : NoAssertFails describedLexer ['a'] [] := by
  refine (noAssertFails_iff describedLexer ['a'] [] (by decide)).mpr ?_
  rintro ⟨items, cmds, background, haccept, hredirs⟩
  have hword : AcceptedAs (tokens ['a']) [[(.normal, ['a'])]] false :=
    ⟨⟨by simp, by simp⟩, [], by decide, by simp, by simp⟩
  obtain ⟨rfl, -⟩ := List.cons.inj (haccept.unique hword).1
  exact hredirs (.normal, ['a']) (by simp) rfl

/-- `< f`: the front of a command without arguments is taken. -/
theorem redirection_only_line_aborts : ¬ NoAssertFails describedLexer ['<', ' ', 'f'] [] := by
  rintro ⟨p, state, hp, hrun⟩
  have hparse : parsePipeline describedLexer ⟨['<', ' ', 'f'] ++ '\n' :: [], []⟩ =
      some (⟨[⟨[], some ['f'], none⟩], true⟩, ⟨[], []⟩) := by decide
  obtain ⟨rfl, -⟩ := Prod.mk.inj (Option.some.inj (hparse.symm.trans hp))
  have hran := (hrun succeedingHost mockProcess false).1
  rw [run_noArguments succeedingHost mockProcess rfl] at hran
  exact hran rfl

/-! ## Every command runs once -/

/-- The commands run on behalf of the shell since `s`: its builtins, and what its children
gave to `execvp`. -/
def commandsRun (s : Process) (ran : Ran Bool) : List (List CString) :=
  ran.process.builtins.drop s.builtins.length ++
    ran.descendants.flatMap fun child => child.process.execs.map ExecCall.argv

/-- Each command runs once, in the shell as a builtin or in a child of its own. -/
structure RunsEachOnce (p : Pipeline) (s : Process) (ran : Ran Bool) : Prop where
  commands : (commandsRun s ran).Perm (p.scmd.map (·.args))
  children : ∀ child ∈ ran.descendants, child.process.execs.length = 1
  shell : ran.process.execs = s.execs

/-- One command, or two of which the first is no builtin, and the first has an argument. -/
def RunsAll (p : Pipeline) : Prop :=
  ∃ cmd cmds, p.scmd = cmd :: cmds ∧ cmd.args ≠ [] ∧
    (cmds = [] ∨ (cmds.length = 1 ∧ External cmd))

/-- `fork` succeeds, and `pipe` does and finds two descriptors. -/
structure Host.ForksAndPipes (host : Host) (s : Process) : Prop where
  forkOk : ∀ n, ∃ pid, host.forkResult n = some pid
  pipeOk : host.pipeOk = true
  room : mockPipe s.fds s.pipes ≠ none

theorem after_execs (host : Host) {c : SysCall} (hc : ∀ args, c ≠ .builtinCall args)
    (s : Process) : (c.after host s).execs = s.execs :=
  (Sys.perform_keeps host hc s).2

theorem execRan_redirected (host : Host) (mode mode' : AccessMode) (fd fd' : ℤ)
    (file file' : Option CString) {s : Process} (hs : s.execs = []) (argv : List CString) :
    ((execRan host (redirect host mode fd file (redirect host mode' fd' file' s)) argv :
      Ran Bool).process.execs).map ExecCall.argv = [argv] := by
  obtain ⟨fds', opened', hinner⟩ := redirect_frame host s mode' fd' file'
  obtain ⟨fds, opened, houter⟩ := redirect_frame host
    { s with fds := fds', opened := opened' } mode fd file
  rw [hinner, houter, execRan]
  simp [hs]

theorem singleChild_argv (host : Host) (cmd : Scommand) (s : Process) :
    (singleChild host cmd s.forked).process.execs.map ExecCall.argv = [cmd.args] :=
  execRan_redirected host _ _ _ _ _ _ rfl _

theorem firstChild_argv (host : Host) (cmd : Scommand) (fdRead fdWrite : ℤ) (s : Process) :
    (firstChild host cmd fdRead fdWrite s.forked).process.execs.map ExecCall.argv =
      [cmd.args] := by
  refine execRan_redirected host _ _ _ _ _ _ ?_ _
  rw [after_execs host (by simp), after_execs host (by simp), after_execs host (by simp)]
  rfl

theorem secondChild_argv (host : Host) (cmd : Scommand) (fdRead fdWrite : ℤ) (s : Process) :
    (secondChild host cmd fdRead fdWrite s.forked).process.execs.map ExecCall.argv =
      [cmd.args] := by
  refine execRan_redirected host _ _ _ _ _ _ ?_ _
  rw [after_execs host (by simp), after_execs host (by simp), after_execs host (by simp)]
  rfl

theorem length_of_argv {execs : List ExecCall} {argv : List CString}
    (h : execs.map ExecCall.argv = [argv]) : execs.length = 1 := by
  rw [← List.length_map (f := ExecCall.argv), h]
  rfl

section Once

variable {host : Host} {s : Process} (hhost : host.ForksAndPipes s) {cmd cmd₂ : Scommand}

include hhost in
theorem runsOnce_single (hcmd : External cmd) (wait isExit : Bool) :
    RunsEachOnce ⟨[cmd], wait⟩ s (Sys.run host (executePipeline ⟨[cmd], wait⟩ isExit) s) := by
  obtain ⟨pid, hfork⟩ := hhost.forkOk s.forks
  rw [run_single host hcmd wait isExit hfork]
  have hargv := singleChild_argv host cmd { s with forks := s.forks + 1 }
  refine ⟨?_, by simpa using length_of_argv hargv, rfl⟩
  simp [commandsRun, hargv]

include hhost in
theorem runsOnce_pair (hcmd : External cmd) (wait isExit : Bool) :
    RunsEachOnce ⟨[cmd, cmd₂], wait⟩ s
      (Sys.run host (executePipeline ⟨[cmd, cmd₂], wait⟩ isExit) s) := by
  obtain ⟨pid₁, hfork₁⟩ := hhost.forkOk s.forks
  obtain ⟨pid₂, hfork₂⟩ := hhost.forkOk (s.forks + 1)
  rcases pipe_cases host s with ⟨hbad, -⟩ | ⟨-, rEnd, wEnd, fds, -, hpipe⟩
  · rcases hbad with hbad | hbad
    · rw [hhost.pipeOk] at hbad
      simp at hbad
    · exact absurd hbad hhost.room
  · rw [run_pair host hcmd wait isExit hpipe hfork₁ hfork₂]
    have hargv₁ := firstChild_argv host cmd rEnd wEnd
      { s with fds := fds, pipes := s.pipes + 1, forks := s.forks + 1 }
    have hargv₂ := secondChild_argv host cmd₂ rEnd wEnd
      { s with fds := fds, pipes := s.pipes + 1, forks := s.forks + 2 }
    refine ⟨?_, by simpa using ⟨length_of_argv hargv₁, length_of_argv hargv₂⟩, rfl⟩
    simp [commandsRun, hargv₁, hargv₂, pairParent, SysCall.after, SysCall.perform]

theorem commandsRun_builtin (hcmd : builtinIsInternal cmd = some true) (cmds : List Scommand)
    (wait isExit : Bool) :
    commandsRun s (Sys.run host (executePipeline ⟨cmd :: cmds, wait⟩ isExit) s) = [cmd.args] := by
  have hran := run_builtin host s hcmd cmds wait isExit
  rw [commandsRun, hran.builtins, hran.descendants]
  simp

end Once

/-- Every command runs once if and only if there is one command, or there are two and the
first is external, and the first has an argument. -/
theorem runsEachOnce_iff (host : Host) (s : Process) (p : Pipeline) (isExit : Bool)
    (hp : p.scmd ≠ []) (hhost : host.ForksAndPipes s) :
    RunsEachOnce p s (Sys.run host (executePipeline p isExit) s) ↔ RunsAll p := by
  obtain ⟨scmd, wait⟩ := p
  obtain ⟨cmd, cmds, rfl⟩ := List.exists_cons_of_ne_nil hp
  constructor
  · intro hruns
    have hlen := hruns.commands.length_eq
    rw [List.length_map] at hlen
    refine ⟨cmd, cmds, rfl, ?_, ?_⟩
    · intro hargs
      rw [run_noArguments host s hargs] at hlen
      simp [commandsRun] at hlen
    · by_cases hargs : cmd.args = []
      · rw [run_noArguments host s hargs] at hlen
        simp [commandsRun] at hlen
      · obtain ⟨arg, args, hcons⟩ := List.exists_cons_of_ne_nil hargs
        obtain ⟨internal, hinternal⟩ := builtinIsInternal_cons hcons
        cases internal with
        | true =>
            rw [commandsRun_builtin hinternal] at hlen
            left
            simpa using hlen.symm
        | false =>
            by_cases hlong : 2 ≤ cmds.length
            · rw [run_long host s hinternal hlong] at hlen
              simp [commandsRun] at hlen
            · rcases Nat.eq_zero_or_pos cmds.length with hzero | hpos
              · exact .inl (List.length_eq_zero_iff.mp hzero)
              · exact .inr ⟨by omega, hinternal⟩
  · rintro ⟨cmd', cmds', heq, hargs, hshape⟩
    obtain ⟨rfl, rfl⟩ := List.cons.inj heq
    obtain ⟨arg, args, hcons⟩ := List.exists_cons_of_ne_nil hargs
    obtain ⟨internal, hinternal⟩ := builtinIsInternal_cons hcons
    cases internal with
    | true =>
        have hnil : cmds = [] := by
          rcases hshape with hnil | ⟨-, hext⟩
          · exact hnil
          · rw [External, hinternal] at hext
            simp at hext
        subst hnil
        have hran := run_builtin host s hinternal [] wait isExit
        refine ⟨?_, by simp [hran.descendants], hran.execs⟩
        rw [commandsRun_builtin hinternal]
        simp
    | false =>
        rcases hshape with rfl | ⟨hone, -⟩
        · exact runsOnce_single hhost hinternal wait isExit
        · obtain ⟨cmd₂, rfl⟩ := List.length_eq_one_iff.mp hone
          exact runsOnce_pair hhost hinternal wait isExit

theorem succeedingHost_forksAndPipes : succeedingHost.ForksAndPipes mockProcess :=
  ⟨succeedingHost_succeeds.forkOk, rfl, by
    rw [show mockProcess.fds = shellTable ttyin ttyout ttyout from mockResetTable_eq,
      mockPipe_shellTable]
    simp⟩

theorem runsEachOnce_pairPipeline :
    RunsEachOnce pairPipeline mockProcess
      (Sys.run succeedingHost (executePipeline pairPipeline false) mockProcess) :=
  (runsEachOnce_iff succeedingHost mockProcess pairPipeline false (by decide)
    succeedingHost_forksAndPipes).mpr ⟨_, _, rfl, by simp, .inr ⟨rfl, by decide⟩⟩

/-- `a | b | c` is a pipeline of the parser, and nothing of it is run. -/
theorem three_commands_skipped :
    ∃ p state, parsePipeline describedLexer
        ⟨['a', '|', 'b', '|', 'c'] ++ '\n' :: [], []⟩ = some (p, state) ∧ p.scmd ≠ [] ∧
      ¬ RunsEachOnce p mockProcess
        (Sys.run succeedingHost (executePipeline p false) mockProcess) := by
  have hparse : parsePipeline describedLexer ⟨['a', '|', 'b', '|', 'c'] ++ '\n' :: [], []⟩ =
      some (⟨[⟨[['a']], none, none⟩, ⟨[['b']], none, none⟩, ⟨[['c']], none, none⟩], true⟩,
        ⟨[], []⟩) := by decide
  refine ⟨_, _, hparse, by simp, fun hruns => ?_⟩
  have hlen := hruns.commands.length_eq
  rw [run_long succeedingHost mockProcess (by decide) (by simp)] at hlen
  simp [commandsRun] at hlen

end SistOp.MyBash
