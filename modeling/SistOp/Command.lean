import Mathlib.Tactic

/-!
# Simple commands and pipelines

The two abstract types of `command.c`.  A string is the list of its characters, `NULL` is
`none`, and an operation with a failing `assert` gives `none`.
-/

namespace SistOp.MyBash

abbrev CString := List Char

structure Scommand where
  args : List CString
  redirIn : Option CString
  redirOut : Option CString
  deriving Repr, DecidableEq

structure Pipeline where
  scmd : List Scommand
  wait : Bool
  deriving Repr, DecidableEq

/-! ## Simple commands -/

def scommandNew : Scommand := ⟨[], none, none⟩

def scommandPushBack (self : Scommand) (argument : CString) : Scommand :=
  { self with args := self.args ++ [argument] }

def scommandSetRedirIn (self : Scommand) (filename : CString) : Scommand :=
  { self with redirIn := some filename }

def scommandSetRedirOut (self : Scommand) (filename : CString) : Scommand :=
  { self with redirOut := some filename }

def scommandIsEmpty (self : Scommand) : Bool := self.args.length == 0

def scommandLength (self : Scommand) : ℕ := self.args.length

def scommandFront (self : Scommand) : Option CString :=
  if scommandIsEmpty self then none else self.args.head?

def scommandPopFront (self : Scommand) : Option Scommand :=
  if scommandIsEmpty self then none else some { self with args := self.args.tail }

/-- The loop of `scommand_to_array`: the front is copied and popped `len` times. -/
def scommandToArrayLoop : ℕ → Scommand → Option (List CString × Scommand)
  | 0, scmd => some ([], scmd)
  | len + 1, scmd => do
      let arg ← scommandFront scmd
      let scmd ← scommandPopFront scmd
      let (ret, scmd) ← scommandToArrayLoop len scmd
      some (arg :: ret, scmd)

def scommandToArray (scmd : Scommand) : Option (List CString) :=
  (scommandToArrayLoop (scommandLength scmd) scmd).map Prod.fst

/-- The loop of `scommand_to_string` over the arguments, with the string so far. -/
def argsToString : CString → List CString → CString
  | str, [] => str
  | str, [arg] => str ++ arg
  | str, arg :: args => argsToString (str ++ arg ++ [' ']) args

def scommandToString (self : Scommand) : CString :=
  let str := argsToString [] self.args
  let str := match self.redirIn with
    | none => str
    | some file => str ++ [' ', '<', ' '] ++ file
  match self.redirOut with
    | none => str
    | some file => str ++ [' ', '>', ' '] ++ file

@[simp] theorem scommandPushBack_args (self : Scommand) (arg : CString) :
    (scommandPushBack self arg).args = self.args ++ [arg] := rfl

theorem scommandFront_cons {self : Scommand} {arg : CString} {args : List CString}
    (hargs : self.args = arg :: args) : scommandFront self = some arg := by
  simp [scommandFront, scommandIsEmpty, hargs]

theorem scommandFront_nil {self : Scommand} (hargs : self.args = []) :
    scommandFront self = none := by
  simp [scommandFront, scommandIsEmpty, hargs]

theorem scommandPopFront_cons {self : Scommand} {arg : CString} {args : List CString}
    (hargs : self.args = arg :: args) :
    scommandPopFront self = some { self with args := args } := by
  simp [scommandPopFront, scommandIsEmpty, hargs]

theorem scommandToArrayLoop_eq (self : Scommand) :
    scommandToArrayLoop self.args.length self = some (self.args, { self with args := [] }) := by
  obtain ⟨args, redirIn, redirOut⟩ := self
  induction args with
  | nil => rfl
  | cons arg args ih =>
      simp only [List.length_cons, scommandToArrayLoop]
      rw [scommandFront_cons rfl, scommandPopFront_cons rfl]
      simp only [Option.bind_eq_bind, Option.bind_some, ih]

@[simp] theorem scommandToArray_eq (self : Scommand) :
    scommandToArray self = some self.args := by
  rw [scommandToArray, scommandLength, scommandToArrayLoop_eq, Option.map_some]

/-! ## Pipelines -/

def pipelineNew : Pipeline := ⟨[], true⟩

def pipelinePushBack (self : Pipeline) (sc : Scommand) : Pipeline :=
  { self with scmd := self.scmd ++ [sc] }

def pipelineSetWait (self : Pipeline) (w : Bool) : Pipeline := { self with wait := w }

def pipelineIsEmpty (self : Pipeline) : Bool := self.scmd.length == 0

def pipelineLength (self : Pipeline) : ℕ := self.scmd.length

def pipelinePopFront (self : Pipeline) : Option Pipeline :=
  if pipelineIsEmpty self then none else some { self with scmd := self.scmd.tail }

def pipelineFront (self : Pipeline) : Option Scommand :=
  if pipelineIsEmpty self then none else self.scmd.head?

def pipelineGetWait (self : Pipeline) : Bool := self.wait

/-- The loop of `pipeline_to_string` over the commands, the last one included. -/
def scmdsToString : CString → List Scommand → CString
  | str, [] => str
  | str, [cmd] => str ++ scommandToString cmd
  | str, cmd :: cmds => scmdsToString (str ++ scommandToString cmd ++ [' ', '|', ' ']) cmds

def pipelineToString (self : Pipeline) : CString :=
  match self.scmd with
  | [] => []
  | cmds =>
      let str := scmdsToString [] cmds
      if pipelineGetWait self then str else str ++ [' ', '&']

theorem pipelineFront_cons {self : Pipeline} {cmd : Scommand} {cmds : List Scommand}
    (hscmd : self.scmd = cmd :: cmds) : pipelineFront self = some cmd := by
  simp [pipelineFront, pipelineIsEmpty, hscmd]

theorem pipelinePopFront_cons {self : Pipeline} {cmd : Scommand} {cmds : List Scommand}
    (hscmd : self.scmd = cmd :: cmds) :
    pipelinePopFront self = some { self with scmd := cmds } := by
  simp [pipelinePopFront, pipelineIsEmpty, hscmd]

@[simp] theorem pipelineFront_mk (cmd : Scommand) (cmds : List Scommand) (wait : Bool) :
    pipelineFront ⟨cmd :: cmds, wait⟩ = some cmd := pipelineFront_cons rfl

@[simp] theorem pipelinePopFront_mk (cmd : Scommand) (cmds : List Scommand) (wait : Bool) :
    pipelinePopFront ⟨cmd :: cmds, wait⟩ = some ⟨cmds, wait⟩ := pipelinePopFront_cons rfl

/-! ## The printed text without accumulators -/

theorem argsToString_eq (str : CString) (args : List CString) :
    argsToString str args = str ++ List.intercalate [' '] args := by
  induction args generalizing str with
  | nil => simp [argsToString]
  | cons arg args ih =>
      cases args with
      | nil => simp [argsToString]
      | cons next args =>
          rw [argsToString, ih, List.intercalate_cons_cons]
          · simp
          · simp

theorem scmdsToString_eq (str : CString) (cmds : List Scommand) :
    scmdsToString str cmds =
      str ++ List.intercalate [' ', '|', ' '] (cmds.map scommandToString) := by
  induction cmds generalizing str with
  | nil => simp [scmdsToString]
  | cons cmd cmds ih =>
      cases cmds with
      | nil => simp [scmdsToString]
      | cons next cmds =>
          rw [scmdsToString, ih]
          · simp only [List.map_cons, List.intercalate_cons_cons, List.append_assoc]
          · simp

end SistOp.MyBash
