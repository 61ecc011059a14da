import SistOp.Command

/-!
# The blocks that a printed command is built in

`strmerge` allocates a new block for the strings that it joins; `strcat` writes behind the
string that a block already holds.  `scommand_to_string` and `pipeline_to_string` are repeated
here with the size of the block and a record of every `strcat`.
-/

namespace SistOp.MyBash

/-- An allocated block with the string in it. -/
structure Block where
  text : CString
  size : ℕ
  deriving DecidableEq

def strdup (s : CString) : Block := ⟨s, s.length + 1⟩

def strmerge (s1 : Block) (s2 : CString) : Block :=
  ⟨s1.text ++ s2, s1.text.length + s2.length + 1⟩

/-- A call of `strcat` with the block that its destination points to. -/
structure Strcat where
  dest : Block
  src : CString
  deriving DecidableEq

/-- The block has room for both strings and the terminator. -/
def Strcat.Fits (call : Strcat) : Prop :=
  call.dest.text.length + call.src.length + 1 ≤ call.dest.size

instance (call : Strcat) : Decidable call.Fits := by
  unfold Strcat.Fits
  infer_instance

/-- The variable `str` of a printing function, and the `strcat`s performed so far. -/
structure Printing where
  str : Block
  strcats : List Strcat
  deriving DecidableEq

namespace Printing

variable (p : Printing) (src : CString)

def start : Printing := ⟨strdup [], []⟩

def strmerge : Printing := { p with str := MyBash.strmerge p.str src }

/-- What does not fit is written past the end of the block. -/
def strcat : Printing where
  str := { p.str with text := p.str.text ++ src }
  strcats := p.strcats ++ [⟨p.str, src⟩]

/-- A command is printed into a block of its own, appended, and its block freed. -/
def strcatPrinted (aux : Printing) : Printing :=
  { p with strcats := p.strcats ++ aux.strcats }.strcat aux.str.text

/-- Every `strcat` performed was inside its block. -/
def Fits : Prop := ∀ call ∈ p.strcats, call.Fits

@[simp] theorem start_text : start.str.text = [] := rfl

@[simp] theorem strcat_text : (p.strcat src).str.text = p.str.text ++ src := rfl

@[simp] theorem strcatPrinted_text (aux : Printing) :
    (p.strcatPrinted aux).str.text = p.str.text ++ aux.str.text := rfl

end Printing

/-- The loop of `scommand_to_string` over the arguments. -/
def printArgs : Printing → List CString → Printing
  | p, [] => p
  | p, [arg] => p.strmerge arg
  | p, arg :: args => printArgs ((p.strmerge arg).strmerge [' ']) args

def printScommand (self : Scommand) : Printing :=
  let p := printArgs .start self.args
  let p := match self.redirIn with
    | none => p
    | some file => (p.strcat [' ', '<', ' ']).strcat file
  match self.redirOut with
  | none => p
  | some file => (p.strcat [' ', '>', ' ']).strcat file

/-- The loop of `pipeline_to_string` over the commands, the last one included. -/
def printScmds : Printing → List Scommand → Printing
  | p, [] => p
  | p, [cmd] => p.strcatPrinted (printScommand cmd)
  | p, cmd :: cmds =>
      printScmds ((p.strcatPrinted (printScommand cmd)).strcat [' ', '|', ' ']) cmds

def printPipeline (self : Pipeline) : Printing :=
  match self.scmd with
  | [] => .start
  | cmds =>
      let p := printScmds .start cmds
      if pipelineGetWait self then p else p.strcat [' ', '&']

/-! ## The strings are those of `Command` -/

theorem printArgs_text (p : Printing) (args : List CString) :
    (printArgs p args).str.text = argsToString p.str.text args := by
  induction args generalizing p with
  | nil => rfl
  | cons arg args ih =>
      cases args with
      | nil => rfl
      | cons arg' args => exact ih _

theorem printScommand_text (self : Scommand) :
    (printScommand self).str.text = scommandToString self := by
  have hargs := printArgs_text .start self.args
  unfold printScommand scommandToString
  cases self.redirIn <;> cases self.redirOut <;> simp [hargs]

theorem printScmds_text (p : Printing) (cmds : List Scommand) :
    (printScmds p cmds).str.text = scmdsToString p.str.text cmds := by
  induction cmds generalizing p with
  | nil => rfl
  | cons cmd cmds ih =>
      have hcmd := printScommand_text cmd
      cases cmds with
      | nil => simp [printScmds, scmdsToString, hcmd]
      | cons cmd' cmds =>
          refine (ih _).trans ?_
          simp only [Printing.strcat_text, Printing.strcatPrinted_text, hcmd]
          rfl

theorem printPipeline_text (self : Pipeline) :
    (printPipeline self).str.text = pipelineToString self := by
  have hcmds := printScmds_text .start self.scmd
  unfold printPipeline pipelineToString
  cases hscmd : self.scmd with
  | nil => rfl
  | cons cmd cmds =>
      rw [hscmd] at hcmds
      cases hwait : self.wait <;> simp [pipelineGetWait, hwait, hcmds]

/-! ## Room -/

namespace Printing

variable {p : Printing}

/-- The block has no room behind its string and the terminator. -/
def Full (p : Printing) : Prop := p.str.size ≤ p.str.text.length + 1

theorem start_full : start.Full := le_rfl

theorem strmerge_full (p : Printing) (src : CString) : (p.strmerge src).Full := by
  simp [Full, strmerge, MyBash.strmerge]

theorem Full.strcat (h : p.Full) (src : CString) : (p.strcat src).Full := by
  simp only [Full, Printing.strcat, List.length_append] at h ⊢
  omega

theorem fits_strcat (src : CString) :
    (p.strcat src).Fits ↔ p.Fits ∧ p.str.text.length + src.length + 1 ≤ p.str.size := by
  simp [Fits, Printing.strcat, Strcat.Fits, or_imp, forall_and]

/-- In a full block only the empty string fits. -/
theorem Full.src_nil (h : p.Full) {src : CString} (hfits : (p.strcat src).Fits) : src = [] := by
  rw [fits_strcat] at hfits
  unfold Full at h
  exact List.length_eq_zero_iff.mp (by omega)

theorem Fits.of_strcat {src : CString} (h : (p.strcat src).Fits) : p.Fits :=
  (fits_strcat src).mp h |>.1

theorem Fits.of_strcatPrinted {aux : Printing} (h : (p.strcatPrinted aux).Fits) :
    p.Fits ∧ aux.Fits := by
  have happend := h.of_strcat
  exact ⟨fun call hcall => happend call (List.mem_append_left _ hcall),
    fun call hcall => happend call (List.mem_append_right _ hcall)⟩

end Printing

theorem printArgs_full {p : Printing} (h : p.Full) (args : List CString) :
    (printArgs p args).Full ∧ (printArgs p args).strcats = p.strcats := by
  induction args generalizing p with
  | nil => exact ⟨h, rfl⟩
  | cons arg args ih =>
      cases args with
      | nil => exact ⟨p.strmerge_full arg, rfl⟩
      | cons arg' args => exact ih ((p.strmerge arg).strmerge_full [' '])

/-- A command is printed inside its blocks if and only if it has no redirection. -/
theorem printScommand_fits (self : Scommand) :
    (printScommand self).Fits ↔ self.redirIn = none ∧ self.redirOut = none := by
  obtain ⟨hfull, hnone⟩ := printArgs_full Printing.start_full self.args
  unfold printScommand
  constructor
  · intro h
    cases hin : self.redirIn with
    | some file =>
        have hfirst : ((printArgs .start self.args).strcat [' ', '<', ' ']).Fits := by
          rw [hin] at h
          cases hout : self.redirOut with
          | none =>
              rw [hout] at h
              exact h.of_strcat
          | some file' =>
              rw [hout] at h
              exact h.of_strcat.of_strcat.of_strcat
        exact absurd (hfull.src_nil hfirst) (by simp)
    | none =>
        cases hout : self.redirOut with
        | none => exact ⟨rfl, rfl⟩
        | some file =>
            rw [hin, hout] at h
            exact absurd (hfull.src_nil h.of_strcat) (by simp)
  · rintro ⟨hin, hout⟩
    rw [hin, hout]
    have hcalls : (printArgs .start self.args).strcats = [] := hnone
    simp [Printing.Fits, hcalls]

theorem Printing.Full.strcatPrinted {p : Printing} (h : p.Full) (aux : Printing) :
    (p.strcatPrinted aux).Full := by
  have hstr : (Printing.mk p.str (p.strcats ++ aux.strcats)).Full := h
  exact hstr.strcat aux.str.text

theorem printScmds_full {p : Printing} (h : p.Full) (cmds : List Scommand) :
    (printScmds p cmds).Full := by
  induction cmds generalizing p with
  | nil => exact h
  | cons cmd cmds ih =>
      cases cmds with
      | nil => exact h.strcatPrinted _
      | cons cmd' cmds => exact ih ((h.strcatPrinted _).strcat _)

theorem fits_of_printScmds {p : Printing} {cmds : List Scommand}
    (h : (printScmds p cmds).Fits) : p.Fits := by
  induction cmds generalizing p with
  | nil => exact h
  | cons cmd cmds ih =>
      cases cmds with
      | nil => exact h.of_strcatPrinted.1
      | cons cmd' cmds => exact (ih h).of_strcat.of_strcatPrinted.1

/-- The separator of two commands never fits. -/
theorem single_of_printScmds {p : Printing} (hp : p.Full) {cmd : Scommand} {cmds : List Scommand}
    (h : (printScmds p (cmd :: cmds)).Fits) : cmds = [] := by
  cases cmds with
  | nil => rfl
  | cons cmd' cmds =>
      have hseparator : ((p.strcatPrinted (printScommand cmd)).strcat [' ', '|', ' ']).Fits :=
        fits_of_printScmds h
      exact absurd ((hp.strcatPrinted _).src_nil hseparator) (by simp)

/-- The command prints no character. -/
def PrintsNothing (self : Scommand) : Prop :=
  (self.args = [] ∨ self.args = [[]]) ∧ self.redirIn = none ∧ self.redirOut = none

theorem argsToString_eq_nil {args : List CString} :
    argsToString [] args = [] ↔ args = [] ∨ args = [[]] := by
  rw [argsToString_eq, List.nil_append]
  match args with
  | [] => simp
  | [arg] => simp
  | arg :: arg' :: args => simp [List.intercalate_cons_cons]

theorem printsNothing_iff (self : Scommand) :
    PrintsNothing self ↔ (printScommand self).Fits ∧ (printScommand self).str.text = [] := by
  rw [printScommand_fits, printScommand_text, PrintsNothing, ← argsToString_eq_nil]
  constructor
  · rintro ⟨hargs, hin, hout⟩
    exact ⟨⟨hin, hout⟩, by simp [scommandToString, hin, hout, hargs]⟩
  · rintro ⟨⟨hin, hout⟩, htext⟩
    exact ⟨by simpa [scommandToString, hin, hout] using htext, hin, hout⟩

/-- A pipeline is printed inside its blocks if and only if it prints nothing. -/
theorem printPipeline_fits (self : Pipeline) :
    (printPipeline self).Fits ↔
      self.scmd = [] ∨ ∃ cmd, self.scmd = [cmd] ∧ PrintsNothing cmd ∧ self.wait = true := by
  unfold printPipeline
  cases hscmd : self.scmd with
  | nil => simp [Printing.Fits, Printing.start]
  | cons cmd cmds =>
      have hfull := printScmds_full Printing.start_full (cmd :: cmds)
      cases hwait : self.wait with
      | false =>
          simp only [pipelineGetWait, hwait, Bool.false_eq_true, if_false, reduceCtorEq, and_false,
            exists_false, or_self, iff_false]
          intro h
          exact absurd (hfull.src_nil h) (by simp)
      | true =>
          simp only [pipelineGetWait, hwait, if_true, reduceCtorEq, false_or, and_true]
          constructor
          · intro h
            obtain rfl := single_of_printScmds Printing.start_full h
            have hprinted := Printing.Fits.of_strcatPrinted h
            refine ⟨cmd, rfl, (printsNothing_iff cmd).mpr ⟨hprinted.2, ?_⟩⟩
            have hstart : (Printing.mk Printing.start.str
              (Printing.start.strcats ++ (printScommand cmd).strcats)).Full := Printing.start_full
            exact hstart.src_nil h
          · rintro ⟨cmd', hcmds, hnothing⟩
            obtain ⟨rfl, rfl⟩ := List.cons.inj hcmds
            obtain ⟨hfits, htext⟩ := (printsNothing_iff cmd).mp hnothing
            refine (Printing.fits_strcat _).mpr ⟨?_, ?_⟩
            · simpa [Printing.Fits, Printing.start] using hfits
            · rw [htext]
              exact le_rfl

/-- Every `strcat` of a printing stays inside its block exactly when nothing but arguments is
printed for a command, and nothing at all for a pipeline. -/
theorem printing_fits_iff (cmd : Scommand) (self : Pipeline) :
    ((printScommand cmd).Fits ↔ cmd.redirIn = none ∧ cmd.redirOut = none) ∧
      ((printPipeline self).Fits ↔
        self.scmd = [] ∨ ∃ cmd, self.scmd = [cmd] ∧ PrintsNothing cmd ∧ self.wait = true) :=
  ⟨printScommand_fits cmd, printPipeline_fits self⟩

/-- The pipeline of `ls` is copied into the block of the empty string. -/
theorem printing_ls_overflows : ¬ (printPipeline ⟨[⟨[['l', 's']], none, none⟩], true⟩).Fits := by
  intro h
  exact absurd (h ⟨⟨[], 1⟩, ['l', 's']⟩ (by decide)) (by decide)

end SistOp.MyBash
