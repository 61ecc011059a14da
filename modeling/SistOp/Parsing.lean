import SistOp.LineLexer

/-!
# The parser of command lines

`parse_scommand` and `parse_pipeline` of `parsing.c` over a lexer.  The loops take fuel;
`none` is a failing `assert` or a loop that does not end within it.
-/

namespace SistOp.MyBash

/-- The state of the parser: that of the lexer and the messages printed so far. -/
structure Parser (σ : Type) where
  unread : σ
  printed : List String
  deriving Repr, DecidableEq

variable {σ : Type}

namespace Parser

variable (lex : LexerFns σ) (p : Parser σ)

def nextArgument : Option CString × ArgKind × Parser σ :=
  let (arg, type, unread) := lex.nextArgument p.unread
  (arg, type, { p with unread := unread })

def opBackground : Bool × Parser σ :=
  let (was, unread) := lex.opBackground p.unread
  (was, { p with unread := unread })

def skipBlanks : Parser σ := { p with unread := lex.skipBlanks p.unread }

def opPipe : Bool × Parser σ :=
  let (was, unread) := lex.opPipe p.unread
  (was, { p with unread := unread })

def garbage : Bool × Parser σ :=
  let (was, unread) := lex.garbage p.unread
  (was, { p with unread := unread })

def atEof : Bool := lex.atEof p.unread

def printf (message : String) : Parser σ := { p with printed := p.printed ++ [message] }

end Parser

def noRedirectionMessage : String := "mybash> : Syntax error, no redirection specified\n"
def syntaxErrorMessage : String := "mybash> : Syntax error\n"
def notEnoughMessage : String := "mybash> : Not enough arguments\n"

def scommandStore (cmd : Scommand) (type : ArgKind) (arg : CString) : Scommand :=
  match type with
  | .normal => scommandPushBack cmd arg
  | .input => scommandSetRedirIn cmd arg
  | .output => scommandSetRedirOut cmd arg

/-- The loop of `parse_scommand`, entered with an argument that is not `NULL`. -/
def parseScommandLoop (lex : LexerFns σ) :
    ℕ → Scommand → ArgKind → CString → Bool → Parser σ → Option (Option Scommand × Bool × Parser σ)
  | 0, _, _, _, _, _ => none
  | fuel + 1, cmd, type, arg, hadError, p =>
      let cmd := scommandStore cmd type arg
      let p := p.skipBlanks lex
      match p.nextArgument lex with
      | (some arg, type, p) => parseScommandLoop lex fuel cmd type arg hadError p
      | (none, type, p) =>
          -- the command is destroyed, and the loop ends because the argument is NULL
          if type = .input ∨ type = .output then
            some (none, true, p.printf noRedirectionMessage)
          else some (some cmd, hadError, p)

def parseScommand (lex : LexerFns σ) (fuel : ℕ) (hadError : Bool) (p : Parser σ) :
    Option (Option Scommand × Bool × Parser σ) :=
  let cmd := scommandNew
  let p := p.skipBlanks lex
  match p.nextArgument lex with
  | (none, _, p) => some (none, hadError, p)
  | (some arg, type, p) => parseScommandLoop lex fuel cmd type arg hadError p

/-- The loop of `parse_pipeline` with its variables `result`, `another_pipe`, `error` and
`had_error`. -/
def parsePipeLoop (lex : LexerFns σ) : ℕ → Pipeline → Bool → Bool → Bool → Parser σ →
    Option (Pipeline × Bool × Bool × Bool × Parser σ)
  | 0, _, _, _, _, _ => none
  | fuel + 1, result, anotherPipe, error, hadError, p =>
      if anotherPipe && !error then do
        let (cmd, hadError, p) ← parseScommand lex (lex.length p.unread) hadError p
        match cmd with
        | some cmd =>
            let result := pipelinePushBack result cmd
            let (anotherPipe, p) := p.opPipe lex
            parsePipeLoop lex fuel result anotherPipe false hadError p
        | none =>
            let result ← pipelinePopFront result
            parsePipeLoop lex fuel result anotherPipe true hadError p
      else some (result, anotherPipe, error, hadError, p)

/-- The messages of `parse_pipeline` and the empty pipeline that it then returns. -/
def parseError (lex : LexerFns σ) (result : Pipeline) (anotherPipe hadError : Bool) (p : Parser σ) :
    Pipeline × Parser σ :=
  let (anotherPipe, isOpBackground, p) :=
    if pipelineIsEmpty result then
      let (anotherPipe, p) := p.opPipe lex
      let (isOpBackground, p) := p.opBackground lex
      (anotherPipe, isOpBackground, p)
    else (anotherPipe, false, p)
  let (hadError, p) :=
    if (anotherPipe || isOpBackground) && !hadError then (true, p.printf syntaxErrorMessage)
    else (hadError, p)
  let p := if hadError then p else p.printf notEnoughMessage
  (pipelineNew, p)

/-- The two branches of `parse_pipeline` on its first command: no command, or the loop over
the pipes and the background operator. -/
def parseCommands (lex : LexerFns σ) (cmd : Option Scommand) (hadError : Bool) (p : Parser σ) :
    Option (Pipeline × Bool × Bool × Bool × Parser σ) :=
  let result := pipelineNew
  match cmd with
  | none =>
      let (anotherPipe, p) := p.opPipe lex
      let (isOpBackground, p) := p.opBackground lex
      some (result, anotherPipe, true, !(isOpBackground || anotherPipe), p)
  | some cmd => do
      let result := pipelinePushBack result cmd
      let (anotherPipe, p) := p.opPipe lex
      let (result, anotherPipe, error, hadError, p) ←
        parsePipeLoop lex (lex.length p.unread + 2) result anotherPipe false hadError p
      if error then some (result, anotherPipe, error, hadError, p)
      else
        let (isOpBackground, p) := p.opBackground lex
        let result := pipelineSetWait result (!isOpBackground)
        if isOpBackground then
          let p := p.skipBlanks lex
          let (anotherPipe, p) := p.opPipe lex
          some (result, anotherPipe, anotherPipe, hadError, p)
        else some (result, anotherPipe, error, hadError, p)

def parsePipeline (lex : LexerFns σ) (p : Parser σ) : Option (Pipeline × Parser σ) :=
  if p.atEof lex then none
  else do
    let (cmd, hadError, p) ← parseScommand lex (lex.length p.unread) false p
    let (result, anotherPipe, error, hadError, p) ← parseCommands lex cmd hadError p
    let (result, p) := if error then parseError lex result anotherPipe hadError p else (result, p)
    -- whether there was garbage is not looked at
    let (_, p) := p.garbage lex
    some (result, p)

end SistOp.MyBash
