import SistOp.LineParsing
import SistOp.ShippedLexer

/-!
# Where the parser calls the lexer

A call of `parse_pipeline` takes the line that a newline ends, whatever the line is.  The
header asks that no function is called at the end of the file, so a lexer is watched: beside
its state it has the answer to whether each call so far was made in front of the end.
-/

namespace SistOp.MyBash

/-- Whatever the first line is, a call leaves the text behind its newline and returns a pipeline
that only the line decides. -/
theorem parsePipeline_takes_line (line : List Char) (hline : '\n' ∉ line) :
    ∃ p, ∀ (lex : Lexer) rest out, ∃ out',
      parsePipeline lex ⟨line ++ '\n' :: rest, out⟩ = some (p, ⟨rest, out'⟩) :=
  ⟨linePipeline (tokens line), fun lex rest out => parsePipeline_line lex rest out hline⟩

def pipeLine : List Char := ['l', 's', ' ', '-', 'l', ' ', '|', ' ', 'w', 'c', ' ', '>', 'f']

def noFileLine : List Char := ['l', 's', ' ', '|', ' ', 'w', 'c', ' ', '>', ' ', '&']

/-- `ls -l | wc >f` gives its two commands, and `ls | wc > &` is an error. -/
theorem parsePipeline_takes_pipeLine :
    (∀ (lex : Lexer) rest out, ∃ out',
      parsePipeline lex ⟨pipeLine ++ '\n' :: rest, out⟩ =
        some (⟨[⟨[['l', 's'], ['-', 'l']], none, none⟩, ⟨[['w', 'c']], none, some ['f']⟩], true⟩,
          ⟨rest, out'⟩)) ∧
    ∀ (lex : Lexer) rest out, ∃ out',
      parsePipeline lex ⟨noFileLine ++ '\n' :: rest, out⟩ = some (pipelineNew, ⟨rest, out'⟩) := by
  constructor
  · obtain ⟨p, hp⟩ := parsePipeline_takes_line pipeLine (by decide)
    obtain ⟨out', hrun⟩ := hp describedLexer [] []
    have hvalue : (parsePipeline describedLexer ⟨pipeLine ++ '\n' :: [], []⟩).map Prod.fst =
        some ⟨[⟨[['l', 's'], ['-', 'l']], none, none⟩, ⟨[['w', 'c']], none, some ['f']⟩],
          true⟩ := by
      decide +kernel
    rw [hrun, Option.map_some, Option.some.injEq] at hvalue
    exact hvalue ▸ hp
  · obtain ⟨p, hp⟩ := parsePipeline_takes_line noFileLine (by decide)
    obtain ⟨out', hrun⟩ := hp describedLexer [] []
    have hvalue : (parsePipeline describedLexer ⟨noFileLine ++ '\n' :: [], []⟩).map Prod.fst =
        some pipelineNew := by
      decide +kernel
    rw [hrun, Option.map_some, Option.some.injEq] at hvalue
    exact hvalue ▸ hp

/-! ## A lexer that is watched -/

section Watched

variable {σ : Type}

/-- Each call notes whether it is made at the end of the file. -/
def LexerFns.watched (lex : LexerFns σ) : LexerFns (σ × Bool) where
  nextArgument s :=
    let (arg, kind, t) := lex.nextArgument s.1
    (arg, kind, t, s.2 && !lex.atEof s.1)
  opBackground s :=
    let (was, t) := lex.opBackground s.1
    (was, t, s.2 && !lex.atEof s.1)
  skipBlanks s := (lex.skipBlanks s.1, s.2 && !lex.atEof s.1)
  opPipe s :=
    let (was, t) := lex.opPipe s.1
    (was, t, s.2 && !lex.atEof s.1)
  garbage s :=
    let (was, t) := lex.garbage s.1
    (was, t, s.2 && !lex.atEof s.1)
  atEof s := lex.atEof s.1
  length s := lex.length s.1

end Watched

/-- The parser on an input that it has not begun to read. -/
def parserNew (input : List Char) : Parser (LexerState × Bool) := ⟨(⟨input, false⟩, true), []⟩

/-- `parse_pipeline` returns, and it has called no function of the lexer at the end of the
file. -/
def NeverPastEof (input : List Char) : Prop :=
  (parsePipeline shippedLexer.watched (parserNew input)).any (fun r => r.2.unread.2) = true

instance (input : List Char) : Decidable (NeverPastEof input) :=
  inferInstanceAs (Decidable (_ = true))

end SistOp.MyBash
