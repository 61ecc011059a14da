import SistOp.Command
import Mathlib.Data.List.DropRight

/-!
# The lexer

`parser.h` declares the functions that the parser calls, and the repository holds only an
object file of them.  A `Lexer` is any implementation that does what the header says at a state
that is not the end of the file, where a state is the text that is left to read.
-/

namespace SistOp.MyBash

inductive ArgKind where
  | normal | input | output
  deriving Repr, DecidableEq

def isBlank (c : Char) : Bool := c == ' ' || c == '\t'

def isSpecial (c : Char) : Bool :=
  c == '|' || c == '&' || c == '<' || c == '>' || c == '\n'

def isWordChar (c : Char) : Bool := !isBlank c && !isSpecial c

/-- The symbol of a redirection and the kind of argument that it announces. -/
def redirKind (c : Char) : Option ArgKind :=
  if c = '<' then some .input else if c = '>' then some .output else none

/-- The functions of `parser.h` on states `σ`. -/
structure LexerFns (σ : Type) where
  nextArgument : σ → Option CString × ArgKind × σ
  opBackground : σ → Bool × σ
  skipBlanks : σ → σ
  opPipe : σ → Bool × σ
  garbage : σ → Bool × σ
  atEof : σ → Bool
  /-- The characters that are left, which bound the loops of the parser. -/
  length : σ → ℕ

/-- What the header says.  It leaves open whether the operators drop blanks in front of their
symbol. -/
structure Lexer extends LexerFns (List Char) where
  nextArgument_word : ∀ c s, isWordChar c →
    nextArgument (c :: s) =
      (some ((c :: s).takeWhile isWordChar), .normal, (c :: s).dropWhile isWordChar)
  nextArgument_end : ∀ c s, c = '|' ∨ c = '&' ∨ c = '\n' →
    nextArgument (c :: s) = (none, .normal, c :: s)
  nextArgument_redir : ∀ c kind s w r, redirKind c = some kind →
    s.dropWhile isBlank = w ++ r → w ≠ [] → (∀ d ∈ w, isWordChar d) →
    (∀ d, r.head? = some d → ¬ isWordChar d) →
      nextArgument (c :: s) = (some w, kind, r)
  nextArgument_noFile : ∀ c kind s, redirKind c = some kind →
    (∀ d, (s.dropWhile isBlank).head? = some d → ¬ isWordChar d) →
      ∃ r, nextArgument (c :: s) = (none, kind, r) ∧
        r <:+ s ∧ r.dropWhile isBlank = s.dropWhile isBlank
  opBackground_amp : ∀ s, opBackground ('&' :: s) = (true, s)
  opBackground_other : ∀ c s, c ≠ '&' → isBlank c = false →
    opBackground (c :: s) = (false, c :: s)
  opBackground_blank : ∀ c s, isBlank c → opBackground (c :: s) = (false, c :: s) ∨
    opBackground (c :: s) = opBackground (s.dropWhile isBlank)
  skipBlanks_cons : ∀ c s, skipBlanks (c :: s) = (c :: s).dropWhile isBlank
  opPipe_bar : ∀ s, opPipe ('|' :: s) = (true, s)
  opPipe_other : ∀ c s, c ≠ '|' → isBlank c = false → opPipe (c :: s) = (false, c :: s)
  opPipe_blank : ∀ c s, isBlank c → opPipe (c :: s) = (false, c :: s) ∨
    opPipe (c :: s) = opPipe (s.dropWhile isBlank)
  garbage_cons : ∀ c s, garbage (c :: s) =
    (((c :: s).takeWhile (· ≠ '\n')).any (! isBlank ·), ((c :: s).dropWhile (· ≠ '\n')).drop 1)
  atEof_cons : ∀ c s, atEof (c :: s) = false
  length_eq : ∀ s, length s = s.length

instance : Coe Lexer (LexerFns (List Char)) := ⟨Lexer.toLexerFns⟩

/-! ## A lexer that does this -/

def describedArgument : List Char → Option CString × ArgKind × List Char
  | [] => (none, .normal, [])
  | c :: s =>
      match redirKind c with
      | some kind =>
          let s := s.dropWhile isBlank
          let w := s.takeWhile isWordChar
          (if w = [] then none else some w, kind, s.dropWhile isWordChar)
      | none =>
          let w := (c :: s).takeWhile isWordChar
          (if w = [] then none else some w, .normal, (c :: s).dropWhile isWordChar)

def describedOperator (op : Char) : List Char → Bool × List Char
  | [] => (false, [])
  | c :: s => if c = op then (true, s) else (false, c :: s)

theorem describedOperator_blank {op c : Char} (hop : isBlank op = false) (hc : isBlank c)
    (s : List Char) : describedOperator op (c :: s) = (false, c :: s) := by
  have hne : c ≠ op := by
    rintro rfl
    simp [hc] at hop
  simp [describedOperator, hne]

theorem redirKind_wordChar {c : Char} (hc : isWordChar c) : redirKind c = none := by
  have hlt : c ≠ '<' := by rintro rfl; exact absurd hc (by decide)
  have hgt : c ≠ '>' := by rintro rfl; exact absurd hc (by decide)
  simp [redirKind, hlt, hgt]

theorem takeWhile_word {w r : List Char} (hw : ∀ d ∈ w, isWordChar d)
    (hr : ∀ d, r.head? = some d → ¬ isWordChar d) :
    (w ++ r).takeWhile isWordChar = w ∧ (w ++ r).dropWhile isWordChar = r := by
  have hhead : r.takeWhile isWordChar = [] ∧ r.dropWhile isWordChar = r := by
    cases r with
    | nil => exact ⟨rfl, rfl⟩
    | cons d r =>
        have hd := hr d rfl
        simp [hd]
  constructor
  · rw [List.takeWhile_append_of_pos hw, hhead.1, List.append_nil]
  · rw [List.dropWhile_append_of_pos hw, hhead.2]

def describedLexer : Lexer where
  nextArgument := describedArgument
  opBackground := describedOperator '&'
  skipBlanks s := s.dropWhile isBlank
  opPipe := describedOperator '|'
  garbage s := ((s.takeWhile (· ≠ '\n')).any (! isBlank ·), (s.dropWhile (· ≠ '\n')).drop 1)
  atEof s := s.isEmpty
  length s := s.length
  nextArgument_word c s hc := by
    have hne : (c :: s).takeWhile isWordChar ≠ [] := by simp [hc]
    simp only [describedArgument, redirKind_wordChar hc, if_neg hne]
  nextArgument_end c s hc := by
    rcases hc with rfl | rfl | rfl <;> simp [describedArgument, redirKind, isWordChar, isSpecial]
  nextArgument_redir c kind s w r hkind hs hne hw hr := by
    obtain ⟨htake, hdrop⟩ := takeWhile_word hw hr
    simp only [describedArgument, hkind, hs, htake, hdrop, if_neg hne]
  nextArgument_noFile c kind s hkind hr := by
    obtain ⟨htake, hdrop⟩ := takeWhile_word (w := []) (by simp) hr
    rw [List.nil_append] at htake hdrop
    refine ⟨s.dropWhile isBlank, ?_, List.dropWhile_suffix _, List.dropWhile_idempotent _ _⟩
    simp only [describedArgument, hkind, htake, hdrop, if_pos]
  opBackground_amp s := by simp [describedOperator]
  opBackground_other c s hc _ := by simp [describedOperator, hc]
  opBackground_blank c s hc := .inl (describedOperator_blank (by decide) hc s)
  skipBlanks_cons c s := rfl
  opPipe_bar s := by simp [describedOperator]
  opPipe_other c s hc _ := by simp [describedOperator, hc]
  opPipe_blank c s hc := .inl (describedOperator_blank (by decide) hc s)
  garbage_cons c s := rfl
  atEof_cons c s := rfl
  length_eq s := rfl

end SistOp.MyBash
