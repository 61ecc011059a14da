import SistOp.LetterLanguages

/-!
# Patterns of `grep`

The matcher of `user/grep.c`, and the texts that a pattern stands for.  Strings are without
their NUL.
-/

namespace SistOp.Xv6.Grep

open scoped Computability

def caret : UInt8 := 94

def dollar : UInt8 := 36

def dot : UInt8 := 46

def star : UInt8 := 42

def newline : UInt8 := 10

/-- `matchstar`, with `matchhere` on the rest of the pattern. -/
def matchstar (here : List UInt8 → Bool) (c : UInt8) : List UInt8 → Bool
  | [] => here []
  | t :: text =>
      here (t :: text) || ((t == c || c == dot) && matchstar here c text)

def matchhere : List UInt8 → List UInt8 → Bool
  | [], _ => true
  | [c], text =>
      if c = dollar then text.isEmpty
      else match text with
        | [] => false
        | t :: _ => c == dot || c == t
  | c :: d :: re, text =>
      if d = star then matchstar (matchhere re) c text
      else match text with
        | [] => false
        | t :: text => (c == dot || c == t) && matchhere (d :: re) text

/-- The loop of `match` over the ends of the text. -/
def matchAny (re : List UInt8) : List UInt8 → Bool
  | [] => matchhere re []
  | t :: text => matchhere re (t :: text) || matchAny re text

/-- `match`. -/
def matchRe : List UInt8 → List UInt8 → Bool
  | c :: re, text => if c = caret then matchhere re text else matchAny (c :: re) text
  | [], text => matchAny [] text

/-! ## What a pattern stands for -/

inductive Piece where
  | one (c : UInt8)
  | repeated (c : UInt8)
  deriving DecidableEq

/-- A pattern, with whether it has to begin and to end where the text does. -/
structure Pattern where
  start : Bool
  pieces : List Piece
  finish : Bool
  deriving DecidableEq

/-- The characters that a character of a pattern stands for. -/
def chars (c : UInt8) : Set UInt8 := {t | c = dot ∨ t = c}

def Piece.lang : Piece → Language UInt8
  | .one c => letters (chars c)
  | .repeated c => (letters (chars c))∗

/-- The texts in which the pattern is found. -/
def Pattern.lang (p : Pattern) : Language UInt8 :=
  (if p.start then 1 else ⊤) * ((p.pieces.map Piece.lang).prod * if p.finish then 1 else ⊤)

/-- What follows the sign for the beginning. -/
def parsePieces : List UInt8 → List Piece × Bool
  | [] => ([], false)
  | [c] => if c = dollar then ([], true) else ([.one c], false)
  | c :: d :: re =>
      if d = star then ((parsePieces re).1.cons (.repeated c), (parsePieces re).2)
      else ((parsePieces (d :: re)).1.cons (.one c), (parsePieces (d :: re)).2)

def parsePattern : List UInt8 → Pattern
  | c :: re =>
      if c = caret then ⟨true, (parsePieces re).1, (parsePieces re).2⟩
      else ⟨false, (parsePieces (c :: re)).1, (parsePieces (c :: re)).2⟩
  | [] => ⟨false, [], false⟩

/-- The texts whose beginning the pieces stand for. -/
def restLang (re : List UInt8) : Language UInt8 :=
  ((parsePieces re).1.map Piece.lang).prod * if (parsePieces re).2 then 1 else ⊤

theorem restLang_nil : restLang [] = ⊤ := by
  simp [restLang, parsePieces]

theorem restLang_star (c : UInt8) (re : List UInt8) :
    restLang (c :: star :: re) = (letters (chars c))∗ * restLang re := by
  simp [restLang, parsePieces, Piece.lang, mul_assoc]

theorem restLang_cons {c d : UInt8} (re : List UInt8) (hd : d ≠ star) :
    restLang (c :: d :: re) = letters (chars c) * restLang (d :: re) := by
  simp [restLang, parsePieces, hd, Piece.lang, mul_assoc]

theorem restLang_dollar : restLang [dollar] = 1 := by
  simp [restLang, parsePieces]

theorem restLang_single {c : UInt8} (hc : c ≠ dollar) : restLang [c] = letters (chars c) * ⊤ := by
  simp [restLang, parsePieces, hc, Piece.lang]

theorem mem_chars {c t : UInt8} : (c == dot || c == t) = true ↔ t ∈ chars c := by
  rw [Bool.or_eq_true, beq_iff_eq, beq_iff_eq, chars, Set.mem_ofPred_eq, @eq_comm _ c t]

theorem matchstar_iff {here : List UInt8 → Bool} {l : Language UInt8}
    (hhere : ∀ text, here text = true ↔ text ∈ l) (c : UInt8) (text : List UInt8) :
    matchstar here c text = true ↔ text ∈ (letters (chars c))∗ * l := by
  induction text with
  | nil => simp [matchstar, hhere]
  | cons t text ih =>
      have hchar : (t == c || c == dot) = true ↔ t ∈ chars c := by
        simp [chars, or_comm]
      rw [matchstar, Bool.or_eq_true, Bool.and_eq_true, hhere, hchar, ih,
        cons_mem_kstar_letters_mul]

/-- The pattern is taken piece by piece, and the star is the loop. -/
theorem matchhere_iff (re text : List UInt8) :
    matchhere re text = true ↔ text ∈ restLang re := by
  induction re using parsePieces.induct generalizing text with
  | case1 =>
      rw [restLang_nil, matchhere]
      exact iff_of_true rfl trivial
  | case2 => simp [matchhere, restLang_dollar]
  | case3 c hc =>
      cases text with
      | nil => simp [matchhere, hc, restLang_single hc]
      | cons t text =>
          rw [restLang_single hc, cons_mem_letters_mul, ← mem_chars]
          simp only [matchhere, hc, if_false]
          exact (and_iff_left trivial).symm
  | case4 c re ih =>
      have hloop : matchhere (c :: star :: re) text = matchstar (matchhere re) c text := by
        cases text <;> simp [matchhere]
      rw [hloop, restLang_star]
      exact matchstar_iff ih c text
  | case5 c d re hd ih =>
      rw [restLang_cons re hd]
      cases text with
      | nil => simp [matchhere, hd]
      | cons t text => simp only [matchhere, hd, if_false, cons_mem_letters_mul, Bool.and_eq_true,
          mem_chars, ih]

theorem matchAny_iff (re text : List UInt8) :
    matchAny re text = true ↔ text ∈ ⊤ * restLang re := by
  induction text with
  | nil => rw [matchAny, matchhere_iff, nil_mem_top_mul]
  | cons t text ih =>
      rw [matchAny, Bool.or_eq_true, matchhere_iff, ih, cons_mem_top_mul]

/-- `match` finds a pattern in a text exactly if the text is in the language of the pattern. -/
theorem match_iff (re text : List UInt8) :
    matchRe re text = true ↔ text ∈ (parsePattern re).lang := by
  cases re with
  | nil =>
      rw [matchRe, matchAny_iff]
      rfl
  | cons c re =>
      by_cases hc : c = caret
      · rw [matchRe, if_pos hc, matchhere_iff]
        simp [parsePattern, hc, Pattern.lang, restLang]
      · rw [matchRe, if_neg hc, matchAny_iff]
        simp [parsePattern, hc, Pattern.lang, restLang]

end SistOp.Xv6.Grep
