import SistOp.Parsing

/-!
# The lexer of the repository

`lexer.o` and `parser.o` are in the repository as object files, and these are the functions of
their code.  The lexer is off when its last read was at the end of the file and took nothing,
and this is what `parser_at_eof` asks for.
-/

namespace SistOp.MyBash

structure LexerState where
  text : List Char
  off : Bool
  deriving Repr, DecidableEq

def nul : Char := Char.ofNat 0

/-- `strchr` also finds the NUL that ends the set. -/
def strchr (set : List Char) (c : Char) : Bool := set.contains c || c == nul

def lexerNext (set : List Char) (s : LexerState) : List Char × LexerState :=
  let item := s.text.takeWhile (strchr set)
  let text := s.text.dropWhile (strchr set)
  (item, ⟨text, item.isEmpty && text.isEmpty⟩)

def lexerNextTo (set : List Char) (s : LexerState) : List Char × LexerState :=
  let item := s.text.takeWhile (! strchr set ·)
  let text := s.text.dropWhile (! strchr set ·)
  (item, ⟨text, item.isEmpty && text.isEmpty⟩)

def lexerNextChar (set : List Char) (s : LexerState) : List Char × LexerState :=
  match s.text with
  | [] => ([], ⟨[], true⟩)
  | c :: text => if strchr set c then ([c], ⟨text, false⟩) else ([], ⟨c :: text, false⟩)

def lexerSkip (set : List Char) (s : LexerState) : LexerState := (lexerNext set s).2

/-- The characters of an item as a string: `strncat` adds nothing for a NUL. -/
def lexerItem (item : List Char) : CString := item.filter (· ≠ nul)

def blanks : List Char := [' ', '\t']

def wordEnds : List Char := ['\t', '\n', '\r', ' ', '|', '&', '<', '>']

-- each of these looks at the flag first, so that no read of the lexer begins when it is off

def lexOperator (op : Char) (s : LexerState) : Bool × LexerState :=
  if s.off then (false, s)
  else
    let s := lexerSkip blanks s
    if s.off then (false, s)
    else
      let (item, s) := lexerNextChar [op] s
      (!s.off && (lexerItem item).length == 1, s)

def lexWord (s : LexerState) : Option CString × LexerState :=
  if s.off then (none, s)
  else
    let s := lexerSkip blanks s
    if s.off then (none, s)
    else
      let (item, s) := lexerNextTo wordEnds s
      (if s.off || (lexerItem item).isEmpty then none else some (lexerItem item), s)

def parserNextArgument (s : LexerState) : Option CString × ArgKind × LexerState :=
  let (wasInput, s) := lexOperator '<' s
  if wasInput then ((lexWord s).1, .input, (lexWord s).2)
  else
    let (wasOutput, s) := lexOperator '>' s
    ((lexWord s).1, if wasOutput then .output else .normal, (lexWord s).2)

def parserSkipBlanks (s : LexerState) : LexerState := if s.off then s else lexerSkip blanks s

def parserGarbage (s : LexerState) : Bool × LexerState :=
  let s := parserSkipBlanks s
  let (clean, s) :=
    if s.off then (true, s)
    else
      let (item, s) := lexerNextTo ['\n'] s
      (s.off || (lexerItem item).isEmpty, s)
  (!clean, if s.off then s else (lexerNextChar ['\n'] s).2)

def shippedLexer : LexerFns LexerState where
  nextArgument := parserNextArgument
  opBackground := lexOperator '&'
  skipBlanks := parserSkipBlanks
  opPipe := lexOperator '|'
  garbage := parserGarbage
  atEof s := s.off
  length s := s.text.length

/-! ## What they do while the lexer is on -/

/-- The text without the blanks, and NULs, in front. -/
def dropBlanks (s : List Char) : List Char := s.dropWhile (strchr blanks)

theorem dropBlanks_suffix (s : List Char) : dropBlanks s <:+ s := List.dropWhile_suffix _

section On

variable {s t : List Char} {c op : Char}

theorem not_blank_of_dropBlanks (h : dropBlanks s = c :: t) : strchr blanks c = false := by
  have hne : s.dropWhile (strchr blanks) ≠ [] := by
    intro hnil
    simp [dropBlanks, hnil] at h
  have hhead := List.head_dropWhile_not (strchr blanks) hne
  simp only [dropBlanks] at h
  simpa [h] using hhead

theorem ne_nul_of_dropBlanks (h : dropBlanks s = c :: t) : c ≠ nul := by
  have hc := not_blank_of_dropBlanks h
  rintro rfl
  simp [strchr] at hc

theorem dropBlanks_cons (h : dropBlanks s = c :: t) : dropBlanks (c :: t) = c :: t :=
  List.dropWhile_cons_of_neg (by simp [not_blank_of_dropBlanks h])

theorem isEmpty_of_dropBlanks (h : dropBlanks s = c :: t) : s.isEmpty = false := by
  cases s with
  | nil => simp [dropBlanks] at h
  | cons c t => rfl

theorem lexerSkip_eq (s : List Char) (off : Bool) :
    lexerSkip blanks ⟨s, off⟩ = ⟨dropBlanks s, s.isEmpty⟩ := by
  cases s with
  | nil => rfl
  | cons c t =>
      by_cases hc : strchr blanks c
      · simp [lexerSkip, lexerNext, dropBlanks, hc]
      · simp [lexerSkip, lexerNext, dropBlanks, hc]

theorem parserSkipBlanks_on (s : List Char) :
    parserSkipBlanks ⟨s, false⟩ = ⟨dropBlanks s, s.isEmpty⟩ :=
  lexerSkip_eq s false

theorem lexOperator_eof (op : Char) (h : dropBlanks s = []) :
    lexOperator op ⟨s, false⟩ = (false, ⟨[], true⟩) := by
  simp only [lexOperator, lexerSkip_eq, h, Bool.false_eq_true, if_false]
  cases s with
  | nil => rfl
  | cons c t => simp [lexerNextChar]

theorem lexOperator_here (hop : dropBlanks s = op :: t) :
    lexOperator op ⟨s, false⟩ = (true, ⟨t, false⟩) := by
  have hset : strchr [op] op = true := by simp [strchr]
  simp [lexOperator, lexerSkip_eq, hop, isEmpty_of_dropBlanks hop, lexerNextChar, hset, lexerItem,
    ne_nul_of_dropBlanks hop]

theorem lexOperator_other (h : dropBlanks s = c :: t) (hc : c ≠ op) :
    lexOperator op ⟨s, false⟩ = (false, ⟨c :: t, false⟩) := by
  have hset : strchr [op] c = false := by
    simp [strchr, hc, ne_nul_of_dropBlanks h]
  simp [lexOperator, lexerSkip_eq, h, isEmpty_of_dropBlanks h, lexerNextChar, hset, lexerItem]

theorem lexWord_eof (h : dropBlanks s = []) : lexWord ⟨s, false⟩ = (none, ⟨[], true⟩) := by
  simp only [lexWord, lexerSkip_eq, h, Bool.false_eq_true, if_false]
  cases s with
  | nil => rfl
  | cons c t => simp [lexerNextTo]

/-- The word at the front of a text, and what is behind it. -/
def splitWord (s : List Char) : List Char × List Char :=
  (s.takeWhile (! strchr wordEnds ·), s.dropWhile (! strchr wordEnds ·))

theorem lexerItem_word (s : List Char) : lexerItem (splitWord s).1 = (splitWord s).1 := by
  refine List.filter_eq_self.mpr fun c hc => ?_
  have hword := List.mem_takeWhile_imp hc
  rw [decide_eq_true_eq]
  rintro rfl
  simp [strchr] at hword

theorem lexWord_none (h : dropBlanks s = c :: t) (hc : strchr wordEnds c) :
    lexWord ⟨s, false⟩ = (none, ⟨c :: t, false⟩) := by
  simp [lexWord, lexerSkip_eq, h, isEmpty_of_dropBlanks h, lexerNextTo, hc, lexerItem]

theorem lexWord_some (h : dropBlanks s = c :: t) (hc : strchr wordEnds c = false) :
    lexWord ⟨s, false⟩ = (some (splitWord (c :: t)).1, ⟨(splitWord (c :: t)).2, false⟩) := by
  have hitem := lexerItem_word (c :: t)
  have hne : (splitWord (c :: t)).1 ≠ [] := by simp [splitWord, hc]
  have hnext : lexerNextTo wordEnds ⟨c :: t, false⟩ =
      ((splitWord (c :: t)).1, ⟨(splitWord (c :: t)).2, false⟩) := by
    simp [lexerNextTo, splitWord, hc]
  simp only [lexWord, lexerSkip_eq, h, isEmpty_of_dropBlanks h, Bool.false_eq_true, if_false,
    hnext, hitem]
  simp [hne]

theorem parserNextArgument_eof (h : dropBlanks s = []) :
    parserNextArgument ⟨s, false⟩ = (none, .normal, ⟨[], true⟩) := by
  rw [parserNextArgument, lexOperator_eof '<' h]
  rfl

/-- A redirection reads the word behind its symbol. -/
theorem parserNextArgument_redir {kind : ArgKind} (h : dropBlanks s = c :: t)
    (hc : redirKind c = some kind) :
    parserNextArgument ⟨s, false⟩ = ((lexWord ⟨t, false⟩).1, kind, (lexWord ⟨t, false⟩).2) := by
  unfold redirKind at hc
  split_ifs at hc with hless hgreat
  · subst hless
    obtain rfl := Option.some.inj hc
    rw [parserNextArgument, lexOperator_here h]
    rfl
  · subst hgreat
    obtain rfl := Option.some.inj hc
    rw [parserNextArgument, lexOperator_other h (by decide)]
    simp only [lexOperator_here (dropBlanks_cons h), Bool.false_eq_true, if_false, if_true]

theorem parserNextArgument_word (h : dropBlanks s = c :: t) (hc : redirKind c = none) :
    parserNextArgument ⟨s, false⟩ =
      ((lexWord ⟨c :: t, false⟩).1, .normal, (lexWord ⟨c :: t, false⟩).2) := by
  unfold redirKind at hc
  split_ifs at hc with hless hgreat
  rw [parserNextArgument, lexOperator_other h hless]
  simp only [lexOperator_other (dropBlanks_cons h) hgreat, Bool.false_eq_true, if_false]

end On

/-! ## What they do when it is off -/

section Off

variable {s : LexerState} (h : s.off = true)

include h

theorem parserSkipBlanks_off : parserSkipBlanks s = s := by simp [parserSkipBlanks, h]

theorem lexOperator_off (op : Char) : lexOperator op s = (false, s) := by simp [lexOperator, h]

theorem parserNextArgument_off : parserNextArgument s = (none, .normal, s) := by
  simp [parserNextArgument, lexOperator_off h, lexWord, h]

theorem parserGarbage_off : parserGarbage s = (false, s) := by
  simp [parserGarbage, parserSkipBlanks_off h, h]

end Off

end SistOp.MyBash
