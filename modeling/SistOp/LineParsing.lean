import SistOp.LineGrammar

/-!
# The parser reads the grammar

The lexer's contract is restated on a line that a newline ends, in terms of the line's
tokens, and each loop of the parser is simulated by its counterpart on tokens.
-/

namespace SistOp.MyBash

/-- No blank at the front, as `parser_skip_blanks` leaves the text. -/
def Trimmed (l : List Char) : Prop := l.dropWhile isBlank = l

theorem trimmed_dropWhile (l : List Char) : Trimmed (l.dropWhile isBlank) :=
  List.dropWhile_idempotent _ _

theorem Trimmed.not_blank {c : Char} {l : List Char} (h : Trimmed (c :: l)) :
    isBlank c = false := by
  by_contra hc
  rw [Bool.not_eq_false] at hc
  have hlen := congrArg List.length h
  rw [List.dropWhile_cons_of_pos hc] at hlen
  have hle := (List.dropWhile_suffix isBlank (l := l)).length_le
  simp only [List.length_cons] at hlen
  omega

theorem Trimmed.head_tokens_ne {c op : Char} {l : List Char} (h : Trimmed (c :: l))
    (hop : op = '|' ∨ op = '&') (hc : c ≠ op) :
    (tokens (c :: l)).head? ≠ some (symbolToken op) := by
  by_cases hword : isWordChar c
  · rw [tokens_wordChar hword]
    rcases hop with rfl | rfl <;> simp [symbolToken]
  · have hhead : (tokens (c :: l)).head? = some (symbolToken c) := by
      simp [tokens, h.not_blank, hword]
    rw [hhead]
    rcases hop with rfl | rfl <;> simp only [symbolToken] <;> split_ifs <;> simp_all

theorem not_mem_dropWhile {l : List Char} (hl : '\n' ∉ l) (f : Char → Bool) :
    '\n' ∉ l.dropWhile f :=
  fun h => hl ((List.dropWhile_suffix f).subset h)

theorem dropWhile_blank_line (l r : List Char) :
    (l ++ '\n' :: r).dropWhile isBlank = l.dropWhile isBlank ++ '\n' :: r := by
  rw [List.dropWhile_append]
  by_cases hblank : l.dropWhile isBlank = []
  · have hnl : isBlank '\n' = false := by decide
    simp [hblank, hnl]
  · simp [hblank]

theorem not_wordChar_dropWhile (s : List Char) :
    ∀ d, (s.dropWhile isWordChar).head? = some d → ¬ isWordChar d := by
  intro d hd
  have hne : s.dropWhile isWordChar ≠ [] := by
    rintro hnil
    simp [hnil] at hd
  have hhead := List.head_dropWhile_not isWordChar hne
  rw [List.head?_eq_some_head hne] at hd
  rw [← Option.some.inj hd, hhead]
  simp

/-- The word at the front of a text that begins with one. -/
theorem exists_word {c : Char} (hc : isWordChar c) (s : List Char) :
    ∃ w s', c :: s = w ++ s' ∧ w ≠ [] ∧ (∀ d ∈ w, isWordChar d) ∧
      ∀ d, s'.head? = some d → ¬ isWordChar d :=
  ⟨(c :: s).takeWhile isWordChar, (c :: s).dropWhile isWordChar,
    List.takeWhile_append_dropWhile.symm, by simp [hc], fun _ hd => List.mem_takeWhile_imp hd,
    not_wordChar_dropWhile _⟩

theorem not_wordChar_line {s : List Char} (hs : ∀ d, s.head? = some d → ¬ isWordChar d)
    (r : List Char) : ∀ d, (s ++ '\n' :: r).head? = some d → ¬ isWordChar d := by
  intro d hd
  cases s with
  | nil =>
      obtain rfl : '\n' = d := by simpa using hd
      decide
  | cons c s => exact hs d (by simpa using hd)

/-- What is left of a line after dropping its blanks is an end of the line. -/
theorem suffix_of_dropWhile {l l' s r : List Char} (hs : s <:+ l ++ '\n' :: r)
    (hdrop : s.dropWhile isBlank = l' ++ '\n' :: r) :
    ∃ l'', s = l'' ++ '\n' :: r ∧ l'' <:+ l := by
  have hlen := (List.dropWhile_suffix isBlank (l := s)).length_le
  rw [hdrop, List.length_append, List.length_cons] at hlen
  obtain ⟨t, ht⟩ := hs
  rcases List.append_eq_append_iff.mp ht with ⟨a, hl, hsa⟩ | ⟨a, hta, hra⟩
  · exact ⟨a, hsa, t, hl.symm⟩
  · have hra' := congrArg List.length hra
    rw [List.length_append, List.length_cons] at hra'
    have ha : a = [] := List.length_eq_zero_iff.mp (by omega)
    subst ha
    exact ⟨[], hra.symm, List.nil_suffix⟩

theorem readItems_redir {t : Token} {ts : List Token} (ht : t = .less ∨ t = .great)
    (hword : ∀ w rest, ts ≠ .word w :: rest) : readItems (t :: ts) = ([], t :: ts) := by
  apply readItems.eq_4
  · rintro w rest h
    rcases ht with rfl | rfl <;> simp at h
  · rintro w rest h
    exact hword w rest (List.cons.inj h).2
  · rintro w rest h
    exact hword w rest (List.cons.inj h).2

theorem tokens_ne_word {l : List Char} (htrim : Trimmed l)
    (hl : ∀ d, l.head? = some d → ¬ isWordChar d) (w : CString) (ts : List Token) :
    tokens l ≠ .word w :: ts := by
  cases l with
  | nil => simp [tokens]
  | cons c l =>
      have hc := hl c rfl
      simp only [tokens, htrim.not_blank, hc, symbolToken]
      split_ifs <;> simp_all

namespace Lexer

variable (lex : Lexer) {l : List Char} (r : List Char)

theorem skipBlanks_line (l r : List Char) :
    lex.skipBlanks (l ++ '\n' :: r) = l.dropWhile isBlank ++ '\n' :: r := by
  have hne : l ++ '\n' :: r ≠ [] := by simp
  obtain ⟨c, s, hs⟩ := List.exists_cons_of_ne_nil hne
  rw [hs, lex.skipBlanks_cons, ← hs, dropWhile_blank_line]

/-- An operator that consumes its symbol and nothing else. -/
structure TakesSymbol (op : List Char → Bool × List Char) (sym : Char) : Prop where
  here : ∀ s, op (sym :: s) = (true, s)
  other : ∀ c s, c ≠ sym → isBlank c = false → op (c :: s) = (false, c :: s)
  blank : ∀ c s, isBlank c →
    op (c :: s) = (false, c :: s) ∨ op (c :: s) = op (s.dropWhile isBlank)

theorem takesSymbol_opPipe : TakesSymbol lex.opPipe '|' :=
  ⟨lex.opPipe_bar, lex.opPipe_other, lex.opPipe_blank⟩

theorem takesSymbol_opBackground : TakesSymbol lex.opBackground '&' :=
  ⟨lex.opBackground_amp, lex.opBackground_other, lex.opBackground_blank⟩

section TakesSymbol

variable {op : List Char → Bool × List Char} {sym : Char} (h : TakesSymbol op sym)

include h

theorem TakesSymbol.line (hsym : sym = '|' ∨ sym = '&') (htrim : Trimmed l) :
    (∃ l', tokens l = symbolToken sym :: tokens l' ∧ l = sym :: l' ∧
      op (l ++ '\n' :: r) = (true, l' ++ '\n' :: r)) ∨
    ((tokens l).head? ≠ some (symbolToken sym) ∧
      op (l ++ '\n' :: r) = (false, l ++ '\n' :: r)) := by
  cases l with
  | nil =>
      have hnewline : '\n' ≠ sym := by rcases hsym with rfl | rfl <;> decide
      exact .inr ⟨by simp [tokens], h.other _ _ hnewline (by decide)⟩
  | cons c l =>
      by_cases hc : c = sym
      · subst hc
        exact .inl ⟨l, tokens_symbol (by tauto) l, rfl, h.here _⟩
      · exact .inr ⟨htrim.head_tokens_ne hsym hc, h.other c _ hc htrim.not_blank⟩

theorem TakesSymbol.keeps_trimmed (hsym : sym ≠ '\n') (hl : '\n' ∉ l) (htrim : Trimmed l) :
    ∃ was l', op (l ++ '\n' :: r) = (was, l' ++ '\n' :: r) ∧ '\n' ∉ l' := by
  cases l with
  | nil => exact ⟨false, [], h.other _ _ hsym.symm (by decide), by simp⟩
  | cons c l =>
      by_cases hc : c = sym
      · subst hc
        exact ⟨true, l, h.here _, fun hmem => hl (List.mem_cons_of_mem _ hmem)⟩
      · exact ⟨false, c :: l, h.other c _ hc htrim.not_blank, hl⟩

theorem TakesSymbol.keeps_line (hsym : sym ≠ '\n') (hl : '\n' ∉ l) :
    ∃ was l', op (l ++ '\n' :: r) = (was, l' ++ '\n' :: r) ∧ '\n' ∉ l' := by
  by_cases hblank : ∃ c s, l = c :: s ∧ isBlank c
  · obtain ⟨c, s, rfl, hc⟩ := hblank
    rcases h.blank c (s ++ '\n' :: r) hc with hkept | hdropped
    · exact ⟨false, c :: s, hkept, hl⟩
    · have hs := not_mem_dropWhile (fun hmem => hl (List.mem_cons_of_mem c hmem)) isBlank
      rw [List.cons_append, hdropped, dropWhile_blank_line]
      exact h.keeps_trimmed r hsym hs (trimmed_dropWhile s)
  · refine h.keeps_trimmed r hsym hl ?_
    cases l with
    | nil => rfl
    | cons c s => exact List.dropWhile_cons_of_neg fun hc => hblank ⟨c, s, rfl, hc⟩

end TakesSymbol

theorem opPipe_line (htrim : Trimmed l) :
    (∃ l', tokens l = .pipe :: tokens l' ∧ l = '|' :: l' ∧
      lex.opPipe (l ++ '\n' :: r) = (true, l' ++ '\n' :: r)) ∨
    ((tokens l).head? ≠ some .pipe ∧ lex.opPipe (l ++ '\n' :: r) = (false, l ++ '\n' :: r)) :=
  lex.takesSymbol_opPipe.line r (.inl rfl) htrim

theorem opBackground_line (htrim : Trimmed l) :
    (∃ l', tokens l = .amp :: tokens l' ∧ l = '&' :: l' ∧
      lex.opBackground (l ++ '\n' :: r) = (true, l' ++ '\n' :: r)) ∨
    ((tokens l).head? ≠ some .amp ∧
      lex.opBackground (l ++ '\n' :: r) = (false, l ++ '\n' :: r)) :=
  lex.takesSymbol_opBackground.line r (.inr rfl) htrim

theorem garbage_line (hl : '\n' ∉ l) :
    (lex.garbage (l ++ '\n' :: r)).2 = r := by
  have hne : l ++ '\n' :: r ≠ [] := by simp
  obtain ⟨c, s, hs⟩ := List.exists_cons_of_ne_nil hne
  have hdrop : (l ++ '\n' :: r).dropWhile (· ≠ '\n') = '\n' :: r := by
    rw [List.dropWhile_append_of_pos]
    · simp
    · intro d hd
      have hne : d ≠ '\n' := fun h => hl (h ▸ hd)
      simpa using hne
  rw [hs, lex.garbage_cons, ← hs, hdrop]
  rfl

theorem nextArgument_redir_line {c : Char} {kind : ArgKind} {t : Token}
    (hc : redirKind c = some kind) (ht : t = .less ∨ t = .great)
    (hitem : ∀ w, Item.tokens (kind, w) = [t, .word w])
    (hl : '\n' ∉ l) :
    (∃ w l', lex.nextArgument (c :: l ++ '\n' :: r) = (some w, kind, l' ++ '\n' :: r) ∧
      '\n' ∉ l' ∧ t :: tokens l = Item.tokens (kind, w) ++ tokens l') ∨
    (∃ l', lex.nextArgument (c :: l ++ '\n' :: r) = (none, kind, l' ++ '\n' :: r) ∧
      '\n' ∉ l' ∧ readItems (t :: tokens l) = ([], t :: tokens l)) := by
  have hblank := dropWhile_blank_line l r
  by_cases hfile : ∃ d s, l.dropWhile isBlank = d :: s ∧ isWordChar d
  · obtain ⟨d, s, hds, hd⟩ := hfile
    obtain ⟨w, s', hws, hne, hw, hs'⟩ := exists_word hd s
    rw [hds, hws, List.append_assoc] at hblank
    refine .inl ⟨w, s', lex.nextArgument_redir c kind _ w _ hc hblank hne hw
      (not_wordChar_line hs' r), ?_, ?_⟩
    · have hsub := not_mem_dropWhile hl isBlank
      rw [hds, hws] at hsub
      exact fun h => hsub (List.mem_append_right w h)
    · rw [← tokens_dropWhile_blank l, hds, hws, tokens_word hne hw hs', hitem]
      rfl
  · have hhead : ∀ d, (l.dropWhile isBlank).head? = some d → ¬ isWordChar d := by
      intro d hd hword
      cases hdrop : l.dropWhile isBlank with
      | nil => simp [hdrop] at hd
      | cons e s =>
          obtain rfl : e = d := by simpa [hdrop] using hd
          exact hfile ⟨e, s, hdrop, hword⟩
    obtain ⟨s, hnext, hs, hdrop⟩ := lex.nextArgument_noFile c kind (l ++ '\n' :: r) hc
      (by rw [hblank]; exact not_wordChar_line hhead r)
    obtain ⟨l', rfl, hl'⟩ := suffix_of_dropWhile hs (hdrop.trans hblank)
    refine .inr ⟨l', hnext, fun h => hl (hl'.subset h), readItems_redir ht ?_⟩
    rw [← tokens_dropWhile_blank l]
    exact tokens_ne_word (trimmed_dropWhile l) hhead

/-- What the next argument of a line can be. -/
theorem nextArgument_line (hl : '\n' ∉ l) (htrim : Trimmed l) :
    (∃ w kind l', lex.nextArgument (l ++ '\n' :: r) = (some w, kind, l' ++ '\n' :: r) ∧
      '\n' ∉ l' ∧ tokens l = Item.tokens (kind, w) ++ tokens l') ∨
    (lex.nextArgument (l ++ '\n' :: r) = (none, .normal, l ++ '\n' :: r) ∧
      readItems (tokens l) = ([], tokens l) ∧ ¬ StartsRedir (tokens l)) ∨
    (∃ kind l', lex.nextArgument (l ++ '\n' :: r) = (none, kind, l' ++ '\n' :: r) ∧
      (kind = .input ∨ kind = .output) ∧ '\n' ∉ l' ∧
      readItems (tokens l) = ([], tokens l) ∧ StartsRedir (tokens l)) := by
  cases l with
  | nil =>
      exact .inr (.inl ⟨lex.nextArgument_end _ _ (by simp), rfl, by simp [tokens, StartsRedir]⟩)
  | cons c l =>
      have hl' : '\n' ∉ l := fun h => hl (List.mem_cons_of_mem _ h)
      by_cases hword : isWordChar c
      · obtain ⟨w, s, hws, hne, hw, hs⟩ := exists_word hword l
        have htake := takeWhile_word hw (not_wordChar_line hs r)
        have hnext := lex.nextArgument_word c (l ++ '\n' :: r) hword
        rw [← List.cons_append, hws, List.append_assoc, htake.1, htake.2, ← List.append_assoc,
          ← hws] at hnext
        refine .inl ⟨w, .normal, s, hnext, ?_, ?_⟩
        · rw [hws] at hl
          exact fun h => hl (List.mem_append_right w h)
        · rw [hws, tokens_word hne hw hs]
          rfl
      · have hnl : c ≠ '\n' := fun h => hl (h ▸ List.mem_cons_self)
        have hspecial := special_cases htrim.not_blank (by simpa using hword) hnl
        rw [tokens_symbol hspecial]
        rcases hspecial with rfl | rfl | rfl | rfl
        · exact .inr (.inl ⟨lex.nextArgument_end _ _ (by simp), rfl,
            by simp [symbolToken, StartsRedir]⟩)
        · exact .inr (.inl ⟨lex.nextArgument_end _ _ (by simp), rfl,
            by simp [symbolToken, StartsRedir]⟩)
        · rcases lex.nextArgument_redir_line r (c := '<') (t := .less) rfl (.inl rfl)
            (fun _ => rfl) hl' with ⟨w, l', hnext, hmem, htok⟩ | ⟨l', hnext, hmem, hread⟩
          · exact .inl ⟨w, .input, l', hnext, hmem, htok⟩
          · exact .inr (.inr ⟨.input, l', hnext, .inl rfl, hmem, hread, .inl rfl⟩)
        · rcases lex.nextArgument_redir_line r (c := '>') (t := .great) rfl (.inr rfl)
            (fun _ => rfl) hl' with ⟨w, l', hnext, hmem, htok⟩ | ⟨l', hnext, hmem, hread⟩
          · exact .inl ⟨w, .output, l', hnext, hmem, htok⟩
          · exact .inr (.inr ⟨.output, l', hnext, .inr rfl, hmem, hread, .inr rfl⟩)

end Lexer
/-! ## The loops of the parser -/

section Loops

variable (lex : Lexer) (r : List Char)

/-- `parse_scommand` on a line: no command when there is no item or a redirection has no
file, and otherwise the command of the items, with the tokens after them left. -/
def ScommandRead (cmd : Scommand) (items : List Item) (rest : List Token) (hadError : Bool)
    (out : List String) (result : Option (Option Scommand × Bool × Parser (List Char))) : Prop :=
  (StartsRedir rest ∧ ∃ hadError' l' out', '\n' ∉ l' ∧
    result = some (none, hadError', ⟨l' ++ '\n' :: r, out'⟩)) ∨
  (¬ StartsRedir rest ∧ ∃ l', '\n' ∉ l' ∧ Trimmed l' ∧ tokens l' = rest ∧
    result = some (some (storeItems cmd items), hadError, ⟨l' ++ '\n' :: r, out⟩))

theorem parseScommandLoop_line {fuel : ℕ} (cmd : Scommand) (type : ArgKind) (arg : CString)
    (hadError : Bool) {l : List Char} (out : List String) (hl : '\n' ∉ l)
    (hfuel : (tokens l).length < fuel) :
    ScommandRead r (scommandStore cmd type arg) (readItems (tokens l)).1 (readItems (tokens l)).2
      hadError out (parseScommandLoop lex fuel cmd type arg hadError ⟨l ++ '\n' :: r, out⟩) := by
  induction fuel generalizing cmd type arg l with
  | zero => omega
  | succ fuel ih =>
      have hskip := not_mem_dropWhile hl isBlank
      have htrim := trimmed_dropWhile l
      rw [parseScommandLoop]
      simp only [Parser.skipBlanks, Parser.nextArgument, lex.skipBlanks_line]
      rw [← tokens_dropWhile_blank l] at hfuel ⊢
      rcases lex.nextArgument_line r hskip htrim with
        ⟨w, kind, l', hnext, hl', htok⟩ | ⟨hnext, hread, hredir⟩ |
        ⟨kind, l', hnext, hkind, hl', hread, hredir⟩
      · have hshort : (tokens l').length < fuel := by
          have hlen := length_lt_of_item htok
          omega
        simp only [hnext]
        rw [htok, readItems_item]
        exact ih (scommandStore cmd type arg) kind w hl' hshort
      · simp only [hnext, hread]
        exact .inr ⟨hredir, _, hskip, htrim, rfl, rfl⟩
      · simp only [hnext, hread, if_pos hkind]
        exact .inl ⟨hredir, true, l', _, hl', rfl⟩

theorem parseScommand_line {l : List Char} (hadError : Bool) (out : List String) (hl : '\n' ∉ l)
    {fuel : ℕ} (hfuel : (tokens l).length ≤ fuel) :
    ((readItems (tokens l)).1 = [] ∧ ∃ l' out', '\n' ∉ l' ∧
      parseScommand lex fuel hadError ⟨l ++ '\n' :: r, out⟩ =
        some (none, hadError, ⟨l' ++ '\n' :: r, out'⟩)) ∨
    ((readItems (tokens l)).1 ≠ [] ∧
      ScommandRead r scommandNew (readItems (tokens l)).1 (readItems (tokens l)).2 hadError out
        (parseScommand lex fuel hadError ⟨l ++ '\n' :: r, out⟩)) := by
  have hskip := not_mem_dropWhile hl isBlank
  have htrim := trimmed_dropWhile l
  simp only [parseScommand, Parser.skipBlanks, Parser.nextArgument, lex.skipBlanks_line]
  rw [← tokens_dropWhile_blank l] at hfuel ⊢
  rcases lex.nextArgument_line r hskip htrim with
    ⟨w, kind, l', hnext, hl', htok⟩ | ⟨hnext, hread, hredir⟩ |
    ⟨kind, l', hnext, hkind, hl', hread, hredir⟩
  · have hshort : (tokens l').length < fuel := (length_lt_of_item htok).trans_le hfuel
    simp only [hnext]
    rw [htok, readItems_item]
    exact .inr ⟨by simp, parseScommandLoop_line lex r scommandNew kind w hadError out hl' hshort⟩
  · simp only [hnext, hread]
    exact .inl ⟨trivial, _, _, hskip, rfl⟩
  · simp only [hnext, hread]
    exact .inl ⟨trivial, l', _, hl', rfl⟩

theorem Parser.opPipe_eq {s s' : List Char} {out : List String} {was : Bool}
    (h : lex.opPipe s = (was, s')) :
    (Parser.mk s out).opPipe lex = (was, ⟨s', out⟩) := by
  rw [Parser.opPipe, h]

theorem Parser.opBackground_eq {s s' : List Char} {out : List String} {was : Bool}
    (h : lex.opBackground s = (was, s')) :
    (Parser.mk s out).opBackground lex = (was, ⟨s', out⟩) := by
  rw [Parser.opBackground, h]

omit lex in
theorem parsePipeLoop_stop {σ : Type} (lex : LexerFns σ) {fuel : ℕ} (hfuel : 0 < fuel)
    (result : Pipeline) (anotherPipe : Bool) {error : Bool} (hadError : Bool) (p : Parser σ)
    (hstop : (anotherPipe && !error) = false) :
    parsePipeLoop lex fuel result anotherPipe error hadError p =
      some (result, anotherPipe, error, hadError, p) := by
  obtain ⟨fuel, rfl⟩ := Nat.exists_eq_succ_of_ne_zero hfuel.ne'
  rw [parsePipeLoop, hstop, if_neg (by simp)]

/-- `parse_pipeline` after a pipe: an error, or the commands up to the end of the line or an
`&` are appended. -/
def PipeRead (result : Pipeline) (read : Option (List (List Item) × List Token))
    (outcome : Option (Pipeline × Bool × Bool × Bool × Parser (List Char))) : Prop :=
  ∃ l' hadError out, '\n' ∉ l' ∧
    ((read = none ∧ ∃ result' anotherPipe,
        outcome = some (result', anotherPipe, true, hadError, ⟨l' ++ '\n' :: r, out⟩)) ∨
      ∃ cmds rest, read = some (cmds, rest) ∧ Trimmed l' ∧ tokens l' = rest ∧
        outcome = some ({ result with scmd := result.scmd ++ cmds.map Scommand.ofItems },
          false, false, hadError, ⟨l' ++ '\n' :: r, out⟩))

/-- A command has been read: either a pipe follows and the loop goes on, or it was the last. -/
theorem afterCommand_line {ts : List Token} {result : Pipeline} {l' : List Char}
    (hitems : (readItems ts).1 ≠ []) (hredir : ¬ StartsRedir (readItems ts).2) (hl' : '\n' ∉ l')
    (htrim : Trimmed l') (htok : tokens l' = (readItems ts).2) (hadError : Bool)
    (out : List String) (fuel : Parser (List Char) → ℕ) (hfuel : ∀ p, 0 < fuel p)
    (hloop : ∀ l'', l' = '|' :: l'' → (readItems ts).2 = .pipe :: tokens l'' →
      PipeRead r (pipelinePushBack result (Scommand.ofItems (readItems ts).1))
        (readCommands (tokens l''))
        (parsePipeLoop lex (fuel ⟨l'' ++ '\n' :: r, out⟩)
          (pipelinePushBack result (Scommand.ofItems (readItems ts).1)) true false hadError
          ⟨l'' ++ '\n' :: r, out⟩)) :
    PipeRead r result (readCommands ts)
      (let (anotherPipe, p) := (Parser.mk (l' ++ '\n' :: r) out).opPipe lex
       parsePipeLoop lex (fuel p) (pipelinePushBack result (Scommand.ofItems (readItems ts).1))
        anotherPipe false hadError p) := by
  rcases lex.opPipe_line r htrim with ⟨l'', hpipe, rfl, hop⟩ | ⟨hpipe, hop⟩
  · rw [htok] at hpipe
    rw [Parser.opPipe_eq lex hop, readCommands_pipe hitems hpipe]
    obtain ⟨l₁, hadError₁, out₁, hl₁, ⟨hnone, result₁, another₁, hrun⟩ |
      ⟨cmds, rest, hread, htrim₁, htok₁, hrun⟩⟩ := hloop l'' rfl hpipe
    · exact ⟨l₁, hadError₁, out₁, hl₁, .inl ⟨by rw [hnone]; rfl, _, _, hrun⟩⟩
    · refine ⟨l₁, hadError₁, out₁, hl₁, .inr ⟨_, rest, by rw [hread]; rfl, htrim₁, htok₁, ?_⟩⟩
      simp only [hrun]
      simp [pipelinePushBack]
  · rw [htok] at hpipe
    rw [Parser.opPipe_eq lex hop, readCommands_end hitems hredir hpipe]
    simp only [parsePipeLoop_stop lex.toLexerFns (hfuel _) _ false hadError _ rfl]
    exact ⟨l', hadError, out, hl', .inr ⟨_, _, rfl, htrim, htok, rfl⟩⟩

theorem parsePipeLoop_line {fuel : ℕ} {result : Pipeline} (hresult : result.scmd ≠ [])
    (hadError : Bool) {l : List Char} (out : List String) (hl : '\n' ∉ l)
    (hfuel : (tokens l).length + 1 < fuel) :
    PipeRead r result (readCommands (tokens l))
      (parsePipeLoop lex fuel result true false hadError ⟨l ++ '\n' :: r, out⟩) := by
  induction fuel generalizing result hadError l out with
  | zero => omega
  | succ fuel ih =>
      have hpop : pipelinePopFront result = some { result with scmd := result.scmd.tail } := by
        obtain ⟨cmd, cmds, hcmds⟩ := List.exists_cons_of_ne_nil hresult
        rw [pipelinePopFront_cons hcmds, hcmds, List.tail_cons]
      have hunread : (tokens l).length ≤ lex.length (l ++ '\n' :: r) := by
        have hlen := tokens_length_le l
        rw [lex.length_eq, List.length_append]
        omega
      rw [parsePipeLoop, Bool.not_false, Bool.and_self, if_pos rfl]
      rcases parseScommand_line lex r hadError out hl hunread with
        ⟨hitems, l', out', hl', hcmd⟩ |
        ⟨hitems, ⟨hredir, hadError', l', out', hl', hcmd⟩ | ⟨hredir, l', hl', htrim, htok, hcmd⟩⟩
      · rw [hcmd, readCommands_nil hitems]
        simp only [Option.bind_eq_bind, Option.bind_some, hpop]
        rw [parsePipeLoop_stop lex.toLexerFns (by omega) _ _ _ _ rfl]
        exact ⟨l', hadError, out', hl', .inl ⟨rfl, _, _, rfl⟩⟩
      · rw [hcmd, readCommands_redir hitems hredir]
        simp only [Option.bind_eq_bind, Option.bind_some, hpop]
        rw [parsePipeLoop_stop lex.toLexerFns (by omega) _ _ _ _ rfl]
        exact ⟨l', hadError', out', hl', .inl ⟨rfl, _, _, rfl⟩⟩
      · rw [hcmd]
        simp only [Option.bind_eq_bind, Option.bind_some]
        refine afterCommand_line lex r hitems hredir hl' htrim htok hadError out
          (fun _ => fuel) (fun _ => by omega) fun l'' hbar hpipe => ?_
        have hshort : (tokens l'').length + 1 < fuel := by
          have hlt := readItems_rest_length (tokens l) hitems
          rw [hpipe, List.length_cons] at hlt
          omega
        subst hbar
        exact ih (by simp [pipelinePushBack]) hadError out
          (fun h => hl' (List.mem_cons_of_mem _ h)) hshort

theorem parseError_line (result : Pipeline) (anotherPipe hadError : Bool) {l : List Char}
    (out : List String) (hl : '\n' ∉ l) :
    ∃ l' out', '\n' ∉ l' ∧ parseError lex result anotherPipe hadError ⟨l ++ '\n' :: r, out⟩ =
      (pipelineNew, ⟨l' ++ '\n' :: r, out'⟩) := by
  obtain ⟨was₁, l₁, hpipe, hl₁⟩ := lex.takesSymbol_opPipe.keeps_line r (by decide) hl
  obtain ⟨was₂, l₂, hamp, hl₂⟩ := lex.takesSymbol_opBackground.keeps_line r (by decide) hl₁
  have hread : ∃ another background l', '\n' ∉ l' ∧
      (if pipelineIsEmpty result then
        let (anotherPipe, p) := (Parser.mk (l ++ '\n' :: r) out).opPipe lex
        let (isOpBackground, p) := p.opBackground lex
        (anotherPipe, isOpBackground, p)
      else (anotherPipe, false, ⟨l ++ '\n' :: r, out⟩)) =
        (another, background, Parser.mk (l' ++ '\n' :: r) out) := by
    split
    · rw [Parser.opPipe_eq lex hpipe]
      simp only [Parser.opBackground_eq lex hamp]
      exact ⟨_, _, l₂, hl₂, rfl⟩
    · exact ⟨_, _, l, hl, rfl⟩
  obtain ⟨another, background, l', hl', heq⟩ := hread
  unfold parseError
  rw [heq]
  simp only [Parser.printf]
  split_ifs <;> exact ⟨l', _, hl', rfl⟩

/-- What a line means, or the empty pipeline. -/
def linePipeline (ts : List Token) : Pipeline :=
  match readLine ts with
  | none => pipelineNew
  | some (cmds, background) => Pipeline.ofItems cmds background

/-- The end of `parse_pipeline` when the commands have been read without an error. -/
theorem background_line {l : List Char} (result : Pipeline) (hadError : Bool) (out : List String)
    (hl : '\n' ∉ l) (htrim : Trimmed l) :
    ∃ l' another error, '\n' ∉ l' ∧
      (let (isOpBackground, p) := (Parser.mk (l ++ '\n' :: r) out).opBackground lex
       let result := pipelineSetWait result (!isOpBackground)
       if isOpBackground then
         let p := p.skipBlanks lex
         let (anotherPipe, p) := p.opPipe lex
         some (result, anotherPipe, anotherPipe, hadError, p)
       else some (result, false, false, hadError, p)) =
        some (pipelineSetWait result (decide ((tokens l).head? ≠ some .amp)), another, error,
          hadError, ⟨l' ++ '\n' :: r, out⟩) ∧
      (error = true ↔ ∃ rest, tokens l = .amp :: .pipe :: rest) := by
  rcases lex.opBackground_line r htrim with ⟨l₁, hamp, rfl, hop⟩ | ⟨hamp, hop⟩
  · have hl₁ : '\n' ∉ l₁ := fun h => hl (List.mem_cons_of_mem _ h)
    have hskip := not_mem_dropWhile hl₁ isBlank
    rw [Parser.opBackground_eq lex hop, hamp, ← tokens_dropWhile_blank l₁]
    simp only [if_true, Parser.skipBlanks, lex.skipBlanks_line]
    rcases lex.opPipe_line r (trimmed_dropWhile l₁) with ⟨l₂, hpipe, hl₂, hop₂⟩ | ⟨hpipe, hop₂⟩
    · rw [Parser.opPipe_eq lex hop₂, hpipe]
      rw [hl₂] at hskip
      exact ⟨l₂, true, true, fun h => hskip (List.mem_cons_of_mem _ h), rfl, by simp⟩
    · rw [Parser.opPipe_eq lex hop₂]
      refine ⟨_, false, false, hskip, rfl, ?_⟩
      simp only [Bool.false_eq_true, false_iff]
      rintro ⟨rest, hrest⟩
      rw [(List.cons.inj hrest).2] at hpipe
      simp at hpipe
  · rw [Parser.opBackground_eq lex hop]
    refine ⟨l, false, false, hl, by simp [hamp], ?_⟩
    simp only [Bool.false_eq_true, false_iff]
    rintro ⟨rest, hrest⟩
    rw [hrest] at hamp
    simp at hamp

theorem parseCommands_none (hadError : Bool) {l : List Char} (out : List String) (hl : '\n' ∉ l) :
    ∃ another hadError' l', '\n' ∉ l' ∧
      parseCommands lex none hadError ⟨l ++ '\n' :: r, out⟩ =
        some (pipelineNew, another, true, hadError', ⟨l' ++ '\n' :: r, out⟩) := by
  obtain ⟨was₁, l₁, hpipe, hl₁⟩ := lex.takesSymbol_opPipe.keeps_line r (by decide) hl
  obtain ⟨was₂, l₂, hamp, hl₂⟩ := lex.takesSymbol_opBackground.keeps_line r (by decide) hl₁
  refine ⟨was₁, !(was₂ || was₁), l₂, hl₂, ?_⟩
  rw [parseCommands, Parser.opPipe_eq lex hpipe]
  simp only [Parser.opBackground_eq lex hamp]

theorem linePipeline_of_readCommands {ts rest : List Token} {cmds : List (List Item)}
    (h : readCommands ts = some (cmds, rest)) (hpipe : ¬ ∃ rest', rest = .amp :: .pipe :: rest') :
    linePipeline ts =
      pipelineSetWait ⟨cmds.map Scommand.ofItems, true⟩ (decide (rest.head? ≠ some .amp)) := by
  unfold linePipeline readLine
  rw [h]
  obtain ⟨-, -, rfl | hamp⟩ := readCommands_sound h
  · rfl
  · obtain ⟨rest, rfl⟩ : ∃ rest', rest = .amp :: rest' := by
      cases rest with
      | nil => simp at hamp
      | cons t rest => exact ⟨rest, by simpa using hamp⟩
    cases rest with
    | nil => rfl
    | cons t rest =>
        cases t with
        | pipe => exact absurd ⟨rest, rfl⟩ hpipe
        | _ => rfl

theorem linePipeline_none {ts : List Token} (h : readCommands ts = none) :
    linePipeline ts = pipelineNew := by
  rw [linePipeline, readLine, h]

theorem linePipeline_pipe {ts rest : List Token} {cmds : List (List Item)}
    (h : readCommands ts = some (cmds, .amp :: .pipe :: rest)) :
    linePipeline ts = pipelineNew := by
  rw [linePipeline, readLine, h]

/-- `parse_pipeline` before its error branch: an error flag, or the meaning of the line. -/
def CommandsRead (ts : List Token)
    (outcome : Option (Pipeline × Bool × Bool × Bool × Parser (List Char))) : Prop :=
  ∃ result another error hadError l' out, '\n' ∉ l' ∧
    outcome = some (result, another, error, hadError, ⟨l' ++ '\n' :: r, out⟩) ∧
    linePipeline ts = if error then pipelineNew else result

theorem parseCommands_some {ts : List Token} {l' : List Char}
    (hitems : (readItems ts).1 ≠ []) (hredir : ¬ StartsRedir (readItems ts).2) (hl' : '\n' ∉ l')
    (htrim : Trimmed l') (htok : tokens l' = (readItems ts).2) (hadError : Bool)
    (out : List String) :
    CommandsRead r ts (parseCommands lex (some (Scommand.ofItems (readItems ts).1)) hadError
      ⟨l' ++ '\n' :: r, out⟩) := by
  have hread := @afterCommand_line lex r _ pipelineNew _ hitems hredir hl' htrim htok
    hadError out (fun p => lex.length p.unread + 2) (fun _ => by omega) (by
      intro l'' hbar _
      have hlen := tokens_length_le l''
      subst hbar
      refine parsePipeLoop_line lex r (by simp [pipelinePushBack]) hadError out
        (fun h => hl' (List.mem_cons_of_mem _ h)) ?_
      simp only [lex.length_eq, List.length_append]
      omega)
  unfold parseCommands
  simp only [Option.bind_eq_bind]
  obtain ⟨l₁, hadError₁, out₁, hl₁, ⟨hnone, result₁, another₁, hrun⟩ |
    ⟨cmds, rest, hcmds, htrim₁, htok₁, hrun⟩⟩ := hread
  · simp only [hrun, Option.bind_some, if_true]
    exact ⟨_, _, true, _, l₁, _, hl₁, rfl, linePipeline_none hnone⟩
  · simp only [hrun, Option.bind_some, Bool.false_eq_true, if_false]
    obtain ⟨l₂, another, error, hl₂, hback, herror⟩ :=
      background_line lex r ⟨cmds.map Scommand.ofItems, true⟩ hadError₁ out₁ hl₁ htrim₁
    refine ⟨_, another, error, hadError₁, l₂, out₁, hl₂, hback, ?_⟩
    rw [htok₁] at herror ⊢
    cases error with
    | true =>
        obtain ⟨rest', rfl⟩ := herror.mp rfl
        exact linePipeline_pipe hcmds
    | false => exact linePipeline_of_readCommands hcmds fun h => absurd (herror.mpr h) (by simp)

theorem parsePipeline_line {l : List Char} (out : List String) (hl : '\n' ∉ l) :
    ∃ out', parsePipeline lex ⟨l ++ '\n' :: r, out⟩ =
      some (linePipeline (tokens l), ⟨r, out'⟩) := by
  have heof : (Parser.mk (l ++ '\n' :: r) out).atEof lex = false := by
    obtain ⟨c, s, hs⟩ := List.exists_cons_of_ne_nil (show l ++ '\n' :: r ≠ [] by simp)
    rw [Parser.atEof, hs]
    exact lex.atEof_cons c s
  have hunread : (tokens l).length ≤ lex.length (l ++ '\n' :: r) := by
    have hlen := tokens_length_le l
    rw [lex.length_eq, List.length_append]
    omega
  have hcommands : ∃ res,
      parseScommand lex (lex.length (l ++ '\n' :: r)) false ⟨l ++ '\n' :: r, out⟩ = some res ∧
        CommandsRead r (tokens l) (parseCommands lex res.1 res.2.1 res.2.2) := by
    rcases parseScommand_line lex r false out hl hunread with
      ⟨hitems, l', out', hl', hcmd⟩ |
      ⟨hitems, ⟨hredir, hadError', l', out', hl', hcmd⟩ | ⟨hredir, l', hl', htrim, htok, hcmd⟩⟩
    · obtain ⟨another, hadError', l₁, hl₁, hrun⟩ := parseCommands_none lex r false out' hl'
      exact ⟨_, hcmd, _, _, true, _, l₁, _, hl₁, hrun,
        linePipeline_none (readCommands_nil hitems)⟩
    · obtain ⟨another, hadError'', l₁, hl₁, hrun⟩ := parseCommands_none lex r hadError' out' hl'
      exact ⟨_, hcmd, _, _, true, _, l₁, _, hl₁, hrun,
        linePipeline_none (readCommands_redir hitems hredir)⟩
    · exact ⟨_, hcmd, parseCommands_some lex r hitems hredir hl' htrim htok false out⟩
  obtain ⟨⟨cmd, hadError, p⟩, hcmd, result, another, error, hadError', l', out', hl', hrun,
    hline⟩ :=
    hcommands
  rw [parsePipeline, heof, if_neg (by simp)]
  simp only [Option.bind_eq_bind, hcmd, Option.bind_some, hrun]
  cases error with
  | true =>
      obtain ⟨l₁, out₁, hl₁, herr⟩ := parseError_line lex r result another hadError' out' hl'
      refine ⟨out₁, ?_⟩
      rw [if_pos rfl, herr, hline]
      simp [Parser.garbage, lex.garbage_line r hl₁]
  | false =>
      refine ⟨out', ?_⟩
      rw [hline]
      simp [Parser.garbage, lex.garbage_line r hl']

end Loops

end SistOp.MyBash
