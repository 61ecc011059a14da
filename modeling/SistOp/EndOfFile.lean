import SistOp.ParserCalls

/-!
# The parser and the end of the file

An input is followed to the place where the parser stops reading commands, and the operators
that it looks for behind that place decide whether it finds the end of the file before its last
call.  Once the lexer is off it stays off, so a call at the end of the file is seen by the last.
-/

namespace SistOp.MyBash

/-! ## Where the parser stops -/

/-- What follows the items of a command. -/
inductive CommandEnd where
  | eof | operator | noFile

/-- The items at the front of a text, and the text in front of which the lexer is then: none at
the end of the file, one that begins with an operator or a line end, or one behind a redirection
without a file. -/
inductive CommandText : List Char → List Item → CommandEnd → Option (List Char) → Prop where
  | eof {s : List Char} (h : dropBlanks s = []) : CommandText s [] .eof none
  | operator {s x : List Char} {c : Char} (h : dropBlanks s = c :: x) (hc : strchr wordEnds c)
      (hkind : redirKind c = none) : CommandText s [] .operator (some (c :: x))
  | noFile {s x y : List Char} {c d : Char} {kind : ArgKind} (h : dropBlanks s = c :: x)
      (hc : redirKind c = some kind) (hx : dropBlanks x = d :: y) (hd : strchr wordEnds d) :
      CommandText s [] .noFile (some (d :: y))
  | noFileEof {s x : List Char} {c : Char} {kind : ArgKind} (h : dropBlanks s = c :: x)
      (hc : redirKind c = some kind) (hx : dropBlanks x = []) : CommandText s [] .eof none
  | word {s x : List Char} {c : Char} {items : List Item} {e : CommandEnd}
      {left : Option (List Char)} (h : dropBlanks s = c :: x) (hc : strchr wordEnds c = false)
      (hrest : CommandText (splitWord (c :: x)).2 items e left) :
      CommandText s ((.normal, (splitWord (c :: x)).1) :: items) e left
  | file {s x y : List Char} {c d : Char} {kind : ArgKind} {items : List Item} {e : CommandEnd}
      {left : Option (List Char)} (h : dropBlanks s = c :: x) (hc : redirKind c = some kind)
      (hx : dropBlanks x = d :: y) (hd : strchr wordEnds d = false)
      (hrest : CommandText (splitWord (d :: y)).2 items e left) :
      CommandText s ((kind, (splitWord (d :: y)).1) :: items) e left

/-- Where the parser has read the commands of a text: at its end, at the end of the line, behind
the `&`, or at a command that is not there, with the number of commands before it. -/
inductive LineStop where
  | eof
  | line (c : Char) (text : List Char)
  | background (after : List Char)
  | error (commands : ℕ) (text : List Char)

/-- The parser stops there on a text, behind `k` commands. -/
inductive StopsAt : ℕ → List Char → LineStop → Prop where
  | eof {k : ℕ} {s : List Char} {items : List Item} (h : CommandText s items .eof none) :
      StopsAt k s .eof
  | line {k : ℕ} {s y : List Char} {c : Char} {items : List Item}
      (h : CommandText s items .operator (some (c :: y))) (hitems : items ≠ []) (hbar : c ≠ '|')
      (hamp : c ≠ '&') : StopsAt k s (.line c y)
  | background {k : ℕ} {s after : List Char} {items : List Item}
      (h : CommandText s items .operator (some ('&' :: after))) (hitems : items ≠ []) :
      StopsAt k s (.background after)
  | pipe {k : ℕ} {s y : List Char} {items : List Item} {stop : LineStop}
      (h : CommandText s items .operator (some ('|' :: y))) (hitems : items ≠ [])
      (hrest : StopsAt (k + 1) y stop) : StopsAt k s stop
  | missing {k : ℕ} {s x : List Char} (h : CommandText s [] .operator (some x)) :
      StopsAt k s (.error k x)
  | noFile {k : ℕ} {s x : List Char} {items : List Item}
      (h : CommandText s items .noFile (some x)) : StopsAt k s (.error k x)

/-- What an operator leaves of a text, unless it finds the end of the file. -/
def operatorText (op : Char) (s : List Char) : Option (List Char) :=
  match dropBlanks s with
  | [] => none
  | c :: t => some (if c = op then t else c :: t)

/-- A `|` and then an `&`, as `parse_pipeline` looks for them after an error. -/
def operatorsText (s : List Char) : Option (List Char) :=
  (operatorText '|' s).bind (operatorText '&')

/-- The text in front of which `parser_garbage` is called, if there is any. -/
def LineStop.left : LineStop → Option (List Char)
  | .eof => none
  | .line c text => some (c :: text)
  | .background after => operatorText '|' after
  | .error 0 text => (operatorsText text).bind operatorsText
  | .error 1 text => operatorsText text
  | .error _ text => some text

theorem StopsAt.commands_le {k n : ℕ} {s x : List Char} (h : StopsAt k s (.error n x)) :
    k ≤ n := by
  generalize hstop : LineStop.error n x = stop at h
  induction h with
  | pipe h hitems hrest ih => exact (Nat.le_succ _).trans (ih hstop)
  | missing h | noFile h =>
      cases hstop
      exact le_rfl
  | _ => cases hstop

/-! ### Every text has such a place -/

theorem length_le_of_dropBlanks {s x : List Char} {c : Char} (h : dropBlanks s = c :: x) :
    x.length + 1 ≤ s.length := by
  simpa [h] using (dropBlanks_suffix s).length_le

theorem splitWord_shorter {c : Char} {x : List Char} (hc : strchr wordEnds c = false) :
    (splitWord (c :: x)).2.length ≤ x.length := by
  rw [splitWord, List.dropWhile_cons_of_pos (by simp [hc])]
  exact (List.dropWhile_suffix _).length_le

theorem redirKind_wordEnd {c : Char} {kind : ArgKind} (hc : redirKind c = some kind) :
    strchr wordEnds c = true := by
  unfold redirKind at hc
  split_ifs at hc with hless hgreat
  · subst hless
    decide
  · subst hgreat
    decide

theorem redirKind_of_word {c : Char} (hc : strchr wordEnds c = false) : redirKind c = none := by
  cases hkind : redirKind c with
  | none => rfl
  | some kind => simp [redirKind_wordEnd hkind] at hc

theorem redirKind_cases {c : Char} {kind : ArgKind} (hc : redirKind c = some kind) :
    kind = .input ∨ kind = .output := by
  unfold redirKind at hc
  split_ifs at hc <;> simp_all

theorem CommandText.length_le {s : List Char} {items : List Item} {e : CommandEnd}
    {left : Option (List Char)} (h : CommandText s items e left) :
    (left.getD []).length + items.length ≤ s.length := by
  induction h with
  | eof h | noFileEof h hc hx => simp
  | operator h hc hkind =>
      have hlen := length_le_of_dropBlanks h
      simpa using hlen
  | noFile h hc hx hd =>
      have hlen := length_le_of_dropBlanks h
      have hlen' := length_le_of_dropBlanks hx
      simp only [Option.getD_some, List.length_cons, List.length_nil]
      omega
  | @word s x c items e left h hc hrest ih =>
      have hlen := length_le_of_dropBlanks h
      have hshort := splitWord_shorter (x := x) hc
      simp only [List.length_cons]
      omega
  | @file s x y c d kind items e left h hc hx hd hrest ih =>
      have hlen := length_le_of_dropBlanks h
      have hlen' := length_le_of_dropBlanks hx
      have hshort := splitWord_shorter (x := y) hd
      simp only [List.length_cons]
      omega

theorem exists_commandText (s : List Char) : ∃ items e left, CommandText s items e left := by
  induction hlen : s.length using Nat.strong_induction_on generalizing s with
  | _ n ih =>
      cases hs : dropBlanks s with
      | nil => exact ⟨_, _, _, .eof hs⟩
      | cons c x =>
          have hcx := length_le_of_dropBlanks hs
          cases hkind : redirKind c with
          | some kind =>
              cases hx : dropBlanks x with
              | nil => exact ⟨_, _, _, .noFileEof hs hkind hx⟩
              | cons d y =>
                  have hdy := length_le_of_dropBlanks hx
                  cases hd : strchr wordEnds d with
                  | true => exact ⟨_, _, _, .noFile hs hkind hx hd⟩
                  | false =>
                      have hshort := splitWord_shorter (x := y) hd
                      obtain ⟨items, e, left, hrest⟩ :=
                        ih (splitWord (d :: y)).2.length (by omega) _ rfl
                      exact ⟨_, _, _, .file hs hkind hx hd hrest⟩
          | none =>
              cases hc : strchr wordEnds c with
              | true => exact ⟨_, _, _, .operator hs hc hkind⟩
              | false =>
                  have hshort := splitWord_shorter (x := x) hc
                  obtain ⟨items, e, left, hrest⟩ :=
                    ih (splitWord (c :: x)).2.length (by omega) _ rfl
                  exact ⟨_, _, _, .word hs hc hrest⟩

theorem CommandText.left_eof {s : List Char} {items : List Item} {left : Option (List Char)}
    (h : CommandText s items .eof left) : left = none := by
  generalize he : CommandEnd.eof = e at h
  induction h with
  | eof h | noFileEof h hc hx => rfl
  | word h hc hrest ih | file h hc hx hd hrest ih => exact ih he
  | operator | noFile => cases he

/-- The text behind the items begins with a character that ends words. -/
theorem CommandText.left_cons {s : List Char} {items : List Item} {e : CommandEnd}
    {left : Option (List Char)} (h : CommandText s items e left) (he : e ≠ .eof) :
    ∃ c y, left = some (c :: y) ∧ dropBlanks (c :: y) = c :: y := by
  induction h with
  | eof h | noFileEof h hc hx => exact absurd rfl he
  | operator h hc hkind => exact ⟨_, _, rfl, dropBlanks_cons h⟩
  | noFile h hc hx hd => exact ⟨_, _, rfl, dropBlanks_cons hx⟩
  | word h hc hrest ih | file h hc hx hd hrest ih => exact ih he

theorem CommandText.dropBlanks_left {s x : List Char} {items : List Item}
    (h : CommandText s items .operator (some x)) : dropBlanks x = x := by
  obtain ⟨c, y, hx, hdrop⟩ := h.left_cons (by simp)
  rwa [← Option.some.inj hx] at hdrop

theorem exists_stopsAt (k : ℕ) (s : List Char) : ∃ stop, StopsAt k s stop := by
  induction hlen : s.length using Nat.strong_induction_on generalizing k s with
  | _ n ih =>
      obtain ⟨items, e, left, htext⟩ := exists_commandText s
      have hle := htext.length_le
      cases e with
      | eof =>
          obtain rfl := htext.left_eof
          exact ⟨_, .eof htext⟩
      | noFile =>
          obtain ⟨c, y, rfl, -⟩ := htext.left_cons (by simp)
          exact ⟨_, .noFile htext⟩
      | operator =>
          obtain ⟨c, y, rfl, -⟩ := htext.left_cons (by simp)
          by_cases hitems : items = []
          · subst hitems
            exact ⟨_, .missing htext⟩
          by_cases hbar : c = '|'
          · subst hbar
            simp only [Option.getD_some, List.length_cons] at hle
            obtain ⟨stop, hstop⟩ := ih y.length (by omega) (k + 1) y rfl
            exact ⟨stop, .pipe htext hitems hstop⟩
          by_cases hamp : c = '&'
          · subst hamp
            exact ⟨_, .background htext hitems⟩
          · exact ⟨_, .line htext hitems hbar hamp⟩

/-! ### A newline is not passed -/

theorem newline_mem_dropWhile {f : Char → Bool} (hf : f '\n' = false) {s : List Char}
    (hs : '\n' ∈ s) : '\n' ∈ s.dropWhile f := by
  rw [← List.takeWhile_append_dropWhile (p := f) (l := s), List.mem_append] at hs
  refine hs.resolve_left fun hmem => ?_
  have htake := List.mem_takeWhile_imp hmem
  rw [hf] at htake
  exact absurd htake Bool.false_ne_true

theorem newline_mem_dropBlanks {s : List Char} (hs : '\n' ∈ s) : '\n' ∈ dropBlanks s :=
  newline_mem_dropWhile (by decide) hs

theorem newline_mem_tail {s x : List Char} {c : Char} (h : dropBlanks s = c :: x)
    (hc : c ≠ '\n') (hs : '\n' ∈ s) : '\n' ∈ x := by
  have hmem := newline_mem_dropBlanks hs
  rw [h] at hmem
  exact List.mem_of_ne_of_mem hc.symm hmem

theorem redirKind_ne_newline {c : Char} {kind : ArgKind} (hc : redirKind c = some kind) :
    c ≠ '\n' := by
  rintro rfl
  simp [redirKind] at hc

theorem CommandText.newline_mem {s : List Char} {items : List Item} {e : CommandEnd}
    {left : Option (List Char)} (h : CommandText s items e left) (hs : '\n' ∈ s) :
    ∃ x, left = some x ∧ '\n' ∈ x := by
  induction h with
  | eof h => simpa [h] using newline_mem_dropBlanks hs
  | operator h hc hkind => exact ⟨_, rfl, h ▸ newline_mem_dropBlanks hs⟩
  | noFile h hc hx hd =>
      have htail := newline_mem_tail h (redirKind_ne_newline hc) hs
      exact ⟨_, rfl, hx ▸ newline_mem_dropBlanks htail⟩
  | noFileEof h hc hx =>
      have htail := newline_mem_tail h (redirKind_ne_newline hc) hs
      simpa [hx] using newline_mem_dropBlanks htail
  | word h hc hrest ih =>
      exact ih (newline_mem_dropWhile (by decide) (h ▸ newline_mem_dropBlanks hs))
  | file h hc hx hd hrest ih =>
      have htail := newline_mem_tail h (redirKind_ne_newline hc) hs
      exact ih (newline_mem_dropWhile (by decide) (hx ▸ newline_mem_dropBlanks htail))

theorem newline_mem_operatorText {op : Char} (hop : op ≠ '\n') {s : List Char} (hs : '\n' ∈ s) :
    ∃ t, operatorText op s = some t ∧ '\n' ∈ t := by
  have hmem := newline_mem_dropBlanks hs
  unfold operatorText
  cases hdrop : dropBlanks s with
  | nil => simp [hdrop] at hmem
  | cons c t =>
      rw [hdrop] at hmem
      by_cases hc : c = op
      · subst hc
        exact ⟨t, by simp, List.mem_of_ne_of_mem hop.symm hmem⟩
      · exact ⟨c :: t, by simp [hc], hmem⟩

theorem newline_mem_operatorsText {s : List Char} (hs : '\n' ∈ s) :
    ∃ t, operatorsText s = some t ∧ '\n' ∈ t := by
  obtain ⟨t, hbar, ht⟩ := newline_mem_operatorText (show '|' ≠ '\n' by decide) hs
  obtain ⟨u, hamp, hu⟩ := newline_mem_operatorText (show '&' ≠ '\n' by decide) ht
  exact ⟨u, by rw [operatorsText, hbar, Option.bind_some, hamp], hu⟩

theorem StopsAt.left_ne_none {k : ℕ} {s : List Char} {stop : LineStop} (h : StopsAt k s stop)
    (hs : '\n' ∈ s) : stop.left ≠ none := by
  have error : ∀ (n : ℕ) {x : List Char}, '\n' ∈ x → (LineStop.error n x).left ≠ none := by
    intro n x hx
    obtain ⟨t, ht, hmem⟩ := newline_mem_operatorsText hx
    obtain ⟨u, hu, -⟩ := newline_mem_operatorsText hmem
    match n with
    | 0 => simp [LineStop.left, ht, hu]
    | 1 => simp [LineStop.left, ht]
    | n + 2 => simp [LineStop.left]
  induction h with
  | eof h =>
      obtain ⟨x, hx, -⟩ := h.newline_mem hs
      cases hx
  | line h hitems hbar hamp => simp [LineStop.left]
  | background h hitems =>
      obtain ⟨x, hx, hmem⟩ := h.newline_mem hs
      obtain rfl := Option.some.inj hx
      have hafter := List.mem_of_ne_of_mem (by decide) hmem
      obtain ⟨t, ht, -⟩ := newline_mem_operatorText (show '|' ≠ '\n' by decide) hafter
      simp [LineStop.left, ht]
  | pipe h hitems hrest ih =>
      obtain ⟨x, hx, hmem⟩ := h.newline_mem hs
      obtain rfl := Option.some.inj hx
      exact ih (List.mem_of_ne_of_mem (by decide) hmem)
  | missing h | noFile h =>
      obtain ⟨x, hx, hmem⟩ := h.newline_mem hs
      obtain rfl := Option.some.inj hx
      exact error _ hmem

/-! ## The parser on such a text -/

section Watched

/-- Where the parser is: in front of a text with no call at the end of the file so far, or at the
end of the file. -/
def Parser.At (left : Option (List Char)) (p : Parser (LexerState × Bool)) : Prop :=
  match left with
  | some s => p.unread = (⟨s, false⟩, true)
  | none => p.unread.1.off = true

variable {s t x : List Char} {c : Char} {left : Option (List Char)}
  {p q : Parser (LexerState × Bool)} {fuel k : ℕ} {hadError : Bool}

theorem Parser.at_on (s : List Char) (out : List String) :
    (Parser.mk ((⟨s, false⟩ : LexerState), true) out).At (some s) := rfl

theorem lexOperator_on (op : Char) (s : List Char) :
    (lexOperator op ⟨s, false⟩).2 =
      match operatorText op s with
      | some t => ⟨t, false⟩
      | none => ⟨[], true⟩ := by
  unfold operatorText
  cases hs : dropBlanks s with
  | nil => rw [lexOperator_eof op hs]
  | cons c t =>
      by_cases hc : c = op
      · subst hc
        simp [lexOperator_here hs]
      · simp [lexOperator_other hs hc, hc]

/-- `lex_operator` on the state of the parser. -/
def Parser.operator (op : Char) (p : Parser (LexerState × Bool)) :
    Bool × Parser (LexerState × Bool) :=
  let (was, state) := lexOperator op p.unread.1
  (was, { p with unread := (state, p.unread.2 && !p.unread.1.off) })

theorem opPipe_watched : p.opPipe shippedLexer.watched = p.operator '|' := rfl

theorem opBackground_watched : p.opBackground shippedLexer.watched = p.operator '&' := rfl

theorem Parser.At.operator (op : Char) (hp : p.At left) :
    (p.operator op).2.At (left.bind (operatorText op)) := by
  cases left with
  | none =>
      have hoff : p.unread.1.off = true := hp
      simp [Parser.At, Parser.operator, lexOperator_off hoff, hoff]
  | some s =>
      have hon : p.unread = (⟨s, false⟩, true) := hp
      simp only [Parser.operator, hon, lexOperator_on op s, Option.bind_some]
      cases htext : operatorText op s with
      | none => simp [Parser.At]
      | some t => simp [Parser.At]

theorem Parser.At.operator_here {op : Char} (hp : p.At (some (op :: t)))
    (h : dropBlanks (op :: t) = op :: t) :
    ∃ q, p.operator op = (true, q) ∧ q.At (some t) := by
  have hon : p.unread = (⟨op :: t, false⟩, true) := hp
  refine ⟨⟨(⟨t, false⟩, true), p.printed⟩, ?_, Parser.at_on t p.printed⟩
  simp [Parser.operator, hon, lexOperator_here h]

theorem Parser.At.operator_other {op : Char} (hp : p.At (some (c :: t)))
    (h : dropBlanks (c :: t) = c :: t) (hc : c ≠ op) :
    ∃ q, p.operator op = (false, q) ∧ q.At (some (c :: t)) := by
  have hon : p.unread = (⟨c :: t, false⟩, true) := hp
  refine ⟨⟨(⟨c :: t, false⟩, true), p.printed⟩, ?_, Parser.at_on (c :: t) p.printed⟩
  simp [Parser.operator, hon, lexOperator_other h hc]

theorem Parser.At.operator_off (op : Char) (hp : p.At none) :
    ∃ q, p.operator op = (false, q) ∧ q.At none := by
  have hoff : p.unread.1.off = true := hp
  refine ⟨⟨(p.unread.1, p.unread.2 && !p.unread.1.off), p.printed⟩, ?_, hoff⟩
  simp [Parser.operator, lexOperator_off hoff]

theorem Parser.At.length_eq (hp : p.At (some s)) :
    shippedLexer.watched.length p.unread = s.length := by
  have hon : p.unread = (⟨s, false⟩, true) := hp
  rw [hon]
  rfl

/-- The blanks in front are dropped, and an argument is read. -/
theorem Parser.At.nextArgument (hp : p.At (some s)) (h : dropBlanks s = c :: t) :
    (p.skipBlanks shippedLexer.watched).nextArgument shippedLexer.watched =
      ((parserNextArgument ⟨c :: t, false⟩).1, (parserNextArgument ⟨c :: t, false⟩).2.1,
        ⟨((parserNextArgument ⟨c :: t, false⟩).2.2, true), p.printed⟩) := by
  have hon : p.unread = (⟨s, false⟩, true) := hp
  simp [Parser.nextArgument, Parser.skipBlanks, LexerFns.watched, shippedLexer, hon,
    parserSkipBlanks_on, h, isEmpty_of_dropBlanks h]

/-- At the end of the file no argument is found. -/
theorem Parser.At.nextArgument_eof (hp : p.At (some s)) (h : dropBlanks s = []) :
    ∃ q, (p.skipBlanks shippedLexer.watched).nextArgument shippedLexer.watched =
      (none, .normal, q) ∧ q.At none := by
  have hon : p.unread = (⟨s, false⟩, true) := hp
  cases s with
  | nil => exact ⟨⟨(⟨[], true⟩, false), p.printed⟩, by simp [Parser.nextArgument,
      Parser.skipBlanks, LexerFns.watched, shippedLexer, hon, parserSkipBlanks_on, dropBlanks,
      parserNextArgument_off], rfl⟩
  | cons c t => exact ⟨⟨(⟨[], true⟩, true), p.printed⟩, by simp [Parser.nextArgument,
      Parser.skipBlanks, LexerFns.watched, shippedLexer, hon, parserSkipBlanks_on, h,
      parserNextArgument_eof (s := []) rfl], rfl⟩

/-- What `parse_scommand` returns on a text with such items. -/
def ScommandStops (e : CommandEnd) (left : Option (List Char)) (missing : Prop)
    (outcome : Option (Option Scommand × Bool × Parser (LexerState × Bool))) : Prop :=
  ∃ cmd hadError q, outcome = some (cmd, hadError, q) ∧ q.At left ∧
    (e = .operator → (cmd = none ↔ missing)) ∧ (e = .noFile → cmd = none)

theorem parseScommandLoop_stops {items : List Item} {e : CommandEnd}
    (h : CommandText s items e left) (hp : p.At (some s)) (hfuel : items.length < fuel)
    (cmd : Scommand) (type : ArgKind) (arg : CString) (hadError : Bool) :
    ScommandStops e left False
      (parseScommandLoop shippedLexer.watched fuel cmd type arg hadError p) := by
  obtain ⟨fuel, rfl⟩ := Nat.exists_eq_succ_of_ne_zero (Nat.ne_zero_of_lt hfuel)
  induction h generalizing p fuel cmd type arg hadError with
  | eof h =>
      obtain ⟨q, hnext, hq⟩ := hp.nextArgument_eof h
      simp only [parseScommandLoop, hnext, reduceCtorEq, or_self, if_false]
      exact ⟨_, _, _, rfl, hq, by simp, by simp⟩
  | operator h hc hkind =>
      simp only [parseScommandLoop, hp.nextArgument h,
        parserNextArgument_word (dropBlanks_cons h) hkind, lexWord_none (dropBlanks_cons h) hc,
        reduceCtorEq, or_self, if_false]
      exact ⟨_, _, _, rfl, rfl, by simp, by simp⟩
  | noFile h hc hx hd =>
      simp only [parseScommandLoop, hp.nextArgument h,
        parserNextArgument_redir (dropBlanks_cons h) hc, lexWord_none hx hd,
        if_pos (redirKind_cases hc)]
      exact ⟨_, _, _, rfl, rfl, by simp, by simp⟩
  | noFileEof h hc hx =>
      simp only [parseScommandLoop, hp.nextArgument h,
        parserNextArgument_redir (dropBlanks_cons h) hc, lexWord_eof hx,
        if_pos (redirKind_cases hc)]
      exact ⟨_, _, _, rfl, rfl, by simp, by simp⟩
  | word h hc hrest ih =>
      obtain ⟨fuel, rfl⟩ := Nat.exists_eq_succ_of_ne_zero (n := fuel) (by simp at hfuel; omega)
      rw [parseScommandLoop]
      simp only [hp.nextArgument h,
        parserNextArgument_word (dropBlanks_cons h) (redirKind_of_word hc),
        lexWord_some (dropBlanks_cons h) hc]
      apply ih
      · exact Parser.at_on _ _
      · simpa using hfuel
  | file h hc hx hd hrest ih =>
      obtain ⟨fuel, rfl⟩ := Nat.exists_eq_succ_of_ne_zero (n := fuel) (by simp at hfuel; omega)
      rw [parseScommandLoop]
      simp only [hp.nextArgument h, parserNextArgument_redir (dropBlanks_cons h) hc,
        lexWord_some hx hd]
      apply ih
      · exact Parser.at_on _ _
      · simpa using hfuel

theorem parseScommand_stops {items : List Item} {e : CommandEnd}
    (h : CommandText s items e left) (hp : p.At (some s)) (hfuel : items.length ≤ fuel)
    (hadError : Bool) :
    ScommandStops e left (items = []) (parseScommand shippedLexer.watched fuel hadError p) := by
  cases h with
  | eof h =>
      obtain ⟨q, hnext, hq⟩ := hp.nextArgument_eof h
      simp only [parseScommand, hnext]
      exact ⟨_, _, _, rfl, hq, by simp, by simp⟩
  | operator h hc hkind =>
      simp only [parseScommand, hp.nextArgument h,
        parserNextArgument_word (dropBlanks_cons h) hkind, lexWord_none (dropBlanks_cons h) hc]
      exact ⟨_, _, _, rfl, rfl, by simp, by simp⟩
  | noFile h hc hx hd =>
      simp only [parseScommand, hp.nextArgument h,
        parserNextArgument_redir (dropBlanks_cons h) hc, lexWord_none hx hd]
      exact ⟨_, _, _, rfl, rfl, by simp, by simp⟩
  | noFileEof h hc hx =>
      simp only [parseScommand, hp.nextArgument h,
        parserNextArgument_redir (dropBlanks_cons h) hc, lexWord_eof hx]
      exact ⟨_, _, _, rfl, rfl, by simp, by simp⟩
  | word h hc hrest =>
      simp only [parseScommand, hp.nextArgument h,
        parserNextArgument_word (dropBlanks_cons h) (redirKind_of_word hc),
        lexWord_some (dropBlanks_cons h) hc, List.cons_ne_nil]
      exact parseScommandLoop_stops hrest (Parser.at_on _ _) (by simpa using hfuel) _ _ _ _
  | file h hc hx hd hrest =>
      simp only [parseScommand, hp.nextArgument h,
        parserNextArgument_redir (dropBlanks_cons h) hc, lexWord_some hx hd, List.cons_ne_nil]
      exact parseScommandLoop_stops hrest (Parser.at_on _ _) (by simpa using hfuel) _ _ _ _

/-- The loop of `parse_pipeline` on a text at which the parser stops there. -/
def LoopStops (stop : LineStop)
    (outcome : Option (Pipeline × Bool × Bool × Bool × Parser (LexerState × Bool))) : Prop :=
  ∃ result another error hadError q, outcome = some (result, another, error, hadError, q) ∧
    match stop with
    | .eof => q.At none
    | .line c y => error = false ∧ q.At (some (c :: y)) ∧ dropBlanks (c :: y) = c :: y ∧ c ≠ '&'
    | .background after => error = false ∧ q.At (some ('&' :: after)) ∧ result.scmd ≠ []
    | .error n x => error = true ∧ q.At (some x) ∧ (pipelineIsEmpty result ↔ n = 1)

/-- The command of an iteration is not there: the front one is popped and the loop ends. -/
theorem parsePipeLoop_missing {result : Pipeline} (hresult : result.scmd.length = k) (hk : 0 < k)
    (hfuel : 0 < fuel) {hadError' : Bool}
    (hrun : parseScommand shippedLexer.watched (shippedLexer.watched.length p.unread) hadError p =
      some (none, hadError', q)) :
    ∃ result', (pipelineIsEmpty result' ↔ k = 1) ∧
      parsePipeLoop shippedLexer.watched (fuel + 1) result true false hadError p =
        some (result', true, true, hadError', q) := by
  obtain ⟨cmd, cmds, hcmds⟩ := List.exists_cons_of_length_pos (hresult ▸ hk)
  refine ⟨{ result with scmd := cmds }, ?_, ?_⟩
  · rw [hcmds, List.length_cons] at hresult
    simp only [pipelineIsEmpty, beq_iff_eq]
    omega
  · rw [parsePipeLoop, Bool.not_false, Bool.and_self, if_pos rfl, hrun]
    simp only [Option.bind_eq_bind, Option.bind_some, pipelinePopFront_cons hcmds]
    exact parsePipeLoop_stop _ hfuel _ _ _ _ rfl

/-- The command of an iteration is there, and no pipe behind it: the loop ends. -/
theorem parsePipeLoop_last {result : Pipeline} {cmd : Scommand} {hadError' : Bool}
    {q' : Parser (LexerState × Bool)} (hfuel : 0 < fuel)
    (hrun : parseScommand shippedLexer.watched (shippedLexer.watched.length p.unread) hadError p =
      some (some cmd, hadError', q)) (hpipe : q.operator '|' = (false, q')) :
    parsePipeLoop shippedLexer.watched (fuel + 1) result true false hadError p =
      some (pipelinePushBack result cmd, false, false, hadError', q') := by
  rw [parsePipeLoop, Bool.not_false, Bool.and_self, if_pos rfl, hrun]
  simp only [Option.bind_eq_bind, Option.bind_some, opPipe_watched, hpipe]
  exact parsePipeLoop_stop _ hfuel _ _ _ _ rfl

theorem parsePipeLoop_stops {stop : LineStop} (h : StopsAt k s stop) (hp : p.At (some s))
    {result : Pipeline} (hresult : result.scmd.length = k) (hk : 0 < k)
    (hfuel : s.length + 2 ≤ fuel) (hadError : Bool) :
    LoopStops stop (parsePipeLoop shippedLexer.watched fuel result true false hadError p) := by
  obtain ⟨fuel, rfl⟩ := Nat.exists_eq_succ_of_ne_zero (n := fuel) (by omega)
  have hpos : 0 < fuel := by omega
  have command : ∀ {s : List Char} {items : List Item} {e : CommandEnd}
      {left : Option (List Char)} {p : Parser (LexerState × Bool)}, CommandText s items e left →
      p.At (some s) → ∀ hadError, ScommandStops e left (items = [])
        (parseScommand shippedLexer.watched (shippedLexer.watched.length p.unread) hadError p) := by
    intro s items e left p h hp hadError
    have hle := h.length_le
    rw [hp.length_eq]
    exact parseScommand_stops h hp (by omega) hadError
  induction h generalizing p result fuel hadError with
  | eof h =>
      obtain ⟨cmd, hadError', q, hrun, hq, -, -⟩ := command h hp hadError
      cases cmd with
      | none =>
          obtain ⟨result', -, hloop⟩ := parsePipeLoop_missing hresult hk hpos hrun
          exact ⟨_, _, _, _, _, hloop, hq⟩
      | some cmd =>
          obtain ⟨q', hpipe, hq'⟩ := hq.operator_off '|'
          exact ⟨_, _, _, _, _, parsePipeLoop_last hpos hrun hpipe, hq'⟩
  | missing h =>
      obtain ⟨cmd, hadError', q, hrun, hq, hmissing, -⟩ := command h hp hadError
      obtain rfl := (hmissing rfl).mpr rfl
      obtain ⟨result', hempty, hloop⟩ := parsePipeLoop_missing hresult hk hpos hrun
      exact ⟨_, _, _, _, _, hloop, rfl, hq, hempty⟩
  | noFile h =>
      obtain ⟨cmd, hadError', q, hrun, hq, -, hnone⟩ := command h hp hadError
      obtain rfl := hnone rfl
      obtain ⟨result', hempty, hloop⟩ := parsePipeLoop_missing hresult hk hpos hrun
      exact ⟨_, _, _, _, _, hloop, rfl, hq, hempty⟩
  | line h hitems hbar hamp =>
      obtain ⟨cmd, hadError', q, hrun, hq, hmissing, -⟩ := command h hp hadError
      obtain ⟨cmd, rfl⟩ := Option.ne_none_iff_exists'.mp (mt (hmissing rfl).mp hitems)
      have hdrop := h.dropBlanks_left
      obtain ⟨q', hpipe, hq'⟩ := hq.operator_other hdrop hbar
      exact ⟨_, _, _, _, _, parsePipeLoop_last hpos hrun hpipe, rfl, hq', hdrop, hamp⟩
  | background h hitems =>
      obtain ⟨cmd, hadError', q, hrun, hq, hmissing, -⟩ := command h hp hadError
      obtain ⟨cmd, rfl⟩ := Option.ne_none_iff_exists'.mp (mt (hmissing rfl).mp hitems)
      obtain ⟨q', hpipe, hq'⟩ := hq.operator_other h.dropBlanks_left (show '&' ≠ '|' by decide)
      exact ⟨_, _, _, _, _, parsePipeLoop_last hpos hrun hpipe, rfl, hq',
        by simp [pipelinePushBack]⟩
  | @pipe k s y items stop h hitems hrest ih =>
      have hlen := h.length_le
      rw [Option.getD_some, List.length_cons] at hlen
      obtain ⟨cmd, hadError', q, hrun, hq, hmissing, -⟩ := command h hp hadError
      obtain ⟨cmd, rfl⟩ := Option.ne_none_iff_exists'.mp (mt (hmissing rfl).mp hitems)
      obtain ⟨q', hpipe, hq'⟩ := hq.operator_here h.dropBlanks_left
      obtain ⟨fuel, rfl⟩ := Nat.exists_eq_succ_of_ne_zero (n := fuel) (by omega)
      rw [parsePipeLoop, Bool.not_false, Bool.and_self, if_pos rfl, hrun]
      simp only [Option.bind_eq_bind, Option.bind_some, opPipe_watched, hpipe]
      apply ih hq'
      · simpa [pipelinePushBack] using hresult
      · exact Nat.succ_pos k
      · omega
      · omega

/-! ### Behind the loop -/

theorem parseError_unread {σ : Type} (lex : LexerFns σ) (result : Pipeline)
    (another hadError : Bool) (p : Parser σ) :
    (parseError lex result another hadError p).2.unread =
      if pipelineIsEmpty result then ((p.opPipe lex).2.opBackground lex).2.unread
      else p.unread := by
  unfold parseError
  split_ifs <;> simp only [Parser.printf] <;> split_ifs <;> rfl

theorem Parser.At.of_unread (hp : p.At left) (h : q.unread = p.unread) : q.At left := by
  cases left <;> rwa [Parser.At, h]

theorem parseError_empty {result : Pipeline} (hresult : pipelineIsEmpty result) (hp : p.At left)
    (another hadError : Bool) :
    (parseError shippedLexer.watched result another hadError p).2.At
      (left.bind operatorsText) := by
  have hunread := parseError_unread shippedLexer.watched result another hadError p
  have hoperators := (hp.operator '|').operator '&'
  rw [Option.bind_assoc] at hoperators
  rw [if_pos hresult] at hunread
  exact hoperators.of_unread hunread

theorem parseError_full {result : Pipeline} (hresult : ¬ pipelineIsEmpty result) (hp : p.At left)
    (another hadError : Bool) :
    (parseError shippedLexer.watched result another hadError p).2.At left := by
  have hunread := parseError_unread shippedLexer.watched result another hadError p
  rw [if_neg hresult] at hunread
  exact hp.of_unread hunread

/-- `parse_pipeline` before the call of `parser_garbage`. -/
def LineEnds (stop : LineStop)
    (outcome : Option (Pipeline × Bool × Bool × Bool × Parser (LexerState × Bool))) : Prop :=
  ∃ result another error hadError q, outcome = some (result, another, error, hadError, q) ∧
    (if error then (parseError shippedLexer.watched result another hadError q).2 else q).At
      stop.left

theorem dropBlanks_dropBlanks (s : List Char) : dropBlanks (dropBlanks s) = dropBlanks s :=
  List.dropWhile_idempotent _ _

theorem operatorText_dropBlanks (op : Char) (s : List Char) :
    operatorText op (dropBlanks s) = operatorText op s := by
  rw [operatorText, operatorText, dropBlanks_dropBlanks]

theorem Parser.At.skipBlanks_operator (op : Char) (hp : p.At (some s)) :
    ((p.skipBlanks shippedLexer.watched).operator op).2.At (operatorText op s) := by
  have hon : p.unread = (⟨s, false⟩, true) := hp
  have hskip : (p.skipBlanks shippedLexer.watched).unread = (⟨dropBlanks s, s.isEmpty⟩, true) := by
    simp [Parser.skipBlanks, LexerFns.watched, shippedLexer, hon, parserSkipBlanks_on]
  cases s with
  | nil =>
      have hoff : (p.skipBlanks shippedLexer.watched).At none := by simp [Parser.At, hskip]
      exact hoff.operator op
  | cons c t =>
      have hskipped : (p.skipBlanks shippedLexer.watched).At (some (dropBlanks (c :: t))) := hskip
      have hoperator := hskipped.operator op
      rwa [Option.bind_some, operatorText_dropBlanks] at hoperator

/-- The first command is not there. -/
theorem lineEnds_missing {stop : LineStop} (hp : p.At left) (hadError : Bool)
    (hstop : stop.left = (left.bind operatorsText).bind operatorsText) :
    LineEnds stop (parseCommands shippedLexer.watched none hadError p) := by
  have hoperators := (hp.operator '|').operator '&'
  rw [Option.bind_assoc] at hoperators
  refine ⟨_, _, _, _, _, rfl, ?_⟩
  rw [if_pos rfl, hstop]
  exact parseError_empty rfl hoperators _ _

theorem parseCommands_ends {stop : LineStop} (hstop : ∀ x, stop ≠ .error 0 x) (cmd : Scommand)
    (hloop : LoopStops stop (parsePipeLoop shippedLexer.watched
      (shippedLexer.watched.length (p.operator '|').2.unread + 2) (pipelinePushBack pipelineNew cmd)
      (p.operator '|').1 false hadError (p.operator '|').2)) :
    LineEnds stop (parseCommands shippedLexer.watched (some cmd) hadError p) := by
  obtain ⟨result, another, error, hadError', q, hrun, hq⟩ := hloop
  unfold parseCommands
  simp only [opPipe_watched, opBackground_watched, Option.bind_eq_bind, hrun, Option.bind_some]
  cases stop with
  | eof =>
      have hend : q.At none := hq
      cases error with
      | true =>
          refine ⟨_, _, _, _, _, rfl, ?_⟩
          by_cases hresult : pipelineIsEmpty result
          · exact parseError_empty hresult hend _ _
          · exact parseError_full hresult hend _ _
      | false =>
          obtain ⟨q', hback, hq'⟩ := hend.operator_off '&'
          simp only [hback, Bool.false_eq_true, if_false]
          exact ⟨_, _, _, _, _, rfl, hq'⟩
  | line c y =>
      obtain ⟨rfl, hend, hdrop, hamp⟩ := hq
      obtain ⟨q', hback, hq'⟩ := hend.operator_other hdrop hamp
      simp only [hback, Bool.false_eq_true, if_false]
      exact ⟨_, _, _, _, _, rfl, hq'⟩
  | background after =>
      obtain ⟨rfl, hend, hresult⟩ := hq
      have hdrop : dropBlanks ('&' :: after) = '&' :: after :=
        List.dropWhile_cons_of_neg (by decide)
      obtain ⟨q', hback, hq'⟩ := hend.operator_here hdrop
      have hpipe := hq'.skipBlanks_operator '|'
      simp only [hback, Bool.false_eq_true, if_false, if_true]
      refine ⟨_, _, _, _, _, rfl, ?_⟩
      split_ifs
      · have hfull : ¬ pipelineIsEmpty (pipelineSetWait result (!true)) := by
          simpa [pipelineIsEmpty, pipelineSetWait] using hresult
        exact parseError_full hfull hpipe _ _
      · exact hpipe
  | error n x =>
      obtain ⟨rfl, hend, hempty⟩ := hq
      refine ⟨_, _, _, _, _, rfl, ?_⟩
      rw [if_pos rfl]
      cases n with
      | zero => exact absurd rfl (hstop x)
      | succ m =>
          cases m with
          | zero => exact parseError_empty (hempty.mpr rfl) hend _ _
          | succ m => exact parseError_full (mt hempty.mp (by omega)) hend _ _

theorem parsePipeline_stops {stop : LineStop} (h : StopsAt 0 s stop) :
    ∃ (result : Pipeline) (q : Parser (LexerState × Bool)),
      parsePipeline shippedLexer.watched (parserNew s) =
        some (result, (q.garbage shippedLexer.watched).2) ∧ q.At stop.left := by
  have hp : (parserNew s).At (some s) := Parser.at_on s []
  have command : ∀ {items : List Item} {e : CommandEnd} {left : Option (List Char)},
      CommandText s items e left → ScommandStops e left (items = [])
        (parseScommand shippedLexer.watched s.length false (parserNew s)) := by
    intro items e left h
    have hle := h.length_le
    exact parseScommand_stops h hp (by omega) false
  have hcommands : ∃ cmd hadError q, parseScommand shippedLexer.watched s.length false
      (parserNew s) = some (cmd, hadError, q) ∧
        LineEnds stop (parseCommands shippedLexer.watched cmd hadError q) := by
    cases h with
    | eof h =>
        obtain ⟨cmd, hadError, q, hrun, hq, -, -⟩ := command h
        refine ⟨cmd, hadError, q, hrun, ?_⟩
        cases cmd with
        | none => exact lineEnds_missing hq hadError rfl
        | some cmd =>
            obtain ⟨q', hpipe, hq'⟩ := hq.operator_off '|'
            apply parseCommands_ends (by simp)
            rw [hpipe, parsePipeLoop_stop _ (Nat.succ_pos _) _ _ _ _ rfl]
            exact ⟨_, _, _, _, _, rfl, hq'⟩
    | missing h =>
        obtain ⟨cmd, hadError, q, hrun, hq, hmissing, -⟩ := command h
        obtain rfl := (hmissing rfl).mpr rfl
        exact ⟨_, _, _, hrun, lineEnds_missing hq hadError rfl⟩
    | noFile h =>
        obtain ⟨cmd, hadError, q, hrun, hq, -, hnone⟩ := command h
        obtain rfl := hnone rfl
        exact ⟨_, _, _, hrun, lineEnds_missing hq hadError rfl⟩
    | line h hitems hbar hamp =>
        obtain ⟨cmd, hadError, q, hrun, hq, hmissing, -⟩ := command h
        obtain ⟨cmd, rfl⟩ := Option.ne_none_iff_exists'.mp (mt (hmissing rfl).mp hitems)
        obtain ⟨q', hpipe, hq'⟩ := hq.operator_other h.dropBlanks_left hbar
        refine ⟨_, _, _, hrun, parseCommands_ends (by simp) cmd ?_⟩
        rw [hpipe, parsePipeLoop_stop _ (Nat.succ_pos _) _ _ _ _ rfl]
        exact ⟨_, _, _, _, _, rfl, rfl, hq', h.dropBlanks_left, hamp⟩
    | background h hitems =>
        obtain ⟨cmd, hadError, q, hrun, hq, hmissing, -⟩ := command h
        obtain ⟨cmd, rfl⟩ := Option.ne_none_iff_exists'.mp (mt (hmissing rfl).mp hitems)
        obtain ⟨q', hpipe, hq'⟩ :=
          hq.operator_other h.dropBlanks_left (show '&' ≠ '|' by decide)
        refine ⟨_, _, _, hrun, parseCommands_ends (by simp) cmd ?_⟩
        rw [hpipe, parsePipeLoop_stop _ (Nat.succ_pos _) _ _ _ _ rfl]
        exact ⟨_, _, _, _, _, rfl, rfl, hq', by simp [pipelinePushBack]⟩
    | pipe h hitems hrest =>
        obtain ⟨cmd, hadError, q, hrun, hq, hmissing, -⟩ := command h
        obtain ⟨cmd, rfl⟩ := Option.ne_none_iff_exists'.mp (mt (hmissing rfl).mp hitems)
        obtain ⟨q', hpipe, hq'⟩ := hq.operator_here h.dropBlanks_left
        refine ⟨_, _, _, hrun, parseCommands_ends (fun x hx => ?_) cmd ?_⟩
        · subst hx
          exact absurd hrest.commands_le (by simp)
        · rw [hpipe]
          have hfuel := Nat.add_le_add_right hq'.length_eq.ge 2
          exact parsePipeLoop_stops hrest hq' rfl Nat.one_pos hfuel hadError
  obtain ⟨cmd, hadError, q, hcmd, result, another, error, hadError', q', hrun, hq'⟩ := hcommands
  have heof : (parserNew s).atEof shippedLexer.watched = false := rfl
  have hlength : shippedLexer.watched.length (parserNew s).unread = s.length := rfl
  rw [parsePipeline, heof, if_neg Bool.false_ne_true]
  simp only [hlength, Option.bind_eq_bind, hcmd, Option.bind_some, hrun]
  cases error with
  | true => exact ⟨_, _, rfl, hq'⟩
  | false => exact ⟨_, _, rfl, hq'⟩

end Watched

/-- No call is made at the end of the file if and only if some text is left where the parser
stops, behind the operators that it still looks for there. -/
theorem neverPastEof_iff (input : List Char) :
    NeverPastEof input ↔ ∃ stop, StopsAt 0 input stop ∧ stop.left ≠ none := by
  have hlast : ∀ {stop : LineStop}, StopsAt 0 input stop →
      (NeverPastEof input ↔ stop.left ≠ none) := by
    intro stop hstop
    obtain ⟨result, q, hrun, hq⟩ := parsePipeline_stops hstop
    rw [NeverPastEof, hrun, Option.any_some]
    cases hleft : stop.left with
    | none =>
        rw [hleft] at hq
        have hoff : q.unread.1.off = true := hq
        simp [Parser.garbage, LexerFns.watched, shippedLexer, hoff]
    | some text =>
        rw [hleft] at hq
        have hon : q.unread = (⟨text, false⟩, true) := hq
        simp [Parser.garbage, LexerFns.watched, shippedLexer, hon]
  constructor
  · intro h
    obtain ⟨stop, hstop⟩ := exists_stopsAt 0 input
    exact ⟨stop, hstop, (hlast hstop).mp h⟩
  · rintro ⟨stop, hstop, hleft⟩
    exact (hlast hstop).mpr hleft

example : NeverPastEof ['a', ' ', '&', ' ', '|'] := by decide

theorem neverPastEof_of_newline {input : List Char} (h : '\n' ∈ input) : NeverPastEof input := by
  obtain ⟨stop, hstop⟩ := exists_stopsAt 0 input
  exact (neverPastEof_iff input).mpr ⟨stop, hstop, hstop.left_ne_none h⟩

/-- `ls` without a newline: the parser goes on behind the word, where the lexer is off. -/
theorem word_passes_eof : ¬ NeverPastEof ['l', 's'] := by decide

end SistOp.MyBash
