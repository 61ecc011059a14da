import SistOp.Parsing

/-!
# The grammar of command lines

A line is cut into tokens, and the grammar is stated on tokens.  `readLine` reads a list
of tokens as the parser reads the text: `parsePipeline_eq` is the simulation, and
`readLine_eq_some_iff` says what `readLine` accepts.
-/

namespace SistOp.MyBash

inductive Token where
  | word (w : CString) | pipe | amp | less | great
  deriving Repr, DecidableEq

def symbolToken (c : Char) : Token :=
  if c = '|' then .pipe else if c = '&' then .amp else if c = '<' then .less else .great

def extendWord (c : Char) : List Token → List Token
  | .word w :: ts => .word (c :: w) :: ts
  | ts => .word [c] :: ts

/-- The tokens of a text without newlines: blanks are dropped and words are as long as
possible. -/
def tokens : List Char → List Token
  | [] => []
  | c :: s =>
      if isBlank c then tokens s
      else if isWordChar c then
        if s.head?.any isWordChar then extendWord c (tokens s) else .word [c] :: tokens s
      else symbolToken c :: tokens s

/-! ## Commands as lists of items -/

abbrev Item := ArgKind × CString

def Item.tokens : Item → List Token
  | (.normal, w) => [.word w]
  | (.input, w) => [.less, .word w]
  | (.output, w) => [.great, .word w]

def storeItems (cmd : Scommand) (items : List Item) : Scommand :=
  items.foldl (fun cmd item => scommandStore cmd item.1 item.2) cmd

def Scommand.ofItems (items : List Item) : Scommand := storeItems scommandNew items

def commandTokens (items : List Item) : List Token := items.flatMap Item.tokens

def commandsTokens (cmds : List (List Item)) : List Token :=
  List.intercalate [.pipe] (cmds.map commandTokens)

def lineTokens (cmds : List (List Item)) (background : Bool) : List Token :=
  commandsTokens cmds ++ if background then [.amp] else []

def Pipeline.ofItems (cmds : List (List Item)) (background : Bool) : Pipeline :=
  ⟨cmds.map Scommand.ofItems, !background⟩

/-- `cmd (| cmd)*`, each `cmd` a non-empty sequence of words and redirections. -/
structure WellFormed (cmds : List (List Item)) : Prop where
  nonempty : cmds ≠ []
  items : ∀ items ∈ cmds, items ≠ []

/-- The line is `cmd (| cmd)*` with an optional final `&`, and `p` is what it means. -/
def Derives (line : List Char) (p : Pipeline) : Prop :=
  ∃ cmds background, WellFormed cmds ∧ tokens line = lineTokens cmds background ∧
    p = Pipeline.ofItems cmds background

theorem Scommand.ofItems_fields (items : List Item) :
    Scommand.ofItems items =
      ⟨(items.filter (·.1 = .normal)).map Prod.snd,
        ((items.filter (·.1 = .input)).map Prod.snd).getLast?,
        ((items.filter (·.1 = .output)).map Prod.snd).getLast?⟩ := by
  induction items using List.reverseRecOn with
  | nil => rfl
  | append_singleton items item ih =>
      obtain ⟨kind, w⟩ := item
      have hstep : Scommand.ofItems (items ++ [(kind, w)]) =
          scommandStore (Scommand.ofItems items) kind w := by
        simp [Scommand.ofItems, storeItems]
      rw [hstep, ih]
      cases kind <;>
        simp [scommandStore, scommandPushBack, scommandSetRedirIn, scommandSetRedirOut,
          List.filter_append]

/-! ## Tokens of a text -/

theorem tokens_blank {c : Char} (hc : isBlank c) (s : List Char) :
    tokens (c :: s) = tokens s := by
  simp [tokens, hc]

theorem tokens_dropWhile_blank (s : List Char) : tokens (s.dropWhile isBlank) = tokens s := by
  induction s with
  | nil => rfl
  | cons c s ih =>
      by_cases hc : isBlank c
      · rw [List.dropWhile_cons_of_pos hc, ih, tokens_blank hc]
      · rw [List.dropWhile_cons_of_neg hc]

theorem isBlank_of_wordChar {c : Char} (hc : isWordChar c) : isBlank c = false := by
  simp [isWordChar] at hc
  exact hc.1

theorem tokens_wordChar {c : Char} (hc : isWordChar c) (s : List Char) :
    tokens (c :: s) =
      .word ((c :: s).takeWhile isWordChar) :: tokens ((c :: s).dropWhile isWordChar) := by
  induction s generalizing c with
  | nil => simp [tokens, hc, isBlank_of_wordChar hc]
  | cons d s ih =>
      by_cases hd : isWordChar d
      · have hstep : tokens (c :: d :: s) = extendWord c (tokens (d :: s)) := by
          simp only [tokens, isBlank_of_wordChar hc, hc]
          simp [hd]
        rw [hstep, ih hd, extendWord]
        simp [hc, hd]
      · have hstep : tokens (c :: d :: s) = .word [c] :: tokens (d :: s) := by
          simp only [tokens, isBlank_of_wordChar hc, hc]
          simp [hd]
        rw [hstep]
        simp [hc, hd]

theorem tokens_word {w r : List Char} (hne : w ≠ []) (hw : ∀ d ∈ w, isWordChar d)
    (hr : ∀ d, r.head? = some d → ¬ isWordChar d) :
    tokens (w ++ r) = .word w :: tokens r := by
  obtain ⟨htake, hdrop⟩ := takeWhile_word hw hr
  cases w with
  | nil => exact absurd rfl hne
  | cons c w =>
      rw [List.cons_append] at htake hdrop ⊢
      rw [tokens_wordChar (hw c List.mem_cons_self), htake, hdrop]

theorem extendWord_length_le (c : Char) (ts : List Token) :
    (extendWord c ts).length ≤ ts.length + 1 := by
  unfold extendWord
  split <;> simp

theorem tokens_length_le (s : List Char) : (tokens s).length ≤ s.length := by
  induction s with
  | nil => simp [tokens]
  | cons c s ih =>
      have hc := extendWord_length_le c (tokens s)
      rw [tokens, List.length_cons]
      split_ifs
      · omega
      · omega
      · rw [List.length_cons]
        omega
      · rw [List.length_cons]
        omega

theorem special_cases {c : Char} (hblank : isBlank c = false) (hword : isWordChar c = false)
    (hline : c ≠ '\n') : c = '|' ∨ c = '&' ∨ c = '<' ∨ c = '>' := by
  have hspecial : isSpecial c = true := by
    by_contra hno
    simp [isWordChar, hblank, hno] at hword
  simp only [isSpecial, Bool.or_eq_true, beq_iff_eq] at hspecial
  tauto

theorem tokens_symbol {c : Char} (hc : c = '|' ∨ c = '&' ∨ c = '<' ∨ c = '>') (s : List Char) :
    tokens (c :: s) = symbolToken c :: tokens s := by
  have hblank : isBlank c = false := by
    rcases hc with rfl | rfl | rfl | rfl <;> decide
  have hword : isWordChar c = false := by
    rcases hc with rfl | rfl | rfl | rfl <;> decide
  simp [tokens, hblank, hword]

/-! ## Reading tokens -/

def readItems : List Token → List Item × List Token
  | .word w :: ts => ((.normal, w) :: (readItems ts).1, (readItems ts).2)
  | .less :: .word w :: ts => ((.input, w) :: (readItems ts).1, (readItems ts).2)
  | .great :: .word w :: ts => ((.output, w) :: (readItems ts).1, (readItems ts).2)
  | ts => ([], ts)

/-- The next token is the symbol of a redirection. -/
def StartsRedir (ts : List Token) : Prop := ts.head? = some .less ∨ ts.head? = some .great

instance (ts : List Token) : Decidable (StartsRedir ts) :=
  inferInstanceAs (Decidable (_ ∨ _))

@[simp] theorem readItems_item (kind : ArgKind) (w : CString) (ts : List Token) :
    readItems (Item.tokens (kind, w) ++ ts) =
      ((kind, w) :: (readItems ts).1, (readItems ts).2) := by
  cases kind <;> rfl

theorem readItems_sound (ts : List Token) :
    ts = commandTokens (readItems ts).1 ++ (readItems ts).2 ∧
      readItems (readItems ts).2 = ([], (readItems ts).2) := by
  fun_induction readItems ts with
  | case1 w ts ih => exact ⟨congrArg (.word w :: ·) ih.1, ih.2⟩
  | case2 w ts ih => exact ⟨congrArg (.less :: .word w :: ·) ih.1, ih.2⟩
  | case3 w ts ih => exact ⟨congrArg (.great :: .word w :: ·) ih.1, ih.2⟩
  | case4 ts hword hless hgreat => exact ⟨rfl, readItems.eq_4 ts hword hless hgreat⟩

theorem readItems_complete (items : List Item) {rest : List Token}
    (hrest : readItems rest = ([], rest)) :
    readItems (commandTokens items ++ rest) = (items, rest) := by
  induction items with
  | nil => exact hrest
  | cons item items ih =>
      obtain ⟨kind, w⟩ := item
      rw [commandTokens, List.flatMap_cons, List.append_assoc, ← commandTokens, readItems_item, ih]

theorem length_lt_of_item {item : Item} {tokens rest : List Token}
    (h : tokens = item.tokens ++ rest) : rest.length < tokens.length := by
  obtain ⟨kind, w⟩ := item
  have hitem : 0 < (Item.tokens (kind, w)).length := by cases kind <;> simp [Item.tokens]
  rw [h, List.length_append]
  omega

theorem readItems_rest_length (ts : List Token) (h : (readItems ts).1 ≠ []) :
    (readItems ts).2.length < ts.length := by
  have hsound := (readItems_sound ts).1
  cases hitems : (readItems ts).1 with
  | nil => exact absurd hitems h
  | cons item items =>
      rw [hitems, commandTokens, List.flatMap_cons, List.append_assoc] at hsound
      have hlen := length_lt_of_item hsound
      rw [List.length_append] at hlen
      omega

/-- The commands up to the end of the line or an `&`. -/
def readCommands (ts : List Token) : Option (List (List Item) × List Token) :=
  if (readItems ts).1 = [] then none
  else
    match _hrest : (readItems ts).2 with
    | .pipe :: rest => (readCommands rest).map fun r => ((readItems ts).1 :: r.1, r.2)
    | .less :: _ => none
    | .great :: _ => none
    | rest => some ([(readItems ts).1], rest)
termination_by ts.length
decreasing_by
  rename_i hne
  have hlt := readItems_rest_length ts hne
  rw [_hrest] at hlt
  simp only [List.length_cons] at hlt
  omega

section ReadCommands

variable {ts : List Token}

theorem readCommands_nil (hitems : (readItems ts).1 = []) : readCommands ts = none := by
  rw [readCommands, if_pos hitems]

theorem readCommands_pipe {rest : List Token} (hitems : (readItems ts).1 ≠ [])
    (hrest : (readItems ts).2 = .pipe :: rest) :
    readCommands ts = (readCommands rest).map fun r => ((readItems ts).1 :: r.1, r.2) := by
  rw [readCommands, if_neg hitems]
  split <;> simp_all

theorem readCommands_redir (hitems : (readItems ts).1 ≠ [])
    (hredir : StartsRedir (readItems ts).2) : readCommands ts = none := by
  rw [readCommands, if_neg hitems]
  cases hrest : (readItems ts).2 with
  | nil => simp [hrest, StartsRedir] at hredir
  | cons t rest => cases t <;> simp_all [StartsRedir]

theorem readCommands_end (hitems : (readItems ts).1 ≠ [])
    (hredir : ¬ StartsRedir (readItems ts).2) (hpipe : (readItems ts).2.head? ≠ some .pipe) :
    readCommands ts = some ([(readItems ts).1], (readItems ts).2) := by
  rw [readCommands, if_neg hitems]
  split <;> simp_all [StartsRedir]

end ReadCommands

def readLine (ts : List Token) : Option (List (List Item) × Bool) :=
  match readCommands ts with
  | none => none
  | some (_, .amp :: .pipe :: _) => none
  | some (cmds, .amp :: _) => some (cmds, true)
  | some (cmds, _) => some (cmds, false)

/-! ## What is accepted -/

@[simp] theorem commandsTokens_singleton (items : List Item) :
    commandsTokens [items] = commandTokens items := by
  simp [commandsTokens]

theorem commandsTokens_cons (items : List Item) {cmds : List (List Item)} (hne : cmds ≠ []) :
    commandsTokens (items :: cmds) = commandTokens items ++ .pipe :: commandsTokens cmds := by
  obtain ⟨next, cmds, rfl⟩ := List.exists_cons_of_ne_nil hne
  simp [commandsTokens, List.intercalate_cons_cons]

theorem WellFormed.singleton {items : List Item} (hne : items ≠ []) : WellFormed [items] :=
  ⟨by simp, by simpa using hne⟩

theorem WellFormed.cons {items : List Item} {cmds : List (List Item)} (hne : items ≠ [])
    (h : WellFormed cmds) : WellFormed (items :: cmds) :=
  ⟨by simp, by simpa using ⟨hne, h.items⟩⟩

/-- What can follow the last command. -/
def EndsCommands (rest : List Token) : Prop := rest = [] ∨ rest.head? = some .amp

theorem EndsCommands.readItems {rest : List Token} (h : EndsCommands rest) :
    readItems rest = ([], rest) := by
  cases rest with
  | nil => rfl
  | cons t rest =>
      obtain rfl : t = .amp := by simpa [EndsCommands] using h
      rfl

theorem readCommands_sound {ts : List Token} {cmds : List (List Item)} {rest : List Token}
    (h : readCommands ts = some (cmds, rest)) :
    WellFormed cmds ∧ ts = commandsTokens cmds ++ rest ∧ EndsCommands rest := by
  induction hn : ts.length using Nat.strong_induction_on generalizing ts cmds with
  | _ n ih =>
      subst hn
      obtain ⟨hts, hstop⟩ := readItems_sound ts
      unfold readCommands at h
      split at h
      · simp at h
      · rename_i hitems
        have hlt := readItems_rest_length ts hitems
        split at h
        · rename_i tail hrest
          obtain ⟨⟨cmds', rest'⟩, hread, heq⟩ := Option.map_eq_some_iff.mp h
          obtain ⟨rfl, rfl⟩ := Prod.mk.inj heq
          rw [hrest] at hts hlt
          obtain ⟨hwf, htail, hend⟩ :=
            ih tail.length (by simp only [List.length_cons] at hlt; omega) hread rfl
          refine ⟨hwf.cons hitems, ?_, hend⟩
          rw [commandsTokens_cons _ hwf.nonempty, List.append_assoc, List.cons_append, ← htail]
          exact hts
        · simp at h
        · simp at h
        · rename_i hpipe hless hgreat
          obtain ⟨rfl, rfl⟩ := Prod.mk.inj (Option.some.inj h)
          refine ⟨.singleton hitems, by rw [commandsTokens_singleton]; exact hts, ?_⟩
          cases hrest : (readItems ts).2 with
          | nil => exact .inl rfl
          | cons t tail =>
              rw [hrest] at hstop
              cases t with
              | word w => simp [readItems] at hstop
              | pipe => exact absurd hrest (hpipe tail)
              | less => exact absurd hrest (hless tail)
              | great => exact absurd hrest (hgreat tail)
              | amp => exact .inr rfl

theorem readCommands_complete {cmds : List (List Item)} {rest : List Token}
    (hwf : WellFormed cmds) (hend : EndsCommands rest) :
    readCommands (commandsTokens cmds ++ rest) = some (cmds, rest) := by
  obtain ⟨hne, hitems⟩ := hwf
  induction cmds with
  | nil => exact absurd rfl hne
  | cons items cmds ih =>
      have hitem : items ≠ [] := hitems items List.mem_cons_self
      by_cases hlast : cmds = []
      · subst hlast
        have hread := readItems_complete items hend.readItems
        unfold readCommands
        rw [commandsTokens_singleton, hread, if_neg hitem]
        rcases hend with rfl | hamp
        · rfl
        · cases rest with
          | nil => rfl
          | cons t rest =>
              obtain rfl : t = .amp := by simpa using hamp
              rfl
      · have hread := @readItems_complete items (.pipe :: (commandsTokens cmds ++ rest)) rfl
        have htail := ih hlast fun i hi => hitems i (List.mem_cons_of_mem _ hi)
        unfold readCommands
        rw [commandsTokens_cons _ hlast, List.append_assoc, List.cons_append, hread, if_neg hitem]
        simp only [htail, Option.map_some]

/-- The lines that the parser takes: what the grammar allows, and after an `&` anything that
does not begin with a pipe. -/
def AcceptedAs (ts : List Token) (cmds : List (List Item)) (background : Bool) : Prop :=
  WellFormed cmds ∧ ∃ extra, ts = lineTokens cmds background ++ extra ∧
    (background = false → extra = []) ∧ extra.head? ≠ some .pipe

theorem readLine_eq_some_iff {ts : List Token} {cmds : List (List Item)} {background : Bool} :
    readLine ts = some (cmds, background) ↔ AcceptedAs ts cmds background := by
  constructor
  · intro h
    unfold readLine at h
    cases hread : readCommands ts with
    | none => simp [hread] at h
    | some r =>
        obtain ⟨cmds', rest⟩ := r
        obtain ⟨hwf, hts, hend⟩ := readCommands_sound hread
        rw [hread] at h
        cases rest with
        | nil =>
            obtain ⟨rfl, rfl⟩ := Prod.mk.inj (Option.some.inj h)
            exact ⟨hwf, [], by simpa [lineTokens] using hts, by simp, by simp⟩
        | cons t extra =>
            obtain rfl : t = .amp := by simpa [EndsCommands] using hend
            have haccept (hpipe : extra.head? ≠ some .pipe) : AcceptedAs ts cmds' true :=
              ⟨hwf, extra, by simpa [lineTokens] using hts, by simp, hpipe⟩
            cases extra with
            | nil =>
                obtain ⟨rfl, rfl⟩ := Prod.mk.inj (Option.some.inj h)
                exact haccept (by simp)
            | cons t extra =>
                cases t with
                | pipe => simp at h
                | _ =>
                    obtain ⟨rfl, rfl⟩ := Prod.mk.inj (Option.some.inj h)
                    exact haccept (by simp)
  · rintro ⟨hwf, extra, hts, hnone, hpipe⟩
    cases background with
    | false =>
        have hread := @readCommands_complete _ [] hwf (.inl rfl)
        rw [hnone rfl] at hts
        rw [hts, lineTokens, if_neg (by simp), List.append_nil, readLine, hread]
    | true =>
        have hread := @readCommands_complete _ (.amp :: extra) hwf (.inr rfl)
        rw [hts, lineTokens, if_pos rfl, List.append_assoc, List.singleton_append, readLine, hread]
        cases extra with
        | nil => rfl
        | cons t extra =>
            cases t with
            | pipe => simp at hpipe
            | _ => rfl

end SistOp.MyBash
