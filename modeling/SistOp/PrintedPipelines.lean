import SistOp.LineMeaning

/-!
# Printing a pipeline and parsing it back

The printed text has the tokens of the pipeline's items in the grammar's order, so the
parser reads the same pipeline again.
-/

namespace SistOp.MyBash

/-- A non-empty word without blanks or special characters. -/
def IsWord (w : CString) : Prop := w ≠ [] ∧ ∀ c ∈ w, isWordChar c

structure Scommand.Printable (cmd : Scommand) : Prop where
  nonempty : cmd.args ≠ []
  args : ∀ w ∈ cmd.args, IsWord w
  redirIn : ∀ w, cmd.redirIn = some w → IsWord w
  redirOut : ∀ w, cmd.redirOut = some w → IsWord w

structure Pipeline.Printable (p : Pipeline) : Prop where
  nonempty : p.scmd ≠ []
  scmd : ∀ cmd ∈ p.scmd, cmd.Printable

/-! ## The items of a command -/

def Scommand.items (cmd : Scommand) : List Item :=
  cmd.args.map (ArgKind.normal, ·) ++ cmd.redirIn.toList.map (ArgKind.input, ·) ++
    cmd.redirOut.toList.map (ArgKind.output, ·)

theorem Scommand.ofItems_items (cmd : Scommand) : Scommand.ofItems cmd.items = cmd := by
  obtain ⟨args, redirIn, redirOut⟩ := cmd
  rw [Scommand.ofItems_fields]
  cases redirIn <;> cases redirOut <;> simp [Scommand.items, List.filter_map, Function.comp_def]

theorem Scommand.Printable.items_ne_nil {cmd : Scommand} (h : cmd.Printable) :
    cmd.items ≠ [] := by
  simp [Scommand.items, h.nonempty]

theorem Pipeline.Printable.wellFormed {p : Pipeline} (h : p.Printable) :
    WellFormed (p.scmd.map Scommand.items) := by
  refine ⟨by simpa using h.nonempty, ?_⟩
  intro items hitems
  obtain ⟨cmd, hcmd, rfl⟩ := List.mem_map.mp hitems
  exact (h.scmd cmd hcmd).items_ne_nil

/-! ## The tokens of the printed text -/

/-- A character that no word contains separates the tokens. -/
theorem tokens_append_cons {c : Char} (hc : ¬ isWordChar c) (a s : List Char) :
    tokens (a ++ c :: s) = tokens a ++ tokens (c :: s) := by
  induction a with
  | nil => rfl
  | cons d a ih =>
      have hhead : (a ++ c :: s).head?.any isWordChar = a.head?.any isWordChar := by
        cases a with
        | nil => simpa using hc
        | cons e a => rfl
      rw [List.cons_append, tokens, tokens, ih, hhead]
      split_ifs with hblank hword hnext
      · rfl
      · obtain ⟨e, a, rfl⟩ : ∃ e a', a = e :: a' := by
          cases a with
          | nil => simp at hnext
          | cons e a => exact ⟨e, a, rfl⟩
        rw [tokens_wordChar (by simpa using hnext)]
        rfl
      · rfl
      · rfl

theorem IsWord.tokens {w : CString} (h : IsWord w) : tokens w = [.word w] := by
  have hw := tokens_word h.1 h.2 (r := []) (by simp)
  rwa [List.append_nil] at hw

theorem tokens_args {args : List CString} (hargs : ∀ w ∈ args, IsWord w) :
    tokens (List.intercalate [' '] args) = args.map .word := by
  induction args with
  | nil => rfl
  | cons arg args ih =>
      have harg := (hargs arg List.mem_cons_self).tokens
      have hrest := ih fun w hw => hargs w (List.mem_cons_of_mem _ hw)
      cases args with
      | nil => simpa using harg
      | cons next args =>
          rw [List.intercalate_cons_cons, List.append_assoc, List.singleton_append,
            tokens_append_cons (by decide), tokens_blank (by decide), harg, hrest]
          rfl

theorem tokens_redir {sym : Char} (hsym : sym = '<' ∨ sym = '>') (str : List Char) {file : CString}
    (hfile : IsWord file) :
    tokens (str ++ [' ', sym, ' '] ++ file) = tokens str ++ [symbolToken sym, .word file] := by
  rw [List.append_assoc, List.cons_append, tokens_append_cons (by decide),
    tokens_blank (by decide), List.cons_append, tokens_symbol (by tauto), List.singleton_append,
    tokens_blank (by decide), hfile.tokens]

theorem commandTokens_items (cmd : Scommand) :
    commandTokens cmd.items = cmd.args.map .word ++
      cmd.redirIn.toList.flatMap (fun file => [.less, .word file]) ++
      cmd.redirOut.toList.flatMap (fun file => [.great, .word file]) := by
  have hargs (args : List CString) :
      args.flatMap (fun w => Item.tokens (.normal, w)) = args.map .word := by
    induction args with
    | nil => rfl
    | cons arg args ih => rw [List.flatMap_cons, ih]; rfl
  simp only [commandTokens, Scommand.items, List.flatMap_append, List.flatMap_map, hargs]
  rfl

@[simp] theorem symbolToken_less : symbolToken '<' = .less := rfl

@[simp] theorem symbolToken_great : symbolToken '>' = .great := rfl

theorem Scommand.Printable.tokens {cmd : Scommand} (h : cmd.Printable) :
    tokens (scommandToString cmd) = commandTokens cmd.items := by
  obtain ⟨args, redirIn, redirOut⟩ := cmd
  obtain ⟨-, hargs, hin, hout⟩ := h
  have htokens := tokens_args hargs
  rw [commandTokens_items, ← htokens]
  unfold scommandToString
  rw [argsToString_eq, List.nil_append]
  cases redirIn with
  | none =>
      cases redirOut with
      | none => simp
      | some file =>
          have hfile := tokens_redir (.inr rfl) (List.intercalate [' '] args) (hout file rfl)
          simpa using hfile
  | some file =>
      have hfile := tokens_redir (.inl rfl) (List.intercalate [' '] args) (hin file rfl)
      cases redirOut with
      | none => simpa using hfile
      | some out =>
          have hout' := tokens_redir (.inr rfl)
            (List.intercalate [' '] args ++ [' ', '<', ' '] ++ file) (hout out rfl)
          rw [hfile] at hout'
          simpa using hout'

theorem tokens_commands {cmds : List Scommand} (hcmds : ∀ cmd ∈ cmds, cmd.Printable) :
    tokens (List.intercalate [' ', '|', ' '] (cmds.map scommandToString)) =
      commandsTokens (cmds.map Scommand.items) := by
  induction cmds with
  | nil => rfl
  | cons cmd cmds ih =>
      have hcmd := (hcmds cmd List.mem_cons_self).tokens
      have hrest := ih fun c hc => hcmds c (List.mem_cons_of_mem _ hc)
      cases cmds with
      | nil => simpa using hcmd
      | cons next cmds =>
          rw [List.map_cons (f := Scommand.items), commandsTokens_cons _ (by simp), ← hrest]
          simp only [List.map_cons, List.intercalate_cons_cons]
          rw [List.append_assoc, List.cons_append, tokens_append_cons (by decide),
            tokens_blank (by decide), List.cons_append, tokens_symbol (by simp),
            List.singleton_append, tokens_blank (by decide), hcmd]
          rfl

theorem Pipeline.Printable.tokens {p : Pipeline} (h : p.Printable) :
    tokens (pipelineToString p) = lineTokens (p.scmd.map Scommand.items) (!p.wait) := by
  obtain ⟨scmd, wait⟩ := p
  obtain ⟨cmd, cmds, rfl⟩ := List.exists_cons_of_ne_nil h.nonempty
  have htokens := tokens_commands h.scmd
  simp only [pipelineToString, pipelineGetWait, lineTokens, scmdsToString_eq, List.nil_append]
  cases wait with
  | true => simpa using htokens
  | false =>
      rw [Bool.not_false, if_neg (by simp), if_pos rfl, tokens_append_cons (by decide),
        tokens_blank (by decide), htokens]
      rfl

/-! ## The printed text is one line -/

theorem not_mem_intercalate {sep : List Char} {ls : List (List Char)} {c : Char} (hsep : c ∉ sep)
    (hls : ∀ l ∈ ls, c ∉ l) : c ∉ List.intercalate sep ls := by
  induction ls with
  | nil => simp
  | cons l ls ih =>
      have hl := hls l List.mem_cons_self
      have hrest := ih fun m hm => hls m (List.mem_cons_of_mem _ hm)
      cases ls with
      | nil => simpa using hl
      | cons m ls =>
          rw [List.intercalate_cons_cons]
          simp only [List.mem_append, not_or]
          exact ⟨⟨hl, hsep⟩, hrest⟩

theorem IsWord.newline_not_mem {w : CString} (h : IsWord w) : '\n' ∉ w :=
  fun hmem => absurd (h.2 _ hmem) (by decide)

theorem Scommand.Printable.newline_not_mem {cmd : Scommand} (h : cmd.Printable) :
    '\n' ∉ scommandToString cmd := by
  obtain ⟨args, redirIn, redirOut⟩ := cmd
  obtain ⟨-, hargs, hin, hout⟩ := h
  have hstr : '\n' ∉ List.intercalate [' '] args :=
    not_mem_intercalate (by decide) fun w hw => (hargs w hw).newline_not_mem
  have hfile (w : CString) (hw : redirIn = some w) := (hin w hw).newline_not_mem
  have hfile' (w : CString) (hw : redirOut = some w) := (hout w hw).newline_not_mem
  unfold scommandToString
  rw [argsToString_eq, List.nil_append]
  cases redirIn <;> cases redirOut <;> simp_all

theorem Pipeline.Printable.newline_not_mem {p : Pipeline} (h : p.Printable) :
    '\n' ∉ pipelineToString p := by
  obtain ⟨scmd, wait⟩ := p
  obtain ⟨cmd, cmds, rfl⟩ := List.exists_cons_of_ne_nil h.nonempty
  have hstr : '\n' ∉ scmdsToString [] (cmd :: cmds) := by
    rw [scmdsToString_eq, List.nil_append]
    refine not_mem_intercalate (by decide) fun l hl => ?_
    obtain ⟨c, hc, rfl⟩ := List.mem_map.mp hl
    exact (h.scmd c hc).newline_not_mem
  simp only [pipelineToString, pipelineGetWait]
  cases wait with
  | true => exact hstr
  | false => simpa using hstr

/-- Parsing the printed pipeline gives it back and reads no further than the newline. -/
theorem parsePipeline_pipelineToString (lex : Lexer) (p : Pipeline) (rest : List Char)
    (out : List String) (hp : p.Printable) :
    ∃ out', parsePipeline lex ⟨pipelineToString p ++ '\n' :: rest, out⟩ =
      some (p, ⟨rest, out'⟩) := by
  obtain ⟨out', hparse⟩ := parsePipeline_line lex rest out hp.newline_not_mem
  have hderives : Derives (pipelineToString p) p := by
    refine ⟨p.scmd.map Scommand.items, !p.wait, hp.wellFormed, hp.tokens, ?_⟩
    have hcmds : (p.scmd.map Scommand.items).map Scommand.ofItems = p.scmd := by
      rw [List.map_map]
      exact (List.map_congr_left fun cmd _ => cmd.ofItems_items).trans (List.map_id _)
    rw [Pipeline.ofItems, hcmds, Bool.not_not]
  exact ⟨out', by rw [hparse, linePipeline_of_derives hderives]⟩

/-- `a b < i | c > o &` -/
def printedExample : Pipeline :=
  ⟨[⟨[['a'], ['b']], some ['i'], none⟩, ⟨[['c']], none, some ['o']⟩], false⟩

theorem parsePipeline_printedExample :
    ∃ out', parsePipeline describedLexer ⟨pipelineToString printedExample ++ '\n' :: [], []⟩ =
      some (printedExample, ⟨[], out'⟩) := by
  have hword (c : Char) (hc : isWordChar c = true) : IsWord [c] := ⟨by simp, by simpa using hc⟩
  refine parsePipeline_pipelineToString describedLexer printedExample [] [] ⟨by decide, ?_⟩
  intro cmd hcmd
  simp only [printedExample, List.mem_cons, List.not_mem_nil, or_false] at hcmd
  rcases hcmd with rfl | rfl
  · exact ⟨by simp, by simpa using ⟨hword 'a' (by decide), hword 'b' (by decide)⟩,
      by simpa using hword 'i' (by decide), by simp⟩
  · exact ⟨by simp, by simpa using hword 'c' (by decide), by simp,
      by simpa using hword 'o' (by decide)⟩

end SistOp.MyBash
