import SistOp.LineParsing

/-!
# Which lines the parser accepts

The parser takes every line of the grammar for what it means.  It also takes a line whose
text goes on after the `&`, unless that text begins with a pipe.
-/

namespace SistOp.MyBash

/-- The pipeline of a line: non-empty exactly for the lines of the grammar, and then the one
derived. -/
def ParsesByGrammar (lex : Lexer) (line rest : List Char) : Prop :=
  ∃ p state, parsePipeline lex ⟨line ++ '\n' :: rest, []⟩ = some (p, state) ∧
    (p.scmd ≠ [] ↔ ∃ q, Derives line q) ∧ (∀ q, Derives line q → p = q) ∧
    (p.scmd = [] → p = pipelineNew)

/-- The line goes on after the `&` of a pipeline, with something that is not a pipe. -/
def TextAfterBackground (line : List Char) : Prop :=
  ∃ cmds t ts, WellFormed cmds ∧ tokens line = lineTokens cmds true ++ t :: ts ∧ t ≠ .pipe

theorem Pipeline.ofItems_ne_nil {cmds : List (List Item)} (h : WellFormed cmds)
    (background : Bool) : (Pipeline.ofItems cmds background).scmd ≠ [] := by
  simpa [Pipeline.ofItems] using h.nonempty

theorem linePipeline_of_accepted {ts : List Token} {cmds : List (List Item)} {background : Bool}
    (h : AcceptedAs ts cmds background) : linePipeline ts = Pipeline.ofItems cmds background := by
  rw [linePipeline, readLine_eq_some_iff.mpr h]

theorem acceptedAs_of_ne_nil {ts : List Token} (h : (linePipeline ts).scmd ≠ []) :
    ∃ cmds background, AcceptedAs ts cmds background := by
  unfold linePipeline at h
  cases hread : readLine ts with
  | none => simp [hread, pipelineNew] at h
  | some r => exact ⟨r.1, r.2, readLine_eq_some_iff.mp hread⟩

theorem AcceptedAs.unique {ts : List Token} {cmds cmds' : List (List Item)}
    {background background' : Bool} (h : AcceptedAs ts cmds background)
    (h' : AcceptedAs ts cmds' background') : cmds = cmds' ∧ background = background' := by
  have hread := (readLine_eq_some_iff.mpr h).symm.trans (readLine_eq_some_iff.mpr h')
  exact Prod.mk.inj (Option.some.inj hread)

theorem acceptedAs_of_derivation {ts : List Token} {cmds : List (List Item)} {background : Bool}
    (hwf : WellFormed cmds) (hts : ts = lineTokens cmds background) :
    AcceptedAs ts cmds background :=
  ⟨hwf, [], by simpa using hts, fun _ => rfl, by simp⟩

theorem linePipeline_of_derives {line : List Char} {q : Pipeline} (h : Derives line q) :
    linePipeline (tokens line) = q := by
  obtain ⟨cmds, background, hwf, hts, rfl⟩ := h
  exact linePipeline_of_accepted (acceptedAs_of_derivation hwf hts)

theorem linePipeline_eq_new {ts : List Token} (h : (linePipeline ts).scmd = []) :
    linePipeline ts = pipelineNew := by
  unfold linePipeline at h ⊢
  cases hread : readLine ts with
  | none => rfl
  | some r =>
      rw [hread] at h
      exact absurd h (Pipeline.ofItems_ne_nil (readLine_eq_some_iff.mp hread).1 _)

theorem TextAfterBackground.acceptedAs {line : List Char} (h : TextAfterBackground line) :
    ∃ cmds, AcceptedAs (tokens line) cmds true := by
  obtain ⟨cmds, t, ts, hwf, hts, ht⟩ := h
  exact ⟨cmds, hwf, t :: ts, hts, by simp, by simpa using ht⟩

theorem TextAfterBackground.not_derives {line : List Char} (h : TextAfterBackground line)
    (q : Pipeline) : ¬ Derives line q := by
  rintro ⟨cmds', background', hwf', hts', -⟩
  obtain ⟨cmds, t, ts, hwf, hts, ht⟩ := h
  have haccept : AcceptedAs (tokens line) cmds true :=
    ⟨hwf, t :: ts, hts, by simp, by simpa using ht⟩
  obtain ⟨rfl, rfl⟩ := haccept.unique (acceptedAs_of_derivation hwf' hts')
  rw [hts'] at hts
  have hlen := congrArg List.length hts
  rw [List.length_append, List.length_cons] at hlen
  omega

/-- The parser keeps to the grammar on a line if and only if the line does not go on after
its `&`. -/
theorem parsesByGrammar_iff (lex : Lexer) (line rest : List Char) (hline : '\n' ∉ line) :
    ParsesByGrammar lex line rest ↔ ¬ TextAfterBackground line := by
  obtain ⟨out, hparse⟩ := parsePipeline_line lex rest [] hline
  constructor
  · rintro ⟨p, state, hp, hiff, -, -⟩ htext
    obtain ⟨rfl, -⟩ := Prod.mk.inj (Option.some.inj (hparse.symm.trans hp))
    obtain ⟨cmds, haccept⟩ := htext.acceptedAs
    have hne : (linePipeline (tokens line)).scmd ≠ [] := by
      rw [linePipeline_of_accepted haccept]
      exact Pipeline.ofItems_ne_nil haccept.1 _
    obtain ⟨q, hq⟩ := hiff.mp hne
    exact htext.not_derives q hq
  · intro htext
    refine ⟨_, _, hparse, ⟨fun hne => ?_, ?_⟩, fun q hq => linePipeline_of_derives hq,
      linePipeline_eq_new⟩
    · obtain ⟨cmds, background, hwf, extra, hts, hfalse, hpipe⟩ := acceptedAs_of_ne_nil hne
      cases extra with
      | nil => exact ⟨_, cmds, background, hwf, by simpa using hts, rfl⟩
      | cons t ts =>
          cases background with
          | false => exact absurd (hfalse rfl) (by simp)
          | true => exact absurd ⟨cmds, t, ts, hwf, hts, by simpa using hpipe⟩ htext
    · rintro ⟨q, hq⟩
      rw [linePipeline_of_derives hq]
      obtain ⟨cmds, background, hwf, -, rfl⟩ := hq
      exact Pipeline.ofItems_ne_nil hwf _

theorem parsesByGrammar_background : ParsesByGrammar describedLexer ['a', ' ', '&'] [] :=
  (parsesByGrammar_iff describedLexer ['a', ' ', '&'] [] (by decide)).mpr fun htext =>
    htext.not_derives _ ⟨[[(.normal, ['a'])]], true, ⟨by simp, by simp⟩, by decide, rfl⟩

/-- `a & b`: the pipeline of `a` is returned, and no pipeline is derived. -/
theorem text_after_background_accepted :
    ¬ ParsesByGrammar describedLexer ['a', ' ', '&', ' ', 'b'] [] := by
  rintro ⟨p, state, hp, hiff, -, -⟩
  have htext : TextAfterBackground ['a', ' ', '&', ' ', 'b'] :=
    ⟨[[(.normal, ['a'])]], .word ['b'], [], ⟨by simp, by simp⟩, by decide, by simp⟩
  have hrun : parsePipeline describedLexer ⟨['a', ' ', '&', ' ', 'b'] ++ '\n' :: [], []⟩ =
      some (⟨[⟨[['a']], none, none⟩], false⟩, ⟨[], []⟩) := by decide
  obtain ⟨rfl, -⟩ := Prod.mk.inj (Option.some.inj (hrun.symm.trans hp))
  obtain ⟨q, hq⟩ := hiff.mp (by simp)
  exact htext.not_derives q hq

end SistOp.MyBash
