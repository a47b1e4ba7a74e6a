import SheetLint.Proofs.Fixing.Constructs
import SheetLint.Proofs.Fixing.Words
import SheetLint.Proofs.Rule.Selectors

/-!
# Rules about whitespace, alone

The rules about spaces in selectors and about the lines of rule sets do nothing but put other
whitespace between words. A round of theirs keeps the words if it swallows no whitespace, and lets
them grow if it does; and what has grown does not shrink in a later round. In a text in which no
brace or comma stands behind a line comment or a lone backslash nothing is swallowed, and since a
round keeps the words there, the next text is of that kind as well.

Results:
* `Analyzer.words_fix_of_onlyRespaces`: when fixing with such rules keeps the words.
* `Analyzer.constructs_fix_of_onlyRespaces`: it then loses no rule set, declaration or at-rule.
* `Analyzer.words_fix_selectors_iff`, `Analyzer.words_fix_lines_iff`: the same of the two rules.
* `selectors_put_brace_in_comment`, `lines_put_brace_in_comment`: a brace that ends up in the comment
  in front of it.
-/

namespace SheetLint

open Tokens

/-! ## Rounds of whitespace -/

/-- Whether an edit of a round is swallowed by what stands in front of it. -/
def Fixing.Round.SwallowsSpace (text : Text) (r : Round) : Prop :=
  ∃ f ∈ r.fixes, ∃ e ∈ f.edits, e.IsSwallowed text

namespace Fixing

variable {lint : Lint} {text : Text} {v : Violation} {f : Fix} {r : Round}

/-- Where nothing is found there is no round. -/
theorem round?_select_nil (lint : Lint) (text : Text) : round? lint text (select []) = none := by
  rw [select_eq_nil_iff.mpr (by simp), round?_eq_none_iff]
  refine ⟨?_, by simp⟩
  cases hattempt : attempt? lint text [] with
  | none => rfl
  | some r => exact absurd rfl (ne_nil_of_attempt? hattempt)

/-- A run of one round, which takes the only fix there is. -/
theorem rounds_run_singleton (hlint : lint text = some [v]) (hfix : v.fix = some f)
    (hattempt : attempt? lint text [f] = some r)
    (hlast : round? lint r.text (select r.violations) = none) (budget : Nat) :
    (run lint (budget + 1) text).rounds = [r] := by
  have hnew : r.text ∉ [text] := by
    rw [List.mem_singleton]
    exact (attempt?_eq_some_iff.mp hattempt).2.1
  unfold run
  rw [hlint]
  refine (rounds_cons (round?_select_singleton hfix hattempt) hnew budget).trans (congrArg _ ?_)
  by_cases hsel : select r.violations = []
  · exact rounds_of_select_eq_nil hsel _ _ _
  · cases budget with
    | zero => rw [rounds_zero]
    | succ budget => rw [rounds_succ hsel, hlast, Option.filter_none, Option.elim_none]

end Fixing

/-- Whitespace plays no role, so texts with the same words hold the same constructs. -/
theorem Text.constructs_eq_of_words_eq {a b : Text} (h : words (ofText a) = words (ofText b)) :
    constructs a = constructs b := by
  have hroles (ts : List Token) : (words ts).filterMap Token.role? = roles ts := by
    rw [words, List.filterMap_map, roles, List.filterMap_filter]
    refine List.filterMap_congr fun t _ => ?_
    cases hblank : t.isWhitespace with
    | true =>
      have hkind : t.kind = .whitespace := beq_iff_eq.mp hblank
      simp [Token.role?, hkind]
    | false => rfl
  refine constructs_eq_of_roles_eq ?_
  rw [← hroles, ← hroles, h]

namespace Analyzer

open Fixing

variable {a : Analyzer} {text source : Text} {violations : List Violation} {r : Round}
  {rs : List Round} {fix : Fix} {marks : List Char}

/-- Whether the rules of an analyzer do nothing but put other whitespace between words, swallowed
only where one of some characters stands behind a word that goes on. -/
def OnlyRespaces (marks : List Char) (a : Analyzer) : Prop :=
  ∀ r ∈ a.rules, r.check.FixesApply ∧ r.check.Respaces marks

/-- The fixes of such an analyzer put other whitespace between words. -/
theorem spacesOut_of_onlyRespaces (hrules : a.OnlyRespaces marks)
    {v : Violation} (hv : v ∈ a.lint text (Parse.ofText text).sheet) (hfix : v.fix = some fix) :
    fix.Applicable text ∧ ∀ e ∈ fix.edits, e.SpacesOut marks text := by
  obtain ⟨⟨rule, hrule, hmem⟩, -⟩ := mem_lint_iff.mp hv
  rw [ruleViolations_eq_map] at hmem
  obtain ⟨f, hf, rfl⟩ := List.mem_map.mp hmem
  obtain ⟨happly, hspaces⟩ := hrules rule hrule
  exact ⟨happly text f hf fix hfix, hspaces text f hf fix hfix⟩

/-- **A round of whitespace** keeps the words, or lets them grow if it swallows some. -/
theorem words_step_of_onlyRespaces (hrules : a.OnlyRespaces marks)
    (hlint : a.lintText text = some violations) (hstep : Step a.lintText text violations r) :
    (¬ r.SwallowsSpace text → words (ofText r.text) = words (ofText text))
      ∧ (r.SwallowsSpace text → wordLengths (ofText text) < wordLengths (ofText r.text))
      ∧ (Guards marks (ofText text) → ¬ r.SwallowsSpace text) := by
  have hspaces (f : Fix) (hf : f ∈ r.fixes) :
      f.Applicable text ∧ ∀ e ∈ f.edits, e.SpacesOut marks text := by
    obtain ⟨v, hv, hfix⟩ := exists_violation_of_step hlint hstep hf
    exact spacesOut_of_onlyRespaces hrules hv hfix
  obtain ⟨hkept, hgrown⟩ := Edit.words_of_applyAll? hstep.applied
    (hstep.pairwise_edits fun f hf => (hspaces f hf).1.apart)
    (fun e he => by
      obtain ⟨f, hf, he⟩ := List.mem_flatMap.mp he
      exact ((hspaces f hf).2 e he).respaces)
    (Parse.kind_ne_error (isOk_of_lintText hlint))
  refine ⟨fun hfree => hkept fun e he hswallowed => ?_, ?_, ?_⟩
  · obtain ⟨f, hf, he⟩ := List.mem_flatMap.mp he
    exact hfree ⟨f, hf, e, he, hswallowed⟩
  · rintro ⟨f, hf, e, he, hswallowed⟩
    exact hgrown ⟨e, List.mem_flatMap.mpr ⟨f, hf, he⟩, hswallowed⟩
  · rintro hguards ⟨f, hf, e, he, hswallowed⟩
    exact ((hspaces f hf).2 e he).guarded hguards hswallowed

/-- **A chain of rounds of whitespace** keeps the words, or lets them grow if one of them swallows
whitespace. -/
theorem words_chain_of_onlyRespaces (hrules : a.OnlyRespaces marks)
    (hchain : Chain a.lintText text violations rs) (hlint : a.lintText text = some violations) :
    (EachRound (fun text r => ¬ r.SwallowsSpace text) text rs →
        words (ofText (lastText text rs)) = words (ofText text))
      ∧ (¬ EachRound (fun text r => ¬ r.SwallowsSpace text) text rs →
        wordLengths (ofText text) < wordLengths (ofText (lastText text rs)))
      ∧ (Guards marks (ofText text) → EachRound (fun text r => ¬ r.SwallowsSpace text) text rs) := by
  induction hchain with
  | nil => simp [EachRound]
  | @cons text violations r later step _ ih =>
    obtain ⟨hkept, hgrown, hguarded⟩ := words_step_of_onlyRespaces hrules hlint step
    obtain ⟨ihkept, ihgrown, ihguarded⟩ := ih step.accepted
    rw [lastText_cons, EachRound]
    refine ⟨fun hfree => (ihkept hfree.2).trans (hkept hfree.1), fun hsome => ?_, ?_⟩
    · -- the later rounds do not undo what the first one does to the words
      by_cases hlater : EachRound (fun text r => ¬ r.SwallowsSpace text) r.text later
      · have hswallows : r.SwallowsSpace text := by
          by_contra hfree
          exact hsome ⟨hfree, hlater⟩
        rw [wordLengths, wordLengths, ihkept hlater]
        exact hgrown hswallows
      · by_cases hswallows : r.SwallowsSpace text
        · exact (hgrown hswallows).trans (ihgrown hlater)
        · have hsame : wordLengths (ofText text) = wordLengths (ofText r.text) := by
            rw [wordLengths, wordLengths, hkept hswallows]
          rw [hsame]
          exact ihgrown hlater
    · intro hguards
      have hfree := hguarded hguards
      refine ⟨hfree, ihguarded ?_⟩
      rw [Guards, hkept hfree]
      exact hguards

/-- **When fixing with rules about whitespace keeps the words**: exactly when no round swallows
whitespace, and so in all texts without one of the characters behind a word that goes on. -/
theorem words_fix_of_onlyRespaces (path : String) (source : Text) (hrules : a.OnlyRespaces marks) :
    (words (ofText (a.fix path source).2) = words (ofText source)
        ↔ EachRound (fun text r => ¬ r.SwallowsSpace text) source
            (run a.lintText a.config.maxIterations source).rounds)
      ∧ (Guards marks (ofText source) →
          words (ofText (a.fix path source).2) = words (ofText source)) := by
  rw [fix_eq_lastText]
  cases hlint : a.lintText source with
  | none => simp [run, hlint, EachRound]
  | some violations =>
    obtain ⟨hkept, hgrown, hguarded⟩ := words_chain_of_onlyRespaces hrules
      (rounds_chain a.lintText a.config.maxIterations source violations [source]) hlint
    have hrun : (run a.lintText a.config.maxIterations source).rounds =
        (rounds a.lintText a.config.maxIterations source violations [source]).1 := by
      simp [run, hlint]
    rw [hrun]
    refine ⟨⟨fun hwords => ?_, hkept⟩, fun hguards => hkept (hguarded hguards)⟩
    by_contra hsome
    have hless := hgrown hsome
    rw [wordLengths, wordLengths, hwords] at hless
    exact lt_irrefl _ hless

/-- **Fixing with rules about whitespace loses no construct**, at any level, as long as no round swallows
whitespace. -/
theorem constructs_fix_of_onlyRespaces (path : String) (source : Text) (hrules : a.OnlyRespaces marks)
    (hfree : EachRound (fun text r => ¬ r.SwallowsSpace text) source
        (run a.lintText a.config.maxIterations source).rounds
      ∨ Guards marks (ofText source)) :
    Text.constructs (a.fix path source).2 = Text.constructs source := by
  obtain ⟨hiff, hguarded⟩ := words_fix_of_onlyRespaces path source hrules
  exact Text.constructs_eq_of_words_eq (hfree.elim hiff.mpr hguarded)

/-! ## The two rules -/

/-- The rule about spaces in selectors only puts other whitespace between words. -/
theorem onlyRespaces_selectors (hrules : ∀ r ∈ a.rules, SelectorSpacing.entry.Makes r) :
    a.OnlyRespaces ['\x7b', ','] := by
  intro r hr
  obtain ⟨options, severity, hbuild⟩ := hrules r hr
  rw [← Except.ok.inj (RuleEntry.exists_read_of_build hbuild)]
  exact ⟨SelectorSpacing.sparesComments.fixesApply, SelectorSpacing.respaces⟩

/-- The rule about the lines of rule sets only puts other whitespace between words. -/
theorem onlyRespaces_lines (hrules : ∀ r ∈ a.rules, DeclarationGrouping.entry.Makes r) :
    a.OnlyRespaces ['\x7d'] := by
  intro r hr
  obtain ⟨options, severity, hbuild⟩ := hrules r hr
  obtain ⟨singleLine, -, hread⟩ := exists_of_bind_eq_ok (RuleEntry.exists_read_of_build hbuild)
  rw [← Except.ok.inj hread]
  refine ⟨(DeclarationGrouping.sparesComments singleLine).fixesApply,
    (DeclarationGrouping.respaces singleLine).of_subset ?_⟩
  cases singleLine <;> simp

/-- Without rule sets on one line, the rule about lines of rule sets swallows nothing. -/
theorem onlyRespaces_multiLine (hrules : ∀ r ∈ a.rules, r.check = DeclarationGrouping.check false) :
    a.OnlyRespaces [] := by
  intro r hr
  rw [hrules r hr]
  exact ⟨(DeclarationGrouping.sparesComments false).fixesApply, DeclarationGrouping.respaces false⟩

end Analyzer

/-! ### Spaces in selectors -/

namespace Joined

open Fixing

/-- The analyzer with the rule about spaces in selectors alone. -/
def selectors : Analyzer :=
  ⟨[⟨SelectorSpacing.entry.info, .warning, SelectorSpacing.check⟩], .standard⟩

theorem makes_selectors : ∀ r ∈ selectors.rules, SelectorSpacing.entry.Makes r := by
  intro r hr
  rw [List.mem_singleton.mp hr]
  exact ⟨.none "selector-spacing", none, rfl⟩

/-- A rule set without space in front of the brace. -/
def narrow : Text := "a\x7b\x7d".toList

/-- The rule set with that space. -/
def spaced : Text := "a \x7b\x7d".toList

/-- The tree of the rule set with this space in front of the brace. -/
def ruleSetWith (space : Text) : Stylesheet where
  children :=
    let brace := Position.advance ⟨1, 1, 2⟩ space
    let gap := if space = [] then [] else [token .whitespace space ⟨1, 1, 2⟩]
    [.block [] 0 1 (.ruleSet (token .ident ['a'] ⟨0, 1, 1⟩ :: gap)) (token .punct ['\x7b'] brace) [] []
      (some (token .punct ['\x7d'] (brace.advance ['\x7b'])))]
  trailing := []

/-- How the rule set is read. -/
def narrowReading : narrow.Reading := ⟨ruleSetWith [], by cbv⟩

/-- How the rule set is read with the space. -/
def spacedReading : spaced.Reading := ⟨ruleSetWith [' '], by cbv⟩

/-- The fix that puts the space there. -/
def insertion : Fix := ⟨"Put one space before `\x7b`", [⟨1, 1, [' ']⟩]⟩

/-- The missing space. -/
def missingSpace : Violation where
  code := "SL002"
  rule := "selector-spacing"
  severity := .warning
  location := ⟨1, 2, 1, 1⟩
  message := "Expected one space before `\x7b`"
  suggestion := none
  fix := some insertion

theorem fix_narrow : (selectors.fix "a.scss" narrow).2 = spaced := by
  have hnarrow : selectors.lintText narrow = some [missingSpace] :=
    narrowReading.lintText_eq [missingSpace] rfl rfl rfl (Nat.le_refl 1)
  have hspaced : selectors.lintText spaced = some [] :=
    spacedReading.lintText_eq [] rfl rfl rfl (Nat.zero_le 1)
  have hattempt : attempt? selectors.lintText narrow [insertion] =
      some ⟨spaced, [], [insertion]⟩ := by
    refine attempt?_eq_some_iff.mpr ⟨?_, by decide, hspaced, rfl⟩
    exact applyAll?_singleton ['a'] [] ['\x7b', '\x7d'] [' ']
  rw [Analyzer.fix_eq_lastText]
  change lastText narrow (run selectors.lintText (9 + 1) narrow).rounds = _
  rw [rounds_run_singleton hnarrow rfl hattempt (round?_select_nil _ _)]
  rfl

theorem fix_selectors_source : (selectors.fix "a.scss" source).2 = output := by
  have hsource : selectors.lintText source = some [violation] :=
    sourceReading.lintText_eq [violation] rfl rfl rfl (Nat.le_refl 1)
  have houtput : selectors.lintText output = some [] :=
    outputReading.lintText_eq [] rfl rfl rfl (Nat.zero_le 1)
  have hattempt : attempt? selectors.lintText source [spaceFix] = some ⟨output, [], [spaceFix]⟩ := by
    refine attempt?_eq_some_iff.mpr ⟨?_, by decide, houtput, rfl⟩
    exact applyAll?_singleton "a//".toList ['\n'] "\x7b\x7d\n\nb \x7b\x7d".toList [' ']
  rw [Analyzer.fix_eq_lastText]
  change lastText source (run selectors.lintText (9 + 1) source).rounds = _
  rw [rounds_run_singleton hsource rfl hattempt (round?_select_nil _ _)]
  rfl

end Joined

open Fixing in
/-- **When fixing with the rule about spaces in selectors keeps the words**: exactly when no round
puts a space, or nothing, right behind a line comment or a lone backslash. It does in all texts in
which no opening brace and no comma stands behind one of these. -/
theorem Analyzer.words_fix_selectors_iff (a : Analyzer) (path : String) (source : Text)
    (hrules : ∀ r ∈ a.rules, SelectorSpacing.entry.Makes r) :
    (words (ofText (a.fix path source).2) = words (ofText source)
        ↔ EachRound (fun text r => ¬ r.SwallowsSpace text) source
            (run a.lintText a.config.maxIterations source).rounds)
      ∧ (Guards ['\x7b', ','] (ofText source) →
          words (ofText (a.fix path source).2) = words (ofText source)) :=
  words_fix_of_onlyRespaces path source (onlyRespaces_selectors hrules)

/-- A brace behind a word that ends gets its space, and the words stay. -/
theorem Analyzer.words_fix_selectors_iff_narrow :
    let a := Joined.selectors
    (∀ r ∈ a.rules, SelectorSpacing.entry.Makes r)
      ∧ Guards ['\x7b', ','] (ofText Joined.narrow)
      ∧ (a.fix "a.scss" Joined.narrow).2 = Joined.spaced
      ∧ words (ofText (a.fix "a.scss" Joined.narrow).2) = words (ofText Joined.narrow) := by
  intro a
  have hguards : Guards ['\x7b', ','] (ofText Joined.narrow) := by
    have hwords : words (ofText Joined.narrow) =
        [(Joined.token .ident ['a'] .start).bare, (Joined.token .punct ['\x7b'] .start).bare,
          (Joined.token .punct ['\x7d'] .start).bare] := by
      cbv
    rw [Guards, hwords]
    decide
  exact ⟨Joined.makes_selectors, hguards, Joined.fix_narrow,
    (Analyzer.words_fix_selectors_iff a "a.scss" Joined.narrow Joined.makes_selectors).2 hguards⟩

/-- **A brace that ends up in the comment in front of it**: a space takes the place of the line break
that ends the comment, and the text still parses because of a later rule set. -/
theorem selectors_put_brace_in_comment :
    ∃ selectors, SelectorSpacing.entry.build (.none "selector-spacing") none = .ok selectors
      ∧ let a : Analyzer := ⟨[selectors], .standard⟩
        (Parse.ofText Joined.source).isOk = true
          ∧ (a.fix "a.scss" Joined.source).2 = Joined.output
          ∧ words (ofText (a.fix "a.scss" Joined.source).2) ≠ words (ofText Joined.source) := by
  refine ⟨_, rfl, Joined.sourceReading.isOk, Joined.fix_selectors_source, ?_⟩
  change words (ofText (Joined.selectors.fix "a.scss" Joined.source).2) ≠ _
  rw [Joined.fix_selectors_source]
  have hsource : (words (ofText Joined.source)).length = 7 := by cbv
  have houtput : (words (ofText Joined.output)).length = 5 := by cbv
  intro hwords
  rw [hwords, hsource] at houtput
  cases houtput

/-! ### The lines of rule sets -/

namespace Collapsed

open Fixing
open SheetLint.Joined (token)

/-- The analyzer with the rule about the lines of rule sets alone. -/
def lines (singleLine : Bool) : Analyzer :=
  ⟨[⟨DeclarationGrouping.entry.info, .warning, DeclarationGrouping.check singleLine⟩], .standard⟩

theorem makes_lines (singleLine : Bool) :
    ∀ r ∈ (lines singleLine).rules, DeclarationGrouping.entry.Makes r := by
  intro r hr
  rw [List.mem_singleton.mp hr]
  exact ⟨⟨"declaration-grouping", [("single_line", .boolean singleLine)]⟩, none, by
    cases singleLine <;> rfl⟩

/-- A rule set of one declaration, with a comment behind it and some whitespace in front of the
closing brace, which stands at a place. -/
def ruleSetWith (comment space : List Token) (closing : Position) : Node :=
  let top := Released.tokenAt .start
  .block [] 0 1 (.ruleSet [top 0 .ident ['a']]) (top 1 .punct ['\x7b'])
    [.statement [top 2 .whitespace [' ']] 1 (.declaration
      { property := [top 3 .ident ['b']]
        beforeColon := []
        colon := top 4 .punct [':']
        afterColon := []
        value := top 5 .ident ['c'] :: comment
        beforeSemicolon := []
        semicolon := none })]
    space (some (token .punct ['\x7d'] closing))

/-- The fix that puts a closing brace behind one space. -/
def spaceFix (start stop : Nat) : Fix :=
  ⟨"Put `\x7d` on the declaration's line", [⟨start, stop, [' ']⟩]⟩

/-- The closing brace that does not stand behind one space. -/
def misplaced (start : Nat) (closing : Position) : Violation where
  code := "SL005"
  rule := "declaration-grouping"
  severity := .warning
  location := ⟨closing.line, closing.column, closing.offset, 1⟩
  message := "Expected `\x7d` on the same line as the declaration"
  suggestion := none
  fix := some (spaceFix start closing.offset)

/-- A rule set on one line. -/
def narrow : Text := "a\x7b b:c\x7d".toList

/-- The rule set with a space in front of the closing brace. -/
def spaced : Text := "a\x7b b:c \x7d".toList

/-- How the rule set is read. -/
def narrowReading : narrow.Reading := ⟨⟨[ruleSetWith [] [] ⟨6, 1, 7⟩], []⟩, by cbv⟩

/-- How the rule set is read with the space. -/
def spacedReading : spaced.Reading :=
  ⟨⟨[ruleSetWith [] [token .whitespace [' '] ⟨6, 1, 7⟩] ⟨7, 1, 8⟩], []⟩, by cbv⟩

theorem fix_narrow : ((lines true).fix "a.scss" narrow).2 = spaced := by
  have hnarrow : (lines true).lintText narrow = some [misplaced 6 ⟨6, 1, 7⟩] :=
    narrowReading.lintText_eq [misplaced 6 ⟨6, 1, 7⟩] rfl rfl rfl (Nat.le_refl 1)
  have hspaced : (lines true).lintText spaced = some [] :=
    spacedReading.lintText_eq [] rfl rfl rfl (Nat.zero_le 1)
  have hattempt : attempt? (lines true).lintText narrow [spaceFix 6 6] =
      some ⟨spaced, [], [spaceFix 6 6]⟩ := by
    refine attempt?_eq_some_iff.mpr ⟨?_, by decide, hspaced, rfl⟩
    exact applyAll?_singleton "a\x7b b:c".toList [] ['\x7d'] [' ']
  rw [Analyzer.fix_eq_lastText]
  change lastText narrow (run (lines true).lintText (9 + 1) narrow).rounds = _
  rw [rounds_run_singleton hnarrow rfl hattempt (round?_select_nil _ _)]
  rfl

/-- Two rule sets; a line comment stands in front of the first closing brace. -/
def source : Text := "a\x7b b:c//\n\x7dd\x7b\n\x7d".toList

/-- The source with a space for the line break behind the comment. -/
def output : Text := "a\x7b b:c// \x7dd\x7b\n\x7d".toList

/-- The output with a space for its line break, which leaves no brace outside the comment. -/
def unclosed : Text := "a\x7b b:c// \x7dd\x7b \x7d".toList

/-- How the source is read. -/
def sourceReading : source.Reading where
  sheet := ⟨[ruleSetWith [token .lineComment "//".toList ⟨6, 1, 7⟩]
      [token .whitespace ['\n'] ⟨8, 1, 9⟩] ⟨9, 2, 1⟩,
    .block [] 0 1 (.ruleSet [token .ident ['d'] ⟨10, 2, 2⟩]) (token .punct ['\x7b'] ⟨11, 2, 3⟩) []
      [token .whitespace ['\n'] ⟨12, 2, 4⟩] (some (token .punct ['\x7d'] ⟨13, 3, 1⟩))], []⟩
  parse := by cbv

/-- How the output is read. -/
def outputReading : output.Reading where
  sheet := ⟨[ruleSetWith [token .lineComment "// \x7dd\x7b".toList ⟨6, 1, 7⟩]
    [token .whitespace ['\n'] ⟨12, 1, 13⟩] ⟨13, 2, 1⟩], []⟩
  parse := by cbv

theorem isOk_unclosed : (Parse.ofText unclosed).isOk = false := by cbv

/-- Another space for the line break of the output is of no use. -/
theorem round?_output :
    round? (lines true).lintText output (select [misplaced 12 ⟨13, 2, 1⟩]) = none := by
  have hattempt : attempt? (lines true).lintText output [spaceFix 12 13] = none := by
    rw [Option.eq_none_iff_forall_ne_some]
    intro r hr
    obtain ⟨happly, -, hlint, -⟩ := attempt?_eq_some_iff.mp hr
    have happly' : Edit.applyAll? output [⟨12, 13, [' ']⟩] = some unclosed :=
      applyAll?_singleton "a\x7b b:c// \x7dd\x7b".toList ['\n'] ['\x7d'] [' ']
    have htext : unclosed = r.text := Option.some.inj (happly'.symm.trans happly)
    rw [← htext, Analyzer.lintText_eq_none_of_not_isOk isOk_unclosed] at hlint
    cases hlint
  rw [select_singleton rfl, round?_eq_none_iff, List.forall_mem_singleton]
  exact ⟨hattempt, hattempt⟩

theorem fix_source : ((lines true).fix "a.scss" source).2 = output := by
  have hsource : (lines true).lintText source = some [misplaced 8 ⟨9, 2, 1⟩] :=
    sourceReading.lintText_eq [misplaced 8 ⟨9, 2, 1⟩] rfl rfl rfl (Nat.le_refl 1)
  have houtput : (lines true).lintText output = some [misplaced 12 ⟨13, 2, 1⟩] :=
    outputReading.lintText_eq [misplaced 12 ⟨13, 2, 1⟩] rfl rfl rfl (Nat.le_refl 1)
  have hattempt : attempt? (lines true).lintText source [spaceFix 8 9] =
      some ⟨output, [misplaced 12 ⟨13, 2, 1⟩], [spaceFix 8 9]⟩ := by
    refine attempt?_eq_some_iff.mpr ⟨?_, by decide, houtput, rfl⟩
    exact applyAll?_singleton "a\x7b b:c//".toList ['\n'] "\x7dd\x7b\n\x7d".toList [' ']
  rw [Analyzer.fix_eq_lastText]
  change lastText source (run (lines true).lintText (9 + 1) source).rounds = _
  rw [rounds_run_singleton hsource rfl hattempt round?_output]
  rfl

end Collapsed

open Fixing in
/-- **When fixing with the rule about lines of rule sets keeps the words**: exactly when no round
puts a space right behind a line comment or a lone backslash. It does in all texts in which no
closing brace stands behind one of these, and in all texts if no rule set belongs on one line. -/
theorem Analyzer.words_fix_lines_iff (a : Analyzer) (path : String) (source : Text)
    (hrules : ∀ r ∈ a.rules, DeclarationGrouping.entry.Makes r) :
    (words (ofText (a.fix path source).2) = words (ofText source)
        ↔ EachRound (fun text r => ¬ r.SwallowsSpace text) source
            (run a.lintText a.config.maxIterations source).rounds)
      ∧ (Guards ['\x7d'] (ofText source) →
          words (ofText (a.fix path source).2) = words (ofText source))
      ∧ ((∀ r ∈ a.rules, r.check = DeclarationGrouping.check false) →
          words (ofText (a.fix path source).2) = words (ofText source)) := by
  obtain ⟨hiff, hguarded⟩ := Analyzer.words_fix_of_onlyRespaces path source (Analyzer.onlyRespaces_lines hrules)
  refine ⟨hiff, hguarded, fun hmulti => ?_⟩
  exact (Analyzer.words_fix_of_onlyRespaces path source (Analyzer.onlyRespaces_multiLine hmulti)).2
    (guards_nil _)

/-- A closing brace behind a word that ends gets its space, and the words stay; where rule sets are
not put on one line, they stay although a comment stands in front of a closing brace. -/
theorem Analyzer.words_fix_lines_iff_narrow :
    let a := Collapsed.lines true
    let b := Collapsed.lines false
    (∀ r ∈ a.rules, DeclarationGrouping.entry.Makes r)
      ∧ Guards ['\x7d'] (ofText Collapsed.narrow)
      ∧ (a.fix "a.scss" Collapsed.narrow).2 = Collapsed.spaced
      ∧ words (ofText (a.fix "a.scss" Collapsed.narrow).2) = words (ofText Collapsed.narrow)
      ∧ (∀ r ∈ b.rules, DeclarationGrouping.entry.Makes r)
      ∧ words (ofText (b.fix "a.scss" Collapsed.source).2) = words (ofText Collapsed.source) := by
  intro a b
  have hguards : Guards ['\x7d'] (ofText Collapsed.narrow) := by
    have hwords : words (ofText Collapsed.narrow) =
        [(Joined.token .ident ['a'] .start).bare, (Joined.token .punct ['\x7b'] .start).bare,
          (Joined.token .ident ['b'] .start).bare, (Joined.token .punct [':'] .start).bare,
          (Joined.token .ident ['c'] .start).bare, (Joined.token .punct ['\x7d'] .start).bare] := by
      cbv
    rw [Guards, hwords]
    decide
  have hmulti : ∀ r ∈ b.rules, r.check = DeclarationGrouping.check false := by
    intro r hr
    rw [List.mem_singleton.mp hr]
  exact ⟨Collapsed.makes_lines true, hguards, Collapsed.fix_narrow,
    (Analyzer.words_fix_lines_iff a "a.scss" Collapsed.narrow (Collapsed.makes_lines true)).2.1 hguards,
    Collapsed.makes_lines false,
    (Analyzer.words_fix_lines_iff b "a.scss" Collapsed.source (Collapsed.makes_lines false)).2.2 hmulti⟩

/-- **A closing brace that ends up in the comment in front of it**: a rule set is put on one line, and
the text still parses because a later closing brace stands on a line of its own. -/
theorem lines_put_brace_in_comment :
    ∃ lines, DeclarationGrouping.entry.build (.none "declaration-grouping") none = .ok lines
      ∧ let a : Analyzer := ⟨[lines], .standard⟩
        (Parse.ofText Collapsed.source).isOk = true
          ∧ (a.fix "a.scss" Collapsed.source).2 = Collapsed.output
          ∧ words (ofText (a.fix "a.scss" Collapsed.source).2) ≠ words (ofText Collapsed.source) := by
  refine ⟨_, rfl, Collapsed.sourceReading.isOk, Collapsed.fix_source, ?_⟩
  change words (ofText ((Collapsed.lines true).fix "a.scss" Collapsed.source).2) ≠ _
  rw [Collapsed.fix_source]
  have hsource : (words (ofText Collapsed.source)).length = 10 := by cbv
  have houtput : (words (ofText Collapsed.output)).length = 7 := by cbv
  intro hwords
  rw [hwords, hsource] at houtput
  cases houtput

end SheetLint
