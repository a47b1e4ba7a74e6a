import SheetLint.Proofs.Fixing.ExitCode
import SheetLint.Proofs.Registry.Applicable
import SheetLint.Proofs.Rule.Words
import SheetLint.Proofs.Tree.Defects

/-!
# The words of a fixed text

The rule about the lines of rule sets and the rule about zero lengths, together: the first moves
words, the second takes units away. Units go in a round only by a fix of the second rule, and that
it gives only for a number that no comment of the round's text allows. A comment allows what stands
on its own lines and on the next one, so a round that moves a number to another line lets it out.

Results:
* `Analyzer.words_step_iff`: when a round keeps the words.
* `Analyzer.fix_words_iff`: when fixing does, and when it keeps the numbers.
* `grouping_lets_out_number`: a number that loses its unit though a comment allows it.
-/

namespace SheetLint

open Tokens

/-- The numbers among the words of a run of tokens. -/
def Tokens.numberWords (ts : List Token) : List Token := (words ts).filter (·.kind == .number)

/-! ## Rounds -/

namespace RuleEntry

/-- Whether a rule is made by an entry, of some options and with some severity. -/
def Makes (e : RuleEntry) (r : Rule) : Prop :=
  ∃ options severity, e.build options severity = .ok r

variable {e : RuleEntry} {r : Rule}

theorem Makes.info_eq (h : e.Makes r) : r.info = e.info := by
  obtain ⟨options, severity, h⟩ := h
  obtain ⟨_, -, h⟩ := exists_of_bind_eq_ok h
  obtain ⟨_, -, h⟩ := exists_of_bind_eq_ok h
  cases h
  rfl

end RuleEntry

namespace Fixing

/-- Whether something holds of each round and the text in front of it. -/
def EachRound (P : Text → Round → Prop) : Text → List Round → Prop
  | _, [] => True
  | text, r :: later => P text r ∧ EachRound P r.text later

theorem EachRound.imp {P Q : Text → Round → Prop} (h : ∀ text r, P text r → Q text r) {text : Text}
    {rs : List Round} (hrs : EachRound P text rs) : EachRound Q text rs := by
  induction rs generalizing text with
  | nil => trivial
  | cons r later ih => exact ⟨h text r hrs.1, ih hrs.2⟩

/-- A round with the only fix there is. -/
theorem round?_select_singleton {lint : Lint} {text : Text} {v : Violation} {f : Fix} {r : Round}
    (hfix : v.fix = some f) (hattempt : attempt? lint text [f] = some r) :
    round? lint text (select [v]) = some r := by
  rw [select_singleton hfix, round?, hattempt]

/-- The round that is taken first, where its text is new. -/
theorem rounds_cons {lint : Lint} {text : Text} {violations : List Violation} {r : Round}
    {seen : List Text} (hround : round? lint text (select violations) = some r)
    (hnew : r.text ∉ seen) (budget : Nat) :
    (rounds lint (budget + 1) text violations seen).1 =
      r :: (rounds lint budget r.text r.violations (r.text :: seen)).1 := by
  have hstep := Step.of_round? hround
  have hne : select violations ≠ [] := fun hnil =>
    hstep.fixes_ne_nil (List.sublist_nil.mp (hnil ▸ hstep.fixes_sublist))
  rw [rounds_succ hne, hround, Option.filter_some, if_pos (by simpa using hnew)]
  rfl

/-- Whether an edit of a round is swallowed by a comment or a backslash. -/
def Round.Swallows (text : Text) (r : Round) : Prop :=
  ∃ f ∈ r.fixes, ∃ e ∈ f.edits, e.Swallows (ofText text)

variable {lint : Lint} {text : Text} {violations : List Violation} {r : Round}

/-- The edits of a round do not conflict, if those of each fix do not. -/
theorem Step.pairwise_edits (h : Step lint text violations r)
    (hown : ∀ f ∈ r.fixes, f.edits.Pairwise fun a b => a.conflicts b = false) :
    (r.fixes.flatMap Fix.edits).Pairwise fun a b => a.conflicts b = false := by
  rw [List.pairwise_flatMap]
  refine ⟨hown, ((pairwise_select violations).sublist h.fixes_sublist).imp fun {f g} hfg => ?_⟩
  intro x hx y hy
  rw [Fix.conflicts, List.any_eq_false] at hfg
  have := hfg x hx
  rw [Bool.not_eq_true, List.any_eq_false] at this
  exact Bool.eq_false_iff.mpr (this y hy)

end Fixing

namespace Analyzer

open Fixing

variable {a : Analyzer} {text source : Text} {violations : List Violation} {r : Round}
  {v : Violation} {fix : Fix}

/-- Whether an analyzer has no rules but those about lines of rule sets and about zero lengths. -/
def OnlyLinesAndUnits (a : Analyzer) : Prop :=
  ∀ r ∈ a.rules, DeclarationGrouping.entry.Makes r ∨ ZeroUnit.entry.Makes r

/-- Whether a round takes a fix of the rule about zero lengths. -/
def TakesUnit (a : Analyzer) (path : String) (text : Text) (r : Round) : Prop :=
  ∃ v ∈ (a.check path text).violations,
    v.rule = ZeroUnit.entry.info.name ∧ ∃ f ∈ r.fixes, v.fix = some f

theorem violations_check_of_lintText (path : String) (hlint : a.lintText text = some violations) :
    (a.check path text).violations = violations := by
  have hok := isOk_of_lintText hlint
  rw [lintText_eq_some_of_isOk hok] at hlint
  rw [check_of_isOk path hok, Option.some.inj hlint]

/-- What the fixes of the two rules do. -/
theorem fix_cases (hrules : a.OnlyLinesAndUnits) (hv : v ∈ a.lint text (Parse.ofText text).sheet)
    (hfix : v.fix = some fix) :
    fix.Applicable text
      ∧ (v.rule ≠ ZeroUnit.entry.info.name
          ∧ (∀ e ∈ fix.edits, e.IsRespacing text)
        ∨ v.rule = ZeroUnit.entry.info.name ∧ fix.edits ≠ []
          ∧ ∀ e ∈ fix.edits, e.LosesInk text) := by
  obtain ⟨⟨rule, hrule, hmem⟩, -⟩ := mem_lint_iff.mp hv
  have hname := rule_of_mem_ruleViolations v hmem
  rw [ruleViolations_eq_map] at hmem
  obtain ⟨f, hf, rfl⟩ := List.mem_map.mp hmem
  rcases hrules rule hrule with hmade | hmade
  · rw [hmade.info_eq] at hname
    obtain ⟨options, severity, hbuild⟩ := hmade
    obtain ⟨singleLine, -, hread⟩ := exists_of_bind_eq_ok (RuleEntry.exists_read_of_build hbuild)
    rw [← Except.ok.inj hread] at hf
    refine ⟨(DeclarationGrouping.sparesComments singleLine).fixesApply text f hf fix hfix,
      .inl ⟨?_, ?_⟩⟩
    · rw [hname]
      decide
    · exact fun e he => (DeclarationGrouping.respaces singleLine text f hf fix hfix e he).respaces
  · rw [hmade.info_eq] at hname
    obtain ⟨options, severity, hbuild⟩ := hmade
    rw [← Except.ok.inj (RuleEntry.exists_read_of_build hbuild)] at hf
    exact ⟨ZeroUnit.sparesComments.fixesApply text f hf fix hfix, .inr ⟨hname, ZeroUnit.losesInk hf fix hfix⟩⟩

/-- What a round takes its fixes from. -/
theorem exists_violation_of_step (hlint : a.lintText text = some violations)
    (hstep : Step a.lintText text violations r) (hfix : fix ∈ r.fixes) :
    ∃ v ∈ a.lint text (Parse.ofText text).sheet, v.fix = some fix := by
  rw [lintText_eq_some_of_isOk (isOk_of_lintText hlint)] at hlint
  cases hlint
  exact exists_of_mem_select (hstep.fixes_sublist.subset hfix)

/-- The edits of a round of the two rules do not conflict. -/
theorem pairwise_step (hrules : a.OnlyLinesAndUnits) (hlint : a.lintText text = some violations)
    (hstep : Step a.lintText text violations r) :
    (r.fixes.flatMap Fix.edits).Pairwise fun x y => x.conflicts y = false := by
  refine hstep.pairwise_edits fun f hf => ?_
  obtain ⟨v, hv, hfix⟩ := exists_violation_of_step hlint hstep hf
  exact (fix_cases hrules hv hfix).1.apart

/-- A round that takes a unit away loses ink. -/
theorem ink_step (hrules : a.OnlyLinesAndUnits) (hlint : a.lintText text = some violations)
    (hstep : Step a.lintText text violations r) {path : String}
    (htakes : a.TakesUnit path text r) : Text.ink r.text < Text.ink text := by
  have hkeeps : ∀ e ∈ r.fixes.flatMap Fix.edits, e.KeepsInk text := by
    intro e he
    obtain ⟨f, hf, he⟩ := List.mem_flatMap.mp he
    obtain ⟨v, hv, hfix⟩ := exists_violation_of_step hlint hstep hf
    rcases (fix_cases hrules hv hfix).2 with ⟨-, hspace⟩ | ⟨-, -, hloses⟩
    · exact (hspace e he).keepsInk
    · exact (hloses e he).keepsInk
  have hloses : ∃ e ∈ r.fixes.flatMap Fix.edits, e.LosesInk text := by
    obtain ⟨v, hv, hname, f, hf, hfix⟩ := htakes
    rw [check_of_isOk path (isOk_of_lintText hlint)] at hv
    rcases (fix_cases hrules hv hfix).2 with ⟨hother, -⟩ | ⟨-, hne, hloses⟩
    · exact absurd hname hother
    · obtain ⟨e, he⟩ := List.exists_mem_of_ne_nil _ hne
      exact ⟨e, List.mem_flatMap.mpr ⟨f, hf, he⟩, hloses e he⟩
  exact (Edit.ink_of_applyAll? hstep.applied (pairwise_step hrules hlint hstep) hkeeps).2 hloses

/-- A round that takes no unit away keeps the words. -/
theorem words_step (hrules : a.OnlyLinesAndUnits) (hlint : a.lintText text = some violations)
    (hstep : Step a.lintText text violations r) (hkept : ¬ r.Swallows text) {path : String}
    (hnone : ¬ a.TakesUnit path text r) : words (ofText r.text) = words (ofText text) := by
  have hok := isOk_of_lintText hlint
  refine (Edit.words_of_applyAll? hstep.applied (pairwise_step hrules hlint hstep) ?_
    (Parse.kind_ne_error hok)).1 ?_
  · intro e he
    obtain ⟨f, hf, he⟩ := List.mem_flatMap.mp he
    obtain ⟨v, hv, hfix⟩ := exists_violation_of_step hlint hstep hf
    rcases (fix_cases hrules hv hfix).2 with ⟨-, hspace⟩ | ⟨hname, -⟩
    · exact hspace e he
    · refine absurd ⟨v, ?_, hname, f, hf, hfix⟩ hnone
      rw [check_of_isOk path hok]
      exact hv
  · intro e he hswallowed
    obtain ⟨f, hf, he⟩ := List.mem_flatMap.mp he
    exact hkept ⟨f, hf, e, he, hswallowed.swallows⟩

/-- **When a round keeps the words**: exactly when it takes no unit away. -/
theorem words_step_iff (path : String) (hrules : a.OnlyLinesAndUnits)
    (hlint : a.lintText text = some violations) (hstep : Step a.lintText text violations r)
    (hkept : ¬ r.Swallows text) :
    words (ofText r.text) = words (ofText text) ↔ ¬ a.TakesUnit path text r := by
  refine ⟨fun hwords htakes => ?_, words_step hrules hlint hstep hkept⟩
  have hless := ink_step hrules hlint hstep htakes
  rw [ink_eq_of_words_eq hwords] at hless
  exact Nat.lt_irrefl _ hless

/-- When a chain of rounds keeps the words: exactly when none of them takes a unit away. -/
theorem words_chain_iff (path : String) (hrules : a.OnlyLinesAndUnits) {rs : List Round}
    (hchain : Chain a.lintText text violations rs) (hlint : a.lintText text = some violations)
    (hkept : EachRound (fun text r => ¬ r.Swallows text) text rs) :
    (∀ r ∈ rs, words (ofText r.text) = words (ofText text))
      ↔ EachRound (fun text r => ¬ a.TakesUnit path text r) text rs := by
  induction hchain with
  | nil => simp [EachRound]
  | cons step _ ih =>
    have hstep := words_step_iff path hrules hlint step hkept.1
    have hlater := ih step.accepted hkept.2
    rw [List.forall_mem_cons, EachRound, ← hstep, ← hlater]
    refine and_congr_right fun hfirst => ?_
    rw [hfirst]

/-- **When fixing keeps the words, and when the numbers.** With the rules about lines of rule sets
and about zero lengths alone, and with no edit that is swallowed, the words stay, whatever the bound
on the rounds, exactly when no round takes a unit away. Where comments allow all that the second
rule finds in the text in front of each round, the numbers stay. -/
theorem fix_words_iff (a : Analyzer) (path : String) (source : Text)
    (hrules : a.OnlyLinesAndUnits)
    (hkept : EachRound (fun text r => ¬ r.Swallows text) source
      (run a.lintText a.config.maxIterations source).rounds) :
    ((∀ k ≤ a.config.maxIterations,
          words (ofText ((a.within k).fix path source).2) = words (ofText source))
        ↔ EachRound (fun text r => ¬ a.TakesUnit path text r) source
            (run a.lintText a.config.maxIterations source).rounds)
      ∧ (EachRound (fun text _ => ∀ v ∈ (a.check path text).violations,
            v.rule ≠ ZeroUnit.entry.info.name) source
            (run a.lintText a.config.maxIterations source).rounds →
          ∀ k ≤ a.config.maxIterations,
            numberWords (ofText ((a.within k).fix path source).2)
              = numberWords (ofText source)) := by
  have hiff : (∀ k ≤ a.config.maxIterations,
        words (ofText ((a.within k).fix path source).2) = words (ofText source))
      ↔ EachRound (fun text r => ¬ a.TakesUnit path text r) source
          (run a.lintText a.config.maxIterations source).rounds := by
    refine (forall_fix_within_iff a path source fun text =>
      words (ofText text) = words (ofText source)).trans ?_
    rw [and_iff_right rfl]
    cases hlint : a.lintText source with
    | none => simp [run, hlint, EachRound]
    | some violations =>
      have hchain := (trace_run hlint a.config.maxIterations).chain
      unfold run at hkept ⊢
      rw [hlint] at hkept ⊢
      exact words_chain_iff path hrules hchain hlint hkept
  refine ⟨hiff, fun hallowed k hk => ?_⟩
  have hnone : EachRound (fun text r => ¬ a.TakesUnit path text r) source
      (run a.lintText a.config.maxIterations source).rounds := by
    refine hallowed.imp fun text r hfree htakes => ?_
    obtain ⟨v, hv, hname, -⟩ := htakes
    exact hfree v hv hname
  rw [numberWords, hiff.mpr hnone k hk, numberWords]

end Analyzer

/-! ## Numbers on the lines that a comment allows, and behind them -/

namespace Drifting

open Fixing
open Released (tokenAt)

/-- The rules about lines of rule sets and about zero lengths, without options. -/
def rules : List Rule :=
  [⟨DeclarationGrouping.entry.info, .warning, DeclarationGrouping.check true⟩,
    ⟨ZeroUnit.entry.info, .warning, ZeroUnit.check⟩]

/-- The analyzer with these rules. -/
def analyzer : Analyzer := ⟨rules, .standard⟩

theorem onlyLinesAndUnits_analyzer : analyzer.OnlyLinesAndUnits := by
  intro r hr
  rcases List.mem_cons.mp hr with rfl | hr
  · exact .inl ⟨.none "declaration-grouping", none, rfl⟩
  · rw [List.mem_singleton.mp hr]
    exact .inr ⟨.none "zero-unit", none, rfl⟩

/-- A declaration of one token at a place, with or without semicolon. -/
def declarationAt (place : Position) (property : Char) (kind : TokenKind) (value : Text)
    (closed : Bool) : Declaration where
  property := [tokenAt place 0 .ident [property]]
  beforeColon := []
  colon := tokenAt place 1 .punct [':']
  afterColon := []
  value := [tokenAt place 2 kind value]
  beforeSemicolon := []
  semicolon := if closed then some (tokenAt place (2 + value.length) .punct [';']) else none

/-- The tree of a rule set of two declarations; a comment in front of them allows units. The first
one starts the third line, the second one stands behind some whitespace. -/
def sheetWith (first : Declaration) (space : List Token) (second : Declaration) (stop : Position) :
    Stylesheet where
  children :=
    let top := tokenAt ⟨0, 1, 1⟩
    let comment := tokenAt ⟨3, 2, 1⟩
    [.block [] 0 1 (.ruleSet [top 0 .ident ['a']]) (top 1 .punct ['\x7b'])
      [.statement [top 2 .whitespace ['\n']] 1
        (.comment (comment 0 .lineComment "//scss-lint:allow(SL009)".toList)),
       .statement [comment 24 .whitespace ['\n']] 1 (.declaration first),
       .statement space 1 (.declaration second)]
      [Joined.token .whitespace ['\n'] stop]
      (some (Joined.token .punct ['\x7d'] (stop.advance ['\n'])))]
  trailing := []

/-- What the comment allows, and where. -/
def allowed : List Suppression := [⟨2, 3, ⟨["SL009".toList], none⟩⟩]

/-- The missing line break in front of a declaration. -/
def missingBreak (place : Position) (length : Nat) : Violation where
  code := "SL005"
  rule := "declaration-grouping"
  severity := .warning
  location := ⟨place.line, place.column, place.offset, length⟩
  message := "Expected statement on its own line"
  suggestion := none
  fix := some ⟨"Start a new line", [⟨place.offset, place.offset, ['\n']⟩]⟩

/-- The unit at a place. -/
def unit (place : Position) : Violation where
  code := "SL009"
  rule := "zero-unit"
  severity := .warning
  location := ⟨place.line, place.column, place.offset, 3⟩
  message := "Unit `px` is unnecessary on a zero length"
  suggestion := none
  fix := some ⟨"Replace `0px` with `0`", [⟨place.offset, place.offset + 3, ['0']⟩]⟩

/-! ### A number that stays -/

/-- The line break between the declarations behind a place. -/
def breakAt (place : Position) : List Token := [Joined.token .whitespace ['\n'] place]

/-- Two declarations on one line; the first one holds a number. -/
def staying : Text := "a\x7b\n//scss-lint:allow(SL009)\nb:0px;c:d\n\x7d".toList

/-- The text with the second declaration on a line of its own. -/
def stayed : Text := "a\x7b\n//scss-lint:allow(SL009)\nb:0px;\nc:d\n\x7d".toList

/-- The declaration of the number. -/
def number : Declaration := declarationAt ⟨28, 3, 1⟩ 'b' .number "0px".toList true

/-- How the text is read. -/
def stayingReading : staying.Reading where
  sheet := sheetWith number [] (declarationAt ⟨34, 3, 7⟩ 'c' .ident ['d'] false) ⟨37, 3, 10⟩
  parse := by cbv

/-- How the text is read after the round. -/
def stayedReading : stayed.Reading where
  sheet := sheetWith number (breakAt ⟨34, 3, 7⟩) (declarationAt ⟨35, 4, 1⟩ 'c' .ident ['d'] false)
    ⟨38, 4, 4⟩
  parse := by cbv

theorem lintText_staying : analyzer.lintText staying = some [missingBreak ⟨34, 3, 7⟩ 3] :=
  have hallowed : Suppression.ofTokens stayingReading.sheet.tokens = allowed := rfl
  stayingReading.lintText_eq [missingBreak ⟨34, 3, 7⟩ 3, unit ⟨30, 3, 3⟩] rfl hallowed
    (by decide) (by decide)

theorem lintText_stayed : analyzer.lintText stayed = some [] :=
  have hallowed : Suppression.ofTokens stayedReading.sheet.tokens = allowed := rfl
  stayedReading.lintText_eq [unit ⟨30, 3, 3⟩] rfl hallowed (by decide) (by decide)

/-- The round that puts the second declaration of a text on a line of its own. -/
def breakRound (text : Text) (violations : List Violation) (offset : Nat) : Round :=
  ⟨text, violations, [⟨"Start a new line", [⟨offset, offset, ['\n']⟩]⟩]⟩

theorem rounds_staying :
    (run analyzer.lintText 10 staying).rounds = [breakRound stayed [] 34] := by
  have hround : round? analyzer.lintText staying (select [missingBreak ⟨34, 3, 7⟩ 3]) =
      some (breakRound stayed [] 34) := by
    refine round?_select_singleton rfl
      (attempt?_eq_some_iff.mpr ⟨?_, by decide, lintText_stayed, rfl⟩)
    exact applyAll?_singleton "a\x7b\n//scss-lint:allow(SL009)\nb:0px;".toList []
      "c:d\n\x7d".toList ['\n']
  have hnew : (breakRound stayed [] 34).text ∉ [staying] := by decide
  unfold run
  rw [lintText_staying]
  simp only
  rw [rounds_cons hround hnew 9, rounds_of_select_eq_nil (select_eq_nil_iff.mpr ?_)]
  intro v hv
  cases hv

end Drifting

/-- **A number that stays on the line its comment allows it on** keeps its unit. -/
theorem Analyzer.fix_words_iff_staying :
    let a := Drifting.analyzer
    let rs := (Fixing.run a.lintText a.config.maxIterations Drifting.staying).rounds
    a.OnlyLinesAndUnits
      ∧ Fixing.EachRound (fun text r => ¬ r.Swallows text) Drifting.staying rs
      ∧ Fixing.EachRound (fun text _ => ∀ v ∈ (a.check "a.scss" text).violations,
          v.rule ≠ ZeroUnit.entry.info.name) Drifting.staying rs
      ∧ ((∀ k ≤ a.config.maxIterations,
            words (ofText ((a.within k).fix "a.scss" Drifting.staying).2)
              = words (ofText Drifting.staying))
          ↔ Fixing.EachRound (fun text r => ¬ a.TakesUnit "a.scss" text r) Drifting.staying rs)
      ∧ ∀ k ≤ a.config.maxIterations,
          numberWords (ofText ((a.within k).fix "a.scss" Drifting.staying).2)
            = numberWords (ofText Drifting.staying) := by
  intro a rs
  have hrs : rs = [Drifting.breakRound Drifting.stayed [] 34] := Drifting.rounds_staying
  have hkept : Fixing.EachRound (fun text r => ¬ r.Swallows text) Drifting.staying rs := by
    rw [hrs]
    refine ⟨?_, trivial⟩
    rintro ⟨f, hf, e, he, hhead, -⟩
    cases List.mem_singleton.mp hf
    cases List.mem_singleton.mp he
    exact hhead rfl
  have hallowed : Fixing.EachRound (fun text _ => ∀ v ∈ (a.check "a.scss" text).violations,
      v.rule ≠ ZeroUnit.entry.info.name) Drifting.staying rs := by
    rw [hrs]
    refine ⟨fun v hv => ?_, trivial⟩
    rw [violations_check_of_lintText "a.scss" Drifting.lintText_staying] at hv
    cases List.mem_singleton.mp hv
    decide
  obtain ⟨hiff, hnumbers⟩ :=
    a.fix_words_iff "a.scss" Drifting.staying Drifting.onlyLinesAndUnits_analyzer hkept
  exact ⟨Drifting.onlyLinesAndUnits_analyzer, hkept, hallowed, hiff, hnumbers hallowed⟩

namespace Drifting

open Fixing

/-! ### A number that leaves -/

/-- Two declarations on one line; the second one holds a number. -/
def leaving : Text := "a\x7b\n//scss-lint:allow(SL009)\nc:d;b:0px\n\x7d".toList

/-- The text with the second declaration on a line of its own. -/
def left : Text := "a\x7b\n//scss-lint:allow(SL009)\nc:d;\nb:0px\n\x7d".toList

/-- The text with the unit dropped. -/
def dropped : Text := "a\x7b\n//scss-lint:allow(SL009)\nc:d;\nb:0\n\x7d".toList

/-- The declaration without number. -/
def plain : Declaration := declarationAt ⟨28, 3, 1⟩ 'c' .ident ['d'] true

/-- How the text is read. -/
def leavingReading : leaving.Reading where
  sheet := sheetWith plain [] (declarationAt ⟨32, 3, 5⟩ 'b' .number "0px".toList false) ⟨37, 3, 10⟩
  parse := by cbv

/-- How the text is read after the first round. -/
def leftReading : left.Reading where
  sheet := sheetWith plain (breakAt ⟨32, 3, 5⟩)
    (declarationAt ⟨33, 4, 1⟩ 'b' .number "0px".toList false) ⟨38, 4, 6⟩
  parse := by cbv

/-- How the text is read after the second round. -/
def droppedReading : dropped.Reading where
  sheet := sheetWith plain (breakAt ⟨32, 3, 5⟩) (declarationAt ⟨33, 4, 1⟩ 'b' .number ['0'] false)
    ⟨36, 4, 4⟩
  parse := by cbv

theorem parse_leaving : Parse.ofText leaving = ⟨leavingReading.sheet, []⟩ := leavingReading.parse

theorem lintText_leaving : analyzer.lintText leaving = some [missingBreak ⟨32, 3, 5⟩ 5] :=
  have hallowed : Suppression.ofTokens leavingReading.sheet.tokens = allowed := rfl
  leavingReading.lintText_eq [missingBreak ⟨32, 3, 5⟩ 5, unit ⟨34, 3, 7⟩] rfl hallowed (by decide)
    (by decide)

theorem lintText_left : analyzer.lintText left = some [unit ⟨35, 4, 3⟩] :=
  have hallowed : Suppression.ofTokens leftReading.sheet.tokens = allowed := rfl
  leftReading.lintText_eq [unit ⟨35, 4, 3⟩] rfl hallowed (by decide) (by decide)

theorem lintText_dropped : analyzer.lintText dropped = some [] :=
  have hallowed : Suppression.ofTokens droppedReading.sheet.tokens = allowed := rfl
  droppedReading.lintText_eq [] rfl hallowed (by decide) (by decide)

/-- The round that drops the unit. -/
def dropRound : Round := ⟨dropped, [], [⟨"Replace `0px` with `0`", [⟨35, 38, ['0']⟩]⟩]⟩

theorem rounds_leaving : (run analyzer.lintText 10 leaving).rounds =
    [breakRound left [unit ⟨35, 4, 3⟩] 32, dropRound] := by
  have hbreak : round? analyzer.lintText leaving (select [missingBreak ⟨32, 3, 5⟩ 5]) =
      some (breakRound left [unit ⟨35, 4, 3⟩] 32) := by
    refine round?_select_singleton rfl
      (attempt?_eq_some_iff.mpr ⟨?_, by decide, lintText_left, rfl⟩)
    exact applyAll?_singleton "a\x7b\n//scss-lint:allow(SL009)\nc:d;".toList []
      "b:0px\n\x7d".toList ['\n']
  have hdrop : round? analyzer.lintText left (select [unit ⟨35, 4, 3⟩]) = some dropRound := by
    refine round?_select_singleton rfl
      (attempt?_eq_some_iff.mpr ⟨?_, by decide, lintText_dropped, rfl⟩)
    exact applyAll?_singleton "a\x7b\n//scss-lint:allow(SL009)\nc:d;\nb:".toList "0px".toList
      "\n\x7d".toList ['0']
  have hleft : (breakRound left [unit ⟨35, 4, 3⟩] 32).text ∉ [leaving] := by decide
  have hdropped : dropRound.text ∉ [left, leaving] := by decide
  unfold run
  rw [lintText_leaving]
  simp only
  rw [rounds_cons hbreak hleft 9]
  refine congrArg _ ((rounds_cons hdrop hdropped 8).trans (congrArg _ ?_))
  refine rounds_of_select_eq_nil (select_eq_nil_iff.mpr fun v hv => ?_) _ _ _
  cases hv

end Drifting

/-- **A number that leaves the lines its comment allows it on** loses its unit: the comment allows
all that the rule about zero lengths finds in the source, and then a round moves the number to the
next line. -/
theorem grouping_lets_out_number :
    ∃ lines units, DeclarationGrouping.entry.build (.none "declaration-grouping") none = .ok lines
      ∧ ZeroUnit.entry.build (.none "zero-unit") none = .ok units
      ∧ let a : Analyzer := ⟨[lines, units], .standard⟩
        (Parse.ofText Drifting.leaving).isOk = true
          ∧ (∀ v ∈ (a.check "a.scss" Drifting.leaving).violations,
              v.rule ≠ ZeroUnit.entry.info.name)
          ∧ (a.fix "a.scss" Drifting.leaving).2 = Drifting.dropped
          ∧ (numberWords (ofText Drifting.leaving)).map Token.text = ["0px".toList]
          ∧ (numberWords (ofText Drifting.dropped)).map Token.text = [['0']] := by
  refine ⟨_, _, rfl, rfl, congrArg Parse.isOk Drifting.parse_leaving, ?_, ?_, ?_, ?_⟩
  · change ∀ v ∈ (Drifting.analyzer.check "a.scss" Drifting.leaving).violations, _
    rw [Analyzer.violations_check_of_lintText _ Drifting.lintText_leaving]
    decide
  · change (Drifting.analyzer.fix "a.scss" Drifting.leaving).2 = _
    rw [Analyzer.fix_eq_lastText]
    change Fixing.lastText _ (Fixing.run Drifting.analyzer.lintText 10 Drifting.leaving).rounds = _
    rw [Drifting.rounds_leaving]
    rfl
  · cbv
  · cbv

end SheetLint
