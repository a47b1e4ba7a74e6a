import SheetLint.Proofs.Batch.ExitCode
import SheetLint.Proofs.Fixing.Constructs
import SheetLint.Proofs.Fixing.Report
import SheetLint.Proofs.Report.Rules

/-!
# The exit code of a fixed text

A text passes when no rule finds anything in it that reaches the threshold and that no comment
allows. Fixing does not look at the threshold. A comment allows what stands on its own lines and on
the next one, so a round that moves a line away from its comment lets out what the comment allowed.

Results:
* `Analyzer.exitCode_check_eq_zero_iff`: which texts pass.
* `Analyzer.fix_exitCode_le_iff`: fixing makes no text fail exactly when all texts of the run pass.
* `standard_fix_exitCode_lt`: the standard rules make a text fail.
-/

namespace SheetLint

namespace Analyzer

open Fixing

variable {a : Analyzer} {source : Text}

/-! ## Texts that pass -/

/-- The severity of what a rule finds. -/
def severityOf (a : Analyzer) (r : Rule) : Severity :=
  (a.config.severity? r.info.name).getD r.severity

/-- Whether no rule finds anything in a text that reaches the threshold and is not allowed by a
comment of the text. -/
def Passes (a : Analyzer) (text : Text) : Prop :=
  let sheet := (Parse.ofText text).sheet
  ∀ r ∈ a.rules, (a.severityOf r).reaches a.config.threshold = true →
    ∀ f ∈ r.check text sheet, ∃ s ∈ Suppression.ofTokens sheet.tokens,
      s.covers f.span.start.line r.info.name r.info.code = true

theorem forall_mem_lint_iff_passes (text : Text) :
    (∀ v ∈ a.lint text (Parse.ofText text).sheet, ¬v.severity.reaches a.config.threshold = true)
      ↔ a.Passes text := by
  constructor
  · intro h r hr hreaches f hf
    by_contra hfree
    have hmem : ({ r.label f with severity := a.severityOf r } : Violation) ∈
        a.ruleViolations text (Parse.ofText text).sheet r := by
      rw [ruleViolations_eq_map]
      exact List.mem_map_of_mem hf
    exact h _ (mem_lint_iff.mpr ⟨⟨r, hr, hmem⟩, isReported_iff.mpr hfree⟩) hreaches
  · intro h v hv hreaches
    obtain ⟨⟨r, hr, hmem⟩, hreported⟩ := mem_lint_iff.mp hv
    rw [ruleViolations_eq_map] at hmem
    obtain ⟨f, hf, rfl⟩ := List.mem_map.mp hmem
    exact isReported_iff.mp hreported (h r hr hreaches f hf)

/-- The exit code of a check of a text that parses. -/
theorem exitCode_check_of_isOk (path : String) (h : (Parse.ofText source).isOk = true) :
    ((a.check path source).exitCode a.config.threshold = 0 ↔ a.Passes source)
      ∧ (a.check path source).exitCode a.config.threshold ≤ 1 := by
  have hinternal : (a.check path source).isInternalError = false := by
    rw [check_of_isOk path h]
    rfl
  rw [Report.exitCode_eq, hinternal, check_of_isOk path h, ← forall_mem_lint_iff_passes]
  simp only [Bool.false_eq_true, if_false]
  split
  · rename_i hany
    obtain ⟨v, hv, hreaches⟩ := List.any_eq_true.mp hany
    exact ⟨⟨fun hzero => absurd hzero Nat.one_ne_zero, fun hall => absurd hreaches (hall v hv)⟩,
      Nat.le_refl 1⟩
  · rename_i hany
    rw [Bool.not_eq_true, List.any_eq_false] at hany
    exact ⟨⟨fun _ => hany, fun _ => rfl⟩, Nat.zero_le 1⟩

/-- **Which texts pass**: those that parse and in which nothing is left that reaches the
threshold. -/
theorem exitCode_check_eq_zero_iff (path : String) :
    (a.check path source).exitCode a.config.threshold = 0
      ↔ (Parse.ofText source).isOk = true ∧ a.Passes source := by
  cases hok : (Parse.ofText source).isOk with
  | true => simpa using (exitCode_check_of_isOk path hok).1
  | false =>
    have hinternal : (a.check path source).isInternalError = true := by
      rw [check_of_not_isOk path hok, Report.isInternalError]
      simpa [Parse.isOk] using hok
    rw [Report.exitCode_eq, hinternal]
    simp

/-! ## Fixed texts -/

/-- The mark that the text changed plays no part in the exit code. -/
theorem exitCode_fix (path : String) (threshold : Severity) :
    (a.fix path source).1.exitCode threshold =
      (a.check path (a.fix path source).2).exitCode threshold := by
  rw [report_fix, Report.exitCode_eq, Report.exitCode_eq]
  rfl

/-- Only texts that parse are linted. -/
theorem isOk_of_lintText {text : Text} {violations : List Violation}
    (h : a.lintText text = some violations) : (Parse.ofText text).isOk = true := by
  cases hok : (Parse.ofText text).isOk with
  | true => rfl
  | false =>
    rw [lintText_eq_none_of_not_isOk hok] at h
    cases h

/-- When every violation reaches the threshold, a text that passes has nothing to fix. -/
theorem rounds_eq_nil_of_passes (hthreshold : a.config.threshold = .warning)
    (hpasses : a.Passes source) (budget : Nat) : (run a.lintText budget source).rounds = [] := by
  unfold run
  cases hlint : a.lintText source with
  | none => rfl
  | some violations =>
    have hall : ∀ s : Severity, s.reaches a.config.threshold = true := by
      rw [hthreshold]
      intro s
      cases s <;> rfl
    have hnone : ∀ v ∈ violations, v.fix = none := by
      intro v hv
      rw [lintText_eq_some_of_isOk (isOk_of_lintText hlint)] at hlint
      cases hlint
      exact absurd (hall _) ((forall_mem_lint_iff_passes source).mpr hpasses v hv)
    exact rounds_of_select_eq_nil (select_eq_nil_iff.mpr hnone) _ _ _

/-- **When fixing makes no text fail**, whatever the bound on the rounds: exactly when warnings fail
too, or the text fails as it is, or every text of the run passes. -/
theorem fix_exitCode_le_iff (a : Analyzer) (path : String) (source : Text) :
    (∀ k ≤ a.config.maxIterations,
        ((a.within k).fix path source).1.exitCode a.config.threshold
          ≤ (a.check path source).exitCode a.config.threshold)
      ↔ a.config.threshold = .warning ∨ (a.check path source).exitCode a.config.threshold ≠ 0
        ∨ ∀ r ∈ (run a.lintText a.config.maxIterations source).rounds, a.Passes r.text := by
  have htexts : (∀ k ≤ a.config.maxIterations, ((a.within k).fix path source).1.exitCode
        a.config.threshold ≤ (a.check path source).exitCode a.config.threshold)
      ↔ ∀ r ∈ (run a.lintText a.config.maxIterations source).rounds,
        (a.check path r.text).exitCode a.config.threshold
          ≤ (a.check path source).exitCode a.config.threshold := by
    simp only [exitCode_fix]
    refine (forall_fix_within_iff a path source fun text =>
      (a.check path text).exitCode a.config.threshold
        ≤ (a.check path source).exitCode a.config.threshold).trans ?_
    exact and_iff_right (Nat.le_refl _)
  rw [htexts]
  have hparses : ∀ r ∈ (run a.lintText a.config.maxIterations source).rounds,
      (Parse.ofText r.text).isOk = true := fun r hr => isOk_of_lintText (accepted_of_mem_rounds hr)
  by_cases hzero : (a.check path source).exitCode a.config.threshold = 0
  · have hpasses := ((exitCode_check_eq_zero_iff path).mp hzero).2
    have hround : ∀ r ∈ (run a.lintText a.config.maxIterations source).rounds,
        (a.check path r.text).exitCode a.config.threshold ≤ 0 ↔ a.Passes r.text := fun r hr =>
      Nat.le_zero.trans (exitCode_check_of_isOk path (hparses r hr)).1
    rw [hzero]
    constructor
    · exact fun h => .inr (.inr fun r hr => (hround r hr).mp (h r hr))
    · rintro (hthreshold | hne | h)
      · rw [rounds_eq_nil_of_passes hthreshold hpasses]
        simp
      · exact absurd rfl hne
      · exact fun r hr => (hround r hr).mpr (h r hr)
  · -- a text that fails is fixed into one that parses, and such a text does no worse
    refine ⟨fun _ => .inr (.inl hzero), fun _ r hr => ?_⟩
    have hle := (exitCode_check_of_isOk (a := a) path (hparses r hr)).2
    omega

end Analyzer

/-! ## A mark that leaves the lines it is allowed on -/

namespace Released

open Fixing

/-- Two rule sets on one line; a comment in front of them allows what the second one holds. -/
def source : Text := "//scss-lint:allow(SL010)\na \x7b\x7d b \x7b c: d !important; \x7d".toList

/-- The source with an empty line between the rule sets. -/
def output : Text :=
  "//scss-lint:allow(SL010)\na \x7b\x7d\n\nb \x7b c: d !important; \x7d".toList

/-- The token with this text, so many characters behind a place on one line. -/
def tokenAt (place : Position) (behind : Nat) (kind : TokenKind) (text : Text) : Token :=
  Joined.token kind text ⟨place.offset + behind, place.line, place.column + behind⟩

/-- The tree of the rule sets with this space between them. -/
def sheetWith (gap : Text) : Stylesheet where
  children :=
    let first := tokenAt ⟨25, 2, 1⟩
    let second := tokenAt (Position.advance ⟨29, 2, 5⟩ gap)
    [.statement [] 0 (.comment (tokenAt .start 0 .lineComment "//scss-lint:allow(SL010)".toList)),
     .block [tokenAt ⟨24, 1, 25⟩ 0 .whitespace ['\n']] 0 1
      (.ruleSet [first 0 .ident ['a'], first 1 .whitespace [' ']]) (first 2 .punct ['\x7b']) [] []
      (some (first 3 .punct ['\x7d'])),
     .block [first 4 .whitespace gap] 0 1
      (.ruleSet [second 0 .ident ['b'], second 1 .whitespace [' ']]) (second 2 .punct ['\x7b'])
      [.statement [second 3 .whitespace [' ']] 1 (.declaration
        { property := [second 4 .ident ['c']]
          beforeColon := []
          colon := second 5 .punct [':']
          afterColon := [second 6 .whitespace [' ']]
          value := [second 7 .ident ['d'], second 8 .whitespace [' '], second 9 .punct ['!'],
            second 10 .ident "important".toList]
          beforeSemicolon := []
          semicolon := some (second 19 .punct [';']) })]
      [second 20 .whitespace [' ']] (some (second 21 .punct ['\x7d']))]
  trailing := []

/-- How the source is read. -/
def sourceReading : source.Reading := ⟨sheetWith [' '], by cbv⟩

/-- How the output is read. -/
def outputReading : output.Reading := ⟨sheetWith ['\n', '\n'], by cbv⟩

theorem parse_source : Parse.ofText source = ⟨sheetWith [' '], []⟩ := sourceReading.parse

theorem parse_output : Parse.ofText output = ⟨sheetWith ['\n', '\n'], []⟩ := outputReading.parse

/-- What the comment allows, and where. -/
theorem suppressions_sheetWith (gap : Text) :
    Suppression.ofTokens (sheetWith gap).tokens = [⟨1, 2, ⟨["SL010".toList], none⟩⟩] := rfl

/-- The fix that puts an empty line between the rule sets. -/
def lineFix : Fix := ⟨"Separate rules with one blank line", [⟨29, 30, ['\n', '\n']⟩]⟩

/-- The missing empty line. -/
def missingLine : Violation where
  code := "SL015"
  rule := "empty-line-between-rules"
  severity := .warning
  location := ⟨2, 6, 30, 22⟩
  message := "Expected a blank line before rule"
  suggestion := none
  fix := some lineFix

/-- The mark at a place. -/
def mark (place : Position) : Violation where
  code := "SL010"
  rule := "no-important"
  severity := .error
  location := ⟨place.line, place.column, place.offset, 10⟩
  message := "`!important` used on `c`"
  suggestion := some "Raise the selector's specificity instead"
  fix := none

theorem lint_source : Analyzer.standard.lint source (sheetWith [' ']) = [missingLine] :=
  sourceReading.lint_eq [mark ⟨39, 2, 15⟩, missingLine] rfl (suppressions_sheetWith [' '])
    (by decide) (Nat.le_refl 1)

theorem lint_output :
    Analyzer.standard.lint output (sheetWith ['\n', '\n']) = [mark ⟨40, 4, 10⟩] :=
  outputReading.lint_eq [mark ⟨40, 4, 10⟩] rfl (suppressions_sheetWith ['\n', '\n'])
    (by decide) (Nat.le_refl 1)

theorem isOk_source : (Parse.ofText source).isOk = true := sourceReading.isOk

theorem isOk_output : (Parse.ofText output).isOk = true := outputReading.isOk

theorem lintText_source : Analyzer.standard.lintText source = some [missingLine] := by
  rw [Analyzer.lintText_eq_some_of_isOk isOk_source, parse_source, lint_source]

theorem lintText_output : Analyzer.standard.lintText output = some [mark ⟨40, 4, 10⟩] := by
  rw [Analyzer.lintText_eq_some_of_isOk isOk_output, parse_output, lint_output]

theorem round?_source :
    round? Analyzer.standard.lintText source [lineFix] =
      some ⟨output, [mark ⟨40, 4, 10⟩], [lineFix]⟩ := by
  have hattempt : attempt? Analyzer.standard.lintText source [lineFix] =
      some ⟨output, [mark ⟨40, 4, 10⟩], [lineFix]⟩ := by
    refine attempt?_eq_some_iff.mpr ⟨?_, by decide, lintText_output, rfl⟩
    exact applyAll?_singleton "//scss-lint:allow(SL010)\na \x7b\x7d".toList [' ']
      "b \x7b c: d !important; \x7d".toList ['\n', '\n']
  rw [round?, hattempt]

theorem fix_source (path : String) : (Analyzer.standard.fix path source).2 = output := by
  have hrounds : ∀ budget, (rounds Analyzer.standard.lintText (budget + 1) source [missingLine]
      [source]).1 = [⟨output, [mark ⟨40, 4, 10⟩], [lineFix]⟩] := by
    intro budget
    have hnew : output ∉ [source] := by decide
    rw [rounds, select_singleton rfl]
    simp only [round?_source, hnew, if_false]
    rw [rounds, select_eq_nil_iff.mpr (by simp [mark])]
  rw [Analyzer.fix_eq_lastText]
  simp only [run, lintText_source]
  change lastText source (rounds Analyzer.standard.lintText (9 + 1) source [missingLine] [source]).1
    = _
  rw [hrounds]
  rfl

end Released

/-- **The standard rules make a text fail**: an empty line is put between two rule sets, and what a
comment allowed in the second one is now too far below it. -/
theorem standard_fix_exitCode_lt :
    ∃ rules, Registry.build .standard = .ok rules
      ∧ let a : Analyzer := ⟨rules, .standard⟩
        (a.fix "a.scss" Released.source).2 = Released.output
          ∧ (a.check "a.scss" Released.source).exitCode a.config.threshold = 0
          ∧ (a.fix "a.scss" Released.source).1.exitCode a.config.threshold = 1 := by
  have hfix : (Analyzer.standard.fix "a.scss" Released.source).2 = Released.output :=
    Released.fix_source "a.scss"
  refine ⟨Registry.standardRules, Registry.build_standard, hfix, ?_, ?_⟩
  · change (Analyzer.standard.check _ _).exitCode .error = 0
    rw [Report.exitCode_eq, Analyzer.check_of_isOk _ Released.isOk_source, Released.parse_source,
      Released.lint_source]
    rfl
  · change (Analyzer.standard.fix _ _).1.exitCode .error = 1
    rw [Analyzer.exitCode_fix, hfix, Report.exitCode_eq,
      Analyzer.check_of_isOk _ Released.isOk_output, Released.parse_output, Released.lint_output]
    rfl

end SheetLint
