import SheetLint.Proofs.Fixing.Idempotence

/-!
# The report on a fixed text

Fixing hands its own lint to the rounds and puts the report together from what they leave. That
report is the one a check of the new text gives, except that it also says whether the text changed.
A text that does not parse is left alone, and one that parses is never fixed into one that does not.

Results:
* `report_fix`: the report on a fixed text is that of a check.
* `fix_agrees_with_check`: what remains, whether the text changed, and what becomes of errors.
-/

namespace SheetLint.Analyzer

variable {a : Analyzer} {source : Text}

theorem check_of_isOk (path : String) (h : (Parse.ofText source).isOk = true) :
    a.check path source = { path, violations := a.lint source (Parse.ofText source).sheet } := by
  simp [check, h]

theorem check_of_not_isOk (path : String) (h : (Parse.ofText source).isOk = false) :
    a.check path source = { path, syntaxErrors := (Parse.ofText source).errors } := by
  simp [check, h]

/-- A check reports syntax errors exactly of a text that does not parse. -/
theorem syntaxErrors_check_eq_nil_iff (a : Analyzer) (path : String) (source : Text) :
    (a.check path source).syntaxErrors = [] ↔ (Parse.ofText source).isOk = true := by
  cases hok : (Parse.ofText source).isOk with
  | true => simp [check_of_isOk path hok]
  | false =>
    rw [check_of_not_isOk path hok]
    have hne : (Parse.ofText source).errors ≠ [] := by simpa [Parse.isOk] using hok
    simpa using hne

/-- **The report on a fixed text is that of a check**, but for the mark that the text changed. -/
theorem report_fix (a : Analyzer) (path : String) (source : Text) :
    (a.fix path source).1 =
      { a.check path (a.fix path source).2 with fixed := (a.fix path source).2 != source } := by
  cases hok : (Parse.ofText source).isOk with
  | false =>
    have hsame := (fix_of_not_isOk (a := a) path hok).1
    have hreport := check_of_not_isOk (a := a) path hok
    have herrors : (Parse.ofText source).errors.isEmpty = false := hok
    rw [hsame, hreport]
    simp [fix, hreport, herrors]
  | true =>
    obtain ⟨hfixed, hlint⟩ := isOk_fix (a := a) path hok
    rw [check_of_isOk path hfixed]
    have hviolations : (a.fix path source).1.violations =
        a.lint (a.fix path source).2 (Parse.ofText (a.fix path source).2).sheet := by
      rw [lintText_eq_some_of_isOk hfixed] at hlint
      exact (Option.some.inj hlint).symm
    rw [← hviolations, fix_of_isOk path hok]
    simp [Fixing.Outcome.isChanged, Fixing.source_run]

/-- **Fixing and checking agree on what remains.** The violations and the syntax errors in the
report on a fixed text are those that a check of the new text finds, and the report says that the
text was fixed exactly when it is another. A text with syntax errors is left alone; one without is
fixed into one without. -/
theorem fix_agrees_with_check (a : Analyzer) (path : String) (source : Text) :
    (a.fix path source).1.violations = (a.check path (a.fix path source).2).violations
      ∧ (a.fix path source).1.syntaxErrors = (a.check path (a.fix path source).2).syntaxErrors
      ∧ ((a.fix path source).1.fixed = true ↔ (a.fix path source).2 ≠ source)
      ∧ ((a.check path source).syntaxErrors ≠ [] → (a.fix path source).2 = source)
      ∧ ((a.check path source).syntaxErrors = [] →
          (a.check path (a.fix path source).2).syntaxErrors = []) := by
  refine ⟨by rw [report_fix], by rw [report_fix], by rw [report_fix]; simp, fun herrors => ?_,
    fun herrors => ?_⟩
  · rw [Ne, syntaxErrors_check_eq_nil_iff, Bool.not_eq_true] at herrors
    exact (fix_of_not_isOk path herrors).1
  · rw [syntaxErrors_check_eq_nil_iff] at herrors ⊢
    exact (isOk_fix path herrors).1

end SheetLint.Analyzer
