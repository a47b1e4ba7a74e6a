import SheetLint.Fixing
import SheetLint.Registry
import SheetLint.Report
import SheetLint.Suppression
import SheetLint.Tree.Parse

/-!
# Checking and fixing a text

An analyzer is a list of rules and a configuration. It checks a text by running the rules over its
tree, unless the text does not parse; it fixes a text round by round and checks the result. A text
that does not parse is never changed.
-/

namespace SheetLint

/-- Rules and the configuration they run with. -/
structure Analyzer where
  rules : List Rule
  config : Config

namespace Analyzer

/-- The violations of one rule, with the severity that the configuration gives them. -/
def ruleViolations (a : Analyzer) (source : Text) (sheet : Stylesheet) (r : Rule) :
    List Violation :=
  let found := r.violations source sheet
  match a.config.severity? r.info.name with
  | some severity => found.map fun v => { v with severity }
  | none => found

/-- Whether no comment allows a violation. -/
def isReported (suppressions : List Suppression) (v : Violation) : Bool :=
  (Suppression.find? suppressions v.location.line v.rule v.code).isNone

/-- The violations in a text with this tree, in the order of a report. -/
def lint (a : Analyzer) (source : Text) (sheet : Stylesheet) : List Violation :=
  let suppressions := Suppression.ofTokens sheet.tokens
  Violation.sort
    ((a.rules.flatMap (a.ruleViolations source sheet)).filter (isReported suppressions))

/-- The violations in a text, unless it does not parse. -/
def lintText (a : Analyzer) : Fixing.Lint := fun source =>
  let parsed := Parse.ofText source
  if parsed.isOk then some (a.lint source parsed.sheet) else none

/-- Checks a text. -/
def check (a : Analyzer) (path : String) (source : Text) : Report :=
  let parsed := Parse.ofText source
  if parsed.isOk then { path, violations := a.lint source parsed.sheet }
  else { path, syntaxErrors := parsed.errors }

/-- Fixes a text: what remains to report, and the new text. -/
def fix (a : Analyzer) (path : String) (source : Text) : Report × Text :=
  let report := a.check path source
  if report.syntaxErrors.isEmpty then
    let outcome := Fixing.run a.lintText a.config.maxIterations source
    ({ path, violations := outcome.remaining, fixed := outcome.isChanged }, outcome.output)
  else (report, source)

end Analyzer

end SheetLint
