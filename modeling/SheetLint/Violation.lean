import SheetLint.Edit
import SheetLint.Text.Order

/-!
# Violations

A violation says which rule found what and where, how severe it is, and how to fix it if the rule
knows. Violations are listed by line, column and rule name.
-/

namespace SheetLint

/-- How much a violation weighs. -/
inductive Severity where
  | warning
  | error
deriving DecidableEq, Repr, Inhabited

namespace Severity

/-- The word for a severity. -/
def word : Severity → String
  | warning => "warning"
  | error => "error"

/-- The severity that a word stands for. -/
def ofWord? (w : String) : Option Severity := [warning, error].find? (·.word == w)

/-- Whether a severity reaches a threshold. -/
def reaches : Severity → Severity → Bool
  | error, _ => true
  | warning, threshold => threshold == warning

end Severity

/-- Where a violation starts, and how many bytes it covers. -/
structure Location where
  line : Nat
  column : Nat
  offset : Nat
  length : Nat
deriving DecidableEq, Repr, Inhabited

namespace Location

/-- The location of a span. -/
def ofSpan (s : Span) : Location := ⟨s.start.line, s.start.column, s.start.offset, s.length⟩

end Location

/-- What a rule found. -/
structure Violation where
  code : String
  rule : String
  severity : Severity
  location : Location
  message : String
  suggestion : Option String
  fix : Option Fix
deriving DecidableEq, Repr

namespace Violation

/-- Order of a report: line, column, rule name. -/
def le (a b : Violation) : Bool :=
  if a.location.line ≠ b.location.line then a.location.line < b.location.line
  else if a.location.column ≠ b.location.column then a.location.column < b.location.column
  else Text.leString a.rule b.rule

/-- The violations in the order of a report; those equal in it keep their places. -/
def sort (vs : List Violation) : List Violation := vs.mergeSort le

end Violation

end SheetLint
