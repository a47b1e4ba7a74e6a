import SheetLint.Json
import SheetLint.Tree
import SheetLint.Violation

/-!
# Reports on files

A report says what was found in one file: violations, or the syntax errors that kept the rules
from running, or why the file could not be looked at. Places are written as
`path:line:column`.
-/

namespace SheetLint

/-- What was found in one file. -/
structure Report where
  path : String
  violations : List Violation := []
  /-- What is wrong with the text; then no rules ran. -/
  syntaxErrors : List SyntaxError := []
  /-- Why the file could not be read or written. -/
  failure : Option String := none
  /-- Whether the text was changed. -/
  fixed : Bool := false

/-- A line and column in a file. -/
def Location.place (l : Location) (path : String) : String := s!"{path}:{l.line}:{l.column}"

namespace Violation

/-- The violation on a line. -/
def line (v : Violation) (path : String) : String :=
  s!"{v.location.place path}: {v.severity.word} [{v.code}] {v.message}"

/-- The violation as a block of lines, with its severity as shown. -/
def blockShowing (v : Violation) (path severity : String) : String :=
  s!"{v.code} {v.rule} at {v.location.place path}\n  {severity}: {v.message}\n"
    ++ (v.suggestion.map fun hint => s!"  = help: {hint}\n").getD ""

/-- The violation as a block of lines. -/
def block (v : Violation) (path : String) : String := v.blockShowing path v.severity.word

end Violation

namespace SyntaxError

/-- What is wrong with a text and where, on a line. -/
def lineAt (path message : String) (l : Location) : String :=
  s!"{l.place path}: syntax error: {message}"

/-- The syntax error on a line. -/
def line (e : SyntaxError) (path : String) : String :=
  lineAt path e.defect.message (.ofSpan e.span)

end SyntaxError

namespace Report

/-- Whether the file could not be looked at. -/
def isInternalError (r : Report) : Bool := r.failure.isSome || !r.syntaxErrors.isEmpty

/-- The report on a file that could not be read or written. -/
def ofFailure (path reason : String) : Report := { path, failure := some reason }

/-- The syntax errors, a line each. -/
def syntaxLines (r : Report) : List String := r.syntaxErrors.map (·.line r.path)

/-- The syntax errors and the violations, a line each. -/
def lines (r : Report) : List String := r.syntaxLines ++ r.violations.map (·.line r.path)

/-- The violations as blocks. -/
def blocks (r : Report) : List String := r.violations.map (·.block r.path)

/-! ## As JSON -/

/-- A place in a file. -/
def locationJson (path : String) (l : Location) : Json :=
  .object [("file", .text path), ("line", .number l.line), ("column", .number l.column),
    ("offset", .number l.offset), ("length", .number l.length)]

/-- A violation in a file. A missing hint is left out. -/
def violationJson (path : String) (v : Violation) : Json :=
  .object ([("code", .text v.code), ("rule", .text v.rule), ("severity", .text v.severity.word),
    ("location", locationJson path v.location), ("message", .text v.message)]
    ++ (v.suggestion.map fun hint => ("suggestion", .object [("message", .text hint)])).toList)

/-- A syntax error in a file. -/
def syntaxErrorJson (path : String) (e : SyntaxError) : Json :=
  .object [("message", .text e.defect.message),
    ("location", locationJson path (.ofSpan e.span))]

/-- A report. Missing syntax errors and a missing failure are left out. -/
def toJson (r : Report) : Json :=
  .object ([("path", .text r.path), ("violations", .array (r.violations.map (violationJson r.path)))]
    ++ (if r.syntaxErrors.isEmpty then []
      else [("syntax_errors", .array (r.syntaxErrors.map (syntaxErrorJson r.path)))])
    ++ (r.failure.map fun reason => ("error", Json.text reason)).toList
    ++ [("fixed", .boolean r.fixed)])

end Report

end SheetLint
