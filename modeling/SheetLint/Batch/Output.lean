import SheetLint.Batch

/-!
# Batches as output

A batch is written for people in colour, as JSON, or with one line for each finding.
-/

namespace SheetLint

/-- The forms of output. -/
inductive Format where
  | text
  | json
  | compact
deriving DecidableEq, Repr

namespace Format

/-- The word for a form. -/
def word : Format → String
  | text => "text"
  | json => "json"
  | compact => "compact"

/-- The form that a word stands for. -/
def ofWord? (w : String) : Option Format := [text, json, compact].find? (·.word == w)

end Format

/-- Colours of a terminal. -/
inductive Colour where
  | red
  | green
  | yellow
deriving DecidableEq, Repr

namespace Colour

/-- The number of a colour in terminal codes. -/
def number : Colour → Nat
  | red => 31
  | green => 32
  | yellow => 33

/-- A text in a colour. -/
def paint (c : Colour) (s : String) : String := s!"\x1b[{c.number}m{s}\x1b[0m"

/-- The colour of a severity. -/
def ofSeverity : Severity → Colour
  | .error => red
  | .warning => yellow

end Colour

namespace Batch

/-- Each text with a line end. -/
def withLineEnds (lines : List String) : String := String.join (lines.map (· ++ "\n"))

/-- A report in colour, a blank line behind each finding. -/
def reportText (r : Report) : String :=
  let failure := r.failure.map fun reason =>
    s!"{Colour.red.paint Severity.error.word}: {r.path}: {reason}\n"
  let violations := r.violations.map fun v =>
    v.blockShowing r.path ((Colour.ofSeverity v.severity).paint v.severity.word)
  withLineEnds (failure.toList ++ r.syntaxLines ++ violations)

/-- The colour of the summary: that of the worst thing in the batch. -/
def colour (b : Batch) : Colour :=
  if b.hasInternalErrors || b.count .error != 0 then .red
  else if b.count .warning != 0 then .yellow
  else .green

/-- A report with one line for each finding. -/
def reportLines (r : Report) : List String :=
  (r.failure.map fun reason => s!"{r.path}: error: {reason}").toList ++ r.lines

/-- The batch in a form of output. -/
def render (b : Batch) : Format → String
  | .text => String.join (b.reports.map reportText) ++ b.colour.paint b.summary ++ "\n"
  | .json => b.toJson.pretty ++ "\n"
  | .compact => withLineEnds (b.reports.flatMap reportLines)

end Batch

end SheetLint
