import SheetLint.Report

/-!
# Syntax errors beside their source

A diagnostic marks the part of a source that a syntax error is about. The error may come from an
older state of the source, so the mark is cut to what is there (`stop_le_size`).
-/

namespace SheetLint

/-- A syntax error and the marked part of the source, in bytes. -/
structure Diagnostic where
  message : String
  start : Nat
  length : Nat
deriving DecidableEq, Repr

namespace Diagnostic

/-- The name for this kind of diagnostic. -/
def code : String := "scss_lint::syntax"

/-- The words beside the mark. -/
def label : String := "here"

/-- The diagnostic for a message about a place in a source. -/
def of (message : String) (l : Location) (source : Text) : Diagnostic :=
  let start := min l.offset source.size
  { message, start, length := min l.length (source.size - start) }

/-- The diagnostic in one line. -/
def headline (d : Diagnostic) : String := s!"syntax error: {d.message}"

theorem stop_le_size (message : String) (l : Location) (source : Text) :
    (of message l source).start + (of message l source).length ≤ source.size := by
  simp only [of]
  omega

end Diagnostic

end SheetLint
