import SheetLint.Rule
import SheetLint.Value

/-!
# Zero lengths without unit

A length of zero needs no unit. Times, angles and percentages keep theirs, and so do the arguments
of mathematical functions and the values of custom properties.
-/

namespace SheetLint.ZeroUnit

/-- The units of length. -/
def lengthUnits : List String :=
  ["px", "em", "rem", "ex", "ch", "vw", "vh", "vmin", "vmax", "vi", "vb", "svw", "svh", "lvw",
    "lvh", "dvw", "dvh", "cm", "mm", "q", "in", "pt", "pc", "cqw", "cqh", "cqi", "cqb", "cqmin",
    "cqmax"]

/-- The functions in whose arguments a unit may matter. -/
def mathFunctions : List String := ["calc", "clamp", "min", "max"]

/-- Whether a text is one of the words. -/
def isOneOf (words : List String) (t : Text) : Bool := words.contains (String.ofList t)

/-- The calls of mathematical functions among the tokens. -/
def mathCalls (tokens : List Token) : List Call :=
  (Call.find tokens).filter fun call => isOneOf mathFunctions call.lowerName

/-- The finding for a number with its index, unless it stands in one of the calls. -/
def numberFinding (calls : List Call) (i : Nat) (t : Token) : List Finding :=
  match if t.kind == .number then Number.ofText? t.text else none with
  | some n =>
    if n.value == 0.0 && !calls.any (·.contains i) && isOneOf lengthUnits (Text.lower n.unit) then
      [{ span := t.span
         message := "Unit " ++ Text.quoted n.unit ++ " is unnecessary on a zero length"
         fix := some (.replace ("Replace " ++ Text.quoted t.text ++ " with `0`") t.start t.stop ['0']) }]
    else []
  | none => []

/-- The findings for a declaration. -/
def declarationFindings (d : Declaration) : List Finding :=
  if d.name.take 2 = "--".toList then []
  else d.value.zipIdx.flatMap fun (t, i) => numberFinding (mathCalls d.value) i t

/-- Finds zero lengths with a unit. -/
def check : Check := fun _ sheet => sheet.declarations.flatMap declarationFindings

/-- The rule, which has no options. -/
def entry : RuleEntry where
  info := ⟨"SL009", "zero-unit", "Forbids units on zero lengths", .warning, true⟩
  options := []
  read _ := .ok check

end SheetLint.ZeroUnit
