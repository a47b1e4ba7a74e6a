import SheetLint.Rule
import SheetLint.Value

/-!
# No `!important`

A declaration marked `!important` can only be overridden by another one.
-/

namespace SheetLint.NoImportant

/-- The finding for a declaration with the mark, at the first one. -/
def declarationFindings (d : Declaration) : List Finding :=
  match Tokens.important? d.value with
  | some span =>
    [{ span
       message := "`!important` used on " ++ Text.quoted d.name
       suggestion := some "Raise the selector's specificity instead" }]
  | none => []

/-- Finds declarations with the mark. -/
def check : Check := fun _ sheet => sheet.declarations.flatMap declarationFindings

/-- The rule, which has no options. -/
def entry : RuleEntry where
  info := ⟨"SL010", "no-important", "Forbids `!important`", .error, false⟩
  options := []
  read _ := .ok check

end SheetLint.NoImportant
