import SheetLint.Rule

/-!
# A semicolon behind every declaration

The last declaration of a block may go without one, but the next that is added would break it.
-/

namespace SheetLint.DeclarationSemicolon

/-- The place behind a declaration without semicolon. -/
def stop (d : Declaration) : Position :=
  match d.value.getLast?, d.afterColon.getLast? with
  | some t, _ => t.span.stop
  | none, some t => t.span.stop
  | none, none => d.colon.span.stop

/-- The finding for a declaration without semicolon, behind it. -/
def declarationFindings (d : Declaration) : List Finding :=
  if d.semicolon.isSome then []
  else
    [{ span := ⟨stop d, stop d⟩
       message := "Expected `;` after " ++ Text.quoted d.name ++ " declaration"
       fix := some (.insert "Add `;`" d.valueStop [';']) }]

/-- Finds declarations without semicolon. -/
def check : Check := fun _ sheet => sheet.declarations.flatMap declarationFindings

/-- The rule, which has no options. -/
def entry : RuleEntry where
  info := ⟨"SL013", "declaration-semicolon", "Requires every declaration to end with `;`", .warning,
    true⟩
  options := []
  read _ := .ok check

end SheetLint.DeclarationSemicolon
