import SheetLint.Rule

/-!
# Spacing around the colon of a declaration

No whitespace stands in front of the colon. Behind it stands one space, or whitespace with a line
break in front of a long value. A comment in front of the colon is reported and left alone.
-/

namespace SheetLint.DeclarationSpacing

/-- The finding for what stands between the property and the colon. -/
def beforeFinding (d : Declaration) : List Finding :=
  match Tokens.span? d.beforeColon with
  | some span =>
    [{ span
       message := "Unexpected whitespace before `:`"
       fix :=
         if d.beforeColon.all Token.isWhitespace then
           some (.replace "Remove whitespace before `:`" span.start.offset span.stop.offset [])
         else none }]
  | none => []

/-- Whether the whitespace behind a colon is one token that is a single space or breaks the
line. -/
def isWellSpaced (space : List Token) : Bool :=
  match space with
  | [t] => t.text == [' '] || t.text.has '\n'
  | _ => false

/-- The finding for what stands between the colon and a value. -/
def afterFinding (d : Declaration) : List Finding :=
  if d.value.isEmpty || isWellSpaced d.afterColon then []
  else
    [{ span := (Tokens.span? d.afterColon).getD d.colon.span
       message := "Expected one space after `:`"
       fix := some ⟨"Put one space after `:`", [.replaceRun d.afterColon d.colon.stop [' ']]⟩ }]

/-- Finds declarations whose colon is spaced otherwise. -/
def check : Check := fun _ sheet =>
  sheet.declarations.flatMap fun d => beforeFinding d ++ afterFinding d

/-- The rule, which has no options. -/
def entry : RuleEntry where
  info := ⟨"SL012", "declaration-spacing",
    "Requires no space before `:` and one space after it in declarations", .warning, true⟩
  options := []
  read _ := .ok check

end SheetLint.DeclarationSpacing
