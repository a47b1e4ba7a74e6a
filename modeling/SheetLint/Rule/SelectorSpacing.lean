import SheetLint.Rule

/-!
# Spacing in selectors

One space stands in front of an opening brace, none in front of a comma of a selector list, and
one space or a line break behind it. A space in front of a pseudo-class changes what is selected,
so it is reported and left alone.
-/

namespace SheetLint.SelectorSpacing

/-- The finding for a brace without exactly one space in front of it. -/
def braceFinding (space : List Token) (brace : Token) : List Finding :=
  if Tokens.isOneSpace space then []
  else
    [{ span := brace.span
       message := "Expected one space before `\x7b`"
       fix := some ⟨"Put one space before `\x7b`", [.replaceRun space brace.start [' ']]⟩ }]

/-- The finding for a space in front of a comma. -/
def spaceBeforeComma (before : Option Token) : List Finding :=
  match before with
  | some t =>
    if t.isWhitespace then
      [{ span := t.span
         message := "Unexpected whitespace before `,`"
         fix := some (.replace "Remove whitespace before `,`" t.start t.stop []) }]
    else []
  | none => []

/-- The finding for a comma without one space or a line break behind it. -/
def spaceAfterComma (comma after : Token) : List Finding :=
  let finding (span : Span) (edit : Edit) : Finding :=
    { span, message := "Expected one space after `,`", fix := some ⟨"Put one space after `,`", [edit]⟩ }
  if after.isWhitespace then
    if after.text == [' '] || after.text.has '\n' then []
    else [finding after.span ⟨after.start, after.stop, [' ']⟩]
  else [finding comma.span (.insert comma.stop [' '])]

/-- The findings for the top-level commas among tokens, of which the last one is no trivia; a comma
that is the last token ends the list and is left alone. -/
def commaFindings (depth : Nat) (before : Option Token) : List Token → List Finding
  | [] => []
  | [_] => []
  | t :: next :: rest =>
    (if depth = 0 && t.isPunct ',' then spaceBeforeComma before ++ spaceAfterComma t next else [])
      ++ commaFindings (Tokens.bracketDepth depth t) (some t) (next :: rest)

/-- The findings for spaces in front of a pseudo-class. -/
def pseudoFindings : List Token → List Finding
  | before :: space :: colon :: rest =>
    (if colon.isPunct ':' && space.isWhitespace
        && !(before.kind == .combinator || before.isPunct ',' || before.isPunct ':') then
      [{ span := space.span, message := "Unexpected whitespace before pseudo-selector `:`" }]
    else [])
      ++ pseudoFindings (space :: colon :: rest)
  | _ => []

/-- The findings for the head of a block. -/
def headFindings (head : Head) (opening : Token) : List Finding :=
  match head with
  | .ruleSet selectors =>
    braceFinding (Tokens.takeEndWhile Token.isWhitespace selectors) opening
      ++ commaFindings 0 none (Tokens.dropEndWhile Token.isTrivia selectors)
      ++ pseudoFindings selectors
  | .atRule _ prelude => braceFinding (Tokens.takeEndWhile Token.isWhitespace prelude) opening

/-- Finds heads of blocks that are not spaced as they should be. -/
def check : Check := fun _ sheet =>
  sheet.nodes.flatMap fun
    | .block _ _ _ head opening _ _ _ => headFindings head opening
    | .statement _ _ _ => []

/-- The rule, which has no options. -/
def entry : RuleEntry where
  info := ⟨"SL002", "selector-spacing", "Requires one space before `\x7b` and after selector commas",
    .warning, true⟩
  options := []
  read _ := .ok check

end SheetLint.SelectorSpacing
