import SheetLint.Rule

/-!
# The quotes around strings

Strings stand between the preferred quotes, unless the preferred quote occurs inside.
-/

namespace SheetLint.QuoteStyle

/-- A kind of quotes. -/
inductive Quote where
  | single
  | double
deriving DecidableEq, Repr

namespace Quote

/-- The character. -/
def char : Quote → Char
  | single => '\''
  | double => '"'

/-- The word for it. -/
def word : Quote → String
  | single => "single"
  | double => "double"

end Quote

/-- The finding for a string between other quotes. -/
def stringFinding (preferred : Quote) (t : Token) : List Finding :=
  let content := (t.text.drop 1).dropLast
  if t.kind == .string && t.text.head? != some preferred.char && !content.contains preferred.char then
    [{ span := t.span
       message := "Strings should use " ++ preferred.word ++ " quotes"
       fix := some (.replace ("Use " ++ preferred.word ++ " quotes") t.start t.stop
         (preferred.char :: content ++ [preferred.char])) }]
  else []

/-- Finds strings between other quotes. -/
def check (preferred : Quote) : Check := fun _ sheet =>
  sheet.tokens.flatMap (stringFinding preferred)

/-- The rule and its options. -/
def entry : RuleEntry where
  info := ⟨"SL004", "quote-style", "Requires the configured quote character for strings", .warning,
    true⟩
  options := ["style"]
  read o := do
    let quote ← o.choice "style" .single [("single", Quote.single), ("double", .double)]
    return check quote

end SheetLint.QuoteStyle
