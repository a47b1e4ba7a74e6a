import SheetLint.Rule
import SheetLint.Value

/-!
# The form of color literals

A hex color is written in one letter case, and with three digits where each of its six repeats. A
color with an alpha channel is written as `rgba` of a hex color, not with integer channels and not
as a hex color of four or eight digits.
-/

namespace SheetLint.ColorLiteral

/-- The letter case of hex digits. -/
inductive HexCase where
  | lower
  | upper
deriving DecidableEq, Repr

/-- The options of the rule. -/
structure Options where
  case : HexCase := .lower
  shorthand : Bool := true

/-- The form of a hex color with these digits. -/
def canonical (o : Options) (digits : Text) : Text :=
  let digits := match o.case with
    | .lower => digits.map Char.toLower
    | .upper => digits.map Char.toUpper
  match digits with
  | [r, r', g, g', b, b'] =>
    if o.shorthand && r = r' && g = g' && b = b' then ['#', r, g, b] else '#' :: digits
  | _ => '#' :: digits

/-- The finding for a hash token that is a hex color in another form. -/
def hexFinding (o : Options) (t : Token) : List Finding :=
  let digits := t.text.drop 1
  if t.kind == .hash && digits.all isHexDigit then
    if digits.length = 3 || digits.length = 6 then
      let wanted := canonical o digits
      if wanted = t.text then []
      else
        [{ span := t.span
           message := "Expected " ++ Text.quoted wanted ++ " instead of " ++ Text.quoted t.text
           fix := some (.replace ("Use " ++ Text.quoted wanted) t.start t.stop wanted) }]
    else if digits.length = 4 || digits.length = 8 then
      [{ span := t.span
         message := "Color " ++ Text.quoted t.text
           ++ " has an alpha channel; use `rgba(#hex, alpha)` instead" }]
    else []
  else []

/-- The channel that an argument gives as an integer from 0 to 255 without unit. -/
def channel? (arg : List Token) : Option Nat :=
  match arg with
  | [t] =>
    if t.kind == .number then
      (Number.ofText? t.text).bind fun n =>
        if n.unit = [] then (List.range 256).find? fun k => n.value == Float.ofNat k else none
    else none
  | _ => none

/-- Red, green, blue and the text of alpha, where the channels are integers. -/
def channels? (args : List (List Token)) : Option (List Nat × Text) :=
  match args with
  | [r, g, b, alpha] => do
    let channels ← [r, g, b].mapM channel?
    if alpha = [] then none else return (channels, Tokens.text alpha)
  | _ => none

/-- The digit of a number below 16. -/
def hexDigit (n : Nat) : Char := Nat.digitChar (n % 16)

/-- The two digits of a channel. -/
def hexPair (n : Nat) : Text := [hexDigit (n / 16), hexDigit n]

/-- The finding for a call of `rgba` with integer channels. -/
def callFinding (o : Options) (tokens : List Token) (call : Call) : List Finding :=
  if call.lowerName = "rgba".toList then
    match call.close.bind (tokens[·]?), channels? (call.args tokens) with
    | some close, some (channels, alpha) =>
      let wanted := "rgba(".toList ++ canonical o (channels.flatMap hexPair) ++ ", ".toList ++ alpha
        ++ [')']
      let span : Span := ⟨call.name.span.start, close.span.stop⟩
      [{ span
         message := "Expected " ++ Text.quoted wanted ++ " instead of integer channels"
         fix := some (.replace ("Use " ++ Text.quoted wanted) span.start.offset span.stop.offset
           wanted) }]
    | _, _ => []
  else []

/-- The findings for a run of tokens in which colors may stand. -/
def runFindings (o : Options) (tokens : List Token) : List Finding :=
  tokens.flatMap (hexFinding o) ++ (Call.find tokens).flatMap (callFinding o tokens)

/-- The at-rules whose prelude is a selector, in which a hash is an id. -/
def selectorAtRules : List Text := ["extend".toList, "at-root".toList]

/-- The tokens of a node among which colors may stand. -/
def colorTokens (n : Node) : List Token :=
  match n.declaration?, n.atRule? with
  | some d, _ => d.value
  | none, some (keyword, prelude) =>
    if selectorAtRules.contains (atRuleName keyword) then [] else prelude
  | none, none => []

/-- Finds colors in another form. -/
def check (o : Options) : Check := fun _ sheet =>
  sheet.nodes.flatMap fun n => runFindings o (colorTokens n)

/-- The rule and its options. -/
def entry : RuleEntry where
  info := ⟨"SL003", "color-literal",
    "Requires lowercase, shortest hex colors and `rgba(#hex, alpha)` for alpha", .warning, true⟩
  options := ["case", "shorthand"]
  read o := do
    let case ← o.choice "case" .lower [("lower", HexCase.lower), ("upper", .upper)]
    let shorthand ← o.boolean "shorthand" true
    return check ⟨case, shorthand⟩

end SheetLint.ColorLiteral
