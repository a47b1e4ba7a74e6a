import SheetLint.Rule
import SheetLint.Value

/-!
# The shortest form of box values

A box value gives top, right, bottom and left. A missing right is the top, a missing bottom the
top, a missing left the right, so values at the end that repeat these can be dropped.
-/

namespace SheetLint.ShorthandValues

/-- The properties whose values follow the box rule. -/
def boxProperties : List String :=
  ["margin", "padding", "border-width", "border-style", "border-color", "border-radius", "inset",
    "scroll-margin", "scroll-padding"]

/-- Drops the last of two values when it repeats the first. -/
def shortenTwo (parts : List Text) : List Text :=
  match parts with
  | [a, b] => if Text.eqIgnoreCase b a then [a] else parts
  | _ => parts

/-- Drops the last of three values when it repeats the first. -/
def shortenThree (parts : List Text) : List Text :=
  match parts with
  | [a, b, c] => if Text.eqIgnoreCase c a then shortenTwo [a, b] else parts
  | _ => shortenTwo parts

/-- The shortest values with the same meaning as up to four values. -/
def shorten (parts : List Text) : List Text :=
  match parts with
  | [a, b, c, d] => if Text.eqIgnoreCase d b then shortenThree [a, b, c] else parts
  | _ => shortenThree parts

/-- Whether a value holds something that gives its parts another meaning. -/
def hasMarks (tokens : List Token) : Bool :=
  tokens.any fun t => t.isComment || t.isPunct '!' || t.isPunct ',' || t.isPunct '/'

/-- The texts joined by single spaces. -/
def joinSpaced (parts : List Text) : Text := List.intercalate [' '] parts

/-- The finding for a declaration with a box value that can be shortened. -/
def declarationFindings (d : Declaration) : List Finding :=
  let parts := (Tokens.parts d.value).map Tokens.text
  let shorter := shorten parts
  if boxProperties.contains (String.ofList d.normalizedName) && !hasMarks d.value
      && 2 ≤ parts.length && parts.length ≤ 4 && shorter.length < parts.length then
    match Tokens.span? d.value with
    | some span =>
      let wanted := joinSpaced shorter
      let name := String.ofList d.name
      [{ span
         message := "`" ++ name ++ ": " ++ String.ofList (Tokens.text d.value)
           ++ "` can be written as `" ++ name ++ ": " ++ String.ofList wanted ++ "`"
         fix := some (.replace ("Shorten to " ++ Text.quoted wanted) span.start.offset
           span.stop.offset wanted) }]
    | none => []
  else []

/-- Finds box values that can be shortened. -/
def check : Check := fun _ sheet => sheet.declarations.flatMap declarationFindings

/-- The rule, which has no options. -/
def entry : RuleEntry where
  info := ⟨"SL014", "shorthand-values",
    "Requires the shortest equivalent form of box shorthand values", .warning, true⟩
  options := []
  read _ := .ok check

end SheetLint.ShorthandValues
