import SheetLint.Text.Split
import SheetLint.Value.Call
import SheetLint.Value.Number

/-!
# What a value is made of

Views of the tokens of a value: its space-separated parts, its hex colors and its `!important`
mark. Numbers and calls have modules of their own.
-/

namespace SheetLint

namespace Tokens

/-- The parts of a value: what stands between the trivia outside parentheses. -/
def parts (ts : List Token) : List (List Token) :=
  (segments parenDepth Token.isTrivia 0 ts).filter (· ≠ [])

/-- The span of the first `!important`, whitespace allowed inside it. A `!` with nothing but
whitespace behind it ends the search. -/
def important? : List Token → Option Span
  | [] => none
  | t :: ts =>
    if t.isPunct '!' then
      match (ts.dropWhile Token.isWhitespace).head? with
      | none => none
      | some next =>
        if next.isIdent "important" then some ⟨t.span.start, next.span.stop⟩ else important? ts
    else important? ts

end Tokens

/-- Whether the character is a hexadecimal digit. -/
def isHexDigit (c : Char) : Bool :=
  c.isDigit || ('a' ≤ c && c ≤ 'f') || ('A' ≤ c && c ≤ 'F')

/-- Whether a text is `#` and 3, 4, 6 or 8 hexadecimal digits. -/
def isHexColor : Text → Bool
  | '#' :: digits => [3, 4, 6, 8].contains digits.length && digits.all isHexDigit
  | _ => false

/-- The tokens of a value that are hex colors. -/
def Tokens.hexColors (ts : List Token) : List Token :=
  ts.filter fun t => t.kind == .hash && isHexColor t.text

end SheetLint
