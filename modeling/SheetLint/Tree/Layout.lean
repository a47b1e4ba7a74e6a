import SheetLint.Tree

/-!
# Line breaks and indentation

The whitespace in front of a node tells whether the node starts a line, how many line breaks stand
in front of it and how it is indented.
-/

namespace SheetLint

namespace Tokens

/-- Whether the run holds whitespace with a line break. -/
def hasLineBreak (ts : List Token) : Bool := ts.any fun t => t.isWhitespace && t.text.has '\n'

/-- Number of line breaks in the whitespace of the run. -/
def lineBreaks (ts : List Token) : Nat :=
  ((ts.filter Token.isWhitespace).flatMap Token.text).count '\n'

end Tokens

/-- What stands between the last line break in front of a node and the node. -/
structure Indent where
  text : Text
  span : Span

namespace Indent

/-- The text behind the last line feed. -/
def lastLine (t : Text) : Text := (t.reverse.takeWhile (· != '\n')).reverse

/-- The indentation at the end of a run of trivia; `none` when the run holds no line break. -/
def ofTrivia? (trivia : List Token) : Option Indent :=
  (trivia.reverse.find? fun t => t.isWhitespace && t.text.has '\n').map fun t =>
    let text := lastLine t.text
    ⟨text, ⟨⟨t.stop - Text.size text, t.span.stop.line, 1⟩, t.span.stop⟩⟩

end Indent

namespace Node

/-- Whether the node is the first on its line. -/
def startsLine (n : Node) : Bool := Tokens.hasLineBreak n.leading

end Node

end SheetLint
