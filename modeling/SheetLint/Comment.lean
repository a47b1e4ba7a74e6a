import SheetLint.Text.Blank
import SheetLint.Text.Split

/-!
# What a comment says

The body of a comment is its text without the marks around it. A heading is a comment with a
banner line, a line made of three or more of one ruling character.
-/

namespace SheetLint.Comment

/-- The text without `//` in front, or without `/*` in front and `*/` behind; other texts are
bodies themselves. -/
def body (t : Text) : Text :=
  match t with
  | '/' :: '/' :: rest => rest
  | '/' :: '*' :: rest => (Text.stripEnd? ['*', '/'] rest).getD rest
  | _ => t

/-- The characters that rule a banner. -/
def rulingChars : List Char := ['=', '-', '*', '#', '~', '/']

/-- Whether the line, trimmed, is a run of three or more of one ruling character. -/
def isBanner (line : Text) : Bool :=
  match Text.trim line with
  | [] => false
  | c :: cs => rulingChars.contains c && 2 ≤ cs.length && cs.all (· == c)

/-- Whether a comment has a banner line. -/
def isHeading (t : Text) : Bool := (Text.lines (body t)).any isBanner

end SheetLint.Comment
