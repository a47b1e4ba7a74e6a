import SheetLint.Position

/-!
# Tokens of a stylesheet

A token is a kind, its exact text and the span it covers. Whitespace and comments are tokens too
(*trivia*), so the texts of all tokens joined give the source back.
-/

namespace SheetLint

/-- What a token is. -/
inductive TokenKind where
  /-- `color`, `-webkit-box`, `--custom`. -/
  | ident
  /-- `@media`, `@include`. -/
  | atKeyword
  /-- `$name`. -/
  | variable
  /-- `#fff`, `#main`. -/
  | hash
  /-- A quoted string with its quotes. -/
  | string
  /-- A number with its unit. -/
  | number
  /-- An unquoted `url(...)`. -/
  | url
  /-- `#{...}` with balanced braces. -/
  | interpolation
  /-- One punctuation character. -/
  | punct
  /-- `>`, `+` or `~`. -/
  | combinator
  /-- `// ...` up to the line break. -/
  | lineComment
  /-- `/* ... */`. -/
  | blockComment
  /-- A run of spaces, tabs and line breaks. -/
  | whitespace
  /-- Text that fits no other kind. -/
  | error
deriving DecidableEq, Repr, Inhabited

/-- Why a token is an error. -/
inductive Malformed where
  | openString
  | openComment
  | openInterpolation
  | openUrl
  | strayCharacter
deriving DecidableEq, Repr

namespace Malformed

/-- The wording of the reason. -/
def message : Malformed → String
  | openString => "unterminated string"
  | openComment => "unterminated block comment"
  | openInterpolation => "unterminated interpolation"
  | openUrl => "unterminated url()"
  | strayCharacter => "unexpected character"

end Malformed

/-- A token with its exact text and place. -/
structure Token where
  kind : TokenKind
  text : Text
  span : Span
deriving DecidableEq, Repr, Inhabited

namespace Token

/-- Whether the token is a run of whitespace. -/
def isWhitespace (t : Token) : Bool := t.kind == .whitespace

/-- Whether the token is a comment of either form. -/
def isComment (t : Token) : Bool := t.kind == .lineComment || t.kind == .blockComment

/-- Whether the token is whitespace or a comment. -/
def isTrivia (t : Token) : Bool := t.isWhitespace || t.isComment

/-- Whether the token is the given punctuation character. -/
def isPunct (c : Char) (t : Token) : Bool := t.kind == .punct && t.text == [c]

/-- Whether the token opens a bracket that hides what is inside. -/
def isOpener (t : Token) : Bool := t.isPunct '(' || t.isPunct '['

/-- Whether the token closes such a bracket. -/
def isCloser (t : Token) : Bool := t.isPunct ')' || t.isPunct ']'

/-- Whether the token is the given identifier, in any letter case. -/
def isIdent (name : String) (t : Token) : Bool :=
  t.kind == .ident && t.text.eqIgnoreCase name.toList

/-- Byte offset of the first character. -/
def start (t : Token) : Nat := t.span.start.offset

/-- Byte offset behind the last character. -/
def stop (t : Token) : Nat := t.span.stop.offset

/-- The reason why an error token is one, read off the way its text starts. -/
def malformed (t : Token) : Malformed :=
  match t.text with
  | '"' :: _ => .openString
  | '\'' :: _ => .openString
  | '/' :: '*' :: _ => .openComment
  | '#' :: '\x7b' :: _ => .openInterpolation
  | text => if Text.eqIgnoreCase (text.take 4) "url(".toList then .openUrl else .strayCharacter

end Token

/-! ## Runs of tokens -/

namespace Tokens

/-- The texts of the tokens, joined. -/
def text (ts : List Token) : Text := ts.flatMap Token.text

/-- From the first character of the first token to the end of the last one. -/
def span? (ts : List Token) : Option Span :=
  match ts.head?, ts.getLast? with
  | some first, some last => some ⟨first.span.start, last.span.stop⟩
  | _, _ => none

/-- The tokens without those at the end that satisfy the test. -/
def dropEndWhile (p : Token → Bool) (ts : List Token) : List Token :=
  (ts.reverse.dropWhile p).reverse

/-- The tokens at the end that satisfy the test. -/
def takeEndWhile (p : Token → Bool) (ts : List Token) : List Token :=
  (ts.reverse.takeWhile p).reverse

/-- The tokens without the trivia around them. -/
def trim (ts : List Token) : List Token :=
  dropEndWhile Token.isTrivia (ts.dropWhile Token.isTrivia)

/-- Whether the run is one token that is a single space. -/
def isOneSpace (ts : List Token) : Bool :=
  match ts with
  | [t] => t.text == [' ']
  | _ => false

/-- The depth of brackets behind one more token. A closer at depth zero leaves it at zero. -/
def bracketDepth (depth : Nat) (t : Token) : Nat :=
  if t.isOpener then depth + 1 else if t.isCloser then depth - 1 else depth

/-- The depth of parentheses behind one more token. A closer at depth zero leaves it at zero. -/
def parenDepth (depth : Nat) (t : Token) : Nat :=
  if t.isPunct '(' then depth + 1 else if t.isPunct ')' then depth - 1 else depth

theorem dropEndWhile_append_takeEndWhile (p : Token → Bool) (ts : List Token) :
    dropEndWhile p ts ++ takeEndWhile p ts = ts := by
  unfold dropEndWhile takeEndWhile
  rw [← List.reverse_append, List.takeWhile_append_dropWhile, List.reverse_reverse]

@[simp] theorem text_nil : text [] = [] := rfl

@[simp] theorem text_cons (t : Token) (ts : List Token) : text (t :: ts) = t.text ++ text ts := by
  simp [text]

@[simp] theorem text_append (a b : List Token) : text (a ++ b) = text a ++ text b := by
  simp [text]

end Tokens

end SheetLint
