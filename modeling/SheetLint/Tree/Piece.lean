import SheetLint.Tree

/-!
# Pieces: a stylesheet cut at its braces and semicolons

The tokens of a source fall into *pieces*: a statement, the head of a block with its opening
brace, or a closing brace, each with the whitespace in front of it. Where a piece ends depends on
its own tokens only: at the first brace or semicolon outside parentheses and brackets. How pieces
nest is decided afterwards (`SheetLint.Tree.Parse`).
-/

namespace SheetLint

/-- What a piece is. -/
inductive PieceBody where
  | statement (s : Statement)
  | opening (head : Head) (brace : Token)
  | closing (brace : Token)
deriving Repr

namespace PieceBody

/-- The tokens in source order. -/
def tokens : PieceBody → List Token
  | statement s => s.tokens
  | opening head brace => head.tokens ++ [brace]
  | closing brace => [brace]

end PieceBody

/-- A piece and the whitespace in front of it. -/
structure Piece where
  leading : List Token
  body : PieceBody
deriving Repr

namespace Piece

/-- The tokens in source order. -/
def tokens (p : Piece) : List Token := p.leading ++ p.body.tokens

/-! ## Where a piece ends -/

/-- The tokens that end a statement outside parentheses and brackets. -/
def isTerminator (t : Token) : Bool :=
  t.isPunct '\x7b' || t.isPunct ';' || t.isPunct '\x7d'

/-- Number of tokens in front of the first terminator at depth zero, or of all tokens. -/
def lengthToTerminator (depth : Nat) : List Token → Nat
  | [] => 0
  | t :: ts =>
    if depth = 0 && isTerminator t then 0
    else lengthToTerminator (Tokens.bracketDepth depth t) ts + 1

/-- Cuts at the first colon at depth zero. -/
def cutAtColon? (depth : Nat) : List Token → Option (List Token × Token × List Token)
  | [] => none
  | t :: ts =>
    if depth = 0 && t.isPunct ':' then some ([], t, ts)
    else
      (cutAtColon? (Tokens.bracketDepth depth t) ts).map fun cut => (t :: cut.1, cut.2)

/-! ## Reading one piece -/

/-- The statement made of the tokens in front of a terminator other than an opening brace. A
semicolon belongs to the statement; without one the whitespace at the end does not, unless it
stands behind the colon of an empty value. -/
def statementOf (tokens : List Token) (semicolon : Option Token) : Statement :=
  let written := Tokens.dropEndWhile Token.isWhitespace tokens
  let skip (error : Option SyntaxError) : Statement :=
    match semicolon with
    | some s => .skipped (tokens ++ [s]) error
    | none => .skipped written error
  match cutAtColon? 0 tokens with
  | some (front, colon, back) =>
    let property := Tokens.dropEndWhile Token.isTrivia front
    if property = [] then skip (some ⟨.missingProperty, colon.span⟩)
    else
      let rest := back.dropWhile Token.isWhitespace
      .declaration {
        property
        beforeColon := Tokens.takeEndWhile Token.isTrivia front
        colon
        afterColon := back.takeWhile Token.isWhitespace
        value := Tokens.dropEndWhile Token.isWhitespace rest
        beforeSemicolon :=
          if semicolon.isSome then Tokens.takeEndWhile Token.isWhitespace rest else []
        semicolon }
  | none =>
    if tokens.any (·.kind == .error) then skip none
    else skip ((Tokens.span? written).map fun span => ⟨.expectedDeclaration, span⟩)

/-- The piece that starts with an at-keyword. -/
def ofAtRule (keyword : Token) (rest : List Token) : PieceBody :=
  let n := lengthToTerminator 0 rest
  let prelude := rest.take n
  match rest[n]? with
  | some t =>
    if t.isPunct '\x7b' then .opening (.atRule keyword prelude) t
    else if t.isPunct ';' then .statement (.atRule keyword prelude (some t))
    else .statement (.atRule keyword (Tokens.dropEndWhile Token.isWhitespace prelude) none)
  | none => .statement (.atRule keyword (Tokens.dropEndWhile Token.isWhitespace prelude) none)

/-- The piece that starts with a token of no special role. -/
def ofStatement (first : Token) (rest : List Token) : PieceBody :=
  let n := lengthToTerminator 0 (first :: rest)
  let tokens := (first :: rest).take n
  match (first :: rest)[n]? with
  | some t =>
    if t.isPunct '\x7b' then .opening (.ruleSet tokens) t
    else if t.isPunct ';' then .statement (statementOf tokens (some t))
    else .statement (statementOf tokens none)
  | none => .statement (statementOf tokens none)

/-- The piece that starts with `first`, a token other than whitespace, in front of `rest`. -/
def read (first : Token) (rest : List Token) : PieceBody :=
  if first.isPunct '\x7d' then .closing first
  else if first.isComment then .statement (.comment first)
  else if first.isPunct ';' then .statement (.empty first)
  else if first.kind == .atKeyword then ofAtRule first rest
  else ofStatement first rest

/-! ## All pieces -/

theorem length_dropWhile_le {α : Type} (p : α → Bool) (l : List α) :
    (l.dropWhile p).length ≤ l.length :=
  (List.dropWhile_sublist p).length_le

/-- The pieces of a run of tokens, and the whitespace behind the last one. -/
def split (tokens : List Token) : List Piece × List Token :=
  let leading := tokens.takeWhile Token.isWhitespace
  match h : tokens.dropWhile Token.isWhitespace with
  | [] => ([], leading)
  | first :: rest =>
    let body := read first rest
    let more := split (rest.drop (body.tokens.length - 1))
    (⟨leading, body⟩ :: more.1, more.2)
termination_by tokens.length
decreasing_by
  have := length_dropWhile_le Token.isWhitespace tokens
  simp [h] at this
  simp
  omega

end Piece

end SheetLint
