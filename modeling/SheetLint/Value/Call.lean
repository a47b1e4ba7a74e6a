import SheetLint.Token.Split

/-!
# Function calls in values

A call is an identifier with an opening parenthesis right behind it. Calls are found by index in
the run of tokens, nested ones included, in the order of their names.
-/

namespace SheetLint

/-- A call: the index of its name, the name token, and the index of the closing parenthesis if the
call is closed. The opening parenthesis stands at the index behind the name. -/
structure Call where
  index : Nat
  name : Token
  close : Option Nat
deriving DecidableEq, Repr

namespace Call

/-- The index of the opening parenthesis. -/
def opening (c : Call) : Nat := c.index + 1

/-- Number of tokens in front of the parenthesis that closes a call, `depth` being the number of
parentheses opened inside it; `none` when the call is not closed. -/
def lengthToClose? (depth : Nat) : List Token → Option Nat
  | [] => none
  | t :: ts =>
    if t.isPunct '(' then (lengthToClose? (depth + 1) ts).map (· + 1)
    else if t.isPunct ')' then
      match depth with
      | 0 => some 0
      | d + 1 => (lengthToClose? d ts).map (· + 1)
    else (lengthToClose? depth ts).map (· + 1)

/-- The calls among tokens of which the first has index `i`. -/
def findFrom (i : Nat) : List Token → List Call
  | [] => []
  | [_] => []
  | name :: paren :: rest =>
    let later := findFrom (i + 1) (paren :: rest)
    if name.kind == .ident && paren.isPunct '(' && paren.start == name.stop then
      ⟨i, name, (lengthToClose? 0 rest).map (i + 2 + ·)⟩ :: later
    else later

/-- The calls among the tokens. -/
def find (ts : List Token) : List Call := findFrom 0 ts

/-- The name in lower case. -/
def lowerName (c : Call) : Text := c.name.text.lower

/-- Whether the token at the index stands between the parentheses. -/
def contains (c : Call) (i : Nat) : Bool :=
  c.opening < i && (match c.close with | some close => i < close | none => true)

/-- The tokens between the parentheses, up to the end for an open call. -/
def inside (c : Call) (ts : List Token) : List Token :=
  (ts.take (c.close.getD ts.length)).drop (c.opening + 1)

/-- The arguments: what stands between the top-level commas, without the trivia around it. A call
with nothing but trivia inside has none. -/
def args (c : Call) (ts : List Token) : List (List Token) :=
  match (Tokens.segments Tokens.parenDepth (·.isPunct ',') 0 (c.inside ts)).map Tokens.trim with
  | [[]] => []
  | parts => parts

end Call

end SheetLint
