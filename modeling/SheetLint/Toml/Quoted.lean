/-!
# Quoted texts in TOML

A basic text stands between double quotes and knows escapes, a literal text stands between single
quotes and knows none. Both have a form between tripled quotes that may run over several lines.
Each reader starts behind the opening quotes and returns the text and what follows the closing
quotes.
-/

namespace SheetLint.Toml

/-- The characters that texts and comments may hold: all but control characters, tab excepted. -/
def isPlain (c : Char) : Bool := c == '\t' || (0x20 ≤ c.toNat && c.toNat != 0x7f)

/-- The value of a hexadecimal digit. -/
def hexDigit? (c : Char) : Option Nat :=
  if c.isDigit then some (c.toNat - '0'.toNat)
  else if 'a' ≤ c && c ≤ 'f' then some (c.toNat - 'a'.toNat + 10)
  else if 'A' ≤ c && c ≤ 'F' then some (c.toNat - 'A'.toNat + 10)
  else none

/-- The character with a hexadecimal code point; surrogates are no characters. -/
def charOfHex? (digits : List Char) : Option Char := do
  let values ← digits.mapM hexDigit?
  let n := values.foldl (fun n d => 16 * n + d) 0
  if n.isValidChar then some (Char.ofNat n) else none

/-- The character that a one-letter escape stands for. -/
def escape? : Char → Option Char
  | 'b' => some '\x08'
  | 't' => some '\t'
  | 'n' => some '\n'
  | 'f' => some '\x0c'
  | 'r' => some '\r'
  | '"' => some '"'
  | '\\' => some '\\'
  | _ => none

/-- Puts a character in front of the text of a reading. -/
def consChar (c : Char) (reading : List Char × List Char) : List Char × List Char :=
  (c :: reading.1, reading.2)

/-- A basic text on one line. -/
def basic? : List Char → Option (List Char × List Char)
  | [] => none
  | '"' :: r => some ([], r)
  | '\\' :: 'u' :: a :: b :: c :: d :: r => do
    let ch ← charOfHex? [a, b, c, d]
    return consChar ch (← basic? r)
  | '\\' :: 'U' :: a :: b :: c :: d :: e :: f :: g :: h :: r => do
    let ch ← charOfHex? [a, b, c, d, e, f, g, h]
    return consChar ch (← basic? r)
  | '\\' :: c :: r => do
    let ch ← escape? c
    return consChar ch (← basic? r)
  | c :: r => if isPlain c then (basic? r).map (consChar c) else none

/-- A literal text on one line. -/
def literal? : List Char → Option (List Char × List Char)
  | [] => none
  | '\'' :: r => some ([], r)
  | c :: r => if isPlain c then (literal? r).map (consChar c) else none

/-- Whether only spaces and tabs stand in front of the next line break. -/
def endsLine (t : List Char) : Bool :=
  match t.dropWhile fun c => c == ' ' || c == '\t' with
  | '\n' :: _ => true
  | '\r' :: '\n' :: _ => true
  | _ => false

/-- A basic text over several lines. Up to two quotes may stand in front of the closing ones. A
backslash at the end of a line skips the blanks behind it, which `skipping` stands for. -/
def multilineBasic? (skipping : Bool) : List Char → Option (List Char × List Char)
  | [] => none
  | '"' :: '"' :: '"' :: '"' :: '"' :: r => some (['"', '"'], r)
  | '"' :: '"' :: '"' :: '"' :: r => some (['"'], r)
  | '"' :: '"' :: '"' :: r => some ([], r)
  | '\r' :: '\n' :: r =>
    if skipping then multilineBasic? true r else (multilineBasic? false r).map (consChar '\n')
  | '\\' :: 'u' :: a :: b :: c :: d :: r => do
    let ch ← charOfHex? [a, b, c, d]
    return consChar ch (← multilineBasic? false r)
  | '\\' :: 'U' :: a :: b :: c :: d :: e :: f :: g :: h :: r => do
    let ch ← charOfHex? [a, b, c, d, e, f, g, h]
    return consChar ch (← multilineBasic? false r)
  | '\\' :: c :: r =>
    if endsLine (c :: r) then
      if c == '\r' || c == ' ' || c == '\t' || c == '\n' then multilineBasic? true r else none
    else do
      let ch ← escape? c
      return consChar ch (← multilineBasic? false r)
  | c :: r =>
    if skipping && (c == ' ' || c == '\t' || c == '\n') then multilineBasic? true r
    else if c == '\n' || isPlain c then (multilineBasic? false r).map (consChar c)
    else none

/-- A literal text over several lines. Up to two quotes may stand in front of the closing ones. -/
def multilineLiteral? : List Char → Option (List Char × List Char)
  | [] => none
  | '\'' :: '\'' :: '\'' :: '\'' :: '\'' :: r => some (['\'', '\''], r)
  | '\'' :: '\'' :: '\'' :: '\'' :: r => some (['\''], r)
  | '\'' :: '\'' :: '\'' :: r => some ([], r)
  | '\r' :: '\n' :: r => (multilineLiteral? r).map (consChar '\n')
  | c :: r =>
    if c == '\n' || isPlain c then (multilineLiteral? r).map (consChar c) else none

/-- The text without a line break at its very start. -/
def dropFirstBreak : List Char → List Char
  | '\n' :: r => r
  | '\r' :: '\n' :: r => r
  | t => t

/-- A quoted text of any of the four forms, from its opening quotes on. -/
def quoted? : List Char → Option (List Char × List Char)
  | '"' :: '"' :: '"' :: r => multilineBasic? false (dropFirstBreak r)
  | '\'' :: '\'' :: '\'' :: r => multilineLiteral? (dropFirstBreak r)
  | '"' :: r => basic? r
  | '\'' :: r => literal? r
  | _ => none

end SheetLint.Toml
