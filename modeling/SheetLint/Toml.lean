import SheetLint.Toml.Scalar
import SheetLint.Toml.Tables

/-!
# TOML documents

A document is a list of lines: a table header, a header of an array of tables, a key with its
value, or nothing, each with an optional comment. Values nest at most 79 deep, and a key has at
most 79 parts. A document that breaks a rule of the format has no value at all.
-/

namespace SheetLint.Toml

/-- Greatest number of values around a value, and of parts of a key. -/
def maxDepth : Nat := 79

/-! ## Blanks and comments -/

/-- The text without spaces and tabs in front. -/
def skipSpaces (t : List Char) : List Char := t.dropWhile fun c => c == ' ' || c == '\t'

/-- The text without blanks, line breaks and comments in front; `inComment` stands for being
inside a comment. -/
def skipBlanks (inComment : Bool) : List Char → List Char
  | [] => []
  | '\n' :: r => skipBlanks false r
  | '\r' :: '\n' :: r => skipBlanks false r
  | c :: r =>
    if inComment then if isPlain c then skipBlanks true r else c :: r
    else if c == ' ' || c == '\t' then skipBlanks false r
    else if c == '#' then skipBlanks true r
    else c :: r

/-- What follows the end of a line, in front of which a comment may stand. -/
def endOfLine? (t : List Char) : Option (List Char) :=
  let t := skipSpaces t
  let t := match t with
    | '#' :: r => r.dropWhile isPlain
    | _ => t
  match t with
  | [] => some []
  | '\n' :: r => some r
  | '\r' :: '\n' :: r => some r
  | _ => none

/-! ## Keys -/

/-- Whether a character may stand in a bare key. -/
def isKeyChar (c : Char) : Bool := c.isAlphanum || c == '_' || c == '-'

/-- A key without dots. -/
def simpleKey? (t : List Char) : Option (String × List Char) :=
  match t with
  | '"' :: r => (basic? r).map fun (key, r) => (String.ofList key, r)
  | '\'' :: r => (literal? r).map fun (key, r) => (String.ofList key, r)
  | _ =>
    match t.span isKeyChar with
    | ([], _) => none
    | (key, r) => some (String.ofList key, r)

/-- A key with its dots. Every round reads at least one character, of which there are `fuel`. -/
def keyWith? : Nat → List Char → Option (List String × List Char)
  | 0, _ => none
  | fuel + 1, t => do
    let (key, r) ← simpleKey? (skipSpaces t)
    match skipSpaces r with
    | '.' :: r =>
      let (keys, r) ← keyWith? fuel r
      return (key :: keys, r)
    | r => return ([key], r)

/-- A key with its dots, and the spaces behind it. -/
def key? (t : List Char) : Option (List String × List Char) :=
  (keyWith? (t.length + 1) t).filter fun (keys, _) => keys.length ≤ maxDepth

/-! ## Values -/

mutual
/-- A value at the front, with at most `depth` values inside each other. -/
def value? (depth : Nat) (t : List Char) : Option (ConfigValue × List Char) :=
  match t, depth with
  | '[' :: _, 0 => none
  | '\x7b' :: _, 0 => none
  | '[' :: r, depth + 1 => (elements? depth r.length r).map fun (vs, r) => (.array vs, r)
  | '\x7b' :: r, depth + 1 =>
    match skipSpaces r with
    | '\x7d' :: r => some (.table [], r)
    | r => (pairs? depth r.length .empty r).map fun (b, r) => (b.root, r)
  | '"' :: _, _ => (quoted? t).map fun (s, r) => (.text (String.ofList s), r)
  | '\'' :: _, _ => (quoted? t).map fun (s, r) => (.text (String.ofList s), r)
  | _, _ =>
    let (w, r) := word t
    (ofWord? w).map fun v => (v, r)
termination_by (depth, 0)

/-- The elements of an array up to its closing bracket. -/
def elements? (depth fuel : Nat) (t : List Char) : Option (List ConfigValue × List Char) :=
  match skipBlanks false t with
  | ']' :: r => some ([], r)
  | t =>
    match fuel with
    | 0 => none
    | fuel + 1 => do
      let (v, r) ← value? depth t
      match skipBlanks false r with
      | ',' :: r =>
        let (vs, r) ← elements? depth fuel r
        return (v :: vs, r)
      | ']' :: r => return ([v], r)
      | _ => none
termination_by (depth, fuel + 1)

/-- The pairs of an inline table up to its closing brace, put into a table. -/
def pairs? (depth fuel : Nat) (b : Builder) (t : List Char) : Option (Builder × List Char) :=
  match fuel with
  | 0 => none
  | fuel + 1 => do
    let (keys, r) ← key? t
    let r ← expect? '=' r
    let (v, r) ← value? depth (skipSpaces r)
    let b ← b.set? keys v
    match skipSpaces r with
    | ',' :: r => pairs? depth fuel b r
    | '\x7d' :: r => return (b, r)
    | _ => none
termination_by (depth, fuel + 1)
end

/-! ## Documents -/

/-- Puts the lines of a document into a table. Every round reads at least one character, of which
there are `fuel`. -/
def lines? : Nat → Builder → List Char → Option ConfigValue
  | 0, b, t => if t.isEmpty then some b.root else none
  | fuel + 1, b, t =>
    match skipSpaces t with
    | [] => some b.root
    | '[' :: '[' :: r => do
      let (path, r) ← key? r
      let r ← expect? ']' r
      let r ← expect? ']' r
      lines? fuel (← b.element? path) (← endOfLine? r)
    | '[' :: r => do
      let (path, r) ← key? r
      let r ← expect? ']' r
      lines? fuel (← b.header? path) (← endOfLine? r)
    | c :: r => do
      if c = '#' || c = '\n' || c = '\r' then lines? fuel b (← endOfLine? (c :: r))
      else
        let (keys, r) ← key? (c :: r)
        let r ← expect? '=' r
        let (v, r) ← value? maxDepth (skipSpaces r)
        lines? fuel (← b.set? keys v) (← endOfLine? r)

/-- The table of a document. A byte order mark in front of it does not count. -/
def document? (t : List Char) : Option ConfigValue :=
  let t := match t with
    | '\ufeff' :: r => r
    | _ => t
  lines? (t.length + 1) .empty t

end SheetLint.Toml
