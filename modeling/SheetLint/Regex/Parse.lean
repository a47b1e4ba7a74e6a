import SheetLint.Regex.CharClass
import SheetLint.Regex.Size
import SheetLint.Text.Blank

/-!
# Reading regular expressions

The written form knows literals, `.`, character classes with ranges, nested classes and set
operations, groups, alternation, the anchors `^` and `$`, boundaries, the quantifiers `*`, `+`,
`?` and counted ones, each with an optional `?` behind it, and escapes. The classes behind a
backslash are those of ASCII. Look-around, back-references and flags are not part of it.

An expression may nest up to a limit, where each group, quantifier, class, sequence and choice is a
level, and the program that it needs may not be too large.
-/

namespace SheetLint.Regex

/-- An expression as it was read, and how deep it nests. -/
structure Reading where
  regex : Regex
  depth : Nat
deriving Inhabited

namespace Reading

/-- An expression without parts. -/
def leaf (r : Regex) : Reading := ⟨r, 0⟩

/-- Several expressions put together; one alone stays as it is. -/
def joined (f : List Regex → Regex) : List Reading → Reading
  | [] => ⟨f [], 0⟩
  | [x] => x
  | xs => ⟨f (xs.map regex), (xs.map depth).foldl max 0 + 1⟩

end Reading

/-- What is left to read, and the names of the groups read so far. -/
structure Cursor where
  rest : Text
  names : List Text

/-! ## Quantifiers -/

/-- A number of 32 bits, with blanks around it. -/
def count? (t : Text) : Option (Nat × Text) :=
  match (t.dropWhile Text.isBlank).span Char.isDigit with
  | ([], _) => none
  | (ds, r) =>
    let n := ds.foldl (fun n c => 10 * n + (c.toNat - '0'.toNat)) 0
    if n < 0x100000000 then some (n, r.dropWhile Text.isBlank) else none

/-- Reads a counted quantifier behind its opening brace. -/
def counted? (t : Text) : Option ((Nat × Option Nat) × Text) := do
  let (least, r) ← count? t
  match r with
  | '\x7d' :: r => return ((least, some least), r)
  | ',' :: '\x7d' :: r => return ((least, none), r)
  | ',' :: r =>
    let (most, r) ← count? r
    match r with
    | '\x7d' :: r => if least ≤ most then return ((least, some most), r) else none
    | _ => none
  | _ => none

/-- Reads a quantifier: none, a broken one, or one with its bounds. -/
def quantifier? : Text → Option (Option ((Nat × Option Nat) × Text))
  | '*' :: r => some (some ((0, none), r))
  | '+' :: r => some (some ((1, none), r))
  | '?' :: r => some (some ((0, some 1), r))
  | '\x7b' :: r => (counted? r).map some
  | _ => some none

/-- The text without the question mark that makes a quantifier prefer short matches; whether a
match exists does not depend on it. -/
def dropLazy : Text → Text
  | '?' :: r => r
  | t => t

/-- Reads the quantifiers behind an expression. -/
def quantified? : Nat → Reading → Text → Option (Reading × Text)
  | 0, _, _ => none
  | fuel + 1, x, t =>
    match quantifier? t with
    | none => none
    | some none => some (x, t)
    | some (some ((least, most), rest)) =>
      quantified? fuel ⟨repeating x.regex least most, x.depth + 1⟩ (dropLazy rest)

/-! ## Groups and alternatives -/

/-- Reads the name of a group up to `>`. -/
def groupName? (c : Cursor) : Option Cursor :=
  match c.rest.span (· != '>') with
  | (name, _ :: r) =>
    let isStart (x : Char) : Bool := x.isAlpha || x == '_'
    let isRest (x : Char) : Bool := isStart x || x.isDigit || x == '.' || x == '[' || x == ']'
    match name with
    | [] => none
    | x :: xs =>
      if isStart x && xs.all isRest && !c.names.contains name then some ⟨r, name :: c.names⟩ else none
  | _ => none

/-- Reads what makes a group special behind its parenthesis: a name, or `?:` for a group that is
not remembered. -/
def groupStart? (c : Cursor) : Option (Bool × Cursor) :=
  match c.rest with
  | '?' :: ':' :: r => some (false, { c with rest := r })
  | '?' :: 'P' :: '<' :: r => (groupName? { c with rest := r }).map (true, ·)
  | '?' :: '<' :: r => (groupName? { c with rest := r }).map (true, ·)
  | '?' :: _ => none
  | _ => some (true, c)

/-- All characters but the line feed. -/
def notLineFeed : CharSet := (CharSet.ofChar '\n').complement

/-- The expression of an escape. -/
def ofEscape : Escape → Regex
  | .char c => literal [c]
  | .set s => ofSet s
  | .wordStart => wordStart
  | .wordEnd => wordEnd
  | .boundary wanted => boundary wanted

mutual
/-- Reads alternatives up to a closing parenthesis or the end. -/
def alternatives? : Nat → Cursor → Option (List Reading × Cursor)
  | 0, _ => none
  | fuel + 1, c => do
    let (first, c) ← sequence? fuel c
    let first := Reading.joined sequence first
    match c.rest with
    | '|' :: r =>
      let (others, c) ← alternatives? fuel { c with rest := r }
      return (first :: others, c)
    | _ => return ([first], c)

/-- Reads the expressions of one alternative. -/
def sequence? : Nat → Cursor → Option (List Reading × Cursor)
  | 0, _ => none
  | fuel + 1, c =>
    match c.rest with
    | [] => some ([], c)
    | '|' :: _ => some ([], c)
    | ')' :: _ => some ([], c)
    | _ => do
      let (x, c) ← atom? fuel c
      let (x, rest) ← quantified? (c.rest.length + 1) x c.rest
      let (xs, c) ← sequence? fuel { c with rest }
      return (x :: xs, c)

/-- Reads one expression without the quantifiers behind it. -/
def atom? : Nat → Cursor → Option (Reading × Cursor)
  | 0, _ => none
  | fuel + 1, c =>
    match c.rest with
    | [] => none
    | '(' :: r => do
      let (isRemembered, c) ← groupStart? { c with rest := r }
      let (inner, c) ← alternatives? fuel c
      let x := Reading.joined choose inner
      match c.rest with
      | ')' :: r =>
        return (⟨if isRemembered then group x.regex else x.regex, x.depth + 1⟩, { c with rest := r })
      | _ => none
    | '[' :: r =>
      (charClass? (2 * r.length + 2) r).map fun (x, r) => (⟨ofSet x.set, x.depth⟩, { c with rest := r })
    | '.' :: r => some (.leaf (ofSet notLineFeed), { c with rest := r })
    | '^' :: r => some (.leaf wordStart, { c with rest := r })
    | '$' :: r => some (.leaf wordEnd, { c with rest := r })
    | '\\' :: r => (escape? r).map fun (e, r) => (.leaf (ofEscape e), { c with rest := r })
    | x :: r =>
      if x = '*' || x = '+' || x = '?' || x = '\x7b' then none
      else some (.leaf (literal [x]), { c with rest := r })
end

/-! ## Whole expressions -/

/-- How deep an expression may nest. -/
def depthLimit : Nat := 250

/-- Reads an expression and nothing behind it. Each expression takes at most three calls for each
of its characters. -/
def read? (t : Text) : Option Reading :=
  match alternatives? (3 * t.length + 3) ⟨t, []⟩ with
  | some (xs, c) => if c.rest.isEmpty then some (.joined choose xs) else none
  | none => none

/-- The regular expression written by a text; `none` when the text writes none, or one that is too
deep or too large. -/
def ofText? (t : Text) : Option Regex :=
  match read? t with
  | some x => if x.depth ≤ depthLimit && x.regex.isSmall then some x.regex else none
  | none => none

end SheetLint.Regex
