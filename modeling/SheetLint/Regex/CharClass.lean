import SheetLint.CharSet
import SheetLint.Toml.Quoted

/-!
# Escapes and classes in regular expressions

A class in brackets holds characters, ranges, classes of ASCII with a name, and further classes in
brackets; two classes can be joined by `&&`, `--` and `~~`. A class is read as the set of its
characters, together with how deep it nests: each pair of brackets, each list of more than one item
and each set operation counts as a level.
-/

namespace SheetLint.Regex

/-! ## Classes with a name -/

/-- The union of ranges of characters. -/
def ranges (rs : List (Char × Char)) : CharSet := .unionAll (rs.map fun r => .ofRange r.1 r.2)

/-- The digits of ASCII. -/
def digits : CharSet := ranges [('0', '9')]

/-- The letters and digits of ASCII. -/
def alphanumerics : CharSet := ranges [('0', '9'), ('A', 'Z'), ('a', 'z')]

/-- The letters, digits and the underscore of ASCII. -/
def wordChars : CharSet := alphanumerics.union (.ofChar '_')

/-- The characters with the Unicode property `White_Space`. -/
def blanks : CharSet :=
  ranges [('\t', '\r'), (' ', ' '), ('\u0085', '\u0085'), ('\u00a0', '\u00a0'),
    ('\u1680', '\u1680'), ('\u2000', '\u200a'), ('\u2028', '\u2029'), ('\u202f', '\u202f'),
    ('\u205f', '\u205f'), ('\u3000', '\u3000')]

/-- The class that a letter behind a backslash stands for. -/
def letterClass? : Char → Option CharSet
  | 'd' => some digits
  | 'D' => some digits.complement
  | 's' => some blanks
  | 'S' => some blanks.complement
  | 'w' => some wordChars
  | 'W' => some wordChars.complement
  | _ => none

/-- The classes that are named between `[:` and `:]`. -/
def namedClass? : String → Option CharSet
  | "alnum" => some alphanumerics
  | "alpha" => some (ranges [('A', 'Z'), ('a', 'z')])
  | "ascii" => some (ranges [('\x00', '\x7f')])
  | "blank" => some (ranges [('\t', '\t'), (' ', ' ')])
  | "cntrl" => some (ranges [('\x00', '\x1f'), ('\x7f', '\x7f')])
  | "digit" => some digits
  | "graph" => some (ranges [('!', '~')])
  | "lower" => some (ranges [('a', 'z')])
  | "print" => some (ranges [(' ', '~')])
  | "punct" => some (ranges [('!', '/'), (':', '@'), ('[', '\x60'), ('\x7b', '~')])
  | "space" => some (ranges [('\t', '\r'), (' ', ' ')])
  | "upper" => some (ranges [('A', 'Z')])
  | "word" => some wordChars
  | "xdigit" => some (ranges [('0', '9'), ('A', 'F'), ('a', 'f')])
  | _ => none

/-! ## Escapes -/

/-- What a backslash and what follows it stand for. -/
inductive Escape where
  | char (c : Char)
  | set (s : CharSet)
  | wordStart
  | wordEnd
  | boundary (wanted : Bool)

/-- A code point in hexadecimal: `digits` digits, or any number of them between braces. -/
def codePoint? (digits : Nat) (t : Text) : Option (Char × Text) :=
  match t with
  | '\x7b' :: r =>
    match r.span (· != '\x7d') with
    | ([], _) => none
    | (ds, _ :: r) => (Toml.charOfHex? ds).map fun c => (c, r)
    | (_, []) => none
  | _ =>
    if t.length < digits then none
    else (Toml.charOfHex? (t.take digits)).map fun c => (c, t.drop digits)

/-- Reads what follows a backslash. -/
def escape? : Text → Option (Escape × Text)
  | [] => none
  | c :: r =>
    match c with
    | 'x' => (codePoint? 2 r).map fun (c, r) => (.char c, r)
    | 'u' => (codePoint? 4 r).map fun (c, r) => (.char c, r)
    | 'U' => (codePoint? 8 r).map fun (c, r) => (.char c, r)
    | 'a' => some (.char '\x07', r)
    | 'f' => some (.char '\x0c', r)
    | 't' => some (.char '\t', r)
    | 'n' => some (.char '\n', r)
    | 'r' => some (.char '\r', r)
    | 'v' => some (.char '\x0b', r)
    | 'A' => some (.wordStart, r)
    | 'z' => some (.wordEnd, r)
    | 'b' => some (.boundary true, r)
    | 'B' => some (.boundary false, r)
    | _ =>
      match letterClass? c with
      | some s => some (.set s, r)
      | none =>
        if c.toNat < 128 && !c.isAlphanum && c != '<' && c != '>' then some (.char c, r) else none

/-! ## Items -/

/-- Reads one item of a class: a character, or the class of an escape. -/
def classItem? : Text → Option ((Char ⊕ CharSet) × Text)
  | [] => none
  | '\\' :: r =>
    match escape? r with
    | some (.char c, r) => some (.inl c, r)
    | some (.set s, r) => some (.inr s, r)
    | _ => none
  | c :: r => some (.inl c, r)

/-- The characters that an item stands for. -/
def itemSet : Char ⊕ CharSet → CharSet
  | .inl c => .ofChar c
  | .inr s => s

/-- Reads an item of a class or a range of characters. -/
def classRange? (t : Text) : Option (CharSet × Text) := do
  let (first, r) ← classItem? t
  match r with
  | '-' :: c :: r' =>
    if c = ']' || c = '-' then return (itemSet first, r)
    else
      let (last, rest) ← classItem? (c :: r')
      match first, last with
      | .inl lo, .inl hi => if lo ≤ hi then return (.ofRange lo hi, rest) else none
      | _, _ => none
  | _ => return (itemSet first, r)

/-- Reads a class named between `[:` and `:]`. -/
def asciiClass? : Text → Option (CharSet × Text)
  | '[' :: ':' :: r =>
    let (negated, r) := match r with
      | '^' :: r => (true, r)
      | _ => (false, r)
    match r.span (· != ':') with
    | (name, ':' :: ']' :: r) =>
      (namedClass? (String.ofList name)).map fun s => (if negated then s.complement else s, r)
    | _ => none
  | _ => none

/-! ## Classes -/

/-- A set as it was read, and how deep it nests. -/
structure ClassReading where
  set : CharSet
  depth : Nat

namespace ClassReading

/-- A character or a range. -/
def item (s : CharSet) : ClassReading := ⟨s, 0⟩

/-- A list of items, which is a level of its own if there is more than one. -/
def list : List ClassReading → ClassReading
  | [r] => r
  | rs => ⟨.unionAll (rs.map set), if rs.isEmpty then 0 else (rs.map depth).foldl max 0 + 1⟩

/-- What a set operation makes of two sets. -/
def combined (f : CharSet → CharSet → CharSet) (a b : ClassReading) : ClassReading :=
  ⟨f a.set b.set, max a.depth b.depth + 1⟩

/-- A class between brackets. -/
def bracketed (negated : Bool) (r : ClassReading) : ClassReading :=
  ⟨if negated then r.set.complement else r.set, r.depth + 1⟩

end ClassReading

/-- The dashes at the start of a class, and a bracket right behind `[` or `[^`: characters like
any other there. -/
def classStart (t : Text) : List ClassReading × Text :=
  match t with
  | '-' :: _ =>
    ((t.takeWhile (· == '-')).map fun c => .item (.ofChar c), t.dropWhile (· == '-'))
  | ']' :: r => ([.item (.ofChar ']')], r)
  | _ => ([], t)

mutual
/-- Reads a class behind its opening bracket. -/
def charClass? : Nat → Text → Option (ClassReading × Text)
  | 0, _ => none
  | fuel + 1, t => do
    let (negated, t) := match t with
      | '^' :: r => (true, r)
      | _ => (false, t)
    let (items, t) := classStart t
    let (r, rest) ← charClassRest? fuel id items t
    return (.bracketed negated r, rest)

/-- Reads the rest of a class up to its closing bracket. `items` are those since the last set
operation, `combine` joins their list with what stands in front of it. -/
def charClassRest? : Nat → (ClassReading → ClassReading) → List ClassReading → Text →
    Option (ClassReading × Text)
  | 0, _, _, _ => none
  | fuel + 1, combine, items, t =>
    match t with
    | [] => none
    | ']' :: r => some (combine (.list items), r)
    | '&' :: '&' :: r => charClassRest? fuel (.combined .inter (combine (.list items))) [] r
    | '-' :: '-' :: r => charClassRest? fuel (.combined .diff (combine (.list items))) [] r
    | '~' :: '~' :: r => charClassRest? fuel (.combined .symmDiff (combine (.list items))) [] r
    | '[' :: r =>
      match asciiClass? t with
      | some (s, r) => charClassRest? fuel combine (items ++ [.item s]) r
      | none => do
        let (inner, r) ← charClass? fuel r
        charClassRest? fuel combine (items ++ [inner]) r
    | _ => do
      let (s, r) ← classRange? t
      charClassRest? fuel combine (items ++ [.item s]) r
end

end SheetLint.Regex
