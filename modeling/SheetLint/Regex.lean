import SheetLint.CharSet

/-!
# Regular expressions

A regular expression is kept in a short form: sequences and choices are not nested directly in
their own kind, literals next to each other are one, and what can only match the empty text is not
repeated. `sequence`, `choose` and `repeating` keep that form.

What an expression matches in a word is told by its spans: for each place where a match can start,
the places where it can end. The spans of an expression come from the spans of its parts, so each
part is looked at once for all places, and counts take no more than doubling steps.
-/

namespace SheetLint

/-- A regular expression over characters. -/
inductive Regex where
  | empty
  /-- Characters in a row. -/
  | literal (t : Text)
  | oneOf (s : CharSet)
  | wordStart
  | wordEnd
  | boundary (wanted : Bool)
  /-- An expression whose match is remembered. -/
  | group (r : Regex)
  | inTurn (rs : List Regex)
  | anyOf (rs : List Regex)
  | repeated (r : Regex) (least : Nat) (most : Option Nat)
deriving Inhabited

namespace Regex

/-! ## Making expressions -/

mutual
/-- Whether an expression matches the empty text and nothing else. -/
def isIdle : Regex → Bool
  | empty => true
  | literal t => t.isEmpty
  | oneOf _ => false
  | wordStart => true
  | wordEnd => true
  | boundary _ => true
  | group r => r.isIdle
  | inTurn rs => allIdle rs
  | anyOf rs => allIdle rs
  | repeated r _ most => most.isSome && r.isIdle

/-- Whether all expressions match the empty text and nothing else. -/
def allIdle : List Regex → Bool
  | [] => true
  | r :: rs => r.isIdle && allIdle rs
end

/-- A set of characters; a set of one is a literal. -/
def ofSet (s : CharSet) : Regex :=
  match s.single? with
  | some c => literal [c]
  | none => oneOf s

/-- The expressions that a sequence is made of. -/
def steps : Regex → List Regex
  | empty => []
  | inTurn rs => rs
  | r => [r]

/-- Makes literals next to each other one. -/
def joinLiterals : List Regex → List Regex
  | [] => []
  | literal t :: rs =>
    match joinLiterals rs with
    | literal u :: more => literal (t ++ u) :: more
    | more => literal t :: more
  | r :: rs => r :: joinLiterals rs

/-- The expressions in turn. -/
def sequence (rs : List Regex) : Regex :=
  match joinLiterals (rs.flatMap steps) with
  | [] => empty
  | [r] => r
  | rs => inTurn rs

/-- The expressions that a choice is made of. -/
def options : Regex → List Regex
  | anyOf rs => rs
  | r => [r]

/-- The character of a literal that has just one. -/
def char? : Regex → Option Char
  | literal [c] => some c
  | _ => none

/-- The set of an expression that is a set. -/
def set? : Regex → Option CharSet
  | oneOf s => some s
  | _ => none

/-- Any of the expressions. A choice of characters or of sets is a set. -/
def choose (rs : List Regex) : Regex :=
  match rs.flatMap options with
  | [] => oneOf .empty
  | [r] => r
  | rs =>
    match rs.mapM char?, rs.mapM set? with
    | some cs, _ => ofSet (.unionAll (cs.map .ofChar))
    | none, some sets => ofSet (.unionAll sets)
    | none, none => anyOf rs

/-- An expression a number of times. The empty text need not be repeated. -/
def repeating (r : Regex) (least : Nat) (most : Option Nat) : Regex :=
  let (least, most) :=
    if r.isIdle then (min least 1, some (min (most.getD 1) 1)) else (least, most)
  if least = 0 ∧ most = some 0 then empty
  else if least = 1 ∧ most = some 1 then r
  else repeated r least most

/-! ## Spans -/

/-- For each place of a word where a match can start, the places where it can end, each place a
bit of the number. -/
abbrev Spans := List Nat

namespace Spans

/-- The empty spans at the places that pass a test, of which there are `places`. -/
def still (places : Nat) (test : Nat → Bool) : Spans :=
  (List.range places).map fun i => if test i then 1 <<< i else 0

/-- The ends in the rows of the places in `ends`; the first row is that of place `i`. -/
def gather (ends : Nat) (i : Nat) : Spans → Nat
  | [] => 0
  | row :: rows => (if ends.testBit i then row else 0) ||| gather ends (i + 1) rows

/-- A span of `a` and a span of `b` behind it. -/
def followed (a b : Spans) : Spans := a.map fun ends => gather ends 0 b

/-- The spans of either. -/
def either (a b : Spans) : Spans := List.zipWith (· ||| ·) a b

/-- Any number of spans one behind the other. The first row is that of place `i`; no span ends
before it starts, so the rows behind it suffice to go on. -/
def closure (i : Nat) : Spans → Spans
  | [] => []
  | row :: rows =>
    let later := closure (i + 1) rows
    ((1 <<< i) ||| gather row (i + 1) later) :: later

/-- Exactly `k` spans one behind the other. -/
def power (places : Nat) (a : Spans) (k : Nat) : Spans :=
  if k = 0 then still places fun _ => true
  else
    let half := power places a (k / 2)
    let twice := half.followed half
    if k % 2 = 0 then twice else twice.followed a
termination_by k
decreasing_by omega

/-- At least `least` spans one behind the other, and at most `most` if there is a bound. -/
def times (places : Nat) (a : Spans) (least : Nat) (most : Option Nat) : Spans :=
  let more :=
    match most with
    | some n => power places (either (still places fun _ => true) a) (n - least)
    | none => closure 0 a
  (power places a least).followed more

end Spans

/-- The letters, digits and the underscore of ASCII, between which and other characters a boundary
lies. -/
def isWordChar (c : Char) : Bool := c.isAlphanum || c == '_'

/-- Whether exactly one of the characters around a place is a word character. -/
def isBoundary (w : Text) (i : Nat) : Bool :=
  let isWord (c : Option Char) : Bool := c.any isWordChar
  isWord (if i = 0 then none else w[i - 1]?) != isWord w[i]?

/-- The spans of a literal in a word; the first one starts at place `i`. -/
def literalSpans (t : Text) (i : Nat) : Text → Spans
  | [] => [if t.isEmpty then 1 <<< i else 0]
  | c :: w => (if t.isPrefixOf (c :: w) then 1 <<< (i + t.length) else 0) :: literalSpans t (i + 1) w

/-- The spans of single characters in a word; the first one starts at place `i`. -/
def charSpans (s : CharSet) (i : Nat) : Text → Spans
  | [] => [0]
  | c :: w => (if s.contains c then 1 <<< (i + 1) else 0) :: charSpans s (i + 1) w

mutual
/-- The spans of an expression in a word. -/
def spans (w : Text) : Regex → Spans
  | empty => .still (w.length + 1) fun _ => true
  | literal t => literalSpans t 0 w
  | oneOf s => charSpans s 0 w
  | wordStart => .still (w.length + 1) (· == 0)
  | wordEnd => .still (w.length + 1) (· == w.length)
  | boundary wanted => .still (w.length + 1) fun i => isBoundary w i == wanted
  | group r => spans w r
  | inTurn rs => spansInTurn w rs
  | anyOf rs => spansOfAny w rs
  | repeated r least most => .times (w.length + 1) (spans w r) least most

/-- The spans of expressions in turn. -/
def spansInTurn (w : Text) : List Regex → Spans
  | [] => .still (w.length + 1) fun _ => true
  | r :: rs => (spans w r).followed (spansInTurn w rs)

/-- The spans of any of the expressions. -/
def spansOfAny (w : Text) : List Regex → Spans
  | [] => .still (w.length + 1) fun _ => false
  | r :: rs => (spans w r).either (spansOfAny w rs)
end

/-- Whether a match starts somewhere in the word. -/
def isMatch (r : Regex) (w : Text) : Bool := (spans w r).any (· != 0)

end Regex

end SheetLint
