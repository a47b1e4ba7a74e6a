import SheetLint.Token

/-!
# Numbers in values

A number is a magnitude in decimal notation and a unit. The magnitude is kept as its digits and
the number of them behind the dot; `Number.value` is the binary64 number nearest to it.
-/

namespace SheetLint

/-- A number as written: a sign, all digits read as one integer, how many of them stand behind the
dot, and the unit. -/
structure Number where
  negative : Bool
  digits : Nat
  places : Nat
  unit : Text
deriving DecidableEq, Repr

namespace Number

/-- The integer written by a run of digits. -/
def digitsValue (t : Text) : Nat := t.foldl (fun n c => 10 * n + (c.toNat - '0'.toNat)) 0

/-- Whether a character belongs to a magnitude. -/
def isMagnitudeChar (c : Char) : Bool := c.isDigit || c == '.'

/-- The digits of a magnitude in front of and behind its dot; `none` when there is no digit or
more than one dot. -/
def magnitude? (t : Text) : Option (Text × Text) :=
  let whole := t.takeWhile Char.isDigit
  let fraction := (t.dropWhile Char.isDigit).drop 1
  if fraction.all Char.isDigit && !(whole.isEmpty && fraction.isEmpty) then
    some (whole, fraction)
  else none

/-- Splits a text after its sign, digits and dots; `none` when these are no magnitude. -/
def ofText? (t : Text) : Option Number :=
  let signed := t.head? == some '-' || t.head? == some '+'
  let unsigned := if signed then t.drop 1 else t
  (magnitude? (unsigned.takeWhile isMagnitudeChar)).map fun parts =>
    { negative := t.head? == some '-'
      digits := digitsValue (parts.1 ++ parts.2)
      places := parts.2.length
      unit := unsigned.dropWhile isMagnitudeChar }

/-- The binary64 number nearest to the magnitude, ties to even, with the sign. -/
def value (n : Number) : Float :=
  let size := Float.ofScientific n.digits true n.places
  if n.negative then -size else size

end Number

/-- The numbers among the tokens of a value, each with the index of its token. -/
def Tokens.numbers (ts : List Token) : List (Nat × Number) :=
  ts.zipIdx.filterMap fun (t, i) =>
    if t.kind == .number then (Number.ofText? t.text).map fun n => (i, n) else none

end SheetLint
