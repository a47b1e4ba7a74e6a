import SheetLint.Config.Value
import SheetLint.Text.Split
import SheetLint.Toml.Quoted

/-!
# Unquoted values in TOML

An unquoted value is a word: a truth value, an integer, a float or a moment. Underscores may stand
between two digits. Integers have 64 bits.
-/

namespace SheetLint.Toml

/-! ## Digits -/

/-- The digits of a run in which single underscores may stand between digits; `none` when the run
is empty or has an underscore elsewhere. -/
def digits? (isDigit : Char → Bool) : List Char → Option (List Char)
  | [] => none
  | [c] => if isDigit c then some [c] else none
  | c :: '_' :: r => if isDigit c then (digits? isDigit r).map (c :: ·) else none
  | c :: r => if isDigit c then (digits? isDigit r).map (c :: ·) else none

/-- The number written by digits in a base. -/
def valueOf (base : Nat) (digits : List Char) : Nat :=
  digits.foldl (fun n c => base * n + (hexDigit? c).getD 0) 0

/-- Splits a sign off; true stands for minus. -/
def sign : List Char → Bool × List Char
  | '-' :: r => (true, r)
  | '+' :: r => (false, r)
  | t => (false, t)

/-- A decimal run without needless zeros in front. -/
def decimal? (t : List Char) : Option (List Char) := do
  let digits ← digits? Char.isDigit t
  match t with
  | '0' :: _ :: _ => none
  | _ => return digits

/-! ## Numbers -/

/-- An integer that fits 64 bits with sign. -/
def int64? (n : Int) : Option Int :=
  if -0x8000000000000000 ≤ n ∧ n < 0x8000000000000000 then some n else none

/-- An integer: decimal with an optional sign, or in base 16, 8 or 2 without. -/
def integer? : List Char → Option Int
  | '0' :: 'x' :: r => (digits? (fun c => (hexDigit? c).isSome) r).bind fun ds => int64? (valueOf 16 ds)
  | '0' :: 'o' :: r =>
    (digits? (fun c => '0' ≤ c && c ≤ '7') r).bind fun ds => int64? (valueOf 8 ds)
  | '0' :: 'b' :: r =>
    (digits? (fun c => c == '0' || c == '1') r).bind fun ds => int64? (valueOf 2 ds)
  | t =>
    let (negative, t) := sign t
    (decimal? t).bind fun ds =>
      let n : Int := valueOf 10 ds
      int64? (if negative then -n else n)

/-- The float with these digits around the dot and this exponent. A scale beyond 400 makes any
digits infinite, and one that is more than 400 below their number makes them zero, so that the
scale need not go further. -/
def scientific (whole fraction : List Char) (exponent : Int) : Float :=
  let digits := whole ++ fraction
  let scale := max (-400 - digits.length : Int) (min 400 (exponent - fraction.length))
  Float.ofScientific (valueOf 10 digits) (scale < 0) scale.natAbs

/-- The exponent behind an `e`. -/
def exponent? (t : List Char) : Option Int :=
  let (negative, t) := sign t
  (digits? Char.isDigit t).map fun ds =>
    let n : Int := valueOf 10 ds
    if negative then -n else n

/-- A magnitude with a fraction, an exponent or both. -/
def magnitude? (t : List Char) : Option Float := do
  let (mantissa, exponent) ←
    match t.span fun c => c != 'e' && c != 'E' with
    | (m, []) => some (m, none)
    | (m, _ :: e) => (exponent? e).map fun n => (m, some n)
  match mantissa.span (· != '.') with
  | (whole, []) =>
    let n ← exponent
    return scientific (← decimal? whole) [] n
  | (whole, _ :: fraction) =>
    return scientific (← decimal? whole) (← digits? Char.isDigit fraction) (exponent.getD 0)

/-- A float, or one of the words for infinity and for no number. A positive float that is too large
is refused, a negative one is infinite. -/
def float? (t : List Char) : Option Float := do
  let (negative, t) := sign t
  let size ←
    if t = "inf".toList then some (1.0 / 0.0)
    else if t = "nan".toList then some (0.0 / 0.0)
    else (magnitude? t).bind fun x => if x.isInf && !negative then none else some x
  return if negative then -size else size

/-! ## Moments -/

/-- A run of exactly `n` digits at the front. -/
def fixedDigits? (n : Nat) (t : List Char) : Option (Nat × List Char) :=
  let front := t.take n
  if front.length = n && front.all Char.isDigit then some (valueOf 10 front, t.drop n) else none

/-- The text behind an expected character. -/
def expect? (c : Char) : List Char → Option (List Char)
  | x :: r => if x = c then some r else none
  | [] => none

/-- Number of days of a month. -/
def daysIn (year month : Nat) : Nat :=
  if month = 2 then
    if year % 4 = 0 && (year % 100 != 0 || year % 400 = 0) then 29 else 28
  else if [4, 6, 9, 11].contains month then 30
  else 31

/-- A date at the front, and what follows it. -/
def date? (t : List Char) : Option (List Char × List Char) := do
  let (year, r) ← fixedDigits? 4 t
  let (month, r) ← fixedDigits? 2 (← expect? '-' r)
  let (day, r) ← fixedDigits? 2 (← expect? '-' r)
  if 1 ≤ month && month ≤ 12 && 1 ≤ day && day ≤ daysIn year month then
    return (t.take 10, r)
  else none

/-- A fraction of a second to nine places, without zeros at its end. -/
def fraction (digits : List Char) : List Char :=
  match ((digits.take 9).reverse.dropWhile (· == '0')).reverse with
  | [] => []
  | ds => '.' :: ds

/-- A time at the front, and what follows it. -/
def time? (t : List Char) : Option (List Char × List Char) := do
  let (hour, r) ← fixedDigits? 2 t
  let (minute, r) ← fixedDigits? 2 (← expect? ':' r)
  let (second, r) ← fixedDigits? 2 (← expect? ':' r)
  if hour ≤ 23 && minute ≤ 59 && second ≤ 60 then
    match r with
    | '.' :: r =>
      let (digits, rest) := r.span Char.isDigit
      if digits.isEmpty then none else return (t.take 8 ++ fraction digits, rest)
    | _ => return (t.take 8, r)
  else none

/-- An offset from universal time that ends the word. The offset of no minutes has a plus. -/
def offset? : List Char → Option (List Char)
  | ['Z'] => some ['Z']
  | ['z'] => some ['Z']
  | c :: r => do
    if c = '+' || c = '-' then
      let (hour, rest) ← fixedDigits? 2 r
      let (minute, rest) ← fixedDigits? 2 (← expect? ':' rest)
      if hour ≤ 23 && minute ≤ 59 && rest.isEmpty then
        return (if hour = 0 && minute = 0 then '+' else c) :: r
      else none
    else none
  | [] => some []

/-- A moment: a time, a date, or a date and a time with an optional offset. -/
def moment? (t : List Char) : Option (List Char) :=
  match date? t with
  | some (date, []) => some date
  | some (date, c :: r) => do
    if c = 'T' || c = 't' || c = ' ' then
      let (time, rest) ← time? r
      return date ++ 'T' :: time ++ (← offset? rest)
    else none
  | none =>
    match time? t with
    | some (time, []) => some time
    | _ => none

/-! ## Words -/

/-- The characters of a word. -/
def isWordChar (c : Char) : Bool :=
  c.isAlphanum || c == '_' || c == '+' || c == '-' || c == '.' || c == ':'

/-- The word at the front, and what follows it. A date and a time with a space between them are
one word. -/
def word (t : List Char) : List Char × List Char :=
  match t.span isWordChar with
  | (first, ' ' :: c :: r) =>
    if c.isDigit && (match date? first with | some (_, []) => true | _ => false) then
      let second := (c :: r).span isWordChar
      (first ++ ' ' :: second.1, second.2)
    else (first, ' ' :: c :: r)
  | cut => cut

/-- The value that a word stands for. -/
def ofWord? (t : List Char) : Option ConfigValue :=
  if t = "true".toList then some (.boolean true)
  else if t = "false".toList then some (.boolean false)
  else
    match integer? t with
    | some n => some (.integer n)
    | none =>
      match float? t with
      | some x => some (.float x)
      | none => (moment? t).map fun m => .moment (String.ofList m)

end SheetLint.Toml
