import SheetLint.CharSet

/-!
# Ranges of characters as ranges of bytes

A range of characters is made of sequences of byte ranges: a character is in the range when its
UTF-8 bytes lie, one by one, in the ranges of a sequence. A range is cut where the number of bytes
changes and where the bytes in front would no longer go with all bytes behind them.
-/

namespace SheetLint.Utf8

/-- The UTF-8 form of a code point. -/
def bytes (n : Nat) : List Nat :=
  if n < 0x80 then [n]
  else if n < 0x800 then [0xc0 + n / 0x40, 0x80 + n % 0x40]
  else if n < 0x10000 then [0xe0 + n / 0x1000, 0x80 + n / 0x40 % 0x40, 0x80 + n % 0x40]
  else
    [0xf0 + n / 0x40000, 0x80 + n / 0x1000 % 0x40, 0x80 + n / 0x40 % 0x40, 0x80 + n % 0x40]

/-- The last code point in front of a cut because of the number of bytes. -/
def lengthCut? (r : NumberRange) : Option Nat :=
  [0x7f, 0x7ff, 0xffff].find? fun last => r.lo ≤ last && last < r.hi

/-- The last code point in front of a cut because of the bytes in front. `block` is how many code
points share these. -/
def blockCut? (r : NumberRange) (block : Nat) : Option Nat :=
  let first := r.lo / block
  let last := r.hi / block
  if first = last then none
  else if r.lo % block != 0 then some (first * block + (block - 1))
  else if r.hi % block != block - 1 then some (last * block - 1)
  else none

/-- The last code point in front of the first cut of a range of code points. -/
def cut? (r : NumberRange) : Option Nat :=
  match lengthCut? r with
  | some n => some n
  | none => if r.hi < 0x80 then none else [0x40, 0x1000, 0x40000].findSome? (blockCut? r)

/-- A range of code points cut into ranges that need no cut. -/
def pieces (r : NumberRange) : List NumberRange :=
  match cut? r with
  | none => [r]
  | some n =>
    if _h : r.lo ≤ n ∧ n < r.hi then pieces ⟨r.lo, n⟩ ++ pieces ⟨n + 1, r.hi⟩ else [r]
termination_by r.hi - r.lo
decreasing_by all_goals omega

/-- The ranges of code points that a range of characters is made of. -/
def codePoints (r : NumberRange) : List NumberRange :=
  if r.lo < CharSet.gapStart && CharSet.gapStart ≤ r.hi then
    [⟨r.lo, CharSet.gapStart - 1⟩,
      ⟨CharSet.codePoint CharSet.gapStart, CharSet.codePoint r.hi⟩]
  else [⟨CharSet.codePoint r.lo, CharSet.codePoint r.hi⟩]

/-- The bytes at one place of a sequence. -/
abbrev ByteRange := Nat × Nat

/-- The sequences of byte ranges of a set, in their order. -/
def sequences (s : CharSet) : List (List ByteRange) :=
  ((s.ranges.flatMap codePoints).flatMap pieces).map fun r => (bytes r.lo).zip (bytes r.hi)

end SheetLint.Utf8
