import SheetLint.Text

/-!
# Blank characters

`isBlank` is the Unicode property `White_Space`; comments and configuration values are trimmed
by it. The stylesheet grammar has its own, smaller set of space characters.
-/

namespace SheetLint.Text

/-- The characters with the Unicode property `White_Space`. -/
def isBlank (c : Char) : Bool :=
  let n := c.toNat
  (0x09 ≤ n && n ≤ 0x0d) || n == 0x20 || n == 0x85 || n == 0xa0 || n == 0x1680
    || (0x2000 ≤ n && n ≤ 0x200a) || n == 0x2028 || n == 0x2029 || n == 0x202f
    || n == 0x205f || n == 0x3000

/-- The text without the blanks in front of it. -/
def trimStart (t : Text) : Text := t.dropWhile isBlank

/-- The text without the blanks behind it. -/
def trimEnd (t : Text) : Text := (t.reverse.dropWhile isBlank).reverse

/-- The text without the blanks around it. -/
def trim (t : Text) : Text := trimEnd (trimStart t)

end SheetLint.Text
