import SheetLint.Token

/-!
# Reading tokens off a text

`Scan.kindAndLength` classifies the token at the front of a text and says how many characters it
takes. A reading never fails: an unterminated string, comment, interpolation or `url(` and any
character that starts nothing become error tokens, and reading goes on behind them.

Results:
* `text_ofText`: the texts of the tokens joined are the source.
* `ne_nil_of_mem_ofText`: no token is empty.
-/

namespace SheetLint

namespace Scan

/-! ## Character classes -/

/-- The space characters of the grammar. -/
def isSpace (c : Char) : Bool :=
  c == ' ' || c == '\t' || c == '\n' || c == '\r' || c == '\x0c'

/-- Whether the character ends a line. -/
def isLineBreak (c : Char) : Bool := c == '\n' || c == '\r'

/-- Whether the character is outside ASCII. -/
def isWide (c : Char) : Bool := 128 ≤ c.toNat

/-- The characters that a name may start with, escapes apart. -/
def isNameStart (c : Char) : Bool := c.isAlpha || c == '_' || isWide c

/-- The characters that a name may go on with, escapes apart. -/
def isNameChar (c : Char) : Bool := isNameStart c || c.isDigit || c == '-'

/-- The punctuation characters of ASCII. -/
def isPunctuation (c : Char) : Bool :=
  0x21 ≤ c.toNat && c.toNat ≤ 0x7e && !c.isAlphanum

/-- Whether a text starts with a character of the class. -/
def startsWith (p : Char → Bool) : Text → Bool
  | [] => false
  | c :: _ => p c

/-- Whether a name starts here: `name`, `-name`, `--name` or an escape. -/
def startsName : Text → Bool
  | '-' :: c :: _ => isNameStart c || c == '-' || c == '\\'
  | '\\' :: c :: _ => c != '\n'
  | c :: _ => isNameStart c
  | [] => false

/-! ## Lengths in characters -/

/-- Length of the run of name characters and escapes at the front. A backslash escapes any
character but a line feed. -/
def nameLength : Text → Nat
  | '\\' :: c :: cs => if c = '\n' then 0 else nameLength cs + 2
  | c :: cs => if isNameChar c then nameLength cs + 1 else 0
  | [] => 0

/-- Length of the run of digits at the front. -/
def digitsLength (t : Text) : Nat := (t.takeWhile Char.isDigit).length

/-- Length of a magnitude without sign: digits, and a dot only when a digit follows it. -/
def magnitudeLength (t : Text) : Nat :=
  let whole := digitsLength t
  match t.drop whole with
  | '.' :: rest => if startsWith Char.isDigit rest then whole + 1 + digitsLength rest else whole
  | _ => whole

/-- Length of a unit: `%` or a name that does not start with a dash or an escape. -/
def unitLength : Text → Nat
  | '%' :: _ => 1
  | t => if startsWith isNameStart t then nameLength t else 0

/-- Length of a number without sign, with its unit. -/
def numberLength (t : Text) : Nat :=
  let magnitude := magnitudeLength t
  magnitude + unitLength (t.drop magnitude)

/-- Kind and length of what follows an opening quote. A backslash hides the character behind it,
a line break that stands bare ends the token as an error. -/
def stringTail (quote : Char) : Text → TokenKind × Nat
  | [] => (.error, 0)
  | ['\\'] => (.error, 1)
  | '\\' :: _ :: cs =>
    let tail := stringTail quote cs
    (tail.1, tail.2 + 2)
  | c :: cs =>
    if isLineBreak c then (.error, 0)
    else if c = quote then (.string, 1)
    else
      let tail := stringTail quote cs
      (tail.1, tail.2 + 1)

/-- Length up to and with the first `*/`; `none` when there is none. -/
def commentTail? : Text → Option Nat
  | '*' :: '/' :: _ => some 2
  | _ :: cs => (commentTail? cs).map (· + 1)
  | [] => none

/-- Length up to and with the brace that closes an interpolation, `depth` being the number of
braces opened inside it. Braces between quotes do not count; between quotes a backslash hides the
character behind it. -/
def interpolationTail? (depth : Nat) : Option Char → Text → Option Nat
  | _, [] => none
  | some _, ['\\'] => none
  | some q, '\\' :: _ :: cs => (interpolationTail? depth (some q) cs).map (· + 2)
  | some q, c :: cs =>
    (interpolationTail? depth (if c = q then none else some q) cs).map (· + 1)
  | none, c :: cs =>
    if c = '"' ∨ c = '\'' then (interpolationTail? depth (some c) cs).map (· + 1)
    else if c = '\x7b' then (interpolationTail? (depth + 1) none cs).map (· + 1)
    else if c = '\x7d' then
      match depth with
      | 0 => some 1
      | d + 1 => (interpolationTail? d none cs).map (· + 1)
    else (interpolationTail? depth none cs).map (· + 1)

/-- Kind and length of what follows `url(` when it is not quoted. -/
def urlTail : Text → TokenKind × Nat
  | [] => (.error, 0)
  | c :: cs =>
    if c = ')' then (.url, 1)
    else if isLineBreak c then (.error, 0)
    else
      let tail := urlTail cs
      (tail.1, tail.2 + 1)

/-! ## One token -/

/-- Kind and length of a token that starts with a name: an identifier, or an unquoted `url(`. -/
def nameOrUrl (t : Text) : TokenKind × Nat :=
  let n := nameLength t
  match t.drop n with
  | '(' :: inside =>
    if Text.eqIgnoreCase (t.take n) "url".toList
        && !startsWith (fun c => c == '"' || c == '\'') (inside.dropWhile isSpace) then
      let tail := urlTail inside
      (tail.1, n + 1 + tail.2)
    else (.ident, n)
  | _ => (.ident, n)

/-- Whether a magnitude without sign starts here. -/
def startsMagnitude : Text → Bool
  | '.' :: c :: _ => c.isDigit
  | c :: _ => c.isDigit
  | [] => false

/-- Kind and length of the token that starts with `c` and goes on into `rest`. -/
def kindAndLength (c : Char) (rest : Text) : TokenKind × Nat :=
  if isSpace c then (.whitespace, ((c :: rest).takeWhile isSpace).length)
  else if c = '/' && rest.head? = some '/' then
    (.lineComment, ((c :: rest).takeWhile (!isLineBreak ·)).length)
  else if c = '/' && rest.head? = some '*' then
    match commentTail? (rest.drop 1) with
    | some n => (.blockComment, n + 2)
    | none => (.error, rest.length + 1)
  else if c = '"' || c = '\'' then
    let tail := stringTail c rest
    (tail.1, tail.2 + 1)
  else if c = '@' && startsName rest then (.atKeyword, nameLength rest + 1)
  else if c = '$' && startsName rest then (.variable, nameLength rest + 1)
  else if c = '#' && rest.head? = some '\x7b' then
    match interpolationTail? 0 none (rest.drop 1) with
    | some n => (.interpolation, n + 2)
    | none => (.error, rest.length + 1)
  else if c = '#' && startsWith isNameChar rest then (.hash, nameLength rest + 1)
  else if startsMagnitude (c :: rest) then (.number, numberLength (c :: rest))
  else if c = '-' && startsMagnitude rest then (.number, numberLength rest + 1)
  else if startsName (c :: rest) then nameOrUrl (c :: rest)
  else if c = '>' || c = '+' || c = '~' then (.combinator, 1)
  else if isPunctuation c then (.punct, 1)
  else (.error, 1)

end Scan

/-! ## All tokens -/

namespace Tokens

/-- The tokens of a text that starts at the given place. -/
def ofTextAt (place : Position) : Text → List Token
  | [] => []
  | c :: rest =>
    let scanned := Scan.kindAndLength c rest
    let more := scanned.2 - 1
    let text := c :: rest.take more
    let stop := place.advance text
    ⟨scanned.1, text, ⟨place, stop⟩⟩ :: ofTextAt stop (rest.drop more)
termination_by t => t.length
decreasing_by rw [List.length_drop, List.length_cons]; omega

/-- The tokens of a source text. -/
def ofText (t : Text) : List Token := ofTextAt .start t

theorem text_ofTextAt (place : Position) (t : Text) : text (ofTextAt place t) = t := by
  fun_induction ofTextAt place t with
  | case1 => rfl
  | case2 place c rest _ more taken _ ih =>
    rw [text_cons, ih]
    simp [taken]

theorem text_ofText (t : Text) : text (ofText t) = t := text_ofTextAt _ t

theorem ne_nil_of_mem_ofTextAt {place : Position} {t : Text} {k : Token}
    (h : k ∈ ofTextAt place t) : k.text ≠ [] := by
  fun_induction ofTextAt place t with
  | case1 => simp at h
  | case2 place c rest _ _ _ _ ih =>
    rcases List.mem_cons.1 h with rfl | h
    · simp
    · exact ih h

theorem ne_nil_of_mem_ofText {t : Text} {k : Token} (h : k ∈ ofText t) : k.text ≠ [] :=
  ne_nil_of_mem_ofTextAt h

end Tokens

end SheetLint
