import SheetLint.Text

/-!
# Cutting texts at a character, a line break or a word

`splitOn` cuts at every separator and so always gives one part more than there are separators.
`lines` cuts at line feeds, drops a carriage return in front of one, and gives no empty last line.
-/

namespace SheetLint.Text

/-- The parts between the separators, empty ones included. -/
def splitOn (sep : Char) : Text → List Text
  | [] => [[]]
  | c :: cs =>
    if c = sep then [] :: splitOn sep cs
    else
      match splitOn sep cs with
      | [] => [[c]]
      | part :: parts => (c :: part) :: parts

/-- The text without the word it starts with; `none` when it starts otherwise. -/
def stripStart? : Text → Text → Option Text
  | [], t => some t
  | _ :: _, [] => none
  | w :: ws, c :: cs => if w = c then stripStart? ws cs else none

/-- The text without the word it ends with; `none` when it ends otherwise. -/
def stripEnd? (word t : Text) : Option Text :=
  (stripStart? word.reverse t.reverse).map List.reverse

/-- Cuts at the first occurrence of a character, which neither part keeps. -/
def cutAt? (sep : Char) : Text → Option (Text × Text)
  | [] => none
  | c :: cs =>
    if c = sep then some ([], cs)
    else (cutAt? sep cs).map fun parts => (c :: parts.1, parts.2)

/-- Cuts at the first occurrence of a word, which neither part keeps. The empty word is found at
the start of every text. -/
def cutAtWord? (word : Text) : Text → Option (Text × Text)
  | [] => if word = [] then some ([], []) else none
  | c :: cs =>
    match stripStart? word (c :: cs) with
    | some rest => some ([], rest)
    | none => (cutAtWord? word cs).map fun parts => (c :: parts.1, parts.2)

/-- Whether the word occurs in the text. -/
def hasWord (t word : Text) : Bool := (cutAtWord? word t).isSome

/-- The line without the carriage return at its end. -/
def dropReturn (line : Text) : Text := (stripEnd? ['\r'] line).getD line

/-- The lines of a text: cut at each line feed, a carriage return in front of it dropped, and no
line after the last line feed if nothing follows it. -/
def lines (t : Text) : List Text :=
  match t with
  | [] => []
  | _ =>
    let parts := splitOn '\n' t
    match parts.getLast? with
    | some [] => parts.dropLast.map dropReturn
    | some last => parts.dropLast.map dropReturn ++ [last]
    | none => []

end SheetLint.Text
