/-!
# JSON with ordered fields

Values as they are written: the fields of an object keep their order. `Json.pretty` writes a value
with two spaces for each level, one element or field a line, and nothing between the brackets of
an empty array or object.
-/

namespace SheetLint

/-- A value to be written. -/
inductive Json where
  | text (s : String)
  | number (n : Nat)
  | boolean (b : Bool)
  | array (elements : List Json)
  | object (fields : List (String × Json))
deriving Inhabited

namespace Json

/-- The digits of a character number below 256 in base sixteen. -/
def hexPair (n : Nat) : String :=
  String.ofList [(n / 16).digitChar, (n % 16).digitChar]

/-- A character inside quotes. Quotes, backslashes and control characters are escaped. -/
def escape : Char → String
  | '"' => "\\\""
  | '\\' => "\\\\"
  | '\x08' => "\\b"
  | '\t' => "\\t"
  | '\n' => "\\n"
  | '\x0c' => "\\f"
  | '\r' => "\\r"
  | c => if c.toNat < 0x20 then "\\u00" ++ hexPair c.toNat else c.toString

/-- A text in quotes. -/
def quoted (s : String) : String := "\"" ++ String.join (s.toList.map escape) ++ "\""

/-- The start of a line at a level. -/
def newLine (level : Nat) : String := "\n" ++ String.ofList (List.replicate (2 * level) ' ')

/-- Items between brackets, each on a line of its own one level down. -/
def enclosed (opening closing : String) (level : Nat) (items : List String) : String :=
  if items.isEmpty then opening ++ closing
  else
    opening ++ newLine (level + 1) ++ ("," ++ newLine (level + 1)).intercalate items
      ++ newLine level ++ closing

mutual

/-- A value whose first line is at a level. -/
def write (level : Nat) : Json → String
  | text s => quoted s
  | number n => toString n
  | boolean true => "true"
  | boolean false => "false"
  | array elements => enclosed "[" "]" level (writeElements (level + 1) elements)
  | object fields => enclosed "\x7b" "\x7d" level (writeFields (level + 1) fields)

/-- The elements of an array. -/
def writeElements (level : Nat) : List Json → List String
  | [] => []
  | v :: vs => write level v :: writeElements level vs

/-- The fields of an object. -/
def writeFields (level : Nat) : List (String × Json) → List String
  | [] => []
  | (key, v) :: rest => (quoted key ++ ": " ++ write level v) :: writeFields level rest

end

/-- A value over as many lines as it needs. -/
def pretty (v : Json) : String := write 0 v

end Json

end SheetLint
