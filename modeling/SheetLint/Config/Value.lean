/-!
# Configuration values

The values that a configuration is made of. A table lists its entries by key, each key once.

`set` puts a value at a path of keys. A path runs through tables, and through the last element of
an array of tables.
-/

namespace SheetLint

/-- A value of a configuration. A moment is a date, a time or both, kept in its normal form. -/
inductive ConfigValue where
  | text (s : String)
  | integer (n : Int)
  | float (x : Float)
  | boolean (b : Bool)
  | moment (s : String)
  | array (elements : List ConfigValue)
  | table (entries : List (String × ConfigValue))
deriving Inhabited

namespace ConfigValue

/-- The text, if the value is one. -/
def text? : ConfigValue → Option String
  | text s => some s
  | _ => none

/-- The integer, if the value is one. -/
def integer? : ConfigValue → Option Int
  | integer n => some n
  | _ => none

/-- The truth value, if the value is one. -/
def boolean? : ConfigValue → Option Bool
  | boolean b => some b
  | _ => none

/-- The elements, if the value is an array. -/
def array? : ConfigValue → Option (List ConfigValue)
  | array elements => some elements
  | _ => none

/-- The texts, if the value is an array of texts. -/
def texts? (v : ConfigValue) : Option (List String) := v.array?.bind (·.mapM text?)

/-- The entry with this key. -/
def field? (key : String) : ConfigValue → Option ConfigValue
  | table entries => entries.lookup key
  | _ => none

/-- Changes the entry with this key, which may be missing. -/
def alter (change : Option ConfigValue → ConfigValue) (key : String) :
    List (String × ConfigValue) → List (String × ConfigValue)
  | [] => [(key, change none)]
  | (k, v) :: rest => if k = key then (k, change (some v)) :: rest else (k, v) :: alter change key rest

/-- Applies a function to the last element of a list. -/
def alterLast (change : ConfigValue → ConfigValue) : List ConfigValue → List ConfigValue
  | [] => []
  | [v] => [change v]
  | v :: vs => v :: alterLast change vs

/-- Changes the value at a path; tables missing on the way are made. -/
def alterAt (change : Option ConfigValue → ConfigValue) : List String → ConfigValue → ConfigValue
  | [], v => change (some v)
  | [key], table entries => table (alter change key entries)
  | [key], array elements =>
    array (alterLast (fun
      | table entries => table (alter change key entries)
      | other => other) elements)
  | key :: path, table entries =>
    table (alter (fun v => alterAt change path (v.getD (table []))) key entries)
  | key :: path, array elements =>
    array (alterLast (fun
      | table entries =>
        table (alter (fun v => alterAt change path (v.getD (table []))) key entries)
      | other => other) elements)
  | _, v => v

/-- The value at a path. -/
def at? : List String → ConfigValue → Option ConfigValue
  | [], v => some v
  | key :: path, table entries => (entries.lookup key).bind (at? path)
  | key :: path, array elements =>
    (elements.getLast?.bind (field? key)).bind (at? path)
  | _ :: _, _ => none

end ConfigValue

end SheetLint
