import SheetLint.Config.Value

/-!
# Building tables in TOML

Headers and dotted keys name tables by path. A table made by a header is closed to dotted keys and
to a second header; one that a longer header implied may still get a header of its own; one that a
dotted key made may get more dotted keys. The last element of an array of tables stands for the
array in a path.
-/

namespace SheetLint.Toml

/-- How a table came to be. -/
inductive TableKind where
  /-- By its own header. -/
  | headed
  /-- By the header of a table inside it. -/
  | implied
  /-- By a dotted key. -/
  | dotted
  /-- As the last element of an array of tables. -/
  | listed
deriving DecidableEq, Repr

/-- The table built so far, how its inner tables came to be, and the path of the one that keys go
to. -/
structure Builder where
  root : ConfigValue
  kinds : List (List String × TableKind)
  current : List String

namespace Builder

/-- Nothing but an empty table. -/
def empty : Builder := ⟨.table [], [], []⟩

/-- How the table at a path came to be. -/
def kind? (b : Builder) (path : List String) : Option TableKind := b.kinds.lookup path

/-- Whether nothing stands at a path. -/
def isFree (b : Builder) (path : List String) : Bool := (b.root.at? path).isNone

/-- Puts an empty table at a path. -/
def make (b : Builder) (path : List String) (kind : TableKind) : Builder :=
  { b with
    root := b.root.alterAt (fun v => v.getD (.table [])) path
    kinds := (path, kind) :: b.kinds }

/-- Goes through the tables on the way to a path, from `base` on, and makes those that are missing.
A value on the way, or a table that the test refuses, is an error. -/
def walk (passable : TableKind → Bool) (made : TableKind) :
    Builder → List String → List String → Option Builder
  | b, _, [] => some b
  | b, base, key :: keys =>
    let path := base ++ [key]
    match b.kind? path with
    | some kind => if passable kind then walk passable made b path keys else none
    | none => if b.isFree path then walk passable made (b.make path made) path keys else none

/-- Starts the table of a header. -/
def header? (b : Builder) (path : List String) : Option Builder := do
  let b ← walk (fun _ => true) .implied b [] path.dropLast
  match b.kind? path with
  | some .implied => return { b with kinds := (path, .headed) :: b.kinds, current := path }
  | some _ => none
  | none => if b.isFree path then return { b.make path .headed with current := path } else none

/-- Starts the next element of an array of tables. -/
def element? (b : Builder) (path : List String) : Option Builder := do
  let b ← walk (fun _ => true) .implied b [] path.dropLast
  let append : Option ConfigValue → ConfigValue
    | some (.array elements) => .array (elements ++ [.table []])
    | _ => .array [.table []]
  let kinds := (path, .listed) :: b.kinds.filter fun entry => !path.isPrefixOf entry.1
  if b.kind? path = some .listed || (b.kind? path = none && b.isFree path) then
    return { root := b.root.alterAt append path, kinds, current := path }
  else none

/-- Sets a key, dotted or not, of the current table. -/
def set? (b : Builder) (keys : List String) (v : ConfigValue) : Option Builder := do
  let outer := keys.dropLast
  let b ← walk (· != .headed) .dotted b b.current outer
  let container := b.current ++ outer
  let path := b.current ++ keys
  if (outer.isEmpty || b.kind? container = some .dotted) && b.isFree path then
    return { b with root := b.root.alterAt (fun _ => v) path }
  else none

end Builder

end SheetLint.Toml
