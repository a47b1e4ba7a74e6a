import SheetLint.Command.Failure
import SheetLint.Glob

/-!
# Files to look at

Each path is a file, which is always looked at, or a folder, whose files are looked at if they
have a wanted extension and no pattern leaves them out. The files are put in the order of their
paths, and of paths with the same components only the first one is kept.
-/

namespace SheetLint.Collect

/-- Reads the patterns for files to leave out. -/
def patterns (texts : List String) : Except Failure (List Glob) :=
  texts.mapM fun t =>
    match Glob.ofText? t.toList with
    | some g => .ok g
    | none => .error (.badPattern t)

/-- Whether a file name has one of the extensions, in any letter case. -/
def isWanted (extensions : List String) (name : String) : Bool :=
  match Path.extension? name with
  | some e => extensions.any fun wanted => wanted.toLower == e.toLower
  | none => false

/-- The path of a file below a folder, if it is to be looked at. A pattern can fit the whole path
or the part below the folder. -/
def pathBelow? (extensions : List String) (exclude : List Glob) (folder : String)
    (names : Place) : Option String :=
  let path := names.foldl Path.join folder
  let isLeftOut := exclude.any fun g =>
    g.fits ("/".intercalate names).toList || g.fits path.toList
  if isWanted extensions (names.getLast?.getD "") && !isLeftOut then some path else none

/-- The files that a path stands for. -/
def ofPath (disk : Disk) (extensions : List String) (exclude : List Glob) (path : String) :
    Except Failure (List String) :=
  if disk.isFile path then .ok [path]
  else if disk.isFolder path then
    .ok ((disk.filesBelow path).filterMap (pathBelow? extensions exclude path))
  else .error (.missingPath path)

/-- The paths without those that have the same components as the one in front of them. -/
def dropRepeats : List String → List String
  | [] => []
  | [path] => [path]
  | path :: next :: rest =>
    if Path.same path next then dropRepeats (path :: rest)
    else path :: dropRepeats (next :: rest)

/-- The files that paths stand for. -/
def files (disk : Disk) (paths extensions exclude : List String) :
    Except Failure (List String) := do
  let globs ← patterns exclude
  let found ← paths.mapM (ofPath disk extensions globs)
  return dropRepeats (found.flatten.mergeSort Path.le)

end SheetLint.Collect
