import SheetLint.Command

/-!
# The program

Shows the files that a command needs as a disk, runs the command, and writes back what it changed.
Names are listed first; of the listed files only the configuration and those that the command
looks into are read.
-/

namespace SheetLint.Program

/-- The path of a place. -/
def pathOf (p : Place) : String := "/" ++ "/".intercalate p

/-- The place that a path leads to, and those passed on the way. -/
def passed (current : Place) (path : String) : List Place :=
  let start := if path.startsWith "/" then [] else current
  (Path.segments path).foldl (fun places segment =>
    let p := places.headD start
    let next :=
      if segment == "" || segment == "." then p
      else if segment == ".." then p.dropLast
      else p ++ [segment]
    next :: places) [start]

/-- What a file holds. -/
def readContent (p : Place) : IO Content := do
  let bytes ← IO.FS.readBinFile (pathOf p)
  return match String.fromUTF8? bytes with
    | some s => .text s.toList
    | none => .binary bytes.toList

/-- The files below a folder. Folders that are linked to are not entered. -/
partial def listBelow (p : Place) : IO (List Place) := do
  let entries ← ((← IO.currentDir) / pathOf p).readDir
  let lists ← entries.toList.mapM fun e => do
    let inner := p ++ [e.fileName]
    if (← e.path.symlinkMetadata).type == .dir then listBelow inner
    else if ← e.path.isDir then return []
    else return [inner]
  return lists.flatten

/-- Adds to a disk what a path leads to, without what the files hold. -/
def show? (disk : Disk) (path : String) : IO Disk := do
  let here ← IO.currentDir
  let places := passed disk.current path
  let folders ← places.filterM fun p => (here / pathOf p).isDir
  let disk := { disk with folders := disk.folders ++ folders }
  match places.head? with
  | none => return disk
  | some p =>
    if ← (here / pathOf p).isDir then
      return { disk with files := disk.files ++ (← listBelow p).map (·, .binary []) }
    else if ← (here / pathOf p).pathExists then
      return { disk with files := disk.files ++ [(p, .binary [])] }
    else return disk

/-- Fills in what the files at some paths hold. -/
def fill (disk : Disk) (paths : List String) : IO Disk := do
  let places := paths.filterMap fun path => (disk.locate path).toOption
  let files ← disk.files.mapM fun f => do
    if places.contains f.1 then return (f.1, ← readContent f.1) else return f
  return { disk with files }

/-- Writes back the files that differ. -/
def writeBack (before after : Disk) : IO Unit :=
  after.files.forM fun f =>
    match f.2 with
    | .text t =>
      if before.contentAt? f.1 == some f.2 then pure ()
      else IO.FS.writeFile (pathOf f.1) (String.ofList t)
    | .binary _ => pure ()

/-- Runs the command that arguments ask for, and gives its exit code. -/
def run (args : List String) : IO UInt32 := do
  let env : Environment :=
    ⟨← IO.getEnv "SCSS_LINT_CONFIG", ← IO.getEnv "SCSS_LINT_CONFIG_DIR", ← IO.getEnv "HOME"⟩
  let current := (Path.segments (← IO.currentDir).toString).filter (· != "")
  let settings := Command.settingsPaths env args
  let listed ← (Command.paths env args ++ settings).foldlM show? ⟨[], [current], current⟩
  let known ← fill listed settings
  let disk ← fill known (settings ++ Command.filesRead known env args)
  let (outcome, last) := Command.run disk env args
  writeBack disk last
  IO.print outcome.output
  if let some complaint := outcome.complaint? then IO.eprintln complaint
  return outcome.exitCode.toUInt32

end SheetLint.Program

/-- Runs the program. -/
def main (args : List String) : IO UInt32 := SheetLint.Program.run args
