import SheetLint.Command.Failure
import SheetLint.Config
import SheetLint.Disk

/-!
# Where the configuration comes from

The first of these counts: the file that is asked for, a configuration file in the folder of the
first path, the file in the user's folder. When there is none of them, nothing is set.
-/

namespace SheetLint

/-- What the environment says: a configuration file, a folder for the user's configuration, and
the user's home. -/
structure Environment where
  config : Option String
  configFolder : Option String
  home : Option String
deriving DecidableEq, Repr

namespace Settings

/-- The configuration file that is written for a project. -/
def projectFile : String := "scss-lint.toml"

/-- The configuration files of a project, the first one before the other. -/
def projectFiles : List String := [projectFile, "." ++ projectFile]

/-- The configuration file in the user's folder. -/
def userFile : String := "config.toml"

/-- The user's folder. -/
def userFolder? (env : Environment) : Option String :=
  env.configFolder <|> env.home.map fun home => Path.join home ".scss-lint"

/-- The folder whose configuration counts: the first path, or the folder that holds it. -/
def projectFolder (disk : Disk) (paths : List String) : String :=
  match paths with
  | [] => "."
  | first :: _ => if disk.isFolder first then first else Path.folder first

/-- The configuration file that counts, if there is one. -/
def path? (disk : Disk) (env : Environment) (asked : Option String) (paths : List String) :
    Option String :=
  let candidates := projectFiles.map (Path.join (projectFolder disk paths))
  asked <|> candidates.find? disk.isFile
    <|> ((userFolder? env).map fun folder => Path.join folder userFile).filter disk.isFile

/-- The paths where the configuration can be. -/
def candidates (env : Environment) (asked : Option String) (paths : List String) : List String :=
  let folders := paths.head?.toList.flatMap fun first => [first, Path.folder first]
  asked.toList ++ folders.flatMap (fun folder => projectFiles.map (Path.join folder))
    ++ (userFolder? env).toList.map fun folder => Path.join folder userFile

/-- Reads the configuration that counts. -/
def load (disk : Disk) (path : Option String) : Except Failure Config :=
  match path with
  | none => .ok .standard
  | some path =>
    match disk.read path with
    | .error fault => .error (.unreadableConfig path fault)
    | .ok t => (Config.ofText t).mapError (.badConfig path)

end Settings

end SheetLint
