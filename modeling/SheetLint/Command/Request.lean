import SheetLint.Batch.Output
import SheetLint.Command.Arguments

/-!
# Requests

What arguments ask for: a check of files, the list of rules, or a new configuration file. The
options for verbose output and for the configuration file can stand in front of the command or
behind it; what stands behind wins.
-/

namespace SheetLint

/-- A check of files and folders. -/
structure CheckRequest where
  paths : List String
  fix : Bool
  format : Format
  /-- Names or codes of the rules to run, with commas between them. -/
  rules : Option String
  exclude : List String
deriving DecidableEq, Repr

/-- The commands. -/
inductive Task where
  | check (c : CheckRequest)
  | listRules
  /-- Write a configuration file, also over an old one if `force` is set. -/
  | init (force : Bool)
deriving DecidableEq, Repr

/-- A task, and the configuration file that is asked for. -/
structure Request where
  config : Option String
  task : Task
deriving DecidableEq, Repr

/-- What arguments come to when there is nothing to run. -/
inductive Stop where
  | fault (f : UsageFault)
  | version
  | help
deriving DecidableEq, Repr

namespace Request

/-! ## Options -/

/-- Tell more while running. -/
def verboseSwitch : Switch := { long := "verbose", short := some 'v' }

/-- The configuration file to use. -/
def configSwitch : Switch := { long := "config", short := some 'c', value := .path }

/-- Tell how the program is used. -/
def helpSwitch : Switch := { long := "help", short := some 'h' }

/-- Tell the version. -/
def versionSwitch : Switch := { long := "version", short := some 'V' }

/-- Write fixed files back. -/
def fixSwitch : Switch := { long := "fix" }

/-- The form of output. -/
def formatSwitch : Switch := { long := "format", short := some 'f', value := .outputForm }

/-- The rules to run. -/
def rulesSwitch : Switch := { long := "rules", value := .anyText }

/-- A pattern for files to leave out. -/
def excludeSwitch : Switch :=
  { long := "exclude", short := some 'e', value := .anyText, repeats := true }

/-- Replace an old configuration file. -/
def forceSwitch : Switch := { long := "force" }

/-- The options that every command has. -/
def commonSwitches : List Switch := [verboseSwitch, configSwitch, helpSwitch]

/-- The commands, each with its own options. -/
def commands : List (String × List Switch) :=
  [("check", [fixSwitch, formatSwitch, rulesSwitch, excludeSwitch]), ("list-rules", []),
    ("init", [forceSwitch])]

/-- The command that tells about commands. -/
def helpCommand : String := "help"

/-- Whether a word names a command. -/
def isCommand (w : String) : Bool := (commands.lookup w).isSome || w == helpCommand

/-! ## What was given -/

/-- Options and words in the order in which they were given. -/
structure Given where
  options : List (Switch × String) := []
  words : List String := []

namespace Given

/-- Whether an option was given. -/
def has (g : Given) (s : Switch) : Bool := g.options.any (·.1 == s)

/-- The values of an option. -/
def values (g : Given) (s : Switch) : List String :=
  (g.options.filter (·.1 == s)).map Prod.snd

/-- The value of an option that can be given once. -/
def value? (g : Given) (s : Switch) : Option String := g.options.lookup s

end Given

/-- Whether a value is of the kind that is needed. A path is not empty. -/
def isValid : ValueKind → String → Bool
  | .nothing, _ => true
  | .anyText, _ => true
  | .path, v => !v.isEmpty
  | .outputForm, v => (Format.ofWord? v).isSome

/-- Adds an argument. Words are paths. -/
def take (allowsWords : Bool) (g : Given) : Argument → Except Stop Given
  | .word w =>
    if !allowsWords then .error (.fault (.unknown w))
    else if !isValid .path w then .error (.fault (.invalidValue "paths" w))
    else .ok { g with words := g.words ++ [w] }
  | .option s v =>
    if s = helpSwitch then .error .help
    else if s = versionSwitch then .error .version
    else if !isValid s.value v then .error (.fault (.invalidValue s.long v))
    else if g.has s && !s.repeats then .error (.fault (.givenTwice s.long))
    else .ok { g with options := g.options ++ [(s, v)] }

/-- Takes arguments in turn. -/
def takeAll (allowsWords : Bool) (arguments : List Argument) : Except Stop Given :=
  arguments.foldlM (take allowsWords) {}

/-- What is given to a command, all its arguments being its own. -/
def takeOwn (switches : List Switch) (allowsWords : Bool) (args : List String) :
    Except Stop Given := do
  let (arguments, ending) := Argument.scan (commonSwitches ++ switches) (fun _ => false) none args
  let given ← takeAll allowsWords arguments
  match ending with
  | .fault f => .error (.fault f)
  | _ => .ok given

/-! ## Requests -/

/-- The path that is checked when none is given. -/
def standardPath : String := "."

/-- The check that was asked for. -/
def checkOf (g : Given) : CheckRequest where
  paths := if g.words.isEmpty then [standardPath] else g.words
  fix := g.has fixSwitch
  format := ((g.value? formatSwitch).bind Format.ofWord?).getD .text
  rules := g.value? rulesSwitch
  exclude := g.values excludeSwitch

/-- The task of a command. -/
def taskOf (command : String) (args : List String) : Except Stop (Given × Task) := do
  match command with
  | "check" =>
    let given ← takeOwn ((commands.lookup "check").getD []) true args
    return (given, .check (checkOf given))
  | "init" =>
    let given ← takeOwn ((commands.lookup "init").getD []) false args
    return (given, .init (given.has forceSwitch))
  | _ =>
    let given ← takeOwn [] false args
    return (given, .listRules)

/-- Help is about the whole or about one command. -/
def helpOn : List String → Except Stop Request
  | [] => .error .help
  | [w] => .error (if isCommand w then .help else .fault (.unknown w))
  | _ :: w :: _ => .error (.fault (.unknown w))

/-- The configuration file that is asked for: behind the command, else in front of it, else in
the environment. The environment is looked at wherever the option is missing, and may not hold an
empty path. -/
def configOf (environment : Option String) (front back : Option String) :
    Except Stop (Option String) :=
  if environment == some "" && (front.isNone || back.isNone) then
    .error (.fault (.missingValue configSwitch.long))
  else .ok (back <|> front <|> environment)

/-- The request that arguments make. -/
def ofArguments (environment : Option String) (args : List String) : Except Stop Request := do
  let (arguments, ending) :=
    Argument.scan (versionSwitch :: commonSwitches) isCommand none args
  let front ← takeAll false arguments
  match ending with
  | .fault f => .error (.fault f)
  | .finished => .error (.fault .missingCommand)
  | .command name rest =>
    if name == helpCommand then helpOn rest
    else do
      let (back, task) ← taskOf name rest
      let config ←
        configOf environment (front.value? configSwitch) (back.value? configSwitch)
      return { config, task }

end Request

end SheetLint
