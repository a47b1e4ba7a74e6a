/-!
# Arguments of a command

Arguments are options and words. An option is written `--name` or, if it has a letter, `-n`; its
value follows as the next argument, behind `=`, or right behind the letter. Letters can share a
dash. Behind `--` there are only words. Arguments are understood from left to right, up to the
first fault or the word that names a command.
-/

namespace SheetLint

/-- What an option needs as its value. -/
inductive ValueKind where
  | nothing
  | anyText
  | path
  | outputForm
deriving DecidableEq, Repr

/-- An option that can be given. -/
structure Switch where
  long : String
  short : Option Char := none
  value : ValueKind := .nothing
  /-- Whether it can be given more than once. -/
  repeats : Bool := false
deriving DecidableEq, Repr

/-- What is wrong with arguments. -/
inductive UsageFault where
  | unknown (argument : String)
  | missingValue (option : String)
  | unneededValue (option : String)
  | invalidValue (option value : String)
  | givenTwice (option : String)
  | missingCommand
deriving DecidableEq, Repr

namespace UsageFault

/-- The wording of a fault. -/
def message : UsageFault → String
  | unknown argument => s!"unexpected argument '{argument}' found"
  | missingValue option => s!"a value is required for '--{option}' but none was supplied"
  | unneededValue option => s!"'--{option}' takes no value"
  | invalidValue option value => s!"invalid value '{value}' for '--{option}'"
  | givenTwice option => s!"the argument '--{option}' cannot be used multiple times"
  | missingCommand => "a command is required"

end UsageFault

/-- An argument that was understood. -/
inductive Argument where
  | option (switch : Switch) (value : String)
  | word (w : String)
deriving DecidableEq, Repr

namespace Argument

/-- Where the understanding of arguments ends. -/
inductive Ending where
  | finished
  | fault (f : UsageFault)
  | command (name : String) (rest : List String)
deriving DecidableEq, Repr

/-- Arguments that were understood, and where that ended. -/
abbrev Scan := List Argument × Ending

/-- Whether an argument stands for itself. A lone dash does. -/
def isWord (a : String) : Bool := !a.startsWith "-" || a == "-"

/-- Puts an argument in front. -/
def before (a : Argument) (s : Scan) : Scan := (a :: s.1, s.2)

/-- What letters behind one dash end with. -/
inductive ClusterEnd where
  | done
  | value (switch : Switch) (attached : Option String)
  | unknown (c : Char)
deriving DecidableEq, Repr

/-- The value written right behind a letter. -/
def attached? : List Char → Option String
  | [] => none
  | '=' :: value => some (String.ofList value)
  | value => some (String.ofList value)

/-- Reads letters behind one dash: those that take no value, and what stops them. -/
def cluster (switches : List Switch) : List Char → List Argument × ClusterEnd
  | [] => ([], .done)
  | c :: cs =>
    match switches.find? (·.short == some c) with
    | none => ([], .unknown c)
    | some s =>
      if s.value = .nothing then
        let (flags, ending) := cluster switches cs
        (.option s "" :: flags, ending)
      else ([], .value s (attached? cs))

/-- The name of a long option, and the value behind `=`. -/
def longParts (a : String) : String × Option String :=
  let body := a.toList.drop 2
  let name := body.takeWhile (· != '=')
  match body.dropWhile (· != '=') with
  | [] => (String.ofList name, none)
  | _ :: value => (String.ofList name, some (String.ofList value))

/-- Understands arguments. `waiting` is an option whose value comes next. -/
def scan (switches : List Switch) (isCommand : String → Bool) :
    Option Switch → List String → Scan
  | none, [] => ([], .finished)
  | some s, [] => ([], .fault (.missingValue s.long))
  | some s, a :: rest =>
    if isWord a then before (.option s a) (scan switches isCommand none rest)
    else ([], .fault (.missingValue s.long))
  | none, a :: rest =>
    if a == "--" then (rest.map .word, .finished)
    else if isWord a then
      if isCommand a then ([], .command a rest)
      else before (.word a) (scan switches isCommand none rest)
    else if a.startsWith "--" then
      let (name, value) := longParts a
      match switches.find? (·.long == name) with
      | none => ([], .fault (.unknown a))
      | some s =>
        if s.value = .nothing then
          if value.isSome then ([], .fault (.unneededValue s.long))
          else before (.option s "") (scan switches isCommand none rest)
        else
          match value with
          | some v => before (.option s v) (scan switches isCommand none rest)
          | none => scan switches isCommand (some s) rest
    else
      let (flags, ending) := cluster switches (a.toList.drop 1)
      match ending with
      | .done => (scan switches isCommand none rest).map (flags ++ ·) id
      | .unknown _ => (flags, .fault (.unknown a))
      | .value s (some v) =>
        (before (.option s v) (scan switches isCommand none rest)).map (flags ++ ·) id
      | .value s none => (scan switches isCommand (some s) rest).map (flags ++ ·) id

end Argument

end SheetLint
