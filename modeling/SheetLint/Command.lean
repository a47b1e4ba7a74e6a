import SheetLint.Analyzer.Files
import SheetLint.Command.Catalogue
import SheetLint.Command.Collect
import SheetLint.Command.Request
import SheetLint.Command.Settings
import SheetLint.Command.Starter

/-!
# Running a command

A command has arguments, an environment and a disk. It comes to an outcome, which tells the exit
code and what is written, and it leaves a disk.

Results:
* `disk_run_of_failed`: a command that fails leaves the disk as it was.
-/

namespace SheetLint

/-- What a command comes to. -/
inductive Outcome where
  | done (exitCode : Nat) (output : String)
  | refused (fault : UsageFault)
  | failed (failure : Failure)
deriving DecidableEq, Repr

namespace Outcome

/-- The exit code. -/
def exitCode : Outcome → Nat
  | done code _ => code
  | refused _ => Verdict.broken.exitCode
  | failed _ => Verdict.broken.exitCode

/-- What is written to the output. -/
def output : Outcome → String
  | done _ output => output
  | refused _ => ""
  | failed _ => ""

/-- What is written to the error output. -/
def complaint? : Outcome → Option String
  | done _ _ => none
  | refused fault => some s!"error: {fault.message}"
  | failed failure => some s!"Error: {failure.message}"

end Outcome

namespace Command

/-- The name and version of the program. -/
def version : String := "scss-lint 0.1.0\n"

/-- How the program is used. -/
def usage : String :=
  "Usage: scss-lint [OPTIONS] <COMMAND>\n\nCommands:\n"
    ++ "  check       Run lint checks\n"
    ++ "  list-rules  List available rules\n"
    ++ "  init        Initialize configuration file\n"

/-- The ids between commas, without blanks around them; empty ones are dropped. -/
def ruleIds (list : String) : List String :=
  (((Text.splitOn ',' list.toList).map Text.trim).filter (· != [])).map String.ofList

/-- The rules that a check runs. -/
def rulesOf (config : Config) (chosen : Option String) : Except Failure (List Rule) :=
  let rules :=
    match chosen with
    | some list => Registry.buildSelected config (ruleIds list)
    | none => Registry.build config
  rules.mapError .badRules

/-- What a check needs before it looks into files. -/
def prepare (disk : Disk) (env : Environment) (config : Option String) (c : CheckRequest) :
    Except Failure (Analyzer × List String) := do
  let config ← Settings.load disk (Settings.path? disk env config c.paths)
  let rules ← rulesOf config c.rules
  let files ← Collect.files disk c.paths config.files.extensions (config.files.exclude ++ c.exclude)
  return (⟨rules, config⟩, files)

/-- Checks or fixes files. -/
def check (disk : Disk) (env : Environment) (config : Option String) (c : CheckRequest) :
    Outcome × Disk :=
  match prepare disk env config c with
  | .error failure => (.failed failure, disk)
  | .ok (a, files) =>
    let (reports, last) :=
      if c.fix then a.fixFiles files disk else (files.map (a.checkFile disk), disk)
    let batch := Batch.ofReports reports
    (.done (batch.exitCode a.config.threshold) (batch.render c.format), last)

/-- Writes a configuration file. -/
def init (disk : Disk) (force : Bool) : Outcome × Disk :=
  let path := Settings.projectFile
  if disk.isPresent path && !force then (.failed (.configPresent path), disk)
  else
    match disk.write path Starter.text.toList with
    | .ok last => (.done 0 (Starter.advice path), last)
    | .error fault => (.failed (.unwritable path fault), disk)

/-- Runs a request. -/
def runRequest (disk : Disk) (env : Environment) (r : Request) : Outcome × Disk :=
  match r.task with
  | .check c => check disk env r.config c
  | .listRules => (.done 0 Catalogue.text, disk)
  | .init force => init disk force

/-- Runs the command that arguments ask for. -/
def run (disk : Disk) (env : Environment) (args : List String) : Outcome × Disk :=
  match Request.ofArguments env.config args with
  | .ok r => runRequest disk env r
  | .error (.fault f) => (.refused f, disk)
  | .error .version => (.done 0 version, disk)
  | .error .help => (.done 0 usage, disk)

/-! ## What a command reads -/

/-- The paths that a request names, or writes to. -/
def pathsOf (r : Request) : List String :=
  match r.task with
  | .check c => c.paths
  | .listRules => []
  | .init _ => [Settings.projectFile]

/-- The paths that arguments name. -/
def paths (env : Environment) (args : List String) : List String :=
  match Request.ofArguments env.config args with
  | .ok r => pathsOf r
  | .error _ => []

/-- The paths where the configuration for arguments can be. -/
def settingsPaths (env : Environment) (args : List String) : List String :=
  match Request.ofArguments env.config args with
  | .ok ⟨config, .check c⟩ => Settings.candidates env config c.paths
  | _ => []

/-- The files that a check looks into. Which ones depends on the configuration and on the names of
files, but on nothing else that files hold. -/
def filesRead (disk : Disk) (env : Environment) (args : List String) : List String :=
  match Request.ofArguments env.config args with
  | .ok ⟨config, .check c⟩ => ((prepare disk env config c).toOption.map Prod.snd).getD []
  | _ => []

/-! ## Laws -/

theorem disk_run_of_failed {disk last : Disk} {env : Environment} {args : List String}
    {failure : Failure} (h : run disk env args = (.failed failure, last)) : last = disk := by
  unfold run at h
  split at h
  · unfold runRequest at h
    split at h
    · unfold check at h
      split at h <;> simp_all
    · simp at h
    · unfold init at h
      simp only at h
      split at h
      · simp_all
      · split at h <;> simp_all
  · simp at h
  · simp at h
  · simp at h

end Command

end SheetLint
