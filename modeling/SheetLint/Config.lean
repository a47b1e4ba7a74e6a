import SheetLint.Config.Error
import SheetLint.Config.Value
import SheetLint.Text.Order
import SheetLint.Toml
import SheetLint.Violation

/-!
# Configurations

A configuration names a preset and a failure threshold and has settings for the choice of files,
for fixing and for each rule. `Config.ofValue?` reads the shape of a value, `Config.validate`
checks the ranges of what is read; options of rules stay values until their rule reads them.
-/

namespace SheetLint

/-- Which files are looked at, and how many at a time. -/
structure FileSettings where
  exclude : List String
  extensions : List String
  parallelism : Option Nat
deriving DecidableEq, Repr

namespace FileSettings

/-- The extensions looked at when none are named. -/
def standardExtensions : List String := ["scss"]

/-- The settings of a configuration that does not mention them. -/
def standard : FileSettings :=
  ⟨["**/node_modules/**", "**/vendor/**"], standardExtensions, none⟩

end FileSettings

/-- What a configuration holds for one rule. -/
structure RuleSettings where
  enabled : Option Bool
  severity : Option Severity
  /-- The options of the rule, in the order of their names. -/
  options : List (String × ConfigValue)

/-- A configuration. -/
structure Config where
  preset : Option String
  failOn : Option Severity
  files : FileSettings
  maxIterations : Nat
  /-- The settings of rules, in the order of their names. -/
  rules : List (String × RuleSettings)

namespace Config

/-- Bound on the rounds of fixing when none is set. -/
def standardIterations : Nat := 10

/-- The configuration that sets nothing. -/
def standard : Config := ⟨none, none, .standard, standardIterations, []⟩

/-- The settings of a rule. -/
def settings? (c : Config) (rule : String) : Option RuleSettings := c.rules.lookup rule

/-- Whether the configuration turns a rule on or off. -/
def enabled? (c : Config) (rule : String) : Option Bool :=
  (c.settings? rule).bind RuleSettings.enabled

/-- The severity that the configuration gives to a rule. -/
def severity? (c : Config) (rule : String) : Option Severity :=
  (c.settings? rule).bind RuleSettings.severity

/-- The severity from which on a run fails. -/
def threshold (c : Config) : Severity := c.failOn.getD .error

/-! ## Reading the shape -/

/-- Entries in the order of their keys. -/
def sortEntries {α : Type} (entries : List (String × α)) : List (String × α) :=
  entries.mergeSort fun a b => Text.leString a.1 b.1

/-- The settings of a section, one for each name. A table may hold no other entries; an array
gives the settings by position. -/
def section? (names : List String) : ConfigValue → Option (List (Option ConfigValue))
  | .table entries =>
    if entries.all fun entry => names.contains entry.1 then some (names.map fun name => entries.lookup name) else none
  | .array elements => some ((List.range names.length).map (elements[·]?))
  | _ => none

/-- Reads a setting if it is there. -/
def reading {α : Type} (read : ConfigValue → Option α) :
    Option ConfigValue → Option (Option α)
  | none => some none
  | some v => (read v).map some

/-- A number that counts something. -/
def count? (v : ConfigValue) : Option Nat :=
  match v with
  | .integer (.ofNat n) => some n
  | _ => none

/-- A severity given by its word, or by a table whose one key is the word and holds nothing. -/
def severityOf? (v : ConfigValue) : Option Severity :=
  match v with
  | .text w => Severity.ofWord? w
  | .table [(w, .table [])] => Severity.ofWord? w
  | .table [(w, .array [])] => Severity.ofWord? w
  | _ => none

/-- The settings for files in a section. -/
def filesOf? (v : ConfigValue) : Option FileSettings := do
  match ← section? ["exclude", "extensions", "parallelism"] v with
  | [exclude, extensions, parallelism] =>
    return {
      exclude := (← reading ConfigValue.texts? exclude).getD []
      extensions := (← reading ConfigValue.texts? extensions).getD FileSettings.standardExtensions
      parallelism := ← reading count? parallelism }
  | _ => none

/-- The bound on rounds in a section. -/
def iterationsOf? (v : ConfigValue) : Option Nat := do
  match ← section? ["max_iterations"] v with
  | [bound] => return (← reading count? bound).getD standardIterations
  | _ => none

/-- The settings of one rule. What is not a setting of all rules is an option of this one. -/
def ruleOf? : ConfigValue → Option RuleSettings
  | .table entries => do
    return {
      enabled := ← reading ConfigValue.boolean? (entries.lookup "enabled")
      severity := ← reading severityOf? (entries.lookup "severity")
      options := sortEntries
        (entries.filter fun entry => entry.1 != "enabled" && entry.1 != "severity") }
  | _ => none

/-- The settings of all rules. -/
def rulesOf? : ConfigValue → Option (List (String × RuleSettings))
  | .table entries =>
    (entries.mapM fun entry => (ruleOf? entry.2).map fun settings => (entry.1, settings)).map
      sortEntries
  | _ => none

/-- The configuration that a table holds; `none` when a setting has the wrong shape. -/
def ofValue? : ConfigValue → Option Config
  | .table entries => do
    match ← section? ["preset", "fail_on", "analyzer", "fix", "rules"] (.table entries) with
    | [preset, failOn, files, fix, rules] =>
      return {
        preset := ← reading ConfigValue.text? preset
        failOn := ← reading severityOf? failOn
        files := (← reading filesOf? files).getD .standard
        maxIterations := (← reading iterationsOf? fix).getD standardIterations
        rules := (← reading rulesOf? rules).getD [] }
    | _ => none
  | _ => none

/-! ## Checking ranges -/

/-- Fewest and most rounds that may be set. -/
def iterationRange : Nat × Nat := (1, 100)

/-- Checks the numbers that are not options of rules. -/
def validate (c : Config) : Except ConfigError Unit :=
  let (least, most) := iterationRange
  if c.maxIterations < least || most < c.maxIterations then
    .error (.invalidOption "fix" "max_iterations" (.outOfRange least most c.maxIterations))
  else if c.files.parallelism = some 0 then
    .error (.invalidOption "analyzer" "parallelism" .belowOne)
  else .ok ()

/-- Reads and checks the configuration in a value. -/
def ofValue (v : ConfigValue) : Except ConfigError Config := do
  match ofValue? v with
  | none => .error .shape
  | some c => do
    c.validate
    return c

/-- Reads and checks the configuration in a document. -/
def ofText (t : List Char) : Except ConfigError Config :=
  match Toml.document? t with
  | none => .error .shape
  | some v => ofValue v

end Config

end SheetLint
