import SheetLint.Rule.BannedFunctions
import SheetLint.Rule.ColorLiteral
import SheetLint.Rule.CommentStyle
import SheetLint.Rule.DeclarationGrouping
import SheetLint.Rule.DeclarationSemicolon
import SheetLint.Rule.DeclarationSpacing
import SheetLint.Rule.EmptyLineBetweenRules
import SheetLint.Rule.Indentation
import SheetLint.Rule.MaxNestingDepth
import SheetLint.Rule.NoImportant
import SheetLint.Rule.PropertyOrder
import SheetLint.Rule.QuoteStyle
import SheetLint.Rule.SelectorNaming
import SheetLint.Rule.SelectorSpacing
import SheetLint.Rule.ShorthandValues
import SheetLint.Rule.ZeroUnit

/-!
# All rules, and the choice of those that run

A preset says which rules run and may raise their severity; the configuration turns single rules
on and off. Instead, rules can be selected by name or code, and then those run and no others.
-/

namespace SheetLint

/-! ## Presets -/

/-- A set of rules to start from. -/
inductive Preset where
  | recommended
  | strict
  | minimal
deriving DecidableEq, Repr

namespace Preset

/-- All presets. -/
def all : List Preset := [recommended, strict, minimal]

/-- The name of a preset. -/
def name : Preset → String
  | recommended => "recommended"
  | strict => "strict"
  | minimal => "minimal"

/-- The rules that only run when asked for. -/
def optIn : List String := ["property-order"]

/-- The rules of the smallest preset. -/
def essential : List String := ["color-literal", "max-nesting-depth", "zero-unit", "no-important"]

/-- Whether a rule is in the preset. -/
def includes (p : Preset) (rule : String) : Bool :=
  match p with
  | recommended => !optIn.contains rule
  | strict => true
  | minimal => essential.contains rule

/-- The severity that the preset gives to all its rules. -/
def severity? : Preset → Option Severity
  | strict => some .error
  | recommended => none
  | minimal => none

/-- The preset with a name. -/
def ofName (name : String) : Except ConfigError Preset :=
  match all.find? (·.name == name) with
  | some p => .ok p
  | none => .error (.unknownPreset name)

/-- The preset of a configuration. -/
def ofConfig (c : Config) : Except ConfigError Preset :=
  match c.preset with
  | none => .ok .recommended
  | some name => ofName name

end Preset

/-! ## The registry -/

namespace Registry

/-- All rules in the order of their codes. -/
def entries : List RuleEntry :=
  [Indentation.entry, SelectorSpacing.entry, ColorLiteral.entry, QuoteStyle.entry,
    DeclarationGrouping.entry, MaxNestingDepth.entry, PropertyOrder.entry, SelectorNaming.entry,
    ZeroUnit.entry, NoImportant.entry, BannedFunctions.entry, DeclarationSpacing.entry,
    DeclarationSemicolon.entry, ShorthandValues.entry, EmptyLineBetweenRules.entry,
    CommentStyle.entry]

/-- The rule with a name, or with a code in any letter case. -/
def resolve? (id : String) : Option RuleEntry :=
  entries.find? fun e => e.info.name == id || e.info.code.toLower == id.toLower

/-- Refuses settings for rules that do not exist, the first in the order of names. -/
def checkNames (c : Config) : Except ConfigError Unit :=
  match c.rules.find? fun entry => !entries.any (·.info.name == entry.1) with
  | some (name, _) => .error (.unknownRule name)
  | none => .ok ()

/-- The rule of an entry with the options and the severity that a configuration gives it. -/
def buildEntry (c : Config) (p : Preset) (e : RuleEntry) : Except ConfigError Rule :=
  e.build (.ofConfig c e.info.name) p.severity?

/-- Whether a rule runs. -/
def isEnabled (c : Config) (p : Preset) (rule : String) : Bool :=
  (c.enabled? rule).getD (p.includes rule)

/-- The rules that a configuration turns on. The options of all rules are checked. -/
def build (c : Config) : Except ConfigError (List Rule) := do
  let preset ← Preset.ofConfig c
  checkNames c
  let rules ← entries.mapM (buildEntry c preset)
  return rules.filter fun r => isEnabled c preset r.info.name

/-- The id without the blanks around it. -/
def trimId (id : String) : String := String.ofList (Text.trim id.toList)

/-- The entries with these names or codes, each once and in the order of first mention. -/
def select : List RuleEntry → List String → Except ConfigError (List RuleEntry)
  | chosen, [] => .ok chosen
  | chosen, id :: ids =>
    match resolve? (trimId id) with
    | none => .error (.unknownRule id)
    | some e =>
      select (if chosen.any (·.info.name == e.info.name) then chosen else chosen ++ [e]) ids

/-- The rules with these names or codes, whether the configuration turns them on or not. -/
def buildSelected (c : Config) (ids : List String) : Except ConfigError (List Rule) := do
  let preset ← Preset.ofConfig c
  checkNames c
  let chosen ← select [] ids
  chosen.mapM (buildEntry c preset)

/-- The rules of a preset without any options set. -/
def ofPreset (p : Preset) : List Rule :=
  (entries.filter fun e => p.includes e.info.name).filterMap fun e =>
    match e.build (.none e.info.name) p.severity? with
    | .ok rule => some rule
    | .error _ => none

end Registry

end SheetLint
