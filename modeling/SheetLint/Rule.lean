import SheetLint.Config.Options
import SheetLint.Tree

/-!
# Rules

A check looks at a source text and its tree and gives findings. A rule is a check with a name, a
code and a severity, which it puts on its findings to make them violations. A rule entry says how
a rule is made from the options of a configuration.
-/

namespace SheetLint

/-- What a check found: a place, a message, and a hint or a fix where it has one. -/
structure Finding where
  span : Span
  message : String
  suggestion : Option String := none
  fix : Option Fix := none

/-- A function that finds faults in a text with this tree. -/
abbrev Check := Text → Stylesheet → List Finding

/-- What is known of a rule before its options are read. -/
structure RuleInfo where
  code : String
  name : String
  description : String
  severity : Severity
  fixable : Bool
deriving DecidableEq, Repr

/-- A rule that is ready to run. -/
structure Rule where
  info : RuleInfo
  severity : Severity
  check : Check

namespace Rule

/-- Makes a finding of the rule a violation. -/
def label (r : Rule) (f : Finding) : Violation :=
  { code := r.info.code
    rule := r.info.name
    severity := r.severity
    location := .ofSpan f.span
    message := f.message
    suggestion := f.suggestion
    fix := f.fix }

/-- What the rule finds in a text with this tree. -/
def violations (r : Rule) (source : Text) (sheet : Stylesheet) : List Violation :=
  (r.check source sheet).map r.label

end Rule

/-- How a rule is made from its options. -/
structure RuleEntry where
  info : RuleInfo
  /-- The options that the rule reads. -/
  options : List String
  /-- The check for these options. -/
  read : RuleOptions → Except ConfigError Check

namespace RuleEntry

/-- The rule for these options, of the given severity if there is one. -/
def build (e : RuleEntry) (options : RuleOptions) (severity : Option Severity) :
    Except ConfigError Rule := do
  let check ← e.read options
  options.refuseOthers e.options
  return ⟨e.info, severity.getD e.info.severity, check⟩

end RuleEntry

end SheetLint
