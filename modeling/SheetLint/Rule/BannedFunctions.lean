import SheetLint.Rule
import SheetLint.Value.Call

/-!
# Functions that may not be called

Calls of the listed functions are reported in values and in the preludes of at-rules, at any
depth. Names are compared without regard to letter case.
-/

namespace SheetLint.BannedFunctions

/-- The functions that are banned when no list is given. -/
def standardFunctions : List String :=
  ["lighten", "darken", "saturate", "desaturate", "adjust-hue", "fade-in", "fade-out", "opacify",
    "transparentize"]

/-- The tokens of a node among which calls may stand. -/
def callTokens (n : Node) : List Token :=
  match n.declaration?, n.atRule? with
  | some d, _ => d.value
  | none, some (_, prelude) => prelude
  | none, none => []

/-- The findings for a run of tokens. `banned` holds names in lower case. -/
def runFindings (banned : List Text) (tokens : List Token) : List Finding :=
  ((Call.find tokens).filter fun call => banned.contains call.lowerName).map fun call =>
    { span := call.name.span, message := "Function " ++ Text.quoted call.name.text ++ " is banned" }

/-- Finds calls of the functions. -/
def check (functions : List String) : Check := fun _ sheet =>
  let banned := functions.map fun name => Text.lower name.toList
  sheet.nodes.flatMap fun n => runFindings banned (callTokens n)

/-- The rule and its options. -/
def entry : RuleEntry where
  info := ⟨"SL011", "banned-functions", "Forbids listed functions, legacy color helpers by default",
    .error, false⟩
  options := ["functions"]
  read o := do
    let functions ← o.texts? "functions"
    return check (functions.getD standardFunctions)

end SheetLint.BannedFunctions
