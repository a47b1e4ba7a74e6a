/-!
# What can be wrong with a configuration
-/

namespace SheetLint

/-- What can be wrong with the value of an option. -/
inductive OptionFault where
  | expectedBoolean
  | expectedInteger
  | outOfRange (least most : Nat) (found : Int)
  | belowOne
  | expectedOneOf (words : List String)
  | expectedText
  | expectedTexts
  | expectedGroups
  | noGroups
  | invalidPattern
  | unknown
deriving DecidableEq, Repr

namespace OptionFault

/-- The wording of a fault. -/
def message : OptionFault → String
  | expectedBoolean => "expected a boolean"
  | expectedInteger => "expected an integer"
  | outOfRange least most found => s!"must be between {least} and {most}, got {found}"
  | belowOne => "must be at least 1"
  | expectedOneOf words => "expected one of: " ++ ", ".intercalate words
  | expectedText => "expected a string"
  | expectedTexts => "expected an array of strings"
  | expectedGroups => "expected an array of string arrays"
  | noGroups => "expected at least one group"
  | invalidPattern => "invalid regex"
  | unknown => "unknown option"

end OptionFault

/-- Why a configuration is refused. -/
inductive ConfigError where
  /-- The text is no document, or a setting has the wrong shape. -/
  | shape
  | unknownRule (name : String)
  | unknownPreset (name : String)
  /-- An option of a rule, or a setting of a section. -/
  | invalidOption (owner option : String) (fault : OptionFault)
deriving DecidableEq, Repr

namespace ConfigError

/-- The wording of an error. -/
def message : ConfigError → String
  | shape => "Failed to parse config"
  | unknownRule name => s!"Unknown rule '{name}'"
  | unknownPreset name =>
    s!"Unknown preset '{name}' (expected recommended, strict or minimal)"
  | invalidOption owner option fault =>
    s!"Invalid option '{option}' for rule '{owner}': " ++ fault.message

end ConfigError

end SheetLint
