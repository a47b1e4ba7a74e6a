import SheetLint.Registry

/-!
# The list of rules and presets
-/

namespace SheetLint.Catalogue

/-- A text with blanks behind it, up to a width. -/
def padded (width : Nat) (s : String) : String := s.pushn ' ' (width - s.length)

/-- A row of the table of rules. -/
def row (code name fixable description : String) : String :=
  s!"{padded 8 code} {padded 26 name} {padded 8 fixable} {description}\n"

/-- The row of a rule. -/
def ruleRow (r : RuleInfo) : String :=
  row r.code r.name (if r.fixable then "yes" else "no") r.description

/-- All rules in the order of their codes. -/
def rules : List RuleInfo := Registry.entries.map (·.info)

/-- What is said of a preset beside its rules. -/
def remark : Preset → String
  | .recommended => " (default)"
  | .strict => " at error severity"
  | .minimal => " (for gradual adoption)"

/-- The codes of the rules in a preset. -/
def codes (p : Preset) : List String :=
  (rules.filter fun r => p.includes r.name).map RuleInfo.code

/-- The row of a preset. -/
def presetRow (p : Preset) : String :=
  let included := if (codes p).length = rules.length then "all rules" else ", ".intercalate (codes p)
  s!"  {padded 12 p.name} - {included}{remark p}\n"

/-- The list of rules and presets, and how rules are chosen. -/
def text : String :=
  "Available rules:\n\n" ++ row "Code" "Name" "Fixable" "Description"
    ++ "".pushn '-' 96 ++ "\n" ++ String.join (rules.map ruleRow)
    ++ "\nPresets:\n" ++ String.join (Preset.all.map presetRow)
    ++ "\nUse --rules to run specific rules, e.g.:\n"
    ++ "  scss-lint check --rules zero-unit,color-literal\n"
    ++ "  scss-lint check --rules SL003,SL009 --fix\n"

end SheetLint.Catalogue
