import SheetLint.Rule

/-!
# How deep rule sets may nest

A rule set at the top has depth 1, and each rule set around another adds one; blocks of at-rules
add none.
-/

namespace SheetLint.MaxNestingDepth

/-- The finding for a rule set that is nested too deep, at its selectors. -/
def nodeFindings (most : Nat) : Node → List Finding
  | .block _ _ depth (.ruleSet selectors) _ _ _ _ =>
    let selectors := Tokens.trim selectors
    if most < depth then
      match Tokens.span? selectors with
      | some span =>
        [{ span
           message := "Rule " ++ Text.quoted (Tokens.text selectors)
             ++ s!" is nested {depth} levels deep (max {most})"
           suggestion := some "Flatten the selector or give the element its own class" }]
      | none => []
    else []
  | _ => []

/-- Finds rule sets deeper than `most`. -/
def check (most : Nat) : Check := fun _ sheet => sheet.nodes.flatMap (nodeFindings most)

/-- The rule and its options. -/
def entry : RuleEntry where
  info := ⟨"SL006", "max-nesting-depth", "Limits how deeply rule sets may be nested", .error, false⟩
  options := ["max"]
  read o := do
    let most ← o.natural "max" 3 1 32
    return check most

end SheetLint.MaxNestingDepth
