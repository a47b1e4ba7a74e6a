import Mathlib
import SheetLint.Analyzer

/-!
# The rules of the standard configuration

The configuration that sets nothing runs every rule but `property-order`, each with the options and
the severity it has of its own.

Results:
* `acceptsOf?_standardPattern`: the standard pattern for selector names is an expression.
* `build_standard`: the rules that the standard configuration turns on.
-/

namespace SheetLint

namespace SelectorNaming

/-- Whether the standard pattern is found in a name. -/
def acceptsStandard : Text → Bool := (acceptsOf? standardPattern).getD fun _ => true

theorem acceptsOf?_standardPattern : acceptsOf? standardPattern = some acceptsStandard := by
  have hread : (Regex.ofText? standardPattern.toList).isSome = true := by cbv
  unfold acceptsStandard acceptsOf?
  cases h : Regex.ofText? standardPattern.toList with
  | none =>
    rw [h] at hread
    cases hread
  | some r => rfl

end SelectorNaming

namespace Registry

/-- The rules that run when nothing is set. -/
def standardRules : List Rule :=
  [⟨Indentation.entry.info, .warning, Indentation.check {}⟩,
   ⟨SelectorSpacing.entry.info, .warning, SelectorSpacing.check⟩,
   ⟨ColorLiteral.entry.info, ColorLiteral.entry.info.severity, ColorLiteral.check {}⟩,
   ⟨QuoteStyle.entry.info, .warning, QuoteStyle.check .single⟩,
   ⟨DeclarationGrouping.entry.info, .warning, DeclarationGrouping.check true⟩,
   ⟨MaxNestingDepth.entry.info, .error, MaxNestingDepth.check 3⟩,
   ⟨SelectorNaming.entry.info, .error, SelectorNaming.check SelectorNaming.acceptsStandard⟩,
   ⟨ZeroUnit.entry.info, .warning, ZeroUnit.check⟩,
   ⟨NoImportant.entry.info, .error, NoImportant.check⟩,
   ⟨BannedFunctions.entry.info, .error, BannedFunctions.check BannedFunctions.standardFunctions⟩,
   ⟨DeclarationSpacing.entry.info, .warning, DeclarationSpacing.check⟩,
   ⟨DeclarationSemicolon.entry.info, .warning, DeclarationSemicolon.check⟩,
   ⟨ShorthandValues.entry.info, .warning, ShorthandValues.check⟩,
   ⟨EmptyLineBetweenRules.entry.info, .warning, EmptyLineBetweenRules.check⟩,
   ⟨CommentStyle.entry.info, .warning, CommentStyle.check true⟩]

/-- The one rule whose options the reader of patterns has a say in. -/
theorem buildEntry_selectorNaming :
    buildEntry .standard .recommended SelectorNaming.entry =
      .ok ⟨SelectorNaming.entry.info, .error,
        SelectorNaming.check SelectorNaming.acceptsStandard⟩ := by
  have hpattern := SelectorNaming.acceptsOf?_standardPattern
  simp only [buildEntry, RuleEntry.build, SelectorNaming.entry, RuleOptions.ofConfig,
    Config.settings?, Config.standard, List.lookup, RuleOptions.text?, RuleOptions.read,
    Option.map_none, Option.getD_none, bind, Except.bind, pure, Except.pure, hpattern,
    RuleOptions.refuseOthers, List.find?_nil]
  rfl

/-- **The rules of the standard configuration.** -/
theorem build_standard : build .standard = .ok standardRules := by
  have hpreset : Preset.ofConfig .standard = .ok .recommended := rfl
  have hnames : checkNames .standard = .ok () := rfl
  unfold build
  simp only [hpreset, hnames, bind, Except.bind, entries, List.mapM_cons,
    buildEntry_selectorNaming]
  rfl

end Registry

/-- The standard rules with the standard configuration. -/
def Analyzer.standard : Analyzer := ⟨Registry.standardRules, .standard⟩

end SheetLint
