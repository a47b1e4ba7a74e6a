import SheetLint.Proofs.Registry.Standard
import SheetLint.Proofs.Report.Order

/-!
# A report, rule by rule

The violations of all rules are put together, those that a comment allows are left out, and the
rest is sorted. Each violation carries the name of its rule all the way, so a report is told rule
by rule: without one rule, with another severity for one, or with the rules in another order.

Results:
* `Analyzer.lint_of_filter`: leaving rules out.
* `Analyzer.lint_of_regrade`: changing the severity of one rule.
* `Analyzer.check_fix_of_perm`: the order of the rules shows nowhere.
-/

namespace SheetLint

/-- The violation with another severity, if it is one of the rule. -/
def Violation.regrade (rule : String) (level : Severity) (v : Violation) : Violation :=
  if v.rule = rule then { v with severity := level } else v

namespace Analyzer

variable {a a' : Analyzer} {source : Text} {sheet : Stylesheet} {name : String} {level : Severity}

/-! ## What one rule reports -/

/-- The violations of a rule, each with the severity that is set, or else with the rule's own. -/
theorem ruleViolations_eq_map (a : Analyzer) (source : Text) (sheet : Stylesheet) (r : Rule) :
    a.ruleViolations source sheet r = (r.check source sheet).map fun f =>
      { r.label f with severity := (a.config.severity? r.info.name).getD r.severity } := by
  unfold ruleViolations Rule.violations
  cases a.config.severity? r.info.name with
  | none => rfl
  | some severity => exact List.map_map

theorem rule_of_mem_ruleViolations {r : Rule} :
    ∀ v ∈ a.ruleViolations source sheet r, v.rule = r.info.name := by
  intro v hv
  rw [ruleViolations_eq_map] at hv
  obtain ⟨f, -, rfl⟩ := List.mem_map.mp hv
  rfl

/-- The violations of a rule depend on the configuration through the severity set for the rule. -/
theorem ruleViolations_congr {r : Rule}
    (h : a'.config.severity? r.info.name = a.config.severity? r.info.name) (source : Text)
    (sheet : Stylesheet) : a'.ruleViolations source sheet r = a.ruleViolations source sheet r := by
  unfold ruleViolations
  rw [h]

/-- Violations are chosen by their rules when the rules are. -/
theorem filter_flatMap_ruleViolations (keep : String → Bool) (rules : List Rule) :
    ((rules.flatMap (a.ruleViolations source sheet)).filter fun v => keep v.rule) =
      (rules.filter fun r => keep r.info.name).flatMap (a.ruleViolations source sheet) := by
  induction rules with
  | nil => rfl
  | cons r rs ih =>
    rw [List.flatMap_cons, List.filter_append, ih, List.filter_cons]
    split
    · rename_i hkeep
      have hall : ∀ v ∈ a.ruleViolations source sheet r, keep v.rule = true := fun v hv => by
        rw [rule_of_mem_ruleViolations v hv, hkeep]
      rw [List.filter_eq_self.mpr hall, List.flatMap_cons]
    · rename_i hdrop
      have hnone : ∀ v ∈ a.ruleViolations source sheet r, ¬keep v.rule = true := fun v hv => by
        rwa [rule_of_mem_ruleViolations v hv]
      rw [List.filter_eq_nil_iff.mpr hnone, List.nil_append]

/-- What is reported, in the order of the rules. -/
theorem lint_perm (a : Analyzer) (source : Text) (sheet : Stylesheet) :
    (a.lint source sheet).Perm ((a.rules.flatMap (a.ruleViolations source sheet)).filter
      (isReported (Suppression.ofTokens sheet.tokens))) := Violation.sort_perm _

theorem mem_lint_iff {v : Violation} :
    v ∈ a.lint source sheet ↔ (∃ r ∈ a.rules, v ∈ a.ruleViolations source sheet r)
      ∧ isReported (Suppression.ofTokens sheet.tokens) v = true := by
  rw [(lint_perm a source sheet).mem_iff, List.mem_filter, List.mem_flatMap]

theorem isReported_iff {suppressions : List Suppression} {v : Violation} :
    isReported suppressions v = true ↔
      ¬∃ s ∈ suppressions, s.covers v.location.line v.rule v.code = true := by
  unfold isReported Suppression.find?
  rw [Option.isNone_iff_eq_none, List.find?_eq_none]
  simp

/-! ## Leaving rules out, and changing a severity -/

/-- **Leaving rules out** takes their violations out of the lint. -/
theorem lint_of_filter (keep : String → Bool)
    (hrules : a'.rules = a.rules.filter fun r => keep r.info.name)
    (hseverity : ∀ rule, a'.config.severity? rule = a.config.severity? rule) (source : Text)
    (sheet : Stylesheet) :
    a'.lint source sheet = (a.lint source sheet).filter fun v => keep v.rule := by
  have hsame : a'.ruleViolations source sheet = a.ruleViolations source sheet :=
    funext fun r => ruleViolations_congr (hseverity r.info.name) source sheet
  unfold lint
  dsimp only
  rw [hrules, hsame, ← filter_flatMap_ruleViolations, List.filter_comm, Violation.sort_filter]

/-- **Another severity for one rule** changes the severity of its violations in the lint. -/
theorem lint_of_regrade (hrules : a'.rules = a.rules) (source : Text) (sheet : Stylesheet)
    (h : ∀ r ∈ a.rules, a'.ruleViolations source sheet r =
      (a.ruleViolations source sheet r).map (Violation.regrade name level)) :
    a'.lint source sheet = (a.lint source sheet).map (Violation.regrade name level) := by
  have hkept (v : Violation) : (v.regrade name level).location = v.location
      ∧ (v.regrade name level).rule = v.rule ∧ (v.regrade name level).code = v.code := by
    unfold Violation.regrade
    split <;> exact ⟨rfl, rfl, rfl⟩
  have hfound : a'.rules.flatMap (a'.ruleViolations source sheet) =
      (a.rules.flatMap (a.ruleViolations source sheet)).map (Violation.regrade name level) := by
    rw [hrules, List.map_flatMap]
    exact List.flatMap_congr h
  have hreported (suppressions : List Suppression) :
      isReported suppressions ∘ Violation.regrade name level = isReported suppressions := by
    funext v
    simp only [Function.comp_apply, isReported, hkept]
  unfold lint
  dsimp only
  rw [hfound, List.filter_map, hreported, Violation.sort_map fun v => ⟨(hkept v).1, (hkept v).2.1⟩]

/-- The report of an analyzer whose lints are those of another one put through a function. -/
theorem check_of_lint (change : List Violation → List Violation) (hchange : change [] = [])
    (h : ∀ source sheet, a'.lint source sheet = change (a.lint source sheet)) (path : String)
    (source : Text) :
    a'.check path source =
      { a.check path source with violations := change (a.check path source).violations } := by
  unfold check
  dsimp only
  split
  · rw [h]
  · rw [hchange]

/-- Analyzers with the same lints, and the same bound on rounds, report and fix alike. -/
theorem check_fix_of_lint (h : ∀ source sheet, a'.lint source sheet = a.lint source sheet)
    (hbound : a'.config.maxIterations = a.config.maxIterations) (path : String) (source : Text) :
    a'.check path source = a.check path source ∧ a'.fix path source = a.fix path source := by
  have hcheck : a'.check path source = a.check path source := check_of_lint id rfl h path source
  have hlintText : a'.lintText = a.lintText := by
    funext text
    simp only [lintText, h]
  refine ⟨hcheck, ?_⟩
  unfold fix
  rw [hcheck, hlintText, hbound]

/-! ## The order of the rules -/

section Permuted

variable {rules rules' : List Rule}

/-- Rules with names of their own are found by name, in whatever order they stand. -/
theorem filter_name_eq_of_perm (hperm : rules'.Perm rules)
    (hnames : (rules.map fun r => r.info.name).Nodup) (name : String) :
    (rules'.filter fun r => r.info.name = name) = rules.filter fun r => r.info.name = name := by
  have hfound := hperm.filter fun r => decide (r.info.name = name)
  have hsub := (List.filter_sublist (p := fun r => decide (r.info.name = name)) (l := rules)).map
    fun r => r.info.name
  have hnodup := hnames.sublist hsub
  have hname : ∀ r ∈ rules.filter fun r => r.info.name = name, r.info.name = name := fun r hr =>
    of_decide_eq_true (List.mem_filter.mp hr).2
  -- at most one rule has the name, and a list of one is the only order of itself
  match hcase : rules.filter fun r => r.info.name = name with
  | [] =>
    rw [hcase] at hfound ⊢
    exact hfound.eq_nil
  | [r] =>
    rw [hcase] at hfound ⊢
    exact List.perm_singleton.mp hfound
  | r :: r' :: rest =>
    rw [hcase] at hnodup hname
    have hr := hname r List.mem_cons_self
    have hr' := hname r' (List.mem_cons_of_mem r List.mem_cons_self)
    rw [List.map_cons, List.map_cons, hr, hr'] at hnodup
    exact absurd List.mem_cons_self (List.nodup_cons.mp hnodup).1

theorem lint_of_perm (hperm : rules'.Perm rules) (hnames : (rules.map fun r => r.info.name).Nodup)
    (config : Config) (source : Text) (sheet : Stylesheet) :
    (⟨rules', config⟩ : Analyzer).lint source sheet =
      (⟨rules, config⟩ : Analyzer).lint source sheet := by
  refine Violation.sort_eq_of_forall_rule fun name => ?_
  have hchosen := filter_name_eq_of_perm hperm hnames name
  have hfound (rs : List Rule) :
      (((rs.flatMap ((⟨rules, config⟩ : Analyzer).ruleViolations source sheet)).filter
        (isReported (Suppression.ofTokens sheet.tokens))).filter fun v => v.rule = name) =
      ((rs.filter fun r => r.info.name = name).flatMap
        ((⟨rules, config⟩ : Analyzer).ruleViolations source sheet)).filter
          (isReported (Suppression.ofTokens sheet.tokens)) := by
    rw [List.filter_comm, filter_flatMap_ruleViolations fun rule => decide (rule = name)]
  refine (hfound rules').trans (Eq.trans ?_ (hfound rules).symm)
  rw [hchosen]

/-- **The order of the rules shows nowhere**: not in the report on a text, not in the fixed text,
and not in the report on that. -/
theorem check_fix_of_perm (hperm : rules'.Perm rules)
    (hnames : (rules.map fun r => r.info.name).Nodup) (config : Config) (path : String)
    (source : Text) :
    (⟨rules', config⟩ : Analyzer).check path source = (⟨rules, config⟩ : Analyzer).check path source
      ∧ (⟨rules', config⟩ : Analyzer).fix path source =
        (⟨rules, config⟩ : Analyzer).fix path source := by
  have hlint := lint_of_perm hperm hnames config
  have hcheck := check_of_lint id rfl hlint path source
  have hlintText : (⟨rules', config⟩ : Analyzer).lintText = (⟨rules, config⟩ : Analyzer).lintText := by
    funext text
    simp only [lintText, hlint]
  refine ⟨hcheck, ?_⟩
  unfold fix
  rw [hcheck, hlintText]
  rfl

/-- The standard rules in their order and in the opposite one. -/
theorem check_fix_of_perm_reverse :
    let reversed : Analyzer := ⟨Registry.standardRules.reverse, .standard⟩
    let source : Text := "a\x7bb:0px\x7d".toList
    Registry.standardRules.reverse.Perm Registry.standardRules
      ∧ (Registry.standardRules.map fun r => r.info.name).Nodup
      ∧ reversed.check "a.scss" source = Analyzer.standard.check "a.scss" source
      ∧ reversed.fix "a.scss" source = Analyzer.standard.fix "a.scss" source := by
  intro reversed source
  have hperm := List.reverse_perm Registry.standardRules
  have hnames : (Registry.standardRules.map fun r => r.info.name).Nodup := by decide
  exact ⟨hperm, hnames, check_fix_of_perm hperm hnames .standard "a.scss" source⟩

end Permuted

end Analyzer

end SheetLint
