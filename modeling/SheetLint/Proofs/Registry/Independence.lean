import SheetLint.Proofs.Registry.Applicable
import SheetLint.Proofs.Registry.Standard
import SheetLint.Proofs.Report.Rules

/-!
# Rules are independent

A rule sees the text and its tree and nothing of the other rules. What it finds is labelled with
its name, suppressed by its name and code, and sorted by place and name. So turning one rule off
takes its violations out of a report and leaves the others as they are, and giving a rule another
severity changes the severities of its violations and nothing else.

Results:
* `Config.settings?_adjust`: changing the settings of one rule leaves those of the others alone.
* `Registry.build_disable`, `Registry.build_withSeverity`: what becomes of the rules that run.
* `Registry.check_independent`: what becomes of the report.
-/

namespace SheetLint

/-! ## Changing the settings of one rule -/

/-- The settings of a rule that a configuration does not mention. -/
def RuleSettings.unset : RuleSettings := ⟨none, none, []⟩

namespace Config

variable {c : Config} {rule : String} {change : RuleSettings → RuleSettings}

/-- Puts the settings of a rule among those of the others, in the order of their names. -/
def putSettings (rule : String) (s : RuleSettings) :
    List (String × RuleSettings) → List (String × RuleSettings)
  | [] => [(rule, s)]
  | (name, t) :: rest =>
    if name = rule then (rule, s) :: rest
    else if Text.leString rule name then (rule, s) :: (name, t) :: rest
    else (name, t) :: putSettings rule s rest

/-- The configuration with the settings of one rule changed. -/
def adjust (c : Config) (rule : String) (change : RuleSettings → RuleSettings) : Config :=
  { c with rules := putSettings rule (change ((c.settings? rule).getD .unset)) c.rules }

/-- The configuration with one rule turned off. -/
def disable (c : Config) (rule : String) : Config :=
  c.adjust rule fun s => { s with enabled := some false }

/-- The configuration with another severity, or none, for one rule. -/
def withSeverity (c : Config) (rule : String) (severity : Option Severity) : Config :=
  c.adjust rule fun s => { s with severity }

theorem lookup_cons_eq_ite (other name : String) (t : RuleSettings)
    (rest : List (String × RuleSettings)) :
    ((name, t) :: rest).lookup other = if other = name then some t else rest.lookup other := by
  rw [List.lookup_cons]
  split
  · rename_i h
    rw [if_pos (beq_iff_eq.mp h)]
  · rename_i h
    rw [if_neg (beq_eq_false_iff_ne.mp h)]

theorem lookup_putSettings (rule other : String) (s : RuleSettings)
    (l : List (String × RuleSettings)) :
    (putSettings rule s l).lookup other = if other = rule then some s else l.lookup other := by
  fun_induction putSettings rule s l with
  | case1 => exact lookup_cons_eq_ite other rule s []
  | case2 t rest =>
    rw [lookup_cons_eq_ite, lookup_cons_eq_ite]
    split <;> rfl
  | case3 name t rest => exact lookup_cons_eq_ite other rule s _
  | case4 name t rest hne _ ih =>
    rw [lookup_cons_eq_ite, lookup_cons_eq_ite, ih]
    by_cases hrule : other = rule
    · rw [if_neg (hrule ▸ Ne.symm hne), if_pos hrule, if_pos hrule]
    · rw [if_neg hrule, if_neg hrule]

theorem mem_putSettings {s : RuleSettings} {l : List (String × RuleSettings)}
    {entry : String × RuleSettings} (h : entry ∈ putSettings rule s l) :
    entry.1 = rule ∨ entry ∈ l := by
  fun_induction putSettings rule s l with
  | case1 => exact .inl (by rw [List.mem_singleton.mp h])
  | case2 t rest =>
    rcases List.mem_cons.mp h with rfl | hmem
    · exact .inl rfl
    · exact .inr (List.mem_cons_of_mem _ hmem)
  | case3 name t rest =>
    rcases List.mem_cons.mp h with rfl | hmem
    · exact .inl rfl
    · exact .inr hmem
  | case4 name t rest _ _ ih =>
    rcases List.mem_cons.mp h with rfl | hmem
    · exact .inr List.mem_cons_self
    · exact (ih hmem).imp_right (List.mem_cons_of_mem _)

/-- **Changing the settings of one rule** leaves those of the others alone. -/
theorem settings?_adjust (other : String) :
    (c.adjust rule change).settings? other =
      if other = rule then some (change ((c.settings? rule).getD .unset)) else c.settings? other :=
  lookup_putSettings rule other _ c.rules

theorem enabled?_disable (other : String) :
    (c.disable rule).enabled? other = if other = rule then some false else c.enabled? other := by
  unfold enabled? disable
  rw [settings?_adjust]
  split <;> rfl

theorem severity?_disable (other : String) : (c.disable rule).severity? other = c.severity? other := by
  unfold severity? disable
  rw [settings?_adjust]
  split
  · rename_i h
    rw [h]
    cases c.settings? rule <;> rfl
  · rfl

theorem enabled?_withSeverity (severity : Option Severity) (other : String) :
    (c.withSeverity rule severity).enabled? other = c.enabled? other := by
  unfold enabled? withSeverity
  rw [settings?_adjust]
  split
  · rename_i h
    rw [h]
    cases c.settings? rule <;> rfl
  · rfl

theorem severity?_withSeverity (severity : Option Severity) (other : String) :
    (c.withSeverity rule severity).severity? other =
      if other = rule then severity else c.severity? other := by
  unfold severity? withSeverity
  rw [settings?_adjust]
  split <;> rfl

/-- The options of every rule stay what they are, unless the change is one of options. -/
theorem ofConfig_adjust (hchange : ∀ s, (change s).options = s.options) (other : String) :
    RuleOptions.ofConfig (c.adjust rule change) other = RuleOptions.ofConfig c other := by
  unfold RuleOptions.ofConfig
  rw [settings?_adjust]
  split
  · rename_i h
    rw [h, Option.map_some, Option.getD_some, hchange]
    cases c.settings? rule <;> rfl
  · rfl

end Config

/-! ## Building the rules again -/

/-- What is made of a list one by one is made of its elements. -/
theorem exists_of_mem_mapM {ε α β : Type} {f : α → Except ε β} {l : List α} {bs : List β}
    (h : l.mapM f = .ok bs) : ∀ b ∈ bs, ∃ a ∈ l, f a = .ok b := by
  induction l generalizing bs with
  | nil =>
    cases h
    exact fun b hb => absurd hb List.not_mem_nil
  | cons a as ih =>
    rw [List.mapM_cons] at h
    obtain ⟨b, hb, h⟩ := exists_of_bind_eq_ok h
    obtain ⟨rest, hrest, h⟩ := exists_of_bind_eq_ok h
    cases h
    intro c hc
    rcases List.mem_cons.mp hc with rfl | hmem
    · exact ⟨a, List.mem_cons_self, hb⟩
    · obtain ⟨a', ha', hc⟩ := ih hrest c hmem
      exact ⟨a', List.mem_cons_of_mem a ha', hc⟩

namespace Registry

variable {c : Config} {rules : List Rule} {e : RuleEntry}

/-- What is known of the rules that a configuration turns on. -/
theorem exists_of_build (h : build c = .ok rules) :
    ∃ preset all, Preset.ofConfig c = .ok preset ∧ checkNames c = .ok ()
      ∧ entries.mapM (buildEntry c preset) = .ok all
      ∧ rules = all.filter fun r => isEnabled c preset r.info.name := by
  obtain ⟨preset, hpreset, h⟩ := exists_of_bind_eq_ok h
  obtain ⟨_, hnames, h⟩ := exists_of_bind_eq_ok h
  obtain ⟨all, hall, h⟩ := exists_of_bind_eq_ok h
  cases h
  exact ⟨preset, all, hpreset, hnames, hall, rfl⟩

theorem build_of {preset : Preset} {all : List Rule} (hpreset : Preset.ofConfig c = .ok preset)
    (hnames : checkNames c = .ok ()) (hall : entries.mapM (buildEntry c preset) = .ok all) :
    build c = .ok (all.filter fun r => isEnabled c preset r.info.name) := by
  simp only [build, hpreset, hnames, hall, bind, Except.bind]
  rfl

theorem checkNames_eq_ok_iff :
    checkNames c = .ok () ↔ ∀ entry ∈ c.rules, entries.any (·.info.name == entry.1) = true := by
  unfold checkNames
  cases hfind : c.rules.find? fun entry => !entries.any (·.info.name == entry.1) with
  | none =>
    simp only [true_iff]
    intro entry hentry
    simpa using List.find?_eq_none.mp hfind entry hentry
  | some found =>
    obtain ⟨name, s⟩ := found
    simp only [reduceCtorEq, false_iff]
    intro hall
    have hknown := hall (name, s) (List.mem_of_find?_eq_some hfind)
    have hunknown := List.find?_some hfind
    rw [hknown] at hunknown
    cases hunknown

/-- A change of a rule's settings, its options apart, builds the same rules of all entries. -/
theorem build_adjust (he : e ∈ entries) (change : RuleSettings → RuleSettings)
    (hchange : ∀ s, (change s).options = s.options) {preset : Preset} {all : List Rule}
    (hpreset : Preset.ofConfig c = .ok preset) (hnames : checkNames c = .ok ())
    (hall : entries.mapM (buildEntry c preset) = .ok all) :
    build (c.adjust e.info.name change) =
      .ok (all.filter fun r => isEnabled (c.adjust e.info.name change) preset r.info.name) := by
  refine build_of hpreset ?_ ?_
  · rw [checkNames_eq_ok_iff] at hnames ⊢
    intro entry hentry
    rcases Config.mem_putSettings hentry with hname | hmem
    · exact List.any_eq_true.mpr ⟨e, he, by rw [hname]; exact beq_self_eq_true _⟩
    · exact hnames entry hmem
  · rw [← hall]
    refine congrArg (entries.mapM ·) (funext fun entry => ?_)
    unfold buildEntry
    rw [Config.ofConfig_adjust hchange]

/-- **Turning a rule off** leaves the others that run. -/
theorem build_disable (he : e ∈ entries) (hbuild : build c = .ok rules) :
    build (c.disable e.info.name) = .ok (rules.filter fun r => r.info.name ≠ e.info.name) := by
  obtain ⟨preset, all, hpreset, hnames, hall, rfl⟩ := exists_of_build hbuild
  have hdisabled : build (c.disable e.info.name) =
      .ok (all.filter fun r => isEnabled (c.disable e.info.name) preset r.info.name) :=
    build_adjust he (fun s => { s with enabled := some false }) (fun _ => rfl) hpreset hnames hall
  rw [hdisabled, List.filter_filter]
  congr 1
  refine List.filter_congr fun r _ => ?_
  unfold isEnabled
  rw [Config.enabled?_disable]
  by_cases hname : r.info.name = e.info.name <;> simp [hname]

/-- **Another severity** leaves the rules that run as they are. -/
theorem build_withSeverity (he : e ∈ entries) (hbuild : build c = .ok rules)
    (severity : Option Severity) : build (c.withSeverity e.info.name severity) = .ok rules := by
  obtain ⟨preset, all, hpreset, hnames, hall, rfl⟩ := exists_of_build hbuild
  have hchanged : build (c.withSeverity e.info.name severity) =
      .ok (all.filter fun r =>
        isEnabled (c.withSeverity e.info.name severity) preset r.info.name) :=
    build_adjust he (fun s => { s with severity }) (fun _ => rfl) hpreset hnames hall
  rw [hchanged]
  congr 1
  refine List.filter_congr fun r _ => ?_
  unfold isEnabled
  rw [Config.enabled?_withSeverity]

theorem eq_of_name_eq : ∀ e ∈ entries, ∀ e' ∈ entries, e.info.name = e'.info.name → e.info = e'.info := by
  have hnodup : (entries.map fun e => e.info.name).Nodup := by decide
  exact fun e he e' he' h => by rw [List.inj_on_of_nodup_map hnodup he he' h]

/-- The severity that a rule has of its own: that of the preset, or else its standard one. -/
theorem severity_of_build (he : e ∈ entries) {preset : Preset}
    (hpreset : Preset.ofConfig c = .ok preset) (hbuild : build c = .ok rules) :
    ∀ r ∈ rules, r.info.name = e.info.name → r.severity = preset.severity?.getD e.info.severity := by
  obtain ⟨preset', all, hpreset', -, hall, rfl⟩ := exists_of_build hbuild
  rw [hpreset] at hpreset'
  cases hpreset'
  intro r hr hname
  obtain ⟨entry, hentry, hmade⟩ := exists_of_mem_mapM hall r (List.mem_filter.mp hr).1
  obtain ⟨_, -, hmade⟩ := exists_of_bind_eq_ok hmade
  obtain ⟨_, -, hmade⟩ := exists_of_bind_eq_ok hmade
  cases hmade
  rw [eq_of_name_eq entry hentry e he hname]

end Registry

/-! ## The report -/

namespace Registry

variable {c : Config} {rules : List Rule} {e : RuleEntry}

/-- The violations of the rules that run, when one rule is given another severity: the one that is
set, or else the one that the rule has of its own. -/
theorem ruleViolations_withSeverity (he : e ∈ entries) {preset : Preset}
    (hpreset : Preset.ofConfig c = .ok preset) (hbuild : build c = .ok rules)
    (severity : Option Severity) (source : Text) (sheet : Stylesheet) :
    ∀ r ∈ rules,
      (⟨rules, c.withSeverity e.info.name severity⟩ : Analyzer).ruleViolations source sheet r =
        ((⟨rules, c⟩ : Analyzer).ruleViolations source sheet r).map
          (.regrade e.info.name (severity.getD (preset.severity?.getD e.info.severity))) := by
  intro r hr
  rw [Analyzer.ruleViolations_eq_map, Analyzer.ruleViolations_eq_map, List.map_map]
  refine List.map_congr_left fun f _ => ?_
  dsimp only [Function.comp_apply, Violation.regrade]
  rw [Config.severity?_withSeverity]
  by_cases hname : r.info.name = e.info.name
  · rw [if_pos hname, if_pos (show (r.label f).rule = e.info.name from hname),
      severity_of_build he hpreset hbuild r hr hname]
  · rw [if_neg hname, if_neg (show ¬(r.label f).rule = e.info.name from hname)]

/-- **The rules are independent.** Turning a rule off takes its violations out of the report and
leaves the rest as it is. Another severity for a rule, or none, changes the severities of its
violations and leaves the rest as it is. -/
theorem check_independent (he : e ∈ entries) (hbuild : build c = .ok rules) (path : String)
    (source : Text) :
    (∃ fewer, build (c.disable e.info.name) = .ok fewer
        ∧ (⟨fewer, c.disable e.info.name⟩ : Analyzer).check path source =
          let report := (⟨rules, c⟩ : Analyzer).check path source
          { report with violations := report.violations.filter fun v => v.rule ≠ e.info.name })
      ∧ ∀ severity, ∃ preset, Preset.ofConfig c = .ok preset
        ∧ build (c.withSeverity e.info.name severity) = .ok rules
        ∧ (⟨rules, c.withSeverity e.info.name severity⟩ : Analyzer).check path source =
          let report := (⟨rules, c⟩ : Analyzer).check path source
          let level := severity.getD (preset.severity?.getD e.info.severity)
          { report with violations := report.violations.map (.regrade e.info.name level) } := by
  constructor
  · refine ⟨_, build_disable he hbuild, ?_⟩
    exact Analyzer.check_of_lint (a := ⟨rules, c⟩) _ List.filter_nil (fun source sheet =>
      Analyzer.lint_of_filter (fun rule => rule ≠ e.info.name) rfl
        (fun _ => Config.severity?_disable _) source sheet) path source
  · intro severity
    obtain ⟨preset, -, hpreset, -⟩ := exists_of_build hbuild
    refine ⟨preset, hpreset, build_withSeverity he hbuild severity, ?_⟩
    refine Analyzer.check_of_lint (a := ⟨rules, c⟩) _ List.map_nil (fun source sheet => ?_) path
      source
    refine Analyzer.lint_of_regrade (a := ⟨rules, c⟩) ?_ source sheet
      (ruleViolations_withSeverity he hpreset hbuild severity source sheet)
    rfl

/-- Zero lengths with a unit, turned off and turned into errors. -/
theorem check_independent_zeroUnit :
    let source : Text := "a \x7b b: 0px \x7d".toList
    ZeroUnit.entry ∈ entries ∧ build .standard = .ok standardRules
      ∧ (∃ fewer, build (Config.standard.disable "zero-unit") = .ok fewer
          ∧ (⟨fewer, Config.standard.disable "zero-unit"⟩ : Analyzer).check "a.scss" source =
            let report := Analyzer.standard.check "a.scss" source
            { report with violations := report.violations.filter fun v => v.rule ≠ "zero-unit" })
      ∧ ∀ severity, ∃ preset, Preset.ofConfig .standard = .ok preset
        ∧ build (Config.standard.withSeverity "zero-unit" severity) = .ok standardRules
        ∧ (⟨standardRules, Config.standard.withSeverity "zero-unit" severity⟩ : Analyzer).check
            "a.scss" source =
          let report := Analyzer.standard.check "a.scss" source
          let level := severity.getD (preset.severity?.getD .warning)
          { report with violations := report.violations.map (.regrade "zero-unit" level) } := by
  intro source
  have hentry : ZeroUnit.entry ∈ entries := by simp [entries]
  exact ⟨hentry, build_standard, check_independent hentry build_standard "a.scss" source⟩

end Registry

end SheetLint
