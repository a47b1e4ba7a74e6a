import Mathlib
import SheetLint.Proofs.Config.Options
import SheetLint.Proofs.Registry.Independence
import SheetLint.Proofs.Text.Bytes

/-!
# Which configurations are accepted

A configuration is accepted when its preset, the rules it has settings for and the options of all
rules, those that are turned off included, are as they have to be. What the options of a rule have
to be is said by one table, `Registry.optionKinds`, which the reading of each rule is compared
with.

Results:
* `Config.ordered_of_ofValue`: a configuration that was read has its rules in the order of names.
* `Registry.reads_of_mem_entries`: each rule reads the options that the table lists for it.
* `Registry.build_exact`: which configurations give rules, which rules, and what is wrong else.
-/

namespace SheetLint

/-! ## Configurations -/

namespace Config

variable {c : Config} {v : ConfigValue}

/-- The value that is set for an option of a rule. -/
def option? (c : Config) (rule key : String) : Option ConfigValue :=
  (c.settings? rule).bind fun s => s.options.lookup key

/-- Whether a preset is the one that the configuration starts from. -/
def HasPreset (c : Config) (p : Preset) : Prop :=
  c.preset = some p.name ∨ c.preset = none ∧ p = .recommended

/-- Whether the settings of rules stand in the order of their names. -/
def Ordered (c : Config) : Prop := c.rules.Pairwise fun a b => Text.leString a.1 b.1 = true

theorem lookup_ofConfig (c : Config) (rule key : String) :
    (RuleOptions.ofConfig c rule).table.lookup key = c.option? rule key := by
  unfold RuleOptions.ofConfig option?
  cases c.settings? rule <;> rfl

theorem pairwise_sortEntries {α : Type} (entries : List (String × α)) :
    (sortEntries entries).Pairwise fun a b => Text.leString a.1 b.1 = true := by
  refine List.pairwise_mergeSort ?_ ?_ entries
  · exact fun _ _ _ hab hbc => Text.le_trans hab hbc
  · exact fun _ _ => Text.le_total _ _

theorem pairwise_of_rulesOf? {rules : List (String × RuleSettings)} (h : rulesOf? v = some rules) :
    rules.Pairwise fun a b => Text.leString a.1 b.1 = true := by
  cases v with
  | table entries =>
    obtain ⟨read, -, rfl⟩ := Option.map_eq_some_iff.mp h
    exact pairwise_sortEntries read
  | text | integer | float | boolean | moment | array => cases h

theorem ordered_of_ofValue? (h : ofValue? v = some c) : c.Ordered := by
  cases v with
  | table entries =>
    simp only [ofValue?, section?, bind, pure, Option.bind_eq_some_iff,
      Option.ite_none_right_eq_some, List.map_cons, List.map_nil] at h
    obtain ⟨_, ⟨-, hsection⟩, h⟩ := h
    cases hsection
    simp only [Option.bind_eq_some_iff] at h
    obtain ⟨_, -, _, -, _, -, _, -, rules, hrules, h⟩ := h
    cases h
    -- A configuration without a section on rules has settings for none.
    cases hsetting : entries.lookup "rules" with
    | none =>
      rw [hsetting] at hrules
      cases hrules
      exact .nil
    | some w =>
      rw [hsetting] at hrules
      obtain ⟨read, hread, rfl⟩ := Option.map_eq_some_iff.mp hrules
      exact pairwise_of_rulesOf? hread
  | text | integer | float | boolean | moment | array => cases h

/-- **The rules of a configuration that was read** stand in the order of their names. -/
theorem ordered_of_ofValue (h : ofValue v = .ok c) : c.Ordered := by
  unfold ofValue at h
  cases hread : ofValue? v with
  | none => simp [hread] at h
  | some d =>
    simp only [hread] at h
    obtain ⟨_, -, h⟩ := exists_of_bind_eq_ok h
    cases h
    exact ordered_of_ofValue? hread

end Config

/-! ## The options of the rules -/

/-- A text that is an expression, as the reader of expressions has it. -/
def OptionKind.pattern : OptionKind := .readable fun s => (SelectorNaming.acceptsOf? s).isSome

namespace RuleOptions

variable (o : RuleOptions)

/-- What the reader of groups makes of an array. -/
theorem readGroups_of_array {elements : List ConfigValue}
    (hv : o.table.lookup "groups" = some (.array elements)) :
    PropertyOrder.readGroups o =
      match elements.mapM ConfigValue.texts? with
      | some (group :: groups) => .ok ((group :: groups).map fun names => names.map String.toLower)
      | some [] => .error (.invalidOption o.rule "groups" .noGroups)
      | .none => .error (.invalidOption o.rule "groups" .expectedGroups) := by
  unfold PropertyOrder.readGroups groups? read
  rw [hv]
  cases hgroups : elements.mapM ConfigValue.texts? with
  | none => simp [ConfigValue.array?, hgroups, fail, bind, Except.bind]
  | some groups =>
    cases groups <;>
      simp [ConfigValue.array?, hgroups, fail, bind, Except.bind, pure, Except.pure]

theorem readsAs_readGroups : o.ReadsAs [("groups", .groups)] (PropertyOrder.readGroups o) := by
  refine readsAs_option (fun hv => ⟨PropertyOrder.standardGroups, ?_⟩) fun v hv => ?_
  · simp [PropertyOrder.readGroups, groups?, read, hv, bind, Except.bind, pure, Except.pure]
  · cases v with
    | array elements =>
      have hshape := exists_mapM_eq_some_iff (f := ConfigValue.texts?) (l := elements)
      simp only [ConfigValue.exists_texts?_iff] at hshape
      rw [o.readGroups_of_array hv]
      cases hgroups : elements.mapM ConfigValue.texts? with
      | none =>
        refine .inr ⟨?_, ?_⟩
        · cases elements with
          | nil => cases hgroups
          | cons => rfl
        · rintro ⟨_, h, -, htexts⟩
          cases h
          obtain ⟨_, hread⟩ := hshape.mpr htexts
          cases hgroups.symm.trans hread
      | some groups =>
        have htexts := hshape.mp ⟨groups, hgroups⟩
        cases elements with
        | nil =>
          cases hgroups
          exact .inr ⟨rfl, by simp [OptionKind.Accepts]⟩
        | cons e es =>
          rw [List.mapM_cons] at hgroups
          obtain ⟨_, -, hgroups⟩ := Option.bind_eq_some_iff.mp hgroups
          obtain ⟨_, -, hgroups⟩ := Option.bind_eq_some_iff.mp hgroups
          cases hgroups
          exact .inl ⟨⟨_, rfl⟩, _, rfl, List.cons_ne_nil _ _, htexts⟩
    | text | integer | float | boolean | moment | table =>
      simp [PropertyOrder.readGroups, groups?, read, hv, ConfigValue.array?, fail, bind,
        Except.bind, OptionKind.Accepts, OptionKind.faultOf]

theorem readsAs_pattern : o.ReadsAs [("pattern", .pattern)] (SelectorNaming.entry.read o) := by
  refine readsAs_option (fun hv => ?_) fun v hv => ?_
  · simp [SelectorNaming.entry, text?, read, hv, bind, Except.bind, pure, Except.pure,
      SelectorNaming.acceptsOf?_standardPattern]
  · cases v with
    | text s =>
      cases hpattern : SelectorNaming.acceptsOf? s <;>
        simp [SelectorNaming.entry, text?, read, hv, bind, Except.bind, pure, Except.pure,
          ConfigValue.text?, hpattern, OptionKind.pattern, OptionKind.Accepts,
          OptionKind.faultOf, fail]
    | integer | float | boolean | moment | array | table =>
      simp [SelectorNaming.entry, text?, read, hv, bind, Except.bind, ConfigValue.text?,
        OptionKind.pattern, OptionKind.Accepts, OptionKind.faultOf, fail]

end RuleOptions

namespace Registry

variable {c : Config} {p : Preset} {e : RuleEntry}

/-- What the options of each rule have to be, for the rules that have options. -/
def optionKinds : List (String × List (String × OptionKind)) :=
  [("indentation", [("width", .integer 1 8), ("style", .word ["space", "tab"])]),
    ("color-literal", [("case", .word ["lower", "upper"]), ("shorthand", .boolean)]),
    ("quote-style", [("style", .word ["single", "double"])]),
    ("declaration-grouping", [("single_line", .boolean)]),
    ("max-nesting-depth", [("max", .integer 1 32)]),
    ("property-order", [("include_first", .boolean), ("groups", .groups)]),
    ("selector-naming", [("pattern", .pattern)]),
    ("banned-functions", [("functions", .texts)]),
    ("comment-style", [("allow_headings", .boolean)])]

/-- What the options of a rule have to be. -/
def kindsOf (rule : String) : List (String × OptionKind) := (optionKinds.lookup rule).getD []

theorem options_of_mem_entries :
    ∀ e ∈ entries, e.options = (kindsOf e.info.name).map Prod.fst := by
  decide

theorem nodup_options : ∀ e ∈ entries, ((kindsOf e.info.name).map Prod.fst).Nodup := by
  decide

/-- **Each rule reads the options that the table lists for it.** -/
theorem reads_of_mem_entries (o : RuleOptions) :
    ∀ e ∈ entries, o.ReadsAs (kindsOf e.info.name) (e.read o) := by
  simp only [entries, List.forall_mem_cons]
  refine ⟨?_, ?_, ?_, ?_, ?_, ?_, ?_, ?_, ?_, ?_, ?_, ?_, ?_, ?_, ?_, ?_, ?_⟩
  · have hstyle :=
      o.readsAs_choice "style" Indentation.Style.space [("space", .space), ("tab", .tab)]
    exact (o.readsAs_natural "width" 2 1 8).bind fun width =>
      hstyle.map fun style => Indentation.check ⟨width, style⟩
  · exact o.readsAs_ok _
  · have hcase :=
      o.readsAs_choice "case" ColorLiteral.HexCase.lower [("lower", .lower), ("upper", .upper)]
    exact hcase.bind fun case =>
      (o.readsAs_boolean "shorthand" true).map fun shorthand => ColorLiteral.check ⟨case, shorthand⟩
  · have hquote :=
      o.readsAs_choice "style" QuoteStyle.Quote.single [("single", .single), ("double", .double)]
    exact hquote.map QuoteStyle.check
  · exact (o.readsAs_boolean "single_line" true).map DeclarationGrouping.check
  · exact (o.readsAs_natural "max" 3 1 32).map MaxNestingDepth.check
  · exact (o.readsAs_boolean "include_first" true).bind fun includeFirst =>
      o.readsAs_readGroups.map fun groups => PropertyOrder.check ⟨groups, includeFirst⟩
  · exact o.readsAs_pattern
  · exact o.readsAs_ok _
  · exact o.readsAs_ok _
  · exact (o.readsAs_texts? "functions").map fun functions =>
      BannedFunctions.check (functions.getD BannedFunctions.standardFunctions)
  · exact o.readsAs_ok _
  · exact o.readsAs_ok _
  · exact o.readsAs_ok _
  · exact o.readsAs_ok _
  · exact (o.readsAs_boolean "allow_headings" true).map CommentStyle.check
  · exact List.forall_mem_nil _

/-! ## One rule -/

/-- Whether a rule has the name. -/
def IsRule (name : String) : Prop := ∃ e ∈ entries, e.info.name = name

/-- Whether each option that a configuration sets for a rule is one that the rule has, with a value
that the rule accepts. -/
def Fits (c : Config) (rule : String) : Prop :=
  ∀ key v, c.option? rule key = some v → OptionKind.Allows (kindsOf rule) key v

/-- A rule is made from its options, or refuses one of them. -/
theorem buildEntry_cases (c : Config) (p : Preset) (he : e ∈ entries) :
    (∃ r, buildEntry c p e = .ok r ∧ Fits c e.info.name)
      ∨ ∃ key v fault, c.option? e.info.name key = some v
        ∧ OptionKind.Refuses (kindsOf e.info.name) key v fault
        ∧ buildEntry c p e = .error (.invalidOption e.info.name key fault) := by
  have hcases := RuleEntry.build_cases (options_of_mem_entries e he)
    (reads_of_mem_entries (.ofConfig c e.info.name) e he) p.severity?
  simp only [Config.lookup_ofConfig] at hcases
  exact hcases

theorem fits_of_buildEntry {r : Rule} (he : e ∈ entries) (h : buildEntry c p e = .ok r) :
    Fits c e.info.name := by
  rcases buildEntry_cases c p he with ⟨_, -, hfit⟩ | ⟨_, _, _, -, -, hr⟩
  · exact hfit
  · cases h.symm.trans hr

/-! ## All rules -/

/-- A list is made into another one by one, or up to the first element of which nothing is made. -/
theorem mapM_cases {ε α β : Type} (f : α → Except ε β) (l : List α) :
    (∃ bs, l.mapM f = .ok bs)
      ∨ ∃ before a after fault, l = before ++ a :: after ∧ (∀ a' ∈ before, ∃ b, f a' = .ok b)
        ∧ f a = .error fault ∧ l.mapM f = .error fault := by
  induction l with
  | nil => exact .inl ⟨[], rfl⟩
  | cons a as ih =>
    rw [List.mapM_cons]
    cases ha : f a with
    | error fault => exact .inr ⟨[], a, as, fault, rfl, by simp, ha, rfl⟩
    | ok b =>
      rcases ih with ⟨bs, has⟩ | ⟨before, a', after, fault, rfl, hbefore, ha', has⟩
      · exact .inl ⟨b :: bs, by rw [has]; rfl⟩
      · refine .inr ⟨a :: before, a', after, fault, rfl, ?_, ha', by rw [has]; rfl⟩
        exact List.forall_mem_cons.mpr ⟨⟨b, ha⟩, hbefore⟩

/-- A list that is made into another one by one has something made of each element. -/
theorem exists_of_mapM_eq_ok {ε α β : Type} {f : α → Except ε β} {l : List α} {bs : List β}
    (h : l.mapM f = .ok bs) : ∀ a ∈ l, ∃ b ∈ bs, f a = .ok b := by
  induction l generalizing bs with
  | nil => simp
  | cons a as ih =>
    rw [List.mapM_cons] at h
    obtain ⟨b, hb, h⟩ := exists_of_bind_eq_ok h
    obtain ⟨rest, hrest, h⟩ := exists_of_bind_eq_ok h
    cases h
    refine List.forall_mem_cons.mpr ⟨⟨b, List.mem_cons_self, hb⟩, fun a' ha' => ?_⟩
    obtain ⟨b', hb', hmade⟩ := ih hrest a' ha'
    exact ⟨b', List.mem_cons_of_mem b hb', hmade⟩

theorem info_of_buildEntry {r : Rule} (h : buildEntry c p e = .ok r) : r.info = e.info := by
  obtain ⟨_, -, h⟩ := exists_of_bind_eq_ok h
  obtain ⟨_, -, h⟩ := exists_of_bind_eq_ok h
  cases h
  rfl

/-- The rules have the names of the entries that they are made of. -/
theorem map_name_of_mapM {l : List RuleEntry} {rules : List Rule}
    (h : l.mapM (buildEntry c p) = .ok rules) :
    rules.map (·.info.name) = l.map (·.info.name) := by
  induction l generalizing rules with
  | nil =>
    cases h
    rfl
  | cons e es ih =>
    rw [List.mapM_cons] at h
    obtain ⟨r, hr, h⟩ := exists_of_bind_eq_ok h
    obtain ⟨rest, hrest, h⟩ := exists_of_bind_eq_ok h
    cases h
    rw [List.map_cons, List.map_cons, info_of_buildEntry hr, ih hrest]

/-! ## The configuration as a whole -/

/-- Whether a configuration is as it has to be. -/
structure Acceptable (c : Config) : Prop where
  preset : ∃ p, c.HasPreset p
  known : ∀ entry ∈ c.rules, IsRule entry.1
  /-- The options of all rules fit, also those of rules that do not run. -/
  fits : ∀ e ∈ entries, Fits c e.info.name

/-- What is wrong with a configuration. A fault counts if there is none of those above it. -/
inductive Wrong (c : Config) : ConfigError → Prop
  | preset {name : String} (hname : c.preset = some name)
      (hunknown : ∀ p : Preset, p.name ≠ name) : Wrong c (.unknownPreset name)
  /-- The name is the least of those that are no rule's, in the order of their bytes. -/
  | rule {name : String} (hpreset : ∃ p, c.HasPreset p) (hname : name ∈ c.rules.map Prod.fst)
      (hunknown : ¬ IsRule name)
      (hleast : ∀ other ∈ c.rules.map Prod.fst, ¬ IsRule other →
        Text.bytes name.toList ≤ Text.bytes other.toList) :
      Wrong c (.unknownRule name)
  /-- The rule is the first with an option that does not fit. -/
  | option {before after : List RuleEntry} {e : RuleEntry} {key : String} {v : ConfigValue}
      {fault : OptionFault} (hpreset : ∃ p, c.HasPreset p)
      (hknown : ∀ entry ∈ c.rules, IsRule entry.1) (hentries : entries = before ++ e :: after)
      (hbefore : ∀ e' ∈ before, Fits c e'.info.name) (hv : c.option? e.info.name key = some v)
      (hrefused : OptionKind.Refuses (kindsOf e.info.name) key v fault) :
      Wrong c (.invalidOption e.info.name key fault)

/-- A configuration with a fault is not acceptable. -/
theorem Wrong.not_acceptable {fault : ConfigError} (h : Wrong c fault) : ¬ Acceptable c := by
  intro ⟨hpreset, hknown, hfits⟩
  cases h with
  | preset hname hunknown =>
    obtain ⟨p, hp | ⟨hnone, -⟩⟩ := hpreset
    · exact hunknown p (Option.some.inj (hp.symm.trans hname))
    · cases hnone.symm.trans hname
  | rule _ hname hunknown _ =>
    obtain ⟨entry, hentry, rfl⟩ := List.mem_map.mp hname
    exact hunknown (hknown entry hentry)
  | @option _ _ e key v _ _ _ hentries _ hv hrefused =>
    have he : e ∈ entries := by simp [hentries]
    exact OptionKind.not_allows_of_refuses (nodup_options e he) hrefused (hfits e he key v hv)

theorem preset_cases (c : Config) :
    (∃ p, c.HasPreset p ∧ Preset.ofConfig c = .ok p)
      ∨ ∃ name, c.preset = some name ∧ (∀ p : Preset, p.name ≠ name)
        ∧ Preset.ofConfig c = .error (.unknownPreset name) := by
  unfold Preset.ofConfig Preset.ofName
  cases hpreset : c.preset with
  | none => exact .inl ⟨.recommended, .inr ⟨hpreset, rfl⟩, rfl⟩
  | some name =>
    dsimp only
    cases hfind : Preset.all.find? (·.name == name) with
    | none =>
      refine .inr ⟨name, rfl, fun p hp => ?_, rfl⟩
      have hp' := List.find?_eq_none.mp hfind p (by cases p <;> simp [Preset.all])
      exact hp' (beq_iff_eq.mpr hp)
    | some p =>
      refine .inl ⟨p, .inl ?_, rfl⟩
      have hname : p.name = name := by simpa using List.find?_some hfind
      rw [hpreset, hname]

theorem any_name_iff {name : String} : entries.any (·.info.name == name) = true ↔ IsRule name := by
  simp [IsRule]

theorem checkNames_cases (hordered : c.Ordered) :
    (checkNames c = .ok () ∧ ∀ entry ∈ c.rules, IsRule entry.1)
      ∨ ∃ name ∈ c.rules.map Prod.fst, ¬ IsRule name
        ∧ (∀ other ∈ c.rules.map Prod.fst, ¬ IsRule other →
          Text.bytes name.toList ≤ Text.bytes other.toList)
        ∧ checkNames c = .error (.unknownRule name) := by
  unfold checkNames
  cases hfind : c.rules.find? fun entry => !entries.any (·.info.name == entry.1) with
  | none =>
    refine .inl ⟨rfl, fun entry hentry => any_name_iff.mp ?_⟩
    simpa using List.find?_eq_none.mp hfind entry hentry
  | some found =>
    obtain ⟨hunknown, before, after, hrules, hbefore⟩ := List.find?_eq_some_iff_append.mp hfind
    refine .inr ⟨found.1, List.mem_map_of_mem (by simp [hrules]), ?_, ?_, rfl⟩
    · rw [← any_name_iff]
      simpa using hunknown
    · intro other hother hunknown'
      obtain ⟨entry, hentry, rfl⟩ := List.mem_map.mp hother
      rw [← Text.le_iff_bytes]
      unfold Config.Ordered at hordered
      rw [hrules] at hordered hentry
      obtain hmem | hmem := List.mem_append.mp hentry
      · -- What stands before the one that was found is a rule.
        exact absurd (any_name_iff.mp (by simpa using hbefore entry hmem)) hunknown'
      · rcases List.mem_cons.mp hmem with rfl | hmem
        · exact (Bool.or_self _).symm.trans (Text.le_total _ _)
        · exact List.rel_of_pairwise_cons (List.pairwise_append.mp hordered).2.1 hmem

/-- **What becomes of a configuration**: it is acceptable and gives rules, or one thing is wrong
with it and is the error. -/
theorem build_cases (hordered : c.Ordered) :
    (∃ p rules, c.HasPreset p ∧ Acceptable c ∧ build c = .ok rules
        ∧ rules.map (·.info.name) = (entries.map (·.info.name)).filter (isEnabled c p))
      ∨ ∃ fault, Wrong c fault ∧ build c = .error fault := by
  rcases preset_cases c with ⟨p, hp, hpreset⟩ | ⟨name, hname, hunknown, hpreset⟩
  · rcases checkNames_cases hordered with
      ⟨hnames, hknown⟩ | ⟨name, hname, hunknown, hleast, hnames⟩
    · rcases mapM_cases (buildEntry c p) entries with
        ⟨all, hall⟩ | ⟨before, e, after, fault, hentries, hbefore, he, hall⟩
      · have hfits : ∀ e ∈ entries, Fits c e.info.name := by
          intro e he
          obtain ⟨r, -, hr⟩ := exists_of_mapM_eq_ok hall e he
          exact fits_of_buildEntry he hr
        refine .inl ⟨p, _, hp, ⟨⟨p, hp⟩, hknown, hfits⟩, build_of hpreset hnames hall, ?_⟩
        rw [← map_name_of_mapM hall, List.filter_map]
        rfl
      · have hmem : ∀ e' ∈ before ++ e :: after, e' ∈ entries := fun e' => hentries ▸ id
        have hfits : ∀ e' ∈ before, Fits c e'.info.name := by
          intro e' he'
          obtain ⟨r, hr⟩ := hbefore e' he'
          exact fits_of_buildEntry (hmem e' (List.mem_append_left _ he')) hr
        rcases buildEntry_cases c p (hmem e (by simp)) with
          ⟨r, hr, -⟩ | ⟨key, v, why, hv, hrefused, hr⟩
        · cases he.symm.trans hr
        · cases he.symm.trans hr
          refine .inr ⟨.invalidOption e.info.name key why, ?_, ?_⟩
          · exact .option ⟨p, hp⟩ hknown hentries hfits hv hrefused
          · simp [build, hpreset, hnames, hall, bind, Except.bind]
    · exact .inr ⟨_, .rule ⟨p, hp⟩ hname hunknown hleast, by
        simp [build, hpreset, hnames, bind, Except.bind]⟩
  · exact .inr ⟨_, .preset hname hunknown, by simp [build, hpreset, bind, Except.bind]⟩

/-- **Which configurations are accepted**, the rules that they give, and what is wrong with the
others. -/
theorem build_exact (hordered : c.Ordered) :
    ((∃ rules, build c = .ok rules) ↔ Acceptable c)
      ∧ (∀ rules, build c = .ok rules → ∃ p, c.HasPreset p
        ∧ rules.map (·.info.name) = (entries.map (·.info.name)).filter fun rule =>
          c.enabled? rule = some true ∨ c.enabled? rule = none ∧ p.includes rule = true)
      ∧ ∀ fault, build c = .error fault → Wrong c fault := by
  rcases build_cases hordered with
    ⟨p, rules, hp, haccepted, hbuild, hnames⟩ | ⟨fault, hwrong, hbuild⟩
  · refine ⟨iff_of_true ⟨rules, hbuild⟩ haccepted, fun rules' hrules => ?_, fun fault hfault => ?_⟩
    · cases hbuild.symm.trans hrules
      refine ⟨p, hp, hnames.trans (List.filter_congr fun rule _ => ?_)⟩
      unfold isEnabled
      cases c.enabled? rule <;> simp
    · cases hbuild.symm.trans hfault
  · refine ⟨iff_of_false (fun ⟨rules, hrules⟩ => ?_) hwrong.not_acceptable, fun rules hrules => ?_,
      fun fault' hfault => ?_⟩
    · cases hbuild.symm.trans hrules
    · cases hbuild.symm.trans hrules
    · cases hbuild.symm.trans hfault
      exact hwrong

/-- A width that is out of range, for a rule that is turned off. -/
theorem build_exact_width :
    let c : Config := { Config.standard with
      rules := [("indentation", ⟨some false, none, [("width", .integer 9)]⟩)] }
    c.Ordered ∧ ¬ ∃ rules, build c = .ok rules := by
  intro c
  have hordered : c.Ordered := List.pairwise_singleton _ _
  refine ⟨hordered, fun h => ?_⟩
  obtain ⟨-, -, hfits⟩ := (build_exact hordered).1.mp h
  obtain ⟨kind, hkind, haccepts⟩ :=
    hfits Indentation.entry (by simp [entries]) "width" (.integer 9) rfl
  have hkinds : kindsOf "indentation" =
      [("width", .integer 1 8), ("style", .word ["space", "tab"])] := rfl
  rw [show Indentation.entry.info.name = "indentation" from rfl, hkinds] at hkind
  obtain rfl : kind = .integer 1 8 := by simpa using hkind
  obtain ⟨n, hn, -, hmost⟩ := haccepts
  cases hn
  exact absurd hmost (by decide)

end Registry

end SheetLint
