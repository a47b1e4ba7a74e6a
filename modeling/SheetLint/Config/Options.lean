import SheetLint.Config

/-!
# Reading the options of a rule

Each reader gives the value of one option, or what is wrong with it. An option that is not set has
its standard value.
-/

namespace SheetLint

/-- The options that a configuration sets for a rule. -/
structure RuleOptions where
  rule : String
  table : List (String × ConfigValue)

namespace RuleOptions

/-- No option set. -/
def none (rule : String) : RuleOptions := ⟨rule, []⟩

/-- The options of a rule in a configuration. -/
def ofConfig (c : Config) (rule : String) : RuleOptions :=
  ⟨rule, ((c.settings? rule).map RuleSettings.options).getD []⟩

/-- An error about an option. -/
def fail {α : Type} (o : RuleOptions) (key : String) (fault : OptionFault) : Except ConfigError α :=
  .error (.invalidOption o.rule key fault)

/-- Reads an option, with an error for a value that cannot be read. -/
def read {α : Type} (o : RuleOptions) (key : String) (standard : α)
    (reader : ConfigValue → Except OptionFault α) : Except ConfigError α :=
  match o.table.lookup key with
  | .none => .ok standard
  | some v =>
    match reader v with
    | .ok a => .ok a
    | .error fault => o.fail key fault

/-- A truth value. -/
def boolean (o : RuleOptions) (key : String) (standard : Bool) : Except ConfigError Bool :=
  o.read key standard fun v =>
    match v.boolean? with
    | some b => .ok b
    | .none => .error .expectedBoolean

/-- An integer in a range, both ends included. -/
def natural (o : RuleOptions) (key : String) (standard least most : Nat) : Except ConfigError Nat :=
  o.read key standard fun v =>
    match v.integer? with
    | .none => .error .expectedInteger
    | some n =>
      if (least : Int) ≤ n ∧ n ≤ most then .ok n.toNat else .error (.outOfRange least most n)

/-- One of several words, each standing for a value. -/
def choice {α : Type} (o : RuleOptions) (key : String) (standard : α) (words : List (String × α)) :
    Except ConfigError α :=
  o.read key standard fun v =>
    match v.text?.bind fun word => words.lookup word with
    | some a => .ok a
    | .none => .error (.expectedOneOf (words.map Prod.fst))

/-- A text. -/
def text? (o : RuleOptions) (key : String) : Except ConfigError (Option String) :=
  o.read key .none fun v =>
    match v.text? with
    | some s => .ok (some s)
    | .none => .error .expectedText

/-- An array of texts. -/
def texts? (o : RuleOptions) (key : String) : Except ConfigError (Option (List String)) :=
  o.read key .none fun v =>
    match v.texts? with
    | some texts => .ok (some texts)
    | .none => .error .expectedTexts

/-- An array of arrays of texts. -/
def groups? (o : RuleOptions) (key : String) : Except ConfigError (Option (List (List String))) :=
  o.read key .none fun v =>
    match v.array?.bind (·.mapM ConfigValue.texts?) with
    | some groups => .ok (some groups)
    | .none => .error .expectedGroups

/-- Refuses the first option that is none of those named. -/
def refuseOthers (o : RuleOptions) (known : List String) : Except ConfigError Unit :=
  match o.table.find? fun entry => !known.contains entry.1 with
  | some (key, _) => o.fail key .unknown
  | .none => .ok ()

end RuleOptions

end SheetLint
