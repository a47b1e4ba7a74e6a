import Mathlib
import SheetLint.Config.Options
import SheetLint.Rule

/-!
# What the options of a rule have to be

An option has a kind, which accepts some values and no others. A rule reads its options one by one,
each once and all of them, and then refuses those that it does not read. So it gives a check exactly
when all options that are set are among its own and each has a value that its kind accepts; else it
gives an error about one that is not so.

Results:
* `RuleOptions.ReadsAs.bind`: reading in turn.
* `RuleOptions.readsAs_boolean`, `…_natural`, `…_choice`, `…_texts?`: the readers of one option.
* `RuleEntry.build_cases`: what a rule makes of its options.
-/

namespace SheetLint

/-! ## Kinds of options -/

namespace ConfigValue

/-- Whether the value is a text. -/
def IsText (v : ConfigValue) : Prop := ∃ s, v = text s

/-- Whether the value is an array of texts. -/
def IsTexts (v : ConfigValue) : Prop := ∃ elements, v = array elements ∧ ∀ e ∈ elements, e.IsText

end ConfigValue

/-- What the value of an option has to be. -/
inductive OptionKind where
  | boolean
  /-- An integer in a range, both ends included. -/
  | integer (least most : Nat)
  /-- One of some words. -/
  | word (words : List String)
  /-- A text that some reader of texts can read. -/
  | readable (reads : String → Bool)
  /-- An array of texts. -/
  | texts
  /-- An array of arrays of texts that is not empty. -/
  | groups

namespace OptionKind

/-- Whether a value is as an option of the kind has to be. -/
def Accepts : OptionKind → ConfigValue → Prop
  | boolean, v => ∃ b, v = .boolean b
  | integer least most, v => ∃ n : Int, v = .integer n ∧ least ≤ n ∧ n ≤ most
  | word words, v => ∃ w ∈ words, v = .text w
  | readable reads, v => ∃ s, v = .text s ∧ reads s = true
  | texts, v => v.IsTexts
  | groups, v => ∃ elements, v = .array elements ∧ elements ≠ [] ∧ ∀ e ∈ elements, e.IsTexts

/-- What is said of a value that is not accepted. -/
def faultOf : OptionKind → ConfigValue → OptionFault
  | boolean, _ => .expectedBoolean
  | integer least most, .integer n => .outOfRange least most n
  | integer _ _, _ => .expectedInteger
  | word words, _ => .expectedOneOf words
  | readable _, .text _ => .invalidPattern
  | readable _, _ => .expectedText
  | texts, _ => .expectedTexts
  | groups, .array [] => .noGroups
  | groups, _ => .expectedGroups

/-- Whether a value may be set for an option, of the options of these kinds. -/
def Allows (kinds : List (String × OptionKind)) (key : String) (v : ConfigValue) : Prop :=
  ∃ kind, (key, kind) ∈ kinds ∧ kind.Accepts v

/-- Whether a value may not be set for an option, and this is said of it. -/
def Refuses (kinds : List (String × OptionKind)) (key : String) (v : ConfigValue)
    (fault : OptionFault) : Prop :=
  (key ∉ kinds.map Prod.fst ∧ fault = .unknown)
    ∨ ∃ kind, (key, kind) ∈ kinds ∧ ¬ kind.Accepts v ∧ fault = kind.faultOf v

/-- What is refused is not allowed, if each option has one kind. -/
theorem not_allows_of_refuses {kinds : List (String × OptionKind)} {key : String}
    {v : ConfigValue} {fault : OptionFault} (hkeys : (kinds.map Prod.fst).Nodup)
    (h : Refuses kinds key v fault) : ¬ Allows kinds key v := by
  rintro ⟨kind, hkind, haccepts⟩
  rcases h with ⟨hunknown, -⟩ | ⟨kind', hkind', hrefused, -⟩
  · exact hunknown (List.mem_map_of_mem hkind)
  · have hsame : (key, kind) = (key, kind') := List.inj_on_of_nodup_map hkeys hkind hkind' rfl
    cases hsame
    exact hrefused haccepts

end OptionKind

/-! ## Shapes of values -/

/-- A list is read as a whole exactly when each element is. -/
theorem exists_mapM_eq_some_iff {α β : Type} {f : α → Option β} {l : List α} :
    (∃ bs, l.mapM f = some bs) ↔ ∀ a ∈ l, ∃ b, f a = some b := by
  induction l with
  | nil => simp
  | cons a as ih =>
    rw [List.forall_mem_cons, ← ih]
    cases ha : f a with
    | none => simp [List.mapM_cons, ha]
    | some b => cases has : as.mapM f <;> simp [List.mapM_cons, ha, has]

namespace ConfigValue

variable {v : ConfigValue}

theorem exists_text?_iff : (∃ s, v.text? = some s) ↔ v.IsText := by
  cases v <;> simp [text?, IsText]

theorem exists_texts?_iff : (∃ ss, v.texts? = some ss) ↔ v.IsTexts := by
  cases v with
  | array elements =>
    have hread := exists_mapM_eq_some_iff (f := text?) (l := elements)
    simp only [exists_text?_iff] at hread
    simpa [texts?, array?, IsTexts] using hread
  | text | integer | float | boolean | moment | table => simp [texts?, array?, IsTexts]

end ConfigValue

/-! ## Reading one option after the other -/

namespace RuleOptions

variable {α β : Type} {o : RuleOptions} {key : String} {kind : OptionKind}
  {kinds more : List (String × OptionKind)} {x : Except ConfigError α}

/-- Whether options of these kinds are read: there is a result if each that is set is accepted, and
else an error about one that is not, which says what is wrong with it. -/
def ReadsAs (o : RuleOptions) (kinds : List (String × OptionKind)) (x : Except ConfigError α) :
    Prop :=
  (∃ a, x = .ok a ∧ ∀ p ∈ kinds, ∀ v, o.table.lookup p.1 = some v → p.2.Accepts v)
    ∨ ∃ p ∈ kinds, ∃ v, o.table.lookup p.1 = some v ∧ ¬ p.2.Accepts v
      ∧ x = .error (.invalidOption o.rule p.1 (p.2.faultOf v))

theorem readsAs_ok (o : RuleOptions) (a : α) : o.ReadsAs [] (.ok a) :=
  .inl ⟨a, rfl, by simp⟩

/-- **Reading in turn**: what is read first decides first. -/
theorem ReadsAs.bind {next : α → Except ConfigError β} (h : o.ReadsAs kinds x)
    (hnext : ∀ a, o.ReadsAs more (next a)) : o.ReadsAs (kinds ++ more) (x >>= next) := by
  rcases h with ⟨a, rfl, haccepted⟩ | ⟨p, hp, v, hv, hrefused, rfl⟩
  · rcases hnext a with ⟨b, hb, hmore⟩ | ⟨p, hp, v, hv, hrefused, hb⟩
    · exact .inl ⟨b, hb, List.forall_mem_append.mpr ⟨haccepted, hmore⟩⟩
    · exact .inr ⟨p, List.mem_append_right _ hp, v, hv, hrefused, hb⟩
  · exact .inr ⟨p, List.mem_append_left _ hp, v, hv, hrefused, rfl⟩

/-- What is read last is made into the result. -/
theorem ReadsAs.map (h : o.ReadsAs kinds x) (make : α → β) :
    o.ReadsAs kinds (x >>= fun a => .ok (make a)) := by
  have hmade := h.bind fun a => readsAs_ok o (make a)
  rwa [List.append_nil] at hmade

/-- One option: what is made of it when it is not set, and when it is. -/
theorem readsAs_option (hunset : o.table.lookup key = .none → ∃ a, x = .ok a)
    (hset : ∀ v, o.table.lookup key = some v →
      (∃ a, x = .ok a) ∧ kind.Accepts v
        ∨ x = .error (.invalidOption o.rule key (kind.faultOf v)) ∧ ¬ kind.Accepts v) :
    o.ReadsAs [(key, kind)] x := by
  cases hv : o.table.lookup key with
  | none =>
    obtain ⟨a, rfl⟩ := hunset hv
    exact .inl ⟨a, rfl, by simp [hv]⟩
  | some v =>
    rcases hset v hv with ⟨⟨a, rfl⟩, haccepts⟩ | ⟨rfl, hrefused⟩
    · exact .inl ⟨a, rfl, by simpa [hv] using haccepts⟩
    · exact .inr ⟨(key, kind), List.mem_singleton_self _, v, hv, hrefused, rfl⟩

/-- One option that is read by a reader of the values that its kind accepts. -/
theorem readsAs_read (standard : α) {reader : ConfigValue → Except OptionFault α}
    (h : ∀ v, (∃ a, reader v = .ok a) ∧ kind.Accepts v
      ∨ reader v = .error (kind.faultOf v) ∧ ¬ kind.Accepts v) :
    o.ReadsAs [(key, kind)] (o.read key standard reader) := by
  refine readsAs_option (fun hv => ⟨standard, by simp [read, hv]⟩) fun v hv => ?_
  rcases h v with ⟨⟨a, ha⟩, haccepts⟩ | ⟨hfault, hrefused⟩
  · exact .inl ⟨⟨a, by simp [read, hv, ha]⟩, haccepts⟩
  · exact .inr ⟨by simp [read, hv, hfault, fail], hrefused⟩

theorem readsAs_boolean (o : RuleOptions) (key : String) (standard : Bool) :
    o.ReadsAs [(key, .boolean)] (o.boolean key standard) := by
  refine readsAs_read standard fun v => ?_
  cases v <;> simp [ConfigValue.boolean?, OptionKind.Accepts, OptionKind.faultOf]

theorem readsAs_natural (o : RuleOptions) (key : String) (standard least most : Nat) :
    o.ReadsAs [(key, .integer least most)] (o.natural key standard least most) := by
  refine readsAs_read standard fun v => ?_
  cases v with
  | integer n =>
    by_cases hrange : (least : Int) ≤ n ∧ n ≤ most
    · simp [ConfigValue.integer?, OptionKind.Accepts, OptionKind.faultOf, hrange]
    · simp [ConfigValue.integer?, OptionKind.Accepts, OptionKind.faultOf, hrange]
  | text | float | boolean | moment | array | table =>
    simp [ConfigValue.integer?, OptionKind.Accepts, OptionKind.faultOf]

theorem exists_lookup_iff {words : List (String × α)} {w : String} :
    (∃ a, words.lookup w = some a) ↔ w ∈ words.map Prod.fst := by
  induction words with
  | nil => simp
  | cons p words ih =>
    obtain ⟨word, a⟩ := p
    rw [List.lookup_cons]
    by_cases hword : w = word
    · simp [hword]
    · simpa [hword, beq_eq_false_iff_ne.mpr hword] using ih

theorem readsAs_choice (o : RuleOptions) (key : String) (standard : α) (words : List (String × α)) :
    o.ReadsAs [(key, .word (words.map Prod.fst))] (o.choice key standard words) := by
  refine readsAs_read standard fun v => ?_
  cases v with
  | text w =>
    have hfound : (∃ a, words.lookup w = some a) ↔ w ∈ words.map Prod.fst := exists_lookup_iff
    cases hlookup : words.lookup w with
    | none =>
      rw [hlookup] at hfound
      simpa [ConfigValue.text?, OptionKind.Accepts, OptionKind.faultOf, hlookup] using hfound
    | some a =>
      rw [hlookup] at hfound
      simpa [ConfigValue.text?, OptionKind.Accepts, OptionKind.faultOf, hlookup] using hfound
  | integer | float | boolean | moment | array | table =>
    simp [ConfigValue.text?, OptionKind.Accepts, OptionKind.faultOf]

theorem readsAs_texts? (o : RuleOptions) (key : String) :
    o.ReadsAs [(key, .texts)] (o.texts? key) := by
  refine readsAs_read _ fun v => ?_
  rw [OptionKind.Accepts, ← ConfigValue.exists_texts?_iff]
  cases v.texts? <;> simp [OptionKind.faultOf]

/-- What stands in a table under some key is found there, the same or another under that key. -/
theorem exists_lookup_of_mem {table : List (String × ConfigValue)} {p : String × ConfigValue}
    (h : p ∈ table) : ∃ v, table.lookup p.1 = some v :=
  exists_lookup_iff.mpr (List.mem_map_of_mem h)

/-- The options are all known, or one that is not is refused. -/
theorem refuseOthers_cases (o : RuleOptions) (known : List String) :
    (o.refuseOthers known = .ok () ∧ ∀ key v, o.table.lookup key = some v → key ∈ known)
      ∨ ∃ key v, o.table.lookup key = some v ∧ key ∉ known
        ∧ o.refuseOthers known = .error (.invalidOption o.rule key .unknown) := by
  unfold refuseOthers
  cases hfind : o.table.find? fun entry => !known.contains entry.1 with
  | none =>
    refine .inl ⟨rfl, fun key v hv => ?_⟩
    obtain ⟨p, hp, rfl⟩ := List.mem_map.mp (exists_lookup_iff.mp ⟨v, hv⟩)
    simpa using List.find?_eq_none.mp hfind p hp
  | some found =>
    obtain ⟨v, hv⟩ := exists_lookup_of_mem (List.mem_of_find?_eq_some hfind)
    exact .inr ⟨found.1, v, hv, by simpa using List.find?_some hfind, rfl⟩

end RuleOptions

/-! ## Building a rule -/

namespace RuleEntry

variable {e : RuleEntry} {o : RuleOptions} {kinds : List (String × OptionKind)}

/-- **What a rule makes of its options.** If all that are set may be, there is a rule, and else an
error about one that may not. -/
theorem build_cases (hoptions : e.options = kinds.map Prod.fst) (hread : o.ReadsAs kinds (e.read o))
    (severity : Option Severity) :
    (∃ r, e.build o severity = .ok r
        ∧ ∀ key v, o.table.lookup key = some v → OptionKind.Allows kinds key v)
      ∨ ∃ key v fault, o.table.lookup key = some v ∧ OptionKind.Refuses kinds key v fault
        ∧ e.build o severity = .error (.invalidOption o.rule key fault) := by
  unfold build
  rcases hread with ⟨check, hcheck, haccepted⟩ | ⟨p, hp, v, hv, hrefused, hcheck⟩
  · rw [hcheck]
    rcases o.refuseOthers_cases e.options with ⟨hothers, hknown⟩ | ⟨key, v, hv, hother, hothers⟩
    · refine .inl ⟨_, by rw [hothers]; rfl, fun key v hv => ?_⟩
      have hkey := hknown key v hv
      rw [hoptions] at hkey
      obtain ⟨p, hp, rfl⟩ := List.mem_map.mp hkey
      exact ⟨p.2, hp, haccepted p hp v hv⟩
    · exact .inr ⟨key, v, .unknown, hv, .inl ⟨hoptions ▸ hother, rfl⟩, by rw [hothers]; rfl⟩
  · exact .inr ⟨p.1, v, _, hv, .inr ⟨p.2, hp, hrefused, rfl⟩, by rw [hcheck]; rfl⟩

end RuleEntry

end SheetLint
