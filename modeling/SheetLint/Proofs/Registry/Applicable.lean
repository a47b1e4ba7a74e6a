import Mathlib
import SheetLint.Proofs.Rule.Colors
import SheetLint.Proofs.Rule.Lines
import SheetLint.Proofs.Rule.Reordering
import SheetLint.Proofs.Rule.Rewriting
import SheetLint.Proofs.Rule.Spacing
import SheetLint.Registry

/-!
# All rules give fixes that can be carried out

Whatever its options are, no rule asks for an edit outside of the text or inside a character, for
edits that conflict, or for nothing.

Results:
* `RuleEntry.sparesComments_of_mem_entries`: each rule but four spares comments, for all options that
  it reads.
* `RuleEntry.fixesApply_of_mem_entries`: the fixes of each rule are applicable, for all options that
  it reads.
* `Registry.applicable_of_violations`: so are the fixes of all violations that a rule reports.
-/

namespace SheetLint

/-- A step that gave a result was given one by the step in front of it. -/
theorem exists_of_bind_eq_ok {ε α β : Type} {x : Except ε α} {next : α → Except ε β} {b : β}
    (h : x >>= next = .ok b) : ∃ a, x = .ok a ∧ next a = .ok b := by
  cases x with
  | error e => cases h
  | ok a => exact ⟨a, rfl, h⟩

namespace RuleEntry

/-- Whether the check of a rule has a property for all options that the rule reads. -/
def Always (P : Check → Prop) (e : RuleEntry) : Prop :=
  ∀ options check, e.read options = .ok check → P check

variable {P : Check → Prop}

theorem always_indentation (h : ∀ o, P (Indentation.check o)) : Indentation.entry.Always P := by
  intro options check hread
  obtain ⟨width, -, hread⟩ := exists_of_bind_eq_ok hread
  obtain ⟨style, -, hread⟩ := exists_of_bind_eq_ok hread
  cases hread
  exact h _

theorem always_colorLiteral (h : ∀ o, P (ColorLiteral.check o)) : ColorLiteral.entry.Always P := by
  intro options check hread
  obtain ⟨case, -, hread⟩ := exists_of_bind_eq_ok hread
  obtain ⟨shorthand, -, hread⟩ := exists_of_bind_eq_ok hread
  cases hread
  exact h _

theorem always_propertyOrder (h : ∀ o, P (PropertyOrder.check o)) :
    PropertyOrder.entry.Always P := by
  intro options check hread
  obtain ⟨includeFirst, -, hread⟩ := exists_of_bind_eq_ok hread
  obtain ⟨groups, -, hread⟩ := exists_of_bind_eq_ok hread
  cases hread
  exact h _

theorem always_selectorNaming (h : ∀ accepts, P (SelectorNaming.check accepts)) :
    SelectorNaming.entry.Always P := by
  intro options check hread
  obtain ⟨pattern, -, hread⟩ := exists_of_bind_eq_ok hread
  split at hread
  · cases hread
    exact h _
  · cases hread

/-- A rule with one option. -/
theorem always_of_read {α : Type} {e : RuleEntry} {reader : RuleOptions → Except ConfigError α}
    {check : α → Check} (hread : ∀ o, e.read o = (reader o >>= fun a => .ok (check a)))
    (h : ∀ a, P (check a)) : e.Always P := by
  intro options c hc
  rw [hread] at hc
  obtain ⟨a, -, hc⟩ := exists_of_bind_eq_ok hc
  cases hc
  exact h a

/-- A rule without options. -/
theorem always_of_no_options {e : RuleEntry} {check : Check} (hread : ∀ o, e.read o = .ok check)
    (h : P check) : e.Always P := by
  intro options c hc
  rw [hread] at hc
  cases hc
  exact h

/-- **Each rule but four spares comments**, for all options that it reads. -/
theorem sparesComments_of_mem_entries : ∀ e ∈ Registry.entries,
    e.Always Check.SparesComments ∨ e = ColorLiteral.entry ∨ e = PropertyOrder.entry
      ∨ e = ShorthandValues.entry ∨ e = CommentStyle.entry := by
  simp only [Registry.entries, List.forall_mem_cons, List.not_mem_nil, false_implies,
    implies_true, and_true]
  exact ⟨.inl (always_indentation Indentation.sparesComments),
    .inl (always_of_no_options (fun _ => rfl) SelectorSpacing.sparesComments),
    .inr (.inl trivial),
    .inl (always_of_read (fun _ => rfl) QuoteStyle.sparesComments),
    .inl (always_of_read (fun _ => rfl) DeclarationGrouping.sparesComments),
    .inl (always_of_read (fun _ => rfl) MaxNestingDepth.sparesComments),
    .inr (.inr (.inl trivial)),
    .inl (always_selectorNaming SelectorNaming.sparesComments),
    .inl (always_of_no_options (fun _ => rfl) ZeroUnit.sparesComments),
    .inl (always_of_no_options (fun _ => rfl) NoImportant.sparesComments),
    .inl (always_of_read (fun _ => rfl) fun functions => BannedFunctions.sparesComments _),
    .inl (always_of_no_options (fun _ => rfl) DeclarationSpacing.sparesComments),
    .inl (always_of_no_options (fun _ => rfl) DeclarationSemicolon.sparesComments),
    .inr (.inr (.inr (.inl trivial))),
    .inl (always_of_no_options (fun _ => rfl) EmptyLineBetweenRules.sparesComments),
    .inr (.inr (.inr (.inr trivial)))⟩

/-- **The fixes of each rule are applicable**, for all options that it reads. -/
theorem fixesApply_of_mem_entries : ∀ e ∈ Registry.entries, e.Always Check.FixesApply := by
  intro e he
  rcases sparesComments_of_mem_entries e he with h | rfl | rfl | rfl | rfl
  · exact fun options check hread => (h options check hread).fixesApply
  · exact always_colorLiteral ColorLiteral.fixesApply
  · exact always_propertyOrder PropertyOrder.fixesApply
  · exact always_of_no_options (fun _ => rfl) ShorthandValues.fixesApply
  · exact always_of_read (fun _ => rfl) CommentStyle.fixesApply

theorem exists_read_of_build {e : RuleEntry} {options : RuleOptions} {severity : Option Severity}
    {r : Rule} (h : e.build options severity = .ok r) : e.read options = .ok r.check := by
  obtain ⟨check, hcheck, h⟩ := exists_of_bind_eq_ok h
  obtain ⟨_, -, h⟩ := exists_of_bind_eq_ok h
  cases h
  exact hcheck

end RuleEntry

namespace Registry

/-- **Every fix that a rule gives is applicable**: whatever its options and the text are, the edits
lie in the text between characters, they do not conflict, and applied by themselves they give
another text. The text may also be one that does not parse. -/
theorem applicable_of_violations {e : RuleEntry} {options : RuleOptions}
    {severity : Option Severity} {r : Rule} {source : Text} {v : Violation} {fix : Fix}
    (he : e ∈ entries) (hbuild : e.build options severity = .ok r)
    (hv : v ∈ r.violations source (Parse.ofText source).sheet) (hfix : v.fix = some fix) :
    (∀ edit ∈ fix.edits, edit.start ≤ edit.stop ∧ edit.stop ≤ source.size
        ∧ source.isBoundary edit.start = true ∧ source.isBoundary edit.stop = true)
      ∧ (fix.edits.Pairwise fun a b => a.conflicts b = false)
      ∧ ∃ out, Edit.applyAll? source fix.edits = some out ∧ out ≠ source := by
  obtain ⟨f, hf, rfl⟩ := List.mem_map.mp hv
  have happly := RuleEntry.fixesApply_of_mem_entries e he options r.check
    (RuleEntry.exists_read_of_build hbuild) source f hf fix hfix
  exact ⟨happly.inText, happly.apart, happly.changes⟩

/-- A missing semicolon is put behind a value, at a byte offset: the property has two bytes. -/
theorem applicable_of_violations_semicolon :
    let r : Rule := ⟨DeclarationSemicolon.entry.info, .warning, DeclarationSemicolon.check⟩
    let source : Text := ['a', '\x7b', 'é', ':', 'b', '\x7d']
    let fix : Fix := ⟨"Add `;`", [⟨6, 6, [';']⟩]⟩
    DeclarationSemicolon.entry ∈ entries
      ∧ DeclarationSemicolon.entry.build (.none "declaration-semicolon") none = .ok r
      ∧ (∃ v ∈ r.violations source (Parse.ofText source).sheet, v.fix = some fix)
      ∧ (∀ edit ∈ fix.edits, edit.start ≤ edit.stop ∧ edit.stop ≤ source.size
          ∧ source.isBoundary edit.start = true ∧ source.isBoundary edit.stop = true)
      ∧ (fix.edits.Pairwise fun a b => a.conflicts b = false)
      ∧ ∃ out, Edit.applyAll? source fix.edits = some out ∧ out ≠ source := by
  intro r source fix
  have hentry : DeclarationSemicolon.entry ∈ entries := by simp [entries]
  have hbuild : DeclarationSemicolon.entry.build (.none "declaration-semicolon") none = .ok r := rfl
  have hviolations : (r.violations source (Parse.ofText source).sheet).map Violation.fix =
      [some fix] := by cbv
  have hfixes : some fix ∈ (r.violations source (Parse.ofText source).sheet).map Violation.fix := by
    rw [hviolations]
    exact List.mem_singleton_self _
  obtain ⟨v, hv, hfix⟩ := List.mem_map.mp hfixes
  exact ⟨hentry, hbuild, ⟨v, hv, hfix⟩, applicable_of_violations hentry hbuild hv hfix⟩

end Registry

end SheetLint
