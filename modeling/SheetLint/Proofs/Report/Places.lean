import SheetLint.Proofs.Fixing.ExitCode
import SheetLint.Proofs.Rule.Places
import SheetLint.Proofs.Tree.ErrorSpans

/-!
# The places in a report

A report gives each violation and each syntax error a line, a column, an offset and a length. These
are counted in the text: what is covered lies in it and cuts no character apart, and the line and the
column are those of the offset.

Results:
* `Location.exact_of_inText`: the location of a span that lies in the text is exact.
* `Analyzer.exact_of_mem_lint`: so is that of each violation.
* `Analyzer.check_places_exact`: places and order of all that a report lists.
-/

namespace SheetLint

variable {source : Text}

/-- Whether a location is one of a text. The line is one more than the number of line feeds in front
of it, the column one more than the number of characters behind the last of these. -/
structure Location.Exact (source : Text) (l : Location) : Prop where
  in_text : l.offset + l.length ≤ source.size
  start_boundary : source.isBoundary l.offset = true
  stop_boundary : source.isBoundary (l.offset + l.length) = true
  line_column : ∀ front back, source.cut? l.offset = some (front, back) →
    l.line = 1 + front.count '\n' ∧ l.column = 1 + (front.reverse.takeWhile (· != '\n')).length

/-- **The location of a span that lies in the text is exact.** -/
theorem Location.exact_of_inText {span : Span} (h : span.InText source) :
    (ofSpan span).Exact source := by
  obtain ⟨front, covered, back, rfl, rfl⟩ := h
  have hlength : front.size + ((front ++ covered).size - front.size) = (front ++ covered).size := by
    rw [Text.size_append, Nat.add_sub_cancel_left]
  refine ⟨?_, ?_, ?_, fun front' back' hcut => ?_⟩
  · change front.size + ((front ++ covered).size - front.size) ≤ _
    rw [hlength, Text.size_append (front ++ covered)]
    exact Nat.le_add_right _ _
  · rw [List.append_assoc]
    exact Edit.isBoundary_size front (covered ++ back)
  · change Text.isBoundary _ (front.size + ((front ++ covered).size - front.size)) = true
    rw [hlength]
    exact Edit.isBoundary_size (front ++ covered) back
  · have hfront := Text.cut?_append front (covered ++ back)
    rw [← List.append_assoc] at hfront
    cases hfront.symm.trans hcut
    constructor
    · exact Nat.add_comm _ _
    · change (Indent.lastLine front).length + 1 = _
      rw [Indent.lastLine, List.length_reverse, Nat.add_comm]

namespace Analyzer

variable {a : Analyzer}

/-- Whether all rules of an analyzer are built from entries of the registry. -/
def IsRegistered (a : Analyzer) : Prop :=
  ∀ r ∈ a.rules, ∃ e ∈ Registry.entries, ∃ options severity, e.build options severity = .ok r

/-- **Each violation is at an exact location**, whatever the options of its rule are. -/
theorem exact_of_mem_lint (ha : a.IsRegistered) {v : Violation}
    (hv : v ∈ a.lint source (Parse.ofText source).sheet) : v.location.Exact source := by
  obtain ⟨⟨r, hr, hv⟩, -⟩ := mem_lint_iff.mp hv
  obtain ⟨e, he, options, severity, hbuild⟩ := ha r hr
  rw [ruleViolations_eq_map] at hv
  obtain ⟨f, hf, rfl⟩ := List.mem_map.mp hv
  have hread := RuleEntry.exists_read_of_build hbuild
  exact Location.exact_of_inText
    (RuleEntry.located_of_mem_entries e he options r.check hread source f hf)

/-- **The places in a report are exact.** Each violation and each syntax error has a location in the
text, between characters, with the line and the column of its offset. The violations are ordered by
line, column and name of the rule. -/
theorem check_places_exact (ha : a.IsRegistered) (path : String) (source : Text) :
    (∀ v ∈ (a.check path source).violations, v.location.Exact source)
      ∧ (∀ e ∈ (a.check path source).syntaxErrors, (Location.ofSpan e.span).Exact source)
      ∧ (a.check path source).violations.Pairwise fun v w =>
          v.location.line < w.location.line ∨ v.location.line = w.location.line
            ∧ (v.location.column < w.location.column ∨ v.location.column = w.location.column
              ∧ Text.leString v.rule w.rule = true) := by
  cases hok : (Parse.ofText source).isOk with
  | true =>
    rw [check_of_isOk path hok]
    refine ⟨fun v hv => exact_of_mem_lint ha hv, by simp, ?_⟩
    exact (Violation.pairwise_sort _).imp Violation.le_iff.mp
  | false =>
    rw [check_of_not_isOk path hok]
    refine ⟨by simp, fun e he => ?_, .nil⟩
    obtain ⟨run, hrun, hspan⟩ := Parse.exists_run_of_mem_errors he
    exact Location.exact_of_inText (Span.inText_of_run hrun hspan)

/-- An indentation of one space, in the second line and behind a character of two bytes. -/
theorem check_places_exact_indentation :
    let a : Analyzer := ⟨[⟨Indentation.entry.info, .warning, Indentation.check {}⟩], .standard⟩
    let source : Text := ['é', '\x7b', '\n', ' ', 'b', ':', 'c', ';', '\n', '\x7d']
    a.IsRegistered
      ∧ (a.check "a.scss" source).violations.map Violation.location = [⟨2, 1, 4, 1⟩]
      ∧ Location.Exact source ⟨2, 1, 4, 1⟩ := by
  intro a source
  have hregistered : a.IsRegistered := by
    intro r hr
    rw [List.mem_singleton.mp hr]
    exact ⟨Indentation.entry, by simp [Registry.entries], .none "indentation", none, rfl⟩
  have hlocations : (a.check "a.scss" source).violations.map Violation.location =
      [⟨2, 1, 4, 1⟩] := by cbv
  refine ⟨hregistered, hlocations, ?_⟩
  have hexact := (check_places_exact hregistered "a.scss" source).1
  have hmem : (⟨2, 1, 4, 1⟩ : Location) ∈
      (a.check "a.scss" source).violations.map Violation.location := by
    rw [hlocations]
    exact List.mem_singleton_self _
  obtain ⟨v, hv, hlocation⟩ := List.mem_map.mp hmem
  rw [← hlocation]
  exact hexact v hv

end Analyzer

end SheetLint
