import SheetLint.Proofs.Edit.Comments
import SheetLint.Proofs.Tree.Nodes
import SheetLint.Rule

/-!
# Checks whose fixes can be carried out

A rule places its edits by the tokens of the tree, which are those of the text. So the fixes of a
check are applicable as soon as the check asks for a change wherever it finds something. Most checks
also spare the comments: they take whitespace, a name, a number or a string for another.

Results:
* `Check.FixesApply`: all fixes of a check are applicable, on any text.
* `Check.SparesComments`: they are also fixes of one edit that takes no comment and puts none.
* `Parse.tokens_isInfix`, `Parse.leading_isInfix`: where a node stands in the text.
-/

namespace SheetLint

/-- Whether the fix of a finding is applicable, if it has one. -/
def Finding.FixApplies (source : Text) (f : Finding) : Prop :=
  ∀ fix, f.fix = some fix → fix.Applicable source

/-- Whether all fixes that a check gives for a text and its tree are applicable to the text. -/
def Check.FixesApply (check : Check) : Prop :=
  ∀ source, ∀ f ∈ check source (Parse.ofText source).sheet, f.FixApplies source

/-- Whether the fix of a finding spares comments, if it has one. -/
def Finding.SparesComments (source : Text) (f : Finding) : Prop :=
  ∀ fix, f.fix = some fix → fix.SparesComments source

/-- Whether all fixes that a check gives for a text and its tree spare the comments of the text. -/
def Check.SparesComments (check : Check) : Prop :=
  ∀ source, ∀ f ∈ check source (Parse.ofText source).sheet, f.SparesComments source

variable {source : Text} {run : List Token} {f : Finding}

theorem Check.SparesComments.fixesApply {check : Check} (h : check.SparesComments) :
    check.FixesApply := fun source f hf fix hfix => (h source f hf fix hfix).applicable

theorem Finding.sparesComments_of_eq_none (h : f.fix = none) : f.SparesComments source := by
  intro fix hfix
  rw [h] at hfix
  cases hfix

theorem Token.isComment_of_isWhitespace {t : Token} (h : t.isWhitespace = true) :
    t.isComment = false := by
  rw [Token.isWhitespace, beq_iff_eq] at h
  rw [Token.isComment, h]
  rfl

/-! ## The text of a run -/

namespace Tokens

/-- Only a run of one token has a text of one character. -/
theorem exists_eq_singleton (hrun : run <:+: ofText source) {c : Char} (htext : text run = [c]) :
    ∃ t, run = [t] ∧ t.text = [c] := by
  cases run with
  | nil => cases htext
  | cons t ts =>
    rw [text_cons] at htext
    have hne := ne_nil_of_mem_run hrun List.mem_cons_self
    have htail : ts <:+: ofText source := (List.suffix_cons t ts).isInfix.trans hrun
    rcases List.append_eq_singleton_iff.mp htext with ⟨hnil, -⟩ | ⟨ht, hts⟩
    · exact absurd hnil hne
    · refine ⟨t, ?_, ht⟩
      by_contra hcons
      exact text_ne_nil htail (fun hnil => hcons (by rw [hnil])) hts

theorem text_ne_space (hrun : run <:+: ofText source) (hspace : ¬ isOneSpace run = true) :
    [' '] ≠ text run := by
  intro htext
  obtain ⟨t, rfl, ht⟩ := exists_eq_singleton hrun htext.symm
  exact hspace (by simp [isOneSpace, ht])

/-- Whitespace without line break holds no line feed. -/
theorem not_mem_text_of_not_hasLineBreak (hspace : IsSpace run)
    (hbreak : ¬ hasLineBreak run = true) : '\n' ∉ text run := by
  intro hmem
  obtain ⟨t, ht, hfeed⟩ := List.mem_flatMap.mp hmem
  refine hbreak (List.any_eq_true.mpr ⟨t, ht, ?_⟩)
  rw [hspace t ht, Text.has]
  simpa using hfeed

end Tokens

/-! ## Nodes of a text -/

namespace Parse

variable {n : Node} {d : Declaration}

theorem tokens_isInfix (hn : n ∈ (ofText source).sheet.nodes) :
    n.tokens <:+: Tokens.ofText source := Stylesheet.tokens_isInfix_of_mem_nodes hn

theorem tokens_isInfix_of_declaration (hd : d ∈ (ofText source).sheet.declarations) :
    d.tokens <:+: Tokens.ofText source :=
  Stylesheet.tokens_isInfix_of_mem_declarations hd

/-- What is in front of the colon of a declaration stands side by side. -/
theorem beforeColon_isInfix (hd : d ∈ (ofText source).sheet.declarations) :
    d.beforeColon <:+: Tokens.ofText source :=
  List.IsInfix.trans ⟨d.property, [d.colon] ++ d.afterColon ++ d.value ++ d.beforeSemicolon
    ++ d.semicolon.toList, by simp [Declaration.tokens]⟩ (tokens_isInfix_of_declaration hd)

/-- The colon of a declaration stands in front of the whitespace behind it. -/
theorem colon_isInfix (hd : d ∈ (ofText source).sheet.declarations) :
    d.colon :: d.afterColon <:+: Tokens.ofText source :=
  List.IsInfix.trans ⟨d.property ++ d.beforeColon, d.value ++ d.beforeSemicolon
    ++ d.semicolon.toList, by simp [Declaration.tokens]⟩ (tokens_isInfix_of_declaration hd)

/-- The value of a declaration stands side by side. -/
theorem value_isInfix (hd : d ∈ (ofText source).sheet.declarations) :
    d.value <:+: Tokens.ofText source :=
  List.IsInfix.trans ⟨d.property ++ d.beforeColon ++ [d.colon] ++ d.afterColon,
    d.beforeSemicolon ++ d.semicolon.toList, by simp [Declaration.tokens]⟩
    (tokens_isInfix_of_declaration hd)

theorem isSpace_leading (hn : n ∈ (ofText source).sheet.nodes) : Tokens.IsSpace n.leading := by
  have hmade := Stylesheet.madeOfPieces_of_mem_nodes hn
  cases n with
  | statement => exact hmade.1
  | block => exact hmade.1

/-- The whitespace in front of a node stands in front of the first token of its content. -/
theorem leading_isInfix (hn : n ∈ (ofText source).sheet.nodes) {span : Span}
    (hspan : Tokens.span? n.content = some span) :
    ∃ first : Token, span.start.offset = first.start
      ∧ n.leading ++ [first] <:+: Tokens.ofText source := by
  unfold Tokens.span? at hspan
  split at hspan
  · rename_i first last hfirst hlast
    cases hspan
    refine ⟨first, rfl, List.IsInfix.trans ?_ (tokens_isInfix hn)⟩
    obtain ⟨more, hmore⟩ := List.head?_eq_some_iff.mp hfirst
    rw [n.tokens_eq_leading_append_content, hmore]
    exact ⟨[], more, by simp⟩
  · cases hspan

end Parse

end SheetLint
