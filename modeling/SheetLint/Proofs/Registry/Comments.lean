import SheetLint.Proofs.Registry.Applicable
import SheetLint.Proofs.Rule.Exchange
import SheetLint.Proofs.Tree.Defects

/-!
# Which fixes keep the comments of a text

A rule that changes the order of statements keeps all words. The other rules give fixes of one edit,
and where what that puts does not grow together with the words around it, the comments of the text
are changed only between the ends of the edit. Most rules find no comment there and put none. But the
rule about colors builds a call anew from its arguments, without the comments around them, and the
rule about box values puts a space in the place of a line break, which a backslash takes in.

Results:
* `Registry.comments_perm_iff_of_violations`: when a fix keeps the comments.
* `Registry.colorLiteral_drops_comment`: a fix that does not.
-/

namespace SheetLint

open Tokens

namespace Registry

/-- The rules whose edits may take comments or put some, apart from the rule about comments. -/
def rewritingComments : List String := ["color-literal", "shorthand-values"]

variable {e : RuleEntry} {options : RuleOptions} {severity : Option Severity} {r : Rule}
  {source out : Text} {v : Violation} {fix : Fix}

/-- **When a fix keeps the comments.** Where no word of the new text reaches across an end of what an
edit has put, the comments of the text are the same as before, up to their order, exactly when those
in what a rule about colors or box values puts are those in what it takes. The other rules, apart from
the one about comments, always keep them. -/
theorem comments_perm_iff_of_violations (he : e ∈ entries)
    (hstyle : e.info.name ≠ "comment-style") (hbuild : e.build options severity = .ok r)
    (hsource : (Parse.ofText source).isOk = true)
    (hv : v ∈ r.violations source (Parse.ofText source).sheet) (hfix : v.fix = some fix)
    (happly : Edit.applyAll? source fix.edits = some out) (hout : (Parse.ofText out).isOk = true)
    (hlands : ∀ edit, fix.edits = [edit] → edit.LandsOnEdges out) :
    (comments (ofText out)).Perm (comments (ofText source))
      ↔ (e.info.name ∈ rewritingComments → ∀ edit ∈ fix.edits,
          (commentsWithin edit.start (edit.start + edit.replacement.size) (ofText out)).Perm
            (commentsWithin edit.start edit.stop (ofText source))) := by
  obtain ⟨f, hf, rfl⟩ := List.mem_map.mp hv
  have hread := RuleEntry.exists_read_of_build hbuild
  have happlicable := RuleEntry.fixesApply_of_mem_entries e he options r.check hread source f hf fix
    hfix
  have hok := Parse.kind_ne_error hsource
  have hok' := Parse.kind_ne_error hout
  have hone (hsingle : ∃ edit, fix.edits = [edit]) :=
    happlicable.comments_perm_iff hsingle happly hlands hok hok'
  rcases RuleEntry.sparesComments_of_mem_entries e he with h | rfl | rfl | rfl | rfl
  · have hspares := h options r.check hread source f hf fix hfix
    have hkept := hspares.comments_perm happly hlands hok hok'
    obtain ⟨edit, hedits, -⟩ := hspares.single
    exact ⟨fun _ _ => (hone ⟨edit, hedits⟩).mp hkept, fun _ => hkept⟩
  · obtain ⟨o, ho⟩ := RuleEntry.always_colorLiteral
      (P := fun check => ∃ o, check = ColorLiteral.check o) (fun o => ⟨o, rfl⟩) options r.check hread
    rw [ho] at hf
    exact (hone (ColorLiteral.exists_edits_eq hf hfix)).trans
      ⟨fun h _ => h, fun h => h (by decide)⟩
  · obtain ⟨o, ho⟩ := RuleEntry.always_propertyOrder
      (P := fun check => ∃ o, check = PropertyOrder.check o) (fun o => ⟨o, rfl⟩) options r.check hread
    rw [ho] at hf
    exact ⟨fun _ hname => absurd hname (by decide),
      fun _ => PropertyOrder.comments_perm hf hfix happly⟩
  · rw [← Except.ok.inj hread] at hf
    exact (hone (ShorthandValues.exists_edits_eq hf hfix)).trans
      ⟨fun h _ => h, fun h => h (by decide)⟩
  · exact absurd rfl hstyle

end Registry

theorem Violation.exists_of_map_fix {found : List Violation} {fix : Fix}
    (h : found.map Violation.fix = [some fix]) : ∃ v ∈ found, v.fix = some fix := by
  refine List.mem_map.mp ?_
  rw [h]
  exact List.mem_singleton_self _

/-! ## A string with other quotes -/

namespace Requoting

/-- A string that holds the mark of a comment, and a comment. -/
def source : Text := "a\x7bb:\"//c\"\x7d//d".toList

/-- The text with other quotes. -/
def out : Text := "a\x7bb:'//c'\x7d//d".toList

/-- The fix for the quotes. -/
def fix : Fix := ⟨"Use single quotes", [⟨4, 9, "'//c'".toList⟩]⟩

/-- The rule about quotes with its standard option. -/
def rule : Rule := ⟨QuoteStyle.entry.info, .warning, QuoteStyle.check .single⟩

theorem exists_violation :
    ∃ v ∈ rule.violations source (Parse.ofText source).sheet, v.fix = some fix := by
  refine Violation.exists_of_map_fix ?_
  cbv

theorem landsOnEdges : ∀ edit, fix.edits = [edit] → edit.LandsOnEdges out := by
  rintro _ ⟨⟩
  decide +kernel

end Requoting

open Requoting in
/-- A string with other quotes is no comment, although it holds the mark of one. -/
theorem Registry.comments_perm_iff_of_violations_quotes :
    QuoteStyle.entry ∈ Registry.entries ∧ QuoteStyle.entry.info.name ≠ "comment-style"
      ∧ QuoteStyle.entry.build (.none "quote-style") none = .ok rule
      ∧ (Parse.ofText source).isOk = true
      ∧ (∃ v ∈ rule.violations source (Parse.ofText source).sheet, v.fix = some fix)
      ∧ Edit.applyAll? source fix.edits = some out ∧ (Parse.ofText out).isOk = true
      ∧ (∀ edit, fix.edits = [edit] → edit.LandsOnEdges out)
      ∧ ((comments (ofText out)).Perm (comments (ofText source))
        ↔ (QuoteStyle.entry.info.name ∈ rewritingComments → ∀ edit ∈ fix.edits,
            (commentsWithin edit.start (edit.start + edit.replacement.size) (ofText out)).Perm
              (commentsWithin edit.start edit.stop (ofText source)))) := by
  have hentry : QuoteStyle.entry ∈ Registry.entries := by simp [Registry.entries]
  have hstyle : QuoteStyle.entry.info.name ≠ "comment-style" := by decide
  have hbuild : QuoteStyle.entry.build (.none "quote-style") none = .ok rule := rfl
  have hsource : (Parse.ofText source).isOk = true := by cbv
  obtain ⟨v, hv, hfix⟩ := exists_violation
  have happly : Edit.applyAll? source fix.edits = some out := by cbv
  have hout : (Parse.ofText out).isOk = true := by cbv
  exact ⟨hentry, hstyle, hbuild, hsource, ⟨v, hv, hfix⟩, happly, hout, landsOnEdges,
    comments_perm_iff_of_violations hentry hstyle hbuild hsource hv hfix happly hout landsOnEdges⟩

/-! ## A color without its comment -/

namespace Recoloring

/-- A color with a comment beside a channel. -/
def source : Text := "a\x7bb:rgba(0/**/,0,0,1)\x7d".toList

/-- The text with a hex color. -/
def out : Text := "a\x7bb:rgba(#000, 1)\x7d".toList

/-- The fix for the color. -/
def fix : Fix := ⟨"Use `rgba(#000, 1)`", [⟨4, 21, "rgba(#000, 1)".toList⟩]⟩

/-- The rule about colors with its standard options. -/
def rule : Rule := ⟨ColorLiteral.entry.info, .warning, ColorLiteral.check {}⟩

theorem exists_violation :
    ∃ v ∈ rule.violations source (Parse.ofText source).sheet, v.fix = some fix := by
  refine Violation.exists_of_map_fix ?_
  decide +kernel

end Recoloring

open Recoloring in
/-- **The rule about colors drops a comment** that stands beside a channel. -/
theorem Registry.colorLiteral_drops_comment :
    ColorLiteral.entry ∈ Registry.entries ∧ ColorLiteral.entry.info.name ≠ "comment-style"
      ∧ ColorLiteral.entry.build (.none "color-literal") none = .ok rule
      ∧ (Parse.ofText source).isOk = true
      ∧ (∃ v ∈ rule.violations source (Parse.ofText source).sheet, v.fix = some fix)
      ∧ Edit.applyAll? source fix.edits = some out ∧ (Parse.ofText out).isOk = true
      ∧ ¬ (comments (ofText out)).Perm (comments (ofText source)) := by
  have hkept : comments (ofText source) = ["/**/".toList] := by cbv
  have hdropped : comments (ofText out) = [] := by cbv
  refine ⟨by simp [Registry.entries], by decide, rfl, by cbv, exists_violation, by cbv, by cbv, ?_⟩
  rw [hkept, hdropped]
  simp

end SheetLint
