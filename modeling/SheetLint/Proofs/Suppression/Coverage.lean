import SheetLint.Proofs.Report.Rules
import SheetLint.Proofs.Suppression.Directives
import SheetLint.Proofs.Token.Positions
import SheetLint.Proofs.Tree.Lossless

/-!
# What comments allow

A directive in a comment allows the rules that it names, by name, by code or as `all`, on the lines
from the one where the comment starts to the one behind that where it ends. Lines are counted in the
text here. The first such comment gives the reason, and a report leaves out exactly what is allowed.

Results:
* `Suppression.find?_byLine`: directives listed line by line give the same.
* `Suppression.find?_eq_some_iff`: what the suppressions of a text find.
* `Suppression.allowed_exactly`: what is allowed, why, and what is reported.
-/

namespace SheetLint

open Tokens (ofText text)

/-- **Whether a comment behind a text allows a rule on a line**, through a directive written in it: from
the line where the comment starts to the line behind the one where it ends. -/
structure Token.Allows (front : Text) (k : Token) (d : Directive) (line : Nat) (name code : String) :
    Prop where
  comment : k.kind = .lineComment ∨ k.kind = .blockComment
  written : d.IsWritten k.text
  named : name.toList ∈ d.rules ∨ code.toList ∈ d.rules ∨ "all".toList ∈ d.rules
  first_le : front.count '\n' + 1 ≤ line
  le_last : line ≤ (front ++ k.text).count '\n' + 1 + 1

/-- Whether some comment of a text allows a rule on a line. -/
def Suppression.IsAllowed (source : Text) (line : Nat) (name code : String) : Prop :=
  ∃ before k after d, ofText source = before ++ k :: after
    ∧ k.Allows (text before) d line name code

namespace Suppression

variable {source : Text} {before after ts : List Token} {k : Token} {d : Directive} {line : Nat}
  {name code : String} {s : Suppression}

/-! ## Directives line by line -/

/-- The directives for each line, listed by going over the comments in turn and putting each directive
behind those of the lines that it covers. -/
def byLine (all : List Suppression) : Nat → List Directive :=
  all.foldl (fun listed s line =>
    if s.first ≤ line ∧ line ≤ s.last then listed line ++ [s.directive] else listed line) fun _ => []

theorem byLine_eq (all : List Suppression) (line : Nat) :
    byLine all line =
      (all.filter fun s => s.first ≤ line && line ≤ s.last).map Suppression.directive := by
  induction all using List.reverseRecOn with
  | nil => rfl
  | append_singleton all s ih =>
    rw [byLine, List.foldl_append, List.filter_append, List.map_append, ← ih, byLine]
    by_cases hline : s.first ≤ line ∧ line ≤ s.last <;> simp [hline]

/-- **Looking up the directives of a line** gives the first one that allows the rule. -/
theorem find?_byLine (all : List Suppression) (line : Nat) (name code : String) :
    (byLine all line).find? (·.allows name code) =
      (find? all line name code).map Suppression.directive := by
  rw [byLine_eq, List.find?_map, List.find?_filter, find?]
  congr 2
  funext s
  simp [covers]

/-! ## The comments of a text -/

/-- The suppression of a comment. -/
def ofToken? (t : Token) : Option Suppression :=
  if t.isComment then
    (Directive.ofComment? t.text).map fun d => ⟨t.span.start.line, t.span.stop.line + 1, d⟩
  else none

theorem ofTokens_eq (ts : List Token) : ofTokens ts = ts.filterMap ofToken? := rfl

theorem allows_iff : d.allows name code = true
    ↔ name.toList ∈ d.rules ∨ code.toList ∈ d.rules ∨ "all".toList ∈ d.rules := by
  simp [Directive.allows, or_assoc]

/-- A comment of a text covers a line where it allows the rule. -/
theorem covers_iff_allows (h : ofText source = before ++ k :: after) :
    (∃ s, ofToken? k = some s ∧ s.covers line name code = true ∧ s.directive = d)
      ↔ k.Allows (text before) d line name code := by
  have hspan := Tokens.span_of_ofText h
  have hcomment : k.isComment = true ↔ k.kind = .lineComment ∨ k.kind = .blockComment := by
    simp [Token.isComment]
  constructor
  · rintro ⟨s, hs, hcovers, rfl⟩
    unfold ofToken? at hs
    split at hs
    · rename_i hk
      obtain ⟨d, hd, rfl⟩ := Option.map_eq_some_iff.mp hs
      rw [covers, Bool.and_eq_true, Bool.and_eq_true, decide_eq_true_eq, decide_eq_true_eq, hspan]
        at hcovers
      obtain ⟨⟨hfirst, hlast⟩, hnamed⟩ := hcovers
      exact ⟨hcomment.mp hk, Directive.ofComment?_eq_some_iff.mp hd, allows_iff.mp hnamed, hfirst, hlast⟩
    · cases hs
  · rintro ⟨hk, hwritten, hnamed, hfirst, hlast⟩
    refine ⟨_, by rw [ofToken?, if_pos (hcomment.mpr hk),
      Directive.ofComment?_eq_some_iff.mpr hwritten]; rfl, ?_, rfl⟩
    rw [covers, Bool.and_eq_true, Bool.and_eq_true, decide_eq_true_eq, decide_eq_true_eq, hspan]
    exact ⟨⟨hfirst, hlast⟩, allows_iff.mpr hnamed⟩

/-- **The first suppression that covers a line** is that of the first comment that allows the rule. -/
theorem find?_eq_some_iff :
    (find? (ofTokens (ofText source)) line name code).map Suppression.directive = some d
      ↔ ∃ before k after, ofText source = before ++ k :: after
        ∧ k.Allows (text before) d line name code
        ∧ ∀ front k' back d', before = front ++ k' :: back →
          ¬ k'.Allows (text front) d' line name code := by
  have hfound (k : Token) : Option.any (·.covers line name code) (ofToken? k) = true ↔
      ∃ s, ofToken? k = some s ∧ s.covers line name code = true := Option.any_eq_true _ _
  rw [find?, ofTokens_eq, List.find?_filterMap, Option.map_eq_some_iff]
  constructor
  · rintro ⟨s, hs, rfl⟩
    obtain ⟨k, hk, hks⟩ := Option.bind_eq_some_iff.mp hs
    obtain ⟨hcovers, before, after, hsource, hearlier⟩ := List.find?_eq_some_iff_append.mp hk
    rw [hks, Option.any_some] at hcovers
    refine ⟨before, k, after, hsource, (covers_iff_allows hsource).mp ⟨s, hks, hcovers, rfl⟩, ?_⟩
    rintro front k' back d' rfl hallows
    have hcut : ofText source = front ++ k' :: (back ++ k :: after) := by rw [hsource]; simp
    obtain ⟨s', hs', hcovers', -⟩ := (covers_iff_allows hcut).mpr hallows
    have hnot := hearlier k' (by simp)
    rw [(hfound k').mpr ⟨s', hs', hcovers'⟩] at hnot
    cases hnot
  · rintro ⟨before, k, after, hsource, hallows, hearlier⟩
    obtain ⟨s, hs, hcovers, hd⟩ := (covers_iff_allows hsource).mpr hallows
    refine ⟨s, Option.bind_eq_some_iff.mpr ⟨k, ?_, hs⟩, hd⟩
    refine List.find?_eq_some_iff_append.mpr
      ⟨(hfound k).mpr ⟨s, hs, hcovers⟩, before, after, hsource, fun k' hk' => ?_⟩
    rw [Bool.not_eq_true']
    by_contra hany
    obtain ⟨s', hs', hcovers'⟩ := (hfound k').mp (Bool.not_eq_false _ ▸ hany)
    obtain ⟨front, back, rfl⟩ := List.append_of_mem hk'
    have hcut : ofText source = front ++ k' :: (back ++ k :: after) := by rw [hsource]; simp
    exact hearlier front k' back s'.directive rfl ((covers_iff_allows hcut).mp ⟨s', hs', hcovers', rfl⟩)

/-- A suppression is found where some comment allows the rule. -/
theorem isSome_find?_iff :
    (find? (ofTokens (ofText source)) line name code).isSome = true
      ↔ IsAllowed source line name code := by
  constructor
  · intro h
    obtain ⟨s, hs⟩ := Option.isSome_iff_exists.mp h
    obtain ⟨before, k, after, hsource, hallows, -⟩ :=
      find?_eq_some_iff.mp (congrArg (Option.map Suppression.directive) hs)
    exact ⟨before, k, after, s.directive, hsource, hallows⟩
  · rintro ⟨before, k, after, d, hsource, hallows⟩
    obtain ⟨s, hs, hcovers, -⟩ := (covers_iff_allows hsource).mpr hallows
    rw [find?, List.find?_isSome, ofTokens_eq]
    exact ⟨s, List.mem_filterMap.mpr ⟨k, by rw [hsource]; simp, hs⟩, hcovers⟩

instance (source : Text) (line : Nat) (name code : String) :
    Decidable (IsAllowed source line name code) := decidable_of_iff _ isSome_find?_iff

theorem isReported_eq (source : Text) (v : Violation) :
    Analyzer.isReported (ofTokens (Parse.ofText source).sheet.tokens) v =
      !decide (IsAllowed source v.location.line v.rule v.code) := by
  rw [Analyzer.isReported, Parse.tokens_ofText, ← Option.not_isSome]
  congr 1
  rw [Bool.eq_iff_iff, decide_eq_true_eq]
  exact isSome_find?_iff

/-- **What comments allow, exactly.** A rule is allowed on a line when some comment of the text allows it
there; the reason is that of the first such comment, which a look at the directives of the line finds as
well. The violations that are reported are those that the rules find and that are not allowed on the
line where they start. -/
theorem allowed_exactly (source : Text) :
    (∀ line name code,
      let found := find? (ofTokens (ofText source)) line name code
      (found.isSome = true ↔ IsAllowed source line name code)
        ∧ (∀ reason, found.map (·.directive.reason) = some reason ↔
          ∃ before k after d, ofText source = before ++ k :: after
            ∧ k.Allows (text before) d line name code ∧ d.reason = reason
            ∧ ∀ front k' back d', before = front ++ k' :: back →
              ¬ k'.Allows (text front) d' line name code)
        ∧ (byLine (ofTokens (ofText source)) line).find? (·.allows name code) =
          found.map Suppression.directive)
      ∧ ∀ a : Analyzer,
        let sheet := (Parse.ofText source).sheet
        (a.lint source sheet).Perm ((a.rules.flatMap (a.ruleViolations source sheet)).filter
          fun v => ¬ IsAllowed source v.location.line v.rule v.code) := by
  refine ⟨fun line name code => ⟨isSome_find?_iff, fun reason => ?_, find?_byLine _ _ _ _⟩, fun a => ?_⟩
  · have hreason : (find? (ofTokens (ofText source)) line name code).map (·.directive.reason) =
        ((find? (ofTokens (ofText source)) line name code).map Suppression.directive).map
          Directive.reason := (Option.map_map _ _ _).symm
    rw [hreason, Option.map_eq_some_iff]
    constructor
    · rintro ⟨d, hd, hreason⟩
      obtain ⟨before, k, after, hsource, hallows, hearlier⟩ := find?_eq_some_iff.mp hd
      exact ⟨before, k, after, d, hsource, hallows, hreason, hearlier⟩
    · rintro ⟨before, k, after, d, hsource, hallows, hreason, hearlier⟩
      exact ⟨d, find?_eq_some_iff.mpr ⟨before, k, after, hsource, hallows, hearlier⟩, hreason⟩
  · have hperm := a.lint_perm source (Parse.ofText source).sheet
    rw [funext (isReported_eq source)] at hperm
    simpa using hperm

example : IsAllowed "/* scss-lint:\nallow(all) */".toList 3 "zero-unit" "SL009" :=
  isSome_find?_iff.mp (by cbv)

end Suppression

end SheetLint
