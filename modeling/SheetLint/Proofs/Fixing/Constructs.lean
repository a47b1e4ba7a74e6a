import SheetLint.Proofs.Fixing.Budget
import SheetLint.Proofs.Fixing.Idempotence
import SheetLint.Proofs.Tree.Reading

/-!
# What fixing does to the constructs of a text

A round is good when its text parses; nothing in a run counts rule sets, declarations or at-rules.
So a run keeps their numbers as far as each of its rounds does, and that shows in the roles of the
tokens: a round may change whitespace, comments and words, but it loses a rule set where a token
swallows the brace behind it.

Results:
* `forall_lastText_take_iff`: what all texts of some rounds have in common, no round changes.
* `Text.constructs_eq_of_roles_eq`: texts whose tokens play the same roles hold the same.
* `Analyzer.fix_constructs_iff`: fixing keeps the constructs, whatever the budget, exactly when no
  round changes what a reader finds.
* `standard_fix_constructs_ne`: the standard rules put a brace into the line comment before it.
-/

namespace SheetLint

namespace Fixing

variable {lint : Lint}

/-- What holds of a text holds of every text of some rounds exactly when no round changes it. -/
theorem forall_lastText_take_iff {α : Type} (f : Text → α) (text : Text) (rs : List Round) :
    (∀ k, f (lastText text (rs.take k)) = f text)
      ↔ (text :: rs.map Round.text).IsChain fun t next => f next = f t := by
  induction rs generalizing text with
  | nil => simp
  | cons r later ih =>
    rw [List.map_cons, List.isChain_cons_cons, ← ih]
    constructor
    · intro h
      have hfirst : f r.text = f text := h 1
      refine ⟨hfirst, fun k => ?_⟩
      have hlater := h (k + 1)
      rw [List.take_succ_cons, lastText_cons] at hlater
      rw [hlater, hfirst]
    · rintro ⟨hfirst, hlater⟩ k
      cases k with
      | zero => rfl
      | succ k =>
        rw [List.take_succ_cons, lastText_cons, hlater k, hfirst]

theorem lastText_take_succ {text : Text} {rs : List Round} {i : Nat} (h : i < rs.length) :
    lastText text (rs.take (i + 1)) = rs[i].text := by
  rw [List.take_succ_eq_append_getElem h, lastText, List.getLast?_append, List.getLast?_singleton]
  rfl

theorem lastText_eq_or (text : Text) (rs : List Round) :
    lastText text rs = text ∨ ∃ r ∈ rs, lastText text rs = r.text := by
  unfold lastText
  cases hlast : rs.getLast? with
  | none => exact .inl rfl
  | some r => exact .inr ⟨r, List.mem_of_getLast? hlast, rfl⟩

/-- The text of every round is one that was linted. -/
theorem Chain.accepted_of_mem {text : Text} {violations : List Violation} {rs : List Round}
    (hchain : Chain lint text violations rs) : ∀ r ∈ rs, lint r.text = some r.violations := by
  induction hchain with
  | nil => simp
  | cons step _ ih => exact List.forall_mem_cons.mpr ⟨step.accepted, ih⟩

theorem accepted_of_mem_rounds {budget : Nat} {text : Text} {r : Round}
    (hr : r ∈ (run lint budget text).rounds) : lint r.text = some r.violations := by
  unfold run at hr
  split at hr
  · cases hr
  · exact (rounds_chain lint budget text _ _).accepted_of_mem r hr

theorem length_rounds_run_le (lint : Lint) (budget : Nat) (text : Text) :
    (run lint budget text).rounds.length ≤ budget := by
  unfold run
  split
  · exact Nat.zero_le _
  · exact length_rounds_le _ _ _ _ _

end Fixing

/-! ## Counting -/

/-- How often a text holds each construct, at any level. -/
def Text.constructs (t : Text) : Construct → Nat :=
  fun c => (Parse.ofText t).sheet.constructs.count c

/-- How often a reader finds each construct in the tokens of a text. -/
def Text.constructsRead (t : Text) : Construct → Nat :=
  fun c => (Reading.between.find (Tokens.ofText t)).count c

theorem Text.constructs_eq_constructsRead (t : Text) : constructs t = constructsRead t :=
  funext fun c => congrArg (List.count c) (Stylesheet.constructs_ofTokens (Tokens.ofText t))

/-- Texts whose tokens play the same roles hold the same constructs, however they are laid out. -/
theorem Text.constructs_eq_of_roles_eq {a b : Text}
    (h : Tokens.roles (Tokens.ofText a) = Tokens.roles (Tokens.ofText b)) :
    constructs a = constructs b := by
  rw [constructs_eq_constructsRead, constructs_eq_constructsRead]
  unfold constructsRead Reading.find
  rw [h]

namespace Analyzer

open Fixing

/-- The analyzer with another bound on the rounds. -/
def within (a : Analyzer) (budget : Nat) : Analyzer :=
  { a with config := { a.config with maxIterations := budget } }

/-- The text that fixing gives is the last one of the run. -/
theorem fix_eq_lastText (a : Analyzer) (path : String) (source : Text) :
    (a.fix path source).2 =
      lastText source (run a.lintText a.config.maxIterations source).rounds := by
  cases hok : (Parse.ofText source).isOk with
  | false =>
    rw [(fix_of_not_isOk path hok).1, run, lintText_eq_none_of_not_isOk hok]
    rfl
  | true =>
    rw [fix_of_isOk path hok, Outcome.output_eq, source_run]

/-- With a smaller bound, fixing gives an earlier text of the same run. -/
theorem fix_within (a : Analyzer) (path : String) (source : Text) {k : Nat}
    (hle : k ≤ a.config.maxIterations) :
    ((a.within k).fix path source).2 =
      lastText source ((run a.lintText a.config.maxIterations source).rounds.take k) := by
  rw [fix_eq_lastText]
  change lastText source (run a.lintText k source).rounds = _
  unfold run
  cases hlint : a.lintText source with
  | none => rw [List.take_nil]
  | some violations =>
    simp only
    rw [rounds_take hle]

/-- **What holds of all that fixing gives**, whatever the bound on the rounds: it holds of the source
and of the text of every round. -/
theorem forall_fix_within_iff (a : Analyzer) (path : String) (source : Text) (P : Text → Prop) :
    (∀ k ≤ a.config.maxIterations, P ((a.within k).fix path source).2)
      ↔ P source ∧ ∀ r ∈ (run a.lintText a.config.maxIterations source).rounds, P r.text := by
  have hlength := length_rounds_run_le a.lintText a.config.maxIterations source
  constructor
  · intro h
    have hfirst := h 0 (Nat.zero_le _)
    rw [fix_within a path source (Nat.zero_le _)] at hfirst
    refine ⟨hfirst, fun r hr => ?_⟩
    obtain ⟨i, hi, rfl⟩ := List.getElem_of_mem hr
    have hround := h (i + 1) (by omega)
    rwa [fix_within a path source (by omega), lastText_take_succ hi] at hround
  · rintro ⟨hsource, hrounds⟩ k hk
    rw [fix_within a path source hk]
    rcases lastText_eq_or source
      ((run a.lintText a.config.maxIterations source).rounds.take k) with hsame | ⟨r, hr, hlast⟩
    · rwa [hsame]
    · rw [hlast]
      exact hrounds r (List.mem_of_mem_take hr)

/-- **When fixing keeps rule sets, declarations and at-rules**: their numbers are those of the
source, whatever the bound on the rounds, exactly when no round changes what a reader finds. -/
theorem fix_constructs_iff (a : Analyzer) (path : String) (source : Text) :
    (∀ k ≤ a.config.maxIterations,
        Text.constructs ((a.within k).fix path source).2 = Text.constructs source)
      ↔ (source :: (run a.lintText a.config.maxIterations source).rounds.map Round.text).IsChain
          fun t next => Text.constructsRead next = Text.constructsRead t := by
  have hlength : (run a.lintText a.config.maxIterations source).rounds.length
      ≤ a.config.maxIterations := by
    unfold run
    split
    · exact Nat.zero_le _
    · exact length_rounds_le _ _ _ _ _
  rw [← forall_lastText_take_iff]
  simp only [Text.constructs_eq_constructsRead]
  constructor
  · intro h k
    -- A bound above the number of rounds gives the last text, as the bound of the analyzer does.
    have hmin := h (min k a.config.maxIterations) (Nat.min_le_right _ _)
    rw [fix_within a path source (Nat.min_le_right _ _), ← List.take_take,
      List.take_of_length_le hlength] at hmin
    exact hmin
  · intro h k hk
    rw [fix_within a path source hk]
    exact h k

end Analyzer

/-! ## A brace that ends up in a comment -/

namespace Joined

open Fixing

/-- Two rule sets; a line comment stands in front of the first brace. -/
def source : Text := "a//\n\x7b\x7d\n\nb \x7b\x7d".toList

/-- The source with a space for the line break behind the comment. -/
def output : Text := "a// \x7b\x7d\n\nb \x7b\x7d".toList

/-- The token with this text at a place. -/
def token (kind : TokenKind) (text : Text) (place : Position) : Token :=
  ⟨kind, text, ⟨place, place.advance text⟩⟩

/-- The tree of the source. -/
def sourceSheet : Stylesheet where
  children :=
    [.block [] 0 1
      (.ruleSet [token .ident ['a'] ⟨0, 1, 1⟩, token .lineComment ['/', '/'] ⟨1, 1, 2⟩,
        token .whitespace ['\n'] ⟨3, 1, 4⟩])
      (token .punct ['\x7b'] ⟨4, 2, 1⟩) [] [] (some (token .punct ['\x7d'] ⟨5, 2, 2⟩)),
     .block [token .whitespace ['\n', '\n'] ⟨6, 2, 3⟩] 0 1
      (.ruleSet [token .ident ['b'] ⟨8, 4, 1⟩, token .whitespace [' '] ⟨9, 4, 2⟩])
      (token .punct ['\x7b'] ⟨10, 4, 3⟩) [] [] (some (token .punct ['\x7d'] ⟨11, 4, 4⟩))]
  trailing := []

/-- The tree of the output. -/
def outputSheet : Stylesheet where
  children :=
    [.block [] 0 1
      (.ruleSet [token .ident ['a'] ⟨0, 1, 1⟩,
        token .lineComment ['/', '/', ' ', '\x7b', '\x7d'] ⟨1, 1, 2⟩,
        token .whitespace ['\n', '\n'] ⟨6, 1, 7⟩, token .ident ['b'] ⟨8, 3, 1⟩,
        token .whitespace [' '] ⟨9, 3, 2⟩])
      (token .punct ['\x7b'] ⟨10, 3, 3⟩) [] [] (some (token .punct ['\x7d'] ⟨11, 3, 4⟩))]
  trailing := []

/-- How the source is read. -/
def sourceReading : source.Reading := ⟨sourceSheet, by cbv⟩

/-- How the output is read. -/
def outputReading : output.Reading := ⟨outputSheet, by cbv⟩

theorem parse_source : Parse.ofText source = ⟨sourceSheet, []⟩ := sourceReading.parse

theorem parse_output : Parse.ofText output = ⟨outputSheet, []⟩ := outputReading.parse

/-- The fix that joins the lines. -/
def spaceFix : Fix := ⟨"Put one space before `\x7b`", [⟨3, 4, [' ']⟩]⟩

/-- All that the standard rules find in the source. -/
def violation : Violation where
  code := "SL002"
  rule := "selector-spacing"
  severity := .warning
  location := ⟨2, 1, 4, 1⟩
  message := "Expected one space before `\x7b`"
  suggestion := none
  fix := some spaceFix

theorem lintText_source : Analyzer.standard.lintText source = some [violation] :=
  sourceReading.lintText_eq [violation] rfl rfl rfl (Nat.le_refl 1)

theorem lintText_output : Analyzer.standard.lintText output = some [] :=
  outputReading.lintText_eq [] rfl rfl rfl (Nat.zero_le 1)

theorem round?_source :
    round? Analyzer.standard.lintText source [spaceFix] = some ⟨output, [], [spaceFix]⟩ := by
  have hattempt : attempt? Analyzer.standard.lintText source [spaceFix] =
      some ⟨output, [], [spaceFix]⟩ := by
    refine attempt?_eq_some_iff.mpr ⟨?_, by decide, lintText_output, rfl⟩
    exact applyAll?_singleton "a//".toList ['\n'] "\x7b\x7d\n\nb \x7b\x7d".toList [' ']
  rw [round?, hattempt]

theorem fix_source (path : String) : (Analyzer.standard.fix path source).2 = output := by
  have hrounds : ∀ budget, (rounds Analyzer.standard.lintText (budget + 1) source [violation]
      [source]).1 = [⟨output, [], [spaceFix]⟩] := by
    intro budget
    have hnew : output ∉ [source] := by decide
    rw [rounds, select_singleton rfl]
    simp only [round?_source, hnew, if_false]
    rw [rounds, select_eq_nil_iff.mpr (by simp)]
  rw [Analyzer.fix_eq_lastText]
  simp only [run, lintText_source]
  change lastText source (rounds Analyzer.standard.lintText (9 + 1) source [violation] [source]).1 = _
  rw [hrounds]
  rfl

end Joined

/-- **The standard rules lose a rule set**: a space takes the place of the line break that ends the
comment, and the brace behind it becomes part of the comment. -/
theorem standard_fix_constructs_ne :
    ∃ rules, Registry.build .standard = .ok rules
      ∧ (Parse.ofText Joined.source).isOk = true
      ∧ let fixed := ((⟨rules, .standard⟩ : Analyzer).fix "a.scss" Joined.source).2
        fixed = Joined.output
          ∧ Text.constructs Joined.source .ruleSet = 2 ∧ Text.constructs fixed .ruleSet = 1 := by
  have hfix : (Analyzer.standard.fix "a.scss" Joined.source).2 = Joined.output :=
    Joined.fix_source "a.scss"
  refine ⟨Registry.standardRules, Registry.build_standard, ?_, hfix, ?_, ?_⟩
  · exact congrArg Parse.isOk Joined.parse_source
  · change (Parse.ofText Joined.source).sheet.constructs.count _ = 2
    rw [Joined.parse_source]
    rfl
  · change (Parse.ofText (Analyzer.standard.fix "a.scss" Joined.source).2).sheet.constructs.count _
      = 1
    rw [hfix, Joined.parse_output]
    rfl

end SheetLint
