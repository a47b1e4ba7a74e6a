import SheetLint.Proofs.Fixing.Trace
import SheetLint.Proofs.Registry.Standard
import SheetLint.Proofs.Tree.Lossless

/-!
# Fixing a fixed text

A run leaves a text alone exactly when it may take no round or finds no usable fix. So fixing a
text twice is fixing it once exactly when the first run ends for lack of usable fixes; a run that
ends because its budget is spent, or because it would come back to a text, leaves work behind.

The rules of the standard configuration do not always settle. A semicolon missing behind a value
that ends with a line comment is put behind the comment, that is into it, and is still missing.

Results:
* `output_run_eq_source_iff`: when a run gives its source back.
* `Analyzer.fix_fix_eq_iff`: when fixing a second time changes nothing.
* `Text.Reading.lintText_eq`: the lint of a text that is read without errors.
* `standard_fix_fix_ne`: a text that grows by ten characters each time it is fixed.
-/

namespace SheetLint

/-! ## Runs that change nothing -/

namespace Fixing

variable {lint : Lint} {text : Text} {violations : List Violation} {rs : List Round}

/-- Neither all selected fixes together nor one of them alone can be applied. -/
def Settled (lint : Lint) (text : Text) (violations : List Violation) : Prop :=
  attempt? lint text (select violations) = none
    ∧ ∀ f ∈ select violations, attempt? lint text [f] = none

/-- A text without anything to fix is settled. -/
theorem settled_of_forall_fix_eq_none (h : ∀ v ∈ violations, v.fix = none) :
    Settled lint text violations := by
  unfold Settled
  rw [select_eq_nil_iff.mpr h]
  constructor
  · cases hattempt : attempt? lint text [] with
    | none => rfl
    | some r => exact absurd rfl (ne_nil_of_attempt? hattempt)
  · intro f hf
    cases hf

theorem lastText_mem {r : Round} (hlast : r ∈ rs) : lastText text rs ∈ rs.map Round.text := by
  have hne : rs ≠ [] := List.ne_nil_of_mem hlast
  rw [lastText, List.getLast?_eq_some_getLast hne]
  exact List.mem_map_of_mem (List.getLast_mem hne)

theorem source_run (lint : Lint) (budget : Nat) (text : Text) :
    (run lint budget text).source = text := by
  unfold run
  split <;> rfl

/-- From a settled text there is no round. -/
theorem rounds_of_settled (h : Settled lint text violations) (budget : Nat) (seen : List Text) :
    (rounds lint budget text violations seen).1 = [] := by
  have hround : round? lint text (select violations) = none := round?_eq_none_iff.mpr h
  unfold rounds
  split
  · rfl
  · split
    · rfl
    · rw [hround]

/-- **When a run gives its source back**: it may take no round, or the source is settled. -/
theorem output_run_eq_source_iff (budget : Nat) (hlint : lint text = some violations) :
    (run lint budget text).output = text ↔ budget = 0 ∨ Settled lint text violations := by
  constructor
  · intro hsame
    obtain ⟨rs, htrace⟩ : ∃ rs, Trace lint budget text violations (run lint budget text) rs :=
      ⟨_, trace_run hlint budget⟩
    -- No round gives the source back, so a run that ends where it began has no rounds.
    have hnil : rs = [] := by
      cases hrs : rs with
      | nil => rfl
      | cons r later =>
        have hmem : lastText text rs ∈ rs.map Round.text :=
          lastText_mem (hrs ▸ List.mem_cons_self : r ∈ rs)
        rw [← htrace.output_eq, hsame] at hmem
        exact absurd hmem (List.nodup_cons.mp htrace.nodup).1
    have hremaining : (run lint budget text).remaining = violations := by
      have haccepted := htrace.accepted
      rw [hsame, hlint] at haccepted
      exact (Option.some.inj haccepted).symm
    cases hconverged : (run lint budget text).converged with
    | true =>
      refine Or.inr (settled_of_forall_fix_eq_none ?_)
      rw [← hremaining]
      exact htrace.converged_iff.mp hconverged
    | false =>
      have hstopped := htrace.stopped hconverged
      rw [hnil, hsame, hremaining] at hstopped
      rcases hstopped with hbudget | hsettled | ⟨r, -, step, hback⟩
      · exact Or.inl hbudget.symm
      · exact Or.inr hsettled
      · exact absurd (List.mem_singleton.mp hback) step.changed
  · intro hstill
    have hnil : (rounds lint budget text violations [text]).1 = [] := by
      rcases hstill with rfl | hsettled
      · exact rounds_zero lint text violations [text]
      · exact rounds_of_settled hsettled budget [text]
    rw [Outcome.output_eq]
    simp only [run, hlint, hnil, lastText_nil]

end Fixing

/-! ## Fixing twice -/

namespace Analyzer

open Fixing

variable {a : Analyzer} {source : Text}

theorem lintText_eq_some_of_isOk (h : (Parse.ofText source).isOk = true) :
    a.lintText source = some (a.lint source (Parse.ofText source).sheet) := by
  simp [lintText, h]

theorem lintText_eq_none_of_not_isOk (h : (Parse.ofText source).isOk = false) :
    a.lintText source = none := by
  simp [lintText, h]

/-- A text that does not parse stays as it is. -/
theorem fix_of_not_isOk (path : String) (h : (Parse.ofText source).isOk = false) :
    (a.fix path source).2 = source ∧ (a.fix path source).1.fixed = false := by
  have hreport : a.check path source =
      { path, syntaxErrors := (Parse.ofText source).errors } := by
    simp [check, h]
  have herrors : (Parse.ofText source).errors.isEmpty = false := h
  simp [fix, hreport, herrors]

/-- A text that parses is fixed by a run. -/
theorem fix_of_isOk (path : String) (h : (Parse.ofText source).isOk = true) :
    a.fix path source =
      ({ path
         violations := (run a.lintText a.config.maxIterations source).remaining
         fixed := (run a.lintText a.config.maxIterations source).isChanged },
        (run a.lintText a.config.maxIterations source).output) := by
  have hreport : a.check path source =
      { path, violations := a.lint source (Parse.ofText source).sheet } := by
    simp [check, h]
  simp [fix, hreport]

/-- The report on a fixed text says that it was fixed exactly when the text is another. -/
theorem fixed_fix_eq_false_iff (path : String) :
    (a.fix path source).1.fixed = false ↔ (a.fix path source).2 = source := by
  cases hok : (Parse.ofText source).isOk with
  | false => simp [fix_of_not_isOk path hok]
  | true =>
    rw [fix_of_isOk path hok]
    simp [Outcome.isChanged, source_run]

/-- A text that parses is fixed into one that parses. -/
theorem isOk_fix (path : String) (h : (Parse.ofText source).isOk = true) :
    (Parse.ofText (a.fix path source).2).isOk = true
      ∧ a.lintText (a.fix path source).2 = some (a.fix path source).1.violations := by
  have htrace := trace_run (lintText_eq_some_of_isOk (a := a) h) a.config.maxIterations
  have haccepted : a.lintText (a.fix path source).2 = some (a.fix path source).1.violations := by
    rw [fix_of_isOk path h]
    exact htrace.accepted
  refine ⟨?_, haccepted⟩
  cases hok : (Parse.ofText (a.fix path source).2).isOk with
  | true => rfl
  | false =>
    rw [lintText_eq_none_of_not_isOk hok] at haccepted
    cases haccepted

/-- **When fixing a second time changes nothing**: the source does not parse, or no round may be
taken, or the first run ended because nothing usable was left. -/
theorem fix_fix_eq_iff (a : Analyzer) (path : String) (source : Text) :
    ((a.fix path (a.fix path source).2).2 = (a.fix path source).2
        ∧ (a.fix path (a.fix path source).2).1.fixed = false)
      ↔ (Parse.ofText source).isOk = false ∨ a.config.maxIterations = 0
        ∨ Settled a.lintText (a.fix path source).2 (a.fix path source).1.violations := by
  rw [fixed_fix_eq_false_iff, and_self]
  cases hok : (Parse.ofText source).isOk with
  | false =>
    have hsame := (fix_of_not_isOk (a := a) path hok).1
    simp only [hsame, true_or]
  | true =>
    obtain ⟨hfixed, hlint⟩ := isOk_fix (a := a) path hok
    rw [fix_of_isOk path hfixed]
    simpa using output_run_eq_source_iff a.config.maxIterations hlint

end Analyzer

/-! ## Texts that are read without errors -/

/-- The tree that a text is read as, when it is read without errors. -/
structure Text.Reading (text : Text) where
  sheet : Stylesheet
  parse : Parse.ofText text = ⟨sheet, []⟩

namespace Text.Reading

variable {a : Analyzer} {text : Text} {allowed : List Suppression} {reported : List Violation}

theorem isOk (r : text.Reading) : (Parse.ofText text).isOk = true := congrArg Parse.isOk r.parse

/-- The lint of a tree, from what the rules find and what its comments allow. -/
theorem lint_eq (r : text.Reading) (found : List Violation)
    (hfound : a.rules.flatMap (a.ruleViolations text r.sheet) = found)
    (hallowed : Suppression.ofTokens r.sheet.tokens = allowed)
    (hreported : found.filter (Analyzer.isReported allowed) = reported)
    (hlength : reported.length ≤ 1) : a.lint text r.sheet = reported := by
  rw [Analyzer.lint, hallowed, hfound, hreported]
  match reported, hlength with
  | [], _ => rw [Violation.sort, List.mergeSort_nil]
  | [v], _ => rw [Violation.sort, List.mergeSort_singleton]

theorem lintText_eq (r : text.Reading) (found : List Violation)
    (hfound : a.rules.flatMap (a.ruleViolations text r.sheet) = found)
    (hallowed : Suppression.ofTokens r.sheet.tokens = allowed)
    (hreported : found.filter (Analyzer.isReported allowed) = reported)
    (hlength : reported.length ≤ 1) : a.lintText text = some reported := by
  rw [Analyzer.lintText_eq_some_of_isOk r.isOk, r.parse,
    r.lint_eq found hfound hallowed hreported hlength]

end Text.Reading

/-! ## A text that never settles -/

/-- The first token of a text, when it is known how far it goes. -/
theorem Tokens.ofTextAt_cons {c : Char} {rest : Text} {kind : TokenKind} {n : Nat}
    (place : Position) (h : Scan.kindAndLength c rest = (kind, n + 1)) :
    ofTextAt place (c :: rest) =
      ⟨kind, c :: rest.take n, ⟨place, place.advance (c :: rest.take n)⟩⟩
        :: ofTextAt (place.advance (c :: rest.take n)) (rest.drop n) := by
  rw [ofTextAt, h]
  rfl

namespace Trailed

/-- A declaration that ends with a line comment, which holds `n` semicolons. -/
def source (n : Nat) : Text := ['a', ':', ' ', 'b', ' ', '/', '/'] ++ List.replicate n ';'

/-- The place behind `n` characters of the only line. -/
def place (n : Nat) : Position := ⟨n, 1, n + 1⟩

/-- The comment. -/
def comment (n : Nat) : Token :=
  ⟨.lineComment, '/' :: '/' :: List.replicate n ';', ⟨place 5, place (7 + n)⟩⟩

/-- The declaration, whose value goes on up to the end of the comment. -/
def declaration (n : Nat) : Declaration where
  property := [⟨.ident, ['a'], ⟨place 0, place 1⟩⟩]
  beforeColon := []
  colon := ⟨.punct, [':'], ⟨place 1, place 2⟩⟩
  afterColon := [⟨.whitespace, [' '], ⟨place 2, place 3⟩⟩]
  value := [⟨.ident, ['b'], ⟨place 3, place 4⟩⟩, ⟨.whitespace, [' '], ⟨place 4, place 5⟩⟩,
    comment n]
  beforeSemicolon := []
  semicolon := none

/-- The tree of the text. -/
def sheet (n : Nat) : Stylesheet := ⟨[.statement [] 0 (.declaration (declaration n))], []⟩

/-- The fix that puts one more semicolon into the comment. -/
def semicolonFix (n : Nat) : Fix := .insert "Add `;`" (7 + n) [';']

/-- All that the standard rules find. -/
def violation (n : Nat) : Violation where
  code := "SL013"
  rule := "declaration-semicolon"
  severity := .warning
  location := .ofSpan ⟨place (7 + n), place (7 + n)⟩
  message := "Expected `;` after `a` declaration"
  suggestion := none
  fix := some (semicolonFix n)

theorem advance_place (n k : Nat) :
    (place k).advance (List.replicate n ';') = place (k + n) := by
  induction n generalizing k with
  | zero => rfl
  | succ n ih =>
    have hstep : (place k).advance (List.replicate (n + 1) ';')
        = (place (k + 1)).advance (List.replicate n ';') := rfl
    rw [hstep, ih, Nat.add_right_comm, Nat.add_assoc]

theorem tokens_comment (n : Nat) :
    Tokens.ofTextAt (place 5) ('/' :: '/' :: List.replicate n ';') = [comment n] := by
  have hscan : Scan.kindAndLength '/' ('/' :: List.replicate n ';') =
      (.lineComment, (n + 1) + 1) := by
    have hline : Scan.kindAndLength '/' ('/' :: List.replicate n ';') = (.lineComment,
        (('/' :: '/' :: List.replicate n ';').takeWhile (!Scan.isLineBreak ·)).length) := rfl
    rw [hline]
    simp [Scan.isLineBreak]
  have hplace : (place 5).advance ('/' :: '/' :: List.replicate n ';') = place (7 + n) :=
    advance_place n 7
  rw [Tokens.ofTextAt_cons _ hscan, List.take_of_length_le (by simp),
    List.drop_of_length_le (by simp), hplace, Tokens.ofTextAt]
  rfl

theorem tokens_source (n : Nat) : Tokens.ofText (source n) = (declaration n).tokens := by
  let trail := '/' :: '/' :: List.replicate n ';'
  have hspace : Tokens.ofTextAt (place 4) (' ' :: trail) =
      ⟨.whitespace, [' '], ⟨place 4, place 5⟩⟩ :: Tokens.ofTextAt (place 5) trail :=
    Tokens.ofTextAt_cons (n := 0) _ rfl
  have hvalue : Tokens.ofTextAt (place 3) ('b' :: ' ' :: trail) =
      ⟨.ident, ['b'], ⟨place 3, place 4⟩⟩ :: Tokens.ofTextAt (place 4) (' ' :: trail) :=
    Tokens.ofTextAt_cons (n := 0) _ rfl
  have hafter : Tokens.ofTextAt (place 2) (' ' :: 'b' :: ' ' :: trail) =
      ⟨.whitespace, [' '], ⟨place 2, place 3⟩⟩
        :: Tokens.ofTextAt (place 3) ('b' :: ' ' :: trail) :=
    Tokens.ofTextAt_cons (n := 0) _ rfl
  have hcolon : Tokens.ofTextAt (place 1) (':' :: ' ' :: 'b' :: ' ' :: trail) =
      ⟨.punct, [':'], ⟨place 1, place 2⟩⟩
        :: Tokens.ofTextAt (place 2) (' ' :: 'b' :: ' ' :: trail) :=
    Tokens.ofTextAt_cons (n := 0) _ rfl
  have hproperty : Tokens.ofTextAt (place 0) ('a' :: ':' :: ' ' :: 'b' :: ' ' :: trail) =
      ⟨.ident, ['a'], ⟨place 0, place 1⟩⟩
        :: Tokens.ofTextAt (place 1) (':' :: ' ' :: 'b' :: ' ' :: trail) :=
    Tokens.ofTextAt_cons (n := 0) _ rfl
  calc
    Tokens.ofText (source n) = Tokens.ofTextAt (place 0) ('a' :: ':' :: ' ' :: 'b' :: ' ' :: trail) :=
      rfl
    _ = (declaration n).tokens := by
      rw [hproperty, hcolon, hafter, hvalue, hspace, tokens_comment]
      rfl

theorem parse_source (n : Nat) : Parse.ofText (source n) = ⟨sheet n, []⟩ := by
  have htree : Stylesheet.ofTokens (declaration n).tokens = sheet n := by cbv
  have herrors : Parse.tokenErrors (declaration n).tokens ++ (sheet n).errors = [] := rfl
  rw [Parse.ofText, tokens_source, Parse.ofTokens, htree]
  simp only [herrors, List.mergeSort_nil]

/-- How the text is read. -/
def reading (n : Nat) : (source n).Reading := ⟨sheet n, parse_source n⟩

/-- The comment is no directive, however long it is. -/
theorem suppressions_sheet (n : Nat) : Suppression.ofTokens (sheet n).tokens = [] := by
  have hstart : ∀ m, (List.replicate m ';').dropWhile Text.isBlank = List.replicate m ';' := by
    intro m
    cases m <;> rfl
  have htrim : Text.trim (List.replicate n ';') = List.replicate n ';' := by
    simp only [Text.trim, Text.trimStart, Text.trimEnd, hstart, List.reverse_replicate]
  have hdirective : Directive.ofComment? (comment n).text = none := by
    unfold Directive.ofComment?
    simp only [comment, Directive.content?, Option.bind_eq_bind, Option.bind_some, htrim]
    cases n <;> rfl
  change ((Directive.ofComment? (comment n).text).map _).toList = []
  rw [hdirective]
  rfl

/-- **Only the semicolon is missed**, and it is missed for every number of them. -/
theorem lintText_source (n : Nat) : Analyzer.standard.lintText (source n) = some [violation n] :=
  (reading n).lintText_eq [violation n] rfl (suppressions_sheet n) rfl (Nat.le_refl 1)

theorem source_injective {m n : Nat} (h : source m = source n) : m = n := by
  have hlength := congrArg List.length h
  simpa [source] using hlength

/-- The fix writes one more semicolon into the comment. -/
theorem applyAll?_semicolonFix (n : Nat) :
    Edit.applyAll? (source n) (semicolonFix n).edits = some (source (n + 1)) := by
  have hsemicolons : ∀ m, Text.size (List.replicate m ';') = m := by
    intro m
    induction m with
    | zero => rfl
    | succ m ih =>
      rw [List.replicate_succ, Text.size_cons, ih, Nat.add_comm]
      rfl
  have hsize : Text.size (source n) = 7 + n := by
    rw [source, Text.size_append, hsemicolons]
    rfl
  have happly := Fixing.applyAll?_singleton (source n) [] [] [';']
  rw [List.append_nil, List.append_nil, List.append_nil, Text.size_nil, Nat.add_zero, hsize] at happly
  have hnext : source n ++ [';'] = source (n + 1) := by
    simp [source, List.replicate_succ']
  rw [← hnext]
  exact happly

theorem round?_source (n : Nat) :
    Fixing.round? Analyzer.standard.lintText (source n) [semicolonFix n] =
      some ⟨source (n + 1), [violation (n + 1)], [semicolonFix n]⟩ := by
  have hattempt : Fixing.attempt? Analyzer.standard.lintText (source n) [semicolonFix n] =
      some ⟨source (n + 1), [violation (n + 1)], [semicolonFix n]⟩ := by
    refine Fixing.attempt?_eq_some_iff.mpr
      ⟨applyAll?_semicolonFix n, fun hsame => ?_, lintText_source (n + 1), rfl⟩
    exact Nat.succ_ne_self n (source_injective hsame)
  rw [Fixing.round?, hattempt]

/-- Each round adds a semicolon, and no text comes twice. -/
theorem lastText_rounds (budget n : Nat) (seen : List Text)
    (hseen : ∀ t ∈ seen, ∃ m ≤ n, t = source m) :
    Fixing.lastText (source n)
        (Fixing.rounds Analyzer.standard.lintText budget (source n) [violation n] seen).1
      = source (n + budget) := by
  induction budget generalizing n seen with
  | zero =>
    rw [Fixing.rounds, Fixing.select_singleton rfl]
    rfl
  | succ budget ih =>
    have hnew : source (n + 1) ∉ seen := by
      intro hmem
      obtain ⟨m, hm, heq⟩ := hseen _ hmem
      have := source_injective heq
      omega
    have hlater : ∀ t ∈ source (n + 1) :: seen, ∃ m ≤ n + 1, t = source m := by
      intro t ht
      rcases List.mem_cons.mp ht with rfl | hmem
      · exact ⟨n + 1, Nat.le_refl _, rfl⟩
      · obtain ⟨m, hm, heq⟩ := hseen t hmem
        exact ⟨m, Nat.le_succ_of_le hm, heq⟩
    rw [Fixing.rounds, Fixing.select_singleton rfl]
    simp only [round?_source, hnew, if_false, Fixing.lastText_cons]
    rw [ih (n + 1) _ hlater, Nat.add_right_comm, Nat.add_assoc]

/-- **The text grows each time it is fixed**, by as many semicolons as there may be rounds. -/
theorem fix_source (path : String) (n : Nat) :
    (Analyzer.standard.fix path (source n)).2 = source (n + Config.standardIterations) := by
  have hok : (Parse.ofText (source n)).isOk = true := by
    rw [parse_source]
    rfl
  rw [Analyzer.fix_of_isOk path hok, Fixing.Outcome.output_eq]
  simp only [Fixing.run, lintText_source]
  refine lastText_rounds _ n [source n] ?_
  intro t ht
  exact ⟨n, Nat.le_refl n, List.mem_singleton.mp ht⟩

end Trailed

/-- **The standard rules do not settle within their budget**: `a: b //` is fixed into a text that
fixing changes again. -/
theorem standard_fix_fix_ne :
    ∃ rules, Registry.build .standard = .ok rules
      ∧ (Parse.ofText "a: b //".toList).isOk = true
      ∧ let a : Analyzer := ⟨rules, .standard⟩
        let fixed := (a.fix "a.scss" "a: b //".toList).2
        fixed = "a: b //;;;;;;;;;;".toList
          ∧ (a.fix "a.scss" fixed).2 = "a: b //;;;;;;;;;;;;;;;;;;;;".toList
          ∧ (a.fix "a.scss" fixed).1.fixed = true := by
  have hfirst : (Analyzer.standard.fix "a.scss" (Trailed.source 0)).2 = Trailed.source 10 :=
    Trailed.fix_source "a.scss" 0
  have hsecond : (Analyzer.standard.fix "a.scss" (Trailed.source 10)).2 = Trailed.source 20 :=
    Trailed.fix_source "a.scss" 10
  refine ⟨Registry.standardRules, Registry.build_standard, ?_, hfirst, ?_, ?_⟩
  · exact congrArg Parse.isOk (Trailed.parse_source 0)
  · change (Analyzer.standard.fix "a.scss" (Analyzer.standard.fix "a.scss" (Trailed.source 0)).2).2 = _
    rw [hfirst, hsecond]
    rfl
  · change (Analyzer.standard.fix "a.scss" (Analyzer.standard.fix "a.scss" (Trailed.source 0)).2).1.fixed
      = true
    rw [hfirst]
    refine Bool.not_eq_false _ ▸ fun hsame => ?_
    have hback := (Analyzer.fixed_fix_eq_false_iff "a.scss").mp hsame
    rw [hsecond] at hback
    exact absurd (Trailed.source_injective hback) (by decide)

end SheetLint
