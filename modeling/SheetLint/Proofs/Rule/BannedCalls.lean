import SheetLint.Proofs.Tree.Nesting
import SheetLint.Proofs.Tree.Values
import SheetLint.Proofs.Value.Calls
import SheetLint.Rule.BannedFunctions

/-!
# Calls of banned functions

Calls are looked for in the values of declarations and in the preludes of at-rules. These runs of
tokens do not overlap, and a name in one of them is called in the run if it is called in the text. Each
banned name that is called is therefore found once, at any depth of the tree.

Results:
* `BannedFunctions.check_eq`: the rule finds the banned names of the values and preludes of a tree.
* `BannedFunctions.mem_bannedNames_iff`: which names are found in a value or prelude of a text.
* `BannedFunctions.violations_exactly`: what the rule reports.
-/

namespace SheetLint

open Tokens

variable {run : List Token} {t : Token} {source : Text}

namespace BannedFunctions

open Stylesheet

/-- The names of the banned calls in a run. `banned` holds names in lower case. -/
def bannedNames (banned : List Text) (run : List Token) : List Token :=
  ((Call.find run).map Call.name).filter fun t => banned.contains t.text.lower

/-- What is found at the name of a banned call. -/
def findingAt (t : Token) : Finding :=
  { span := t.span, message := "Function " ++ Text.quoted t.text ++ " is banned" }

theorem runFindings_eq (banned : List Text) (run : List Token) :
    runFindings banned run = (bannedNames banned run).map findingAt := by
  rw [bannedNames, List.filter_map, List.map_map]
  rfl

theorem callTokens_eq (n : Node) : callTokens n = (valueView.node? n).getD [] := by
  cases n with
  | statement leading level s => cases s <;> rfl
  | block leading level depth head opening children trailing closing => cases head <;> rfl

/-- The rule looks at the values and preludes of a tree. -/
theorem check_eq (functions : List String) (source : Text) (sheet : Stylesheet) :
    check functions source sheet =
      ((sheet.nodes.filterMap valueView.node?).flatMap
        (bannedNames (functions.map fun name => Text.lower name.toList))).map findingAt := by
  rw [check, List.map_flatMap]
  simp only [callTokens_eq, runFindings_eq]
  induction sheet.nodes with
  | nil => rfl
  | cons n ns ih =>
    rw [List.flatMap_cons, ih, List.filterMap_cons]
    cases valueView.node? n <;> rfl

/-- No name is found twice, and they are found in order. -/
theorem bannedNames_sublist (banned : List Text) (run : List Token) :
    (bannedNames banned run).Sublist run :=
  List.filter_sublist.trans (Call.map_name_findFrom_sublist 0 run)

theorem mem_bannedNames {banned : List Text} : t ∈ bannedNames banned run ↔
    (∃ paren, [t, paren] <:+: run ∧ Call.opens t paren = true) ∧ t.text.lower ∈ banned := by
  rw [bannedNames, List.mem_filter, Call.find, Call.mem_map_name_findFrom, List.contains_iff_mem]

/-- Whether a token is an identifier in front of a parenthesis of a text. -/
structure IsCalled (source : Text) (t : Token) : Prop where
  kind : t.kind = .ident
  paren : ∃ paren, paren.isPunct '(' = true ∧ [t, paren] <:+: Tokens.ofText source

/-- In a text nothing is between a token and the one behind it. -/
theorem isCalled_iff : IsCalled source t ↔
    ∃ paren, [t, paren] <:+: Tokens.ofText source ∧ Call.opens t paren = true := by
  constructor
  · rintro ⟨hkind, paren, hparen, hstands⟩
    obtain ⟨before, after, hsource⟩ := hstands
    refine ⟨paren, ⟨before, after, hsource⟩, Call.opens_iff.mpr ⟨hkind, hparen, ?_⟩⟩
    rw [List.append_assoc] at hsource
    exact start_eq_stop hsource.symm
  · rintro ⟨paren, hstands, hopens⟩
    obtain ⟨hkind, hparen, -⟩ := Call.opens_iff.mp hopens
    exact ⟨hkind, paren, hparen, hstands⟩

/-- The banned names of a run are the tokens in it that are called in the text. -/
theorem mem_bannedNames_iff {banned : List Text}
    (hrun : run ∈ (Parse.ofText source).sheet.nodes.filterMap valueView.node?) :
    t ∈ bannedNames banned run ↔ t ∈ run ∧ IsCalled source t ∧ t.text.lower ∈ banned := by
  obtain ⟨front, back, hsource, hback⟩ := exists_behind_run hrun
  rw [mem_bannedNames, isCalled_iff, ← and_assoc]
  refine and_congr_left fun _ => ?_
  constructor
  · rintro ⟨paren, hstands, hopens⟩
    have ht : t ∈ run := hstands.subset List.mem_cons_self
    have hparen := (Call.opens_iff.mp hopens).2.1
    exact ⟨ht, paren, (Call.pair_isInfix_iff hsource hback ht hparen).mp hstands, hopens⟩
  · rintro ⟨ht, paren, hstands, hopens⟩
    have hparen := (Call.opens_iff.mp hopens).2.1
    exact ⟨paren, (Call.pair_isInfix_iff hsource hback ht hparen).mpr hstands, hopens⟩

/-- **The banned functions that are called are found**, each once, at any depth. -/
theorem violations_exactly (source : Text) (severity : Severity) (functions : List String) :
    ∃ names : List Token,
      (⟨entry.info, severity, check functions⟩ : Rule).violations source (Parse.ofText source).sheet =
        names.map (fun t => {
          code := "SL011"
          rule := "banned-functions"
          severity
          location := .ofSpan t.span
          message := "Function " ++ Text.quoted t.text ++ " is banned"
          suggestion := none
          fix := none })
      ∧ names.Sublist (Tokens.ofText source)
      ∧ names.Nodup
      ∧ ∀ t, t ∈ names ↔ IsCalled source t
          ∧ t.text.lower ∈ functions.map (fun name => Text.lower name.toList)
          ∧ ∃ around n, Node.Enclosed (Parse.ofText source).sheet.children around n ∧ n.InValue t := by
  have hsublist : (((Parse.ofText source).sheet.nodes.filterMap valueView.node?).flatMap
      (bannedNames (functions.map fun name => Text.lower name.toList))).Sublist
        (Tokens.ofText source) :=
    seen_sublist valueView
      (fun b run h => (bannedNames_sublist _ run).trans (sublist_of_piece? h)) (Tokens.ofText source)
  refine ⟨_, ?_, hsublist, hsublist.nodup (nodup_ofText source), fun t => ?_⟩
  · dsimp only [Rule.violations]
    rw [check_eq, List.map_map]
    rfl
  · rw [List.mem_flatMap]
    constructor
    · rintro ⟨run, hrun, ht⟩
      obtain ⟨hmem, hcalled, hbanned⟩ := (mem_bannedNames_iff hrun).mp ht
      obtain ⟨n, hn, hseen⟩ := List.mem_filterMap.mp hrun
      obtain ⟨around, hplaced⟩ := mem_nodes_iff.mp hn
      exact ⟨hcalled, hbanned, around, n, hplaced, inValue_iff.mpr ⟨run, hseen, hmem⟩⟩
    · rintro ⟨hcalled, hbanned, around, n, hplaced, hvalue⟩
      obtain ⟨run, hseen, hmem⟩ := inValue_iff.mp hvalue
      have hrun := List.mem_filterMap.mpr ⟨n, mem_nodes_iff.mpr ⟨around, hplaced⟩, hseen⟩
      exact ⟨run, hrun, (mem_bannedNames_iff hrun).mpr ⟨hmem, hcalled, hbanned⟩⟩

/-- A call inside another one and a call in a prelude, and in between a selector, a name without
parenthesis and a parenthesis behind a blank. -/
example :
    let source : Text := "a{b:g(F()) f ()}@m f(){f(){b:f}}".toList
    (check ["F"] source (Parse.ofText source).sheet).map (·.span.start.offset) = [6, 19] := by
  cbv

end BannedFunctions

end SheetLint
