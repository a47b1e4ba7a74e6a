import SheetLint.Violation

/-!
# Fixing a text round by round

A *lint* gives the violations of a text, or nothing when the text cannot be linted. A round picks
fixes that do not conflict, applies them together and lints the result. When the result is no good
the fixes are tried one at a time, and each is kept that works together with those kept before.
Rounds go on until no violation carries a fix, the budget is spent, no fix of a round can be
applied, or a text comes back that was there before.
-/

namespace SheetLint.Fixing

/-- The violations of a text, or nothing when the text does not parse. -/
abbrev Lint := Text → Option (List Violation)

/-! ## Picking fixes -/

/-- A fix and the name of the rule it comes from. -/
structure Candidate where
  rule : String
  fix : Fix

/-- Order of preference: fixes further left first, then shorter ones, then by rule name. -/
def Candidate.le (a b : Candidate) : Bool :=
  if a.fix.start ≠ b.fix.start then a.fix.start < b.fix.start
  else if a.fix.length ≠ b.fix.length then a.fix.length < b.fix.length
  else Text.leString a.rule b.rule

/-- The fixes of the violations, preferred ones first. -/
def candidates (vs : List Violation) : List Fix :=
  ((vs.filterMap fun v => v.fix.map (Candidate.mk v.rule)).mergeSort Candidate.le).map
    Candidate.fix

/-- Goes through fixes in order and adds each to `taken` that conflicts with none of them. -/
def takeCompatible : List Fix → List Fix → List Fix
  | taken, [] => taken
  | taken, f :: fs =>
    takeCompatible (if taken.any (·.conflicts f) then taken else taken ++ [f]) fs

/-- The fixes of a round: each preferred to the later ones that conflict with it. -/
def select (vs : List Violation) : List Fix := takeCompatible [] (candidates vs)

/-! ## One round -/

/-- A text changed by fixes, and what is left to complain about. -/
structure Round where
  text : Text
  violations : List Violation
  fixes : List Fix

/-- The text with the fixes applied; `none` when an edit does not fit or nothing changes. -/
def changed? (text : Text) (fixes : List Fix) : Option Text :=
  match Edit.applyAll? text (fixes.flatMap Fix.edits) with
  | some next => if next = text then none else some next
  | none => none

/-- A round with exactly these fixes; `none` when they change nothing or break the text. -/
def attempt? (lint : Lint) (text : Text) (fixes : List Fix) : Option Round := do
  let next ← changed? text fixes
  let violations ← lint next
  return ⟨next, violations, fixes⟩

/-- Goes through fixes in order and adds each to `kept` that works together with them. -/
def keepUsable (lint : Lint) (text : Text) : List Fix → List Fix → List Fix
  | kept, [] => kept
  | kept, f :: fs =>
    keepUsable lint text (if (attempt? lint text (kept ++ [f])).isSome then kept ++ [f] else kept) fs

/-- A round with all of the fixes, or else with those kept one at a time. -/
def round? (lint : Lint) (text : Text) (fixes : List Fix) : Option Round :=
  match attempt? lint text fixes with
  | some r => some r
  | none =>
    match keepUsable lint text [] fixes with
    | [] => none
    | kept => attempt? lint text kept

/-! ## All rounds -/

/-- The rounds of a run from its first text, in order. -/
structure Outcome where
  source : Text
  /-- The violations of the source; none when the source cannot be linted. -/
  found : List Violation
  rounds : List Round
  /-- Whether the run ended because nothing was left to fix. -/
  converged : Bool

namespace Outcome

/-- The text behind the last round. -/
def output (o : Outcome) : Text := (o.rounds.getLast?.map Round.text).getD o.source

/-- The violations of the output. -/
def remaining (o : Outcome) : List Violation :=
  (o.rounds.getLast?.map Round.violations).getD o.found

/-- Number of rounds. -/
def iterations (o : Outcome) : Nat := o.rounds.length

/-- Number of fixes applied in all rounds. -/
def applied (o : Outcome) : Nat := (o.rounds.flatMap Round.fixes).length

/-- Whether the output differs from the source. -/
def isChanged (o : Outcome) : Bool := o.output != o.source

end Outcome

/-- The rounds from a text with these violations, at most `budget` of them, never back to a text in
`seen`; and whether they ended because nothing was left to fix. -/
def rounds (lint : Lint) : Nat → Text → List Violation → List Text → List Round × Bool
  | budget, text, violations, seen =>
    match select violations with
    | [] => ([], true)
    | fixes =>
      match budget with
      | 0 => ([], false)
      | budget + 1 =>
        match round? lint text fixes with
        | none => ([], false)
        | some r =>
          if r.text ∈ seen then ([], false)
          else
            let later := rounds lint budget r.text r.violations (r.text :: seen)
            (r :: later.1, later.2)

/-- Fixes a text in at most `budget` rounds. A text that cannot be linted stays as it is. -/
def run (lint : Lint) (budget : Nat) (source : Text) : Outcome :=
  match lint source with
  | none => ⟨source, [], [], false⟩
  | some violations =>
    let all := rounds lint budget source violations [source]
    ⟨source, violations, all.1, all.2⟩

/-! ## The texts that a run looks at -/

/-- The lists of fixes tried one at a time. -/
def triedSingly (lint : Lint) (text : Text) : List Fix → List Fix → List (List Fix)
  | _, [] => []
  | kept, f :: fs =>
    (kept ++ [f]) ::
      triedSingly lint text (if (attempt? lint text (kept ++ [f])).isSome then kept ++ [f] else kept) fs

/-- The lists of fixes that a round tries, in order. -/
def triedInRound (lint : Lint) (text : Text) (fixes : List Fix) : List (List Fix) :=
  match attempt? lint text fixes with
  | some _ => [fixes]
  | none =>
    fixes :: triedSingly lint text [] fixes
      ++ (match keepUsable lint text [] fixes with
          | [] => []
          | kept => [kept])

/-- The texts handed to the lint by the rounds from a text. -/
def lintedInRounds (lint : Lint) : Nat → Text → List Violation → List Text → List Text
  | budget, text, violations, seen =>
    match select violations with
    | [] => []
    | fixes =>
      match budget with
      | 0 => []
      | budget + 1 =>
        (triedInRound lint text fixes).filterMap (changed? text)
          ++ (match round? lint text fixes with
              | none => []
              | some r =>
                if r.text ∈ seen then []
                else lintedInRounds lint budget r.text r.violations (r.text :: seen))

/-- The texts that a run hands to the lint, in order. -/
def linted (lint : Lint) (budget : Nat) (source : Text) : List Text :=
  source ::
    (match lint source with
     | none => []
     | some violations => lintedInRounds lint budget source violations [source])

end SheetLint.Fixing
