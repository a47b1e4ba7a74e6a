import Mathlib
import SheetLint.Proofs.Fixing.Round

/-!
# The trace of a run

A run is a chain of rounds, each a step from the text before it. It never comes back to a text, it
stays within its budget, and it ends for one of four reasons: nothing is left to fix, the budget is
spent, nothing of the last selection is usable, or the next text was there before.

Results:
* `rounds_chain`, `nodup_rounds`, `length_rounds_le`: the rounds form a chain of different texts
  within the budget.
* `rounds_converged_iff`, `stopped_rounds`: what the end of the rounds says.
* `run_trace`: all of this for a run from its source.
-/

namespace SheetLint.Fixing

/-! ## Chains of rounds -/

/-- Rounds of which each is a step from the text and the violations of the one before. -/
inductive Chain (lint : Lint) : Text → List Violation → List Round → Prop
  | nil (text : Text) (violations : List Violation) : Chain lint text violations []
  | cons {text : Text} {violations : List Violation} {r : Round} {later : List Round}
      (step : Step lint text violations r) (chain : Chain lint r.text r.violations later) :
      Chain lint text violations (r :: later)

/-- The text behind the last of some rounds that start from `text`. -/
def lastText (text : Text) (rs : List Round) : Text := (rs.getLast?.map Round.text).getD text

/-- The violations behind the last of some rounds that start with `violations`. -/
def lastViolations (violations : List Violation) (rs : List Round) : List Violation :=
  (rs.getLast?.map Round.violations).getD violations

@[simp] theorem lastText_nil (text : Text) : lastText text [] = text := rfl

@[simp] theorem lastText_cons (text : Text) (r : Round) (later : List Round) :
    lastText text (r :: later) = lastText r.text later := by
  unfold lastText
  rw [List.getLast?_cons]
  cases later.getLast? <;> rfl

@[simp] theorem lastViolations_nil (violations : List Violation) :
    lastViolations violations [] = violations := rfl

@[simp] theorem lastViolations_cons (violations : List Violation) (r : Round)
    (later : List Round) :
    lastViolations violations (r :: later) = lastViolations r.violations later := by
  unfold lastViolations
  rw [List.getLast?_cons]
  cases later.getLast? <;> rfl

theorem Outcome.output_eq (o : Outcome) : o.output = lastText o.source o.rounds := rfl

theorem Outcome.remaining_eq (o : Outcome) : o.remaining = lastViolations o.found o.rounds := rfl

variable {lint : Lint} {text : Text} {violations : List Violation} {rs : List Round}

/-- The violations behind the last round are those of its text. -/
theorem Chain.accepted (hchain : Chain lint text violations rs)
    (hlint : lint text = some violations) :
    lint (lastText text rs) = some (lastViolations violations rs) := by
  induction hchain with
  | nil => exact hlint
  | cons step _ ih =>
    rw [lastText_cons, lastViolations_cons]
    exact ih step.accepted

/-! ## The rounds of a run -/

theorem rounds_chain (lint : Lint) (budget : Nat) (text : Text) (violations : List Violation)
    (seen : List Text) :
    Chain lint text violations (rounds lint budget text violations seen).1 := by
  fun_induction rounds lint budget text violations seen with
  | case1 => exact Chain.nil _ _
  | case2 => exact Chain.nil _ _
  | case3 => exact Chain.nil _ _
  | case4 => exact Chain.nil _ _
  | case5 _ _ _ _ _ _ _ _ hround ih => exact Chain.cons (Step.of_round? hround) ih

theorem length_rounds_le (lint : Lint) (budget : Nat) (text : Text) (violations : List Violation)
    (seen : List Text) : (rounds lint budget text violations seen).1.length ≤ budget := by
  fun_induction rounds lint budget text violations seen with
  | case1 => exact Nat.zero_le _
  | case2 => exact Nat.zero_le _
  | case3 => exact Nat.zero_le _
  | case4 => exact Nat.zero_le _
  | case5 _ _ _ _ _ _ _ _ _ ih => exact Nat.succ_le_succ ih

/-- Without budget there is no round. -/
theorem rounds_zero (lint : Lint) (text : Text) (violations : List Violation) (seen : List Text) :
    (rounds lint 0 text violations seen).1 = [] :=
  List.length_eq_zero_iff.mp (Nat.le_zero.mp (length_rounds_le lint 0 text violations seen))

/-- No round gives a text seen before, and no two rounds give the same. -/
theorem nodup_rounds (lint : Lint) (budget : Nat) (text : Text) (violations : List Violation)
    (seen : List Text) :
    ((rounds lint budget text violations seen).1.map Round.text).Nodup
      ∧ ∀ t ∈ (rounds lint budget text violations seen).1.map Round.text, t ∉ seen := by
  fun_induction rounds lint budget text violations seen with
  | case1 => simp
  | case2 => simp
  | case3 => simp
  | case4 => simp
  | case5 text violations seen budget r hseen _ _ _ ih =>
    obtain ⟨hnodup, hnew⟩ := ih
    rw [List.map_cons, List.nodup_cons, List.forall_mem_cons]
    exact ⟨⟨fun hmem => hnew r.text hmem List.mem_cons_self, hnodup⟩, hseen,
      fun t ht hold => hnew t ht (List.mem_cons_of_mem r.text hold)⟩

/-- **Rounds converge exactly when nothing is selected at their end.** -/
theorem rounds_converged_iff (lint : Lint) (budget : Nat) (text : Text)
    (violations : List Violation) (seen : List Text) :
    (rounds lint budget text violations seen).2 = true ↔
      select (lastViolations violations (rounds lint budget text violations seen).1) = [] := by
  fun_induction rounds lint budget text violations seen with
  | case1 _ _ _ _ hsel => simpa using hsel
  | case2 _ _ _ hsel => simpa using hsel
  | case3 _ _ _ _ hsel => simpa using hsel
  | case4 _ _ _ _ _ _ hsel => simpa using hsel
  | case5 _ _ _ _ r _ _ _ _ ih =>
    rw [lastViolations_cons]
    exact ih

/-- **Why rounds stop with something left to fix**: the budget is spent, or there is no round, or
its text was there before. -/
theorem stopped_rounds {lint : Lint} {budget : Nat} {text : Text} {violations : List Violation}
    {seen : List Text} (h : (rounds lint budget text violations seen).2 = false) :
    let rs := (rounds lint budget text violations seen).1
    let next := round? lint (lastText text rs) (select (lastViolations violations rs))
    rs.length = budget ∨ next = none
      ∨ ∃ r, next = some r ∧ (r.text ∈ seen ∨ r.text ∈ rs.map Round.text) := by
  fun_induction rounds lint budget text violations seen with
  | case1 => cases h
  | case2 => exact Or.inl rfl
  | case3 _ _ _ _ _ hround => exact Or.inr (Or.inl hround)
  | case4 _ _ _ _ r hseen _ hround => exact Or.inr (Or.inr ⟨r, hround, Or.inl hseen⟩)
  | case5 _ _ _ _ r _ _ _ _ ih =>
    simp only [lastText_cons, lastViolations_cons, List.map_cons]
    rcases ih h with hlength | hnone | ⟨next, hnext, hold⟩
    · exact Or.inl (congrArg (· + 1) hlength)
    · exact Or.inr (Or.inl hnone)
    · refine Or.inr (Or.inr ⟨next, hnext, ?_⟩)
      rcases hold with hseen | hlater
      · rcases List.mem_cons.mp hseen with heq | hmem
        · exact Or.inr (List.mem_cons.mpr (Or.inl heq))
        · exact Or.inl hmem
      · exact Or.inr (List.mem_cons_of_mem _ hlater)

/-! ## The law of a run -/

/-- What the outcome of a run within a budget says of its rounds, where the lint finds `found` in
the source. -/
structure Trace (lint : Lint) (budget : Nat) (source : Text) (found : List Violation)
    (o : Outcome) (rs : List Round) : Prop where
  /-- Each text comes from the one before by the edits of some of the fixes selected there. -/
  chain : Chain lint source found rs
  /-- No text comes twice. -/
  nodup : (source :: rs.map Round.text).Nodup
  iterations_eq : o.iterations = rs.length
  length_le : rs.length ≤ budget
  applied_eq : o.applied = (rs.map fun r => r.fixes.length).sum
  output_eq : o.output = lastText source rs
  /-- What remains is what the lint finds in the output. -/
  accepted : lint o.output = some o.remaining
  converged_iff : o.converged = true ↔ ∀ v ∈ o.remaining, v.fix = none
  /-- A run with something left to fix has spent its budget, or finds no usable fix, or would come
  back to one of its texts. -/
  stopped : o.converged = false →
    rs.length = budget
      ∨ (attempt? lint o.output (select o.remaining) = none
        ∧ ∀ f ∈ select o.remaining, attempt? lint o.output [f] = none)
      ∨ ∃ r, round? lint o.output (select o.remaining) = some r
        ∧ Step lint o.output o.remaining r ∧ r.text ∈ source :: rs.map Round.text

/-- The rounds of a run from a source that the lint accepts are its trace. -/
theorem trace_run {lint : Lint} {source : Text} {found : List Violation}
    (hfound : lint source = some found) (budget : Nat) :
    Trace lint budget source found (run lint budget source)
      (rounds lint budget source found [source]).1 := by
  have hrun : run lint budget source =
      ⟨source, found, (rounds lint budget source found [source]).1,
        (rounds lint budget source found [source]).2⟩ := by
    simp [run, hfound]
  have hchain := rounds_chain lint budget source found [source]
  obtain ⟨hnodup, hnew⟩ := nodup_rounds lint budget source found [source]
  rw [hrun]
  refine ⟨hchain, ?_, rfl, length_rounds_le lint budget source found [source],
    List.length_flatMap, rfl, hchain.accepted hfound, ?_, ?_⟩
  · exact List.nodup_cons.mpr ⟨fun hmem => hnew source hmem (List.mem_singleton.mpr rfl), hnodup⟩
  · rw [Outcome.remaining_eq, ← select_eq_nil_iff]
    exact rounds_converged_iff lint budget source found [source]
  · intro hstop
    rcases stopped_rounds hstop with hlength | hnone | ⟨r, hr, hold⟩
    · exact Or.inl hlength
    · exact Or.inr (Or.inl (round?_eq_none_iff.mp hnone))
    · refine Or.inr (Or.inr ⟨r, hr, Step.of_round? hr, ?_⟩)
      rcases hold with hseen | hlater
      · exact List.mem_cons.mpr (Or.inl (List.mem_singleton.mp hseen))
      · exact List.mem_cons_of_mem source hlater

/-- **The trace of a run.** A source that the lint refuses stays as it is. From any other, the run
is a chain of rounds to its output, without repetition and within the budget; its counters are
those of the chain, and it says it converged exactly when no violation with a fix remains. -/
theorem run_trace (lint : Lint) (budget : Nat) (source : Text) :
    (lint source = none →
        (run lint budget source).output = source ∧ (run lint budget source).iterations = 0
          ∧ (run lint budget source).applied = 0 ∧ (run lint budget source).converged = false
          ∧ (run lint budget source).remaining = [])
      ∧ ∀ found, lint source = some found →
        ∃ rs, Trace lint budget source found (run lint budget source) rs := by
  constructor
  · intro hnone
    simp [run, hnone, Outcome.output, Outcome.iterations, Outcome.applied, Outcome.remaining]
  · intro found hfound
    exact ⟨(rounds lint budget source found [source]).1, trace_run hfound budget⟩

end SheetLint.Fixing
