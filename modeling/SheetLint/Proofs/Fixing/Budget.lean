import SheetLint.Proofs.Fixing.Trace

/-!
# What the budget of a run decides

The budget is looked at after the question whether anything is left to fix, and before the round
that would be taken. So it has no say in what a round does, nor in which texts count as seen: a run
with a smaller budget takes the same rounds until that budget is spent.

Results:
* `rounds_of_le`: rounds within a smaller budget are the first of those within a larger one, and
  they converge only if these are all.
* `run_of_le`: the same of runs, for all that an outcome tells.
-/

namespace SheetLint.Fixing

variable {lint : Lint} {violations : List Violation}

/-! ## Smaller budgets -/

/-- Nothing is done, and nothing is left to do. -/
theorem rounds_of_nothing_selected (h : select violations = []) (budget : Nat) (text : Text)
    (seen : List Text) : rounds lint budget text violations seen = ([], true) := by
  rw [rounds, h]

theorem rounds_of_select_eq_nil (h : select violations = []) (budget : Nat) (text : Text)
    (seen : List Text) : (rounds lint budget text violations seen).1 = [] := by
  rw [rounds_of_nothing_selected h]

/-- Something is left to do, but nothing may be done. -/
theorem rounds_zero_of_select_ne_nil (h : select violations ≠ []) (text : Text)
    (seen : List Text) : rounds lint 0 text violations seen = ([], false) := by
  obtain ⟨f, fs, hsel⟩ := List.exists_cons_of_ne_nil h
  rw [rounds, hsel]

/-- A round, if there is one and its text is new, and then the rounds from its text. -/
theorem rounds_succ_of_select_ne_nil (h : select violations ≠ []) (budget : Nat) (text : Text)
    (seen : List Text) :
    rounds lint (budget + 1) text violations seen =
      ((round? lint text (select violations)).filter fun r => r.text ∉ seen).elim ([], false)
        fun r => (r :: (rounds lint budget r.text r.violations (r.text :: seen)).1,
          (rounds lint budget r.text r.violations (r.text :: seen)).2) := by
  obtain ⟨f, fs, hsel⟩ := List.exists_cons_of_ne_nil h
  rw [rounds, hsel]
  simp only
  cases round? lint text (f :: fs) with
  | none => rfl
  | some r => by_cases hseen : r.text ∈ seen <;> simp [Option.filter, hseen]

theorem rounds_succ (h : select violations ≠ []) (budget : Nat) (text : Text)
    (seen : List Text) :
    (rounds lint (budget + 1) text violations seen).1 =
      ((round? lint text (select violations)).filter fun r => r.text ∉ seen).elim [] fun r =>
        r :: (rounds lint budget r.text r.violations (r.text :: seen)).1 := by
  rw [rounds_succ_of_select_ne_nil h]
  cases (round? lint text (select violations)).filter fun r => r.text ∉ seen <;> rfl

/-- **A smaller budget cuts a run short** and changes nothing else: the rounds are the first of
those within the larger budget, and where some are cut off, something was left to fix. -/
theorem rounds_of_le {k n : Nat} (hle : k ≤ n) (text : Text) (violations : List Violation)
    (seen : List Text) :
    rounds lint k text violations seen =
      ((rounds lint n text violations seen).1.take k,
        (rounds lint n text violations seen).2
          && decide ((rounds lint n text violations seen).1.length ≤ k)) := by
  -- both runs ask first whether anything is selected, so they part only where the smaller budget ends
  induction k generalizing n text violations seen with
  | zero =>
    by_cases hsel : select violations = []
    · simp [rounds_of_nothing_selected hsel]
    · rw [rounds_zero_of_select_ne_nil hsel, List.take_zero]
      cases n with
      | zero => simp [rounds_zero_of_select_ne_nil hsel]
      | succ m =>
        rw [rounds_succ_of_select_ne_nil hsel]
        cases (round? lint text (select violations)).filter fun r => r.text ∉ seen <;> simp
  | succ k ih =>
    obtain ⟨m, rfl⟩ : ∃ m, n = m + 1 := ⟨n - 1, by omega⟩
    by_cases hsel : select violations = []
    · simp [rounds_of_nothing_selected hsel]
    · rw [rounds_succ_of_select_ne_nil hsel, rounds_succ_of_select_ne_nil hsel]
      cases (round? lint text (select violations)).filter fun r => r.text ∉ seen with
      | none => rfl
      | some r =>
        simp only [Option.elim_some, List.take_succ_cons, List.length_cons, Nat.add_le_add_iff_right]
        rw [ih (Nat.le_of_succ_le_succ hle)]

theorem rounds_take {k n : Nat} (hle : k ≤ n) (text : Text) (violations : List Violation)
    (seen : List Text) :
    (rounds lint k text violations seen).1 = (rounds lint n text violations seen).1.take k := by
  rw [rounds_of_le hle]

/-! ## Outcomes cut off -/

namespace Outcome

/-- What an outcome comes to if it ends behind some rounds, at most. It has converged only if no
round is cut off. -/
def cutOff (o : Outcome) (k : Nat) : Outcome :=
  { o with rounds := o.rounds.take k, converged := o.converged && decide (o.iterations ≤ k) }

/-- The text behind some of the rounds. -/
def textBehind (o : Outcome) (k : Nat) : Text := lastText o.source (o.rounds.take k)

variable (o : Outcome)

theorem iterations_cutOff (k : Nat) : (o.cutOff k).iterations = min k o.iterations :=
  List.length_take

theorem output_cutOff (k : Nat) : (o.cutOff k).output = o.textBehind (min k o.iterations) := by
  rw [output_eq, textBehind, iterations, ← List.take_eq_take_min]
  rfl

/-- Behind all rounds nothing is cut off. -/
theorem cutOff_of_iterations_le {k : Nat} (h : o.iterations ≤ k) : o.cutOff k = o := by
  unfold cutOff
  rw [List.take_of_length_le h, decide_eq_true h, Bool.and_true]

end Outcome

/-- A run within a smaller budget is the run within the larger one, cut off. -/
theorem run_eq_cutOff {k n : Nat} (hle : k ≤ n) (lint : Lint) (source : Text) :
    run lint k source = (run lint n source).cutOff k := by
  unfold run
  split
  · simp [Outcome.cutOff]
  · rw [rounds_of_le hle]
    rfl

/-- **The budget of a run only cuts it short.** Within a smaller budget a run takes as many of the
rounds of the longer run as the budget allows, and ends with the text that the longer run had
there. A run that has ended by itself within the smaller budget is the same in every respect; one
that is cut off has not converged. -/
theorem run_of_le {k n : Nat} (hle : k ≤ n) (lint : Lint) (source : Text) :
    (run lint k source).iterations = min k (run lint n source).iterations
      ∧ (run lint k source).output =
          (run lint n source).textBehind (min k (run lint n source).iterations)
      ∧ ((run lint n source).iterations ≤ k → run lint k source = run lint n source)
      ∧ (k < (run lint n source).iterations → (run lint k source).converged = false) := by
  rw [run_eq_cutOff hle]
  refine ⟨Outcome.iterations_cutOff _ k, Outcome.output_cutOff _ k,
    Outcome.cutOff_of_iterations_le _, fun hcut => ?_⟩
  rw [Outcome.cutOff, decide_eq_false (Nat.not_le.mpr hcut), Bool.and_false]

/-- A lint that finds fault with the end of every text, and would add a letter there. -/
def growing : Lint := fun text =>
  some [{ code := "SL000", rule := "growing", severity := .warning,
          location := ⟨1, 1, text.size, 0⟩, message := "Expected more", suggestion := none,
          fix := some ⟨"Add a letter", [.insert text.size ['x']]⟩ }]

/-- **Of three rounds that a text grows in**, one is left within a budget of one. -/
theorem run_of_le_growing :
    1 ≤ 3
      ∧ (run growing 3 ['a']).rounds.map Round.text = ["ax".toList, "axx".toList, "axxx".toList]
      ∧ (run growing 1 ['a']).iterations = 1
      ∧ (run growing 1 ['a']).output = "ax".toList
      ∧ (run growing 1 ['a']).converged = false := by
  have hlonger : (run growing 3 ['a']).rounds.map Round.text =
      ["ax".toList, "axx".toList, "axxx".toList] := by cbv
  have hiterations : (run growing 3 ['a']).iterations = 3 := by
    simpa [Outcome.iterations] using congrArg List.length hlonger
  obtain ⟨hshorter, houtput, -, hcut⟩ := run_of_le (k := 1) (n := 3) (by decide) growing ['a']
  rw [hiterations] at hshorter houtput hcut
  refine ⟨by decide, hlonger, hshorter, ?_, hcut (by decide)⟩
  rw [houtput]
  cbv

end SheetLint.Fixing
