import Mathlib.Data.List.Perm.Basic
import Mathlib.Order.Lattice
import SheetLint.Batch

/-!
# Exit codes

The exit code of a batch says the worst of its files: that one could not be looked at, else that
one holds something that reaches the threshold.

Results:
* `Report.exitCode_eq`: the exit code for one file.
* `Batch.exitCode_eq_worst`: the exit code of a batch is the largest of those of its files.
* `Report.worst_perm`: the order of the files has no say in it.
-/

namespace SheetLint

/-! ## One file -/

namespace Report

/-- The exit code of a run over one file. -/
def exitCode (r : Report) (threshold : Severity) : Nat := (Batch.ofReports [r]).exitCode threshold

/-- **The exit code for one file**: what could not be looked at weighs more than what was found. -/
theorem exitCode_eq (r : Report) (threshold : Severity) :
    r.exitCode threshold =
      if r.isInternalError then 2
      else if r.violations.any (·.severity.reaches threshold) then 1 else 0 := by
  have hreports : (Batch.ofReports [r]).reports = [r] := List.mergeSort_singleton r
  unfold exitCode Batch.exitCode Batch.verdict Batch.hasInternalErrors Batch.reaches
    Batch.violations
  rw [hreports]
  simp only [List.any_cons, List.any_nil, Bool.or_false, List.flatMap_cons, List.flatMap_nil,
    List.append_nil]
  split
  · rfl
  · split <;> rfl

/-! ## Many files -/

/-- The largest exit code of some files for a threshold; zero if there are none. -/
def worst (threshold : Severity) (reports : List Report) : Nat :=
  (reports.map (·.exitCode threshold)).foldr max 0

variable {threshold : Severity} {reports order : List Report}

@[simp] theorem worst_cons (r : Report) (rs : List Report) :
    worst threshold (r :: rs) = max (r.exitCode threshold) (worst threshold rs) := rfl

/-- The order of files does not count. -/
theorem worst_perm (h : order.Perm reports) : worst threshold order = worst threshold reports :=
  (h.map _).foldr_eq 0

end Report

/-- **The worst file of a batch decides** what the batch comes to. -/
theorem Batch.exitCode_eq_worst (b : Batch) (threshold : Severity) :
    b.exitCode threshold = Report.worst threshold b.reports := by
  obtain ⟨reports, cancelled, skipped⟩ := b
  have hcode : (Batch.mk reports cancelled skipped).exitCode threshold =
      if reports.any Report.isInternalError then 2
      else if reports.any (·.violations.any (·.severity.reaches threshold)) then 1 else 0 := by
    unfold exitCode verdict hasInternalErrors reaches violations
    rw [List.any_flatMap]
    split
    · rfl
    · split <;> rfl
  rw [hcode]
  clear hcode
  induction reports with
  | nil => rfl
  | cons r rs ih =>
    rw [Report.worst_cons, ← ih, Report.exitCode_eq, List.any_cons, List.any_cons]
    cases r.isInternalError <;> cases rs.any Report.isInternalError <;>
      cases r.violations.any (·.severity.reaches threshold) <;>
      cases rs.any (·.violations.any (·.severity.reaches threshold)) <;> rfl

end SheetLint
