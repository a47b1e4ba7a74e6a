import SheetLint.Path
import SheetLint.Report

/-!
# Batches of files

A batch holds one report for each file that was processed, in the order of paths. Processing can
be cancelled: files whose turn comes later are skipped and counted. The verdict on a batch decides
the exit code of a run.

Results:
* `length_ofReports`, `sorted_ofReports`, `perm_ofReports`: the reports of a batch are those given,
  in the order of paths.
* `filesChecked_add_skipped`: each file is processed or skipped.
-/

namespace SheetLint

/-- The reports on files. -/
structure Batch where
  reports : List Report
  cancelled : Bool := false
  skipped : Nat := 0

/-- What a run comes to. -/
inductive Verdict where
  | passed
  | failed
  /-- A file could not be looked at, or the run could not be done. -/
  | broken
deriving DecidableEq, Repr

/-- The exit code that tells a verdict. -/
def Verdict.exitCode : Verdict → Nat
  | passed => 0
  | failed => 1
  | broken => 2

namespace Batch

/-- Order of reports: by path. -/
def le (a b : Report) : Bool := Path.le a.path b.path

/-- The batch of these reports, in the order of their paths. Those on one path keep their order. -/
def ofReports (reports : List Report) : Batch := { reports := reports.mergeSort le }

/-- Processes the files. Each comes with whether a request to cancel was seen when its turn
came; then it is skipped. `cancelled` says whether there was such a request in the end. -/
def run (process : String → Report) (files : List (String × Bool)) (cancelled : Bool) : Batch :=
  { ofReports ((files.filter fun f => !f.2).map fun f => process f.1) with
    cancelled
    skipped := (files.filter fun f => f.2).length }

/-- Number of files processed. -/
def filesChecked (b : Batch) : Nat := b.reports.length

/-- All violations, file by file. -/
def violations (b : Batch) : List Violation := b.reports.flatMap Report.violations

/-- Number of violations of a severity. -/
def count (b : Batch) (s : Severity) : Nat := b.violations.countP (·.severity == s)

/-- Whether a violation reaches a threshold. -/
def reaches (b : Batch) (threshold : Severity) : Bool :=
  b.violations.any (·.severity.reaches threshold)

/-- Whether a file could not be looked at. -/
def hasInternalErrors (b : Batch) : Bool := b.reports.any Report.isInternalError

/-- Number of files whose text was changed. -/
def filesFixed (b : Batch) : Nat := b.reports.countP Report.fixed

/-- Number of syntax errors. -/
def syntaxErrorCount (b : Batch) : Nat := (b.reports.flatMap Report.syntaxErrors).length

/-- Number of files that could not be read or written. -/
def failureCount (b : Batch) : Nat := b.reports.countP (·.failure.isSome)

/-- The verdict for a threshold. What could not be looked at weighs more than what was found. -/
def verdict (b : Batch) (threshold : Severity) : Verdict :=
  if b.hasInternalErrors then .broken
  else if b.reaches threshold then .failed
  else .passed

/-- The exit code for a threshold. -/
def exitCode (b : Batch) (threshold : Severity) : Nat := (b.verdict threshold).exitCode

/-- A number of things, unless there are none. -/
def mention (n : Nat) (before after : String) : String :=
  if n = 0 then "" else s!", {before}{n} {after}"

/-- The batch in one line. -/
def summary (b : Batch) : String :=
  s!"Found {b.count .error} error(s), {b.count .warning} warning(s) in {b.filesChecked} file(s)"
    ++ mention b.syntaxErrorCount "" "syntax error(s)"
    ++ mention b.failureCount "" "file error(s)"
    ++ mention b.filesFixed "fixed " "file(s)"
    ++ (if b.cancelled then s!" (interrupted, {b.skipped} file(s) skipped)" else "")

/-- A batch. -/
def toJson (b : Batch) : Json :=
  .object [("files", .array (b.reports.map Report.toJson)),
    ("files_checked", .number b.filesChecked), ("cancelled", .boolean b.cancelled),
    ("skipped", .number b.skipped)]

/-! ## Laws -/

theorem perm_ofReports (reports : List Report) : (ofReports reports).reports.Perm reports :=
  List.mergeSort_perm _ _

theorem length_ofReports (reports : List Report) :
    (ofReports reports).filesChecked = reports.length :=
  (perm_ofReports reports).length_eq

theorem le_total (a b : Report) : (le a b || le b a) = true := Path.le_total a.path b.path

theorem le_trans (a b c : Report) (hab : le a b = true) (hbc : le b c = true) : le a c = true :=
  Path.le_trans hab hbc

theorem sorted_ofReports (reports : List Report) :
    (ofReports reports).reports.Pairwise fun a b => le a b = true := by
  unfold ofReports
  exact List.pairwise_mergeSort le_trans le_total reports

theorem filesChecked_add_skipped (process : String → Report) (files : List (String × Bool))
    (cancelled : Bool) :
    (run process files cancelled).filesChecked + (run process files cancelled).skipped
      = files.length := by
  have hdone : (run process files cancelled).filesChecked = files.countP fun f => !f.2 := by
    rw [List.countP_eq_length_filter]
    exact (length_ofReports _).trans (List.length_map _)
  have hskipped : (run process files cancelled).skipped = files.countP fun f => f.2 :=
    List.countP_eq_length_filter.symm
  rw [hdone, hskipped, List.length_eq_countP_add_countP (fun f => f.2) (l := files), Nat.add_comm]
  congr 1
  exact List.countP_congr fun f _ => by simp

end Batch

end SheetLint
