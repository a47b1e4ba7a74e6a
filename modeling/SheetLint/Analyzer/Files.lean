import SheetLint.Analyzer
import SheetLint.Disk

/-!
# Checking and fixing files

Files are read from a disk. Fixing writes a file back only when its text changed; a file that
cannot be read or does not parse stays as it is. Files are fixed one after the other.
-/

namespace SheetLint.Analyzer

/-- Checks a file. -/
def checkFile (a : Analyzer) (disk : Disk) (path : String) : Report :=
  match disk.read path with
  | .ok source => a.check path source
  | .error fault => .ofFailure path fault.message

/-- Fixes a file: what remains to report, and the disk with the new text. -/
def fixFile (a : Analyzer) (disk : Disk) (path : String) : Report × Disk :=
  match disk.read path with
  | .error fault => (.ofFailure path fault.message, disk)
  | .ok source =>
    let (report, output) := a.fix path source
    if report.fixed then
      match disk.write path output with
      | .ok changed => (report, changed)
      | .error fault => ({ report with fixed := false, failure := some fault.message }, disk)
    else (report, disk)

/-- Fixes files in turn. -/
def fixFiles (a : Analyzer) : List String → Disk → List Report × Disk
  | [], disk => ([], disk)
  | path :: paths, disk =>
    let (report, changed) := a.fixFile disk path
    let (reports, last) := fixFiles a paths changed
    (report :: reports, last)

theorem fixFile_of_not_fixed {a : Analyzer} {disk : Disk} {path : String}
    (h : (a.fixFile disk path).1.fixed = false) : (a.fixFile disk path).2 = disk := by
  unfold fixFile at *
  cases hread : disk.read path with
  | error fault => rfl
  | ok source =>
    simp only [hread] at h ⊢
    by_cases hfixed : (a.fix path source).1.fixed = true
    · simp only [hfixed, if_true] at h ⊢
      cases hwrite : disk.write path (a.fix path source).2 with
      | error fault => rfl
      | ok changed => simp [hwrite, hfixed] at h
    · simp [hfixed]

end SheetLint.Analyzer
