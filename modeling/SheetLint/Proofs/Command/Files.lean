import SheetLint.Command
import SheetLint.Proofs.Disk.Rewriting

/-!
# What a check does to files

A check looks for its configuration, its rules and its files before it opens one of them to fix it,
and each of these steps may fail. So a check that fails has written nothing. One that fixes writes
back the files whose reports say so, and only these.

Results:
* `Command.disk_run_of_not_done`: a command that comes to nothing leaves the disk as it was.
* `Command.check_writes`: what a check does to the files of a disk.
-/

namespace SheetLint.Command

open Analyzer

variable {disk : Disk} {env : Environment} {args : List String} {config : Option String}
  {c : CheckRequest}

/-- **A command that comes to nothing leaves the disk as it was**, whether its arguments are refused
or it fails later. -/
theorem disk_run_of_not_done
    (h : ∀ exitCode output, (run disk env args).1 ≠ .done exitCode output) :
    (run disk env args).2 = disk := by
  cases hrun : (run disk env args).1 with
  | done exitCode output => exact absurd hrun (h exitCode output)
  | failed failure =>
    have hfailed : run disk env args = (.failed failure, (run disk env args).2) := by rw [← hrun]
    exact disk_run_of_failed hfailed
  | refused fault =>
    unfold run at hrun ⊢
    cases hrequest : Request.ofArguments env.config args with
    | ok r =>
      rw [hrequest] at hrun
      -- what was understood is not refused any more
      obtain ⟨config, task⟩ := r
      cases task with
      | check c =>
        simp only [runRequest, check] at hrun
        split at hrun <;> cases hrun
      | listRules => cases hrun
      | init force =>
        simp only [runRequest, init] at hrun
        split at hrun
        · cases hrun
        · split at hrun <;> cases hrun
    | error stop => cases stop <;> rfl

theorem run_of_check (h : Request.ofArguments env.config args = .ok ⟨config, .check c⟩) :
    run disk env args = check disk env config c := by
  unfold run
  rw [h]
  rfl

/-- A check without fixing leaves the disk as it was. -/
theorem disk_check_of_not_fix (hfix : c.fix = false) : (check disk env config c).2 = disk := by
  unfold check
  split
  · rfl
  · simp [hfix]

/-- A check with fixing comes to the reports on the files and to what fixing leaves of the disk. -/
theorem check_of_fix {a : Analyzer} {files : List String} (hfix : c.fix = true)
    (hprepare : prepare disk env config c = .ok (a, files)) :
    check disk env config c =
      (.done ((Batch.ofReports (a.fixFiles files disk).1).exitCode a.config.threshold)
          ((Batch.ofReports (a.fixFiles files disk).1).render c.format),
        (a.fixFiles files disk).2) := by
  unfold check
  rw [hprepare]
  simp [hfix]

/-- **A check writes only what it reports as fixed.** It leaves the disk as it was if it is not to
fix anything, or if it is refused or fails. Where it fixes files at different places there is one
report for each of them; a file changes exactly when its report says that it was fixed, and then
holds what fixing makes of its text, as every text does that can be written; a file that does not
parse or holds no text stays; and so does every other file. -/
theorem check_writes (disk : Disk) (env : Environment) (args : List String) :
    ((∀ exitCode output, (run disk env args).1 ≠ .done exitCode output) →
        (run disk env args).2 = disk)
      ∧ ∀ config c, Request.ofArguments env.config args = .ok ⟨config, .check c⟩ →
        (c.fix = false → (run disk env args).2 = disk)
          ∧ ∀ a files, prepare disk env config c = .ok (a, files) → c.fix = true →
            files.Pairwise disk.Apart →
              ∃ reportOn : String → Report,
                (run disk env args).1 =
                    .done ((Batch.ofReports (files.map reportOn)).exitCode a.config.threshold)
                      ((Batch.ofReports (files.map reportOn)).render c.format)
                ∧ (∀ path ∈ files, ∀ p, disk.locate path = .ok p →
                    FileFixed a path (!disk.isFolderAt p) (disk.contentAt? p)
                      ((run disk env args).2.contentAt? p) (reportOn path))
                ∧ ∀ p, (∀ path ∈ files, disk.locate path ≠ .ok p) →
                    (run disk env args).2.contentAt? p = disk.contentAt? p := by
  refine ⟨disk_run_of_not_done, fun config c hrequest => ⟨fun hfix => ?_, ?_⟩⟩
  · rw [run_of_check hrequest]
    exact disk_check_of_not_fix hfix
  · intro a files hprepare hfix hapart
    have hdone := fixFiles_apart (a := a) hapart
    rw [run_of_check hrequest, check_of_fix hfix hprepare, hdone.reports_eq]
    refine ⟨fun path => (a.fixFile disk path).1, rfl, fun path hpath p hp => ?_, hdone.other⟩
    rw [hdone.own path hpath p hp]
    exact fileFixed_fixFile a hp

/-! ## A check of two files among three -/

/-- A folder with a text to fix, a broken text, and a text that no one asks for. -/
def threeFiles : Disk where
  files := [(["w", "a.scss"], .text "a\x7bb:c\x7d".toList),
    (["w", "b.scss"], .text "a\x7b".toList), (["w", "c.scss"], .text "a\x7bb:c\x7d".toList)]
  folders := []
  current := ["w"]

/-- The arguments that have missing semicolons written in two of the files. -/
def semicolonArguments : List String := ["check", "--fix", "--rules", "SL013", "a.scss", "b.scss"]

/-- What these arguments ask for. -/
def semicolonRequest : CheckRequest := ⟨["a.scss", "b.scss"], true, .text, some "SL013", []⟩

/-- The rule that this takes. -/
def semicolonAnalyzer : Analyzer :=
  ⟨[⟨DeclarationSemicolon.entry.info, .warning, DeclarationSemicolon.check⟩], .standard⟩

theorem collect_threeFiles (globs : List Glob) :
    semicolonRequest.paths.mapM
        (Collect.ofPath threeFiles Config.standard.files.extensions globs) =
      .ok [["a.scss"], ["b.scss"]] := by
  have ha : Collect.ofPath threeFiles Config.standard.files.extensions globs "a.scss" =
      .ok ["a.scss"] := if_pos (by decide +kernel)
  have hb : Collect.ofPath threeFiles Config.standard.files.extensions globs "b.scss" =
      .ok ["b.scss"] := if_pos (by decide +kernel)
  simp only [semicolonRequest, List.mapM_cons, List.mapM_nil, ha, hb]
  rfl

/-- What a check with the rule for semicolons prepares for files among the three. -/
theorem prepare_semicolons {found : List (List String)} {files : List String}
    (hsettings : Settings.path? threeFiles ⟨none, none, none⟩ none c.paths = none)
    (hrule : c.rules = some "SL013") (hexclude : c.exclude = [])
    (hfound : ∀ globs, c.paths.mapM
      (Collect.ofPath threeFiles Config.standard.files.extensions globs) = .ok found)
    (hfiles : Collect.dropRepeats (found.flatten.mergeSort Path.le) = files) :
    prepare threeFiles ⟨none, none, none⟩ none c = .ok (semicolonAnalyzer, files) := by
  have hrules : rulesOf .standard (some "SL013") = .ok semicolonAnalyzer.rules := by cbv
  obtain ⟨globs, hglobs⟩ : ∃ globs,
      Collect.patterns (Config.standard.files.exclude ++ []) = .ok globs := ⟨_, by cbv⟩
  unfold prepare Collect.files
  simp only [hsettings, hrule, hexclude, Settings.load, hrules, hglobs, hfound, hfiles, bind, Except.bind,
    pure, Except.pure]
  rfl

theorem prepare_threeFiles :
    prepare threeFiles ⟨none, none, none⟩ none semicolonRequest =
      .ok (semicolonAnalyzer, ["a.scss", "b.scss"]) := by
  have hsorted : ["a.scss", "b.scss"].mergeSort Path.le = ["a.scss", "b.scss"] := by cbv
  have hother : Path.same "a.scss" "b.scss" = false := by decide +kernel
  refine prepare_semicolons (by decide +kernel) rfl rfl collect_threeFiles ?_
  simp only [List.flatten_cons, List.flatten_nil, List.cons_append, List.nil_append, hsorted,
    Collect.dropRepeats, hother]
  rfl

/-- The semicolon is written, and the other two files stay. -/
theorem check_writes_threeFiles :
    Request.ofArguments none semicolonArguments = .ok ⟨none, .check semicolonRequest⟩
      ∧ prepare threeFiles ⟨none, none, none⟩ none semicolonRequest =
          .ok (semicolonAnalyzer, ["a.scss", "b.scss"])
      ∧ ["a.scss", "b.scss"].Pairwise threeFiles.Apart
      ∧ ∀ last, (run threeFiles ⟨none, none, none⟩ semicolonArguments).2 = last →
          last.contentAt? ["w", "a.scss"] = some (.text "a\x7bb:c;\x7d".toList)
          ∧ last.contentAt? ["w", "b.scss"] = threeFiles.contentAt? ["w", "b.scss"]
          ∧ last.contentAt? ["w", "c.scss"] = threeFiles.contentAt? ["w", "c.scss"] := by
  have hrequest : Request.ofArguments none semicolonArguments =
      .ok ⟨none, .check semicolonRequest⟩ := by cbv
  have ha : threeFiles.locate "a.scss" = .ok ["w", "a.scss"] := by decide +kernel
  have hb : threeFiles.locate "b.scss" = .ok ["w", "b.scss"] := by decide +kernel
  have hapart : ["a.scss", "b.scss"].Pairwise threeFiles.Apart := by
    simp [Disk.Apart, ha, hb]
  obtain ⟨reportOn, -, hown, hother⟩ :=
    ((check_writes threeFiles ⟨none, none, none⟩ semicolonArguments).2 none semicolonRequest
      hrequest).2 semicolonAnalyzer ["a.scss", "b.scss"] prepare_threeFiles rfl hapart
  refine ⟨hrequest, prepare_threeFiles, hapart, fun last hlast => ?_⟩
  rw [hlast] at hown hother
  have hfix : (semicolonAnalyzer.fix "a.scss" "a\x7bb:c\x7d".toList).2 =
      "a\x7bb:c;\x7d".toList := by cbv
  have hbroken : (Parse.ofText "a\x7b".toList).isOk = false := by cbv
  refine ⟨?_, ?_, hother _ (by simp [ha, hb])⟩
  · rw [← hfix]
    exact ((hown "a.scss" (by simp) _ ha).written _ rfl (by decide +kernel)).1
  · exact ((hown "b.scss" (by simp) _ hb).broken _ rfl hbroken).1

end SheetLint.Command
