import SheetLint.Proofs.Command.Files
import SheetLint.Proofs.Disk.Paths
import SheetLint.Proofs.Registry.Independence

/-!
# Files that are looked at once

The paths that arguments stand for are put in order, and of those with the same components one is kept.
So two paths that are looked at lead to one file exactly if two of the paths that were found lead there
and have different components, as `a` and `./a` have. Arguments that start alike and never go up stand
for no such paths.

Results:
* `Collect.pairwise_dropRepeats`, `Collect.exists_mem_dropRepeats`: what is kept of paths in order.
* `Collect.of_mem_found`: what arguments stand for are files.
* `Command.looks_once_iff`: when a check looks into each file once.
* `Command.exists_looked_at_twice`: a file that is looked at twice.
-/

namespace SheetLint

open SheetLint.Path

namespace Disk

variable {d : Disk} {p q r : Place} {path : String}

/-- Whether what stands on the way to a file are names. -/
def WellNamed (d : Disk) : Prop := ∀ f ∈ d.files, ∀ name ∈ f.1, IsName name

instance (d : Disk) : Decidable d.WellNamed :=
  inferInstanceAs (Decidable (∀ f ∈ d.files, ∀ name ∈ f.1, IsName name))

theorem isFile_iff :
    d.isFile path = true ↔ ∃ p, d.locate path = .ok p ∧ (d.contentAt? p).isSome = true := by
  unfold isFile
  cases d.locate path <;> simp

theorem mem_filesBelow (h : r ∈ d.filesBelow path) :
    ∃ q c, d.locate path = .ok q ∧ (q ++ r, c) ∈ d.files := by
  unfold filesBelow at h
  cases hq : d.locate path with
  | error fault =>
    rw [hq] at h
    cases h
  | ok q =>
    rw [hq] at h
    obtain ⟨⟨place, c⟩, hmem, hbelow⟩ := List.mem_filterMap.mp h
    obtain ⟨rfl, -⟩ := below?_eq_some_iff.mp hbelow
    exact ⟨q, c, rfl, hmem⟩

theorem isSome_contentAt? {c : Content} (h : (p, c) ∈ d.files) : (d.contentAt? p).isSome = true := by
  rw [Option.isSome_iff_ne_none]
  intro hnone
  have hother := List.lookup_eq_none_iff.mp hnone _ h
  simp at hother

end Disk

namespace Collect

variable {disk : Disk} {globs : List Glob} {paths extensions exclude : List String}
  {path root : String}

/-! ## Paths with the same components -/

theorem same_iff : Path.same path other = true ↔ components path = components other := beq_iff_eq

theorem dropRepeats_sublist (paths : List String) : (dropRepeats paths).Sublist paths := by
  fun_induction dropRepeats paths with
  | case1 => exact .slnil
  | case2 => exact List.Sublist.refl _
  | case3 path next rest hsame ih => exact ih.trans ((List.sublist_cons_self next rest).cons_cons path)
  | case4 path next rest hother ih => exact ih.cons_cons path

/-- Of each path one with the same components is kept. -/
theorem exists_mem_dropRepeats (paths : List String) :
    ∀ path ∈ paths, ∃ kept ∈ dropRepeats paths, components kept = components path := by
  fun_induction dropRepeats paths with
  | case1 => simp
  | case2 path => simp
  | case3 path next rest hsame ih =>
    rw [List.forall_mem_cons] at ih
    obtain ⟨kept, hkept, heq⟩ := ih.1
    exact List.forall_mem_cons.mpr ⟨ih.1,
      List.forall_mem_cons.mpr ⟨⟨kept, hkept, heq.trans (same_iff.mp hsame)⟩, ih.2⟩⟩
  | case4 path next rest hother ih =>
    refine List.forall_mem_cons.mpr ⟨⟨path, List.mem_cons_self, rfl⟩, fun other hmem => ?_⟩
    obtain ⟨kept, hkept, heq⟩ := ih other hmem
    exact ⟨kept, List.mem_cons_of_mem path hkept, heq⟩

/-- **Of paths in order those are kept that have different components.** -/
theorem pairwise_dropRepeats (hsorted : paths.Pairwise fun path other => Path.le path other = true) :
    (dropRepeats paths).Pairwise fun path other => components path ≠ components other := by
  fun_induction dropRepeats paths with
  | case1 => exact List.Pairwise.nil
  | case2 path => exact List.pairwise_singleton _ _
  | case3 path next rest hsame ih =>
    exact ih (hsorted.sublist ((List.sublist_cons_self next rest).cons_cons path))
  | case4 path next rest hother ih =>
    obtain ⟨hfirst, hrest⟩ := List.pairwise_cons.mp hsorted
    refine List.pairwise_cons.mpr ⟨fun other hmem heq => ?_, ih hrest⟩
    refine hother (same_iff.mpr ?_)
    rcases List.mem_cons.mp ((dropRepeats_sublist _).mem hmem) with rfl | hmem
    · exact heq
    · have hlater : Path.le next path = true := by
        rw [Path.le, heq]
        exact (List.pairwise_cons.mp hrest).1 other hmem
      exact Path.le_antisymm (hfirst next List.mem_cons_self) hlater

/-! ## What arguments stand for -/

/-- The paths that arguments stand for, before they are put in order. -/
def found (disk : Disk) (paths extensions exclude : List String) : Except Failure (List String) := do
  let globs ← patterns exclude
  let found ← paths.mapM (ofPath disk extensions globs)
  return found.flatten

theorem files_eq (disk : Disk) (paths extensions exclude : List String) :
    files disk paths extensions exclude = do
      let found ← found disk paths extensions exclude
      return dropRepeats (found.mergeSort Path.le) := by
  unfold files found
  cases patterns exclude with
  | error fault => rfl
  | ok globs =>
    simp only [bind, Except.bind]
    cases paths.mapM (ofPath disk extensions globs) <;> rfl

/-- What is kept of the paths that arguments stand for. -/
structure Kept (found files : List String) : Prop where
  subset : files ⊆ found
  covers : ∀ path ∈ found, ∃ kept ∈ files, components kept = components path
  pairwise : files.Pairwise fun path other => components path ≠ components other

theorem exists_kept {files : List String} (h : Collect.files disk paths extensions exclude = .ok files) :
    ∃ found, Collect.found disk paths extensions exclude = .ok found ∧ Kept found files := by
  rw [files_eq] at h
  obtain ⟨found, hfound, h⟩ := exists_of_bind_eq_ok h
  cases h
  have hperm := List.mergeSort_perm found Path.le
  refine ⟨found, hfound, fun path hpath => ?_, fun path hpath => ?_, ?_⟩
  · exact hperm.mem_iff.mp ((dropRepeats_sublist _).mem hpath)
  · exact exists_mem_dropRepeats _ path (hperm.mem_iff.mpr hpath)
  · have htrans (a b c : String) (hab : Path.le a b = true) (hbc : Path.le b c = true) :
        Path.le a c = true := Path.le_trans hab hbc
    exact pairwise_dropRepeats (List.pairwise_mergeSort htrans Path.le_total found)

/-- **What an argument stands for are files**, the components of which are those of the argument and
names. -/
theorem of_mem_ofPath {files : List String} (hnames : disk.WellNamed)
    (h : ofPath disk extensions globs root = .ok files) (hpath : path ∈ files) :
    disk.isFile path = true
      ∧ ∃ names : List String, components path = components root ++ names.map .name := by
  unfold ofPath at h
  split at h
  · rename_i hfile
    cases h
    cases List.mem_singleton.mp hpath
    exact ⟨hfile, [], by simp⟩
  · split at h
    · cases h
      obtain ⟨names, hbelow, hwanted⟩ := List.mem_filterMap.mp hpath
      unfold pathBelow? at hwanted
      simp only at hwanted
      split at hwanted
      · cases hwanted
        obtain ⟨q, c, hq, hmem⟩ := Disk.mem_filesBelow hbelow
        have hnames : ∀ name ∈ names, IsName name := fun name hname =>
          hnames _ hmem name (List.mem_append_right q hname)
        exact ⟨Disk.isFile_iff.mpr ⟨_, Disk.locate_foldl_join hq hmem hnames, Disk.isSome_contentAt? hmem⟩,
          names, components_foldl_join (Disk.segments_ne_of_locate hq) hnames⟩
      · cases hwanted
    · cases h

theorem of_mem_found {found : List String} (hnames : disk.WellNamed)
    (h : Collect.found disk paths extensions exclude = .ok found) (hpath : path ∈ found) :
    disk.isFile path = true ∧ ∃ root ∈ paths, ∃ names : List String,
      components path = components root ++ names.map .name := by
  obtain ⟨globs, -, h⟩ := exists_of_bind_eq_ok h
  obtain ⟨parts, hparts, h⟩ := exists_of_bind_eq_ok h
  cases h
  obtain ⟨part, hpart, hmem⟩ := List.mem_flatten.mp hpath
  obtain ⟨root, hroot, hof⟩ := exists_of_mem_mapM hparts part hpart
  obtain ⟨hfile, names, hcomponents⟩ := of_mem_ofPath hnames hof hmem
  exact ⟨hfile, root, hroot, names, hcomponents⟩

/-- **No two of the paths that are kept lead to one place** exactly if all paths that were found and
lead to one place have the same components. -/
theorem pairwise_apart_iff {found files : List String} (hkept : Kept found files)
    (hfiles : ∀ path ∈ found, disk.isFile path = true) :
    files.Pairwise disk.Apart ↔ ∀ path ∈ found, ∀ other ∈ found,
      disk.locate path = disk.locate other → components path = components other := by
  constructor
  · intro hapart path hpath other hother hsame
    obtain ⟨p, hp, -⟩ := Disk.isFile_iff.mp (hfiles path hpath)
    -- what is kept of a path leads where the path leads
    have hleads {path : String} (hpath : path ∈ found) (hp : disk.locate path = .ok p) :
        ∃ kept ∈ files, components kept = components path ∧ disk.locate kept = .ok p := by
      obtain ⟨kept, hmem, heq⟩ := hkept.covers path hpath
      obtain ⟨q, hq, -⟩ := Disk.isFile_iff.mp (hfiles kept (hkept.subset hmem))
      obtain rfl := Disk.eq_of_components_eq heq hq hp
      exact ⟨kept, hmem, heq, hq⟩
    obtain ⟨kept, hmem, heq, hq⟩ := hleads hpath hp
    obtain ⟨kept', hmem', heq', hq'⟩ := hleads hother (hsame.symm.trans hp)
    have hsymm : Std.Symm disk.Apart := ⟨fun _ _ h p hp hp' => h p hp' hp⟩
    have hone : kept = kept' := by
      by_contra hne
      exact hapart.forall hmem hmem' hne p hq hq'
    rw [← heq, ← heq', hone]
  · intro hsame
    refine hkept.pairwise.imp_of_mem fun {path other} hpath hother hne p hp hp' => hne ?_
    exact hsame path (hkept.subset hpath) other (hkept.subset hother) (hp.trans hp'.symm)

/-- Arguments that start alike and never go up stand for paths that do so. -/
theorem components_eq_of_alike {found : List String} (hnames : disk.WellNamed) (halike : Alike paths)
    (h : Collect.found disk paths extensions exclude = .ok found) :
    ∀ path ∈ found, ∀ other ∈ found, disk.locate path = disk.locate other →
      components path = components other := by
  have hwritten (path : String) (hpath : path ∈ found) : .up ∉ components path ∧ ∃ root ∈ paths,
      leadOf (components path) = leadOf (components root) := by
    obtain ⟨-, root, hroot, names, hcomponents⟩ := of_mem_found hnames h hpath
    rw [hcomponents, leadOf_append_names]
    refine ⟨fun hup => ?_, root, hroot, rfl⟩
    rcases List.mem_append.mp hup with hup | hup
    · exact halike.stays root hroot hup
    · simp at hup
  intro path hpath other hother hsame
  obtain ⟨p, hp, -⟩ := Disk.isFile_iff.mp (of_mem_found hnames h hpath).1
  obtain ⟨hup, root, hroot, hlead⟩ := hwritten path hpath
  obtain ⟨hup', root', hroot', hlead'⟩ := hwritten other hother
  refine Disk.components_eq_of_locate_eq hp (hsame.symm.trans hp) ?_ hup hup'
  rw [hlead, hlead', halike.lead root hroot root' hroot']

end Collect

namespace Command

open Analyzer

variable {disk : Disk} {env : Environment} {config : Option String} {c : CheckRequest}
  {a : Analyzer} {files : List String}

theorem collect_of_prepare (h : prepare disk env config c = .ok (a, files)) :
    Collect.files disk c.paths a.config.files.extensions (a.config.files.exclude ++ c.exclude) =
      .ok files := by
  obtain ⟨settings, -, h⟩ := exists_of_bind_eq_ok h
  obtain ⟨rules, -, h⟩ := exists_of_bind_eq_ok h
  obtain ⟨collected, hcollected, h⟩ := exists_of_bind_eq_ok h
  cases h
  exact hcollected

/-- How many of some paths lead to a place. -/
def visits (disk : Disk) (paths : List String) (p : Place) : Nat :=
  paths.countP fun path => decide (disk.locate path = .ok p)

/-- No place is visited twice exactly if no two paths lead to one. -/
theorem visits_le_one_iff {paths : List String} :
    (∀ p, visits disk paths p ≤ 1) ↔ paths.Pairwise disk.Apart := by
  induction paths with
  | nil => simp [visits]
  | cons path rest ih =>
    rw [List.pairwise_cons, ← ih]
    constructor
    · refine fun hall => ⟨fun other hother p hp hp' => ?_, fun p => ?_⟩
      · have hlater : 0 < visits disk rest p := List.countP_pos_iff.mpr ⟨other, hother, by simp [hp']⟩
        have htwice := hall p
        rw [visits, List.countP_cons_of_pos (by simp [hp])] at htwice
        exact absurd (Nat.le_of_succ_le_succ htwice) (Nat.not_le.mpr hlater)
      · exact ((List.sublist_cons_self path rest).countP_le).trans (hall p)
    · rintro ⟨hfirst, hrest⟩ p
      by_cases hp : disk.locate path = .ok p
      · have hnone : visits disk rest p = 0 :=
          List.countP_eq_zero.mpr fun other hother => by simp [hfirst other hother p hp]
        rw [visits, List.countP_cons_of_pos (by simp [hp]), ← visits, hnone]
      · rw [visits, List.countP_cons_of_neg (by simp [hp])]
        exact hrest p

theorem path_checkFile (a : Analyzer) (disk : Disk) (path : String) :
    (a.checkFile disk path).path = path := by
  unfold checkFile
  split
  · unfold Analyzer.check
    simp only
    split <;> rfl
  · rfl

/-- There is one report for each file that is fixed. -/
theorem map_path_fixFiles (a : Analyzer) (files : List String) (disk : Disk) :
    (a.fixFiles files disk).1.map Report.path = files := by
  induction files generalizing disk with
  | nil => rfl
  | cons path files ih =>
    have hfirst := path_fixFile a disk path
    have hrest := ih (a.fixFile disk path).2
    exact congrArg₂ List.cons hfirst hrest

/-- **When each file is looked at once.** Of the paths that the arguments of a check stand for those are
kept that have different components, and all of these are files. No file is visited twice exactly if the
paths that lead to one file have the same components, which they have where the arguments start alike and
never go up. Each path that is kept gets one report, and fixing it writes nowhere but where it leads. -/
theorem looks_once_iff (hnames : disk.WellNamed)
    (hprepare : prepare disk env config c = .ok (a, files)) :
    ∃ found,
      Collect.found disk c.paths a.config.files.extensions (a.config.files.exclude ++ c.exclude) =
          .ok found
        ∧ Collect.Kept found files
        ∧ (∀ path ∈ files, disk.isFile path = true)
        ∧ ((∀ p, visits disk files p ≤ 1) ↔ ∀ path ∈ found, ∀ other ∈ found,
            disk.locate path = disk.locate other → Path.components path = Path.components other)
        ∧ (Path.Alike c.paths → ∀ p, visits disk files p ≤ 1)
        ∧ (files.map (a.checkFile disk)).map Report.path = files
        ∧ (a.fixFiles files disk).1.map Report.path = files
        ∧ ∀ path ∈ files, ∀ start, Disk.SameLayout disk start → ∀ p, disk.locate path ≠ .ok p →
            (a.fixFile start path).2.contentAt? p = start.contentAt? p := by
  obtain ⟨found, hfound, hkept⟩ := Collect.exists_kept (collect_of_prepare hprepare)
  have hfiles (path : String) (hpath : path ∈ found) : disk.isFile path = true :=
    (Collect.of_mem_found hnames hfound hpath).1
  have hiff := visits_le_one_iff.trans (Collect.pairwise_apart_iff hkept hfiles)
  refine ⟨found, hfound, hkept, fun path hpath => hfiles path (hkept.subset hpath), hiff,
    fun halike => hiff.mpr (Collect.components_eq_of_alike hnames halike hfound), ?_,
    map_path_fixFiles a files disk, fun path _ start hlayout p hp => ?_⟩
  · rw [List.map_map]
    exact List.map_id'' (path_checkFile a disk) files
  · refine contentAt?_fixFile_of_ne ?_
    rw [hlayout.locate_eq]
    exact hp

theorem wellNamed_threeFiles : threeFiles.WellNamed := by decide +kernel

/-- Two names in the current folder lead to two files. -/
theorem looks_once_threeFiles :
    threeFiles.WellNamed
      ∧ prepare threeFiles ⟨none, none, none⟩ none semicolonRequest =
          .ok (semicolonAnalyzer, ["a.scss", "b.scss"])
      ∧ Path.Alike semicolonRequest.paths
      ∧ ∀ p, visits threeFiles ["a.scss", "b.scss"] p ≤ 1 := by
  have halike : Path.Alike semicolonRequest.paths := by
    constructor
    · decide +kernel
    · decide +kernel
  obtain ⟨found, -, -, -, -, honce, -⟩ := looks_once_iff wellNamed_threeFiles prepare_threeFiles
  exact ⟨wellNamed_threeFiles, prepare_threeFiles, halike, honce halike⟩

/-- The arguments that have one file fixed by its name and by its name in the current folder. -/
def twiceArguments : List String := ["check", "--fix", "--rules", "SL013", "a.scss", "./a.scss"]

/-- What these arguments ask for. -/
def twiceRequest : CheckRequest := ⟨["a.scss", "./a.scss"], true, .text, some "SL013", []⟩

/-- **A file may be looked at twice**: by its name and by its name in the current folder. -/
theorem exists_looked_at_twice :
    threeFiles.WellNamed
      ∧ Request.ofArguments none twiceArguments = .ok ⟨none, .check twiceRequest⟩
      ∧ prepare threeFiles ⟨none, none, none⟩ none twiceRequest =
          .ok (semicolonAnalyzer, ["./a.scss", "a.scss"])
      ∧ visits threeFiles ["./a.scss", "a.scss"] ["w", "a.scss"] = 2
      ∧ (semicolonAnalyzer.fixFiles ["./a.scss", "a.scss"] threeFiles).1.map Report.path =
          ["./a.scss", "a.scss"] := by
  have hrequest : Request.ofArguments none twiceArguments = .ok ⟨none, .check twiceRequest⟩ := by cbv
  have hfound (globs : List Glob) : twiceRequest.paths.mapM
      (Collect.ofPath threeFiles Config.standard.files.extensions globs) =
        .ok [["a.scss"], ["./a.scss"]] := by
    have hname : Collect.ofPath threeFiles Config.standard.files.extensions globs "a.scss" =
        .ok ["a.scss"] := if_pos (by decide +kernel)
    have hhere : Collect.ofPath threeFiles Config.standard.files.extensions globs "./a.scss" =
        .ok ["./a.scss"] := if_pos (by decide +kernel)
    simp only [twiceRequest, List.mapM_cons, List.mapM_nil, hname, hhere]
    rfl
  have hfiles : Collect.dropRepeats ([["a.scss"], ["./a.scss"]].flatten.mergeSort Path.le) =
      ["./a.scss", "a.scss"] := by
    have hbehind : Path.le "a.scss" "./a.scss" = false := by decide +kernel
    have hsorted : ["a.scss", "./a.scss"].mergeSort Path.le = ["./a.scss", "a.scss"] := by
      simp [List.mergeSort, List.MergeSort.Internal.splitInTwo, hbehind]
    have hother : Path.same "./a.scss" "a.scss" = false := by decide +kernel
    simp only [List.flatten_cons, List.flatten_nil, List.cons_append, List.nil_append, hsorted,
      Collect.dropRepeats, hother]
    rfl
  have hsettings : Settings.path? threeFiles ⟨none, none, none⟩ none twiceRequest.paths = none := by
    decide +kernel
  have hprepare : prepare threeFiles ⟨none, none, none⟩ none twiceRequest =
      .ok (semicolonAnalyzer, ["./a.scss", "a.scss"]) :=
    prepare_semicolons hsettings rfl rfl hfound hfiles
  have hvisits : visits threeFiles ["./a.scss", "a.scss"] ["w", "a.scss"] = 2 := by decide +kernel
  exact ⟨wellNamed_threeFiles, hrequest, hprepare, hvisits, map_path_fixFiles _ _ _⟩

end Command

end SheetLint
