import SheetLint.Analyzer.Files
import SheetLint.Proofs.Fixing.Report

/-!
# Fixing files in place

Fixing writes to files that are there. That changes what they hold, but neither where files and
folders are nor where paths lead. So files at different places are fixed independently of each
other: each as it would be by itself, and what is at other places stays.

Results:
* `Disk.sameLayout_putAt`: writing to a file that is there keeps the layout.
* `Analyzer.FileFixed`: what fixing does to one file, and what its report says of that.
* `Analyzer.fixFiles_apart`: files at different places are fixed as if each were the only one.
-/

namespace SheetLint

/-! ## Where paths lead -/

namespace Disk

variable {d d' d'' : Disk} {p : Place} {path : String} {t : Text}

/-- Two disks with files and folders at the same places. -/
structure SameLayout (d d' : Disk) : Prop where
  files : ∀ p, (d'.contentAt? p).isSome = (d.contentAt? p).isSome
  folders : ∀ p, d'.isFolderAt p = d.isFolderAt p
  current : d'.current = d.current

theorem SameLayout.refl (d : Disk) : SameLayout d d := ⟨fun _ => rfl, fun _ => rfl, rfl⟩

theorem SameLayout.trans (h : SameLayout d d') (h' : SameLayout d' d'') : SameLayout d d'' :=
  ⟨fun p => (h'.files p).trans (h.files p), fun p => (h'.folders p).trans (h.folders p),
    h'.current.trans h.current⟩

theorem SameLayout.step_eq (h : SameLayout d d') : d'.step = d.step := by
  funext p segment
  unfold step
  rw [h.files, h.folders]

/-- Paths lead to the same places. -/
theorem SameLayout.locate_eq (h : SameLayout d d') (path : String) :
    d'.locate path = d.locate path := by
  unfold locate
  rw [h.step_eq, h.current]

theorem contentAt?_putAt (d : Disk) (p q : Place) (t : Text) :
    (d.putAt p t).contentAt? q = if q = p then some (.text t) else d.contentAt? q :=
  lookup_put p q t d.files

theorem map_fst_put {files : List (Place × Content)} (h : (files.lookup p).isSome = true) :
    (put p t files).map Prod.fst = files.map Prod.fst := by
  induction files with
  | nil => cases h
  | cons f fs ih =>
    obtain ⟨q, c⟩ := f
    rw [put]
    by_cases hq : q = p
    · rw [if_pos hq, List.map_cons, List.map_cons, hq]
    · rw [List.lookup_cons, beq_false_of_ne (Ne.symm hq)] at h
      rw [if_neg hq, List.map_cons, List.map_cons, ih h]

/-- **Writing to a file that is there keeps the layout.** -/
theorem sameLayout_putAt (h : (d.contentAt? p).isSome = true) (t : Text) :
    SameLayout d (d.putAt p t) := by
  refine ⟨fun q => ?_, fun q => ?_, rfl⟩
  · rw [contentAt?_putAt]
    split
    · rename_i hq
      rw [hq, h]
      rfl
    · rfl
  · have hany (files : List (Place × Content)) :
        (files.any fun f => (below? q f.1).isSome) =
          (files.map Prod.fst).any fun place => (below? q place).isSome := by
      rw [List.any_map]
      rfl
    unfold isFolderAt
    rw [hany, hany]
    simp only [putAt, map_fst_put h]

theorem read_eq_ok_iff :
    d.read path = .ok t ↔ ∃ p, d.locate path = .ok p ∧ d.contentAt? p = some (.text t) := by
  unfold read
  cases d.locate path with
  | error fault => simp [bind, Except.bind]
  | ok p =>
    simp only [bind, Except.bind, Except.ok.injEq, exists_eq_left']
    cases d.contentAt? p with
    | none => cases d.isFolderAt p <;> simp
    | some c => cases c <;> simp

theorem write_eq_ok_iff :
    d.write path t = .ok d' ↔
      ∃ p, d.locate path = .ok p ∧ d.isFolderAt p = false ∧ d' = d.putAt p t := by
  unfold write
  cases d.locate path with
  | error fault => simp [bind, Except.bind]
  | ok p =>
    simp only [bind, Except.bind, Except.ok.injEq, exists_eq_left', eq_comm (a := d')]
    cases d.isFolderAt p <;> simp

theorem write_eq_error_iff {fault : FileFault} :
    d.write path t = .error fault ↔
      d.locate path = .error fault
        ∨ ∃ p, d.locate path = .ok p ∧ d.isFolderAt p = true ∧ fault = .folder := by
  unfold write
  cases d.locate path with
  | error reason => simp [bind, Except.bind]
  | ok p =>
    simp only [bind, Except.bind, Except.ok.injEq, exists_eq_left', eq_comm (a := fault)]
    cases d.isFolderAt p <;> simp

/-- Whether two paths lead to different places, if to any. -/
def Apart (d : Disk) (path other : String) : Prop :=
  ∀ p, d.locate path = .ok p → d.locate other ≠ .ok p

end Disk

/-! ## One file -/

namespace Analyzer

open Disk

variable {a : Analyzer} {d d' : Disk} {p : Place} {path : String}

/-- What fixing the file of a path does to its contents, and what the report says of that. A file
can be written unless a folder has its place. -/
structure FileFixed (a : Analyzer) (path : String) (isWritable : Bool)
    (before after : Option Content) (r : Report) : Prop where
  path_eq : r.path = path
  /-- The file changes exactly when the report says so. -/
  changed_iff : after ≠ before ↔ r.fixed = true
  /-- What it then holds is what fixing makes of its text. -/
  output : r.fixed = true →
    ∃ source, before = some (.text source) ∧ after = some (.text (a.fix path source).2)
  /-- A text that can be written is fixed, and the report is the one of fixing it. -/
  written : ∀ source, before = some (.text source) → isWritable = true →
    after = some (.text (a.fix path source).2) ∧ r = (a.fix path source).1
  /-- A text that does not parse stays, and the report lists its syntax errors. -/
  broken : ∀ source, before = some (.text source) → (Parse.ofText source).isOk = false →
    after = before ∧ r.syntaxErrors = (Parse.ofText source).errors
  /-- What is no text stays, and the report says that it could not be read. -/
  unreadable : (∀ source, before ≠ some (.text source)) → after = before ∧ r.failure.isSome = true

theorem path_fix (a : Analyzer) (path : String) (source : Text) :
    (a.fix path source).1.path = path := by
  rw [report_fix]
  cases hok : (Parse.ofText (a.fix path source).2).isOk with
  | true => rw [check_of_isOk path hok]
  | false => rw [check_of_not_isOk path hok]

theorem path_fixFile (a : Analyzer) (d : Disk) (path : String) :
    (a.fixFile d path).1.path = path := by
  unfold fixFile
  split
  · rfl
  · simp only
    split
    · split
      · exact path_fix a path _
      · exact path_fix a path _
    · exact path_fix a path _

theorem fixFile_of_unreadable {fault : FileFault} (h : d.read path = .error fault) :
    a.fixFile d path = (.ofFailure path fault.message, d) := by
  unfold fixFile
  rw [h]

theorem fixFile_of_unchanged {source : Text} (h : d.read path = .ok source)
    (hfixed : (a.fix path source).1.fixed = false) :
    a.fixFile d path = ((a.fix path source).1, d) := by
  unfold fixFile
  rw [h]
  simp [hfixed]

theorem fixFile_of_written {source : Text} (h : d.read path = .ok source)
    (hfixed : (a.fix path source).1.fixed = true)
    (hwrite : d.write path (a.fix path source).2 = .ok d') :
    a.fixFile d path = ((a.fix path source).1, d') := by
  unfold fixFile
  rw [h]
  simp [hfixed, hwrite]

theorem fixFile_of_unwritten {source : Text} {fault : FileFault} (h : d.read path = .ok source)
    (hfixed : (a.fix path source).1.fixed = true)
    (hwrite : d.write path (a.fix path source).2 = .error fault) :
    a.fixFile d path =
      ({ (a.fix path source).1 with fixed := false, failure := some fault.message }, d) := by
  unfold fixFile
  rw [h]
  simp [hfixed, hwrite]

/-- What becomes of a file: it stays, or it is there with a text and gets another. -/
theorem fixFile_cases (a : Analyzer) (d : Disk) (path : String) :
    ((a.fixFile d path).1.fixed = false ∧ (a.fixFile d path).2 = d)
      ∨ ∃ p source, d.locate path = .ok p ∧ d.contentAt? p = some (.text source)
        ∧ a.fixFile d path = ((a.fix path source).1, d.putAt p (a.fix path source).2)
        ∧ (a.fix path source).1.fixed = true := by
  cases hread : d.read path with
  | error fault => exact .inl (by rw [fixFile_of_unreadable hread]; exact ⟨rfl, rfl⟩)
  | ok source =>
    cases hfixed : (a.fix path source).1.fixed with
    | false => exact .inl (by rw [fixFile_of_unchanged hread hfixed]; exact ⟨hfixed, rfl⟩)
    | true =>
      cases hwrite : d.write path (a.fix path source).2 with
      | error fault => exact .inl (by rw [fixFile_of_unwritten hread hfixed hwrite]; exact ⟨rfl, rfl⟩)
      | ok d' =>
        obtain ⟨p, hp, hsource⟩ := read_eq_ok_iff.mp hread
        obtain ⟨p', hp', -, rfl⟩ := write_eq_ok_iff.mp hwrite
        obtain rfl : p = p' := Except.ok.inj (hp.symm.trans hp')
        exact .inr ⟨p, source, hp, hsource, fixFile_of_written hread hfixed hwrite, hfixed⟩

theorem sameLayout_fixFile (a : Analyzer) (d : Disk) (path : String) :
    SameLayout d (a.fixFile d path).2 := by
  rcases fixFile_cases a d path with ⟨-, hsame⟩ | ⟨p, source, -, hsource, hfix, -⟩
  · rw [hsame]
    exact .refl d
  · rw [hfix]
    exact sameLayout_putAt (by rw [hsource]; rfl) _

/-- Fixing a file leaves other places alone. -/
theorem contentAt?_fixFile_of_ne (hp : d.locate path ≠ .ok p) :
    (a.fixFile d path).2.contentAt? p = d.contentAt? p := by
  rcases fixFile_cases a d path with ⟨-, hsame⟩ | ⟨p', source, hp', -, hfix, -⟩
  · rw [hsame]
  · have hne : p ≠ p' := by
      rintro rfl
      exact hp hp'
    rw [hfix, contentAt?_putAt, if_neg hne]

/-- A text that does not parse stays. -/
theorem fixFile_of_not_isOk {source : Text} (h : d.read path = .ok source)
    (hok : (Parse.ofText source).isOk = false) :
    a.fixFile d path = ({ path, syntaxErrors := (Parse.ofText source).errors }, d) := by
  have hreport : (a.fix path source).1 = { path, syntaxErrors := (Parse.ofText source).errors } := by
    rw [report_fix, (fix_of_not_isOk path hok).1, check_of_not_isOk path hok, bne_self_eq_false]
  rw [fixFile_of_unchanged h (fix_of_not_isOk path hok).2, hreport]

/-- **What fixing a file does shows in its report.** -/
theorem fileFixed_fixFile (a : Analyzer) (hp : d.locate path = .ok p) :
    FileFixed a path (!d.isFolderAt p) (d.contentAt? p) ((a.fixFile d path).2.contentAt? p)
      (a.fixFile d path).1 := by
  have hcases := fixFile_cases a d path
  refine ⟨path_fixFile a d path, ?_, ?_, fun source h hwritable => ?_, fun source h hok => ?_,
    fun h => ?_⟩
  · rcases hcases with ⟨hstays, hsame⟩ | ⟨p', source, hp', hsource, hfix, hfixed⟩
    · simp [hstays, hsame]
    · obtain rfl : p = p' := Except.ok.inj (hp.symm.trans hp')
      have hother : (a.fix path source).2 ≠ source := by
        rw [Ne, ← fixed_fix_eq_false_iff, hfixed]
        decide
      rw [hfix, contentAt?_putAt, if_pos rfl, hsource]
      simp [hfixed, hother]
  · intro hchanged
    rcases hcases with ⟨hstays, -⟩ | ⟨p', source, hp', hsource, hfix, -⟩
    · rw [hstays] at hchanged
      cases hchanged
    · obtain rfl : p = p' := Except.ok.inj (hp.symm.trans hp')
      exact ⟨source, hsource, by rw [hfix, contentAt?_putAt, if_pos rfl]⟩
  · have hread : d.read path = .ok source := read_eq_ok_iff.mpr ⟨p, hp, h⟩
    cases hfixed : (a.fix path source).1.fixed with
    | false =>
      rw [fixFile_of_unchanged hread hfixed, (fixed_fix_eq_false_iff path).mp hfixed]
      exact ⟨h, rfl⟩
    | true =>
      have hwrite : d.write path (a.fix path source).2 = .ok (d.putAt p (a.fix path source).2) :=
        write_eq_ok_iff.mpr ⟨p, hp, by simpa using hwritable, rfl⟩
      rw [fixFile_of_written hread hfixed hwrite, contentAt?_putAt, if_pos rfl]
      exact ⟨rfl, rfl⟩
  · rw [fixFile_of_not_isOk (read_eq_ok_iff.mpr ⟨p, hp, h⟩) hok]
    exact ⟨rfl, rfl⟩
  · cases hread : d.read path with
    | error fault =>
      rw [fixFile_of_unreadable hread]
      exact ⟨rfl, rfl⟩
    | ok source =>
      obtain ⟨p', hp', hsource⟩ := read_eq_ok_iff.mp hread
      obtain rfl : p = p' := Except.ok.inj (hp.symm.trans hp')
      exact absurd hsource (h source)

/-! ## Files at different places -/

/-- A file that holds what it held, on a disk with the same layout, is read and written as it was.
-/
theorem fixFile_congr (hlayout : SameLayout d d')
    (hsame : ∀ p, d.locate path = .ok p → d'.contentAt? p = d.contentAt? p) :
    (a.fixFile d' path).1 = (a.fixFile d path).1
      ∧ ∀ p, d.locate path = .ok p →
        (a.fixFile d' path).2.contentAt? p = (a.fixFile d path).2.contentAt? p := by
  have hread : d'.read path = d.read path := by
    unfold Disk.read
    rw [hlayout.locate_eq]
    cases hp : d.locate path with
    | error fault => rfl
    | ok p => simp only [bind, Except.bind, hsame p hp, hlayout.folders]
  cases hsource : d.read path with
  | error fault =>
    rw [fixFile_of_unreadable hsource, fixFile_of_unreadable (hread.trans hsource)]
    exact ⟨rfl, hsame⟩
  | ok source =>
    have hsource' := hread.trans hsource
    cases hfixed : (a.fix path source).1.fixed with
    | false =>
      rw [fixFile_of_unchanged hsource hfixed, fixFile_of_unchanged hsource' hfixed]
      exact ⟨rfl, hsame⟩
    | true =>
      cases hwrite : d.write path (a.fix path source).2 with
      | error fault =>
        have hwrite' : d'.write path (a.fix path source).2 = .error fault := by
          rw [write_eq_error_iff] at hwrite ⊢
          simpa only [hlayout.locate_eq, hlayout.folders] using hwrite
        rw [fixFile_of_unwritten hsource hfixed hwrite, fixFile_of_unwritten hsource' hfixed hwrite']
        exact ⟨rfl, hsame⟩
      | ok last =>
        obtain ⟨p, hp, hfolder, rfl⟩ := write_eq_ok_iff.mp hwrite
        have hwrite' : d'.write path (a.fix path source).2 =
            .ok (d'.putAt p (a.fix path source).2) :=
          write_eq_ok_iff.mpr ⟨p, (hlayout.locate_eq path).trans hp,
            (hlayout.folders p).trans hfolder, rfl⟩
        rw [fixFile_of_written hsource hfixed hwrite, fixFile_of_written hsource' hfixed hwrite']
        refine ⟨rfl, fun q hq => ?_⟩
        obtain rfl : p = q := Except.ok.inj (hp.symm.trans hq)
        rw [contentAt?_putAt, contentAt?_putAt, if_pos rfl, if_pos rfl]

/-- What fixing files in turn comes to on a disk that has stayed, at their places, as it was in the
beginning. -/
structure FixedFrom (a : Analyzer) (start disk : Disk) (files : List String)
    (done : List Report × Disk) : Prop where
  layout : SameLayout start done.2
  reports_eq : done.1 = files.map fun path => (a.fixFile start path).1
  own : ∀ path ∈ files, ∀ p, start.locate path = .ok p →
    done.2.contentAt? p = (a.fixFile start path).2.contentAt? p
  other : ∀ p, (∀ path ∈ files, start.locate path ≠ .ok p) →
    done.2.contentAt? p = disk.contentAt? p

theorem fixedFrom_fixFiles {start disk : Disk} {files : List String}
    (hlayout : SameLayout start disk) (hapart : files.Pairwise start.Apart)
    (hsame : ∀ path ∈ files, ∀ p, start.locate path = .ok p →
      disk.contentAt? p = start.contentAt? p) :
    FixedFrom a start disk files (a.fixFiles files disk) := by
  induction files generalizing disk with
  | nil => exact ⟨hlayout, rfl, by simp, fun _ _ => rfl⟩
  | cons path files ih =>
    rw [List.pairwise_cons] at hapart
    rw [List.forall_mem_cons] at hsame
    obtain ⟨hreport, hcontent⟩ := fixFile_congr (a := a) hlayout hsame.1
    have hlayout' := sameLayout_fixFile a disk path
    -- the file just fixed is at none of the places that come later
    have hstays (other : String) (hother : other ∈ files) (p : Place)
        (hp : start.locate other = .ok p) :
        (a.fixFile disk path).2.contentAt? p = disk.contentAt? p := by
      refine contentAt?_fixFile_of_ne fun hpath => ?_
      rw [hlayout.locate_eq] at hpath
      exact hapart.1 other hother p hpath hp
    have hrest := ih (hlayout.trans hlayout') hapart.2 fun other hother p hp =>
      (hstays other hother p hp).trans (hsame.2 other hother p hp)
    refine ⟨hrest.layout, ?_, ?_, fun p hp => ?_⟩
    · show (a.fixFile disk path).1 :: (a.fixFiles files (a.fixFile disk path).2).1 = _
      rw [hrest.reports_eq, hreport]
      rfl
    · show ∀ other ∈ path :: files, ∀ p, start.locate other = .ok p →
        (a.fixFiles files (a.fixFile disk path).2).2.contentAt? p = _
      rw [List.forall_mem_cons]
      refine ⟨fun p hp => ?_, hrest.own⟩
      rw [hrest.other p fun other hother => hapart.1 other hother p hp]
      exact hcontent p hp
    · rw [List.forall_mem_cons] at hp
      refine (hrest.other p hp.2).trans (contentAt?_fixFile_of_ne ?_)
      rw [hlayout.locate_eq]
      exact hp.1

/-- **Files at different places are fixed as if each were the only one.** -/
theorem fixFiles_apart {disk : Disk} {files : List String} (hapart : files.Pairwise disk.Apart) :
    FixedFrom a disk disk files (a.fixFiles files disk) :=
  fixedFrom_fixFiles (.refl disk) hapart fun _ _ _ _ => rfl

end Analyzer

end SheetLint
