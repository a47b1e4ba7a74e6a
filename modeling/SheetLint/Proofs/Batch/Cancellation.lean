import Mathlib.Data.List.Forall2
import Mathlib.Logic.Relation
import SheetLint.Disk
import SheetLint.Proofs.Batch.ExitCode

/-!
# Batches that are cancelled

Workers process the files of a batch side by side, in any order. A worker looks for a request to
cancel once for each file, right before it would start it; from then on nothing stops it. A request
can come at any time and is never taken back. When all files are through, their reports are
collected in the order of the list, and it is looked once more whether there was a request.

Results:
* `Pool.Sound.step`, `Pool.sound_of_run`: what every order of steps keeps: a report is that of its
  own file, and a file was skipped only after a request.
* `Pool.batch_eq_run`: how the steps came about shows only in which files saw a request.
* `Pool.batch_accounts`: a batch accounts for all of its files, and the worst of its reports decides
  the exit code.
-/

namespace SheetLint

/-! ## Workers -/

/-- How far a file of a batch is. -/
inductive Slot where
  | waiting
  /-- Its worker saw no request to cancel. -/
  | started
  | done (r : Report)
  /-- Its worker saw a request to cancel. -/
  | skipped

namespace Slot

/-- Whether the worker of the file saw a request to cancel. -/
def isSkipped : Slot → Bool
  | skipped => true
  | _ => false

/-- The report on the file. -/
def report? : Slot → Option Report
  | done r => some r
  | _ => none

/-- Whether nothing more happens to the file. -/
def isFinal : Slot → Bool
  | done _ => true
  | skipped => true
  | _ => false

end Slot

/-- A batch in the middle of its processing: whether there was a request to cancel, and how far the
files are, in the order of the list. -/
structure Pool where
  requested : Bool
  slots : List Slot

namespace Pool

variable {process : String → Report} {files : List String} {p q : Pool}

/-- No file has had its turn, and there was no request. -/
def initial (files : List String) : Pool := ⟨false, files.map fun _ => .waiting⟩

/-- What can happen next. -/
inductive Step (process : String → Report) (files : List String) : Pool → Pool → Prop
  /-- Someone asks to cancel. -/
  | request (p : Pool) : Step process files p { p with requested := true }
  /-- A worker sees no request and starts a file. -/
  | start {p : Pool} {i : Nat} (turn : p.slots[i]? = some .waiting) (unseen : p.requested = false) :
      Step process files p { p with slots := p.slots.set i .started }
  /-- A worker sees a request and skips a file. -/
  | skip {p : Pool} {i : Nat} (turn : p.slots[i]? = some .waiting) (seen : p.requested = true) :
      Step process files p { p with slots := p.slots.set i .skipped }
  /-- A worker is through with a file. -/
  | finish {p : Pool} {i : Nat} {file : String} (turn : p.slots[i]? = some .started)
      (own : files[i]? = some file) :
      Step process files p { p with slots := p.slots.set i (.done (process file)) }

/-- What can have happened after some steps. -/
def Run (process : String → Report) (files : List String) : Pool → Pool → Prop :=
  Relation.ReflTransGen (Step process files)

/-- Whether all files are through. -/
def IsFinished (p : Pool) : Prop := ∀ s ∈ p.slots, s.isFinal = true

/-- For each file whether its worker saw a request. -/
def reads (p : Pool) : List Bool := p.slots.map Slot.isSkipped

/-- The batch that is collected in the end. -/
def batch (p : Pool) : Batch :=
  { Batch.ofReports (p.slots.filterMap Slot.report?) with
    cancelled := p.requested
    skipped := p.slots.countP Slot.isSkipped }

/-! ## What every step keeps -/

/-- What holds of the slot of a file: a report is that on the file, and a file that was skipped
was skipped after a request. -/
def Fits (process : String → Report) (requested : Bool) (file : String) : Slot → Prop
  | .waiting => True
  | .started => True
  | .done r => r = process file
  | .skipped => requested = true

theorem Fits.mono {file : String} {s : Slot} {requested : Bool}
    (h : Fits process requested file s) : Fits process true file s := by
  cases s with
  | waiting | started => trivial
  | done r => exact h
  | skipped => rfl

/-- Whether the slots fit their files. -/
def Sound (process : String → Report) (files : List String) (p : Pool) : Prop :=
  List.Forall₂ (Fits process p.requested) files p.slots

theorem sound_initial (process : String → Report) (files : List String) :
    Sound process files (initial files) := by
  unfold Sound initial
  induction files with
  | nil => exact .nil
  | cons file files ih => exact .cons trivial ih

/-- Slots fit their files behind a change of one of them, if that one does. -/
theorem forall₂_set {R : String → Slot → Prop} {slots : List Slot} (h : List.Forall₂ R files slots)
    {i : Nat} {s : Slot} (hs : ∀ file, files[i]? = some file → R file s) :
    List.Forall₂ R files (slots.set i s) := by
  induction h generalizing i with
  | nil => exact .nil
  | @cons file slot files slots hfirst hrest ih =>
    cases i with
    | zero => exact .cons (hs file rfl) hrest
    | succ i => exact .cons hfirst (ih hs)

/-- **Every step keeps the slots sound.** -/
theorem Sound.step (h : Sound process files p) (hstep : Step process files p q) :
    Sound process files q := by
  cases hstep with
  | request => exact h.imp fun _ _ hfits => hfits.mono
  | start => exact forall₂_set h fun _ _ => trivial
  | skip _ seen => exact forall₂_set h fun _ _ => seen
  | finish _ own =>
    refine forall₂_set h fun file hfile => ?_
    rw [own] at hfile
    cases hfile
    rfl

/-- So whatever happens leaves them sound. -/
theorem sound_of_run (h : Run process files (initial files) p) : Sound process files p := by
  induction h with
  | refl => exact sound_initial process files
  | tail _ hstep ih => exact ih.step hstep

/-! ## What is collected -/

/-- The reports of finished slots are those on the files whose worker saw no request. -/
theorem reports_eq {requested : Bool} {slots : List Slot}
    (h : List.Forall₂ (Fits process requested) files slots)
    (hfinal : ∀ s ∈ slots, s.isFinal = true) :
    slots.filterMap Slot.report? =
      ((files.zip (slots.map Slot.isSkipped)).filter fun f => !f.2).map fun f => process f.1 := by
  induction h with
  | nil => rfl
  | @cons file slot files slots hfits _ ih =>
    obtain ⟨hslot, hslots⟩ := List.forall_mem_cons.mp hfinal
    cases slot with
    | waiting | started => cases hslot
    | done r =>
      cases hfits
      simp [Slot.report?, Slot.isSkipped, ih hslots]
    | skipped =>
      rw [List.filterMap_cons_none rfl, ih hslots]
      rfl

theorem skipped_eq (h : p.slots.length = files.length) :
    p.batch.skipped = ((files.zip p.reads).filter fun f => f.2).length := by
  have hreads : (files.zip p.reads).map Prod.snd = p.reads :=
    List.map_snd_zip (by rw [reads, List.length_map, h])
  calc
    p.batch.skipped = p.slots.countP Slot.isSkipped := rfl
    _ = p.reads.countP id := by rw [reads, List.countP_map]; rfl
    _ = ((files.zip p.reads).map Prod.snd).countP id := by rw [hreads]
    _ = (files.zip p.reads).countP fun f => f.2 := by rw [List.countP_map]; rfl
    _ = ((files.zip p.reads).filter fun f => f.2).length := List.countP_eq_length_filter

/-- **How the steps came about shows only in which files saw a request**, and in whether there was
one in the end. -/
theorem batch_eq_run (h : Sound process files p) (hfinal : p.IsFinished) :
    p.batch = Batch.run process (files.zip p.reads) p.requested := by
  unfold Batch.run
  rw [← skipped_eq h.length_eq.symm, reads, ← reports_eq h hfinal]
  rfl

/-- Every slot belongs to a file. -/
theorem exists_fits {R : String → Slot → Prop} {slots : List Slot} (h : List.Forall₂ R files slots)
    {s : Slot} (hs : s ∈ slots) : ∃ file ∈ files, R file s := by
  induction h with
  | nil => cases hs
  | @cons file slot files slots hfirst _ ih =>
    rcases List.mem_cons.mp hs with rfl | hmem
    · exact ⟨file, List.mem_cons_self, hfirst⟩
    · obtain ⟨other, hother, hfits⟩ := ih hmem
      exact ⟨other, List.mem_cons_of_mem file hother, hfits⟩

/-- Where a file was skipped there was a request. -/
theorem Sound.requested_of_skipped (h : Sound process files p) (hskipped : 0 < p.batch.skipped) :
    p.requested = true := by
  obtain ⟨s, hs, hseen⟩ := List.countP_pos_iff.mp hskipped
  obtain ⟨file, -, hfits⟩ := exists_fits h hs
  cases s with
  | skipped => exact hfits
  | waiting | started | done => cases hseen

/-- **A batch accounts for all of its files.** In whatever order workers look for a request to
cancel, and whenever one comes, each file is processed or skipped; there is one report for each file
whose worker saw no request, in the order of paths; a batch with skipped files tells that it was
cancelled; and the worst of its reports decides the exit code, in whatever order they stand. -/
theorem batch_accounts (h : Run process files (initial files) p) (hfinal : p.IsFinished) :
    p.reads.length = files.length
      ∧ p.batch = Batch.run process (files.zip p.reads) p.requested
      ∧ p.batch.filesChecked + p.batch.skipped = files.length
      ∧ p.batch.reports.Perm
          (((files.zip p.reads).filter fun f => !f.2).map fun f => process f.1)
      ∧ (p.batch.reports.Pairwise fun r s => Path.le r.path s.path = true)
      ∧ (0 < p.batch.skipped → p.batch.cancelled = true)
      ∧ ∀ threshold order, order.Perm p.batch.reports →
          p.batch.exitCode threshold =
              (order.map fun r => (Batch.ofReports [r]).exitCode threshold).foldr max 0
            ∧ { p.batch with reports := order }.exitCode threshold
              = p.batch.exitCode threshold := by
  have hsound := sound_of_run h
  have hlength : p.reads.length = files.length := by
    rw [reads, List.length_map, hsound.length_eq]
  have hrun := batch_eq_run hsound hfinal
  refine ⟨hlength, hrun, ?_, ?_, Batch.sorted_ofReports _, hsound.requested_of_skipped, ?_⟩
  · rw [hrun, Batch.filesChecked_add_skipped, List.length_zip, hlength, Nat.min_self]
  · rw [hrun]
    exact Batch.perm_ofReports _
  · intro threshold order horder
    rw [Batch.exitCode_eq_worst, Batch.exitCode_eq_worst, ← Report.worst_perm horder]
    exact ⟨rfl, rfl⟩

/-! ### A batch with a request in the middle -/

/-- A file that cannot be read among files without fault. -/
def lookAt (path : String) : Report :=
  if path = "b.scss" then .ofFailure path FileFault.missing.message else { path }

/-- Three files, the last of which was skipped. -/
def interrupted : Pool :=
  ⟨true, [.done (lookAt "c.scss"), .done (lookAt "b.scss"), .skipped]⟩

/-- Two files are started before the request. One of them ends behind it, and the third file sees
it. -/
theorem run_interrupted :
    Run lookAt ["c.scss", "b.scss", "a.scss"] (initial ["c.scss", "b.scss", "a.scss"])
      interrupted := by
  unfold Run initial
  refine .head (.start (i := 1) rfl rfl) (.head (.start (i := 0) rfl rfl) ?_)
  refine .head (.finish (i := 1) rfl rfl) (.head (.request _) ?_)
  exact .head (.skip (i := 2) rfl rfl) (.single (.finish (i := 0) rfl rfl))

/-- **A batch that was cancelled in the middle** has two reports of three files, and fails for the
file that could not be read. -/
theorem batch_accounts_interrupted :
    Run lookAt ["c.scss", "b.scss", "a.scss"] (initial ["c.scss", "b.scss", "a.scss"]) interrupted
      ∧ interrupted.IsFinished
      ∧ interrupted.batch.filesChecked + interrupted.batch.skipped = 3
      ∧ interrupted.batch.reports.Perm [lookAt "c.scss", lookAt "b.scss"]
      ∧ interrupted.batch.cancelled = true
      ∧ interrupted.batch.exitCode .error = 2 := by
  have hfinal : interrupted.IsFinished := by simp [IsFinished, interrupted, Slot.isFinal]
  obtain ⟨-, -, hall, hreports, -, hcancelled, hcode⟩ := batch_accounts run_interrupted hfinal
  refine ⟨run_interrupted, hfinal, hall, hreports, hcancelled (by decide), ?_⟩
  rw [(hcode .error _ hreports.symm).1]
  decide +kernel

end Pool

end SheetLint
