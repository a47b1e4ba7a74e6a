import Mathlib
import SheetLint.Proofs.Edit.Substitution
import SheetLint.Proofs.Fixing.Round

/-!
# When the fixes of a round do not work together

Fixes whose edits do not conflict are *usable* on a text when each edit lies in it and the text with
their ranges replaced is another one that the lint accepts. A round takes all of its fixes if they
are usable together. If not, it goes through them in order and keeps each one that is usable
together with those kept before it. The lint may accept fixes together and refuse each of them
alone, or the other way round.

Results:
* `attempt?_eq_some_iff_leadsTo`: an attempt gives what the fixes lead to.
* `Scanned.unique`: which fixes are kept one at a time.
* `Scanned.usable`: fixes kept one at a time are usable together.
* `round?_keeps`: what a round gives, and that one bad fix does not block the others.
-/

namespace SheetLint.Fixing

variable {lint : Lint} {text next : Text} {violations : List Violation} {fixes front kept kept' : List Fix}
  {f : Fix} {r : Round}

/-! ## Usable fixes, said of the text -/

/-- What fixes lead to from a text: the text with the ranges of their edits replaced, in order. -/
structure LeadsTo (lint : Lint) (text : Text) (fixes : List Fix) (next : Text)
    (violations : List Violation) : Prop where
  inText : ∀ e ∈ fixes.flatMap Fix.edits, e.InText text
  substituted : Edit.Substituted 0 text (Edit.inOrder (fixes.flatMap Fix.edits)) next
  changed : next ≠ text
  accepted : lint next = some violations

/-- Whether fixes lead anywhere. -/
def Usable (lint : Lint) (text : Text) (fixes : List Fix) : Prop :=
  ∃ next violations, LeadsTo lint text fixes next violations

/-- No two edits conflict, of one fix or of two. -/
def Compatible (fixes : List Fix) : Prop :=
  (fixes.flatMap Fix.edits).Pairwise fun a b => a.conflicts b = false

theorem Compatible.sublist (h : Compatible fixes) (hsub : kept.Sublist fixes) : Compatible kept := by
  unfold Compatible at h ⊢
  rw [List.flatMap_def] at h ⊢
  exact h.sublist (hsub.map Fix.edits).flatten

/-- **An attempt gives what the fixes lead to**, and nothing when they lead nowhere. -/
theorem attempt?_eq_some_iff_leadsTo (h : Compatible fixes) :
    attempt? lint text fixes = some r ↔
      LeadsTo lint text fixes r.text r.violations ∧ r.fixes = fixes := by
  rw [attempt?_eq_some_iff]
  constructor
  · rintro ⟨happly, hne, haccept, hfixes⟩
    exact ⟨⟨Edit.inText_of_applyAll? happly, Edit.substituted_of_applyAll? happly h, hne, haccept⟩,
      hfixes⟩
  · rintro ⟨hleads, hfixes⟩
    obtain ⟨out, happly, hout⟩ := Edit.applyAll?_eq_some h hleads.inText
    rw [hout.unique hleads.substituted] at happly
    exact ⟨happly, hleads.changed, hleads.accepted, hfixes⟩

theorem isSome_attempt?_iff (h : Compatible fixes) :
    (attempt? lint text fixes).isSome ↔ Usable lint text fixes := by
  rw [Option.isSome_iff_exists]
  constructor
  · rintro ⟨r, hr⟩
    exact ⟨r.text, r.violations, ((attempt?_eq_some_iff_leadsTo h).mp hr).1⟩
  · rintro ⟨next, violations, hleads⟩
    exact ⟨⟨next, violations, fixes⟩, (attempt?_eq_some_iff_leadsTo h).mpr ⟨hleads, rfl⟩⟩

theorem attempt?_eq_none_iff (h : Compatible fixes) :
    attempt? lint text fixes = none ↔ ¬ Usable lint text fixes := by
  rw [← isSome_attempt?_iff h, Bool.not_eq_true, Option.isSome_eq_false_iff, Option.isNone_iff_eq_none]

/-! ## Keeping fixes one at a time -/

/-- `Scanned lint text fixes kept`: going through the fixes in order and keeping each one that is
usable together with those kept before it leaves `kept`. -/
inductive Scanned (lint : Lint) (text : Text) : List Fix → List Fix → Prop
  | nil : Scanned lint text [] []
  | keep {front kept : List Fix} {f : Fix} (before : Scanned lint text front kept)
      (usable : Usable lint text (kept ++ [f])) : Scanned lint text (front ++ [f]) (kept ++ [f])
  | drop {front kept : List Fix} {f : Fix} (before : Scanned lint text front kept)
      (unusable : ¬ Usable lint text (kept ++ [f])) : Scanned lint text (front ++ [f]) kept

namespace Scanned

theorem sublist (h : Scanned lint text fixes kept) : kept.Sublist fixes := by
  induction h with
  | nil => exact .slnil
  | keep _ _ ih => exact ih.append_right _
  | drop _ _ ih => exact ih.trans (List.sublist_append_left _ _)

/-- **Fixes kept one at a time are usable together**, unless there are none. -/
theorem usable (h : Scanned lint text fixes kept) : kept = [] ∨ Usable lint text kept := by
  induction h with
  | nil => exact .inl rfl
  | keep _ husable _ => exact .inr husable
  | drop _ _ ih => exact ih

/-- **Which fixes are kept** is decided by the lint and the text. -/
theorem unique (h : Scanned lint text fixes kept) (h' : Scanned lint text fixes kept') :
    kept = kept' := by
  induction h generalizing kept' with
  | nil =>
    generalize hnil : ([] : List Fix) = fixes at h'
    cases h' with
    | nil => rfl
    | keep | drop => exact absurd hnil.symm (List.append_ne_nil_of_right_ne_nil _ (by simp))
  | @keep front kept f _ husable ih =>
    generalize hfixes : front ++ [f] = fixes at h'
    cases h' with
    | nil => exact absurd hfixes (List.append_ne_nil_of_right_ne_nil _ (by simp))
    | keep before' =>
      obtain ⟨rfl, hf⟩ := List.append_inj' hfixes rfl
      rw [ih before', hf]
    | drop before' unusable' =>
      obtain ⟨rfl, hf⟩ := List.append_inj' hfixes rfl
      rw [ih before', hf] at husable
      exact absurd husable unusable'
  | @drop front kept f _ hunusable ih =>
    generalize hfixes : front ++ [f] = fixes at h'
    cases h' with
    | nil => exact absurd hfixes (List.append_ne_nil_of_right_ne_nil _ (by simp))
    | keep before' usable' =>
      obtain ⟨rfl, hf⟩ := List.append_inj' hfixes rfl
      rw [← ih before', ← hf] at usable'
      exact absurd usable' hunusable
    | drop before' =>
      obtain ⟨rfl, -⟩ := List.append_inj' hfixes rfl
      exact ih before'

end Scanned

/-- The fixes in front are done with, `kept` of them are kept. -/
theorem scanned_keepUsable {rest : List Fix} (h : Scanned lint text front kept)
    (hcompatible : Compatible (front ++ rest)) :
    Scanned lint text (front ++ rest) (keepUsable lint text kept rest) := by
  induction rest generalizing front kept with
  | nil => rwa [List.append_nil]
  | cons f fs ih =>
    rw [← List.singleton_append, ← List.append_assoc] at hcompatible ⊢
    have hsub : (kept ++ [f]).Sublist (front ++ [f] ++ fs) :=
      (h.sublist.append_right [f]).trans (List.sublist_append_left _ _)
    have husable : (attempt? lint text (kept ++ [f])).isSome ↔ Usable lint text (kept ++ [f]) :=
      isSome_attempt?_iff (hcompatible.sublist hsub)
    rw [List.singleton_append, keepUsable]
    split
    · rename_i hsome
      exact ih (.keep h (husable.mp hsome)) hcompatible
    · rename_i hnone
      exact ih (.drop h fun hkeep => hnone (husable.mpr hkeep)) hcompatible

/-! ## The round -/

/-- A round without a usable combination takes the fixes kept one at a time. -/
theorem exists_scanned (h : Compatible fixes) (hall : ¬ Usable lint text fixes) :
    ∃ kept, Scanned lint text fixes kept ∧ (kept = [] ∧ round? lint text fixes = none
      ∨ ∃ next violations, LeadsTo lint text kept next violations
          ∧ round? lint text fixes = some ⟨next, violations, kept⟩) := by
  have hscanned : Scanned lint text ([] ++ fixes) (keepUsable lint text [] fixes) :=
    scanned_keepUsable .nil h
  have hnone : attempt? lint text fixes = none := (attempt?_eq_none_iff h).mpr hall
  refine ⟨keepUsable lint text [] fixes, hscanned, ?_⟩
  rcases hscanned.usable with hnil | ⟨next, violations, hleads⟩
  · left
    refine ⟨hnil, ?_⟩
    simp only [round?, hnone, hnil]
  · right
    have hattempt : attempt? lint text (keepUsable lint text [] fixes) =
        some ⟨next, violations, keepUsable lint text [] fixes⟩ :=
      (attempt?_eq_some_iff_leadsTo (h.sublist hscanned.sublist)).mpr ⟨hleads, rfl⟩
    refine ⟨next, violations, hleads, ?_⟩
    simp only [round?, hnone]
    split
    · rename_i hnil
      rw [hnil] at hattempt
      exact absurd rfl (ne_nil_of_attempt? hattempt)
    · exact hattempt

/-- **One bad fix does not block the others**, whatever the lint. A round gives what all of its
fixes lead to if they are usable together, and else what those lead to that are kept one at a time.
It gives nothing exactly when the fixes are not usable together and none is alone. -/
theorem round?_keeps (lint : Lint) (text : Text) (fixes : List Fix)
    (h : (fixes.flatMap Fix.edits).Pairwise fun a b => a.conflicts b = false) :
    (∀ next violations, LeadsTo lint text fixes next violations →
        round? lint text fixes = some ⟨next, violations, fixes⟩)
      ∧ (¬ Usable lint text fixes →
          ∃ kept, Scanned lint text fixes kept ∧ (kept = [] ∧ round? lint text fixes = none
            ∨ ∃ next violations, LeadsTo lint text kept next violations
                ∧ round? lint text fixes = some ⟨next, violations, kept⟩))
      ∧ (round? lint text fixes = none ↔
          ¬ Usable lint text fixes ∧ ∀ f ∈ fixes, ¬ Usable lint text [f]) := by
  refine ⟨fun next violations hleads => ?_, exists_scanned h, ?_⟩
  · have hattempt : attempt? lint text fixes = some ⟨next, violations, fixes⟩ :=
      (attempt?_eq_some_iff_leadsTo h).mpr ⟨hleads, rfl⟩
    rw [round?, hattempt]
  · rw [round?_eq_none_iff, attempt?_eq_none_iff h]
    refine and_congr_right fun _ => forall₂_congr fun f hf => ?_
    exact attempt?_eq_none_iff (Compatible.sublist h (List.singleton_sublist.mpr hf))

/-- The lint refuses what the first fix gives, so the second one is kept alone. -/
theorem round?_keeps_behind_refused :
    let lint : Lint := fun text => if '!' ∈ text then none else some []
    let bang : Fix := .insert "bang" 0 ['!']
    let upper : Fix := .replace "upper b" 1 2 ['B']
    (([bang, upper].flatMap Fix.edits).Pairwise fun a b => a.conflicts b = false)
      ∧ (∃ kept, Scanned lint ['a', 'b'] [bang, upper] kept
          ∧ (kept = [] ∧ round? lint ['a', 'b'] [bang, upper] = none
            ∨ ∃ next violations, LeadsTo lint ['a', 'b'] kept next violations
                ∧ round? lint ['a', 'b'] [bang, upper] = some ⟨next, violations, kept⟩))
      ∧ round? lint ['a', 'b'] [bang, upper] = some ⟨['a', 'B'], [], [upper]⟩ := by
  intro lint bang upper
  have h : ([bang, upper].flatMap Fix.edits).Pairwise fun a b => a.conflicts b = false := by decide
  have hall : ¬ Usable lint ['a', 'b'] [bang, upper] := by
    rw [← attempt?_eq_none_iff h]
    cbv
  have hround : round? lint ['a', 'b'] [bang, upper] = some ⟨['a', 'B'], [], [upper]⟩ := by cbv
  exact ⟨h, (round?_keeps lint ['a', 'b'] [bang, upper] h).2.1 hall, hround⟩

end SheetLint.Fixing
