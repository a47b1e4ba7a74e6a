import SheetLint.Fixing

/-!
# What one round does

A list of fixes is *usable* on a text when its edits fit, change the text, and give one that the
lint accepts. A round takes the whole selection if it is usable and else the fixes kept one at a
time, which stay usable together.

Results:
* `select_eq_nil_iff`: nothing is selected exactly when no violation carries a fix.
* `attempt?_eq_some_iff`: what a usable list of fixes gives.
* `Step.of_round?`: the fixes of a round are some of the selected ones, and their edits lead from
  one text to the next.
* `round?_eq_none_iff`: there is no round exactly when neither the selection nor a single fix of it
  is usable.
-/

namespace SheetLint.Fixing

/-! ## Selections -/

theorem takeCompatible_prefix (taken fixes : List Fix) : taken <+: takeCompatible taken fixes := by
  induction fixes generalizing taken with
  | nil => exact List.prefix_rfl
  | cons f fs ih =>
    rw [takeCompatible]
    split
    · exact ih taken
    · exact (List.prefix_append taken [f]).trans (ih _)

/-- The first fix conflicts with nothing, so it is taken. -/
theorem takeCompatible_nil_eq_nil_iff {fixes : List Fix} : takeCompatible [] fixes = [] ↔ fixes = [] := by
  constructor
  · intro h
    cases fixes with
    | nil => rfl
    | cons f fs =>
      have hprefix : [f] <+: takeCompatible [] (f :: fs) := takeCompatible_prefix [f] fs
      rw [h] at hprefix
      exact absurd (List.prefix_nil.mp hprefix) (List.cons_ne_nil f [])
  · rintro rfl
    rfl

theorem takeCompatible_subset (taken fixes : List Fix) :
    takeCompatible taken fixes ⊆ taken ++ fixes := by
  induction fixes generalizing taken with
  | nil => simp [takeCompatible]
  | cons f fs ih =>
    rw [takeCompatible]
    refine List.Subset.trans (ih _) ?_
    split <;> simp

/-- Fixes are taken that conflict with none of those before them. -/
theorem pairwise_takeCompatible {taken : List Fix}
    (h : taken.Pairwise fun f g => f.conflicts g = false) (fixes : List Fix) :
    (takeCompatible taken fixes).Pairwise fun f g => f.conflicts g = false := by
  induction fixes generalizing taken with
  | nil => exact h
  | cons f fs ih =>
    rw [takeCompatible]
    split
    · exact ih h
    · rename_i hfree
      rw [Bool.not_eq_true, List.any_eq_false] at hfree
      refine ih (List.pairwise_append.mpr ⟨h, List.pairwise_singleton _ f, fun g hg x hx => ?_⟩)
      rw [List.mem_singleton.mp hx]
      exact Bool.eq_false_iff.mpr (hfree g hg)

/-- **The fixes of a round do not conflict.** -/
theorem pairwise_select (vs : List Violation) :
    (select vs).Pairwise fun f g => f.conflicts g = false :=
  pairwise_takeCompatible List.Pairwise.nil _

/-- The fixes of a round come from violations. -/
theorem exists_of_mem_select {vs : List Violation} {f : Fix} (h : f ∈ select vs) :
    ∃ v ∈ vs, v.fix = some f := by
  have hcandidate : f ∈ candidates vs := by simpa using takeCompatible_subset [] _ h
  obtain ⟨c, hc, rfl⟩ := List.mem_map.mp hcandidate
  obtain ⟨v, hv, hfix⟩ := List.mem_filterMap.mp ((List.mergeSort_perm _ _).subset hc)
  obtain ⟨g, hg, rfl⟩ := Option.map_eq_some_iff.mp hfix
  exact ⟨v, hv, hg⟩

/-- **Nothing is selected exactly when no violation carries a fix.** -/
theorem select_eq_nil_iff {vs : List Violation} : select vs = [] ↔ ∀ v ∈ vs, v.fix = none := by
  unfold select
  rw [takeCompatible_nil_eq_nil_iff]
  unfold candidates
  rw [List.map_eq_nil_iff, ← List.length_eq_zero_iff, List.length_mergeSort, List.length_eq_zero_iff,
    List.filterMap_eq_nil_iff]
  simp

/-- The only fix there is is selected. -/
theorem select_singleton {v : Violation} {f : Fix} (h : v.fix = some f) : select [v] = [f] := by
  unfold select candidates
  rw [List.filterMap_cons, h, Option.map_some, List.filterMap_nil, List.mergeSort_singleton]
  rfl

/-- One edit replaces the text between its ends. -/
theorem applyAll?_singleton (front old back new : Text) :
    Edit.applyAll? (front ++ old ++ back) [⟨front.size, front.size + old.size, new⟩] =
      some (front ++ new ++ back) := by
  have hstart : Text.cut? front.size (front ++ old ++ back) = some (front, old ++ back) := by
    rw [List.append_assoc]
    exact Text.cut?_append front (old ++ back)
  have hstop : Text.cut? (front.size + old.size) (front ++ old ++ back) =
      some (front ++ old, back) := by
    rw [← Text.size_append]
    exact Text.cut?_append (front ++ old) back
  have hfits : Edit.fits (front ++ old ++ back) ⟨front.size, front.size + old.size, new⟩ = true := by
    simp only [Edit.fits, Text.isBoundary, hstart, hstop, Option.isSome_some, Bool.and_true,
      decide_eq_true_eq]
    exact Nat.le_add_right _ _
  have hreplace : Edit.replaceIn? (front ++ old ++ back) ⟨front.size, front.size + old.size, new⟩ =
      some (front ++ new ++ back) := by
    simp [-List.append_assoc, Edit.replaceIn?, hstart, Text.cut?_append]
  rw [Edit.applyAll?, List.mergeSort_singleton, List.all_cons, hfits]
  simp only [List.all_nil, Bool.and_true, if_true, Edit.applyInTurn?, hreplace, Option.bind_some]

/-! ## Usable fixes -/

variable {lint : Lint} {text : Text} {fixes kept : List Fix} {r : Round}

/-- **What a usable list of fixes gives**: another text, got by applying the edits, with the
violations that the lint finds in it. -/
theorem attempt?_eq_some_iff :
    attempt? lint text fixes = some r ↔
      Edit.applyAll? text (fixes.flatMap Fix.edits) = some r.text ∧ r.text ≠ text
        ∧ lint r.text = some r.violations ∧ r.fixes = fixes := by
  obtain ⟨next, violations, used⟩ := r
  unfold attempt? changed?
  cases happly : Edit.applyAll? text (fixes.flatMap Fix.edits) with
  | none => simp
  | some t =>
    by_cases hsame : t = text
    · simp only [hsame, if_true, Option.bind_eq_bind, Option.bind_none]
      constructor
      · intro h
        cases h
      · rintro ⟨heq, hne, -⟩
        exact absurd (Option.some.inj heq).symm hne
    · cases hlint : lint t with
      | none =>
        simp only [hsame, if_false, Option.bind_eq_bind, Option.bind_some, hlint, Option.bind_none]
        constructor
        · intro h
          cases h
        · rintro ⟨heq, -, haccept, -⟩
          rw [← Option.some.inj heq, hlint] at haccept
          cases haccept
      | some vs =>
        simp only [hsame, if_false, Option.bind_eq_bind, Option.bind_some, hlint,
          Option.pure_def, Option.some.injEq, Round.mk.injEq]
        constructor
        · rintro ⟨rfl, rfl, rfl⟩
          exact ⟨rfl, hsame, hlint, rfl⟩
        · rintro ⟨rfl, -, haccept, rfl⟩
          exact ⟨rfl, Option.some.inj (hlint.symm.trans haccept), rfl⟩

/-- Without fixes the text stays as it is, and that does not count as a round. -/
theorem ne_nil_of_attempt? (h : attempt? lint text fixes = some r) : fixes ≠ [] := by
  rintro rfl
  obtain ⟨happly, hne, -⟩ := attempt?_eq_some_iff.mp h
  have hsame : Edit.applyAll? text ([].flatMap Fix.edits) = some text := by
    simp [Edit.applyAll?, Edit.applyInTurn?]
  exact hne (Option.some.inj (happly.symm.trans hsame))

/-! ## Fixes kept one at a time -/

theorem keepUsable_prefix (kept fixes : List Fix) : kept <+: keepUsable lint text kept fixes := by
  induction fixes generalizing kept with
  | nil => exact List.prefix_rfl
  | cons f fs ih =>
    rw [keepUsable]
    split
    · exact (List.prefix_append kept [f]).trans (ih _)
    · exact ih kept

theorem keepUsable_sublist (kept fixes : List Fix) :
    (keepUsable lint text kept fixes).Sublist (kept ++ fixes) := by
  induction fixes generalizing kept with
  | nil => simp [keepUsable]
  | cons f fs ih =>
    rw [keepUsable]
    split
    · have := ih (kept ++ [f])
      rwa [List.append_assoc, List.singleton_append] at this
    · exact (ih kept).trans ((List.sublist_cons_self f fs).append_left kept)

/-- The fixes kept are usable together, if those kept before are. -/
theorem isSome_attempt?_keepUsable (fixes : List Fix)
    (h : kept = [] ∨ (attempt? lint text kept).isSome) :
    keepUsable lint text kept fixes = []
      ∨ (attempt? lint text (keepUsable lint text kept fixes)).isSome := by
  induction fixes generalizing kept with
  | nil => exact h
  | cons f fs ih =>
    rw [keepUsable]
    split
    · rename_i hf
      exact ih (Or.inr hf)
    · exact ih h

/-- No fix is kept exactly when none is usable alone. -/
theorem keepUsable_nil_eq_nil_iff :
    keepUsable lint text [] fixes = [] ↔ ∀ f ∈ fixes, attempt? lint text [f] = none := by
  induction fixes with
  | nil => simp [keepUsable]
  | cons f fs ih =>
    rw [keepUsable, List.nil_append, List.forall_mem_cons]
    split
    · rename_i hf
      constructor
      · intro h
        have hprefix : [f] <+: keepUsable lint text [f] fs := keepUsable_prefix [f] fs
        rw [h] at hprefix
        exact absurd (List.prefix_nil.mp hprefix) (List.cons_ne_nil f [])
      · rintro ⟨hnone, -⟩
        rw [hnone] at hf
        cases hf
    · rename_i hf
      rw [ih]
      exact ⟨fun h => ⟨by simpa using hf, h⟩, fun h => h.2⟩

/-! ## The round -/

/-- What leads from a text with these violations to the next: the edits of some of the selected
fixes, applied together, give a text that the lint accepts. -/
structure Step (lint : Lint) (text : Text) (violations : List Violation) (r : Round) : Prop where
  fixes_ne_nil : r.fixes ≠ []
  fixes_sublist : r.fixes.Sublist (select violations)
  applied : Edit.applyAll? text (r.fixes.flatMap Fix.edits) = some r.text
  changed : r.text ≠ text
  accepted : lint r.text = some r.violations

/-- The fixes of a round are some of those it is given, and they are usable together. -/
theorem sublist_and_attempt?_of_round? (h : round? lint text fixes = some r) :
    r.fixes.Sublist fixes ∧ attempt? lint text r.fixes = some r := by
  unfold round? at h
  split at h
  · rename_i all hall
    cases h
    rw [(attempt?_eq_some_iff.mp hall).2.2.2]
    exact ⟨List.Sublist.refl fixes, hall⟩
  · split at h
    · cases h
    · rw [(attempt?_eq_some_iff.mp h).2.2.2]
      have hkept : (keepUsable lint text [] fixes).Sublist ([] ++ fixes) :=
        keepUsable_sublist [] fixes
      exact ⟨hkept, h⟩

/-- **A round is a step** from a text with the violations whose fixes it selects. -/
theorem Step.of_round? {violations : List Violation}
    (h : round? lint text (select violations) = some r) : Step lint text violations r := by
  obtain ⟨hsub, hattempt⟩ := sublist_and_attempt?_of_round? h
  obtain ⟨happly, hne, haccept, -⟩ := attempt?_eq_some_iff.mp hattempt
  exact ⟨ne_nil_of_attempt? hattempt, hsub, happly, hne, haccept⟩

/-- **There is no round exactly when nothing is usable**, neither all fixes together nor one of
them alone. -/
theorem round?_eq_none_iff :
    round? lint text fixes = none ↔
      attempt? lint text fixes = none ∧ ∀ f ∈ fixes, attempt? lint text [f] = none := by
  unfold round?
  constructor
  · intro h
    split at h
    · cases h
    · rename_i hall
      refine ⟨hall, keepUsable_nil_eq_nil_iff.mp ?_⟩
      split at h
      · assumption
      · have hkept : keepUsable lint text [] fixes = []
            ∨ (attempt? lint text (keepUsable lint text [] fixes)).isSome :=
          isSome_attempt?_keepUsable fixes (Or.inl rfl)
        rcases hkept with hnil | hsome
        · exact hnil
        · rw [h] at hsome
          cases hsome
  · rintro ⟨hall, hsingle⟩
    rw [hall, keepUsable_nil_eq_nil_iff.mpr hsingle]

end SheetLint.Fixing
