import Mathlib.Data.List.Basic
import SheetLint.Violation

/-!
# The order of a report

A report lists violations by line, column and rule name, and keeps those of one rule at one place
in the order in which the rule found them. So the order in which a report is put together shows
nowhere, as long as the findings of each rule stay in theirs.

Results:
* `le_total`, `le_trans`: the order is linear up to ties.
* `sort_eq_of_forall_rule`: what a report lists is decided rule by rule.
* `sort_filter`, `sort_map`: leaving violations out, or changing what the order does not look at,
  is the same in front of the sort and behind it.
-/

namespace SheetLint.Violation

/-! ## The order -/

/-- The order of two violations, said of their places. -/
theorem le_iff {a b : Violation} :
    le a b = true ↔ a.location.line < b.location.line ∨ a.location.line = b.location.line
      ∧ (a.location.column < b.location.column ∨ a.location.column = b.location.column
        ∧ Text.leString a.rule b.rule = true) := by
  unfold le
  by_cases hline : a.location.line = b.location.line
  · by_cases hcolumn : a.location.column = b.location.column
    · simp [hline, hcolumn]
    · simp [hline, hcolumn]
  · simp [hline]

theorem le_total (a b : Violation) : (le a b || le b a) = true := by
  have hrule : Text.leString a.rule b.rule = true ∨ Text.leString b.rule a.rule = true :=
    (Bool.or_eq_true _ _).mp (Text.le_total a.rule.toList b.rule.toList)
  rw [Bool.or_eq_true, le_iff, le_iff]
  rcases hrule with h | h
  · simp only [h, and_true]
    omega
  · simp only [h, and_true]
    omega

theorem le_trans (a b c : Violation) (hab : le a b = true) (hbc : le b c = true) :
    le a c = true := by
  rw [le_iff] at *
  rcases hab with hline | ⟨hline, hcolumn | ⟨hcolumn, hrule⟩⟩
  · omega
  · omega
  · rcases hbc with hline' | ⟨hline', hcolumn' | ⟨hcolumn', hrule'⟩⟩
    · omega
    · omega
    · exact .inr ⟨hline.trans hline', .inr ⟨hcolumn.trans hcolumn', Text.le_trans hrule hrule'⟩⟩

/-- Whether the order leaves two violations in a tie. -/
def ties (a b : Violation) : Bool := le a b && le b a

/-- **Only violations of one rule tie.** -/
theorem rule_eq_of_ties {a b : Violation} (h : a.ties b = true) : b.rule = a.rule := by
  rw [ties, Bool.and_eq_true, le_iff, le_iff] at h
  obtain ⟨hab, hba⟩ := h
  rcases hab with hline | ⟨hline, hcolumn | ⟨hcolumn, hrule⟩⟩
  · omega
  · omega
  · rcases hba with hline' | ⟨-, hcolumn' | ⟨-, hrule'⟩⟩
    · omega
    · omega
    · exact Text.leString_antisymm hrule' hrule

theorem ties_self (a : Violation) : a.ties a = true := by
  have h := le_total a a
  rw [Bool.or_self] at h
  rw [ties, h, Bool.and_self]

/-! ## Sorting -/

variable {vs vs' : List Violation}

theorem pairwise_sort (vs : List Violation) : (sort vs).Pairwise fun a b => le a b = true :=
  List.pairwise_mergeSort le_trans le_total vs

theorem sort_perm (vs : List Violation) : (sort vs).Perm vs := List.mergeSort_perm vs le

/-- Sorting keeps the order among violations that tie. -/
theorem filter_ties_sort (a : Violation) (vs : List Violation) :
    (sort vs).filter a.ties = vs.filter a.ties := by
  have htied : (vs.filter a.ties).Pairwise fun b c => le b c = true := by
    refine List.pairwise_of_forall_mem_list fun b hb c hc => ?_
    have hb := (List.mem_filter.mp hb).2
    have hc := (List.mem_filter.mp hc).2
    rw [ties, Bool.and_eq_true] at hb hc
    exact le_trans b a c hb.2 hc.1
  have hsub : (vs.filter a.ties).Sublist (sort vs) :=
    List.sublist_mergeSort le_trans le_total htied List.filter_sublist
  have hfilter := hsub.filter a.ties
  rw [List.filter_filter] at hfilter
  simp only [Bool.and_self] at hfilter
  exact (hfilter.eq_of_length ((sort_perm vs).filter a.ties).length_eq.symm).symm

/-- Sorted lists are the same when those that tie stand in the same order in both. -/
theorem eq_of_filter_ties (hvs : vs.Pairwise fun a b => le a b = true)
    (hvs' : vs'.Pairwise fun a b => le a b = true)
    (h : ∀ a : Violation, vs.filter a.ties = vs'.filter a.ties) : vs = vs' := by
  induction vs generalizing vs' with
  | nil =>
    cases vs' with
    | nil => rfl
    | cons b bs =>
      have hb := h b
      rw [List.filter_cons_of_pos (ties_self b)] at hb
      cases hb
  | cons a as ih =>
    cases vs' with
    | nil =>
      have ha := h a
      rw [List.filter_cons_of_pos (ties_self a)] at ha
      cases ha
    | cons b bs =>
      rw [List.pairwise_cons] at hvs hvs'
      -- each of the two first ones occurs in the other list, so neither comes behind the other
      have ha : a ∈ b :: bs := by
        have hmem : a ∈ (a :: as).filter a.ties := by simp [ties_self]
        rw [h a] at hmem
        exact (List.mem_filter.mp hmem).1
      have hb : b ∈ a :: as := by
        have hmem : b ∈ (b :: bs).filter b.ties := by simp [ties_self]
        rw [← h b] at hmem
        exact (List.mem_filter.mp hmem).1
      have hba : le b a = true := by
        rcases List.mem_cons.mp ha with rfl | hmem
        · simpa using le_total a a
        · exact hvs'.1 a hmem
      have hab : le a b = true := by
        rcases List.mem_cons.mp hb with rfl | hmem
        · simpa using le_total b b
        · exact hvs.1 b hmem
      have hties : a.ties b = true := by rw [ties, hab, hba, Bool.and_self]
      have hfirst := h a
      rw [List.filter_cons_of_pos (ties_self a), List.filter_cons_of_pos hties,
        List.cons.injEq] at hfirst
      obtain ⟨rfl, -⟩ := hfirst
      rw [ih hvs.2 hvs'.2 fun c => ?_]
      have hc := h c
      by_cases hca : c.ties a = true
      · rw [List.filter_cons_of_pos hca, List.filter_cons_of_pos hca] at hc
        exact (List.cons.inj hc).2
      · rwa [List.filter_cons_of_neg hca, List.filter_cons_of_neg hca] at hc

/-- Lists sort to the same when those that tie stand in the same order in both. -/
theorem sort_eq_of_filter_ties (h : ∀ a : Violation, vs.filter a.ties = vs'.filter a.ties) :
    sort vs = sort vs' := by
  refine eq_of_filter_ties (pairwise_sort vs) (pairwise_sort vs') fun a => ?_
  rw [filter_ties_sort, filter_ties_sort, h]

/-- **What a report lists is decided rule by rule.** -/
theorem sort_eq_of_forall_rule
    (h : ∀ rule, (vs.filter fun v => v.rule = rule) = vs'.filter fun v => v.rule = rule) :
    sort vs = sort vs' := by
  refine sort_eq_of_filter_ties fun a => ?_
  have hinside (l : List Violation) :
      (l.filter fun v => v.rule = a.rule).filter a.ties = l.filter a.ties := by
    rw [List.filter_filter]
    refine List.filter_congr fun v _ => ?_
    by_cases hties : a.ties v = true
    · simp [hties, rule_eq_of_ties hties]
    · simp [hties]
  rw [← hinside, h, hinside]

/-- **Leaving violations out** is the same in front of the sort and behind it. -/
theorem sort_filter (keep : Violation → Bool) (vs : List Violation) :
    sort (vs.filter keep) = (sort vs).filter keep := by
  refine eq_of_filter_ties (pairwise_sort _) ((pairwise_sort vs).filter keep) fun a => ?_
  rw [filter_ties_sort, List.filter_comm, List.filter_comm (l := sort vs), filter_ties_sort]

/-- **Changing what the order does not look at** is the same in front of the sort and behind it. -/
theorem sort_map {change : Violation → Violation}
    (hchange : ∀ v, (change v).location = v.location ∧ (change v).rule = v.rule)
    (vs : List Violation) : sort (vs.map change) = (sort vs).map change := by
  refine (List.map_mergeSort fun a _ b _ => ?_).symm
  simp only [le, (hchange a).1, (hchange a).2, (hchange b).1, (hchange b).2]

end SheetLint.Violation
