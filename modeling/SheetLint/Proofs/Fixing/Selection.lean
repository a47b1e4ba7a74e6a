import Mathlib
import SheetLint.Proofs.Fixing.Round
import SheetLint.Proofs.Text.Bytes

/-!
# The selection is greedy

The fixes of a round are picked in one order: those further left first, then the shorter ones, then
by the name of the rule, and at last by the violation that they come from. A fix is picked exactly
when it conflicts with none picked before it, and no other list of picks is of that kind.

Results:
* `pairwise_ordered`: the sort puts the fixes of a report in this order, ties included.
* `exists_takeCompatible_map`: what is taken, and what keeps the rest from being taken.
* `IsGreedy.unique`: being greedy decides the picks.
* `select_isGreedy`: the selection is greedy, whatever the violations.
-/

namespace SheetLint.Fixing

/-! ## The order of preference -/

/-- The order of two candidates, said of their fixes and of the bytes of the rules' names. -/
theorem Candidate.le_iff {a b : Candidate} :
    a.le b = true ↔ a.fix.start < b.fix.start ∨ a.fix.start = b.fix.start
      ∧ (a.fix.length < b.fix.length ∨ a.fix.length = b.fix.length
        ∧ Text.bytes a.rule.toList ≤ Text.bytes b.rule.toList) := by
  rw [← Text.le_iff_bytes]
  unfold Candidate.le Text.leString
  by_cases hstart : a.fix.start = b.fix.start
  · by_cases hlength : a.fix.length = b.fix.length
    · simp [hstart, hlength]
    · simp [hstart, hlength]
  · simp [hstart]

theorem Candidate.le_total (a b : Candidate) : (a.le b || b.le a) = true := by
  have hrule := List.le_total (Text.bytes a.rule.toList) (Text.bytes b.rule.toList)
  rw [Bool.or_eq_true, le_iff, le_iff]
  rcases hrule with h | h
  · simp only [h, and_true]
    omega
  · simp only [h, and_true]
    omega

theorem Candidate.le_trans (a b c : Candidate) (hab : a.le b = true) (hbc : b.le c = true) :
    a.le c = true := by
  rw [le_iff] at *
  rcases hab with hstart | ⟨hstart, hlength | ⟨hlength, hrule⟩⟩
  · omega
  · omega
  · rcases hbc with hstart' | ⟨hstart', hlength' | ⟨hlength', hrule'⟩⟩
    · omega
    · omega
    · exact .inr ⟨hstart.trans hstart', .inr ⟨hlength.trans hlength', List.le_trans hrule hrule'⟩⟩

/-- A fix with the index of the violation that it comes from. -/
structure Offer extends Candidate where
  index : Nat

namespace Offer

/-- Whether the violation at the index carries the fix. -/
def IsFrom (a : Offer) (vs : List Violation) : Prop :=
  ∃ v, vs[a.index]? = some v ∧ v.rule = a.rule ∧ v.fix = some a.fix

/-- Order of preference. Fixes that start together and are of one length are in the order of their
rules' names, byte by byte, and those of one rule in the order of their violations. -/
def Precedes (a b : Offer) : Prop :=
  a.fix.start < b.fix.start ∨ a.fix.start = b.fix.start
    ∧ (a.fix.length < b.fix.length ∨ a.fix.length = b.fix.length
      ∧ (Text.bytes a.rule.toList < Text.bytes b.rule.toList ∨ a.rule = b.rule
        ∧ a.index < b.index))

variable {a b c : Offer} {vs : List Violation}

/-- The index alone decides between offers that the candidates' order leaves in a tie. -/
theorem precedes_of_le (h : a.toCandidate.le b.toCandidate = true)
    (htie : b.toCandidate.le a.toCandidate = true → a.index < b.index) : a.Precedes b := by
  rcases Candidate.le_iff.mp h with hstart | ⟨hstart, hlength | ⟨hlength, hrule⟩⟩
  · exact .inl hstart
  · exact .inr ⟨hstart, .inl hlength⟩
  · refine .inr ⟨hstart, .inr ⟨hlength, ?_⟩⟩
    by_cases hback : Text.bytes b.rule.toList ≤ Text.bytes a.rule.toList
    · have hname : a.rule = b.rule := Text.leString_antisymm
        ((Text.le_iff_bytes _ _).mpr hrule) ((Text.le_iff_bytes _ _).mpr hback)
      have hle : b.toCandidate.le a.toCandidate = true :=
        Candidate.le_iff.mpr (.inr ⟨hstart.symm, .inr ⟨hlength.symm, hback⟩⟩)
      exact .inr ⟨hname, htie hle⟩
    · exact .inl (List.not_le.mp hback)

theorem Precedes.asymm (hab : a.Precedes b) : ¬ b.Precedes a := by
  intro hba
  rcases hab with hstart | ⟨hstart, hlength | ⟨hlength, hrule⟩⟩
  · rcases hba with hstart' | ⟨hstart', -⟩ <;> omega
  · rcases hba with hstart' | ⟨-, hlength' | ⟨hlength', -⟩⟩ <;> omega
  · rcases hba with hstart' | ⟨-, hlength' | ⟨-, hrule'⟩⟩
    · omega
    · omega
    · rcases hrule with hrule | ⟨hrule, hindex⟩
      · rcases hrule' with hrule' | ⟨hrule', -⟩
        · exact List.lt_asymm hrule hrule'
        · rw [hrule'] at hrule
          exact List.lt_irrefl _ hrule
      · rcases hrule' with hrule' | ⟨-, hindex'⟩
        · rw [hrule] at hrule'
          exact List.lt_irrefl _ hrule'
        · omega

theorem Precedes.ne (h : a.Precedes b) : a ≠ b := by
  rintro rfl
  exact h.asymm h

end Offer

/-! ## All fixes in order -/

/-- The fixes of the violations with the indices of these. -/
def offers (vs : List Violation) : List Offer :=
  vs.zipIdx.filterMap fun (v, i) => v.fix.map fun f => ⟨⟨v.rule, f⟩, i⟩

/-- The fixes of the violations in the order of preference. -/
def ordered (vs : List Violation) : List Offer :=
  (offers vs).mergeSort fun a b => a.toCandidate.le b.toCandidate

variable {vs : List Violation} {a b : Offer} {picks picks' : List Offer}

theorem mem_offers_iff : a ∈ offers vs ↔ a.IsFrom vs := by
  simp only [offers, List.mem_filterMap, Option.map_eq_some_iff, Offer.IsFrom, Prod.exists,
    List.mk_mem_zipIdx_iff_getElem?]
  constructor
  · rintro ⟨v, i, hv, f, hf, rfl⟩
    exact ⟨v, hv, rfl, hf⟩
  · rintro ⟨v, hv, hrule, hf⟩
    exact ⟨v, a.index, hv, a.fix, hf, by rw [hrule]⟩

theorem mem_ordered_iff : a ∈ ordered vs ↔ a.IsFrom vs := by
  rw [ordered, List.mem_mergeSort, mem_offers_iff]

/-- The offers are listed in the order of the violations. -/
theorem pairwise_offers (vs : List Violation) :
    (offers vs).Pairwise fun a b => a.index < b.index := by
  have hindex : vs.zipIdx.Pairwise fun x y => x.2 < y.2 := by
    rw [← List.pairwise_map, List.zipIdx_map_snd]
    exact List.pairwise_lt_range'
  refine List.pairwise_filterMap.mpr (hindex.imp fun hxy a ha b hb => ?_)
  obtain ⟨f, -, rfl⟩ := Option.map_eq_some_iff.mp ha
  obtain ⟨g, -, rfl⟩ := Option.map_eq_some_iff.mp hb
  exact hxy

theorem candidates_eq (vs : List Violation) : candidates vs = (ordered vs).map (·.fix) := by
  have hforget : (offers vs).map Offer.toCandidate =
      vs.filterMap fun v => v.fix.map (Candidate.mk v.rule) := by
    have hfst : vs = vs.zipIdx.map Prod.fst := (List.zipIdx_map_fst 0 vs).symm
    conv_rhs => rw [hfst, List.filterMap_map]
    rw [offers, List.map_filterMap]
    refine List.filterMap_congr fun x _ => ?_
    simp [Function.comp_def]
  have hsort : (ordered vs).map Offer.toCandidate =
      ((offers vs).map Offer.toCandidate).mergeSort Candidate.le :=
    List.map_mergeSort fun _ _ _ _ => rfl
  rw [candidates, ← hforget, ← hsort, List.map_map]
  rfl

theorem pairwise_le_ordered (vs : List Violation) :
    (ordered vs).Pairwise fun a b => a.toCandidate.le b.toCandidate = true :=
  List.pairwise_mergeSort (fun a b c => Candidate.le_trans a.toCandidate b.toCandidate c.toCandidate)
    (fun a b => Candidate.le_total a.toCandidate b.toCandidate) (offers vs)

/-- Sorting keeps the order among offers that the candidates' order leaves in a tie. -/
theorem index_lt_of_tied (h : [a, b].Sublist (ordered vs))
    (hab : a.toCandidate.le b.toCandidate = true) (hba : b.toCandidate.le a.toCandidate = true) :
    a.index < b.index := by
  let tied (x : Offer) : Bool := x.toCandidate.le a.toCandidate && a.toCandidate.le x.toCandidate
  have htied : ((offers vs).filter tied).Pairwise fun x y => x.toCandidate.le y.toCandidate = true := by
    refine List.pairwise_of_forall_mem_list fun x hx y hy => ?_
    have hx := (List.mem_filter.mp hx).2
    have hy := (List.mem_filter.mp hy).2
    rw [Bool.and_eq_true] at hx hy
    exact Candidate.le_trans _ _ _ hx.1 hy.2
  have hsub : ((offers vs).filter tied).Sublist ((ordered vs).filter tied) := by
    have hsorted : (((offers vs).filter tied).filter tied).Sublist ((ordered vs).filter tied) :=
      (List.sublist_mergeSort
        (fun a b c => Candidate.le_trans a.toCandidate b.toCandidate c.toCandidate)
        (fun a b => Candidate.le_total a.toCandidate b.toCandidate) htied
        List.filter_sublist).filter tied
    rwa [List.filter_filter, funext fun x => Bool.and_self (tied x)] at hsorted
  have hperm : (ordered vs).Perm (offers vs) := List.mergeSort_perm _ _
  have hsame : (offers vs).filter tied = (ordered vs).filter tied :=
    hsub.eq_of_length (hperm.filter tied).length_eq.symm
  have hpair : [a, b].Sublist ((offers vs).filter tied) := by
    have haa : tied a = true := by
      have hself := Candidate.le_total a.toCandidate a.toCandidate
      rwa [Bool.or_self, ← Bool.and_self (a.toCandidate.le a.toCandidate)] at hself
    have hbb : tied b = true := by simp only [tied, hab, hba, Bool.and_self]
    have hfilter := h.filter tied
    rwa [List.filter_cons_of_pos haa, List.filter_cons_of_pos hbb, List.filter_nil, ← hsame]
      at hfilter
  have hlt := ((pairwise_offers vs).sublist List.filter_sublist).sublist hpair
  exact List.pairwise_iff_forall_sublist.mp hlt (List.Sublist.refl _)

/-- **The fixes of a report in the order of preference.** -/
theorem pairwise_ordered (vs : List Violation) : (ordered vs).Pairwise Offer.Precedes := by
  have hle := pairwise_le_ordered vs
  rw [List.pairwise_iff_forall_sublist] at hle ⊢
  exact fun h => Offer.precedes_of_le (hle h) (index_lt_of_tied h (hle h))

/-! ## Picking -/

/-- Which offers are picked if they are taken in order and none is that conflicts with one taken
before. -/
structure IsGreedy (vs : List Violation) (picks : List Offer) : Prop where
  /-- Each pick is the fix of a violation. -/
  isFrom : ∀ a ∈ picks, a.IsFrom vs
  ascending : picks.Pairwise Offer.Precedes
  apart : picks.Pairwise fun a b => a.fix.conflicts b.fix = false
  /-- A fix that is not picked conflicts with a pick that precedes it. -/
  maximal : ∀ b : Offer, b.IsFrom vs → b ∉ picks →
    ∃ a ∈ picks, a.Precedes b ∧ a.fix.conflicts b.fix = true

/-- **What is taken from a list in order**, and what keeps the rest from being taken: a conflict
with something taken before. -/
theorem exists_takeCompatible_map {taken offers : List Offer}
    (h : (taken ++ offers).Pairwise Offer.Precedes) :
    ∃ picks, picks.Sublist offers
      ∧ takeCompatible (taken.map (·.fix)) (offers.map (·.fix)) = (taken ++ picks).map (·.fix)
      ∧ ∀ b ∈ offers, b ∉ picks →
          ∃ a ∈ taken ++ picks, a.Precedes b ∧ a.fix.conflicts b.fix = true := by
  induction offers generalizing taken with
  | nil => exact ⟨[], .slnil, by simp [takeCompatible], by simp⟩
  | cons x xs ih =>
    rw [List.map_cons, takeCompatible, List.any_map]
    split
    · -- the fix conflicts with one taken before
      rename_i hany
      obtain ⟨a, ha, hconflict⟩ := List.any_eq_true.mp hany
      have hrest : (taken ++ xs).Pairwise Offer.Precedes :=
        h.sublist ((List.sublist_cons_self x xs).append_left taken)
      obtain ⟨picks, hsub, htake, hblocked⟩ := ih hrest
      refine ⟨picks, hsub.cons x, htake, fun b hb hnot => ?_⟩
      rcases List.mem_cons.mp hb with rfl | hb
      · have hbefore := (List.pairwise_append.mp h).2.2 a ha b List.mem_cons_self
        exact ⟨a, List.mem_append_left picks ha, hbefore, hconflict⟩
      · exact hblocked b hb hnot
    · have hrest : ((taken ++ [x]) ++ xs).Pairwise Offer.Precedes := by
        rwa [List.append_assoc, List.singleton_append]
      obtain ⟨picks, hsub, htake, hblocked⟩ := ih hrest
      rw [List.append_assoc, List.singleton_append] at htake hblocked
      refine ⟨x :: picks, hsub.cons_cons x, ?_, fun b hb hnot => ?_⟩
      · rwa [List.map_append, List.map_singleton] at htake
      · rw [List.mem_cons, not_or] at hnot
        exact hblocked b (List.mem_of_ne_of_mem hnot.1 hb) hnot.2

namespace IsGreedy

/-- A pick does not conflict with one that it precedes. -/
theorem conflicts_eq_false (h : IsGreedy vs picks) (ha : a ∈ picks) (hb : b ∈ picks)
    (hab : a.Precedes b) : a.fix.conflicts b.fix = false := by
  obtain ⟨i, hi, rfl⟩ := List.mem_iff_getElem.mp ha
  obtain ⟨j, hj, rfl⟩ := List.mem_iff_getElem.mp hb
  have hascending := List.pairwise_iff_getElem.mp h.ascending
  rcases Nat.lt_trichotomy i j with hij | rfl | hij
  · exact List.pairwise_iff_getElem.mp h.apart i j hi hj hij
  · exact absurd rfl hab.ne
  · exact absurd (hascending j i hj hi hij) hab.asymm

/-- Of two greedy lists one picks what the other does, if both pick the same before it. -/
theorem mem_of_forall (h : IsGreedy vs picks) (h' : IsGreedy vs picks') (hb : b ∈ picks)
    (hbefore : ∀ a : Offer, a.IsFrom vs → a.Precedes b → a ∈ picks' → a ∈ picks) :
    b ∈ picks' := by
  by_contra hnot
  obtain ⟨a, ha, hab, hconflict⟩ := h'.maximal b (h.isFrom b hb) hnot
  have hmem : a ∈ picks := hbefore a (h'.isFrom a ha) hab ha
  rw [h.conflicts_eq_false hmem hb hab] at hconflict
  cases hconflict

/-- Two greedy lists pick the same, by induction along the order. -/
theorem getElem_mem_iff (h : IsGreedy vs picks) (h' : IsGreedy vs picks') (i : Nat)
    (hi : i < (ordered vs).length) : (ordered vs)[i] ∈ picks ↔ (ordered vs)[i] ∈ picks' := by
  induction i using Nat.strong_induction_on with
  | h i ih =>
    have hbefore : ∀ a : Offer, a.IsFrom vs → a.Precedes (ordered vs)[i] →
        (a ∈ picks ↔ a ∈ picks') := by
      intro a ha hprecedes
      obtain ⟨j, hj, rfl⟩ := List.mem_iff_getElem.mp (mem_ordered_iff.mpr ha)
      have hascending := List.pairwise_iff_getElem.mp (pairwise_ordered vs)
      rcases Nat.lt_trichotomy j i with hji | rfl | hji
      · exact ih j hji hj
      · exact absurd rfl hprecedes.ne
      · exact absurd (hascending i j hi hj hji) hprecedes.asymm
    exact ⟨fun hmem => h.mem_of_forall h' hmem fun a ha hab => (hbefore a ha hab).mpr,
      fun hmem => h'.mem_of_forall h hmem fun a ha hab => (hbefore a ha hab).mp⟩

theorem nodup (h : IsGreedy vs picks) : picks.Nodup := h.ascending.imp Offer.Precedes.ne

/-- **Being greedy decides the picks**, and their order. -/
theorem unique (h : IsGreedy vs picks) (h' : IsGreedy vs picks') : picks = picks' := by
  have hsame : ∀ a, a ∈ picks ↔ a ∈ picks' := by
    intro a
    by_cases ha : a.IsFrom vs
    · obtain ⟨i, hi, rfl⟩ := List.mem_iff_getElem.mp (mem_ordered_iff.mpr ha)
      exact h.getElem_mem_iff h' i hi
    · exact iff_of_false (fun hmem => ha (h.isFrom a hmem)) fun hmem => ha (h'.isFrom a hmem)
  have hperm : picks.Perm picks' := (List.perm_ext_iff_of_nodup h.nodup h'.nodup).mpr hsame
  exact List.Perm.eq_of_pairwise (fun a b _ _ hab hba => absurd hba hab.asymm)
    h.ascending h'.ascending hperm

end IsGreedy

/-- **The selection is greedy**, whatever the violations: it is made of the only list of picks in
the order of preference that do not conflict and that conflict with each fix left out behind one of
them. It is empty exactly when no violation carries a fix. -/
theorem select_isGreedy (vs : List Violation) :
    (∃ picks, IsGreedy vs picks ∧ (∀ picks', IsGreedy vs picks' → picks' = picks)
        ∧ select vs = picks.map (·.fix))
      ∧ (select vs = [] ↔ ∀ v ∈ vs, v.fix = none) := by
  refine ⟨?_, select_eq_nil_iff⟩
  obtain ⟨picks, hsub, htake, hblocked⟩ :=
    exists_takeCompatible_map (pairwise_ordered vs : ([] ++ ordered vs).Pairwise _)
  rw [List.map_nil, ← candidates_eq, List.nil_append] at htake
  have hgreedy : IsGreedy vs picks :=
    { isFrom := fun a ha => mem_ordered_iff.mp (hsub.subset ha)
      ascending := (pairwise_ordered vs).sublist hsub
      apart := by
        have hapart := pairwise_select vs
        rw [select, htake, List.pairwise_map] at hapart
        exact hapart
      maximal := fun b hb => hblocked b (mem_ordered_iff.mpr hb) }
  exact ⟨picks, hgreedy, fun picks' h' => h'.unique hgreedy, htake⟩

end SheetLint.Fixing
