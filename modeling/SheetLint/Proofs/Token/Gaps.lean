import Mathlib
import SheetLint.Token.Split

/-!
# Runs of tokens by index

A list of tokens can be cut at indices. What is left are the gaps between the cuts, in order, and
every other index lies in exactly one of them. Cutting a run of tokens while walking over it comes to
the same as looking for the indices of the separators first and cutting at them.

Results:
* `Tokens.segments_eq_between`: the segments of a run are its gaps at the separators.
* `Tokens.pairwise_gaps`, `Tokens.exists_gap`: gaps stand apart, and all other indices are in one.
* `Tokens.slice_trimmed`, `Tokens.mem_trimmed`: a gap without the trivia around it.
* `Tokens.exists_places`: where the trimmed gaps stand that are not empty.
-/

namespace SheetLint.Tokens

/-- The tokens from one index up to another. -/
def slice (ts : List Token) (i j : Nat) : List Token := (ts.take j).drop i

/-- The indices of the tokens that pass a test, which is told the tokens in front as well. -/
def indicesWhere (test : List Token → Token → Bool) (ts : List Token) : List Nat :=
  (List.range ts.length).filter fun i => ts[i]?.any (test (ts.take i))

/-- The ranges of indices between cuts, from one index up to another. -/
def gaps (start stop : Nat) : List Nat → List (Nat × Nat)
  | [] => [(start, stop)]
  | cut :: cuts => (start, cut) :: gaps (cut + 1) stop cuts

/-- The runs of tokens between cuts. -/
def between (ts : List Token) (cuts : List Nat) : List (List Token) :=
  (gaps 0 ts.length cuts).map fun g => slice ts g.1 g.2

variable {test : List Token → Token → Bool} {t : Token} {ts front run back : List Token}
  {cuts : List Nat} {start stop i : Nat} {g : Nat × Nat}

/-! ## Indices -/

theorem mem_indicesWhere :
    i ∈ indicesWhere test ts ↔ ∃ t, ts[i]? = some t ∧ test (ts.take i) t = true := by
  rw [indicesWhere, List.mem_filter, List.mem_range, Option.any_eq_true]
  refine and_iff_right_of_imp ?_
  rintro ⟨t, ht, -⟩
  exact (List.getElem?_eq_some_iff.mp ht).1

theorem pairwise_indicesWhere (test : List Token → Token → Bool) (ts : List Token) :
    (indicesWhere test ts).Pairwise (· < ·) :=
  List.pairwise_lt_range.filter _

theorem lt_length_of_mem_indicesWhere (h : i ∈ indicesWhere test ts) : i < ts.length :=
  List.mem_range.mp (List.mem_filter.mp h).1

theorem indicesWhere_congr {test' : List Token → Token → Bool}
    (h : ∀ i t, ts[i]? = some t → test (ts.take i) t = test' (ts.take i) t) :
    indicesWhere test ts = indicesWhere test' ts := by
  refine List.filter_congr fun i _ => ?_
  cases ht : ts[i]? with
  | none => rfl
  | some t => exact h i t ht

/-- Behind a first token all indices are one higher. -/
theorem indicesWhere_cons (test : List Token → Token → Bool) (t : Token) (ts : List Token) :
    indicesWhere test (t :: ts) =
      (if test [] t then [0] else []) ++ (indicesWhere (fun front => test (t :: front)) ts).map (· + 1)
    := by
  rw [indicesWhere, List.length_cons, List.range_succ_eq_map, List.filter_cons, List.filter_map]
  have hlater : ((fun i => (t :: ts)[i]?.any (test ((t :: ts).take i))) ∘ Nat.succ) =
      fun i => ts[i]?.any (test (t :: ts.take i)) := by
    funext i
    simp
  rw [hlater]
  by_cases ht : test [] t = true <;> simp [ht, indicesWhere]

/-- Tokens at the end that do not pass leave the indices as they are. -/
theorem indicesWhere_append (h : ∀ i t, back[i]? = some t → test (front ++ back.take i) t = false) :
    indicesWhere test (front ++ back) = indicesWhere test front := by
  rw [indicesWhere, List.length_append, List.range_add, List.filter_append, List.filter_map]
  have hfront : (List.range front.length).filter
      (fun i => (front ++ back)[i]?.any (test ((front ++ back).take i))) = indicesWhere test front := by
    refine List.filter_congr fun i hi => ?_
    have hlt := List.mem_range.mp hi
    rw [List.getElem?_append_left hlt, List.take_append_of_le_length (Nat.le_of_lt hlt)]
  have hback : (List.range back.length).filter
      ((fun i => (front ++ back)[i]?.any (test ((front ++ back).take i))) ∘ (front.length + ·)) = [] := by
    refine List.filter_eq_nil_iff.mpr fun i hi => ?_
    rw [Function.comp_apply, List.getElem?_append_right (Nat.le_add_right _ _),
      Nat.add_sub_cancel_left, List.take_length_add_append,
      List.getElem?_eq_getElem (List.mem_range.mp hi), Option.any_some,
      h i _ (List.getElem?_eq_getElem _)]
    exact Bool.false_ne_true
  rw [hfront, hback, List.map_nil, List.append_nil]

/-! ## Gaps -/

theorem gaps_map_succ (start stop : Nat) (cuts : List Nat) :
    gaps (start + 1) (stop + 1) (cuts.map (· + 1)) =
      (gaps start stop cuts).map fun g => (g.1 + 1, g.2 + 1) := by
  induction cuts generalizing start with
  | nil => rfl
  | cons cut cuts ih => rw [List.map_cons, gaps, gaps, ih, List.map_cons]

@[simp] theorem length_gaps (start stop : Nat) (cuts : List Nat) :
    (gaps start stop cuts).length = cuts.length + 1 := by
  induction cuts generalizing start with
  | nil => rfl
  | cons cut cuts ih => rw [gaps, List.length_cons, ih, List.length_cons]

@[simp] theorem length_between (ts : List Token) (cuts : List Nat) :
    (between ts cuts).length = cuts.length + 1 := by
  rw [between, List.length_map, length_gaps]

theorem map_slice_cons (t : Token) (ts : List Token) (gs : List (Nat × Nat)) :
    ((gs.map fun g => (g.1 + 1, g.2 + 1)).map fun g => slice (t :: ts) g.1 g.2) =
      gs.map fun g => slice ts g.1 g.2 := by
  rw [List.map_map]
  rfl

@[simp] theorem between_nil (ts : List Token) : between ts [] = [ts] := by
  simp [between, gaps, slice]

/-- A cut at the first token leaves nothing in front of it. -/
theorem between_cons_zero (t : Token) (ts : List Token) (cuts : List Nat) :
    between (t :: ts) (0 :: cuts.map (· + 1)) = [] :: between ts cuts := by
  rw [between, gaps, List.length_cons, gaps_map_succ, List.map_cons, map_slice_cons]
  rfl

/-- Without a cut there the first token belongs to the first run. -/
theorem between_cons (t : Token) {ts first : List Token} {more : List (List Token)}
    (h : between ts cuts = first :: more) :
    between (t :: ts) (cuts.map (· + 1)) = (t :: first) :: more := by
  cases cuts with
  | nil =>
    obtain ⟨rfl, rfl⟩ := List.cons.inj h
    rfl
  | cons cut cuts =>
    rw [between, gaps, List.map_cons] at h
    obtain ⟨rfl, rfl⟩ := List.cons.inj h
    rw [between, List.map_cons, gaps, List.length_cons, gaps_map_succ, List.map_cons, map_slice_cons]
    rfl

/-- The first run between cuts is at the front. -/
theorem prefix_of_between_eq {first : List Token} {more : List (List Token)}
    (h : between ts cuts = first :: more) : first <+: ts := by
  cases cuts with
  | nil =>
    rw [between_nil] at h
    exact (List.cons.inj h).1 ▸ List.prefix_rfl
  | cons cut cuts =>
    rw [between, gaps, List.map_cons] at h
    exact (List.cons.inj h).1 ▸ List.take_prefix cut ts

/-- Whether a token separates, with these tokens in front of it: it is a separator at depth zero. -/
def separates (nest : Nat → Token → Nat) (isSeparator : Token → Bool) (depth : Nat)
    (front : List Token) (t : Token) : Bool :=
  front.foldl nest depth = 0 && isSeparator t

/-- **The segments of a run are its gaps at the separators**, if a separator at depth zero is no
bracket. -/
theorem segments_eq_between {nest : Nat → Token → Nat} {isSeparator : Token → Bool}
    (hsep : ∀ t, isSeparator t = true → nest 0 t = 0) (depth : Nat) (ts : List Token) :
    segments nest isSeparator depth ts =
      between ts (indicesWhere (separates nest isSeparator depth) ts) := by
  induction ts generalizing depth with
  | nil => rfl
  | cons t ts ih =>
    have hlater : (fun front => separates nest isSeparator depth (t :: front)) =
        separates nest isSeparator (nest depth t) := rfl
    rw [segments, indicesWhere_cons, hlater]
    by_cases hcut : (decide (depth = 0) && isSeparator t) = true
    · have hhere : separates nest isSeparator depth [] t = true := hcut
      rw [if_pos hcut, if_pos hhere]
      rw [Bool.and_eq_true, decide_eq_true_eq] at hcut
      rw [hcut.1, hsep t hcut.2, ih 0]
      exact (between_cons_zero t ts _).symm
    · have hhere : ¬ separates nest isSeparator depth [] t = true := hcut
      rw [if_neg hcut, if_neg hhere, List.nil_append, ih]
      cases hruns : between ts (indicesWhere (separates nest isSeparator (nest depth t)) ts) with
      | nil =>
        have hlength := congrArg List.length hruns
        rw [length_between] at hlength
        cases hlength
      | cons first more => exact (between_cons t hruns).symm

/-! ## Where gaps are -/

/-- Gaps stand between the ends, and no cut lies in one. -/
theorem of_mem_gaps (hcuts : cuts.Pairwise (· < ·)) (hends : ∀ cut ∈ cuts, start ≤ cut ∧ cut < stop)
    (hle : start ≤ stop) (hg : g ∈ gaps start stop cuts) :
    start ≤ g.1 ∧ g.1 ≤ g.2 ∧ g.2 ≤ stop ∧ ∀ cut ∈ cuts, cut < g.1 ∨ g.2 ≤ cut := by
  induction cuts generalizing start with
  | nil =>
    rw [gaps, List.mem_singleton] at hg
    subst hg
    exact ⟨Nat.le_refl _, hle, Nat.le_refl _, by simp⟩
  | cons cut cuts ih =>
    rw [List.pairwise_cons] at hcuts
    rw [List.forall_mem_cons] at hends ⊢
    rcases List.mem_cons.mp hg with rfl | hlater
    · exact ⟨Nat.le_refl _, hends.1.1, Nat.le_of_lt hends.1.2, .inr (Nat.le_refl _),
        fun other hother => .inr (Nat.le_of_lt (hcuts.1 other hother))⟩
    · obtain ⟨hstart, hlength, hstop, hfree⟩ := ih hcuts.2
        (fun other hother => ⟨hcuts.1 other hother, (hends.2 other hother).2⟩) hends.1.2 hlater
      exact ⟨by omega, hlength, hstop, .inl hstart, hfree⟩

/-- **Gaps stand apart**: a cut is between each and the next. -/
theorem pairwise_gaps (hcuts : cuts.Pairwise (· < ·))
    (hends : ∀ cut ∈ cuts, start ≤ cut ∧ cut < stop) (hle : start ≤ stop) :
    (gaps start stop cuts).Pairwise fun g h => g.2 < h.1 := by
  induction cuts generalizing start with
  | nil => exact List.pairwise_singleton _ _
  | cons cut cuts ih =>
    rw [List.pairwise_cons] at hcuts
    rw [List.forall_mem_cons] at hends
    have hlater : ∀ other ∈ cuts, cut + 1 ≤ other ∧ other < stop := fun other hother =>
      ⟨hcuts.1 other hother, (hends.2 other hother).2⟩
    exact List.pairwise_cons.mpr ⟨fun g hg => (of_mem_gaps hcuts.2 hlater hends.1.2 hg).1,
      ih hcuts.2 hlater hends.1.2⟩

/-- **Every index that is no cut lies in a gap.** -/
theorem exists_gap (hi : start ≤ i) (hstop : i < stop) (hcut : i ∉ cuts) :
    ∃ g ∈ gaps start stop cuts, g.1 ≤ i ∧ i < g.2 := by
  induction cuts generalizing start with
  | nil => exact ⟨_, List.mem_singleton_self _, hi, hstop⟩
  | cons cut cuts ih =>
    rw [List.mem_cons, not_or] at hcut
    by_cases hlt : i < cut
    · exact ⟨_, List.mem_cons_self, hi, hlt⟩
    · have hle : cut + 1 ≤ i := Nat.lt_of_le_of_ne (Nat.le_of_not_lt hlt) (Ne.symm hcut.1)
      obtain ⟨g, hg, hin⟩ := ih hle hcut.2
      exact ⟨g, List.mem_cons_of_mem _ hg, hin⟩

/-- **Gaps stand between cuts**: behind the start or a cut, and in front of a cut or the end. -/
theorem edges_of_mem_gaps (hg : g ∈ gaps start stop cuts) :
    (g.1 = start ∨ ∃ cut ∈ cuts, g.1 = cut + 1) ∧ (g.2 = stop ∨ g.2 ∈ cuts) := by
  induction cuts generalizing start with
  | nil =>
    rw [gaps, List.mem_singleton] at hg
    subst hg
    exact ⟨.inl rfl, .inl rfl⟩
  | cons cut cuts ih =>
    rcases List.mem_cons.mp hg with rfl | hlater
    · exact ⟨.inl rfl, .inr List.mem_cons_self⟩
    · obtain ⟨hfirst, hlast⟩ := ih hlater
      refine ⟨.inr ?_, hlast.imp_right (List.mem_cons_of_mem cut)⟩
      rcases hfirst with hcut | ⟨other, hother, hfirst⟩
      · exact ⟨cut, List.mem_cons_self, hcut⟩
      · exact ⟨other, List.mem_cons_of_mem cut hother, hfirst⟩

/-! ## Gaps without the trivia around them -/

/-- The range of a gap without the trivia around it. -/
def trimmed (ts : List Token) (g : Nat × Nat) : Nat × Nat :=
  let first := g.1 + ((slice ts g.1 g.2).takeWhile Token.isTrivia).length
  (first, first + (trim (slice ts g.1 g.2)).length)

theorem slice_append (front back : List Token) (n : Nat) :
    slice (front ++ back) front.length (front.length + n) = back.take n := by
  rw [slice, List.take_length_add_append, List.drop_left]

theorem slice_append_slice {j k : Nat} (hij : i ≤ j) (hjk : j ≤ k) (ts : List Token) :
    slice ts i j ++ slice ts j k = slice ts i k := by
  have hfront : ts.take j = (ts.take k).take j := by rw [List.take_take, Nat.min_eq_left hjk]
  have hsplit := congrArg (List.drop i) (List.take_append_drop j (ts.take k))
  rw [List.drop_append] at hsplit
  rw [slice, slice, slice, hfront, ← hsplit]
  by_cases hlong : j ≤ (ts.take k).length
  · rw [List.length_take, Nat.min_eq_left hlong, Nat.sub_eq_zero_of_le hij, List.drop_zero]
  · rw [List.drop_eq_nil_of_le (Nat.le_of_not_le hlong), List.drop_nil]

theorem length_slice (ts : List Token) (i j : Nat) : (slice ts i j).length = min j ts.length - i := by
  rw [slice, List.length_drop, List.length_take]

/-- The runs that are not empty are those of the ranges that are not. -/
theorem filter_map_slice {gs : List (Nat × Nat)} (h : ∀ g ∈ gs, g.2 ≤ ts.length) :
    (gs.map fun g => slice ts g.1 g.2).filter (· ≠ []) =
      (gs.filter fun g => g.1 < g.2).map fun g => slice ts g.1 g.2 := by
  rw [List.filter_map]
  refine congrArg _ (List.filter_congr fun g hg => ?_)
  rw [Function.comp_apply, decide_eq_decide, ne_eq, ← List.length_eq_zero_iff, length_slice,
    Nat.min_eq_left (h g hg)]
  omega

/-- A run of tokens between the tokens in front of it and behind it. -/
theorem exists_slice (hle : g.1 ≤ g.2) (hlength : g.2 ≤ ts.length) :
    ∃ front back, ts = front ++ (slice ts g.1 g.2 ++ back) ∧ front.length = g.1
      ∧ (slice ts g.1 g.2).length = g.2 - g.1 := by
  refine ⟨ts.take g.1, ts.drop g.2, ?_, ?_, ?_⟩
  · have hfront : (ts.take g.2).take g.1 = ts.take g.1 := by
      rw [List.take_take, Nat.min_eq_left hle]
    rw [← List.append_assoc, slice, ← hfront, List.take_append_drop, List.take_append_drop]
  · rw [List.length_take, Nat.min_eq_left (hle.trans hlength)]
  · rw [length_slice, Nat.min_eq_left hlength]

/-- A run is the trivia in front, the run without the trivia around it, and the trivia behind. -/
theorem exists_trim (run : List Token) :
    ∃ behind, run = run.takeWhile Token.isTrivia ++ (trim run ++ behind)
      ∧ ∀ t ∈ behind, t.isTrivia = true := by
  refine ⟨takeEndWhile Token.isTrivia (run.dropWhile Token.isTrivia), ?_, fun t ht => ?_⟩
  · rw [trim, dropEndWhile_append_takeEndWhile, List.takeWhile_append_dropWhile]
  · exact List.mem_takeWhile_imp (List.mem_reverse.mp ht)

theorem trim_eq_nil_iff : trim run = [] ↔ ∀ t ∈ run, t.isTrivia = true := by
  constructor
  · intro h t ht
    obtain ⟨behind, hrun, hbehind⟩ := exists_trim run
    rw [h, List.nil_append] at hrun
    rw [hrun] at ht
    exact (List.mem_append.mp ht).elim List.mem_takeWhile_imp (hbehind t)
  · intro h
    rw [trim, List.dropWhile_eq_nil_iff.mpr h]
    rfl

/-- A gap is where its run is, and what it has more than the trimmed gap is trivia. -/
theorem exists_trimmed (hle : g.1 ≤ g.2) (hlength : g.2 ≤ ts.length) :
    ∃ front before behind back, ts = front ++ (before ++ (trim (slice ts g.1 g.2) ++ (behind ++ back)))
      ∧ front.length = g.1 ∧ (front ++ before).length = (trimmed ts g).1
      ∧ (trimmed ts g).2 + behind.length = g.2
      ∧ ∀ t ∈ before ++ behind, t.isTrivia = true := by
  obtain ⟨front, back, hts, hfront, hrun⟩ := exists_slice hle hlength
  obtain ⟨behind, hsplit, hbehind⟩ := exists_trim (slice ts g.1 g.2)
  refine ⟨front, (slice ts g.1 g.2).takeWhile Token.isTrivia, behind, back, ?_, hfront, ?_, ?_, ?_⟩
  · rw [← List.append_assoc (trim _), ← List.append_assoc (List.takeWhile _ _), ← hsplit]
    exact hts
  · rw [List.length_append, hfront]
    rfl
  · have htotal := congrArg List.length hsplit
    rw [hrun, List.length_append, List.length_append] at htotal
    simp only [trimmed]
    omega
  · intro t ht
    rcases List.mem_append.mp ht with hbefore | hafter
    · exact List.mem_takeWhile_imp hbefore
    · exact hbehind t hafter

/-- **The run of a trimmed gap** is the trimmed run of the gap. -/
theorem slice_trimmed (hle : g.1 ≤ g.2) (hlength : g.2 ≤ ts.length) :
    slice ts (trimmed ts g).1 (trimmed ts g).2 = trim (slice ts g.1 g.2) := by
  obtain ⟨front, before, behind, back, hts, -, hfirst, -⟩ := exists_trimmed hle hlength
  have hsecond : (trimmed ts g).2 = (trimmed ts g).1 + (trim (slice ts g.1 g.2)).length := rfl
  have hslice := slice_append (front ++ before) (trim (slice ts g.1 g.2) ++ (behind ++ back))
    (trim (slice ts g.1 g.2)).length
  rwa [List.append_assoc, ← hts, hfirst, ← hsecond, List.take_left] at hslice

theorem le_trimmed (hle : g.1 ≤ g.2) (hlength : g.2 ≤ ts.length) :
    g.1 ≤ (trimmed ts g).1 ∧ (trimmed ts g).2 ≤ g.2 := by
  obtain ⟨front, before, behind, back, -, hfront, hfirst, hsecond, -⟩ := exists_trimmed hle hlength
  rw [List.length_append] at hfirst
  omega

/-- **Trimming leaves out trivia only.** -/
theorem mem_trimmed (hle : g.1 ≤ g.2) (hlength : g.2 ≤ ts.length) (hi : g.1 ≤ i) (hlt : i < g.2)
    (ht : ts[i]? = some t) (hword : t.isTrivia = false) :
    (trimmed ts g).1 ≤ i ∧ i < (trimmed ts g).2 := by
  obtain ⟨front, before, behind, back, hts, hfront, hfirst, hsecond, htrivia⟩ :=
    exists_trimmed hle hlength
  have hout (hmem : t ∈ before ++ behind) : False := by
    rw [htrivia t hmem] at hword
    cases hword
  have hlast : (trimmed ts g).2 = (trimmed ts g).1 + (trim (slice ts g.1 g.2)).length := rfl
  rw [List.length_append] at hfirst
  constructor
  · by_contra hbefore
    refine hout (List.mem_append_left _ ?_)
    rw [hts, List.getElem?_append_right (by omega), List.getElem?_append_left (by omega)] at ht
    exact List.mem_of_getElem? ht
  · by_contra hafter
    refine hout (List.mem_append_right _ ?_)
    rw [hts, List.getElem?_append_right (by omega), List.getElem?_append_right (by omega),
      List.getElem?_append_right (by omega), List.getElem?_append_left (by omega)] at ht
    exact List.mem_of_getElem? ht

/-! ## Places of trimmed runs -/

/-- **Where the trimmed runs between cuts stand**, those that are empty apart: in order, with a cut
between each and the next, and every word that is no cut in exactly one of them. -/
theorem exists_places (hcuts : cuts.Pairwise (· < ·)) (hends : ∀ cut ∈ cuts, cut < ts.length) :
    ∃ places : List (Nat × Nat),
      ((between ts cuts).map trim).filter (· ≠ []) = places.map (fun p => slice ts p.1 p.2)
      ∧ (places.Pairwise fun p q => p.2 < q.1)
      ∧ (∀ cut ∈ cuts, ∀ p ∈ places, ¬ (p.1 ≤ cut ∧ cut < p.2))
      ∧ ∀ i t, ts[i]? = some t → t.isTrivia = false → i ∉ cuts →
          ∃! p, p ∈ places ∧ p.1 ≤ i ∧ i < p.2 := by
  have hends' : ∀ cut ∈ cuts, 0 ≤ cut ∧ cut < ts.length := fun cut hcut =>
    ⟨Nat.zero_le _, hends cut hcut⟩
  have hgap (g : Nat × Nat) (hg : g ∈ gaps 0 ts.length cuts) :=
    of_mem_gaps hcuts hends' (Nat.zero_le _) hg
  have hwithin (g : Nat × Nat) (hg : g ∈ gaps 0 ts.length cuts) :
      g.1 ≤ (trimmed ts g).1 ∧ (trimmed ts g).2 ≤ g.2 :=
    le_trimmed (hgap g hg).2.1 (hgap g hg).2.2.1
  have hapart : (((gaps 0 ts.length cuts).map (trimmed ts)).filter fun p => p.1 < p.2).Pairwise
      fun p q => p.2 < q.1 := by
    refine List.Pairwise.filter _ (List.pairwise_map.mpr ?_)
    refine (pairwise_gaps hcuts hends' (Nat.zero_le _)).imp_of_mem fun {g h} hg hh hlt => ?_
    exact Nat.lt_of_le_of_lt (hwithin g hg).2 (Nat.lt_of_lt_of_le hlt (hwithin h hh).1)
  refine ⟨_, ?_, hapart, fun cut hcut p hp hin => ?_, fun i t ht hword hi => ?_⟩
  · have htrim : (between ts cuts).map trim =
        ((gaps 0 ts.length cuts).map (trimmed ts)).map fun p => slice ts p.1 p.2 := by
      rw [between, List.map_map, List.map_map]
      exact List.map_congr_left fun g hg => (slice_trimmed (hgap g hg).2.1 (hgap g hg).2.2.1).symm
    rw [htrim]
    refine filter_map_slice fun p hp => ?_
    obtain ⟨g, hg, rfl⟩ := List.mem_map.mp hp
    exact (hwithin g hg).2.trans (hgap g hg).2.2.1
  · obtain ⟨g, hg, rfl⟩ := List.mem_map.mp (List.mem_filter.mp hp).1
    have hedges := hwithin g hg
    have hfree := (hgap g hg).2.2.2 cut hcut
    omega
  · have hlt := (List.getElem?_eq_some_iff.mp ht).1
    obtain ⟨g, hg, hin⟩ := exists_gap (Nat.zero_le i) hlt hi
    obtain ⟨hfirst, hlast⟩ := mem_trimmed (hgap g hg).2.1 (hgap g hg).2.2.1 hin.1 hin.2 ht hword
    have hmem : trimmed ts g ∈ ((gaps 0 ts.length cuts).map (trimmed ts)).filter fun p => p.1 < p.2 :=
      List.mem_filter.mpr ⟨List.mem_map_of_mem hg, decide_eq_true (Nat.lt_of_le_of_lt hfirst hlast)⟩
    refine ⟨_, ⟨hmem, hfirst, hlast⟩, fun q hq => ?_⟩
    -- of two places one is in front of the other, so not both hold the index
    by_contra hne
    have hapart' : q ≠ trimmed ts g → q.2 < (trimmed ts g).1 ∨ (trimmed ts g).2 < q.1 :=
      List.Pairwise.forall_of_forall_of_flip (R := fun p q => p ≠ q → p.2 < q.1 ∨ q.2 < p.1)
        (fun p _ hne => absurd rfl hne) (hapart.imp fun hlt _ => .inl hlt)
        (hapart.imp fun hlt _ => .inr hlt) hq.1 hmem
    rcases hapart' hne with hbefore | hafter <;> omega

end SheetLint.Tokens
