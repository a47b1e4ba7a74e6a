import SheetLint.Proofs.Token.Gaps
import SheetLint.Proofs.Tree.Colons
import SheetLint.Value

/-!
# Where the parts of a value stand

The parts of a value are what is left of its tokens without the trivia outside parentheses. Trivia is
no parenthesis, so the depth behind such a token is zero again, and a part starts at a token that is
no trivia. Inside parentheses trivia belongs to the part around it.

Results:
* `Tokens.mem_breaks`: which tokens are in no part.
* `Tokens.parts_eq`: parts are the runs between them.
* `Tokens.exists_of_mem_parts`: what is behind a part.
* `Tokens.parts_partition`: the ranges of the parts, their order and what is between them.
-/

namespace SheetLint.Tokens

/-- The indices of the trivia outside parentheses. -/
def breaks (ts : List Token) : List Nat := indicesWhere (separates parenDepth Token.isTrivia 0) ts

/-- The ranges of indices between the trivia outside parentheses, those that are empty apart. -/
def partPlaces (ts : List Token) : List (Nat × Nat) :=
  (gaps 0 ts.length (breaks ts)).filter fun g => g.1 < g.2

variable {ts : List Token} {i : Nat} {p : Nat × Nat}

/-! ## Breaks -/

theorem parenDepth_of_isTrivia {t : Token} (h : t.isTrivia = true) (depth : Nat) :
    parenDepth depth t = depth := by
  simp [parenDepth, Piece.isPunct_of_isTrivia h]

/-- **A break is trivia at depth zero.** -/
theorem mem_breaks : i ∈ breaks ts ↔
    ∃ t, ts[i]? = some t ∧ t.isTrivia = true ∧ (ts.take i).foldl parenDepth 0 = 0 := by
  simp only [breaks, mem_indicesWhere, separates, Bool.and_eq_true, decide_eq_true_eq, and_comm]

theorem pairwise_breaks (ts : List Token) : (breaks ts).Pairwise (· < ·) := pairwise_indicesWhere _ _

theorem breaks_bounds (ts : List Token) : ∀ cut ∈ breaks ts, 0 ≤ cut ∧ cut < ts.length := fun _ hcut =>
  ⟨Nat.zero_le _, lt_length_of_mem_indicesWhere hcut⟩

/-- Behind a break no parenthesis is open. -/
theorem depth_behind_break (h : i ∈ breaks ts) : (ts.take (i + 1)).foldl parenDepth 0 = 0 := by
  obtain ⟨t, ht, htrivia, hdepth⟩ := mem_breaks.mp h
  rw [List.take_add_one, ht, Option.toList_some, List.foldl_append, hdepth, List.foldl_cons,
    List.foldl_nil, parenDepth_of_isTrivia htrivia]

/-! ## Parts -/

/-- **The parts of a value are the runs between its breaks.** -/
theorem parts_eq (ts : List Token) : parts ts = (partPlaces ts).map fun p => slice ts p.1 p.2 := by
  have hbreak (t : Token) (ht : t.isTrivia = true) : parenDepth 0 t = 0 := parenDepth_of_isTrivia ht 0
  rw [parts, segments_eq_between hbreak, between]
  refine filter_map_slice fun g hg => ?_
  exact (of_mem_gaps (pairwise_breaks ts) (breaks_bounds ts) (Nat.zero_le _) hg).2.2.1

/-- A range that holds a part is not empty, ends inside the run and has no break in it. -/
theorem of_mem_partPlaces (h : p ∈ partPlaces ts) :
    p.1 < p.2 ∧ p.2 ≤ ts.length ∧ ∀ cut ∈ breaks ts, cut < p.1 ∨ p.2 ≤ cut := by
  obtain ⟨hg, hlt⟩ := List.mem_filter.mp h
  obtain ⟨-, -, hstop, hfree⟩ :=
    of_mem_gaps (pairwise_breaks ts) (breaks_bounds ts) (Nat.zero_le _) hg
  exact ⟨of_decide_eq_true hlt, hstop, hfree⟩

/-- A part starts outside parentheses. -/
theorem depth_at_start (h : p ∈ partPlaces ts) : (ts.take p.1).foldl parenDepth 0 = 0 := by
  rcases (edges_of_mem_gaps (List.mem_filter.mp h).1).1 with hfirst | ⟨cut, hcut, hfirst⟩
  · rw [hfirst]
    rfl
  · rw [hfirst]
    exact depth_behind_break hcut

/-- A part does not start with trivia, which would be a break there. -/
theorem exists_start (h : p ∈ partPlaces ts) : ∃ t, ts[p.1]? = some t ∧ t.isTrivia = false := by
  obtain ⟨hlt, hstop, hfree⟩ := of_mem_partPlaces h
  have hin : p.1 < ts.length := Nat.lt_of_lt_of_le hlt hstop
  refine ⟨_, List.getElem?_eq_getElem hin, Bool.eq_false_iff.mpr fun htrivia => ?_⟩
  have hbreak : p.1 ∈ breaks ts :=
    mem_breaks.mpr ⟨_, List.getElem?_eq_getElem hin, htrivia, depth_at_start h⟩
  rcases hfree p.1 hbreak with hbefore | hbehind
  · exact Nat.lt_irrefl _ hbefore
  · exact Nat.not_lt.mpr hbehind hlt

/-- What is behind a part is a break. -/
theorem stop_mem_breaks (h : p ∈ partPlaces ts) (hlt : p.2 < ts.length) : p.2 ∈ breaks ts :=
  (edges_of_mem_gaps (List.mem_filter.mp h).1).2.resolve_left (Nat.ne_of_lt hlt)

/-- **Where a part of a value stands**: behind it is nothing or trivia, outside parentheses. -/
theorem exists_of_mem_parts {part : List Token} (h : part ∈ parts ts) :
    part ≠ [] ∧ ∃ front back, ts = front ++ (part ++ back)
      ∧ ∀ t ∈ back.head?, t.isTrivia = true ∧ part.foldl parenDepth 0 = 0 := by
  have hne : part ≠ [] := of_decide_eq_true (List.mem_filter.mp h).2
  rw [parts_eq] at h
  obtain ⟨p, hp, rfl⟩ := List.mem_map.mp h
  have hfront : ts.take p.1 ++ slice ts p.1 p.2 = ts.take p.2 :=
    slice_append_slice (Nat.zero_le _) (Nat.le_of_lt (of_mem_partPlaces hp).1) ts
  refine ⟨hne, ts.take p.1, ts.drop p.2, ?_, fun t ht => ?_⟩
  · rw [← List.append_assoc, hfront, List.take_append_drop]
  · rw [List.head?_drop] at ht
    obtain ⟨t', ht', htrivia, hdepth⟩ :=
      mem_breaks.mp (stop_mem_breaks hp (List.getElem?_eq_some_iff.mp ht).1)
    rw [← hfront, List.foldl_append, depth_at_start hp] at hdepth
    exact ⟨Option.some.inj (ht'.symm.trans ht) ▸ htrivia, hdepth⟩

/-- Parts are in order, and behind each but the last is a break. -/
theorem pairwise_partPlaces (ts : List Token) :
    (partPlaces ts).Pairwise fun p q => p.2 < q.1 ∧ p.2 ∈ breaks ts := by
  have hapart : (partPlaces ts).Pairwise fun p q => p.2 < q.1 :=
    (pairwise_gaps (pairwise_breaks ts) (breaks_bounds ts) (Nat.zero_le _)).filter _
  refine hapart.imp_of_mem fun {p q} hp hq hlt => ⟨hlt, stop_mem_breaks hp ?_⟩
  obtain ⟨hlt', hstop, -⟩ := of_mem_partPlaces hq
  omega

/-- **The tokens in no part are the breaks.** -/
theorem outside_partPlaces_iff (hi : i < ts.length) :
    (∀ p ∈ partPlaces ts, ¬ (p.1 ≤ i ∧ i < p.2)) ↔ i ∈ breaks ts := by
  constructor
  · intro hout
    by_contra hbreak
    obtain ⟨g, hg, hin⟩ := exists_gap (Nat.zero_le i) hi hbreak
    have hlt : g.1 < g.2 := Nat.lt_of_le_of_lt hin.1 hin.2
    exact hout g (List.mem_filter.mpr ⟨hg, decide_eq_true hlt⟩) hin
  · intro hbreak p hp hin
    rcases (of_mem_partPlaces hp).2.2 i hbreak with hbefore | hbehind
    · exact Nat.not_lt.mpr hin.1 hbefore
    · exact Nat.not_lt.mpr hbehind hin.2

/-- Whether ranges of indices cut a run into its parts. -/
structure IsPartition (ts : List Token) (places : List (Nat × Nat)) : Prop where
  /-- No part is empty. -/
  nonempty : ∀ p ∈ places, p.1 < p.2 ∧ p.2 ≤ ts.length
  /-- None starts with trivia. -/
  start : ∀ p ∈ places, ∃ t, ts[p.1]? = some t ∧ t.isTrivia = false
  /-- They are in order, and trivia is between each and the next. -/
  apart : places.Pairwise fun p q => p.2 < q.1 ∧ ∃ t, ts[p.2]? = some t ∧ t.isTrivia = true
  /-- What is in none of them is the trivia at depth zero. -/
  outside : ∀ i t, ts[i]? = some t →
    ((∀ p ∈ places, ¬ (p.1 ≤ i ∧ i < p.2)) ↔
      t.isTrivia = true ∧ (ts.take i).foldl parenDepth 0 = 0)

/-- **The parts of a value are a partition** of its tokens without the trivia outside parentheses, be
its parentheses balanced or not. -/
theorem parts_partition (ts : List Token) :
    ∃ places, parts ts = places.map (fun p => slice ts p.1 p.2) ∧ IsPartition ts places := by
  refine ⟨partPlaces ts, parts_eq ts, ⟨fun p hp => ?_, fun p hp => exists_start hp, ?_, fun i t ht => ?_⟩⟩
  · exact ⟨(of_mem_partPlaces hp).1, (of_mem_partPlaces hp).2.1⟩
  · refine (pairwise_partPlaces ts).imp fun h => ⟨h.1, ?_⟩
    obtain ⟨t, ht, htrivia, -⟩ := mem_breaks.mp h.2
    exact ⟨t, ht, htrivia⟩
  · rw [outside_partPlaces_iff (List.getElem?_eq_some_iff.mp ht).1, mem_breaks, ht]
    simp only [Option.some.injEq, exists_eq_left']

example : (parts (ofText "0 calc(1px + 2px)) /* c */ auto ( b c".toList)).map text =
    ["0", "calc(1px + 2px))", "auto", "( b c"].map String.toList := by
  cbv

end SheetLint.Tokens
