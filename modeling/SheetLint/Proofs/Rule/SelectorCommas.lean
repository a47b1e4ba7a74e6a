import SheetLint.Proofs.Token.Gaps
import SheetLint.Proofs.Tree.Colons
import SheetLint.Rule.SelectorSpacing

/-!
# The commas of a selector list

A selector list is cut at its commas outside brackets, and the rule about spacing walks over the same
tokens with a depth of its own, up to the last word. Both agree: the commas that are looked at are
those that separate selectors, a comma behind the last word apart.

Results:
* `Tokens.selectorsOf_eq`: the selectors are what stands between the commas of the list.
* `SelectorSpacing.commaFindings_eq`: the rule looks at the commas of the list that have a word behind.
* `SelectorSpacing.selectors_and_commas`: how a list is cut and what is looked at, all in all.
-/

namespace SheetLint

open Tokens

variable {ts front back : List Token} {t : Token} {i : Nat}

namespace Tokens

/-- The indices of the commas of a list, outside parentheses and brackets. -/
def listCommas (ts : List Token) : List Nat :=
  indicesWhere (separates bracketDepth (·.isPunct ',') 0) ts

/-- **The selectors of a list** are what stands between its commas, without the trivia around it. -/
theorem selectorsOf_eq (ts : List Token) :
    selectorsOf ts = ((between ts (listCommas ts)).map trim).filter (· ≠ []) := by
  have hcomma (t : Token) (ht : t.isPunct ',' = true) : bracketDepth 0 t = 0 :=
    bracketDepth_of_isPunct ht (by decide) 0
  rw [selectorsOf, segments_eq_between hcomma, listCommas]

/-- Trivia at the end holds no comma. -/
theorem listCommas_append (hback : ∀ t ∈ back, t.isTrivia = true) (front : List Token) :
    listCommas (front ++ back) = listCommas front := by
  refine indicesWhere_append fun i t ht => ?_
  rw [separates, Piece.isPunct_of_isTrivia (hback t (List.mem_of_getElem? ht)), Bool.and_false]

end Tokens

namespace SelectorSpacing

/-- What is found at the comma at an index of a run, with a token in front of the run or none. -/
def findingsAt (before : Option Token) (ts : List Token) (i : Nat) : List Finding :=
  match ts[i]?, ts[i + 1]? with
  | some comma, some after =>
    spaceBeforeComma (if i = 0 then before else ts[i - 1]?) ++ spaceAfterComma comma after
  | _, _ => []

/-- The indices of the commas that are looked at: those of the list with a word behind. -/
def inspected (ts : List Token) : List Nat :=
  (listCommas ts).filter fun i => (ts.drop (i + 1)).any fun t => !t.isTrivia

theorem findingsAt_succ (before : Option Token) (t : Token) (ts : List Token) (i : Nat) :
    findingsAt before (t :: ts) (i + 1) = findingsAt (some t) ts i := by
  cases i <;> rfl

/-- At the last token of a run nothing is found. -/
theorem findingsAt_of_length_le (before : Option Token) (h : ts.length ≤ i + 1) :
    findingsAt before ts i = [] := by
  unfold findingsAt
  rw [List.getElem?_eq_none h]
  split
  · rename_i hnone
    cases hnone
  · rfl

/-- What is found at a comma depends on the tokens next to it only. -/
theorem findingsAt_append (before : Option Token) (h : i + 1 < front.length) (back : List Token) :
    findingsAt before (front ++ back) i = findingsAt before front i := by
  unfold findingsAt
  rw [List.getElem?_append_left h, List.getElem?_append_left (by omega),
    List.getElem?_append_left (i := i - 1) (by omega)]

/-- The walk over a run finds what there is at each comma outside brackets. -/
theorem commaFindings_eq_flatMap (depth : Nat) (before : Option Token) (ts : List Token) :
    commaFindings depth before ts =
      (indicesWhere (separates bracketDepth (·.isPunct ',') depth) ts).flatMap
        (findingsAt before ts) := by
  have hlater (depth : Nat) (t : Token) :
      (fun front => separates bracketDepth (·.isPunct ',') depth (t :: front)) =
        separates bracketDepth (·.isPunct ',') (bracketDepth depth t) := rfl
  fun_induction commaFindings depth before ts with
  | case1 => rfl
  | case2 depth before t =>
    refine (List.flatMap_eq_nil_iff.mpr fun i hi => ?_).symm
    exact findingsAt_of_length_le before (Nat.le_add_left 1 i)
  | case3 depth before t next rest ih =>
    rw [indicesWhere_cons, List.flatMap_append, List.flatMap_map, hlater, ih]
    simp only [findingsAt_succ]
    refine congrArg (· ++ _) ?_
    by_cases hcomma : (decide (depth = 0) && t.isPunct ',') = true
    · have hhere : separates bracketDepth (·.isPunct ',') depth [] t = true := hcomma
      rw [if_pos hcomma, if_pos hhere, List.flatMap_singleton]
      rfl
    · have hhere : ¬ separates bracketDepth (·.isPunct ',') depth [] t = true := hcomma
      rw [if_neg hcomma, if_neg hhere, List.flatMap_nil]

/-- **The rule looks at the commas of the list that have a word behind.** -/
theorem commaFindings_eq (ts : List Token) :
    commaFindings 0 none (dropEndWhile Token.isTrivia ts) =
      (inspected ts).flatMap (findingsAt none ts) := by
  have hsplit := dropEndWhile_append_takeEndWhile Token.isTrivia ts
  have hback : ∀ t ∈ takeEndWhile Token.isTrivia ts, t.isTrivia = true := fun t => of_mem_takeEndWhile
  have hword : ∀ t ∈ (dropEndWhile Token.isTrivia ts).getLast?, t.isTrivia = false := fun t =>
    of_mem_getLast?_dropEndWhile
  generalize dropEndWhile Token.isTrivia ts = front at hsplit hword
  generalize takeEndWhile Token.isTrivia ts = back at hsplit hback
  subst hsplit
  -- a word is behind an index exactly if the list goes on behind it, its trivia at the end apart
  have hgoes (i : Nat) : ((front ++ back).drop (i + 1)).any (fun t => !t.isTrivia) = true ↔
      i + 1 < front.length := by
    rw [List.any_eq_true]
    constructor
    · rintro ⟨t, ht, htrivia⟩
      by_contra hle
      rw [List.drop_append, List.drop_eq_nil_of_le (Nat.le_of_not_lt hle), List.nil_append] at ht
      rw [hback t (List.mem_of_mem_drop ht)] at htrivia
      cases htrivia
    · intro hlt
      have hne : front ≠ [] := List.ne_nil_of_length_pos (Nat.zero_lt_of_lt hlt)
      obtain ⟨init, last, hfront⟩ := (List.eq_nil_or_concat' front).resolve_left hne
      have hlast : front.getLast? = some last := by rw [hfront, List.getLast?_concat]
      have hmem : last ∈ front.drop (i + 1) := by
        refine List.mem_of_getLast? ?_
        rw [List.getLast?_drop, if_neg (Nat.not_le.mpr hlt), hlast]
      refine ⟨last, ?_, by rw [hword last hlast]; rfl⟩
      rw [List.drop_append]
      exact List.mem_append_left _ hmem
  have hsame (i : Nat) : findingsAt none front i =
      if i + 1 < front.length then findingsAt none (front ++ back) i else [] := by
    by_cases hlt : i + 1 < front.length
    · rw [if_pos hlt, findingsAt_append none hlt]
    · rw [if_neg hlt, findingsAt_of_length_le none (Nat.le_of_not_lt hlt)]
  rw [commaFindings_eq_flatMap, inspected, listCommas_append hback, listCommas]
  induction indicesWhere (separates bracketDepth (·.isPunct ',') 0) front with
  | nil => rfl
  | cons i is ih =>
    rw [List.flatMap_cons, ih, hsame, List.filter_cons]
    simp only [hgoes]
    by_cases hlt : i + 1 < front.length
    · rw [if_pos hlt, if_pos hlt, List.flatMap_cons]
    · rw [if_neg hlt, if_neg hlt, List.nil_append]

theorem mem_inspected : i ∈ inspected ts ↔
    i ∈ listCommas ts ∧ ∃ j t, i < j ∧ ts[j]? = some t ∧ t.isTrivia = false := by
  rw [inspected, List.mem_filter, List.any_eq_true]
  refine and_congr_right fun _ => ?_
  constructor
  · rintro ⟨t, ht, hword⟩
    obtain ⟨k, hk⟩ := List.mem_iff_getElem?.mp ht
    rw [List.getElem?_drop] at hk
    exact ⟨_, t, by omega, hk, by simpa using hword⟩
  · rintro ⟨j, t, hlt, ht, hword⟩
    refine ⟨t, List.mem_iff_getElem?.mpr ⟨j - (i + 1), ?_⟩, by rw [hword]; rfl⟩
    rw [List.getElem?_drop, Nat.add_sub_cancel' hlt, ht]

/-- **Selectors and commas agree.** The selectors of any list are the runs between its commas outside
brackets, without the trivia around them and without those that are empty. Each word other than such a
comma stands in exactly one of them, and no such comma stands in one. The rule about spacing looks at
those of these commas that stand in front of the last word, and at no others. -/
theorem selectors_and_commas (ts : List Token) :
    selectorsOf ts = ((between ts (listCommas ts)).map trim).filter (· ≠ [])
      ∧ (∃ places : List (Nat × Nat),
          selectorsOf ts = places.map (fun p => slice ts p.1 p.2)
          ∧ (places.Pairwise fun p q => p.2 < q.1)
          ∧ (∀ i ∈ listCommas ts, ∀ p ∈ places, ¬ (p.1 ≤ i ∧ i < p.2))
          ∧ ∀ i t, ts[i]? = some t → t.isTrivia = false → i ∉ listCommas ts →
              ∃! p, p ∈ places ∧ p.1 ≤ i ∧ i < p.2)
      ∧ (∀ i, i ∈ listCommas ts ↔ ∃ t, ts[i]? = some t ∧ t.isPunct ',' = true
          ∧ (ts.take i).foldl bracketDepth 0 = 0)
      ∧ (∀ i, i ∈ inspected ts ↔
          i ∈ listCommas ts ∧ ∃ j t, i < j ∧ ts[j]? = some t ∧ t.isTrivia = false)
      ∧ ∀ opening, headFindings (.ruleSet ts) opening =
          braceFinding (takeEndWhile Token.isWhitespace ts) opening
            ++ (inspected ts).flatMap (findingsAt none ts) ++ pseudoFindings ts := by
  have hselectors := selectorsOf_eq ts
  refine ⟨hselectors, ?_, fun i => ?_, fun i => mem_inspected, fun opening => ?_⟩
  · rw [hselectors]
    exact exists_places (pairwise_indicesWhere _ _) fun i => lt_length_of_mem_indicesWhere
  · rw [listCommas, mem_indicesWhere]
    simp only [separates, Bool.and_eq_true, decide_eq_true_eq, and_comm]
  · rw [headFindings, commaFindings_eq]

/-- A closing parenthesis too many in front, a bracket that ends a parenthesis, two commas side by side
and one at the end. -/
theorem selectors_and_commas_unbalanced :
    let ts := Tokens.ofText ['a', ')', ',', '(', 'b', ',', 'c', ']', ',', ',', 'd', ',', ' ']
    listCommas ts = [2, 8, 9, 11]
      ∧ (selectorsOf ts).map text = [['a', ')'], ['(', 'b', ',', 'c', ']'], ['d']]
      ∧ (∃ places : List (Nat × Nat), selectorsOf ts = places.map (fun p => slice ts p.1 p.2)
          ∧ ∃! p, p ∈ places ∧ p.1 ≤ 5 ∧ 5 < p.2)
      ∧ 9 ∈ inspected ts ∧ 11 ∉ inspected ts := by
  intro ts
  have hcommas : listCommas
      (Tokens.ofText ['a', ')', ',', '(', 'b', ',', 'c', ']', ',', ',', 'd', ',', ' ']) =
        [2, 8, 9, 11] := by cbv
  obtain ⟨hselectors, ⟨places, hplaces, -, -, hwords⟩, -, hinspected, -⟩ := selectors_and_commas ts
  have htexts : ((((between ts [2, 8, 9, 11]).map trim).filter (· ≠ [])).map text) =
      [['a', ')'], ['(', 'b', ',', 'c', ']'], ['d']] := by
    subst ts
    cbv
  have hcomma : ts[5]? = some ⟨.punct, [','], ⟨⟨5, 1, 6⟩, ⟨6, 1, 7⟩⟩⟩ := by
    subst ts
    cbv
  have hword : ts[10]? = some ⟨.ident, ['d'], ⟨⟨10, 1, 11⟩, ⟨11, 1, 12⟩⟩⟩ := by
    subst ts
    cbv
  have hspace : ts.drop 12 = [⟨.whitespace, [' '], ⟨⟨12, 1, 13⟩, ⟨13, 1, 14⟩⟩⟩] := by
    subst ts
    cbv
  refine ⟨hcommas, ?_, ⟨places, hplaces, hwords 5 _ hcomma rfl ?_⟩, ?_, ?_⟩
  · rw [hselectors, hcommas]
    exact htexts
  · rw [hcommas]
    decide
  · exact (hinspected 9).mpr ⟨by rw [hcommas]; decide, 10, _, by decide, hword, rfl⟩
  · intro h
    rw [inspected, List.mem_filter, hspace] at h
    exact absurd h.2 (by decide)

end SelectorSpacing

end SheetLint
