import SheetLint.Proofs.Rule.FixesApply
import SheetLint.Proofs.Token.Gaps
import SheetLint.Proofs.Tree.Defects
import SheetLint.Proofs.Tree.Nesting
import SheetLint.Rule.MaxNestingDepth

/-!
# Which rule sets are nested too deep

The rule goes by the depth that the tree keeps, which counts the rule sets around a rule set and the
rule set itself. In a text that parses each rule set has a selector, so there is a place to report.

Results:
* `Parse.exists_span?_selectors`: the selectors of a text that parses have a place.
* `MaxNestingDepth.map_span_check`: the places of the findings.
* `MaxNestingDepth.nesting_exact`: levels, depths and what is reported, all in all.
-/

namespace SheetLint

/-! ## Selectors have a place -/

namespace Tokens

theorem mem_of_mem_segments {nest : Nat → Token → Nat} {isSeparator : Token → Bool} {depth : Nat}
    {ts segment : List Token} (h : segment ∈ segments nest isSeparator depth ts) :
    segment ⊆ ts := by
  fun_induction segments nest isSeparator depth ts generalizing segment with
  | case1 depth => simp [List.mem_singleton.mp h]
  | case2 depth t ts _ ih =>
    rcases List.mem_cons.mp h with rfl | hlater
    · exact List.nil_subset _
    · exact List.Subset.trans (ih hlater) (List.subset_cons_self t ts)
  | case3 depth t ts _ hnil ih => exact absurd hnil (segments_ne_nil _ _ _ _)
  | case4 depth t ts _ first more hcons ih =>
    rw [hcons] at ih
    rcases List.mem_cons.mp h with rfl | hlater
    · exact List.cons_subset_cons t (ih List.mem_cons_self)
    · exact List.Subset.trans (ih (List.mem_cons_of_mem _ hlater)) (List.subset_cons_self t ts)

/-- A list that names a selector is not all trivia. -/
theorem trim_ne_nil_of_selectorsOf {ts : List Token} (h : selectorsOf ts ≠ []) : trim ts ≠ [] := by
  obtain ⟨selector, hselector⟩ := List.exists_mem_of_ne_nil _ h
  obtain ⟨hmem, hne⟩ := List.mem_filter.mp hselector
  obtain ⟨segment, hsegment, rfl⟩ := List.mem_map.mp hmem
  intro htrim
  refine of_decide_eq_true hne (trim_eq_nil_iff.mpr fun t ht => ?_)
  exact trim_eq_nil_iff.mp htrim t (mem_of_mem_segments hsegment ht)

end Tokens

namespace Parse

variable {source : Text} {n : Node} {selectors : List Token} {depth : Nat}

/-- A text that parses has no faulty node. -/
theorem ownErrors_eq_nil (h : (ofText source).isOk = true)
    (hn : n ∈ (ofText source).sheet.nodes) : n.ownErrors = [] := by
  rw [isOk, List.isEmpty_iff, ofText] at h
  have hperm := errors_perm (Tokens.ofText source)
  rw [h] at hperm
  exact List.flatMap_eq_nil_iff.mp (List.append_eq_nil_iff.mp hperm.nil_eq.symm).2 n hn

/-- **The selectors of a text that parses have a place.** -/
theorem exists_span?_selectors (h : (ofText source).isOk = true)
    (hn : n ∈ (ofText source).sheet.nodes) (hset : n.ruleSet? = some (selectors, depth)) :
    ∃ span, Tokens.span? (Tokens.trim selectors) = some span := by
  refine Tokens.exists_span? (Tokens.trim_ne_nil_of_selectorsOf ?_)
  cases n with
  | statement => cases hset
  | block leading level d head opening children trailing closing =>
    cases head with
    | atRule => cases hset
    | ruleSet =>
      cases hset
      exact (Node.isFaultless_block_iff.mpr (ownErrors_eq_nil h hn)).2.2

end Parse

/-! ## What is reported -/

/-- The selector lists of the rule sets with at least this many rule sets around them, in source
order. -/
def Stylesheet.selectorsWithin (s : Stylesheet) (ruleSets : Nat) : List (List Token) :=
  (s.placed.filter fun p => ruleSets ≤ p.1.countP Node.isRuleSet).filterMap fun p =>
    p.2.ruleSet?.map Prod.fst

theorem Stylesheet.selectorsWithin_sublist (s : Stylesheet) {fewer more : Nat} (h : fewer ≤ more) :
    (s.selectorsWithin more).Sublist (s.selectorsWithin fewer) :=
  (List.monotone_filter_right _ fun _ hp =>
    decide_eq_true (h.trans (of_decide_eq_true hp))).filterMap _

namespace MaxNestingDepth

open Node

variable {source : Text}

/-- What is found for a node, by the rule sets around it. -/
theorem map_span_nodeFindings (most : Nat) {around : List Node} {n : Node}
    (hcounts : CountsAround around n)
    (hspan : ∀ selectors depth, n.ruleSet? = some (selectors, depth) →
      ∃ span, Tokens.span? (Tokens.trim selectors) = some span) :
    (nodeFindings most n).map (fun f => some f.span) =
      if most ≤ around.countP isRuleSet then
        (n.ruleSet?.map fun r => Tokens.span? (Tokens.trim r.1)).toList
      else [] := by
  cases n with
  | statement => simp [nodeFindings, ruleSet?]
  | block leading level depth head opening children trailing closing =>
    cases head with
    | atRule => simp [nodeFindings, ruleSet?]
    | ruleSet selectors =>
      obtain ⟨span, hspan⟩ := hspan selectors depth rfl
      have hdepth : depth = around.countP isRuleSet + 1 := hcounts.depth_eq selectors depth rfl
      by_cases hdeep : most ≤ around.countP isRuleSet
      · simp [nodeFindings, ruleSet?, hspan, hdepth, hdeep]
      · simp [nodeFindings, hdepth, hdeep]

/-- **The places of the findings** are those of the trimmed selector lists of the rule sets that have
at least `most` rule sets around them. -/
theorem map_span_check (most : Nat) (h : (Parse.ofText source).isOk = true) :
    (check most source (Parse.ofText source).sheet).map (fun f => some f.span) =
      ((Parse.ofText source).sheet.selectorsWithin most).map fun selectors =>
        Tokens.span? (Tokens.trim selectors) := by
  have hnode : ∀ p ∈ (Parse.ofText source).sheet.placed,
      (nodeFindings most p.2).map (fun f => some f.span) =
        if most ≤ p.1.countP isRuleSet then
          (p.2.ruleSet?.map fun r => Tokens.span? (Tokens.trim r.1)).toList
        else [] := fun p hp => by
    refine map_span_nodeFindings most (Stylesheet.level_depth_of_mem_placed _ p hp)
      fun selectors depth hset => Parse.exists_span?_selectors h ?_ hset
    rw [← Stylesheet.map_snd_placed]
    exact List.mem_map_of_mem hp
  unfold check Stylesheet.selectorsWithin
  rw [← Stylesheet.map_snd_placed]
  generalize (Parse.ofText source).sheet.placed = ps at hnode
  induction ps with
  | nil => rfl
  | cons p ps ih =>
    rw [List.forall_mem_cons] at hnode
    rw [List.map_cons, List.flatMap_cons, List.map_append, hnode.1, ih hnode.2, List.filter_cons]
    simp only [decide_eq_true_eq]
    split
    · cases hset : p.2.ruleSet? <;> simp [hset]
    · rfl

/-- The rule with this bound, of any severity. -/
def ruleOf (severity : Severity) (most : Nat) : Rule := ⟨entry.info, severity, check most⟩

/-- Where the rule reports something in a text. -/
def reported (severity : Severity) (most : Nat) (source : Text) : List Location :=
  ((ruleOf severity most).violations source (Parse.ofText source).sheet).map Violation.location

theorem map_some_reported (severity : Severity) (most : Nat)
    (h : (Parse.ofText source).isOk = true) :
    (reported severity most source).map some =
      ((Parse.ofText source).sheet.selectorsWithin most).map fun selectors =>
        (Tokens.span? (Tokens.trim selectors)).map Location.ofSpan := by
  have hspans := congrArg (List.map (Option.map Location.ofSpan)) (map_span_check most h)
  rw [List.map_map, List.map_map] at hspans
  rw [reported, Rule.violations, List.map_map, List.map_map]
  exact hspans

/-- **Levels, depths and the rule about them are exact.** In the tree of any run of tokens, the level
of a node is the number of blocks around it, and the depth of a rule set is one more than the number
of rule sets around it. In a text that parses, the rule reports each rule set with at least `most`
rule sets around it once, at its trimmed selector list, and nothing else; so a larger bound reports a
part of what a smaller one does. -/
theorem nesting_exact :
    (∀ ts : List Token,
      let sheet := (Parse.ofTokens ts).sheet
      sheet.placed.map Prod.snd = sheet.nodes
        ∧ ∀ around n, (around, n) ∈ sheet.placed →
          Enclosed sheet.children around n ∧ n.level = around.length
            ∧ ∀ selectors depth, n.ruleSet? = some (selectors, depth) →
              depth = 1 + around.countP isRuleSet)
    ∧ ∀ source : Text, (Parse.ofText source).isOk = true → ∀ severity most,
      let sheet := (Parse.ofText source).sheet
      (reported severity most source).map some =
          ((sheet.selectorsWithin most).map fun selectors =>
            (Tokens.span? (Tokens.trim selectors)).map Location.ofSpan)
        ∧ ∀ more, most ≤ more →
          (sheet.selectorsWithin more).Sublist (sheet.selectorsWithin most)
            ∧ (reported severity more source).Sublist (reported severity most source) := by
  constructor
  · intro ts sheet
    refine ⟨sheet.map_snd_placed, fun around n hn => ?_⟩
    have hcounts := Stylesheet.level_depth_of_mem_placed ts (around, n) hn
    refine ⟨mem_placedOfAll_iff.mp hn, hcounts.level_eq, fun selectors depth hset => ?_⟩
    rw [hcounts.depth_eq selectors depth hset, Nat.add_comm]
  · intro source h severity most sheet
    refine ⟨map_some_reported severity most h, fun more hmore => ?_⟩
    have hsub := sheet.selectorsWithin_sublist hmore
    refine ⟨hsub, ?_⟩
    have hplaces := hsub.map fun selectors =>
      (Tokens.span? (Tokens.trim selectors)).map Location.ofSpan
    rw [← map_some_reported severity more h, ← map_some_reported severity most h] at hplaces
    simpa [List.filterMap_map] using hplaces.filterMap id

/-- Of two rule sets inside another one the second stands in an at-rule. -/
theorem nesting_exact_in_atRule :
    let source : Text :=
      ['a', '\x7b', 'b', '\x7b', '\x7d', '@', 'm', '\x7b', 'c', ' ', '\x7b', '\x7d', '\x7d', '\x7d']
    let sheet := (Parse.ofText source).sheet
    (Parse.ofText source).isOk = true
      ∧ (sheet.placed.map fun p => p.2.level) = [0, 1, 1, 2]
      ∧ (reported .error 1 source).map some = [some ⟨1, 3, 2, 1⟩, some ⟨1, 9, 8, 1⟩]
      ∧ (reported .error 2 source).Sublist (reported .error 1 source) := by
  intro source sheet
  have hok : (Parse.ofText source).isOk = true := by cbv
  have hlevels : (sheet.placed.map fun p => p.2.level) = sheet.placed.map fun p => p.1.length :=
    List.map_congr_left fun p hp => ((nesting_exact.1 (Tokens.ofText source)).2 p.1 p.2 hp).2.1
  have haround : ((Parse.ofText source).sheet.placed.map fun p => p.1.length) = [0, 1, 1, 2] := by
    cbv
  obtain ⟨hplaces, hmore⟩ := nesting_exact.2 source hok .error 1
  have hselectors : ((Parse.ofText source).sheet.selectorsWithin 1).map
      (fun selectors => (Tokens.span? (Tokens.trim selectors)).map Location.ofSpan) =
        [some ⟨1, 3, 2, 1⟩, some ⟨1, 9, 8, 1⟩] := by cbv
  exact ⟨hok, hlevels.trans haround, hplaces.trans hselectors, (hmore 2 (by decide)).2⟩

end MaxNestingDepth

end SheetLint
