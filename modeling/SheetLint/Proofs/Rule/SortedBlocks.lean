import SheetLint.Proofs.Edit.Tokens
import SheetLint.Proofs.Rule.SortedTrees
import SheetLint.Proofs.Tree.Defects

/-!
# What the rule about the order of declarations makes of a text

All fixes of the rule together put the runs of all blocks in order whose statements end with
semicolons. They neither lose a statement nor touch anything else: the new text is read as the tree
with its runs put in order.

Results:
* `edits_check`: the edits of the rule are those that put the runs of all blocks in order.
* `ofTokens_settledTokens`: the tokens with statements exchanged give the tree in order.
* `blocks_ordered`: what all fixes of the rule make of a text.
-/

namespace SheetLint.PropertyOrder

open Node Tokens

variable {o : Options} {source : Text} {n : Node} {ns : List Node} {run : List Ranked}

/-! ## The edits of the rule -/

/-- The edits that the rule has for a run. -/
theorem edits_runFindings {body : Body} (hn : n ∈ (Parse.ofText source).sheet.nodes)
    (hbody : n.body? = some body) (hrun : run ∈ runs o body.children) :
    ((runFindings run).filterMap Finding.fix).flatMap Fix.edits =
      (runSlots run).filterMap slotEdit? := by
  cases hclosed : run.all fun x => hasSemicolon x.1 with
  | false =>
    have hnone : (runSlots run).filterMap slotEdit? = [] := by
      rw [runSlots, hclosed, if_neg (by simp), List.filterMap_map]
      exact List.filterMap_eq_nil_iff.mpr fun _ _ => rfl
    rw [hnone, runFindings]
    split
    · rfl
    · split
      · simp [hclosed]
      · rfl
  | true =>
    have hslots : (runSlots run).filterMap slotEdit? = edits run := by
      rw [runSlots, if_pos hclosed, edits_eq]
    rw [hslots, runFindings]
    split
    · rename_i hmoves
      rw [edits, hmoves]
      rfl
    · rename_i misplaced wanted more hmoves
      have hmovable : Movable source o run :=
        .of_mem_runs hn hbody hrun (List.all_eq_true.mp hclosed)
      have hmem : (misplaced, wanted) ∈ moves run := by
        rw [hmoves]
        exact List.mem_cons_self
      obtain ⟨i, j, target, moved, hi, -, -, -, hmove⟩ := mem_moves_iff.mp hmem
      cases hmove
      obtain ⟨span, hspan⟩ := exists_span? (hmovable.content_ne_nil (List.mem_of_getElem? hi))
      rw [hspan]
      simp [hclosed, edits, hmoves]

/-- The edits that the rule has for a node. -/
theorem nodeEdits_eq {body : Body} (o : Options) (hbody : n.body? = some body) :
    nodeEdits o n = (runs o body.children).flatMap fun run => (runSlots run).filterMap slotEdit? := by
  cases n with
  | statement => cases hbody
  | block =>
    cases hbody
    rw [nodeEdits, exchanges, filterMap_weave, List.flatMap_map]
    rintro slot hslot
    obtain ⟨n, -, rfl⟩ := List.mem_map.mp hslot
    rfl

/-- **The edits of the rule put the runs of all blocks in order.** -/
theorem edits_check (o : Options) (source : Text) :
    ((check o source (Parse.ofText source).sheet).filterMap Finding.fix).flatMap Fix.edits =
      (Parse.ofText source).sheet.nodes.flatMap (nodeEdits o) := by
  have hbody {n : Node} {body : Body} (hn : n ∈ (Parse.ofText source).sheet.nodes)
      (hbody : n.body? = some body) :
      (((runs o body.children).flatMap runFindings).filterMap Finding.fix).flatMap Fix.edits =
        nodeEdits o n := by
    rw [nodeEdits_eq o hbody, List.filterMap_flatMap, List.flatMap_assoc]
    exact List.flatMap_congr fun run hrun => edits_runFindings hn hbody hrun
  have hall (ns : List Node) (hns : ns ⊆ (Parse.ofText source).sheet.nodes) :
      (((ns.filterMap body?).flatMap fun body => (runs o body.children).flatMap runFindings).filterMap
        Finding.fix).flatMap Fix.edits = ns.flatMap (nodeEdits o) := by
    induction ns with
    | nil => rfl
    | cons n ns ih =>
      rw [List.cons_subset] at hns
      rw [List.flatMap_cons, ← ih hns.2]
      cases h : n.body? with
      | none =>
        have hnone : nodeEdits o n = [] := by
          cases n with
          | statement => rfl
          | block => cases h
        rw [List.filterMap_cons_none h, hnone, List.nil_append]
      | some body =>
        rw [List.filterMap_cons_some h, List.flatMap_cons, List.filterMap_append, List.flatMap_append,
          hbody hns.1 h]
  exact hall _ (List.Subset.refl _)

/-! ## The text in order -/

/-- What the edits of slots make of a text that falls into their pieces. -/
theorem applyAll?_slots {slots : List PieceSlot} {trailing : List Token}
    (hsplit : Piece.split (ofText source) = (slots.map PieceSlot.piece, trailing)) :
    (slots.filterMap fun slot => (pieceTokens slot).edit?).Pairwise
        (fun a b => a.conflicts b = false)
      ∧ Edit.applyAll? source (slots.filterMap fun slot => (pieceTokens slot).edit?) =
        some (text (PieceSlot.settledTokens slots trailing)) := by
  have htokens : ofText source =
      (slots.map pieceTokens).flatMap Edit.TokenSlot.tokens ++ trailing := by
    have hpieces := Piece.tokens_split (ofText source)
    rw [hsplit, List.flatMap_map] at hpieces
    rw [List.flatMap_map]
    exact hpieces.symm
  have hfilled : (slots.map pieceTokens).flatMap Edit.TokenSlot.filled ++ trailing =
      PieceSlot.settledTokens slots trailing := by
    rw [List.flatMap_map, PieceSlot.settledTokens]
    refine congrArg (· ++ trailing) (List.flatMap_congr fun slot _ => ?_)
    obtain ⟨piece, moved?⟩ := slot
    cases moved? <;> rfl
  have hne : ∀ slot ∈ slots.map pieceTokens, slot.old ≠ [] := by
    refine List.forall_mem_map.mpr fun slot hslot hnil => ?_
    have hpiece := List.mem_map_of_mem (f := PieceSlot.piece) hslot
    have hword := (Piece.delimited_split (ofText source) slot.piece (by rwa [hsplit])).head
    obtain ⟨first, hfirst, -⟩ := hword
    have hempty : slot.piece.body.tokens = [] := hnil
    rw [hempty] at hfirst
    cases hfirst
  have hapart := Edit.apart_filled htokens hne
  have hgiven := Edit.substituted_filled (htokens.trans (List.nil_append _).symm) hne
  rw [← htokens, text_ofText, hfilled] at hgiven
  rw [List.filterMap_map] at hapart hgiven
  have happly := Edit.applyAll?_of_substituted hgiven hapart
  have hle e he := (Edit.inText_of_applyAll? happly e he).1
  exact ⟨Edit.pairwise_conflicts_of_apart hle hapart, happly⟩

/-- The tree with the runs in all blocks put in order. -/
def orderedSheet (o : Options) (sheet : Stylesheet) : Stylesheet :=
  ⟨orderedEach o sheet.children, sheet.trailing⟩

/-- The pieces of a text are those of the slots in its tree. -/
theorem Leads.split_eq {ns' : List Node} {slots : List PieceSlot} {edits : List Edit}
    (h : Leads source (Parse.ofText source).sheet.children ns' slots edits)
    (hok : (Parse.ofText source).isOk = true) : Piece.split (ofText source) =
      (slots.map PieceSlot.piece, (Parse.ofText source).sheet.trailing) := by
  rw [← h.old]
  exact Stylesheet.split_of_errors ((Parse.isOk_iff (ofText source)).mp hok).2

/-- **The tokens of the tree in order are read as they are, and their tree is the tree in order.** -/
theorem ofTokens_settledTokens {slots : List PieceSlot} {edits : List Edit} (o : Options)
    (hok : (Parse.ofText source).isOk = true)
    (hslots : Leads source (Parse.ofText source).sheet.children
      (orderedEach o (Parse.ofText source).sheet.children) slots edits) :
    let ts := PieceSlot.settledTokens slots (Parse.ofText source).sheet.trailing
    Stylesheet.ofTokens ts = orderedSheet o (Parse.ofText source).sheet ∧ Legible ts
      ∧ ∀ t ∈ ts, t.kind ≠ .error := by
  intro ts
  obtain ⟨-, herrors⟩ := (Parse.isOk_iff (ofText source)).mp hok
  have hclean := Parse.kind_ne_error hok
  have hsplit := hslots.split_eq hok
  have hsound : ∀ slot ∈ slots, slot.Sound := fun slot hslot => (hslots.fits slot hslot).1
  have hmoved : ∀ slot ∈ slots, ∀ s ∈ slot.moved?, ∀ t ∈ s.tokens, t.kind ≠ .error :=
    fun slot hslot s hs t ht => hclean t ((hslots.fits slot hslot).2 s hs ht)
  refine ⟨Stylesheet.ofTokens_of_split ?_ (errorsOfAll_orderedEach o _ herrors) ?_,
    legible_settled hsound hsplit (legible_ofText source) hclean hmoved, ?_⟩
  · have hnumbered : ∀ n ∈ (Parse.ofText source).sheet.children, n.Numbered 0 0 :=
      Stylesheet.numbered_build trivial (by simp)
    exact numberedOfAll_iff.mp (numberedOfAll_orderedEach o _ (numberedOfAll_iff.mpr hnumbered))
  · rw [orderedSheet, hslots.new]
    exact Piece.split_settled hsound hsplit
  · intro t ht
    rcases PieceSlot.mem_settledTokens ht with hstays | ⟨slot, hslot, s, hs, ht⟩
    · have hpieces := Piece.tokens_split (ofText source)
      rw [hsplit, List.flatMap_map] at hpieces
      exact hclean t (hpieces ▸ hstays)
    · exact hmoved slot hslot s hs t ht

/-! ## Ranks do not depend on places -/

theorem rank?_nodeBare (o : Options) (n : Node) : rank? o n.bare = rank? o n := by
  cases n with
  | block => rfl
  | statement leading level s =>
    have hbare : s.relabel Token.bare (fun _ => default) = s.bare := by cases s <;> rfl
    rw [Node.bare, Node.relabel, hbare, rank?_bare o leading level s]
    cases s <;> rfl

theorem hasSemicolon_nodeBare (n : Node) : hasSemicolon n.bare = hasSemicolon n := by
  cases n with
  | block => rfl
  | statement leading level s =>
    cases s with
    | declaration | atRule => exact Option.isSome_map
    | comment | empty | skipped => rfl

/-- A run without places. -/
def bareRun (run : List Ranked) : List Ranked := run.map fun x => (x.1.bare, x.2)

theorem map_snd_bareRun (run : List Ranked) : (bareRun run).map Prod.snd = run.map Prod.snd := by
  rw [bareRun, List.map_map]
  rfl

theorem all_hasSemicolon_bareRun (run : List Ranked) :
    ((bareRun run).all fun x => hasSemicolon x.1) = run.all fun x => hasSemicolon x.1 := by
  rw [bareRun, List.all_map]
  simp only [Function.comp_def, hasSemicolon_nodeBare]

theorem runs_bare (o : Options) (ns : List Node) :
    runs o (ns.map Node.bare) = (runs o ns).map bareRun := by
  induction ns with
  | nil => rfl
  | cons n ns ih =>
    rw [List.map_cons]
    cases h : rank? o n with
    | none =>
      rw [runs_of_none h, runs_of_none ((rank?_nodeBare o n).trans h), ih]
      rfl
    | some r =>
      obtain ⟨run, more, hruns⟩ := exists_runs o ns
      rw [hruns, List.map_cons] at ih
      rw [runs_of_some h hruns, runs_of_some ((rank?_nodeBare o n).trans h) ih]
      rfl

/-- Nothing is found in a run of nodes in order, wherever their tokens stand. -/
theorem runFindings_of_arranged {children : List Node}
    (hsame : children.map Node.bare = (arranged o ns).map Node.bare) (hrun : run ∈ runs o children)
    (hclosed : (run.all fun x => hasSemicolon x.1) = true) : runFindings run = [] := by
  have hmem := List.mem_map_of_mem (f := bareRun) hrun
  rw [← runs_bare, hsame, runs_bare, runs_arranged, List.map_map] at hmem
  obtain ⟨run', -, hbare⟩ := List.mem_map.mp hmem
  rw [Function.comp_apply] at hbare
  have hranks := congrArg (List.map Prod.snd) hbare
  rw [map_snd_bareRun, map_snd_bareRun] at hranks
  rw [← all_hasSemicolon_bareRun, ← hbare, all_hasSemicolon_bareRun] at hclosed
  refine runFindings_eq_nil (hranks ▸ ?_)
  rw [sortRun] at hclosed ⊢
  split
  · exact (sorts_sortedRun run').order
  · rename_i hopen
    rw [if_neg hopen] at hclosed
    exact absurd hclosed hopen

/-- **Nothing is found in a tree in order**, wherever its tokens stand. -/
theorem runFindings_of_ordered {sheet sheet' : Stylesheet} (hbare : sheet.bare = sheet'.bare)
    (hordered : ∀ body ∈ sheet'.nodes.filterMap body?, ∃ ns, body.children = arranged o ns)
    {body : Body} (hbody : body ∈ sheet.nodes.filterMap body?) (hrun : run ∈ runs o body.children)
    (hclosed : (run.all fun x => hasSemicolon x.1) = true) : runFindings run = [] := by
  obtain ⟨n, hn, hbody⟩ := List.mem_filterMap.mp hbody
  have hmem := List.mem_map_of_mem (f := Node.bare) hn
  rw [← Stylesheet.nodes_bare, hbare, Stylesheet.nodes_bare] at hmem
  obtain ⟨m, hm, hsame⟩ := List.mem_map.mp hmem
  cases n with
  | statement => cases hbody
  | block leading level depth head opening children trailing closing =>
    cases hbody
    cases m with
    | statement => cases hsame
    | block leading' level' depth' head' opening' children' trailing' closing' =>
      obtain ⟨ns, hns⟩ := hordered _ (List.mem_filterMap.mpr ⟨_, hm, rfl⟩)
      rw [Node.bare, Node.bare, Node.relabel, Node.relabel, Node.block.injEq] at hsame
      obtain ⟨-, -, -, -, -, hchildren, -⟩ := hsame
      rw [relabelAll_eq_map, relabelAll_eq_map] at hchildren
      exact runFindings_of_arranged (hchildren.symm.trans (congrArg _ hns)) hrun hclosed

/-! ## All fixes together -/

/-- **All fixes of the rule together put the runs of all blocks in order** whose statements end with
semicolons: each keeps its statements, those of one rank in the order in which they are written, and
the whitespace in front of them. Nothing else changes, and nothing is found in these runs then. -/
theorem blocks_ordered (o : Options) (source : Text) (hok : (Parse.ofText source).isOk = true) :
    let sheet := (Parse.ofText source).sheet
    let fixes := (check o source sheet).filterMap Finding.fix
    fixes.Pairwise (fun a b => a.conflicts b = false)
      ∧ ∃ (out : Text) (sheet' : Stylesheet), Edit.applyAll? source (fixes.flatMap Fix.edits) = some out
        ∧ (Parse.ofText out).isOk = true
        ∧ out = sheet'.text ∧ (Parse.ofText out).sheet.bare = sheet'.bare
        ∧ List.Forall₂ (Reordered o) sheet.children sheet'.children
        ∧ sheet'.trailing = sheet.trailing
        ∧ ∀ body ∈ (Parse.ofText out).sheet.nodes.filterMap body?, ∀ run ∈ runs o body.children,
            (run.all fun x => hasSemicolon x.1) = true → runFindings run = [] := by
  intro sheet fixes
  obtain ⟨slots, hslots⟩ := exists_leads_children o source
  obtain ⟨htree, hlegible, hclean⟩ := ofTokens_settledTokens o hok hslots
  obtain ⟨-, herrors⟩ := (Parse.isOk_iff (ofText source)).mp hok
  obtain ⟨hconflict, happly⟩ := applyAll?_slots (hslots.split_eq hok)
  have hperm := hslots.edits.symm
  rw [← edits_check] at hperm
  generalize PieceSlot.settledTokens slots sheet.trailing = ts at htree hlegible hclean happly
  have hout : (ofText (text ts)).map Token.bare = ts.map Token.bare := (legible_iff .start).mp hlegible
  have hbare : (Parse.ofText (text ts)).sheet.bare = (orderedSheet o sheet).bare := by
    rw [← htree]
    exact Stylesheet.bare_eq_of_map_bare hout
  refine ⟨Edit.pairwise_conflicts_of_edits (Edit.pairwise_conflicts_perm hperm hconflict), text ts,
    orderedSheet o sheet, Edit.applyAll?_of_perm happly hperm hconflict, ?_, ?_, hbare,
    reordered_orderedEach o _, rfl, ?_⟩
  · refine (Parse.isOk_eq_of_map_bare hout).trans ((Parse.isOk_iff ts).mpr ⟨?_, ?_⟩)
    · exact (Parse.tokenErrors_eq_nil_iff ts).mpr hclean
    · rw [htree]
      exact errorsOfAll_orderedEach o _ herrors
  · rw [← htree, Stylesheet.text, Stylesheet.tokens_ofTokens]
  · exact fun body hbody run hrun hclosed =>
      runFindings_of_ordered hbare (exists_arranged_orderedEach o _) hbody hrun hclosed

namespace Insets

/-- An inset behind one that comes later in their family, and another value for that one. -/
def crossed : Text := "a\x7b// x\n left:0;\ttop:0;left:1;\x7d".toList

/-- The insets in order: the two values for one of them do not change places. -/
def uncrossed : Text := "a\x7b// x\n top:0;\tleft:0;left:1;\x7d".toList

theorem isOk_crossed : (Parse.ofText crossed).isOk = true := by cbv

theorem edits_crossed :
    ((check {} crossed (Parse.ofText crossed).sheet).filterMap Finding.fix).flatMap Fix.edits =
      [⟨8, 15, "top:0;".toList⟩, ⟨16, 22, "left:0;".toList⟩] := by cbv

theorem applyAll?_crossed :
    Edit.applyAll? crossed [⟨8, 15, "top:0;".toList⟩, ⟨16, 22, "left:0;".toList⟩] =
      some uncrossed := by cbv

end Insets

/-- Two statements behind a comment change places. -/
theorem blocks_ordered_insets :
    let sheet := (Parse.ofText Insets.crossed).sheet
    (Parse.ofText Insets.crossed).isOk = true
      ∧ ∃ sheet' : Stylesheet, (Parse.ofText Insets.uncrossed).isOk = true
        ∧ Insets.uncrossed = sheet'.text ∧ (Parse.ofText Insets.uncrossed).sheet.bare = sheet'.bare
        ∧ List.Forall₂ (Reordered {}) sheet.children sheet'.children
        ∧ ∀ body ∈ (Parse.ofText Insets.uncrossed).sheet.nodes.filterMap body?,
            ∀ run ∈ runs {} body.children,
              (run.all fun x => hasSemicolon x.1) = true → runFindings run = [] := by
  intro sheet
  obtain ⟨-, out, sheet', happly, hok, htext, hbare, hordered, -, hnone⟩ :=
    blocks_ordered {} Insets.crossed Insets.isOk_crossed
  rw [Insets.edits_crossed, Insets.applyAll?_crossed, Option.some.injEq] at happly
  subst happly
  exact ⟨Insets.isOk_crossed, sheet', hok, htext, hbare, hordered, hnone⟩

end SheetLint.PropertyOrder
