import SheetLint.Proofs.Rule.FixesApply
import SheetLint.Proofs.Rule.Sorting
import SheetLint.Proofs.Tree.Closed

/-!
# The fixes of the rule about the order of declarations

The statements of a run change places: the edits put the text of one where another stands. The
places stand apart, and statements that end with a semicolon do not go on behind each other, so the
text only stays the same when each place gets the text that stands there. Then it also gets the rank
that stands there, and the sort, which keeps the order of equal ranks, would have moved nothing.

Results:
* `pairwise_spans`: the contents of nodes that stand side by side do not overlap.
* `rank?_eq_of_append_eq`: statements with semicolon that start one text have one rank.
* `fixesApply`: the fixes of the rule are applicable.
-/

namespace SheetLint.PropertyOrder

open Parse

variable {source : Text} {o : Options} {n n' : Node} {run : List Ranked}

/-! ## Runs -/

/-- What is known of a run: its nodes stand side by side, and have the ranks that they are given. -/
structure RunOf (o : Options) (children : List Node) (run : List Ranked) : Prop where
  nodes : run.map Prod.fst <:+: children
  ranks : ∀ x ∈ run, rank? o x.1 = some x.2

theorem RunOf.cons {children : List Node} (h : RunOf o children run) (n : Node) :
    RunOf o (n :: children) run :=
  ⟨h.nodes.trans (List.suffix_cons n children).isInfix, h.ranks⟩

theorem runOf_nil (children : List Node) : RunOf o children [] :=
  ⟨List.nil_infix, by simp⟩

/-- Nodes are cut into runs, of which the first starts with the first node unless it is empty. -/
theorem runOf_of_mem_runs (o : Options) (children : List Node) :
    (∀ run ∈ runs o children, RunOf o children run)
      ∧ ∀ run ∈ (runs o children).head?, run.map Prod.fst <+: children := by
  induction children with
  | nil => simp [runs, runOf_nil]
  | cons n ns ih =>
    rw [runs]
    split
    · rename_i r run more hr hruns
      rw [hruns, List.forall_mem_cons] at ih
      have hstarts : ((n, r) :: run).map Prod.fst <+: n :: ns :=
        (List.prefix_cons_inj n).mpr (ih.2 run rfl)
      refine ⟨List.forall_mem_cons.mpr ⟨⟨hstarts.isInfix, ?_⟩, fun x hx => (ih.1.2 x hx).cons n⟩, ?_⟩
      · exact List.forall_mem_cons.mpr ⟨hr, ih.1.1.ranks⟩
      · rintro _ ⟨⟩
        exact hstarts
    · rename_i r hr hruns
      have hstarts : [(n, r)].map Prod.fst <+: n :: ns := ⟨ns, rfl⟩
      refine ⟨?_, by rintro _ ⟨⟩; exact hstarts⟩
      rw [List.forall_mem_singleton]
      exact ⟨hstarts.isInfix, by simpa using hr⟩
    · exact ⟨List.forall_mem_cons.mpr ⟨runOf_nil _, fun x hx => (ih.1 x hx).cons n⟩, by simp⟩

/-! ## Where nodes stand -/

/-- The contents of nodes that stand side by side do not overlap. -/
theorem pairwise_spans {ns : List Node} (h : Node.tokensOfAll ns <:+: Tokens.ofText source) :
    ns.Pairwise fun a b => ∀ sa sb, Tokens.span? a.content = some sa →
      Tokens.span? b.content = some sb → sa.stop.offset ≤ sb.start.offset := by
  induction ns with
  | nil => exact List.Pairwise.nil
  | cons a ns ih =>
    refine List.pairwise_cons.mpr ⟨fun b hb sa sb hsa hsb => ?_,
      ih (List.IsInfix.trans (List.suffix_append a.tokens _).isInfix h)⟩
    obtain ⟨front, back, rfl⟩ := List.append_of_mem hb
    obtain ⟨before, after, h⟩ := h
    simp only [Node.tokensOfAll, Node.tokensOfAll_append, a.tokens_eq_leading_append_content,
      b.tokens_eq_leading_append_content] at h
    have ha : Tokens.ofText source = (before ++ a.leading) ++ a.content
        ++ (Node.tokensOfAll front ++ (b.leading ++ b.content ++ Node.tokensOfAll back) ++ after) := by
      simpa using h.symm
    have hb : Tokens.ofText source =
        (before ++ a.leading ++ a.content ++ Node.tokensOfAll front ++ b.leading) ++ b.content
          ++ (Node.tokensOfAll back ++ after) := by
      simpa using h.symm
    rw [(Tokens.offsets_of_span? ha hsa).2, (Tokens.offsets_of_span? hb hsb).1]
    simp only [Tokens.text_append, Text.size_append]
    omega

/-! ## Statements that change places -/

theorem isVariable_bare (d : Declaration) : d.bare.isVariable = d.isVariable := by
  unfold Declaration.isVariable Declaration.bare
  match d.property with
  | [] => rfl
  | [t] => rfl
  | t :: u :: ts => rfl

theorem normalizedName_bare (d : Declaration) : d.bare.normalizedName = d.normalizedName := by
  have hname : d.bare.name = d.name := Tokens.text_map_bare d.property
  rw [Declaration.normalizedName, hname, Declaration.normalizedName]

/-- The rank of a statement does not depend on places. -/
theorem rank?_bare (o : Options) (leading : List Token) (level : Nat) (s : Statement) :
    rank? o (.statement leading level s) = rank? o (.statement [] 0 s.bare) := by
  cases s with
  | declaration d => simp only [rank?, Statement.bare, isVariable_bare, normalizedName_bare]
  | atRule | comment | empty | skipped => rfl

theorem semicolon?_isSome {leading : List Token} {level : Nat} {s : Statement}
    (h : hasSemicolon (.statement leading level s) = true) : s.semicolon?.isSome = true := by
  cases s with
  | declaration | atRule => exact h
  | comment | empty | skipped => cases h

/-- A statement with semicolon is read from its tokens, which end with the first semicolon outside
brackets. -/
theorem exists_closed (hn : n ∈ (ofText source).sheet.nodes) (hs : hasSemicolon n = true) :
    ∃ leading level s first tail semicolon, n = .statement leading level s
      ∧ Piece.ReadUpTo s first tail semicolon ∧ Tokens.Closed (first :: tail) semicolon := by
  have hmade := Stylesheet.madeOfPieces_of_mem_nodes hn
  obtain ⟨before, after, htokens⟩ := tokens_isInfix hn
  cases n with
  | block => cases hs
  | statement leading level s =>
    obtain ⟨semicolon, hsemicolon⟩ := Option.isSome_iff_exists.mp (semicolon?_isSome hs)
    cases hmade.2 with
    | stray => cases hsemicolon
    | read not_space read_eq =>
      obtain ⟨tail, hread⟩ := Piece.exists_readUpTo read_eq hsemicolon
      refine ⟨leading, level, s, _, tail, semicolon, rfl, hread, hread.isPunct, hread.length_eq, ?_⟩
      have hstands : Tokens.ofTextAt .start source =
          (before ++ leading) ++ (s.tokens ++ after) := by
        rw [← Tokens.ofText, ← htokens, Node.tokens]
        simp
      obtain ⟨place, hplace⟩ := Tokens.exists_ofTextAt_of_append hstands
      refine ⟨place, after, ?_⟩
      simpa [hread.tokens_eq] using hplace

/-- **Statements with semicolon that start one text have one text and one rank.** -/
theorem rank?_eq_of_append_eq (hn : n ∈ (ofText source).sheet.nodes)
    (hn' : n' ∈ (ofText source).sheet.nodes) (hs : hasSemicolon n = true)
    (hs' : hasSemicolon n' = true) {rest rest' : Text}
    (h : Tokens.text n.content ++ rest = Tokens.text n'.content ++ rest') :
    Tokens.text n.content = Tokens.text n'.content ∧ rank? o n = rank? o n' := by
  obtain ⟨leading, level, s, first, tail, semicolon, rfl, hread, hclosed⟩ := exists_closed hn hs
  obtain ⟨leading', level', s', first', tail', semicolon', rfl, hread', hclosed'⟩ :=
    exists_closed hn' hs'
  simp only [Node.content] at h ⊢
  rw [hread.tokens_eq, hread'.tokens_eq] at h
  have hbare := hclosed.bare_eq hclosed' h
  rw [← hread.tokens_eq, ← hread'.tokens_eq] at hbare
  constructor
  · rw [← Tokens.text_map_bare s.tokens, hbare, Tokens.text_map_bare]
  · rw [rank?_bare, hread.bare_eq hread' hbare, ← rank?_bare]

/-! ## Moves -/

/-- What a move is: a statement whose slot another takes, and that other one. -/
theorem mem_moves_iff {move : Node × Node} :
    move ∈ moves run ↔ ∃ (i j : Nat) (target moved : Ranked), run[i]? = some target
      ∧ (sortedOrder (run.map Prod.snd))[i]? = some j ∧ j ≠ i ∧ run[j]? = some moved
      ∧ move = (target.1, moved.1) := by
  constructor
  · intro h
    obtain ⟨⟨⟨target, j⟩, i⟩, hslot, hmove⟩ := List.mem_filterMap.mp h
    obtain ⟨hi, horder⟩ := List.getElem?_zip_eq_some.mp (List.mk_mem_zipIdx_iff_getElem?.mp hslot)
    simp only at hmove
    split at hmove
    · cases hmove
    · rename_i hne
      obtain ⟨moved, hj, hmove⟩ := Option.map_eq_some_iff.mp hmove
      exact ⟨i, j, target, moved, hi, horder, hne, hj, hmove.symm⟩
  · rintro ⟨i, j, target, moved, hi, horder, hne, hj, rfl⟩
    refine List.mem_filterMap.mpr ⟨((target, j), i), ?_, ?_⟩
    · exact List.mk_mem_zipIdx_iff_getElem?.mpr (List.getElem?_zip_eq_some.mpr ⟨hi, horder⟩)
    · simp only [if_neg hne, hj, Option.map_some]

theorem length_sortedOrder (run : List Ranked) :
    (sortedOrder (run.map Prod.snd)).length = run.length := by
  simpa using (sortedOrder_perm (run.map Prod.snd)).length_eq

/-- Each slot gets a statement of the run. -/
theorem exists_moved {i : Nat} {target : Ranked} (hi : run[i]? = some target) :
    ∃ (j : Nat) (moved : Ranked), (sortedOrder (run.map Prod.snd))[i]? = some j
      ∧ run[j]? = some moved := by
  have hslot : i < (sortedOrder (run.map Prod.snd)).length := by
    rw [length_sortedOrder]
    exact (List.getElem?_eq_some_iff.mp hi).1
  have hmem := (sortedOrder_perm (run.map Prod.snd)).subset (List.getElem_mem hslot)
  rw [List.mem_range, List.length_map] at hmem
  exact ⟨_, _, List.getElem?_eq_getElem hslot, List.getElem?_eq_getElem hmem⟩

/-- Moves are listed in the order of their slots. -/
theorem pairwise_moves {R : Node → Node → Prop} (h : (run.map Prod.fst).Pairwise R) :
    (moves run).Pairwise fun a b => R a.1 b.1 := by
  have hrun : ((run.zip (sortedOrder (run.map Prod.snd))).map Prod.fst).Pairwise
      fun a b => R a.1 b.1 := by
    rw [List.map_fst_zip (Nat.le_of_eq (length_sortedOrder run).symm)]
    exact List.pairwise_map.mp h
  have hslots : ((run.zip (sortedOrder (run.map Prod.snd))).zipIdx.map Prod.fst).Pairwise
      fun a b => R a.1.1 b.1.1 := by
    rw [List.zipIdx_map_fst]
    rw [List.pairwise_map] at hrun
    exact hrun
  have hmove (slot : (Ranked × Nat) × Nat) (a : Node × Node)
      (ha : (if slot.1.2 = slot.2 then none
        else run[slot.1.2]?.map fun moved => (slot.1.1.1, moved.1)) = some a) :
      a.1 = slot.1.1.1 := by
    split at ha
    · cases ha
    · obtain ⟨moved, -, rfl⟩ := Option.map_eq_some_iff.mp ha
      rfl
  refine (List.pairwise_map.mp hslots).filterMap _ fun x y hxy a ha b hb => ?_
  rwa [hmove x a ha, hmove y b hb]

theorem moves_eq_nil_of_range
    (h : sortedOrder (run.map Prod.snd) = List.range (run.map Prod.snd).length) :
    moves run = [] := by
  refine List.eq_nil_iff_forall_not_mem.mpr fun move hmove => ?_
  obtain ⟨i, j, target, moved, -, hslot, hne, -⟩ := mem_moves_iff.mp hmove
  rw [h] at hslot
  obtain ⟨hi, hslot⟩ := List.getElem?_eq_some_iff.mp hslot
  exact hne (hslot.symm.trans (List.getElem_range hi))

/-- **Nothing moves when each slot keeps its rank.** -/
theorem moves_eq_nil (h : ∀ (i j : Nat) (target moved : Ranked), run[i]? = some target →
    (sortedOrder (run.map Prod.snd))[i]? = some j → run[j]? = some moved → target.2 = moved.2) :
    moves run = [] := by
  have hranks : (sortedOrder (run.map Prod.snd)).map ((run.map Prod.snd)[·]?) =
      (run.map Prod.snd).map some := by
    refine List.ext_getElem? fun i => ?_
    rw [List.getElem?_map, List.getElem?_map, List.getElem?_map]
    cases hi : run[i]? with
    | none =>
      rw [List.getElem?_eq_none_iff, ← length_sortedOrder, ← List.getElem?_eq_none_iff] at hi
      rw [hi]
      rfl
    | some target =>
      obtain ⟨j, moved, horder, hj⟩ := exists_moved hi
      simp [horder, hj, h i j target moved hi horder hj]
  exact moves_eq_nil_of_range (sortedOrder_eq_range hranks)

/-! ## The fix -/

/-- The edits of a fix. -/
def edits (run : List Ranked) : List Edit :=
  (moves run).filterMap fun (target, moved) => moveEdit target moved

/-- What is known of a run whose statements change places. -/
structure Movable (source : Text) (o : Options) (run : List Ranked) : Prop where
  stand : Node.tokensOfAll (run.map Prod.fst) <:+: Tokens.ofText source
  nodes : ∀ x ∈ run, x.1 ∈ (ofText source).sheet.nodes
  ranks : ∀ x ∈ run, rank? o x.1 = some x.2
  closed : ∀ x ∈ run, hasSemicolon x.1 = true

theorem Movable.of_mem_runs {body : Body} (hn : n ∈ (ofText source).sheet.nodes)
    (hbody : n.body? = some body) (hrun : run ∈ runs o body.children)
    (hclosed : ∀ x ∈ run, hasSemicolon x.1 = true) : Movable source o run := by
  obtain ⟨hnodes, hranks⟩ := (runOf_of_mem_runs o body.children).1 run hrun
  refine ⟨?_, ?_, hranks, hclosed⟩
  · refine List.IsInfix.trans (Node.tokensOfAll_isInfix hnodes) ?_
    exact (Node.tokensOfAll_children_isInfix hn hbody).trans
      (Stylesheet.tokensOfAll_children_isPrefix _).isInfix
  · intro x hx
    exact Node.mem_nodesOfAll_of_mem_children hn hbody
      (hnodes.subset (List.mem_map_of_mem hx))

namespace Movable

variable {message : String}

theorem content_isInfix (h : Movable source o run) {x : Ranked} (hx : x ∈ run) :
    x.1.content <:+: Tokens.ofText source := by
  refine List.IsInfix.trans ?_ (tokens_isInfix (h.nodes x hx))
  rw [x.1.tokens_eq_leading_append_content]
  exact (List.suffix_append _ _).isInfix

theorem content_ne_nil (h : Movable source o run) {x : Ranked} (hx : x ∈ run) :
    x.1.content ≠ [] := by
  obtain ⟨leading, level, s, first, tail, semicolon, heq, hread, -⟩ :=
    exists_closed (h.nodes x hx) (h.closed x hx)
  rw [heq, Node.content, hread.tokens_eq]
  exact List.cons_ne_nil _ _

/-- The edit that puts a statement of the run in the place of another. -/
theorem exists_moveEdit (h : Movable source o run) {target : Ranked} (htarget : target ∈ run)
    (moved : Ranked) :
    ∃ e, moveEdit target.1 moved.1 = some e ∧ e.Replaces source (Tokens.text target.1.content)
      ∧ e.OnEdges source ∧ e.replacement = Tokens.text moved.1.content := by
  obtain ⟨span, hspan⟩ := Tokens.exists_span? (h.content_ne_nil htarget)
  obtain ⟨before, after, hstands⟩ := h.content_isInfix htarget
  obtain ⟨hstart, hstop⟩ := Tokens.offsets_of_span? hstands.symm hspan
  refine ⟨_, by rw [moveEdit, hspan, Option.map_some], ?_, ?_, rfl⟩
  · exact ⟨_, _, Tokens.source_eq hstands.symm, hstart, hstop⟩
  · exact Edit.onEdges_of_run hstands.symm hstart hstop

/-- An edit of the fix puts a statement of the run in the place of another. -/
theorem exists_of_mem_edits (h : Movable source o run) {e : Edit} (he : e ∈ edits run) :
    ∃ target ∈ run, ∃ moved ∈ run, e.Replaces source (Tokens.text target.1.content)
      ∧ e.OnEdges source ∧ e.replacement = Tokens.text moved.1.content := by
  obtain ⟨move, hmove, hedit⟩ := List.mem_filterMap.mp he
  obtain ⟨i, j, target, moved, hi, -, -, hj, rfl⟩ := mem_moves_iff.mp hmove
  obtain ⟨e', hedit', hreplaces⟩ := h.exists_moveEdit (List.mem_of_getElem? hi) moved
  cases hedit.symm.trans hedit'
  exact ⟨target, List.mem_of_getElem? hi, moved, List.mem_of_getElem? hj, hreplaces⟩

theorem pairwise_edits (h : Movable source o run) :
    (edits run).Pairwise fun a b => a.stop ≤ b.start := by
  refine (pairwise_moves (pairwise_spans h.stand)).filterMap _ fun x y hxy a ha b hb => ?_
  obtain ⟨sa, hsa, rfl⟩ := Option.map_eq_some_iff.mp ha
  obtain ⟨sb, hsb, rfl⟩ := Option.map_eq_some_iff.mp hb
  exact hxy sa sb hsa hsb

/-- **Statements that change places change the text.** -/
theorem exists_changing_edit (h : Movable source o run) (hmoves : moves run ≠ []) :
    ∃ e ∈ edits run, ¬ e.Replaces source e.replacement := by
  by_contra hall
  have hsame : ∀ e ∈ edits run, e.Replaces source e.replacement := by simpa using hall
  refine hmoves (moves_eq_nil fun i j target moved hi horder hj => ?_)
  have htarget := List.mem_of_getElem? hi
  have hmoved := List.mem_of_getElem? hj
  by_cases hij : j = i
  · rw [hij, hi] at hj
    cases hj
    rfl
  · obtain ⟨e, hedit, hreplaces, -, hreplacement⟩ := h.exists_moveEdit htarget moved
    have he : e ∈ edits run :=
      List.mem_filterMap.mpr ⟨_, mem_moves_iff.mpr ⟨i, j, target, moved, hi, horder, hij, hj, rfl⟩,
        hedit⟩
    have htext := hreplaces.unique (hsame e he)
    rw [hreplacement] at htext
    have hrank := (rank?_eq_of_append_eq (o := o) (h.nodes target htarget) (h.nodes moved hmoved)
      (h.closed target htarget) (h.closed moved hmoved) (congrArg (· ++ []) htext)).2
    rw [h.ranks target htarget, h.ranks moved hmoved] at hrank
    exact Option.some.inj hrank

theorem applicable (h : Movable source o run) (hmoves : moves run ≠ []) :
    Fix.Applicable source ⟨message, edits run⟩ := by
  have hedges : ∀ e ∈ edits run, e.OnEdges source := fun e he =>
    let ⟨_, _, _, _, _, hedges, _⟩ := h.exists_of_mem_edits he
    hedges
  refine Fix.applicable_of_several (fun e he => ?_) hedges h.pairwise_edits
    (h.exists_changing_edit hmoves)
  obtain ⟨target, htarget, moved, hmoved, hreplaces, -, hreplacement⟩ := h.exists_of_mem_edits he
  refine ⟨_, hreplaces,
    Tokens.text_ne_nil (h.content_isInfix htarget) (h.content_ne_nil htarget), ?_⟩
  intro x y hxy
  rw [hreplacement] at hxy ⊢
  exact (rank?_eq_of_append_eq (o := o) (h.nodes moved hmoved) (h.nodes target htarget)
    (h.closed moved hmoved) (h.closed target htarget) hxy).1

end Movable

/-- **What the rule finds**: a run with a statement that is not in its slot, and a fix that moves its
statements if each of them ends with a semicolon. -/
theorem exists_of_mem_check {sheet : Stylesheet} {f : Finding} (hf : f ∈ check o source sheet) :
    ∃ n ∈ sheet.nodes, ∃ body, n.body? = some body ∧ ∃ run ∈ runs o body.children,
      (∃ move ∈ moves run, Tokens.span? move.1.content = some f.span)
        ∧ ∀ fix, f.fix = some fix →
          (∀ x ∈ run, hasSemicolon x.1 = true) ∧ fix = ⟨"Reorder declarations", edits run⟩ := by
  obtain ⟨body, hbody, hf⟩ := List.mem_flatMap.mp hf
  obtain ⟨n, hn, hbody⟩ := List.mem_filterMap.mp hbody
  obtain ⟨run, hrun, hf⟩ := List.mem_flatMap.mp hf
  unfold runFindings at hf
  split at hf
  · cases hf
  · rename_i misplaced wanted more hmoves
    split at hf
    · rename_i span hspan
      rw [List.mem_singleton.mp hf]
      refine ⟨n, hn, body, hbody, run, hrun, ⟨(misplaced, wanted), by simp [hmoves], hspan⟩, ?_⟩
      intro fix hfix
      simp only at hfix
      split at hfix
      · rename_i hclosed
        cases hfix
        exact ⟨List.all_eq_true.mp hclosed, by rw [edits, hmoves]⟩
      · cases hfix
    · cases hf

theorem fixesApply (o : Options) : Check.FixesApply (check o) := by
  intro source f hf fix hfix
  obtain ⟨n, hn, body, hbody, run, hrun, ⟨move, hmove, -⟩, hedits⟩ := exists_of_mem_check hf
  obtain ⟨hclosed, rfl⟩ := hedits fix hfix
  exact Movable.applicable (o := o) (.of_mem_runs hn hbody hrun hclosed) (List.ne_nil_of_mem hmove)

end SheetLint.PropertyOrder
