import SheetLint.Proofs.Rule.Lines
import SheetLint.Proofs.Tree.Flattening
import SheetLint.Proofs.Tree.Spacing

/-!
# Trees with blank lines between their blocks

At every level of a tree a blank line is put in front of the blocks that lack it, in place of the
whitespace that is there. Nothing else changes: the pieces of the tree then are those of the tree, with
other whitespace in front of some of them. The edits that put it there are those of the rule.

Results:
* `pieces_slots`, `pieces_separated`: the pieces of both trees, as slots for whitespace.
* `isChain_separatedBehind`: in the new tree every block is set off from what stands in front of it.
* `spacing_separated`: what whitespace stands in front of nodes then.
* `edits_slots_perm`, `edits_check`: the edits of the rule are those of the slots.
-/

namespace SheetLint.EmptyLineBetweenRules

open Node Tokens

variable {before n : Node} {ns : List Node} {put? : Option Token}

/-! ## Blank lines -/

/-- The indentation of what stands behind some trivia, if it starts a line. -/
def indentation? (trivia : List Token) : Option Text := (Indent.ofTrivia? trivia).map Indent.text

/-- Whether a node is set off from the one in front of it, or need not be. -/
def Separated (before n : Node) : Prop :=
  before.isComment = false → needsSeparation n = true → lineBreaks n.leading = 2

instance (before n : Node) : Decidable (Separated before n) :=
  inferInstanceAs (Decidable (_ → _ → _))

/-- What the rule tells a node that lacks a blank line by. -/
theorem separated_iff (before n : Node) : Separated before n ↔
    (before.isComment || !needsSeparation n || lineBreaks n.leading = 2) = true := by
  rw [Separated, Bool.or_eq_true, Bool.or_eq_true, Bool.not_eq_true', decide_eq_true_eq]
  cases before.isComment <;> cases needsSeparation n <;> simp

/-- A blank line, in place of other whitespace: the indentation stays. -/
def blankLine (leading : List Token) : Token :=
  ⟨.whitespace, ['\n', '\n'] ++ (indentation? leading).getD [], default⟩

/-- The blank line in front of a node that is to be set off from the node in front of it. -/
def blankLine? (before : Option Node) (n : Node) : Option Token :=
  if ∀ m ∈ before, Separated m n then none else some (blankLine n.leading)

/-- Whether a token is the blank line that a node lacks. -/
structure Parts (n : Node) (t : Token) : Prop where
  eq : t = blankLine n.leading
  needs : needsSeparation n = true
  breaks : lineBreaks n.leading ≠ 2

theorem parts_of_blankLine? {before : Option Node} : ∀ t ∈ blankLine? before n, Parts n t := by
  intro t ht
  unfold blankLine? at ht
  split at ht
  · cases ht
  · rename_i hsome
    cases ht
    obtain ⟨m, -, hapart⟩ : ∃ m ∈ before, ¬ Separated m n := by simpa using hsome
    simp only [Separated, Classical.not_imp] at hapart
    exact ⟨rfl, hapart.2.1, hapart.2.2⟩

/-- Statements need no blank line. -/
theorem put?_of_statement {leading : List Token} {level : Nat} {s : Statement}
    (h : ∀ t ∈ put?, Parts (.statement leading level s) t) : put? = none :=
  Option.eq_none_iff_forall_not_mem.mpr fun t ht => Bool.false_ne_true (h t ht).needs

theorem indentation?_map_bare (ts : List Token) : indentation? (ts.map Token.bare) = indentation? ts := by
  simp only [indentation?, Indent.ofTrivia?, ← List.map_reverse, List.find?_map, Option.map_map]
  rfl

theorem lineBreaks_map_bare (ts : List Token) : lineBreaks (ts.map Token.bare) = lineBreaks ts := by
  simp only [lineBreaks, List.filter_map, List.flatMap_map]
  rfl

theorem lineFeed_notMem_indentation (trivia : List Token) :
    '\n' ∉ (indentation? trivia).getD [] := by
  unfold indentation? Indent.ofTrivia?
  cases trivia.reverse.find? _ with
  | none => exact List.not_mem_nil
  | some t => exact Indent.not_mem_lastLine t.text

theorem lineBreaks_blankLine (leading : List Token) : lineBreaks [blankLine leading] = 2 := by
  have hnone := List.count_eq_zero.mpr (lineFeed_notMem_indentation leading)
  simp [lineBreaks, blankLine, Token.isWhitespace, hnone]

/-- The indentation stays. -/
theorem indentation?_blankLine (leading : List Token) :
    indentation? [blankLine leading] = some ((indentation? leading).getD []) := by
  have hline : Indent.lastLine (['\n'] ++ '\n' :: (indentation? leading).getD []) =
      (indentation? leading).getD [] := Indent.lastLine_append (lineFeed_notMem_indentation leading)
  simp only [indentation?, Indent.ofTrivia?] at hline ⊢
  simpa [blankLine, Token.isWhitespace, Text.has, indentation?, Indent.ofTrivia?] using hline

/-- **Nothing is found between nodes that are set off from each other.** -/
theorem siblingFindings_eq_nil (h : ns.IsChain Separated) : siblingFindings ns = [] := by
  fun_induction siblingFindings ns with
  | case1 before n rest ih =>
    obtain ⟨hpair, hlater⟩ := List.isChain_cons_cons.mp h
    rw [ih hlater, List.append_nil, pairFinding]
    exact if_pos ((separated_iff before n).mp hpair)
  | case2 => rfl

/-! ## Blank lines in a tree -/

mutual
/-- The node behind other whitespace, if some is given, with blank lines between the blocks in it. -/
def separated (put? : Option Token) : Node → Node
  | .statement leading level s => .statement (put?.elim leading fun t => [t]) level s
  | .block leading level depth head opening children trailing closing =>
    .block (put?.elim leading fun t => [t]) level depth head opening (separatedBehind none children)
      trailing closing

/-- Nodes that stand behind another one, or behind none, with blank lines between the blocks. -/
def separatedBehind (before : Option Node) : List Node → List Node
  | [] => []
  | n :: ns => separated (blankLine? before n) n :: separatedBehind (some n) ns
end

mutual
/-- The pieces of a node as slots, other whitespace in front of the node if some is given. -/
def slots (put? : Option Token) : Node → List SpaceSlot
  | .statement leading _ s => [⟨⟨leading, .statement s⟩, put?⟩]
  | .block leading _ _ head opening children trailing closing =>
    ⟨⟨leading, .opening head opening⟩, put?⟩ :: (slotsBehind none children
      ++ closing.toList.map fun brace => ⟨⟨trailing, .closing brace⟩, none⟩)

@[inherit_doc slots]
def slotsBehind (before : Option Node) : List Node → List SpaceSlot
  | [] => []
  | n :: ns => slots (blankLine? before n) n ++ slotsBehind (some n) ns
end

mutual
theorem pieces_slots (put? : Option Token) :
    (n : Node) → (slots put? n).map SpaceSlot.piece = n.pieces
  | .statement _ _ _ => rfl
  | .block leading level depth head opening children trailing closing => by
    rw [slots, pieces, List.map_cons, List.map_append, pieces_slotsBehind none children, List.map_map]
    rfl

/-- **The pieces of a tree, as slots.** -/
theorem pieces_slotsBehind (before : Option Node) :
    (ns : List Node) → (slotsBehind before ns).map SpaceSlot.piece = piecesOfAll ns
  | [] => rfl
  | n :: ns => by
    rw [slotsBehind, piecesOfAll, List.map_append, pieces_slots, pieces_slotsBehind (some n) ns]
end

mutual
theorem pieces_separated (put? : Option Token) :
    (n : Node) → (slots put? n).map SpaceSlot.spaced = (separated put? n).pieces
  | .statement _ _ _ => rfl
  | .block leading level depth head opening children trailing closing => by
    rw [slots, separated, pieces, List.map_cons, List.map_append,
      pieces_separatedBehind none children, List.map_map]
    rfl

/-- **The pieces of the new tree**: those of the old one, with other whitespace in front of some. -/
theorem pieces_separatedBehind (before : Option Node) :
    (ns : List Node) →
      (slotsBehind before ns).map SpaceSlot.spaced = piecesOfAll (separatedBehind before ns)
  | [] => rfl
  | n :: ns => by
    rw [slotsBehind, separatedBehind, piecesOfAll, List.map_append, pieces_separated,
      pieces_separatedBehind (some n) ns]
end

mutual
theorem numbered_separated {blocks ruleSets : Nat} (put? : Option Token) :
    (n : Node) → n.Numbered blocks ruleSets → (separated put? n).Numbered blocks ruleSets
  | .statement _ _ _, h => by
    rw [Numbered] at h
    rw [separated, Numbered]
    exact h
  | .block leading level depth head opening children trailing closing, h => by
    rw [Numbered] at h
    rw [separated, Numbered]
    exact ⟨h.1, h.2.1, numbered_separatedBehind none children h.2.2⟩

theorem numbered_separatedBehind {blocks ruleSets : Nat} (before : Option Node) :
    (ns : List Node) → NumberedOfAll blocks ruleSets ns →
      NumberedOfAll blocks ruleSets (separatedBehind before ns)
  | [], h => h
  | n :: ns, h => by
    rw [NumberedOfAll] at h
    rw [separatedBehind, NumberedOfAll]
    exact ⟨numbered_separated _ n h.1, numbered_separatedBehind (some n) ns h.2⟩
end

mutual
theorem errors_separated (put? : Option Token) : (n : Node) → (separated put? n).errors = n.errors
  | .statement _ _ _ => by rw [separated, errors, errors]
  | .block leading level depth head opening children trailing closing => by
    rw [separated, errors, errors, errors_separatedBehind none children]

theorem errors_separatedBehind (before : Option Node) :
    (ns : List Node) → errorsOfAll (separatedBehind before ns) = errorsOfAll ns
  | [] => rfl
  | n :: ns => by
    rw [separatedBehind, errorsOfAll, errorsOfAll, errors_separated, errors_separatedBehind (some n) ns]
end

/-! ## What the blank lines do -/

theorem leading_separated (put? : Option Token) (n : Node) :
    (separated put? n).leading = put?.elim n.leading fun t => [t] := by
  cases n <;> rfl

theorem isComment_separated (put? : Option Token) (n : Node) :
    (separated put? n).isComment = n.isComment := by
  cases n with
  | statement leading level s => cases s <;> rfl
  | block => rfl

theorem needsSeparation_separated (put? : Option Token) (n : Node) :
    needsSeparation (separated put? n) = needsSeparation n := by
  cases n with
  | statement => rfl
  | block leading level depth head => cases head <;> rfl

/-- A node is set off from the one in front of it by its blank line. -/
theorem separated_blankLine? (put? : Option Token) (before n : Node) :
    Separated (separated put? before) (separated (blankLine? (some before) n) n) := by
  rw [Separated, isComment_separated, needsSeparation_separated, leading_separated]
  intro hcomment hneeds
  unfold blankLine?
  split
  · rename_i hall
    exact hall before rfl hcomment hneeds
  · exact lineBreaks_blankLine n.leading

/-- **Nodes with blank lines between them are set off from each other.** -/
theorem isChain_separatedBehind (before : Option Node) (ns : List Node) :
    (separatedBehind before ns).IsChain Separated := by
  induction ns generalizing before with
  | nil => exact .nil
  | cons n ns ih =>
    have hbehind := ih (some n)
    cases ns with
    | nil => exact .singleton _
    | cons next ns => exact List.isChain_cons_cons.mpr ⟨separated_blankLine? _ n next, hbehind⟩

mutual
theorem isChain_children_separated (put? : Option Token) : (n : Node) →
    ∀ m ∈ (separated put? n).nodes, ∀ body ∈ m.body?, body.children.IsChain Separated
  | .statement _ _ _ => by simp [separated, nodes, body?]
  | .block leading level depth head opening children trailing closing => by
    rw [separated, nodes, List.forall_mem_cons]
    refine ⟨?_, isChain_children_separatedBehind none children⟩
    rintro body ⟨⟩
    exact isChain_separatedBehind none children

/-- **So are those inside each node.** -/
theorem isChain_children_separatedBehind (before : Option Node) : (ns : List Node) →
    ∀ m ∈ nodesOfAll (separatedBehind before ns), ∀ body ∈ m.body?, body.children.IsChain Separated
  | [] => by simp [separatedBehind, nodesOfAll]
  | n :: ns => by
    rw [separatedBehind, nodesOfAll, List.forall_mem_append]
    exact ⟨isChain_children_separated _ n, isChain_children_separatedBehind (some n) ns⟩
end

/-- What whitespace stands in front of a node: the old one, or a blank line in place of it, where the
node lacks one. Where the node starts a line, its indentation stays. -/
structure Spacing (n : Node) (leading : List Token) : Prop where
  indentation : ∀ indent ∈ indentation? n.leading, indentation? leading = some indent
  text : text leading = text n.leading
    ∨ needsSeparation n = true ∧ lineBreaks n.leading ≠ 2
      ∧ text leading = ['\n', '\n'] ++ (indentation? n.leading).getD []

theorem spacing_of_parts (h : ∀ t ∈ put?, Parts n t) : Spacing n (separated put? n).leading := by
  rw [leading_separated]
  cases put? with
  | none => exact ⟨fun _ h => h, .inl rfl⟩
  | some t =>
    obtain ⟨rfl, hneeds, hbreaks⟩ := h t rfl
    refine ⟨fun indent hindent => ?_, .inr ⟨hneeds, hbreaks, List.append_nil _⟩⟩
    rw [Option.elim, indentation?_blankLine, hindent, Option.getD_some]

mutual
theorem spacing_separated (put? : Option Token) : (n : Node) → (∀ t ∈ put?, Parts n t) →
    List.Forall₂ (fun m m' => Spacing m m'.leading) n.nodes (separated put? n).nodes
  | .statement _ _ _, h => .cons (spacing_of_parts h) .nil
  | .block _ _ _ _ _ children _ _, h =>
    .cons (spacing_of_parts h) (spacing_separatedBehind none children)

/-- **The whitespace in front of the nodes of the new tree.** -/
theorem spacing_separatedBehind (before : Option Node) : (ns : List Node) →
    List.Forall₂ (fun m m' => Spacing m m'.leading) (nodesOfAll ns)
      (nodesOfAll (separatedBehind before ns))
  | [] => .nil
  | n :: ns =>
    List.rel_append (spacing_separated _ n parts_of_blankLine?) (spacing_separatedBehind (some n) ns)
end

mutual
theorem opening_of_slots (put? : Option Token) : (n : Node) → (∀ t ∈ put?, Parts n t) →
    ∀ slot ∈ slots put? n, ∀ t ∈ slot.put?, t = blankLine slot.piece.leading
      ∧ ∃ head brace, slot.piece.body = .opening head brace
  | .statement leading level s, h => by
    rw [put?_of_statement h, slots, List.forall_mem_singleton]
    rintro t ⟨⟩
  | .block leading level depth head opening children trailing closing, h => by
    rw [slots, List.forall_mem_cons, List.forall_mem_append, List.forall_mem_map]
    refine ⟨fun t ht => ⟨(h t ht).eq, head, opening, rfl⟩, opening_of_slotsBehind none children, ?_⟩
    rintro brace - t ⟨⟩

/-- **Blank lines are put in front of the pieces that open a block.** -/
theorem opening_of_slotsBehind (before : Option Node) : (ns : List Node) →
    ∀ slot ∈ slotsBehind before ns, ∀ t ∈ slot.put?, t = blankLine slot.piece.leading
      ∧ ∃ head brace, slot.piece.body = .opening head brace
  | [] => by simp [slotsBehind]
  | n :: ns => by
    rw [slotsBehind, List.forall_mem_append]
    exact ⟨opening_of_slots _ n parts_of_blankLine?, opening_of_slotsBehind (some n) ns⟩
end

/-! ## The edits of the rule -/

/-- Where a run of tokens starts. -/
def startOf (ts : List Token) : Nat := (ts.head?.map Token.start).getD 0

/-- The edit of a slot. -/
def slotEdit? (slot : SpaceSlot) : Option Edit :=
  slot.put?.map fun _ => separate slot.piece.leading (startOf slot.piece.body.tokens)

/-- The edit in front of a node. -/
def nodeEdit? (put? : Option Token) (n : Node) : Option Edit :=
  put?.map fun _ => separate n.leading (startOf n.content)

/-- The edits between nodes that stand side by side. -/
def siblingEdits (before : Option Node) : List Node → List Edit
  | [] => []
  | n :: ns => (nodeEdit? (blankLine? before n) n).toList ++ siblingEdits (some n) ns

/-- The edits between the nodes in a block. -/
def bodyEdits (n : Node) : List Edit := n.body?.elim [] fun body => siblingEdits none body.children

mutual
theorem edits_slots_perm (put? : Option Token) : (n : Node) → ((slots put? n).filterMap slotEdit?).Perm
    ((nodeEdit? put? n).toList ++ n.nodes.flatMap bodyEdits)
  | .statement leading level s => by
    cases put? <;> exact .refl _
  | .block leading level depth head opening children trailing closing => by
    have hstart : startOf (block leading level depth head opening children trailing closing).content =
        startOf (PieceBody.opening head opening).tokens := by
      simp [startOf, content, PieceBody.tokens]
    have hclosing : (closing.toList.map fun brace =>
        (⟨⟨trailing, .closing brace⟩, none⟩ : SpaceSlot)).filterMap slotEdit? = [] := by
      cases closing <;> rfl
    have hinside := edits_slotsBehind_perm none children
    have hfirst : [(⟨⟨leading, .opening head opening⟩, put?⟩ : SpaceSlot)].filterMap slotEdit? =
        (nodeEdit? put? (block leading level depth head opening children trailing closing)).toList := by
      rw [nodeEdit?, hstart]
      cases put? <;> rfl
    rw [slots, ← List.singleton_append, List.filterMap_append, List.filterMap_append, hclosing,
      List.append_nil, hfirst, nodes, List.flatMap_cons]
    exact hinside.append_left _

/-- **The edits of the slots, level by level.** -/
theorem edits_slotsBehind_perm (before : Option Node) : (ns : List Node) →
    ((slotsBehind before ns).filterMap slotEdit?).Perm
      (siblingEdits before ns ++ (nodesOfAll ns).flatMap bodyEdits)
  | [] => .nil
  | n :: ns => by
    have hfirst := edits_slots_perm (blankLine? before n) n
    have hlater := edits_slotsBehind_perm (some n) ns
    rw [slotsBehind, siblingEdits, nodesOfAll, List.filterMap_append, List.flatMap_append]
    refine (hfirst.append hlater).trans ?_
    -- the edits in the node come behind those of its level
    rw [List.append_assoc, List.append_assoc]
    exact (List.perm_append_comm_assoc _ _ _).append_left _
end

/-- The edit for a node behind another one. -/
theorem edits_pairFinding (hword : StartsWithWord n.content) :
    ((pairFinding before n).filterMap Finding.fix).flatMap Fix.edits =
      (nodeEdit? (blankLine? (some before) n) n).toList := by
  obtain ⟨first, hfirst, -⟩ := hword
  obtain ⟨more, hcontent⟩ := List.head?_eq_some_iff.mp hfirst
  have hne : n.content ≠ [] := by simp [hcontent]
  obtain ⟨span, hspan⟩ := exists_span? hne
  have hstart : span.start.offset = startOf n.content := by
    rw [hcontent] at hspan ⊢
    cases hlast : (first :: more).getLast? with
    | none => simp at hlast
    | some last =>
      rw [span?, List.head?_cons, hlast] at hspan
      cases hspan
      rfl
  have hall : (∀ m ∈ some before, Separated m n) ↔ Separated before n :=
    ⟨fun h => h before rfl, fun h m hm => Option.some.inj hm ▸ h⟩
  unfold pairFinding blankLine?
  simp only
  split
  · rename_i hnone
    rw [if_pos (hall.mpr ((separated_iff before n).mpr hnone))]
    rfl
  · rename_i hsome
    rw [if_neg fun h => hsome ((separated_iff before n).mp (hall.mp h)), hspan, nodeEdit?, ← hstart]
    rfl

theorem edits_siblingFindings (hns : ∀ n ∈ ns, StartsWithWord n.content) :
    ((siblingFindings ns).filterMap Finding.fix).flatMap Fix.edits = siblingEdits none ns := by
  cases ns with
  | nil => rfl
  | cons first ns =>
    have hbehind (ns : List Node) (before : Node) (hns : ∀ n ∈ ns, StartsWithWord n.content) :
        ((siblingFindings (before :: ns)).filterMap Finding.fix).flatMap Fix.edits =
          siblingEdits (some before) ns := by
      induction ns generalizing before with
      | nil => rfl
      | cons n ns ih =>
        rw [List.forall_mem_cons] at hns
        rw [siblingFindings, List.filterMap_append, List.flatMap_append, edits_pairFinding hns.1,
          ih n hns.2, siblingEdits]
    -- nothing is put in front of the first node
    exact hbehind ns first (List.forall_mem_cons.mp hns).2

/-- **The edits of the rule are those between the nodes of each level.** -/
theorem edits_check (source : Text) :
    ((check source (Parse.ofText source).sheet).filterMap Finding.fix).flatMap Fix.edits =
      siblingEdits none (Parse.ofText source).sheet.children
        ++ (Parse.ofText source).sheet.nodes.flatMap bodyEdits := by
  have hwords : ∀ n ∈ (Parse.ofText source).sheet.nodes, StartsWithWord n.content :=
    fun n hn => (Stylesheet.delimited_of_mem_nodes hn).head
  have hinside (ms : List Node) (hms : ms ⊆ (Parse.ofText source).sheet.nodes) :
      (((ms.filterMap fun n => n.body?.map Body.children).flatMap siblingFindings).filterMap
        Finding.fix).flatMap Fix.edits = ms.flatMap bodyEdits := by
    induction ms with
    | nil => rfl
    | cons n ms ih =>
      rw [List.cons_subset] at hms
      rw [List.flatMap_cons, ← ih hms.2]
      cases hbody : n.body? with
      | none =>
        rw [List.filterMap_cons_none (by rw [hbody]; rfl), bodyEdits, hbody]
        rfl
      | some body =>
        have hchildren : ∀ m ∈ body.children, StartsWithWord m.content :=
          fun m hm => hwords m (mem_nodesOfAll_of_mem_children hms.1 hbody hm)
        rw [List.filterMap_cons_some (b := body.children) (by rw [hbody]; rfl), List.flatMap_cons,
          List.filterMap_append, List.flatMap_append, edits_siblingFindings hchildren, bodyEdits, hbody]
        rfl
  have hchildren : ∀ n ∈ (Parse.ofText source).sheet.children, StartsWithWord n.content :=
    fun n hn => hwords n (mem_nodesOfAll_of_mem hn)
  rw [check, Stylesheet.siblings, List.flatMap_cons, List.filterMap_append, List.flatMap_append,
    edits_siblingFindings hchildren, hinside _ (List.Subset.refl _)]

end SheetLint.EmptyLineBetweenRules
