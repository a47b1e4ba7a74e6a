import SheetLint.Proofs.Rule.SortedRuns
import SheetLint.Proofs.Tree.Flattening
import SheetLint.Proofs.Tree.Interchange

/-!
# Trees with their runs put in order

In each block of a tree the runs are put in order, in the inner blocks first. Only statements change
places, and each of them is a piece by itself. So the pieces of the tree then are those of the tree,
some of their statements exchanged, and the edits that exchange them are those of the rule.

Results:
* `reordered_ordered`: what is left as it is, and what is put in order.
* `exists_leads`: the statements that are exchanged in the pieces of a tree.
-/

namespace SheetLint.PropertyOrder

open Node

variable {o : Options} {n : Node} {ns : List Node} {run : List Ranked}

/-! ## Putting runs in order -/

mutual
/-- The node with all runs in its blocks put in order. -/
def ordered (o : Options) : Node → Node
  | .statement leading level s => .statement leading level s
  | .block leading level depth head opening children trailing closing =>
    .block leading level depth head opening (arranged o (orderedEach o children)) trailing closing

@[inherit_doc ordered]
def orderedEach (o : Options) : List Node → List Node
  | [] => []
  | n :: ns => ordered o n :: orderedEach o ns
end

theorem orderedEach_eq_map (o : Options) (ns : List Node) : orderedEach o ns = ns.map (ordered o) := by
  induction ns with
  | nil => rfl
  | cons n ns ih => rw [orderedEach, ih, List.map_cons]

/-- What it means to put the runs of a list in order: the nodes between the runs stay, and so do runs
with a statement that has no semicolon. -/
structure Rearranged (o : Options) (ns ns' : List Node) : Prop where
  others : others o ns' = others o ns
  runs : List.Forall₂ (fun run run' =>
    if run.all fun x => hasSemicolon x.1 then Sorts run run' else run' = run) (runs o ns) (runs o ns')

/-- What it means to put the runs of all blocks in a node in order: nothing else changes. -/
inductive Reordered (o : Options) : Node → Node → Prop
  | statement (leading : List Token) (level : Nat) (s : Statement) :
      Reordered o (.statement leading level s) (.statement leading level s)
  | block (leading : List Token) (level depth : Nat) (head : Head) (opening : Token)
      {children inner children' : List Node} (trailing : List Token) (closing : Option Token)
      (inside : List.Forall₂ (Reordered o) children inner)
      (rearranged : Rearranged o inner children') :
      Reordered o (.block leading level depth head opening children trailing closing)
        (.block leading level depth head opening children' trailing closing)

theorem rearranged_arranged (o : Options) (ns : List Node) : Rearranged o ns (arranged o ns) := by
  refine ⟨others_arranged o ns, ?_⟩
  rw [runs_arranged, List.forall₂_map_right_iff, List.forall₂_same]
  intro run _
  rw [sortRun]
  split
  · exact sorts_sortedRun run
  · rfl

mutual
/-- **Nothing else changes.** -/
theorem reordered_ordered (o : Options) : (n : Node) → Reordered o n (ordered o n)
  | .statement leading level s => .statement leading level s
  | .block leading level depth head opening children trailing closing =>
    .block leading level depth head opening trailing closing (reordered_orderedEach o children)
      (rearranged_arranged o _)

theorem reordered_orderedEach (o : Options) :
    (ns : List Node) → List.Forall₂ (Reordered o) ns (orderedEach o ns)
  | [] => .nil
  | n :: ns => .cons (reordered_ordered o n) (reordered_orderedEach o ns)
end

/-! ## Slots -/

theorem ordered_of_rank? {r : Rank} (h : rank? o n = some r) : ordered o n = n := by
  cases n with
  | statement => rfl
  | block => cases h

theorem rank?_ordered (o : Options) (n : Node) : rank? o (ordered o n) = rank? o n := by
  cases n <;> rfl

theorem runs_orderedEach (o : Options) (ns : List Node) : runs o (orderedEach o ns) = runs o ns := by
  induction ns with
  | nil => rfl
  | cons n ns ih =>
    rw [orderedEach]
    cases h : rank? o n with
    | none => rw [runs_of_none h, runs_of_none ((rank?_ordered o n).trans h), ih]
    | some r =>
      obtain ⟨run, more, hruns⟩ := exists_runs o ns
      rw [runs_of_some h hruns, ordered_of_rank? h, runs_of_some h (ih.trans hruns)]

theorem others_orderedEach (o : Options) (ns : List Node) :
    others o (orderedEach o ns) = (others o ns).map (ordered o) := by
  rw [orderedEach_eq_map, others, List.filter_map, others]
  refine congrArg (List.map (ordered o)) (List.filter_congr fun n _ => ?_)
  rw [Function.comp_apply, rank?_ordered]

/-- **Where runs are put in order does not depend on what is in the inner blocks.** -/
theorem exchanges_orderedEach (o : Options) (ns : List Node) :
    exchanges o (orderedEach o ns) =
      (exchanges o ns).map fun slot => (ordered o slot.1, slot.2) := by
  rw [exchanges, exchanges, map_weave, runs_orderedEach, others_orderedEach, List.map_map,
    List.map_map, List.map_map]
  refine congrArg (weave · _) (List.map_congr_left fun run hrun => ?_)
  have hranks := ((runOf_of_mem_runs o ns).1 run hrun).ranks
  refine (List.map_id (runSlots run)).symm.trans (List.map_congr_left fun slot hslot => ?_)
  have hmem := List.mem_map_of_mem (f := Prod.fst) hslot
  rw [map_fst_runSlots] at hmem
  obtain ⟨x, hx, heq⟩ := List.mem_map.mp hmem
  rw [← heq, ordered_of_rank? (hranks x hx), heq]
  rfl

theorem arranged_orderedEach (o : Options) (ns : List Node) :
    arranged o (orderedEach o ns) =
      (exchanges o ns).map fun slot => put (ordered o slot.1, slot.2) := by
  rw [arranged, exchanges_orderedEach, List.map_map]
  rfl

/-- The statements that change places end with semicolons. -/
theorem mem_exchanges_some {m : Node} (h : (n, some m) ∈ exchanges o ns) :
    n ∈ ns ∧ m ∈ ns ∧ hasSemicolon n = true ∧ hasSemicolon m = true := by
  obtain ⟨slots', hslots', hslot⟩ | hother := mem_weave.mp h
  · obtain ⟨run, hrun, rfl⟩ := List.mem_map.mp hslots'
    have hnodes := ((runOf_of_mem_runs o ns).1 run hrun).nodes.subset
    rw [runSlots] at hslot
    split at hslot
    · rename_i hclosed
      have hclosed : ∀ x ∈ run.map Prod.fst, hasSemicolon x = true :=
        List.forall_mem_map.mpr (List.all_eq_true.mp hclosed)
      have hn := List.mem_map_of_mem (f := Prod.fst) hslot
      have hm := (settled_perm run).subset (List.mem_map_of_mem (f := settled) hslot)
      rw [map_fst_slots] at hn
      exact ⟨hnodes hn, hnodes hm, hclosed _ hn, hclosed _ hm⟩
    · obtain ⟨x, -, hx⟩ := List.mem_map.mp hslot
      cases hx
  · obtain ⟨x, -, hx⟩ := List.mem_map.mp hother
    cases hx

/-- Nodes whose runs are in order are nodes of the list, behind whitespace of the list. -/
theorem mem_arranged (h : n ∈ arranged o ns) : ∃ m ∈ ns, ∃ leading, n = m.withLeading leading := by
  obtain ⟨⟨slot, moved?⟩, hslot, rfl⟩ := List.mem_map.mp h
  cases moved? with
  | none =>
    have hmem := List.mem_map_of_mem (f := Prod.fst) hslot
    rw [map_fst_exchanges] at hmem
    exact ⟨slot, hmem, slot.leading, rfl⟩
  | some m => exact ⟨m, (mem_exchanges_some hslot).2.1, slot.leading, rfl⟩

/-! ## The tree stays sound -/

theorem numbered_withLeading {blocks ruleSets : Nat} {leading : List Token} :
    (n.withLeading leading).Numbered blocks ruleSets ↔ n.Numbered blocks ruleSets := by
  cases n <;> simp only [withLeading, Numbered]

theorem errors_withLeading (leading : List Token) (n : Node) :
    (n.withLeading leading).errors = n.errors := by
  cases n <;> simp only [withLeading, errors]

mutual
theorem numbered_ordered {blocks ruleSets : Nat} (o : Options) :
    (n : Node) → n.Numbered blocks ruleSets → (ordered o n).Numbered blocks ruleSets
  | .statement _ _ _, h => h
  | .block leading level depth head opening children trailing closing, h => by
    rw [Numbered] at h
    have hinside := numberedOfAll_iff.mp (numberedOfAll_orderedEach o children h.2.2)
    rw [ordered, Numbered]
    refine ⟨h.1, h.2.1, numberedOfAll_iff.mpr fun n hn => ?_⟩
    obtain ⟨m, hm, leading, rfl⟩ := mem_arranged hn
    exact numbered_withLeading.mpr (hinside m hm)

theorem numberedOfAll_orderedEach {blocks ruleSets : Nat} (o : Options) :
    (ns : List Node) → NumberedOfAll blocks ruleSets ns →
      NumberedOfAll blocks ruleSets (orderedEach o ns)
  | [], h => h
  | n :: ns, h => by
    rw [NumberedOfAll] at h
    rw [orderedEach, NumberedOfAll]
    exact ⟨numbered_ordered o n h.1, numberedOfAll_orderedEach o ns h.2⟩
end

mutual
theorem errors_ordered (o : Options) : (n : Node) → n.errors = [] → (ordered o n).errors = []
  | .statement _ _ _, h => h
  | .block leading level depth head opening children trailing closing, h => by
    obtain ⟨hhead, hchildren, hclosing⟩ := errors_block_eq_nil_iff.mp h
    have hinside := errorsOfAll_eq_nil_iff.mp (errorsOfAll_orderedEach o children hchildren)
    refine errors_block_eq_nil_iff.mpr ⟨hhead, errorsOfAll_eq_nil_iff.mpr fun n hn => ?_, hclosing⟩
    obtain ⟨m, hm, leading, rfl⟩ := mem_arranged hn
    rw [errors_withLeading]
    exact hinside m hm

theorem errorsOfAll_orderedEach (o : Options) :
    (ns : List Node) → errorsOfAll ns = [] → errorsOfAll (orderedEach o ns) = []
  | [], h => h
  | n :: ns, h => by
    rw [errorsOfAll, List.append_eq_nil_iff] at h
    rw [orderedEach, errorsOfAll, errors_ordered o n h.1, errorsOfAll_orderedEach o ns h.2]
    rfl
end

/-! ## The blocks of the tree -/

theorem filterMap_body?_withLeading (leading : List Token) (n : Node) :
    (n.withLeading leading).nodes.filterMap body? = n.nodes.filterMap body? := by
  cases n <;> rfl

mutual
/-- **In all blocks the runs are put in order.** -/
theorem exists_arranged (o : Options) : (n : Node) →
    ∀ body ∈ (ordered o n).nodes.filterMap body?, ∃ ns, body.children = arranged o ns
  | .statement _ _ _ => by simp [ordered, nodes, body?]
  | .block leading level depth head opening children trailing closing => by
    intro body hbody
    obtain ⟨n, hn, hbody⟩ := List.mem_filterMap.mp hbody
    rw [ordered, nodes] at hn
    rcases List.mem_cons.mp hn with rfl | hn
    · cases hbody
      exact ⟨_, rfl⟩
    obtain ⟨m, hm, hn⟩ := mem_nodesOfAll_iff.mp hn
    obtain ⟨k, hk, leading, rfl⟩ := mem_arranged hm
    have hmem := List.mem_filterMap.mpr ⟨n, hn, hbody⟩
    rw [filterMap_body?_withLeading] at hmem
    obtain ⟨n, hn, hbody⟩ := List.mem_filterMap.mp hmem
    exact exists_arranged_orderedEach o children body
      (List.mem_filterMap.mpr ⟨n, mem_nodesOfAll_iff.mpr ⟨k, hk, hn⟩, hbody⟩)

theorem exists_arranged_orderedEach (o : Options) : (ns : List Node) →
    ∀ body ∈ (nodesOfAll (orderedEach o ns)).filterMap body?, ∃ ns, body.children = arranged o ns
  | [] => by simp [orderedEach, nodesOfAll]
  | n :: ns => by
    rw [orderedEach, nodesOfAll, List.filterMap_append, List.forall_mem_append]
    exact ⟨exists_arranged o n, exists_arranged_orderedEach o ns⟩
end

/-! ## The pieces of the tree -/

/-- The tokens of a slot. -/
def pieceTokens (slot : PieceSlot) : Edit.TokenSlot :=
  ⟨slot.piece.leading, slot.piece.body.tokens, slot.moved?.map Statement.tokens⟩

/-- The edits that put the runs in a block in order. -/
def nodeEdits (o : Options) : Node → List Edit
  | .statement _ _ _ => []
  | .block _ _ _ _ _ children _ _ => (exchanges o children).filterMap slotEdit?

/-- A slot whose statement another of the text may take the place of. -/
def Fits (source : Text) (slot : PieceSlot) : Prop :=
  slot.Sound ∧ ∀ s ∈ slot.moved?, s.tokens ⊆ Tokens.ofText source

theorem fits_none (source : Text) (piece : Piece) : Fits source ⟨piece, none⟩ := by
  simp [Fits, PieceSlot.Sound]

/-- The slots in the pieces of some nodes that lead to others, and the edits for them. -/
structure Leads (source : Text) (ns ns' : List Node) (slots : List PieceSlot) (edits : List Edit) :
    Prop where
  old : piecesOfAll ns = slots.map PieceSlot.piece
  new : piecesOfAll ns' = slots.map PieceSlot.settled
  edits : (slots.filterMap fun slot => (pieceTokens slot).edit?).Perm edits
  fits : ∀ slot ∈ slots, Fits source slot

section

variable {source : Text} {ns' ms ms' : List Node} {slots slots' : List PieceSlot}
  {edits edits' : List Edit}

theorem Leads.append (h : Leads source ns ns' slots edits) (h' : Leads source ms ms' slots' edits') :
    Leads source (ns ++ ms) (ns' ++ ms') (slots ++ slots') (edits ++ edits') where
  old := by rw [piecesOfAll_append, h.old, h'.old, List.map_append]
  new := by rw [piecesOfAll_append, h.new, h'.new, List.map_append]
  edits := by
    rw [List.filterMap_append]
    exact h.edits.append h'.edits
  fits := List.forall_mem_append.mpr ⟨h.fits, h'.fits⟩

theorem Leads.perm (h : Leads source ns ns' slots edits) (hedits : edits.Perm edits') :
    Leads source ns ns' slots edits' := ⟨h.old, h.new, h.edits.trans hedits, h.fits⟩

/-- A block, with what is done to the nodes in it. -/
theorem Leads.block {children children' : List Node} (h : Leads source children children' slots edits)
    (leading : List Token) (level depth : Nat) (head : Head) (opening : Token) (trailing : List Token)
    (closing : Option Token) : ∃ slots',
      Leads source [.block leading level depth head opening children trailing closing]
        [.block leading level depth head opening children' trailing closing] slots' edits := by
  refine ⟨⟨⟨leading, .opening head opening⟩, none⟩ :: (slots
    ++ closing.toList.map fun brace => ⟨⟨trailing, .closing brace⟩, none⟩), ?_, ?_, ?_, ?_⟩
  · simp [piecesOfAll, pieces, h.old]
  · simp [piecesOfAll, pieces, h.new, PieceSlot.settled]
  · have hclosing : (closing.toList.map fun brace =>
        (⟨⟨trailing, .closing brace⟩, none⟩ : PieceSlot)).filterMap
          (fun slot => (pieceTokens slot).edit?) = [] := by
      cases closing <;> rfl
    rw [List.filterMap_cons_none rfl, List.filterMap_append, hclosing, List.append_nil]
    exact h.edits
  · refine List.forall_mem_cons.mpr ⟨fits_none source _, List.forall_mem_append.mpr ⟨h.fits, ?_⟩⟩
    exact List.forall_mem_map.mpr fun brace _ => fits_none source _

/-- A statement with semicolon of a text. -/
theorem exists_isClosed (hn : n ∈ (Parse.ofText source).sheet.nodes) (hs : hasSemicolon n = true) :
    ∃ leading level s, n = .statement leading level s ∧ s.IsClosed
      ∧ s.tokens ⊆ Tokens.ofText source := by
  have hword := (Stylesheet.delimited_of_mem_nodes hn).head
  have htokens := (Parse.tokens_isInfix hn).subset
  obtain ⟨leading, level, s, first, tail, semicolon, rfl, hread, hclosed⟩ := exists_closed hn hs
  exact ⟨leading, level, s, rfl, ⟨hword, first, tail, semicolon, hread, hclosed⟩,
    fun t ht => htokens (List.mem_append_right _ ht)⟩

/-- A statement in the place of another. -/
theorem exists_leads_moved {m : Node} (o : Options) (hn : n ∈ (Parse.ofText source).sheet.nodes)
    (hm : m ∈ (Parse.ofText source).sheet.nodes) (hsn : hasSemicolon n = true)
    (hsm : hasSemicolon m = true) : n.nodes.flatMap (nodeEdits o) = [] ∧ ∃ slots,
      Leads source [n] [put (ordered o n, some m)] slots ([(n, some m)].filterMap slotEdit?) := by
  obtain ⟨leading, level, s, rfl, hclosed, -⟩ := exists_isClosed hn hsn
  obtain ⟨leading', level', s', rfl, hclosed', htokens⟩ := exists_isClosed hm hsm
  refine ⟨rfl, [⟨⟨leading, .statement s⟩, some s'⟩], rfl, rfl, .refl _, ?_⟩
  rw [List.forall_mem_singleton]
  constructor
  · rintro _ ⟨⟩
    exact ⟨hclosed', s, rfl, hclosed⟩
  · rintro _ ⟨⟩
    exact htokens

/-- The slots of a list of nodes, those in the blocks among them included. -/
theorem exists_leads_exchanges {xs : List (Node × Option Node)}
    (hstay : ∀ slot ∈ xs, ∃ slots,
      Leads source [slot.1] [ordered o slot.1] slots (slot.1.nodes.flatMap (nodeEdits o)))
    (hmove : ∀ slot ∈ xs, ∀ m ∈ slot.2, slot.1.nodes.flatMap (nodeEdits o) = [] ∧ ∃ slots,
      Leads source [slot.1] [put (ordered o slot.1, some m)] slots
        ([(slot.1, some m)].filterMap slotEdit?)) :
    ∃ slots, Leads source (xs.map Prod.fst) (xs.map fun slot => put (ordered o slot.1, slot.2)) slots
      (xs.filterMap slotEdit? ++ (nodesOfAll (xs.map Prod.fst)).flatMap (nodeEdits o)) := by
  induction xs with
  | nil => exact ⟨[], rfl, rfl, .nil, by simp⟩
  | cons slot xs ih =>
    rw [List.forall_mem_cons] at hstay hmove
    obtain ⟨later, hlater⟩ := ih hstay.2 hmove.2
    obtain ⟨n, moved?⟩ := slot
    have hnodes : nodesOfAll [n] = n.nodes := List.append_nil _
    rw [← List.singleton_append, List.filterMap_append, List.append_assoc, List.map_append,
      nodesOfAll_append, List.flatMap_append]
    cases moved? with
    | none =>
      obtain ⟨slots, hslots⟩ := hstay.1
      have hall := hslots.append hlater
      rw [← put_none (ordered o n)] at hall
      -- the edits in the block come first here, and behind those of the list in the rule
      refine ⟨slots ++ later, hall.perm ?_⟩
      have hown : [(n, none)].filterMap slotEdit? = [] := rfl
      rw [hown, List.nil_append, List.map_singleton, hnodes]
      exact List.perm_append_comm_assoc _ _ _
    | some m =>
      obtain ⟨hinner, slots, hslots⟩ := hmove.1 m rfl
      rw [List.map_singleton, hnodes, hinner, List.nil_append]
      exact ⟨slots ++ later, hslots.append hlater⟩

mutual
/-- **The statements that are exchanged in a node**, and the edits that exchange them. -/
theorem exists_leads (o : Options) : (n : Node) →
    (∀ m ∈ n.nodes, m ∈ (Parse.ofText source).sheet.nodes) →
      ∃ slots, Leads source [n] [ordered o n] slots (n.nodes.flatMap (nodeEdits o))
  | .statement leading level s, _ =>
    ⟨[⟨⟨leading, .statement s⟩, none⟩], rfl, rfl, .nil,
      List.forall_mem_singleton.mpr (fits_none source _)⟩
  | .block leading level depth head opening children trailing closing, hnodes => by
    rw [nodes, List.forall_mem_cons] at hnodes
    have hchildren : ∀ n ∈ children, n ∈ (Parse.ofText source).sheet.nodes := fun n hn =>
      hnodes.2 n (mem_nodesOfAll_of_mem hn)
    have hstay := exists_leadsEach o children hnodes.2
    have hexchanges : ∃ slots, Leads source ((exchanges o children).map Prod.fst)
        ((exchanges o children).map fun slot => put (ordered o slot.1, slot.2)) slots
        ((exchanges o children).filterMap slotEdit?
          ++ (nodesOfAll ((exchanges o children).map Prod.fst)).flatMap (nodeEdits o)) := by
      refine exists_leads_exchanges (fun slot hslot => hstay slot.1 ?_) fun slot hslot m hm => ?_
      · have hmem := List.mem_map_of_mem (f := Prod.fst) hslot
        rwa [map_fst_exchanges] at hmem
      · obtain ⟨n, moved?⟩ := slot
        cases hm
        obtain ⟨hn, hm, hsn, hsm⟩ := mem_exchanges_some hslot
        exact exists_leads_moved o (hchildren n hn) (hchildren m hm) hsn hsm
    rw [map_fst_exchanges, ← arranged_orderedEach] at hexchanges
    obtain ⟨slots, hslots⟩ := hexchanges
    exact hslots.block leading level depth head opening trailing closing

theorem exists_leadsEach (o : Options) : (ns : List Node) →
    (∀ m ∈ nodesOfAll ns, m ∈ (Parse.ofText source).sheet.nodes) →
      ∀ n ∈ ns, ∃ slots, Leads source [n] [ordered o n] slots (n.nodes.flatMap (nodeEdits o))
  | [], _ => by simp
  | n :: ns, hnodes => by
    rw [nodesOfAll, List.forall_mem_append] at hnodes
    exact List.forall_mem_cons.mpr ⟨exists_leads o n hnodes.1, exists_leadsEach o ns hnodes.2⟩
end

/-- **The statements that are exchanged in the tree of a text.** -/
theorem exists_leads_children (o : Options) (source : Text) :
    ∃ slots, Leads source (Parse.ofText source).sheet.children
      (orderedEach o (Parse.ofText source).sheet.children) slots
      ((Parse.ofText source).sheet.nodes.flatMap (nodeEdits o)) := by
  have hall (ns : List Node)
      (hns : ∀ n ∈ ns, ∃ slots, Leads source [n] [ordered o n] slots (n.nodes.flatMap (nodeEdits o))) :
      ∃ slots, Leads source ns (orderedEach o ns) slots ((nodesOfAll ns).flatMap (nodeEdits o)) := by
    induction ns with
    | nil => exact ⟨[], rfl, rfl, .nil, by simp⟩
    | cons n ns ih =>
      rw [List.forall_mem_cons] at hns
      obtain ⟨slots, hslots⟩ := hns.1
      obtain ⟨later, hlater⟩ := ih hns.2
      rw [orderedEach, nodesOfAll, List.flatMap_append]
      exact ⟨slots ++ later, hslots.append hlater⟩
  exact hall _ (exists_leadsEach o _ fun m hm => hm)

end

end SheetLint.PropertyOrder
