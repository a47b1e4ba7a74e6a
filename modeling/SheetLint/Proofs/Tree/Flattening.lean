import SheetLint.Proofs.Tree.Composition
import SheetLint.Proofs.Tree.Nesting

/-!
# The pieces of a tree

A tree without defects is as good as the list of its pieces: a statement is one piece, a block is the
piece that opens it, the pieces of what is inside and the piece that closes it. So a tree may be
changed and the tokens of the changed tree read again: they give the changed tree when they fall
into its pieces.

Results:
* `Stylesheet.split_of_errors`: tokens without defects fall into the pieces of their tree.
* `Stylesheet.build_piecesOfAll`: the pieces of nodes are put together to the nodes.
* `Stylesheet.ofTokens_of_split`: tokens that fall into the pieces of a tree give the tree.
-/

namespace SheetLint

namespace Node

mutual
/-- The pieces that make a node. -/
def pieces : Node → List Piece
  | statement leading _ s => [⟨leading, .statement s⟩]
  | block leading _ _ head opening children trailing closing =>
    ⟨leading, .opening head opening⟩ :: (piecesOfAll children
      ++ closing.toList.map fun brace => ⟨trailing, .closing brace⟩)

/-- The pieces that make the nodes of a list. -/
def piecesOfAll : List Node → List Piece
  | [] => []
  | n :: ns => pieces n ++ piecesOfAll ns
end

theorem piecesOfAll_eq_flatMap (ns : List Node) : piecesOfAll ns = ns.flatMap pieces := by
  induction ns with
  | nil => rfl
  | cons n ns ih => rw [piecesOfAll, ih, List.flatMap_cons]

@[simp] theorem piecesOfAll_append (ns ms : List Node) :
    piecesOfAll (ns ++ ms) = piecesOfAll ns ++ piecesOfAll ms := by
  simp only [piecesOfAll_eq_flatMap, List.flatMap_append]

theorem errorsOfAll_eq_nil_iff {ns : List Node} :
    errorsOfAll ns = [] ↔ ∀ n ∈ ns, n.errors = [] := by
  induction ns with
  | nil => simp [errorsOfAll]
  | cons n ns ih => rw [errorsOfAll, List.append_eq_nil_iff, ih, List.forall_mem_cons]

theorem errors_block_eq_nil_iff {leading : List Token} {level depth : Nat} {head : Head}
    {opening : Token} {children : List Node} {trailing : List Token} {closing : Option Token} :
    (block leading level depth head opening children trailing closing).errors = []
      ↔ head.errors opening = [] ∧ errorsOfAll children = [] ∧ closing.isSome = true := by
  cases closing <;> simp [errors]

end Node

namespace Stylesheet

open Node

variable {blocks : List OpenBlock} {done : List Node} {ps : List Piece} {trailing ts : List Token}

/-! ## From pieces to nodes -/

mutual
theorem build_pieces (blocks : List OpenBlock) (done : List Node) (ps : List Piece)
    (trailing : List Token) : (n : Node) → n.Numbered blocks.length (ruleSetDepth blocks) →
      n.errors = [] → build blocks done (n.pieces ++ ps) trailing = build blocks (n :: done) ps trailing
  | .statement leading level s, hnumbered, _ => by
    rw [Numbered] at hnumbered
    rw [pieces, List.singleton_append, build, hnumbered]
  | .block leading level depth head opening children inner closing, hnumbered, herrors => by
    rw [Numbered] at hnumbered
    obtain ⟨rfl, rfl, hchildren⟩ := hnumbered
    obtain ⟨-, hinside, hclosing⟩ := errors_block_eq_nil_iff.mp herrors
    obtain ⟨brace, rfl⟩ := Option.isSome_iff_exists.mp hclosing
    rw [← ruleSetDepth_cons ⟨leading, head, opening, done⟩ blocks] at hchildren ⊢
    rw [pieces, List.cons_append, List.append_assoc, build]
    simp only [Option.toList_some, List.map_cons, List.map_nil]
    rw [build_piecesOfAll (⟨leading, head, opening, done⟩ :: blocks) [] _ trailing children hchildren
      hinside, List.singleton_append, build]
    simp only [List.append_nil, List.reverse_reverse, OpenBlock.close]

/-- **The pieces of nodes are put together to the nodes.** -/
theorem build_piecesOfAll (blocks : List OpenBlock) (done : List Node) (ps : List Piece)
    (trailing : List Token) :
    (ns : List Node) → NumberedOfAll blocks.length (ruleSetDepth blocks) ns → errorsOfAll ns = [] →
      build blocks done (piecesOfAll ns ++ ps) trailing =
        build blocks (ns.reverse ++ done) ps trailing
  | [], _, _ => rfl
  | n :: ns, hnumbered, herrors => by
    rw [NumberedOfAll] at hnumbered
    rw [errorsOfAll, List.append_eq_nil_iff] at herrors
    rw [piecesOfAll, List.append_assoc, build_pieces blocks done _ trailing n hnumbered.1 herrors.1,
      build_piecesOfAll blocks (n :: done) ps trailing ns hnumbered.2 herrors.2, List.reverse_cons,
      List.append_assoc, List.singleton_append]
end

/-- **Tokens that fall into the pieces of a tree give the tree.** -/
theorem ofTokens_of_split {sheet : Stylesheet} (hnumbered : ∀ n ∈ sheet.children, n.Numbered 0 0)
    (herrors : sheet.errors = [])
    (hsplit : Piece.split ts = (piecesOfAll sheet.children, sheet.trailing)) :
    ofTokens ts = sheet := by
  have hbuild := build_piecesOfAll [] [] [] sheet.trailing sheet.children
    (numberedOfAll_iff.mpr hnumbered) herrors
  rw [List.append_nil, List.append_nil] at hbuild
  rw [ofTokens, hsplit, hbuild, build, closeAll, List.reverse_reverse]

/-! ## From nodes to pieces -/

/-- A block that is still open at the end is a defect. -/
theorem errors_closeAll_ne_nil (b : OpenBlock) (outer : List OpenBlock) (done : List Node)
    (trailing : List Token) : (closeAll (b :: outer) done trailing).errors ≠ [] := by
  induction outer generalizing b done trailing with
  | nil =>
    intro h
    have hopen := errorsOfAll_eq_nil_iff.mp h (b.close [] done.reverse trailing none) (by simp [closeAll])
    have hclosed := (errors_block_eq_nil_iff.mp hopen).2.2
    cases hclosed
  | cons next outer ih => exact ih next _ []

/-- Nodes at the top stay in front. -/
theorem build_nil (done : List Node) (pieces : List Piece) (trailing : List Token) :
    (build [] done pieces trailing).children =
      done.reverse ++ (build [] [] pieces trailing).children := by
  have honto := Building.foldl_place_onto done [] [] pieces
  rw [Building.onto, List.nil_append] at honto
  rw [build_eq_foldl, build_eq_foldl, honto, Building.finish_onto]

/-- The pieces read into open blocks. -/
def openPieces (blocks : List OpenBlock) : List Piece :=
  blocks.reverse.flatMap fun b =>
    piecesOfAll b.before.reverse ++ [⟨b.leading, .opening b.head b.opening⟩]

theorem openPieces_cons (b : OpenBlock) (outer : List OpenBlock) :
    openPieces (b :: outer) =
      openPieces outer ++ piecesOfAll b.before.reverse ++ [⟨b.leading, .opening b.head b.opening⟩] := by
  simp [openPieces]

/-- **The pieces of a tree without defects are those that it is built from.** -/
theorem piecesOfAll_build {pieces : List Piece} (h : (build blocks done pieces trailing).errors = []) :
    piecesOfAll (build blocks done pieces trailing).children =
      openPieces blocks ++ piecesOfAll done.reverse ++ pieces := by
  induction pieces generalizing blocks done with
  | nil =>
    cases blocks with
    | nil => simp [build, closeAll, openPieces]
    | cons b outer => exact absurd h (errors_closeAll_ne_nil b outer done trailing)
  | cons p pieces ih =>
    obtain ⟨leading, body⟩ := p
    rw [build] at h ⊢
    cases body with
    | statement s =>
      rw [ih h, List.reverse_cons, piecesOfAll_append]
      simp [piecesOfAll, Node.pieces]
    | opening head brace =>
      rw [ih h, openPieces_cons]
      simp [piecesOfAll]
    | closing brace =>
      cases blocks with
      | nil =>
        -- a brace that closes nothing is a defect that stays
        simp only at h
        rw [errors, build_nil] at h
        have hstray := errorsOfAll_eq_nil_iff.mp h
          (.statement leading 0 (.skipped [brace] (some ⟨.unexpectedBrace, brace.span⟩))) (by simp)
        cases hstray
      | cons block outer =>
        simp only at h ⊢
        rw [ih h, openPieces_cons, List.reverse_cons, piecesOfAll_append]
        simp [piecesOfAll, Node.pieces, OpenBlock.close]

/-- **Tokens without defects fall into the pieces of their tree.** -/
theorem split_of_errors (h : (ofTokens ts).errors = []) :
    Piece.split ts = (piecesOfAll (ofTokens ts).children, (ofTokens ts).trailing) := by
  have hpieces : piecesOfAll (ofTokens ts).children = (Piece.split ts).1 := piecesOfAll_build h
  have hnumbered : ∀ n ∈ (ofTokens ts).children, n.Numbered 0 0 := numbered_build trivial (by simp)
  have hsheet : ofTokens ts = ⟨(ofTokens ts).children, (Piece.split ts).2⟩ := by
    refine ofTokens_of_split hnumbered h ?_
    rw [hpieces]
  rw [hpieces, congrArg Stylesheet.trailing hsheet]

end Stylesheet

end SheetLint
