import SheetLint.Proofs.Tree.Lossless

/-!
# Trees of relabelled tokens

Where pieces end and how they nest depends on the kinds of tokens and on which punctuation they are.
The texts of all other tokens and the places of all are carried along. So tokens can be given other
texts and places before they are put into a tree or afterwards.

Results:
* `Piece.read_map`, `Piece.split_map`: relabelled tokens fall into the relabelled pieces.
* `Stylesheet.ofTokens_map`: their tree is the relabelled tree.
* `Node.errorsOfAll_relabel`: its defects are those of the tree, at other places.
* `Parse.isOk_eq_of_roles`: kinds and punctuation decide whether anything is wrong.
-/

namespace SheetLint

open Tokens

variable {f : Token → Token} {g : Span → Span}

/-! ## Runs of relabelled tokens -/

/-- A change of tokens that keeps all that a tree is built by, and moves what is at a place to
another one. -/
structure Token.KeepsRole (f : Token → Token) (g : Span → Span) : Prop where
  kind : ∀ t, (f t).kind = t.kind
  punct : ∀ t c, (f t).isPunct c = t.isPunct c
  span : ∀ t, (f t).span = g t.span
  /-- From one place to another one is moved to where these are. -/
  between : ∀ first last, (⟨(g first).start, (g last).stop⟩ : Span) = g ⟨first.start, last.stop⟩

namespace Token.KeepsRole

theorem isWhitespace (hf : KeepsRole f g) (t : Token) : (f t).isWhitespace = t.isWhitespace := by
  rw [Token.isWhitespace, hf.kind, Token.isWhitespace]

theorem isComment (hf : KeepsRole f g) (t : Token) : (f t).isComment = t.isComment := by
  rw [Token.isComment, hf.kind, Token.isComment]

theorem isTrivia (hf : KeepsRole f g) (t : Token) : (f t).isTrivia = t.isTrivia := by
  rw [Token.isTrivia, hf.isWhitespace, hf.isComment, Token.isTrivia]

theorem bracketDepth (hf : KeepsRole f g) (depth : Nat) (t : Token) :
    Tokens.bracketDepth depth (f t) = Tokens.bracketDepth depth t := by
  simp [Tokens.bracketDepth, isOpener, isCloser, hf.punct]

theorem isTerminator (hf : KeepsRole f g) (t : Token) :
    Piece.isTerminator (f t) = Piece.isTerminator t := by
  simp only [Piece.isTerminator, hf.punct]

end Token.KeepsRole

namespace Tokens

section Trimming

variable {p : Token → Bool} (hp : ∀ t, p (f t) = p t)

include hp

theorem takeWhile_map (ts : List Token) : (ts.map f).takeWhile p = (ts.takeWhile p).map f := by
  rw [List.takeWhile_map, show p ∘ f = p from funext hp]

theorem dropWhile_map (ts : List Token) : (ts.map f).dropWhile p = (ts.dropWhile p).map f := by
  rw [List.dropWhile_map, show p ∘ f = p from funext hp]

theorem dropEndWhile_map (ts : List Token) :
    dropEndWhile p (ts.map f) = (dropEndWhile p ts).map f := by
  rw [dropEndWhile, ← List.map_reverse, dropWhile_map hp, ← List.map_reverse, dropEndWhile]

theorem takeEndWhile_map (ts : List Token) :
    takeEndWhile p (ts.map f) = (takeEndWhile p ts).map f := by
  rw [takeEndWhile, ← List.map_reverse, takeWhile_map hp, ← List.map_reverse, takeEndWhile]

end Trimming

variable (hf : Token.KeepsRole f g)

include hf

theorem trim_map (ts : List Token) : trim (ts.map f) = (trim ts).map f := by
  rw [trim, dropWhile_map hf.isTrivia, dropEndWhile_map hf.isTrivia, trim]

theorem span?_map (ts : List Token) : span? (ts.map f) = (span? ts).map g := by
  unfold span?
  rw [List.head?_map, List.getLast?_map]
  cases ts.head? <;> cases ts.getLast? <;> simp [hf.span, hf.between]

theorem segments_map (depth : Nat) (ts : List Token) :
    segments bracketDepth (·.isPunct ',') depth (ts.map f) =
      (segments bracketDepth (·.isPunct ',') depth ts).map (List.map f) := by
  induction ts generalizing depth with
  | nil => rfl
  | cons t ts ih =>
    rw [List.map_cons, segments, segments, hf.bracketDepth, hf.punct, ih, ih]
    split
    · rfl
    · cases segments bracketDepth (·.isPunct ',') (bracketDepth depth t) ts <;> rfl

theorem selectorsOf_map (ts : List Token) :
    selectorsOf (ts.map f) = (selectorsOf ts).map (List.map f) := by
  have htrim : trim ∘ List.map f = List.map f ∘ trim := funext (trim_map hf)
  rw [selectorsOf, selectorsOf, segments_map hf, List.map_map, htrim, ← List.map_map,
    List.filter_map]
  refine congrArg _ (List.filter_congr fun segment _ => ?_)
  simp

end Tokens

/-! ## Relabelled trees -/

/-- The declaration with other tokens. -/
def Declaration.relabel (f : Token → Token) (d : Declaration) : Declaration where
  property := d.property.map f
  beforeColon := d.beforeColon.map f
  colon := f d.colon
  afterColon := d.afterColon.map f
  value := d.value.map f
  beforeSemicolon := d.beforeSemicolon.map f
  semicolon := d.semicolon.map f

/-- The error at another place. -/
def SyntaxError.move (g : Span → Span) (e : SyntaxError) : SyntaxError where
  defect := e.defect
  span := g e.span

/-- The statement with other tokens, and with its defect where these are. -/
def Statement.relabel (f : Token → Token) (g : Span → Span) : Statement → Statement
  | declaration d => declaration (d.relabel f)
  | atRule keyword prelude semicolon => atRule (f keyword) (prelude.map f) (semicolon.map f)
  | comment t => comment (f t)
  | empty t => empty (f t)
  | skipped ts error => skipped (ts.map f) (error.map (SyntaxError.move g))

/-- The head of a block with other tokens. -/
def Head.relabel (f : Token → Token) : Head → Head
  | ruleSet selectors => ruleSet (selectors.map f)
  | atRule keyword prelude => atRule (f keyword) (prelude.map f)

/-- The piece with other tokens. -/
def PieceBody.relabel (f : Token → Token) (g : Span → Span) : PieceBody → PieceBody
  | statement s => statement (s.relabel f g)
  | opening head brace => opening (head.relabel f) (f brace)
  | closing brace => closing (f brace)

@[inherit_doc PieceBody.relabel]
def Piece.relabel (f : Token → Token) (g : Span → Span) (p : Piece) : Piece :=
  ⟨p.leading.map f, p.body.relabel f g⟩

mutual

/-- The node with other tokens, in all nodes inside it as well. -/
def Node.relabel (f : Token → Token) (g : Span → Span) : Node → Node
  | .statement leading level s => .statement (leading.map f) level (s.relabel f g)
  | .block leading level depth head opening children trailing closing =>
    .block (leading.map f) level depth (head.relabel f) (f opening) (Node.relabelAll f g children)
      (trailing.map f) (closing.map f)

@[inherit_doc Node.relabel]
def Node.relabelAll (f : Token → Token) (g : Span → Span) : List Node → List Node
  | [] => []
  | n :: ns => n.relabel f g :: Node.relabelAll f g ns

end

/-- The tree with other tokens. -/
def Stylesheet.relabel (f : Token → Token) (g : Span → Span) (s : Stylesheet) : Stylesheet where
  children := Node.relabelAll f g s.children
  trailing := s.trailing.map f

theorem Node.relabelAll_eq_map (ns : List Node) : relabelAll f g ns = ns.map (relabel f g) := by
  induction ns with
  | nil => rfl
  | cons n ns ih => rw [relabelAll, ih, List.map_cons]

mutual
/-- The nodes of a relabelled node are its nodes, relabelled. -/
theorem Node.nodes_relabel (f : Token → Token) (g : Span → Span) :
    (n : Node) → (n.relabel f g).nodes = n.nodes.map (relabel f g)
  | .statement _ _ _ => rfl
  | .block leading level depth head opening children trailing closing => by
    rw [Node.relabel, Node.nodes, Node.nodes, List.map_cons, Node.relabel,
      Node.nodesOfAll_relabelAll f g children]

theorem Node.nodesOfAll_relabelAll (f : Token → Token) (g : Span → Span) :
    (ns : List Node) → nodesOfAll (relabelAll f g ns) = (nodesOfAll ns).map (relabel f g)
  | [] => rfl
  | n :: ns => by
    rw [Node.relabelAll, Node.nodesOfAll, Node.nodesOfAll, List.map_append,
      Node.nodes_relabel f g n, Node.nodesOfAll_relabelAll f g ns]
end

theorem PieceBody.tokens_relabel (b : PieceBody) : (b.relabel f g).tokens = b.tokens.map f := by
  have htoList (t : Option Token) : (t.map f).toList = t.toList.map f := by cases t <;> rfl
  cases b with
  | statement s =>
    cases s <;> simp [relabel, tokens, Statement.relabel, Statement.tokens, Declaration.relabel,
      Declaration.tokens, htoList]
  | opening head brace => cases head <;> simp [relabel, tokens, Head.relabel, Head.tokens]
  | closing brace => rfl

/-! ## Pieces of relabelled tokens -/

namespace Piece

variable (hf : Token.KeepsRole f g)

include hf

theorem lengthToTerminator_map (depth : Nat) (ts : List Token) :
    lengthToTerminator depth (ts.map f) = lengthToTerminator depth ts := by
  induction ts generalizing depth with
  | nil => rfl
  | cons t ts ih =>
    rw [List.map_cons, lengthToTerminator, lengthToTerminator, hf.isTerminator, hf.bracketDepth, ih]

theorem cutAtColon?_map (depth : Nat) (ts : List Token) :
    cutAtColon? depth (ts.map f) =
      (cutAtColon? depth ts).map fun cut => (cut.1.map f, f cut.2.1, cut.2.2.map f) := by
  induction ts generalizing depth with
  | nil => rfl
  | cons t ts ih =>
    rw [List.map_cons, cutAtColon?, cutAtColon?, hf.punct, hf.bracketDepth, ih]
    split
    · rfl
    · rw [Option.map_map, Option.map_map]
      rfl

theorem statementOf_map (ts : List Token) (semicolon : Option Token) :
    statementOf (ts.map f) (semicolon.map f) = (statementOf ts semicolon).relabel f g := by
  have hany : (ts.map f).any (·.kind == .error) = ts.any (·.kind == .error) := by
    rw [List.any_map]
    exact congrArg ts.any (funext fun t => by rw [Function.comp_apply, hf.kind])
  have hskipped (s : Token) (error : Option SyntaxError) :
      (Statement.skipped (ts ++ [s]) error).relabel f g =
        .skipped (ts.map f ++ [f s]) (error.map (SyntaxError.move g)) := by
    simp [Statement.relabel]
  unfold statementOf
  simp only [cutAtColon?_map hf, hany]
  cases cutAtColon? 0 ts with
  | none =>
    have herror (span : Option Span) :
        (span.map g).map (SyntaxError.mk .expectedDeclaration) =
          (span.map (SyntaxError.mk .expectedDeclaration)).map (SyntaxError.move g) := by
      cases span <;> rfl
    simp only [Option.map_none, dropEndWhile_map hf.isWhitespace, span?_map hf, herror]
    cases semicolon with
    | none =>
      simp only [Option.map_none, apply_ite (Statement.relabel f g)]
      rfl
    | some s =>
      simp only [Option.map_some, apply_ite (Statement.relabel f g), hskipped]
      rfl
  | some cut =>
    obtain ⟨front, colon, back⟩ := cut
    simp only [Option.map_some, dropEndWhile_map hf.isTrivia, dropEndWhile_map hf.isWhitespace,
      takeEndWhile_map hf.isTrivia, takeEndWhile_map hf.isWhitespace,
      takeWhile_map hf.isWhitespace, dropWhile_map hf.isWhitespace, List.map_eq_nil_iff, hf.span,
      Option.isSome_map, apply_ite (Statement.relabel f g)]
    have hbefore (us : List Token) (b : Bool) : (if b = true then us.map f else []) =
        (if b = true then us else []).map f := by
      cases b <;> rfl
    rw [hbefore]
    cases semicolon with
    | none => rfl
    | some s =>
      simp only [Option.map_some, hskipped]
      rfl

theorem ofAtRule_map (keyword : Token) (rest : List Token) :
    ofAtRule (f keyword) (rest.map f) = (ofAtRule keyword rest).relabel f g := by
  unfold ofAtRule
  simp only [lengthToTerminator_map hf, ← List.map_take, List.getElem?_map,
    dropEndWhile_map hf.isWhitespace]
  cases rest[lengthToTerminator 0 rest]? with
  | none => rfl
  | some t =>
    simp only [Option.map_some, hf.punct, apply_ite (PieceBody.relabel f g)]
    rfl

theorem ofStatement_map (first : Token) (rest : List Token) :
    ofStatement (f first) (rest.map f) = (ofStatement first rest).relabel f g := by
  have hopen := statementOf_map hf ((first :: rest).take (lengthToTerminator 0 (first :: rest))) none
  have hclosed := statementOf_map hf ((first :: rest).take (lengthToTerminator 0 (first :: rest)))
  rw [Option.map_none] at hopen
  unfold ofStatement
  simp only [← List.map_cons, lengthToTerminator_map hf, ← List.map_take, List.getElem?_map]
  cases (first :: rest)[lengthToTerminator 0 (first :: rest)]? with
  | none => exact congrArg PieceBody.statement hopen
  | some t =>
    have hterminated := hclosed (some t)
    rw [Option.map_some] at hterminated
    simp only [Option.map_some, hf.punct, apply_ite (PieceBody.relabel f g), hterminated, hopen]
    rfl

/-- **A piece read off relabelled tokens is the relabelled piece.** -/
theorem read_map (first : Token) (rest : List Token) :
    read (f first) (rest.map f) = (read first rest).relabel f g := by
  unfold read
  simp only [hf.punct, hf.isComment, hf.kind, ofAtRule_map hf, ofStatement_map hf,
    apply_ite (PieceBody.relabel f g)]
  rfl

/-- **Relabelled tokens fall into the relabelled pieces.** -/
theorem split_map (ts : List Token) :
    split (ts.map f) = ((split ts).1.map (relabel f g), (split ts).2.map f) := by
  fun_induction split ts with
  | case1 ts _ hnil =>
    have hdrop : (ts.map f).dropWhile Token.isWhitespace = [] := by
      rw [dropWhile_map hf.isWhitespace, hnil, List.map_nil]
    rw [split_of_dropWhile_eq_nil hdrop, takeWhile_map hf.isWhitespace]
    rfl
  | case2 ts _ first rest hcons body more ih =>
    have hdrop : (ts.map f).dropWhile Token.isWhitespace = f first :: rest.map f := by
      rw [dropWhile_map hf.isWhitespace, hcons, List.map_cons]
    rw [split_of_dropWhile_eq_cons hdrop, read_map hf, PieceBody.tokens_relabel, List.length_map,
      ← List.map_drop, ih, takeWhile_map hf.isWhitespace]
    rfl

end Piece

/-! ## The tree of relabelled tokens -/

namespace Stylesheet

/-- The open block with other tokens. -/
def OpenBlock.relabel (f : Token → Token) (g : Span → Span) (b : OpenBlock) : OpenBlock where
  leading := b.leading.map f
  head := b.head.relabel f
  opening := f b.opening
  before := b.before.map (Node.relabel f g)

theorem ruleSetDepth_relabel (blocks : List OpenBlock) :
    ruleSetDepth (blocks.map (OpenBlock.relabel f g)) = ruleSetDepth blocks := by
  rw [ruleSetDepth, List.countP_map]
  refine List.countP_congr fun b _ => ?_
  cases b with
  | mk leading head => cases head <;> exact Iff.rfl

theorem close_relabel (b : OpenBlock) (outer : List OpenBlock) (done : List Node)
    (trailing : List Token) (closing : Option Token) :
    (b.relabel f g).close (outer.map (OpenBlock.relabel f g)) (done.map (Node.relabel f g)).reverse
        (trailing.map f) (closing.map f) =
      (b.close outer done.reverse trailing closing).relabel f g := by
  rw [OpenBlock.close, OpenBlock.close, Node.relabel, Node.relabelAll_eq_map, List.map_reverse,
    ← List.map_cons, ruleSetDepth_relabel, List.length_map]
  rfl

theorem closeAll_relabel (blocks : List OpenBlock) (done : List Node) (trailing : List Token) :
    closeAll (blocks.map (OpenBlock.relabel f g)) (done.map (Node.relabel f g)) (trailing.map f) =
      (closeAll blocks done trailing).relabel f g := by
  induction blocks generalizing done trailing with
  | nil =>
    rw [List.map_nil, closeAll, closeAll, relabel, Node.relabelAll_eq_map, List.map_reverse]
  | cons b outer ih =>
    have hclose := close_relabel (f := f) (g := g) b outer done trailing none
    rw [Option.map_none] at hclose
    rw [List.map_cons, closeAll, closeAll, hclose, ← ih, List.map_cons]
    rfl

/-- Relabelled pieces go where the pieces go. -/
theorem build_relabel (hf : Token.KeepsRole f g) (blocks : List OpenBlock) (done : List Node)
    (pieces : List Piece) (trailing : List Token) :
    build (blocks.map (OpenBlock.relabel f g)) (done.map (Node.relabel f g))
        (pieces.map (Piece.relabel f g)) (trailing.map f) =
      (build blocks done pieces trailing).relabel f g := by
  induction pieces generalizing blocks done with
  | nil => exact closeAll_relabel blocks done trailing
  | cons p pieces ih =>
    obtain ⟨leading, body⟩ := p
    cases body with
    | statement s =>
      have hplaced := ih blocks (.statement leading blocks.length s :: done)
      rw [List.map_cons, Node.relabel] at hplaced
      simp only [List.map_cons, Piece.relabel, PieceBody.relabel, build, List.length_map]
      exact hplaced
    | opening head brace => exact ih (⟨leading, head, brace, done⟩ :: blocks) []
    | closing brace =>
      cases blocks with
      | nil =>
        have hplaced := ih []
          (.statement leading 0 (.skipped [brace] (some ⟨.unexpectedBrace, brace.span⟩)) :: done)
        simp only [List.map_cons, List.map_nil, Node.relabel, Statement.relabel, Option.map_some,
          SyntaxError.move, ← hf.span] at hplaced
        exact hplaced
      | cons block outer =>
        have hclose := close_relabel (f := f) (g := g) block outer done leading (some brace)
        have hplaced := ih outer
          (block.close outer done.reverse leading (some brace) :: block.before)
        rw [List.map_cons, ← hclose] at hplaced
        exact hplaced

/-- **The tree of relabelled tokens is the relabelled tree.** -/
theorem ofTokens_map (hf : Token.KeepsRole f g) (ts : List Token) :
    ofTokens (ts.map f) = (ofTokens ts).relabel f g := by
  rw [ofTokens, ofTokens, Piece.split_map hf]
  exact build_relabel hf [] [] _ _

end Stylesheet

/-! ## Errors -/

theorem Head.errors_relabel (hf : Token.KeepsRole f g) (head : Head) (opening : Token) :
    (head.relabel f).errors (f opening) = (head.errors opening).map (SyntaxError.move g) := by
  cases head with
  | atRule => rfl
  | ruleSet selectors =>
    simp only [Head.relabel, Head.errors, Tokens.selectorsOf_map hf, List.map_eq_nil_iff, hf.span]
    split <;> rfl

namespace Node

mutual

theorem errors_relabel (hf : Token.KeepsRole f g) :
    (n : Node) → (n.relabel f g).errors = n.errors.map (SyntaxError.move g)
  | .statement leading level s => by
    cases s with
    | skipped ts error => cases error <;> rfl
    | _ => rfl
  | .block leading level depth head opening children trailing closing => by
    rw [relabel, errors, errors, Head.errors_relabel hf, errorsOfAll_relabel hf children,
      Option.isNone_map, hf.span, List.map_append, List.map_append]
    cases closing <;> rfl

/-- **Relabelled nodes have the defects of the nodes**, where their tokens are. -/
theorem errorsOfAll_relabel (hf : Token.KeepsRole f g) :
    (ns : List Node) → errorsOfAll (relabelAll f g ns) = (errorsOfAll ns).map (SyntaxError.move g)
  | [] => rfl
  | n :: ns => by
    rw [relabelAll, errorsOfAll, errorsOfAll, errors_relabel hf n, errorsOfAll_relabel hf ns,
      List.map_append]

end

end Node

/-! ## What parsing depends on -/

/-- What a tree is built by: the token without its place, and without its text unless that is
punctuation. -/
def Token.role (t : Token) : Token where
  kind := t.kind
  text := if t.kind = .punct then t.text else []
  span := default

theorem Token.keepsRole_role : KeepsRole role fun _ => default where
  kind _ := rfl
  punct t c := by
    by_cases hkind : t.kind = .punct <;> simp [isPunct, role, hkind]
  span _ := rfl
  between _ _ := rfl

namespace Parse

theorem isOk_iff (ts : List Token) :
    (ofTokens ts).isOk = true ↔ tokenErrors ts = [] ∧ (Stylesheet.ofTokens ts).errors = [] := by
  rw [isOk, ofTokens, (List.mergeSort_perm _ _).isEmpty_eq, List.isEmpty_iff,
    List.append_eq_nil_iff]

theorem isOk_map (hf : Token.KeepsRole f g) (ts : List Token) :
    (ofTokens (ts.map f)).isOk = (ofTokens ts).isOk := by
  have htokens : tokenErrors (ts.map f) = [] ↔ tokenErrors ts = [] := by
    simp [tokenErrors, hf.kind]
  have hsheet : (Stylesheet.ofTokens (ts.map f)).errors =
      (Stylesheet.ofTokens ts).errors.map (SyntaxError.move g) := by
    rw [Stylesheet.ofTokens_map hf]
    exact Node.errorsOfAll_relabel hf _
  rw [Bool.eq_iff_iff, isOk_iff, isOk_iff, htokens, hsheet, List.map_eq_nil_iff]

/-- **Kinds and punctuation decide whether anything is wrong**, wherever the tokens stand. -/
theorem isOk_eq_of_roles {ts ts' : List Token} (h : ts.map Token.role = ts'.map Token.role) :
    (ofTokens ts).isOk = (ofTokens ts').isOk := by
  rw [← isOk_map Token.keepsRole_role ts, h, isOk_map Token.keepsRole_role]

end Parse

end SheetLint
