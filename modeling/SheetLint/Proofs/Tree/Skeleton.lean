import SheetLint.Proofs.Token.Words
import SheetLint.Proofs.Tree.Composition

/-!
# Trees and layout

The *skeleton* of a tree is the tree with the whitespace and the places of its tokens left out.
Whitespace decides nothing: it ends no piece, opens no bracket, and all it does is to be trimmed
away. So the skeleton of the tree of a run of tokens is the tree of the words of that run.

Results:
* `Piece.read_words`: a piece read off words is the skeleton of the piece.
* `Piece.split_words`: words fall into the skeletons of the pieces.
* `Stylesheet.skeleton_ofTokens`: the tree of the words is the skeleton of the tree.
* `Parse.eq_of_words_eq`: the layout of a run of tokens shows neither in the skeleton of
  its tree nor in the messages of its errors.
-/

namespace SheetLint

open Tokens

variable {t : Token} {ts : List Token}

/-! ## Words of trimmed runs -/

namespace Token

theorem isPunct_of_isWhitespace (h : t.isWhitespace = true) (c : Char) : t.isPunct c = false := by
  rw [isWhitespace, beq_iff_eq] at h
  simp [isPunct, h]

theorem isTrivia_of_isWhitespace (h : t.isWhitespace = true) : t.isTrivia = true := by
  rw [isTrivia, h, Bool.true_or]

end Token

namespace Tokens

@[simp] theorem words_nil : words [] = [] := rfl

@[simp] theorem words_cons_of_space (h : t.isWhitespace = true) (ts : List Token) :
    words (t :: ts) = words ts := by
  simp [words, h]

@[simp] theorem words_cons_of_word (h : t.isWhitespace = false) (ts : List Token) :
    words (t :: ts) = t.bare :: words ts := by
  simp [words, h]

theorem words_reverse (ts : List Token) : words ts.reverse = (words ts).reverse := by
  simp [words, List.filter_reverse, List.map_reverse]

/-- Words are tokens other than whitespace. -/
theorem isWhitespace_of_mem_words (h : t ∈ words ts) : t.isWhitespace = false := by
  obtain ⟨u, hu, rfl⟩ := List.mem_map.mp h
  show u.isWhitespace = false
  simpa using (List.mem_filter.mp hu).2

/-- The words of words are these words. -/
theorem words_eq_self_of_subset {us : List Token} (h : us ⊆ words ts) : words us = us := by
  induction us with
  | nil => rfl
  | cons u us ih =>
    obtain ⟨hu, hus⟩ := List.cons_subset.mp h
    rw [words_cons_of_word (isWhitespace_of_mem_words hu), ih hus]
    obtain ⟨v, -, rfl⟩ := List.mem_map.mp hu
    rfl

@[simp] theorem words_words (ts : List Token) : words (words ts) = words ts :=
  words_eq_self_of_subset (List.Subset.refl _)

theorem words_takeWhile_isWhitespace (ts : List Token) :
    words (ts.takeWhile Token.isWhitespace) = [] :=
  words_of_isSpace fun _ ht => List.mem_takeWhile_imp ht

theorem words_dropWhile_isWhitespace (ts : List Token) :
    words (ts.dropWhile Token.isWhitespace) = words ts := by
  conv_rhs => rw [← List.takeWhile_append_dropWhile (p := Token.isWhitespace) (l := ts)]
  rw [words_append, words_takeWhile_isWhitespace, List.nil_append]

theorem words_takeEndWhile_isWhitespace (ts : List Token) :
    words (takeEndWhile Token.isWhitespace ts) = [] :=
  words_of_isSpace (isSpace_takeEndWhile ts)

theorem words_dropEndWhile_isWhitespace (ts : List Token) :
    words (dropEndWhile Token.isWhitespace ts) = words ts := by
  conv_rhs => rw [← dropEndWhile_append_takeEndWhile Token.isWhitespace ts]
  rw [words_append, words_takeEndWhile_isWhitespace, List.append_nil]

theorem takeWhile_isWhitespace_words (ts : List Token) :
    (words ts).takeWhile Token.isWhitespace = [] := by
  rw [List.takeWhile_eq_nil_iff]
  intro hlength
  exact Bool.eq_false_iff.mp (isWhitespace_of_mem_words (List.get_mem _ _))

theorem dropWhile_isWhitespace_words (ts : List Token) :
    (words ts).dropWhile Token.isWhitespace = words ts := by
  have hcut := List.takeWhile_append_dropWhile (p := Token.isWhitespace) (l := words ts)
  rwa [takeWhile_isWhitespace_words, List.nil_append] at hcut

theorem dropEndWhile_isWhitespace_words (ts : List Token) :
    dropEndWhile Token.isWhitespace (words ts) = words ts := by
  rw [dropEndWhile, ← words_reverse, dropWhile_isWhitespace_words, words_reverse,
    List.reverse_reverse]

theorem takeEndWhile_isWhitespace_words (ts : List Token) :
    takeEndWhile Token.isWhitespace (words ts) = [] := by
  rw [takeEndWhile, ← words_reverse, takeWhile_isWhitespace_words, List.reverse_nil]

theorem dropWhile_isTrivia_words (ts : List Token) :
    (words ts).dropWhile Token.isTrivia = words (ts.dropWhile Token.isTrivia) := by
  induction ts with
  | nil => rfl
  | cons t ts ih =>
    cases hspace : t.isWhitespace with
    | true => simp [hspace, Token.isTrivia_of_isWhitespace hspace, ih]
    | false =>
      have hbare : t.bare.isTrivia = t.isTrivia := rfl
      cases htrivia : t.isTrivia <;> simp [hspace, hbare, htrivia, ih]

theorem takeWhile_isTrivia_words (ts : List Token) :
    (words ts).takeWhile Token.isTrivia = words (ts.takeWhile Token.isTrivia) := by
  have hwhole := List.takeWhile_append_dropWhile (p := Token.isTrivia) (l := words ts)
  have hparts : words (ts.takeWhile Token.isTrivia) ++ words (ts.dropWhile Token.isTrivia) = words ts := by
    rw [← words_append, List.takeWhile_append_dropWhile]
  rw [dropWhile_isTrivia_words] at hwhole
  exact List.append_cancel_right (hwhole.trans hparts.symm)

theorem dropEndWhile_isTrivia_words (ts : List Token) :
    dropEndWhile Token.isTrivia (words ts) = words (dropEndWhile Token.isTrivia ts) := by
  rw [dropEndWhile, dropEndWhile, ← words_reverse, dropWhile_isTrivia_words, words_reverse]

theorem takeEndWhile_isTrivia_words (ts : List Token) :
    takeEndWhile Token.isTrivia (words ts) = words (takeEndWhile Token.isTrivia ts) := by
  rw [takeEndWhile, takeEndWhile, ← words_reverse, takeWhile_isTrivia_words, words_reverse]

theorem trim_words (ts : List Token) : trim (words ts) = words (trim ts) := by
  rw [trim, trim, dropWhile_isTrivia_words, dropEndWhile_isTrivia_words]

/-- What starts with a word has words. -/
theorem words_eq_nil_iff (hhead : ∀ t ∈ ts.head?, t.isWhitespace = false) :
    words ts = [] ↔ ts = [] := by
  cases ts with
  | nil => simp
  | cons t ts => simp [hhead t rfl]

theorem words_dropEndWhile_isTrivia_eq_nil_iff (ts : List Token) :
    words (dropEndWhile Token.isTrivia ts) = [] ↔ dropEndWhile Token.isTrivia ts = [] := by
  rw [dropEndWhile, words_reverse, List.reverse_eq_nil_iff, List.reverse_eq_nil_iff]
  refine words_eq_nil_iff fun t ht => ?_
  have hword := List.head?_dropWhile_not Token.isTrivia ts.reverse
  rw [ht] at hword
  cases hspace : t.isWhitespace with
  | false => rfl
  | true => simp [Token.isTrivia_of_isWhitespace hspace] at hword

theorem words_dropEndWhile_isWhitespace_eq_nil_iff (ts : List Token) :
    words ts = [] ↔ dropEndWhile Token.isWhitespace ts = [] := by
  rw [← words_dropEndWhile_isWhitespace, dropEndWhile, words_reverse, List.reverse_eq_nil_iff,
    List.reverse_eq_nil_iff]
  refine words_eq_nil_iff fun t ht => ?_
  have hword := List.head?_dropWhile_not Token.isWhitespace ts.reverse
  rwa [ht] at hword

/-- Words have a place where the run that they are the words of has one, but none is told. -/
theorem span?_words (ts : List Token) :
    span? (words ts) = (span? (dropEndWhile Token.isWhitespace ts)).map fun _ => default := by
  have hplace {us vs : List Token} (h : us = [] ↔ vs = []) :
      (span? us).map (fun _ => (default : Span)) = (span? vs).map fun _ => default := by
    cases us <;> cases vs <;> simp_all [span?, List.getLast?_cons]
  rw [words, span?_map Token.keepsRole_bare]
  refine hplace ?_
  rw [← words_dropEndWhile_isWhitespace_eq_nil_iff, words, List.map_eq_nil_iff]

/-! ## Depth of brackets -/

theorem bracketDepth_of_isWhitespace (h : t.isWhitespace = true) (depth : Nat) :
    bracketDepth depth t = depth := by
  simp [bracketDepth, Token.isOpener, Token.isCloser, Token.isPunct_of_isWhitespace h]

@[simp] theorem bracketDepth_bare (depth : Nat) (t : Token) :
    bracketDepth depth t.bare = bracketDepth depth t := rfl

end Tokens

/-! ## Skeletons -/

/-- The declaration without whitespace and places. -/
def Declaration.skeleton (d : Declaration) : Declaration where
  property := words d.property
  beforeColon := words d.beforeColon
  colon := d.colon.bare
  afterColon := words d.afterColon
  value := words d.value
  beforeSemicolon := words d.beforeSemicolon
  semicolon := d.semicolon.map Token.bare

/-- The statement without whitespace and places. -/
def Statement.skeleton : Statement → Statement
  | declaration d => declaration d.skeleton
  | atRule keyword prelude semicolon =>
    atRule keyword.bare (words prelude) (semicolon.map Token.bare)
  | comment t => comment t.bare
  | empty t => empty t.bare
  | skipped ts error => skipped (words ts) (error.map fun e => { e with span := default })

/-- The head of a block without whitespace and places. -/
def Head.skeleton : Head → Head
  | ruleSet selectors => ruleSet (words selectors)
  | atRule keyword prelude => atRule keyword.bare (words prelude)

/-- The piece without whitespace and places. -/
def PieceBody.skeleton : PieceBody → PieceBody
  | statement s => statement s.skeleton
  | opening head brace => opening head.skeleton brace.bare
  | closing brace => closing brace.bare

@[inherit_doc PieceBody.skeleton]
def Piece.skeleton (p : Piece) : Piece where
  leading := words p.leading
  body := p.body.skeleton

mutual

/-- The node without whitespace and places, in all nodes inside it as well. -/
def Node.skeleton : Node → Node
  | .statement leading level s => .statement (words leading) level s.skeleton
  | .block leading level depth head opening children trailing closing =>
    .block (words leading) level depth head.skeleton opening.bare (Node.skeletonOfAll children)
      (words trailing) (closing.map Token.bare)

@[inherit_doc Node.skeleton]
def Node.skeletonOfAll : List Node → List Node
  | [] => []
  | n :: ns => n.skeleton :: Node.skeletonOfAll ns

end

/-- The tree without whitespace and places. -/
def Stylesheet.skeleton (s : Stylesheet) : Stylesheet where
  children := Node.skeletonOfAll s.children
  trailing := words s.trailing

theorem Node.skeletonOfAll_eq_map (ns : List Node) : skeletonOfAll ns = ns.map skeleton := by
  induction ns with
  | nil => rfl
  | cons n ns ih => rw [skeletonOfAll, ih, List.map_cons]

/-! ## Pieces of words -/

namespace Piece

variable {first : Token} {rest : List Token} {semicolon : Option Token}

@[simp] theorem isTerminator_bare (t : Token) : isTerminator t.bare = isTerminator t := rfl

theorem isTerminator_of_isWhitespace (h : t.isWhitespace = true) : isTerminator t = false := by
  simp [isTerminator, Token.isPunct_of_isWhitespace h]

theorem lengthToTerminator_cons_of_space (h : t.isWhitespace = true) (depth : Nat)
    (ts : List Token) : lengthToTerminator depth (t :: ts) = lengthToTerminator depth ts + 1 := by
  rw [lengthToTerminator, bracketDepth_of_isWhitespace h, isTerminator_of_isWhitespace h]
  simp

/-- The tokens up to a terminator have as words the words up to it. -/
theorem words_take_lengthToTerminator (depth : Nat) (ts : List Token) :
    (words ts).take (lengthToTerminator depth (words ts))
      = words (ts.take (lengthToTerminator depth ts)) := by
  induction ts generalizing depth with
  | nil => rfl
  | cons t ts ih =>
    cases hspace : t.isWhitespace with
    | true => simp [hspace, lengthToTerminator_cons_of_space hspace, ih]
    | false =>
      rw [words_cons_of_word hspace, lengthToTerminator, lengthToTerminator, bracketDepth_bare,
        isTerminator_bare]
      split
      · rfl
      · rw [List.take_succ_cons, List.take_succ_cons, ih, words_cons_of_word hspace]

/-- The terminator of words is that of the tokens. -/
theorem words_getElem?_lengthToTerminator (depth : Nat) (ts : List Token) :
    (words ts)[lengthToTerminator depth (words ts)]?
      = ts[lengthToTerminator depth ts]?.map Token.bare := by
  induction ts generalizing depth with
  | nil => rfl
  | cons t ts ih =>
    cases hspace : t.isWhitespace with
    | true => simp [hspace, lengthToTerminator_cons_of_space hspace, ih]
    | false =>
      rw [words_cons_of_word hspace, lengthToTerminator, lengthToTerminator, bracketDepth_bare,
        isTerminator_bare]
      split
      · rfl
      · rw [List.getElem?_cons_succ, List.getElem?_cons_succ, ih]

theorem cutAtColon?_words (depth : Nat) (ts : List Token) :
    cutAtColon? depth (words ts) = (cutAtColon? depth ts).map fun cut =>
      (words cut.1, cut.2.1.bare, words cut.2.2) := by
  induction ts generalizing depth with
  | nil => rfl
  | cons t ts ih =>
    cases hspace : t.isWhitespace with
    | true =>
      rw [words_cons_of_space hspace, cutAtColon?, Token.isPunct_of_isWhitespace hspace,
        bracketDepth_of_isWhitespace hspace, ih, Bool.and_false, if_neg Bool.false_ne_true,
        Option.map_map]
      simp [Function.comp_def, hspace]
    | false =>
      rw [words_cons_of_word hspace, cutAtColon?, cutAtColon?, bracketDepth_bare,
        Token.isPunct_bare, ih]
      split
      · rfl
      · rw [Option.map_map, Option.map_map]
        simp [Function.comp_def, hspace]

theorem any_error_words (ts : List Token) :
    (words ts).any (·.kind == .error) = ts.any (·.kind == .error) := by
  induction ts with
  | nil => rfl
  | cons t ts ih =>
    cases hspace : t.isWhitespace with
    | true =>
      have hkind : t.kind = .whitespace := beq_iff_eq.mp hspace
      simp [hspace, ih, hkind]
    | false =>
      rw [words_cons_of_word hspace, List.any_cons, List.any_cons, ih]
      rfl

theorem statementOf_words (hsemicolon : ∀ s ∈ semicolon, s.isWhitespace = false)
    (ts : List Token) :
    statementOf (words ts) (semicolon.map Token.bare) = (statementOf ts semicolon).skeleton := by
  have hopen (error : Option SyntaxError) :
      Statement.skipped (words ts) (error.map fun e => { e with span := default })
        = (Statement.skipped (dropEndWhile Token.isWhitespace ts) error).skeleton := by
    simp [Statement.skeleton, words_dropEndWhile_isWhitespace]
  have hclosed (s : Token) (hs : s ∈ semicolon) (error : Option SyntaxError) :
      Statement.skipped (words ts ++ [s.bare]) (error.map fun e => { e with span := default })
        = (Statement.skipped (ts ++ [s]) error).skeleton := by
    simp [Statement.skeleton, hsemicolon s hs]
  unfold statementOf
  simp only [cutAtColon?_words, any_error_words, dropEndWhile_isWhitespace_words]
  cases hcut : cutAtColon? 0 ts with
  | none =>
    simp only [Option.map_none, span?_words]
    split
    · cases semicolon with
      | none => exact hopen none
      | some s => exact hclosed s rfl none
    · have herror : ((Tokens.span? (dropEndWhile Token.isWhitespace ts)).map fun _ => default).map
            (fun span => (⟨.expectedDeclaration, span⟩ : SyntaxError))
          = ((Tokens.span? (dropEndWhile Token.isWhitespace ts)).map
            fun span => (⟨.expectedDeclaration, span⟩ : SyntaxError)).map
              fun e => { e with span := default } := by
        rw [Option.map_map, Option.map_map]
        rfl
      rw [herror]
      cases semicolon with
      | none => exact hopen _
      | some s => exact hclosed s rfl _
  | some cut =>
    obtain ⟨front, colon, back⟩ := cut
    simp only [Option.map_some, dropEndWhile_isTrivia_words,
      words_dropEndWhile_isTrivia_eq_nil_iff]
    split
    · cases semicolon with
      | none => exact hopen (some ⟨.missingProperty, colon.span⟩)
      | some s => exact hclosed s rfl (some ⟨.missingProperty, colon.span⟩)
    · simp only [Statement.skeleton, Declaration.skeleton, takeEndWhile_isTrivia_words,
        takeWhile_isWhitespace_words, words_takeWhile_isWhitespace, dropWhile_isWhitespace_words,
        dropEndWhile_isWhitespace_words, words_dropEndWhile_isWhitespace,
        words_dropWhile_isWhitespace, takeEndWhile_isWhitespace_words, ite_self,
        apply_ite words, words_takeEndWhile_isWhitespace, words_nil]

theorem ofAtRule_words (keyword : Token) (rest : List Token) :
    ofAtRule keyword.bare (words rest) = (ofAtRule keyword rest).skeleton := by
  unfold ofAtRule
  simp only [words_take_lengthToTerminator, words_getElem?_lengthToTerminator,
    dropEndWhile_isWhitespace_words]
  cases rest[lengthToTerminator 0 rest]? with
  | none =>
    simp [PieceBody.skeleton, Statement.skeleton, words_dropEndWhile_isWhitespace]
  | some t =>
    simp only [Option.map_some, Token.isPunct_bare, apply_ite PieceBody.skeleton]
    simp only [PieceBody.skeleton, Statement.skeleton, Head.skeleton,
      words_dropEndWhile_isWhitespace]
    rfl

theorem ofStatement_words (hfirst : first.isWhitespace = false) (rest : List Token) :
    ofStatement first.bare (words rest) = (ofStatement first rest).skeleton := by
  have hnone := @statementOf_words none nofun
  unfold ofStatement
  simp only [← words_cons_of_word hfirst, words_take_lengthToTerminator,
    words_getElem?_lengthToTerminator]
  cases (first :: rest)[lengthToTerminator 0 (first :: rest)]? with
  | none => exact congrArg PieceBody.statement (hnone _)
  | some t =>
    simp only [Option.map_some, apply_ite PieceBody.skeleton]
    refine if_congr Iff.rfl rfl ?_
    by_cases hpunct : t.isPunct ';' = true
    · have hbare : t.bare.isPunct ';' = true := hpunct
      rw [if_pos hpunct, if_pos hbare]
      refine congrArg PieceBody.statement (@statementOf_words (some t) ?_ _)
      rintro _ ⟨⟩
      exact isWhitespace_of_isPunct hpunct
    · have hbare : ¬ t.bare.isPunct ';' = true := hpunct
      rw [if_neg hpunct, if_neg hbare]
      exact congrArg PieceBody.statement (hnone _)

/-- **A piece read off words is the skeleton of the piece.** -/
theorem read_words (hfirst : first.isWhitespace = false) (rest : List Token) :
    read first.bare (words rest) = (read first rest).skeleton := by
  unfold read
  rw [ofAtRule_words, ofStatement_words hfirst]
  simp only [apply_ite PieceBody.skeleton]
  rfl

@[simp] theorem words_bare_cons (t : Token) (ts : List Token) :
    words (t.bare :: ts) = words (t :: ts) := by
  cases hspace : t.isWhitespace with
  | true =>
    have hbare : t.bare.isWhitespace = true := hspace
    rw [words_cons_of_space hspace, words_cons_of_space hbare]
  | false =>
    have hbare : t.bare.isWhitespace = false := hspace
    rw [words_cons_of_word hspace, words_cons_of_word hbare]
    rfl

@[simp] theorem words_toList_map_bare (t : Option Token) :
    words (t.map Token.bare).toList = words t.toList := by
  cases t <;> simp

/-- A piece and its skeleton have the same words. -/
theorem words_tokens_skeleton (b : PieceBody) : words b.skeleton.tokens = words b.tokens := by
  have hcons (t : Token) (ts : List Token) : words (t :: ts) = words [t] ++ words ts :=
    words_append [t] ts
  cases b with
  | statement s =>
    cases s <;> simp [PieceBody.skeleton, PieceBody.tokens, Statement.skeleton, Statement.tokens,
      Declaration.skeleton, Declaration.tokens, hcons _ (_ ++ _)]
  | opening head brace =>
    cases head <;> simp [PieceBody.skeleton, PieceBody.tokens, Head.skeleton, Head.tokens,
      hcons _ (_ ++ _)]
  | closing brace => exact words_bare_cons brace []

/-- What is left behind a piece read off words are the words of what is left behind the piece. -/
theorem drop_words (hfirst : first.isWhitespace = false) (rest : List Token) :
    (words rest).drop ((read first.bare (words rest)).tokens.length - 1)
      = words (rest.drop ((read first rest).tokens.length - 1)) := by
  have hbare : first.bare.isWhitespace = false := hfirst
  have htokens : (read first.bare (words rest)).tokens = words (read first rest).tokens := by
    have hsubset : (read first.bare (words rest)).tokens ⊆ words (first :: rest) := by
      rw [words_cons_of_word hfirst]
      have hread := read_prefix first.bare (words rest)
      exact hread.subset
    rw [← words_eq_self_of_subset hsubset, read_words hfirst, words_tokens_skeleton]
  have hwords := congrArg words (read_append_drop hfirst rest)
  rw [words_append, words_cons_of_word hfirst, ← read_append_drop hbare (words rest),
    ← htokens] at hwords
  exact (List.append_cancel_left hwords).symm

/-- **Words fall into the skeletons of the pieces.** -/
theorem split_words (ts : List Token) :
    split (words ts) = ((split ts).1.map skeleton, words (split ts).2) := by
  fun_induction split ts with
  | case1 ts _ hnil =>
    have hwords : words ts = [] := by rw [← words_dropWhile_isWhitespace, hnil, words_nil]
    rw [hwords, split_of_dropWhile_eq_nil rfl, words_takeWhile_isWhitespace]
    rfl
  | case2 ts _ first rest hcons body more ih =>
    have hfirst := isWhitespace_of_dropWhile_eq_cons hcons
    have hwords : (words ts).dropWhile Token.isWhitespace = first.bare :: words rest := by
      rw [dropWhile_isWhitespace_words, ← words_dropWhile_isWhitespace, hcons,
        words_cons_of_word hfirst]
    rw [split_of_dropWhile_eq_cons hwords, drop_words hfirst, ih, read_words hfirst,
      takeWhile_isWhitespace_words, List.map_cons, skeleton, words_takeWhile_isWhitespace]

end Piece

/-! ## The tree of words -/

namespace Stylesheet

/-- The open block without whitespace and places. -/
def OpenBlock.skeleton (b : OpenBlock) : OpenBlock where
  leading := words b.leading
  head := b.head.skeleton
  opening := b.opening.bare
  before := b.before.map Node.skeleton

@[simp] theorem isRuleSet_skeleton (head : Head) : head.skeleton.isRuleSet = head.isRuleSet := by
  cases head <;> rfl

@[simp] theorem ruleSetDepth_skeleton (blocks : List OpenBlock) :
    ruleSetDepth (blocks.map OpenBlock.skeleton) = ruleSetDepth blocks := by
  rw [ruleSetDepth, List.countP_map]
  exact List.countP_congr fun b _ => by simp [OpenBlock.skeleton]

theorem close_skeleton (b : OpenBlock) (outer : List OpenBlock) (done : List Node)
    (trailing : List Token) (closing : Option Token) :
    b.skeleton.close (outer.map OpenBlock.skeleton) (done.map Node.skeleton).reverse
        (words trailing) (closing.map Token.bare)
      = (b.close outer done.reverse trailing closing).skeleton := by
  rw [OpenBlock.close, OpenBlock.close, Node.skeleton, Node.skeletonOfAll_eq_map,
    List.map_reverse, ← List.map_cons (f := OpenBlock.skeleton), ruleSetDepth_skeleton,
    List.length_map]
  rfl

theorem closeAll_skeleton (blocks : List OpenBlock) (done : List Node) (trailing : List Token) :
    closeAll (blocks.map OpenBlock.skeleton) (done.map Node.skeleton) (words trailing)
      = (closeAll blocks done trailing).skeleton := by
  induction blocks generalizing done trailing with
  | nil =>
    rw [List.map_nil, closeAll, closeAll, skeleton, Node.skeletonOfAll_eq_map, List.map_reverse]
  | cons b outer ih =>
    have hclose := close_skeleton b outer done trailing none
    rw [Option.map_none] at hclose
    rw [List.map_cons, closeAll, closeAll, hclose, ← ih, List.map_cons]
    rfl

namespace Building

/-- What is being built, without whitespace and places. -/
def skeleton (b : Building) : Building where
  blocks := b.blocks.map OpenBlock.skeleton
  done := b.done.map Node.skeleton

/-- The skeleton of a piece goes where the piece goes. -/
theorem place_skeleton (b : Building) {p : Piece} (hp : p.Delimited) :
    b.skeleton.place p.skeleton = (b.place p).skeleton := by
  obtain ⟨leading, body⟩ := p
  obtain ⟨blocks, done⟩ := b
  cases body with
  | statement s =>
    simp only [place, skeleton, Piece.skeleton, PieceBody.skeleton, List.map_cons, Node.skeleton,
      List.length_map]
  | opening head brace => rfl
  | closing brace =>
    have hbrace : words [brace] = [brace.bare] :=
      words_cons_of_word (Piece.isWhitespace_of_isPunct hp.braced) []
    cases blocks with
    | nil =>
      simp only [place, skeleton, Piece.skeleton, PieceBody.skeleton, List.map_cons, List.map_nil,
        Node.skeleton, Statement.skeleton, hbrace]
      rfl
    | cons block outer =>
      have hclose := close_skeleton block outer done leading (some brace)
      rw [Option.map_some] at hclose
      simp only [place, skeleton, Piece.skeleton, PieceBody.skeleton, List.map_cons, hclose]
      rfl

theorem foldl_place_skeleton (b : Building) {pieces : List Piece}
    (hpieces : ∀ p ∈ pieces, p.Delimited) :
    (pieces.map Piece.skeleton).foldl place b.skeleton = (pieces.foldl place b).skeleton := by
  induction pieces generalizing b with
  | nil => rfl
  | cons p pieces ih =>
    obtain ⟨hp, htail⟩ := List.forall_mem_cons.mp hpieces
    rw [List.map_cons, List.foldl_cons, List.foldl_cons, place_skeleton b hp, ih _ htail]

end Building

/-- **The tree of the words is the skeleton of the tree.** -/
theorem skeleton_ofTokens (ts : List Token) : (ofTokens ts).skeleton = ofTokens (words ts) := by
  have hplaced := Building.foldl_place_skeleton ⟨[], []⟩ (Piece.delimited_split ts)
  rw [ofTokens_eq_foldl, ofTokens_eq_foldl, Piece.split_words, Building.finish, Building.finish,
    ← closeAll_skeleton]
  exact congrArg (Building.finish · (words (Piece.split ts).2)) hplaced.symm

end Stylesheet

/-! ## Selectors -/

theorem Tokens.segments_words (depth : Nat) (ts : List Token) :
    segments bracketDepth (·.isPunct ',') depth (words ts)
      = (segments bracketDepth (·.isPunct ',') depth ts).map words := by
  induction ts generalizing depth with
  | nil => rfl
  | cons t ts ih =>
    cases hspace : t.isWhitespace with
    | true =>
      rw [words_cons_of_space hspace, segments, Token.isPunct_of_isWhitespace hspace,
        bracketDepth_of_isWhitespace hspace, ih, Bool.and_false, if_neg Bool.false_ne_true]
      cases hsegments : segments bracketDepth (·.isPunct ',') depth ts with
      | nil => exact absurd hsegments (segments_ne_nil _ _ _ _)
      | cons => simp [hspace]
    | false =>
      rw [words_cons_of_word hspace, segments, segments, bracketDepth_bare, Token.isPunct_bare]
      split
      · rw [ih, List.map_cons, words_nil]
      · rw [ih]
        cases segments bracketDepth (·.isPunct ',') (bracketDepth depth t) ts <;> simp [hspace]

/-- The selectors among words are the words of the selectors. -/
theorem selectorsOf_words (ts : List Token) :
    selectorsOf (words ts) = (selectorsOf ts).map words := by
  have htrim : trim ∘ words = words ∘ trim := funext trim_words
  rw [selectorsOf, selectorsOf, segments_words, List.map_map, htrim, ← List.map_map,
    List.filter_map]
  refine congrArg _ (List.filter_congr fun segment hsegment => ?_)
  obtain ⟨us, -, rfl⟩ := List.mem_map.mp hsegment
  exact decide_eq_decide.mpr (not_congr (words_dropEndWhile_isTrivia_eq_nil_iff _))

namespace Node

/-- The selectors of a rule set. -/
def selectors : Node → List (List Token)
  | block _ _ _ (.ruleSet selectors) _ _ _ _ => selectorsOf selectors
  | _ => []

theorem selectors_skeleton (n : Node) : n.skeleton.selectors = n.selectors.map words := by
  cases n with
  | statement => rfl
  | block leading level depth head =>
    cases head with
    | ruleSet selectors => exact selectorsOf_words selectors
    | atRule => rfl

mutual

theorem nodes_skeleton : (n : Node) → n.skeleton.nodes = n.nodes.map skeleton
  | .statement leading level s => rfl
  | .block leading level depth head opening children trailing closing => by
    rw [skeleton, nodes, nodes, List.map_cons, skeleton, nodesOfAll_skeleton]

theorem nodesOfAll_skeleton :
    (ns : List Node) → nodesOfAll (skeletonOfAll ns) = (nodesOfAll ns).map skeleton
  | [] => rfl
  | n :: ns => by
    rw [skeletonOfAll, nodesOfAll, nodesOfAll, List.map_append, nodes_skeleton,
      nodesOfAll_skeleton]

end

end Node

/-- Nodes of trees with the same words are the same but for whitespace and places. -/
theorem Stylesheet.forall₂_skeleton {ts ts' : List Token} (h : words ts' = words ts) :
    List.Forall₂ (fun n n' : Node => n'.skeleton = n.skeleton) (ofTokens ts).nodes
      (ofTokens ts').nodes := by
  have hnodes : (ofTokens ts').skeleton.nodes = (ofTokens ts).skeleton.nodes := by
    rw [skeleton_ofTokens, skeleton_ofTokens, h]
  rw [nodes, nodes, skeleton, skeleton, Node.nodesOfAll_skeleton, Node.nodesOfAll_skeleton] at hnodes
  have hmaps := List.forall₂_eq_eq_eq ▸ hnodes
  rw [List.forall₂_map_left_iff, List.forall₂_map_right_iff] at hmaps
  exact hmaps.flip

/-! ## Errors -/

/-- Malformed tokens are words. -/
theorem Tokens.kind_ne_error_of_words_eq {ts ts' : List Token} (h : words ts' = words ts)
    (hclean : ∀ t ∈ ts, t.kind ≠ .error) : ∀ t ∈ ts', t.kind ≠ .error := by
  intro t ht hkind
  have hany : (ts'.any (·.kind == .error)) = true := List.any_eq_true.mpr ⟨t, ht, by simp [hkind]⟩
  rw [← Piece.any_error_words, h, Piece.any_error_words] at hany
  obtain ⟨u, hu, hkind⟩ := List.any_eq_true.mp hany
  exact hclean u hu (beq_iff_eq.mp hkind)

namespace SyntaxError

/-- What errors say, without their places. -/
def defects (errors : List SyntaxError) : List Defect := errors.map (·.defect)

end SyntaxError

open SyntaxError

theorem Head.defects_skeleton (head : Head) (opening : Token) :
    defects (head.skeleton.errors opening.bare) = defects (head.errors opening) := by
  cases head with
  | atRule => rfl
  | ruleSet selectors =>
    simp only [Head.skeleton, Head.errors, selectorsOf_words, List.map_eq_nil_iff]
    split <;> rfl

theorem Statement.defects_skeleton (s : Statement) :
    defects s.skeleton.errors = defects s.errors := by
  cases s with
  | skipped ts error => cases error <;> rfl
  | _ => rfl

namespace Node

mutual

theorem defects_skeleton : (n : Node) → defects n.skeleton.errors = defects n.errors
  | .statement leading level s => s.defects_skeleton
  | .block leading level depth head opening children trailing closing => by
    have hhead := head.defects_skeleton opening
    have hchildren := defectsOfAll_skeleton children
    unfold defects at *
    rw [skeleton, errors, errors, List.map_append, List.map_append, List.map_append,
      List.map_append, hhead, hchildren]
    cases closing <;> rfl

theorem defectsOfAll_skeleton :
    (ns : List Node) → defects (errorsOfAll (skeletonOfAll ns)) = defects (errorsOfAll ns)
  | [] => rfl
  | n :: ns => by
    have hn := n.defects_skeleton
    have hns := defectsOfAll_skeleton ns
    unfold defects at *
    rw [skeletonOfAll, errorsOfAll, errorsOfAll, List.map_append, List.map_append, hn, hns]

end

end Node

namespace Parse

theorem defects_tokenErrors_words (ts : List Token) :
    defects (tokenErrors (words ts)) = defects (tokenErrors ts) := by
  have hword (t : Token) : (t.kind == .error && !t.isWhitespace) = (t.kind == .error) := by
    cases hkind : t.kind <;> simp [Token.isWhitespace, hkind]
  have herrors : (words ts).filter (·.kind == .error)
      = (ts.filter (·.kind == .error)).map Token.bare := by
    rw [words, List.filter_map, List.filter_filter]
    exact congrArg _ (List.filter_congr fun t _ => hword t)
  rw [defects, defects, tokenErrors, tokenErrors, herrors, List.map_map, List.map_map, List.map_map]
  rfl

/-- The errors of the words say what the errors of the tokens say. -/
theorem defects_errors_words (ts : List Token) :
    (defects (ofTokens (words ts)).errors).Perm (defects (ofTokens ts).errors) := by
  have hsheet : defects (Stylesheet.ofTokens (words ts)).errors
      = defects (Stylesheet.ofTokens ts).errors := by
    rw [← Stylesheet.skeleton_ofTokens]
    exact Node.defectsOfAll_skeleton _
  have hsorted (ts : List Token) : (defects (ofTokens ts).errors).Perm
      (defects (tokenErrors ts) ++ defects (Stylesheet.ofTokens ts).errors) := by
    unfold defects
    rw [← List.map_append]
    exact (errors_ofTokens_perm ts).map _
  refine (hsorted _).trans ?_
  rw [hsheet, defects_tokenErrors_words]
  exact (hsorted ts).symm

/-- **Layout does not count.** Two runs of tokens that are the same but for whitespace and places
give trees that are the same but for whitespace and places, with the same selectors, and errors with
the same messages. -/
theorem eq_of_words_eq {ts ts' : List Token} (h : words ts = words ts') :
    (ofTokens ts).sheet.skeleton = (ofTokens ts').sheet.skeleton
      ∧ (ofTokens ts).sheet.nodes.map (fun n => n.selectors.map words)
        = (ofTokens ts').sheet.nodes.map (fun n => n.selectors.map words)
      ∧ ((ofTokens ts).errors.map (·.defect.message)).Perm
          ((ofTokens ts').errors.map (·.defect.message)) := by
  have hskeleton : (ofTokens ts).sheet.skeleton = (ofTokens ts').sheet.skeleton := by
    show (Stylesheet.ofTokens ts).skeleton = (Stylesheet.ofTokens ts').skeleton
    rw [Stylesheet.skeleton_ofTokens, Stylesheet.skeleton_ofTokens, h]
  have hselectors (s : Stylesheet) :
      s.nodes.map (fun n => n.selectors.map words) = s.skeleton.nodes.map Node.selectors := by
    rw [Stylesheet.nodes, Stylesheet.nodes, Stylesheet.skeleton, Node.nodesOfAll_skeleton,
      List.map_map]
    exact List.map_congr_left fun n _ => n.selectors_skeleton.symm
  have hdefects : (defects (ofTokens ts).errors).Perm (defects (ofTokens ts').errors) :=
    (defects_errors_words ts).symm.trans (h ▸ defects_errors_words ts')
  refine ⟨hskeleton, by rw [hselectors, hselectors, hskeleton], ?_⟩
  have hmessages := hdefects.map Defect.message
  rwa [defects, defects, List.map_map, List.map_map] at hmessages

/-- Spaces and line breaks count neither in what is left open nor in what has no selector. -/
theorem eq_of_words_eq_of_layout :
    words (Tokens.ofText "\x7ba:b ;\x7dc\x7b".toList)
        = words (Tokens.ofText " \x7b\n a: b;\x7d c \x7b\n".toList)
      ∧ ((ofText "\x7ba:b ;\x7dc\x7b".toList).errors.map (·.defect.message)).Perm
          ((ofText " \x7b\n a: b;\x7d c \x7b\n".toList).errors.map (·.defect.message)) := by
  have hwords : words (Tokens.ofText "\x7ba:b ;\x7dc\x7b".toList)
      = words (Tokens.ofText " \x7b\n a: b;\x7d c \x7b\n".toList) := by cbv
  exact ⟨hwords, (eq_of_words_eq hwords).2.2⟩

end Parse

end SheetLint
