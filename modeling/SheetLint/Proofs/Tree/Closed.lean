import SheetLint.Proofs.Token.Stability
import SheetLint.Proofs.Tree.Nodes
import SheetLint.Proofs.Tree.Relabeling

/-!
# Statements up to their semicolon

Where a statement ends and what it says is read off the kinds and texts of its tokens, whatever
their places are. A statement ends at the first semicolon outside brackets, so of two that start a
text in common neither goes on behind the other.

Results:
* `Piece.read_map_bare`: reading a piece does not look at places.
* `Tokens.Closed.bare_eq`: two statements with semicolon that start one text are the same.
-/

namespace SheetLint

variable {ts : List Token}

/-! ## Reading does not look at places -/

theorem Token.isPunct_bare (c : Char) (t : Token) : t.bare.isPunct c = t.isPunct c := rfl

theorem Token.keepsRole_bare : Token.KeepsRole Token.bare fun _ => default where
  kind _ := rfl
  punct t c := Token.isPunct_bare c t
  span _ := rfl
  between _ _ := rfl

namespace Tokens

@[simp] theorem text_map_bare (ts : List Token) : text (ts.map Token.bare) = text ts := by
  induction ts with
  | nil => rfl
  | cons t ts ih => rw [List.map_cons, text_cons, text_cons, ih, Token.bare]

end Tokens

/-- The declaration without places. -/
def Declaration.bare (d : Declaration) : Declaration where
  property := d.property.map Token.bare
  beforeColon := d.beforeColon.map Token.bare
  colon := d.colon.bare
  afterColon := d.afterColon.map Token.bare
  value := d.value.map Token.bare
  beforeSemicolon := d.beforeSemicolon.map Token.bare
  semicolon := d.semicolon.map Token.bare

/-- The statement without places. -/
def Statement.bare : Statement → Statement
  | declaration d => declaration d.bare
  | atRule keyword prelude semicolon =>
    atRule keyword.bare (prelude.map Token.bare) (semicolon.map Token.bare)
  | comment t => comment t.bare
  | empty t => empty t.bare
  | skipped ts error => skipped (ts.map Token.bare) (error.map fun e => { e with span := default })

/-- The semicolon of a statement. -/
def Statement.semicolon? : Statement → Option Token
  | declaration d => d.semicolon
  | atRule _ _ semicolon => semicolon
  | _ => none

/-- The piece without places. -/
def PieceBody.bare : PieceBody → PieceBody
  | statement s => statement s.bare
  | opening (.ruleSet selectors) brace => opening (.ruleSet (selectors.map Token.bare)) brace.bare
  | opening (.atRule keyword prelude) brace =>
    opening (.atRule keyword.bare (prelude.map Token.bare)) brace.bare
  | closing brace => closing brace.bare

theorem PieceBody.relabel_bare (b : PieceBody) :
    b.relabel Token.bare (fun _ => default) = b.bare := by
  cases b with
  | statement s => cases s <;> rfl
  | opening head brace => cases head <;> rfl
  | closing brace => rfl

/-- The node without places. -/
def Node.bare (n : Node) : Node := n.relabel Token.bare fun _ => default

/-- The stylesheet without places. -/
def Stylesheet.bare (s : Stylesheet) : Stylesheet := s.relabel Token.bare fun _ => default

theorem Stylesheet.nodes_bare (s : Stylesheet) : s.bare.nodes = s.nodes.map Node.bare :=
  Node.nodesOfAll_relabelAll _ _ _

theorem Stylesheet.siblings_bare (s : Stylesheet) :
    s.bare.siblings = s.siblings.map (List.map Node.bare) := by
  have hbody (n : Node) : n.bare.body?.map Body.children =
      (n.body?.map Body.children).map (List.map Node.bare) := by
    cases n with
    | statement => rfl
    | block leading level depth head opening children =>
      exact congrArg some (Node.relabelAll_eq_map children)
  rw [siblings, siblings, nodes_bare, List.map_cons, List.filterMap_map, List.map_filterMap]
  exact congrArg₂ List.cons (Node.relabelAll_eq_map s.children)
    (List.filterMap_congr fun n _ => hbody n)

theorem Stylesheet.declarations_bare (s : Stylesheet) :
    s.bare.declarations = s.declarations.map Declaration.bare := by
  rw [declarations, nodes_bare, declarations, List.filterMap_map, List.map_filterMap]
  refine List.filterMap_congr fun n _ => ?_
  cases n with
  | block => rfl
  | statement leading level s => cases s <;> rfl

/-- The tree does not depend on places. -/
theorem Stylesheet.ofTokens_map_bare (ts : List Token) :
    ofTokens (ts.map Token.bare) = (ofTokens ts).bare := ofTokens_map Token.keepsRole_bare ts

theorem Stylesheet.bare_eq_of_map_bare {ts' : List Token} (h : ts.map Token.bare = ts'.map Token.bare) :
    (ofTokens ts).bare = (ofTokens ts').bare := by
  rw [← ofTokens_map_bare, h, ofTokens_map_bare]

theorem Parse.isOk_eq_of_map_bare {ts' : List Token} (h : ts.map Token.bare = ts'.map Token.bare) :
    (ofTokens ts).isOk = (ofTokens ts').isOk := by
  rw [← isOk_map Token.keepsRole_bare, h, isOk_map Token.keepsRole_bare]

namespace Piece

/-- **Reading a piece does not look at places.** -/
theorem read_map_bare (first : Token) (rest : List Token) :
    read first.bare (rest.map Token.bare) = (read first rest).bare := by
  rw [read_map Token.keepsRole_bare, PieceBody.relabel_bare]

/-! ## Reading up to a semicolon -/

variable {front rest : List Token} {t : Token} {depth : Nat}

/-- What stands behind a terminator does not tell where a piece ends. -/
theorem lengthToTerminator_append (h : lengthToTerminator depth (front ++ t :: rest) = front.length)
    (rest' : List Token) : lengthToTerminator depth (front ++ t :: rest') = front.length := by
  induction front generalizing depth with
  | nil =>
    rw [List.nil_append, lengthToTerminator] at h ⊢
    split at h
    · rename_i hstop
      rw [if_pos hstop]
      rfl
    · cases h
  | cons u front ih =>
    rw [List.cons_append, lengthToTerminator] at h ⊢
    split at h
    · cases h
    · rename_i hgo
      rw [if_neg hgo, ih (Nat.succ.inj h)]
      rfl

/-- Up to its terminator a piece has as many tokens as in front of what follows. -/
theorem lengthToTerminator_take {ts : List Token} {n : Nat} (h : lengthToTerminator depth ts = n)
    (ht : ts[n]? = some t) : lengthToTerminator depth (ts.take n ++ [t]) = n := by
  obtain ⟨hn, rfl⟩ := List.getElem?_eq_some_iff.mp ht
  have hlength : (ts.take n).length = n := by rw [List.length_take]; omega
  have hsplit : ts = ts.take n ++ ts[n] :: ts.drop (n + 1) := by simp
  have h' : lengthToTerminator depth (ts.take n ++ ts[n] :: ts.drop (n + 1)) = (ts.take n).length := by
    rw [← hsplit, h, hlength]
  rw [lengthToTerminator_append h' [], hlength]

theorem semicolon?_statementOf_none (ts : List Token) : (statementOf ts none).semicolon? = none := by
  unfold statementOf
  cases cutAtColon? 0 ts with
  | none =>
    simp only
    split <;> rfl
  | some cut =>
    simp only
    split <;> rfl

theorem eq_of_semicolon?_statementOf {ts : List Token} {t' : Token}
    (h : (statementOf ts (some t')).semicolon? = some t) : t' = t := by
  unfold statementOf at h
  cases hcut : cutAtColon? 0 ts with
  | none =>
    rw [hcut] at h
    simp only at h
    split at h <;> cases h
  | some cut =>
    rw [hcut] at h
    simp only at h
    split at h
    · cases h
    · exact Option.some.inj h

/-- How a statement with semicolon is read: from its own tokens, which end with the first
terminator outside brackets. -/
structure ReadUpTo (s : Statement) (first : Token) (tail : List Token) (semicolon : Token) :
    Prop where
  tokens_eq : s.tokens = first :: tail ++ [semicolon]
  read_eq : read first (tail ++ [semicolon]) = .statement s
  isPunct : semicolon.isPunct ';' = true
  length_eq : lengthToTerminator 0 (first :: tail ++ [semicolon]) = (first :: tail).length

variable {first keyword : Token} {s : Statement}

theorem isPunct_openBrace_of_semicolon (h : t.isPunct ';' = true) : t.isPunct '\x7b' = false :=
  Token.isPunct_of_ne h (by decide)

theorem exists_prelude_of_ofAtRule (h : ofAtRule keyword rest = .statement s)
    (hs : s.semicolon? = some t) :
    ∃ prelude, s = .atRule keyword prelude (some t) ∧ t.isPunct ';' = true
      ∧ lengthToTerminator 0 (prelude ++ [t]) = prelude.length := by
  unfold ofAtRule at h
  simp only at h
  split at h
  · rename_i t' ht'
    split at h
    · cases h
    · split at h
      · rename_i hsemicolon
        cases h
        cases hs
        refine ⟨_, rfl, hsemicolon, ?_⟩
        rw [lengthToTerminator_take rfl ht', List.length_take]
        have := (List.getElem?_eq_some_iff.mp ht').1
        omega
      · cases h
        cases hs
  · cases h
    cases hs

theorem readUpTo_ofAtRule (hkind : keyword.kind = .atKeyword)
    (hread : ∀ rest, read keyword rest = ofAtRule keyword rest)
    (h : ofAtRule keyword rest = .statement s) (hs : s.semicolon? = some t) :
    ∃ tail, ReadUpTo s keyword tail t := by
  obtain ⟨prelude, rfl, hsemicolon, hlength⟩ := exists_prelude_of_ofAtRule h hs
  refine ⟨prelude, rfl, ?_, hsemicolon, ?_⟩
  · rw [hread, ofAtRule, hlength]
    simp [hsemicolon, isPunct_openBrace_of_semicolon hsemicolon]
  · have hpunct (c : Char) : keyword.isPunct c = false := by simp [Token.isPunct, hkind]
    rw [List.cons_append, lengthToTerminator, if_neg (by simp [isTerminator, hpunct])]
    simp [Tokens.bracketDepth, Token.isOpener, Token.isCloser, hpunct, hlength]

theorem readUpTo_ofStatement (hfirst : first.isPunct ';' = false)
    (hread : ∀ rest, read first rest = ofStatement first rest)
    (h : ofStatement first rest = .statement s) (hs : s.semicolon? = some t) :
    ∃ tail, ReadUpTo s first tail t := by
  unfold ofStatement at h
  simp only at h
  split at h
  · rename_i t' ht'
    split at h
    · cases h
    · split at h
      · rename_i hsemicolon
        cases h
        cases eq_of_semicolon?_statementOf hs
        cases hn : lengthToTerminator 0 (first :: rest) with
        | zero =>
          rw [hn] at ht'
          cases ht'
          rw [hfirst] at hsemicolon
          cases hsemicolon
        | succ n =>
          have hlength := lengthToTerminator_take hn (hn ▸ ht')
          have hlt := (List.getElem?_eq_some_iff.mp ht').1
          rw [hn, List.length_cons] at hlt
          rw [List.take_succ_cons] at hlength
          have htake : (first :: rest.take n).length = n + 1 := by
            rw [List.length_cons, List.length_take]
            omega
          refine ⟨rest.take n, tokens_statementOf_some _ _, ?_, hsemicolon,
            hlength.trans htake.symm⟩
          have hget : (first :: rest.take n ++ [t])[n + 1]? = some t := by
            rw [← htake]
            exact List.getElem?_concat_length
          rw [hread, ofStatement, ← List.cons_append, hlength, List.take_left' htake, hget]
          simp [hsemicolon, isPunct_openBrace_of_semicolon hsemicolon]
      · cases h
        rw [semicolon?_statementOf_none] at hs
        cases hs
  · cases h
    rw [semicolon?_statementOf_none] at hs
    cases hs

/-- A closing brace is a piece by itself. -/
theorem read_closing (h : first.isPunct '\x7d' = true) (rest : List Token) :
    read first rest = .closing first := if_pos h

/-- No statement starts with a closing brace. -/
theorem ReadUpTo.isPunct_first {tail : List Token} {semicolon : Token}
    (h : ReadUpTo s first tail semicolon) : first.isPunct '\x7d' = false := by
  refine Bool.eq_false_iff.mpr fun hbrace => ?_
  have hread := h.read_eq
  rw [read_closing hbrace] at hread
  cases hread

/-- **A statement with semicolon is read from its own tokens.** -/
theorem exists_readUpTo (h : read first rest = .statement s) (hs : s.semicolon? = some t) :
    ∃ tail, ReadUpTo s first tail t := by
  by_cases hbrace : first.isPunct '\x7d' = true
  · rw [read_closing hbrace] at h
    cases h
  · by_cases hcomment : first.isComment = true
    · simp only [read, if_neg hbrace, if_pos hcomment] at h
      cases h
      cases hs
    · by_cases hsemicolon : first.isPunct ';' = true
      · simp only [read, if_neg hbrace, if_neg hcomment, if_pos hsemicolon] at h
        cases h
        cases hs
      · by_cases hkeyword : (first.kind == .atKeyword) = true
        · have hread (rest : List Token) : read first rest = ofAtRule first rest := by
            rw [read, if_neg hbrace, if_neg hcomment, if_neg hsemicolon, if_pos hkeyword]
          rw [hread] at h
          exact readUpTo_ofAtRule (beq_iff_eq.mp hkeyword) hread h hs
        · have hread (rest : List Token) : read first rest = ofStatement first rest := by
            rw [read, if_neg hbrace, if_neg hcomment, if_neg hsemicolon, if_neg hkeyword]
          rw [hread] at h
          exact readUpTo_ofStatement (by simpa using hsemicolon) hread h hs

/-- Statements with semicolon whose tokens are the same but for their places are the same but for
the places in them. -/
theorem ReadUpTo.bare_eq {s' : Statement} {first' t' : Token} {tail tail' : List Token}
    (h : ReadUpTo s first tail t) (h' : ReadUpTo s' first' tail' t')
    (htokens : s.tokens.map Token.bare = s'.tokens.map Token.bare) : s.bare = s'.bare := by
  rw [h.tokens_eq, h'.tokens_eq, List.cons_append, List.cons_append, List.map_cons, List.map_cons,
    List.cons.injEq] at htokens
  have hread := read_map_bare first (tail ++ [t])
  rw [htokens.1, htokens.2, read_map_bare, h.read_eq, h'.read_eq] at hread
  exact (PieceBody.statement.inj hread).symm

end Piece

/-! ## Statements in a text -/

/-- A run of tokens of a text that ends with its first semicolon outside brackets. -/
structure Tokens.Closed (front : List Token) (semicolon : Token) : Prop where
  isPunct : semicolon.isPunct ';' = true
  length_eq : Piece.lengthToTerminator 0 (front ++ [semicolon]) = front.length
  stands : ∃ place after, Tokens.ofTextAt place (Tokens.text (front ++ semicolon :: after)) =
    front ++ semicolon :: after

namespace Tokens

variable {front front' : List Token} {semicolon semicolon' : Token}

theorem map_bare_length {ts ts' : List Token} (h : ts.map Token.bare = ts'.map Token.bare) :
    ts.length = ts'.length := by
  simpa using congrArg List.length h

/-- The tokens of a run that ends with a semicolon stand at the front of any text that the run
starts, up to their places, and end there with its first semicolon outside brackets. -/
theorem Closed.exists_ofText (h : Closed front semicolon) (rest : Text) :
    ∃ read terminator after, ofText (text front ++ ';' :: rest) = read ++ terminator :: after
      ∧ read.map Token.bare = front.map Token.bare
      ∧ Piece.lengthToTerminator 0 (ofText (text front ++ ';' :: rest)) = front.length := by
  obtain ⟨place, after, hplace⟩ := h.stands
  rw [text_append, text_cons, Token.text_of_isPunct h.isPunct] at hplace
  obtain ⟨read, terminator, behind, hread, hbare, hterminator⟩ :=
    exists_ofTextAt_front hplace .start rest
  refine ⟨read, terminator, behind, hread, hbare, ?_⟩
  have hbareTerminator : terminator.bare = semicolon.bare := by
    rw [Token.bare_of_isPunct hterminator, Token.bare_of_isPunct h.isPunct]
  have hlength := h.length_eq
  rw [← Piece.lengthToTerminator_map Token.keepsRole_bare, List.map_append, List.map_singleton,
    ← hbare, ← hbareTerminator, ← List.map_singleton, ← List.map_append,
    Piece.lengthToTerminator_map Token.keepsRole_bare, ← map_bare_length hbare] at hlength
  rw [ofText, hread, Piece.lengthToTerminator_append hlength, map_bare_length hbare]

/-- **Of two runs that end with a semicolon neither goes on behind the other**: they are the same
when they start one text. -/
theorem Closed.bare_eq (h : Closed front semicolon) (h' : Closed front' semicolon')
    {rest rest' : Text}
    (htext : text (front ++ [semicolon]) ++ rest = text (front' ++ [semicolon']) ++ rest') :
    (front ++ [semicolon]).map Token.bare = (front' ++ [semicolon']).map Token.bare := by
  have hsame : text front ++ ';' :: rest = text front' ++ ';' :: rest' := by
    simpa [Token.text_of_isPunct h.isPunct, Token.text_of_isPunct h'.isPunct] using htext
  obtain ⟨read, terminator, after, hread, hbare, hlength⟩ := h.exists_ofText rest
  obtain ⟨read', terminator', after', hread', hbare', hlength'⟩ := h'.exists_ofText rest'
  rw [← hsame] at hread' hlength'
  rw [hread] at hread'
  have hcount : read.length = read'.length := by
    rw [map_bare_length hbare, map_bare_length hbare', ← hlength, ← hlength']
  obtain ⟨rfl, -⟩ := List.append_inj hread' hcount
  rw [List.map_append, List.map_append, ← hbare, ← hbare', List.map_singleton, List.map_singleton,
    Token.bare_of_isPunct h.isPunct, Token.bare_of_isPunct h'.isPunct]

end Tokens

end SheetLint
