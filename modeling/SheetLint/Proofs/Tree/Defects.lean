import SheetLint.Proofs.Tree.Nodes
import SheetLint.Proofs.Tree.Reading

/-!
# What is wrong with a stylesheet

A node shows its own defects: tokens that were skipped, a block that is not closed, a rule set
without selector. The defects of a tree are those of its nodes, in another order. Only skipped
tokens may show none, and then an error token is among them, which is a defect by itself.

Results:
* `Node.errorsOfAll_perm`: the defects of a tree are those that its nodes show themselves.
* `Statement.OfPiece.exists_error`: skipped tokens without defect hold an error token.
* `Parse.isOk_iff_faultless`: nothing is wrong exactly when no token and no node is faulty.
-/

namespace SheetLint

/-! ## The defects of single nodes -/

namespace Node

/-- The defects that a node shows itself, whatever is wrong inside it. -/
def ownErrors : Node → List SyntaxError
  | .statement _ _ s => s.errors
  | .block _ _ _ head opening _ _ closing =>
    head.errors opening ++ (if closing.isNone then [⟨.unclosedBlock, opening.span⟩] else [])

mutual

theorem errors_perm : (n : Node) → n.errors.Perm (n.nodes.flatMap ownErrors)
  | .statement leading level s => by simp [errors, nodes, ownErrors]
  | .block leading level depth head opening children trailing closing => by
    rw [errors, nodes, List.flatMap_cons, ownErrors, List.append_assoc, List.append_assoc]
    refine List.Perm.append_left _ (List.perm_append_comm.trans (List.Perm.append_left _ ?_))
    exact errorsOfAll_perm children

/-- **The defects of a tree are those that its nodes show themselves.** -/
theorem errorsOfAll_perm :
    (ns : List Node) → (errorsOfAll ns).Perm ((nodesOfAll ns).flatMap ownErrors)
  | [] => .nil
  | n :: ns => by
    rw [errorsOfAll, nodesOfAll, List.flatMap_append]
    exact (errors_perm n).append (errorsOfAll_perm ns)

end

/-- Whether a node is a run of tokens that form no statement. -/
def IsSkipped : Node → Prop
  | .statement _ _ (.skipped _ _) => True
  | _ => False

/-- Whether a node is a block without closing brace. -/
def IsUnclosed : Node → Prop
  | .block _ _ _ _ _ _ _ closing => closing = none
  | .statement _ _ _ => False

/-- Whether a node is a rule set whose list of selectors is empty. -/
def LacksSelector : Node → Prop
  | .block _ _ _ (.ruleSet selectors) _ _ _ _ => selectorsOf selectors = []
  | _ => False

/-- Whether a node is as it should be, whatever the nodes inside it are. -/
def IsFaultless (n : Node) : Prop := ¬ n.IsSkipped ∧ ¬ n.IsUnclosed ∧ ¬ n.LacksSelector

theorem isFaultless_block_iff {leading : List Token} {level depth : Nat} {head : Head}
    {opening : Token} {children : List Node} {trailing : List Token} {closing : Option Token} :
    (block leading level depth head opening children trailing closing).IsFaultless
      ↔ (block leading level depth head opening children trailing closing).ownErrors = [] := by
  cases head <;> cases closing <;>
    simp [IsFaultless, IsSkipped, IsUnclosed, LacksSelector, ownErrors, Head.errors]

end Node

/-! ## Skipped tokens -/

namespace Tokens

theorem mem_dropEndWhile {p : Token → Bool} {ts : List Token} {t : Token} (ht : t ∈ ts)
    (hp : p t = false) : t ∈ dropEndWhile p ts := by
  rw [← dropEndWhile_append_takeEndWhile p ts] at ht
  rcases List.mem_append.mp ht with h | h
  · exact h
  · rw [of_mem_takeEndWhile h] at hp
    cases hp

end Tokens

namespace Piece

variable {first : Token} {rest ts us : List Token} {semicolon : Option Token}

/-- Tokens that are skipped without defect hold an error token, if there is a word among them. -/
theorem exists_error_of_statementOf (hword : ∃ t ∈ ts, t.isWhitespace = false)
    (h : statementOf ts semicolon = .skipped us none) : ∃ t ∈ us, t.kind = .error := by
  unfold statementOf at h
  cases hcut : cutAtColon? 0 ts with
  | some cut =>
    rw [hcut] at h
    simp only at h
    split at h
    · cases semicolon <;> cases h
    · cases h
  | none =>
    rw [hcut] at h
    simp only at h
    split at h
    · rename_i herror
      obtain ⟨t, ht, hkind⟩ := List.any_eq_true.mp herror
      have hkind : t.kind = .error := beq_iff_eq.mp hkind
      refine ⟨t, ?_, hkind⟩
      cases semicolon with
      | some s =>
        cases h
        exact List.mem_append_left _ ht
      | none =>
        cases h
        exact Tokens.mem_dropEndWhile ht (by rw [Token.isWhitespace, hkind]; rfl)
    · -- a word stays, so what is written has a place
      obtain ⟨t, ht, hword⟩ := hword
      have hmem := Tokens.mem_dropEndWhile ht hword
      generalize Tokens.dropEndWhile Token.isWhitespace ts = written at h hmem
      obtain ⟨first, more, rfl⟩ := List.exists_cons_of_ne_nil (List.ne_nil_of_mem hmem)
      cases semicolon <;> simp [Tokens.span?, List.getLast?_cons] at h

theorem exists_error_of_read (hfirst : first.isWhitespace = false)
    (h : read first rest = .statement (.skipped us none)) : ∃ t ∈ us, t.kind = .error := by
  revert h
  fun_cases read first rest with
  | case1 | case2 | case3 =>
    intro h
    cases h
  | case4 =>
    unfold ofAtRule
    simp only
    repeat' split
    all_goals
      intro h
      cases h
  | case5 hclose _ hsemicolon =>
    unfold ofStatement
    simp only
    cases hn : lengthToTerminator 0 (first :: rest) with
    | zero =>
      -- of the terminators only an opening brace is read as a statement
      have hopen : first.isPunct '\x7b' = true := by
        have hget : (first :: rest)[lengthToTerminator 0 (first :: rest)]? = some first := by
          rw [hn]
          rfl
        have hend := isTerminator_of_getElem? hget
        simpa [isTerminator, hclose, hsemicolon] using hend
      simp [hopen]
    | succ n =>
      have hword : ∃ t ∈ (first :: rest).take (n + 1), t.isWhitespace = false :=
        ⟨first, by simp, hfirst⟩
      split
      · split
        · intro h
          cases h
        · split
          · exact fun h => exists_error_of_statementOf hword (PieceBody.statement.inj h)
          · exact fun h => exists_error_of_statementOf hword (PieceBody.statement.inj h)
      · exact fun h => exists_error_of_statementOf hword (PieceBody.statement.inj h)

end Piece

/-- **Skipped tokens without defect hold an error token.** -/
theorem Statement.OfPiece.exists_error {us : List Token}
    (h : Statement.OfPiece (.skipped us none)) : ∃ t ∈ us, t.kind = .error := by
  cases h with
  | read not_space read_eq => exact Piece.exists_error_of_read not_space read_eq

namespace Node

/-- A node made of pieces shows no defect exactly when it is as it should be, unless an error token
is among its tokens. -/
theorem ownErrors_eq_nil_iff {n : Node} (hmade : n.MadeOfPieces)
    (hclean : ∀ t ∈ n.tokens, t.kind ≠ .error) : n.ownErrors = [] ↔ n.IsFaultless := by
  cases n with
  | block => exact isFaultless_block_iff.symm
  | statement leading level s =>
    cases s with
    | declaration | atRule | comment | empty =>
      simp [ownErrors, Statement.errors, IsFaultless, IsSkipped, IsUnclosed, LacksSelector]
    | skipped us error =>
      cases error with
      | some e => simp [ownErrors, Statement.errors, IsFaultless, IsSkipped]
      | none =>
        obtain ⟨t, ht, hkind⟩ := hmade.2.exists_error
        exact absurd hkind (hclean t (by simp [tokens, Statement.tokens, ht]))

end Node

/-! ## The errors of a parse -/

namespace SyntaxError

theorem le_iff {a b : SyntaxError} :
    le a b = true ↔ a.span.start.offset < b.span.start.offset
      ∨ a.span.start.offset = b.span.start.offset ∧ a.span.stop.offset ≤ b.span.stop.offset := by
  simp [le]

theorem le_total (a b : SyntaxError) : (le a b || le b a) = true := by
  rw [Bool.or_eq_true, le_iff, le_iff]
  omega

theorem le_trans (a b c : SyntaxError) (hab : le a b = true) (hbc : le b c = true) :
    le a c = true := by
  rw [le_iff] at *
  omega

end SyntaxError

namespace Parse

variable (ts : List Token)

/-- The errors of a parse are the error tokens and the defects that the nodes show. -/
theorem errors_perm :
    (ofTokens ts).errors.Perm
      (tokenErrors ts ++ (ofTokens ts).sheet.nodes.flatMap Node.ownErrors) :=
  (List.mergeSort_perm _ _).trans ((Node.errorsOfAll_perm _).append_left _)

theorem tokenErrors_eq_nil_iff : tokenErrors ts = [] ↔ ∀ t ∈ ts, t.kind ≠ .error := by
  simp [tokenErrors]

/-- A text that parses holds no malformed token. -/
theorem kind_ne_error {source : Text} (h : (ofText source).isOk = true) :
    ∀ t ∈ Tokens.ofText source, t.kind ≠ .error := by
  rw [← tokenErrors_eq_nil_iff, List.eq_nil_iff_forall_not_mem]
  intro error herror
  have hmem := (errors_perm (Tokens.ofText source)).symm.subset (List.mem_append_left _ herror)
  rw [isOk, List.isEmpty_iff] at h
  rw [ofText] at h
  rw [h] at hmem
  cases hmem

theorem kind_ne_error_of_append {source : Text} {front back : List Token}
    (h : (ofText source).isOk = true) (hsource : Tokens.ofText source = front ++ back) :
    ∀ t ∈ front, t.kind ≠ .error :=
  fun t ht => kind_ne_error h t (hsource ▸ List.mem_append_left back ht)

/-- **Errors are the defects of the tree.** Nothing is wrong with a run of tokens exactly when none
of them is an error token and the tree has, at any level, no skipped tokens, no block without closing
brace and no rule set without selector. The errors stand in the order of their starts, and those of
one start in the order of their ends. -/
theorem isOk_iff_faultless :
    ((ofTokens ts).isOk = true
        ↔ (∀ t ∈ ts, t.kind ≠ .error)
          ∧ ∀ n ∈ (ofTokens ts).sheet.nodes, ¬ n.IsSkipped ∧ ¬ n.IsUnclosed ∧ ¬ n.LacksSelector)
      ∧ (ofTokens ts).errors.Pairwise fun a b =>
          a.span.start.offset < b.span.start.offset
            ∨ a.span.start.offset = b.span.start.offset
              ∧ a.span.stop.offset ≤ b.span.stop.offset := by
  constructor
  · have hok : (ofTokens ts).isOk = true
        ↔ tokenErrors ts = [] ∧ ∀ n ∈ (ofTokens ts).sheet.nodes, n.ownErrors = [] := by
      rw [isOk, (errors_perm ts).isEmpty_eq, List.isEmpty_iff, List.append_eq_nil_iff,
        List.flatMap_eq_nil_iff]
    rw [hok, tokenErrors_eq_nil_iff]
    refine and_congr_right fun hclean => forall₂_congr fun n hn => ?_
    refine Node.ownErrors_eq_nil_iff (Stylesheet.madeOfPieces_of_mem_nodes hn) fun t ht => ?_
    exact hclean t ((Stylesheet.tokens_isInfix_of_mem_nodes hn).subset ht)
  · exact (List.pairwise_mergeSort SyntaxError.le_trans SyntaxError.le_total _).imp
      SyntaxError.le_iff.mp

end Parse

end SheetLint
