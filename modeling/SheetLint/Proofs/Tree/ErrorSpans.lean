import SheetLint.Proofs.Tree.Defects
import SheetLint.Proofs.Tree.Siblings

/-!
# Where errors stand

An error token is the place of its own error. A defect of a statement is at its colon or at all that
is written of it, and a defect of a block at its opening brace. So each error is at a run of tokens
that stand side by side.

Results:
* `Statement.OfPiece.errorsInside`: the defect of a statement is at tokens of the statement.
* `Parse.exists_run_of_mem_errors`: each error of a parse is at a run of the tokens.
-/

namespace SheetLint

variable {ts us rest : List Token} {first : Token}

/-- Whether an error is at a run of these tokens. -/
def SyntaxError.StandsIn (e : SyntaxError) (ts : List Token) : Prop :=
  ∃ run, run <:+: ts ∧ Tokens.span? run = some e.span

namespace SyntaxError

theorem StandsIn.of_isInfix {e : SyntaxError} (h : e.StandsIn us) (hus : us <:+: ts) :
    e.StandsIn ts := by
  obtain ⟨run, hrun, hspan⟩ := h
  exact ⟨run, hrun.trans hus, hspan⟩

theorem standsIn_of_mem {defect : Defect} {t : Token} (ht : t ∈ ts) :
    StandsIn ⟨defect, t.span⟩ ts := by
  obtain ⟨before, after, rfl⟩ := List.append_of_mem ht
  exact ⟨[t], ⟨before, after, by simp⟩, rfl⟩

end SyntaxError

/-! ## Statements -/

namespace Piece

variable {depth : Nat} {front back : List Token} {colon : Token} {semicolon : Option Token}

theorem isPunct_of_cutAtColon? (h : cutAtColon? depth ts = some (front, colon, back)) :
    colon.isPunct ':' = true := by
  induction ts generalizing depth front with
  | nil => cases h
  | cons t ts ih =>
    rw [cutAtColon?] at h
    split at h
    · rename_i htest
      cases h
      rw [Bool.and_eq_true] at htest
      exact htest.2
    · obtain ⟨⟨front', cut⟩, hcut, heq⟩ := Option.map_eq_some_iff.mp h
      cases heq
      exact ih hcut

theorem errorsInside_statementOf :
    ∀ e ∈ (statementOf ts semicolon).errors, e.StandsIn (statementOf ts semicolon).tokens := by
  have hwritten : Tokens.dropEndWhile Token.isWhitespace ts <+: ts := Tokens.dropEndWhile_prefix _ _
  intro e he
  unfold statementOf at he ⊢
  cases hcut : cutAtColon? 0 ts with
  | some cut =>
    obtain ⟨front, colon, back⟩ := cut
    rw [hcut] at he
    have hcolon : colon ∈ ts := by simp [eq_append_of_cutAtColon? hcut]
    have hword := isWhitespace_of_isPunct (isPunct_of_cutAtColon? hcut)
    simp only at he ⊢
    split at he
    · rename_i hproperty
      rw [if_pos hproperty]
      cases semicolon with
      | none =>
        cases List.mem_singleton.mp he
        exact SyntaxError.standsIn_of_mem (Tokens.mem_dropEndWhile hcolon hword)
      | some s =>
        cases List.mem_singleton.mp he
        exact SyntaxError.standsIn_of_mem (List.mem_append_left _ hcolon)
    · cases he
  | none =>
    rw [hcut] at he
    simp only at he ⊢
    split at he
    · cases semicolon <;> cases he
    · rename_i hclean
      rw [if_neg hclean]
      cases semicolon with
      | none =>
        obtain ⟨span, hspan, rfl⟩ := Option.map_eq_some_iff.mp (Option.mem_toList.mp he)
        exact ⟨_, List.infix_rfl, hspan⟩
      | some s =>
        obtain ⟨span, hspan, rfl⟩ := Option.map_eq_some_iff.mp (Option.mem_toList.mp he)
        exact ⟨_, (hwritten.trans (List.prefix_append _ _)).isInfix, hspan⟩

/-- **The defect of a statement** is at tokens of the statement. -/
theorem errorsInside_read {s : Statement} (h : read first rest = .statement s) :
    ∀ e ∈ s.errors, e.StandsIn s.tokens := by
  revert h
  fun_cases read first rest with
  | case1 =>
    intro h
    cases h
  | case2 | case3 =>
    intro h e he
    cases h
    cases he
  | case4 =>
    unfold ofAtRule
    simp only
    repeat' split
    all_goals rintro ⟨⟩
    all_goals
      intro e he
      cases he
  | case5 =>
    unfold ofStatement
    simp only
    repeat' split
    all_goals rintro ⟨⟩
    all_goals exact errorsInside_statementOf

end Piece

theorem Statement.OfPiece.errorsInside {s : Statement} (h : s.OfPiece) :
    ∀ e ∈ s.errors, e.StandsIn s.tokens := by
  cases h with
  | read not_space read_eq => exact Piece.errorsInside_read read_eq
  | stray brace =>
    intro e he
    cases List.mem_singleton.mp he
    exact SyntaxError.standsIn_of_mem (List.mem_singleton_self brace)

/-! ## Nodes -/

/-- The defects that a node shows itself are at tokens of the node. -/
theorem Node.MadeOfPieces.errorsInside {n : Node} (h : n.MadeOfPieces) :
    ∀ e ∈ n.ownErrors, e.StandsIn n.tokens := by
  cases n with
  | statement leading level s =>
    intro e he
    exact (h.2.errorsInside e he).of_isInfix (List.suffix_append _ _).isInfix
  | block leading level depth head opening children trailing closing =>
    have hspan : ∀ e ∈ (block leading level depth head opening children trailing closing).ownErrors,
        e.span = opening.span := by
      intro e he
      rcases List.mem_append.mp he with hselector | hclosing
      · cases head with
        | atRule => cases hselector
        | ruleSet =>
          unfold Head.errors at hselector
          simp only at hselector
          split at hselector
          · rw [List.mem_singleton.mp hselector]
          · cases hselector
      · split at hclosing
        · rw [List.mem_singleton.mp hclosing]
        · cases hclosing
    intro e he
    obtain ⟨defect, span⟩ := e
    cases hspan _ he
    exact SyntaxError.standsIn_of_mem (by simp [tokens])

/-- **Each error of a parse is at a run of the tokens.** -/
theorem Parse.exists_run_of_mem_errors {e : SyntaxError} (he : e ∈ (ofTokens ts).errors) :
    e.StandsIn ts := by
  rcases List.mem_append.mp ((errors_perm ts).subset he) with htoken | hnode
  · obtain ⟨t, ht, rfl⟩ := List.mem_map.mp htoken
    exact SyntaxError.standsIn_of_mem (List.mem_filter.mp ht).1
  · obtain ⟨n, hn, he⟩ := List.mem_flatMap.mp hnode
    exact ((Stylesheet.madeOfPieces_of_mem_nodes hn).errorsInside e he).of_isInfix
      (Stylesheet.tokens_isInfix_of_mem_nodes hn)

end SheetLint
