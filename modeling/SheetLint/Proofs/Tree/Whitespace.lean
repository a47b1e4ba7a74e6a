import SheetLint.Proofs.Token.Legible
import SheetLint.Proofs.Tree.Values

/-!
# Runs of whitespace

A token of whitespace goes on as long as there is whitespace, and a line comment up to the line break,
which starts the whitespace behind it. So whitespace never stands beside whitespace. The tree keeps
whitespace in runs that it cuts at words, never inside whitespace, so each of them is one token or
none. Rules rely on it where they compare a run with a single space.

Results:
* `Tokens.Legible.isChain`: what stands behind whitespace and behind line comments.
* `Stylesheet.isInfix_of_mem_spaces`, `Stylesheet.isSpace_of_mem_spaces`: the runs of whitespace of a
  tree are runs of its tokens, and hold nothing else.
* `Parse.spaces_joined`: the runs of whitespace of a text.
-/

namespace SheetLint

open Scan Tokens

variable {run ts : List Token}

/-! ## The runs of a tree -/

/-- The runs of whitespace in a statement: behind the colon and in front of the semicolon of a
declaration, and at the end of the prelude of an at-rule. -/
def Statement.spaces : Statement → List (List Token)
  | declaration d => [d.afterColon, d.beforeSemicolon]
  | atRule _ prelude _ => [takeEndWhile Token.isWhitespace prelude]
  | comment _ | empty _ | skipped _ _ => []

/-- The run of whitespace in front of an opening brace. -/
def Head.space : Head → List Token
  | ruleSet selectors => takeEndWhile Token.isWhitespace selectors
  | atRule _ prelude => takeEndWhile Token.isWhitespace prelude

/-- The runs of whitespace of a node, those of the nodes inside it apart. -/
def Node.spaces : Node → List (List Token)
  | statement leading _ s => leading :: s.spaces
  | block leading _ _ head _ _ trailing _ => [leading, head.space, trailing]

/-- The runs of whitespace of a tree. -/
def Stylesheet.spaces (s : Stylesheet) : List (List Token) := s.trailing :: s.nodes.flatMap Node.spaces

/-! ## Whitespace beside other tokens -/

/-- Whether a token may stand in front of another: no whitespace in front of whitespace, and a line
comment in front of a line break only. -/
structure Token.MayPrecede (t next : Token) : Prop where
  space : t.isWhitespace = true → next.isWhitespace = false
  line : t.kind = .lineComment →
    next.isWhitespace = true ∧ ∃ c ∈ next.text.head?, c = '\n' ∨ c = '\r'

/-- Behind a line comment its line ends. -/
theorem Tokens.Legible.lineBreak_of_lineComment {t next : Token} (h : Legible (t :: next :: ts))
    (ht : t.kind = .lineComment) :
    next.isWhitespace = true ∧ ∃ c ∈ next.text.head?, c = '\n' ∨ c = '\r' := by
  obtain ⟨hreads, hnext, -⟩ := h
  obtain ⟨c, w, htext⟩ := List.exists_cons_of_ne_nil hnext.ne_nil
  have hline := hreads.line ht
  rw [text_cons, htext, List.cons_append] at hline
  have hc : isLineBreak c = true := hline.resolve_left (List.cons_ne_nil _ _)
  refine ⟨hnext.isSpace_head_iff.mp ?_, c, by rw [htext]; rfl, by simpa [isLineBreak] using hc⟩
  rw [htext]
  exact isSpace_of_isLineBreak (t := [c]) hc

/-- **What stands behind whitespace and behind line comments.** -/
theorem Tokens.Legible.isChain (h : Legible ts) : ts.IsChain Token.MayPrecede := by
  induction ts with
  | nil => exact List.isChain_nil
  | cons t ts ih =>
    refine List.isChain_cons.mpr ⟨fun next hnext => ?_, ih h.2⟩
    obtain ⟨more, rfl⟩ := List.head?_eq_some_iff.mp hnext
    exact ⟨h.isWhitespace_of_space, h.lineBreak_of_lineComment⟩

/-! ## Where the runs stand -/

theorem Statement.isInfix_of_mem_spaces {s : Statement} (h : run ∈ s.spaces) : run <:+: s.tokens := by
  cases s with
  | declaration d =>
    simp only [spaces, List.mem_cons, List.not_mem_nil, or_false] at h
    rcases h with rfl | rfl
    · exact ⟨d.property ++ d.beforeColon ++ [d.colon],
        d.value ++ d.beforeSemicolon ++ d.semicolon.toList, by simp [tokens, Declaration.tokens]⟩
    · exact ⟨d.property ++ d.beforeColon ++ [d.colon] ++ d.afterColon ++ d.value,
        d.semicolon.toList, by simp [tokens, Declaration.tokens]⟩
  | atRule keyword prelude semicolon =>
    rw [spaces, List.mem_singleton] at h
    rw [h]
    exact (takeEndWhile_suffix _ _).isInfix.trans ⟨[keyword], semicolon.toList, by simp [tokens]⟩
  | comment | empty | skipped => cases h

theorem Head.space_suffix (head : Head) : head.space <:+ head.tokens := by
  cases head with
  | ruleSet selectors => exact takeEndWhile_suffix _ _
  | atRule keyword prelude => exact (takeEndWhile_suffix _ _).trans (List.suffix_cons _ _)

theorem Node.isInfix_of_mem_spaces {n : Node} (h : run ∈ n.spaces) : run <:+: n.tokens := by
  cases n with
  | statement leading level s =>
    rcases List.mem_cons.mp h with rfl | hinside
    · exact (List.prefix_append _ _).isInfix
    · exact (Statement.isInfix_of_mem_spaces hinside).trans (List.suffix_append _ _).isInfix
  | block leading level depth head opening children trailing closing =>
    simp only [spaces, List.mem_cons, List.not_mem_nil, or_false] at h
    rcases h with rfl | rfl | rfl
    · exact ⟨[], head.tokens ++ [opening] ++ tokensOfAll children ++ trailing ++ closing.toList,
        by simp [tokens]⟩
    · exact head.space_suffix.isInfix.trans ⟨leading,
        [opening] ++ tokensOfAll children ++ trailing ++ closing.toList, by simp [tokens]⟩
    · exact ⟨leading ++ head.tokens ++ [opening] ++ tokensOfAll children, closing.toList,
        by simp [tokens]⟩

namespace Stylesheet

/-- **The runs of whitespace of a tree are runs of its tokens.** -/
theorem isInfix_of_mem_spaces (h : run ∈ (ofTokens ts).spaces) : run <:+: ts := by
  rcases List.mem_cons.mp h with rfl | hinside
  · exact ⟨_, [], by rw [List.append_nil]; exact tokens_ofTokens ts⟩
  · obtain ⟨n, hn, hrun⟩ := List.mem_flatMap.mp hinside
    exact (Node.isInfix_of_mem_spaces hrun).trans (tokens_isInfix_of_mem_nodes hn)

/-! ## What the runs hold -/

/-- Open blocks take the whitespace at the end, or it stays there. -/
theorem isSpace_trailing_closeAll {trailing : List Token} (htrailing : IsSpace trailing)
    (blocks : List OpenBlock) (done : List Node) :
    IsSpace (closeAll blocks done trailing).trailing := by
  induction blocks generalizing done trailing with
  | nil => exact htrailing
  | cons b outer ih => exact ih (by simp [IsSpace]) _

theorem isSpace_trailing (ts : List Token) : IsSpace (ofTokens ts).trailing := by
  rw [ofTokens_eq_foldl]
  exact isSpace_trailing_closeAll (Piece.sound_split ts).2 _ _

end Stylesheet

theorem Statement.OfPiece.isSpace {s : Statement} (hs : s.OfPiece) (h : run ∈ s.spaces) :
    IsSpace run := by
  cases hs with
  | stray brace => cases h
  | read not_space read_eq =>
    cases s with
    | declaration d =>
      obtain ⟨written, semicolon, hstatement⟩ := Piece.exists_statementOf_of_read read_eq
      simp only [spaces, List.mem_cons, List.not_mem_nil, or_false] at h
      rcases h with rfl | rfl
      · exact Piece.isSpace_afterColon_statementOf hstatement
      · exact (Piece.endsValue_of_statementOf hstatement).space
    | atRule keyword prelude semicolon =>
      rw [spaces, List.mem_singleton] at h
      exact h ▸ isSpace_takeEndWhile prelude
    | comment | empty | skipped => cases h

theorem Node.MadeOfPieces.isSpace {n : Node} (hn : n.MadeOfPieces) (h : run ∈ n.spaces) :
    IsSpace run := by
  cases n with
  | statement leading level s =>
    rcases List.mem_cons.mp h with rfl | hinside
    · exact hn.1
    · exact hn.2.isSpace hinside
  | block leading level depth head opening children trailing closing =>
    simp only [spaces, List.mem_cons, List.not_mem_nil, or_false] at h
    rcases h with rfl | rfl | rfl
    · exact hn.1
    · cases head <;> exact isSpace_takeEndWhile _
    · exact hn.2

/-- **The runs of whitespace of a tree hold nothing else.** -/
theorem Stylesheet.isSpace_of_mem_spaces (h : run ∈ (ofTokens ts).spaces) : IsSpace run := by
  rcases List.mem_cons.mp h with rfl | hinside
  · exact isSpace_trailing ts
  · obtain ⟨n, hn, hrun⟩ := List.mem_flatMap.mp hinside
    exact (madeOfPieces_of_mem_nodes hn).isSpace hrun

/-- **Whitespace never stands beside whitespace.** In any text no token of whitespace follows another,
and what follows a line comment is whitespace that starts with a line break. So each run of whitespace
in the tree is one token of whitespace or none: in front of a node, in front of the closing brace of a
block and at the end, behind a colon, in front of a semicolon, and at the end of selectors and
preludes. -/
theorem Parse.spaces_joined (source : Text) :
    (Tokens.ofText source).IsChain Token.MayPrecede
      ∧ ∀ run ∈ (ofText source).sheet.spaces, run.length ≤ 1 ∧ IsSpace run := by
  refine ⟨(legible_ofText source).isChain, fun run hrun => ?_⟩
  have hspace : IsSpace run := Stylesheet.isSpace_of_mem_spaces hrun
  exact ⟨length_le_one_of_isInfix (Stylesheet.isInfix_of_mem_spaces hrun) hspace, hspace⟩

example : (Parse.ofText "a \x7b\n b: c ;\n\x7d".toList).sheet.spaces.map Tokens.text =
    ["", "", " ", "\n", "\n ", " ", " "].map String.toList := by
  cbv

end SheetLint
