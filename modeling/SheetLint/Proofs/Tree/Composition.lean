import SheetLint.Proofs.Tree.Closed
import SheetLint.Proofs.Tree.Siblings

/-!
# Stylesheets put behind each other

No piece looks behind its terminator, and no block that is closed at the top is touched again. So a
run of tokens whose nodes at the top are all terminated may be followed by any tokens: the tree of
both is the nodes of the one in front of the nodes of the other.

Results:
* `Piece.read_append`: a piece that found its terminator does not look behind it.
* `Piece.split_append`: behind a terminated piece the pieces of any tokens may follow.
* `Stylesheet.Building.place_onto`: nodes at the top do not touch the pieces placed behind them.
* `Parse.ofTokens_append`: parsing terminated nodes and what follows them is parsing both.
-/

namespace SheetLint

open Tokens

variable {ts more : List Token} {first t : Token} {rest : List Token} {depth : Nat}

/-! ## Terminated nodes -/

/-- Whether a statement cannot go on with the tokens behind it. Skipped tokens are terminated when
they are a single closing brace, or end with a semicolon outside brackets. -/
def Statement.isTerminated : Statement → Bool
  | declaration d => d.semicolon.isSome
  | atRule _ _ semicolon => semicolon.isSome
  | comment _ => true
  | empty _ => true
  | skipped ts _ =>
    (ts.length == 1 && ts.all (·.isPunct '\x7d'))
      || (ts.getLast?.any (·.isPunct ';') && ts.dropLast.foldl bracketDepth 0 == 0)

/-- Whether a node cannot go on with the tokens behind it: a block has its closing brace. -/
def Node.isTerminated : Node → Bool
  | statement _ _ s => s.isTerminated
  | block _ _ _ _ _ _ _ closing => closing.isSome

namespace Piece

/-! ## Pieces that found their terminator -/

/-- What stands behind the first terminator does not tell where it stands. -/
theorem lengthToTerminator_append_of_lt (h : lengthToTerminator depth ts < ts.length)
    (more : List Token) : lengthToTerminator depth (ts ++ more) = lengthToTerminator depth ts := by
  induction ts generalizing depth with
  | nil => cases h
  | cons t ts ih =>
    rw [List.cons_append, lengthToTerminator]
    rw [lengthToTerminator] at h ⊢
    split at h
    · rename_i hstop
      rw [if_pos hstop, if_pos hstop]
    · rename_i hgo
      rw [if_neg hgo, if_neg hgo, ih (Nat.lt_of_succ_lt_succ h)]

/-- A terminator outside brackets is not passed. -/
theorem lengthToTerminator_lt_of_terminator {front : List Token}
    (hdepth : front.foldl bracketDepth depth = 0) (ht : isTerminator t = true) :
    lengthToTerminator depth (front ++ [t]) < (front ++ [t]).length := by
  induction front generalizing depth with
  | nil =>
    have hzero : depth = 0 := hdepth
    simp [lengthToTerminator, hzero, ht]
  | cons u front ih =>
    rw [List.cons_append, lengthToTerminator]
    split
    · simp
    · rw [List.length_cons]
      exact Nat.succ_lt_succ (ih hdepth)

theorem lengthToTerminator_le (depth : Nat) (ts : List Token) :
    lengthToTerminator depth ts ≤ ts.length := by
  induction ts generalizing depth with
  | nil => exact Nat.le_refl 0
  | cons t ts ih =>
    rw [lengthToTerminator]
    split
    · exact Nat.zero_le _
    · exact Nat.succ_le_succ (ih _)

theorem lengthToTerminator_cons_of_terminator (h : isTerminator t = true) (ts : List Token) :
    lengthToTerminator 0 (t :: ts) = 0 := by
  simp [lengthToTerminator, h]

theorem lengthToTerminator_cons_of_keyword (h : t.kind = .atKeyword) (ts : List Token) :
    lengthToTerminator 0 (t :: ts) = lengthToTerminator 0 ts + 1 := by
  have hpunct (c : Char) : t.isPunct c = false := by simp [Token.isPunct, h]
  simp [lengthToTerminator, isTerminator, bracketDepth, Token.isOpener, Token.isCloser, hpunct]

/-- Skipped tokens that are terminated have a terminator outside brackets. -/
theorem lengthToTerminator_lt_of_isTerminated {error : Option SyntaxError}
    (h : (Statement.skipped ts error).isTerminated = true) :
    lengthToTerminator 0 ts < ts.length := by
  rw [Statement.isTerminated, Bool.or_eq_true, Bool.and_eq_true, Bool.and_eq_true, beq_iff_eq,
    beq_iff_eq, Option.any_eq_true] at h
  rcases h with ⟨hlength, hall⟩ | ⟨⟨s, hlast, hpunct⟩, hdepth⟩
  · obtain ⟨brace, rfl⟩ := List.length_eq_one_iff.mp hlength
    have hbrace : brace.isPunct '\x7d' = true := by simpa using hall
    have hnil : ([] : List Token).foldl bracketDepth 0 = 0 := rfl
    exact lengthToTerminator_lt_of_terminator hnil (by simp [isTerminator, hbrace])
  · rw [← List.dropLast_append_getLast? s hlast]
    exact lengthToTerminator_lt_of_terminator hdepth (by simp [isTerminator, hpunct])

/-- Whether a piece shows its end, whatever it is followed by: it is a comment, or there is a
terminator. -/
def Ends (first : Token) (rest : List Token) : Prop :=
  first.isComment = true ∨ lengthToTerminator 0 (first :: rest) < (first :: rest).length

theorem ofAtRule_append (h : lengthToTerminator 0 rest < rest.length) (keyword : Token)
    (more : List Token) : ofAtRule keyword (rest ++ more) = ofAtRule keyword rest := by
  rw [ofAtRule, ofAtRule, lengthToTerminator_append_of_lt h, List.take_append_of_le_length h.le,
    List.getElem?_append_left h]

theorem ofStatement_append (h : lengthToTerminator 0 (first :: rest) < (first :: rest).length)
    (more : List Token) : ofStatement first (rest ++ more) = ofStatement first rest := by
  rw [ofStatement, ofStatement, ← List.cons_append, lengthToTerminator_append_of_lt h,
    List.take_append_of_le_length h.le, List.getElem?_append_left h]

/-- **A piece that shows its end does not look behind it.** -/
theorem read_append (h : Ends first rest) (more : List Token) :
    read first (rest ++ more) = read first rest := by
  rcases h with hcomment | hlt
  · simp only [read, hcomment, if_true]
  · rw [read, read, ofStatement_append hlt]
    cases hkeyword : first.kind == .atKeyword with
    | false => rfl
    | true =>
      rw [lengthToTerminator_cons_of_keyword (beq_iff_eq.mp hkeyword), List.length_cons] at hlt
      rw [ofAtRule_append (Nat.lt_of_succ_lt_succ hlt)]

/-- A statement without semicolon and terminator is not terminated. -/
theorem isTerminated_statementOf_none (h : ¬ lengthToTerminator 0 ts < ts.length) :
    (statementOf ts none).isTerminated = false := by
  have hskipped (error : Option SyntaxError) :
      (Statement.skipped (dropEndWhile Token.isWhitespace ts) error).isTerminated = false := by
    refine Bool.eq_false_iff.mpr fun hterminated => h ?_
    have hlt := lengthToTerminator_lt_of_isTerminated hterminated
    obtain ⟨space, hspace⟩ := dropEndWhile_prefix Token.isWhitespace ts
    rw [← hspace, lengthToTerminator_append_of_lt hlt, List.length_append]
    exact Nat.lt_add_right _ hlt
  unfold statementOf
  cases cutAtColon? 0 ts with
  | none =>
    simp only
    split <;> exact hskipped _
  | some cut =>
    simp only
    split
    · exact hskipped _
    · rfl

/-- A piece that does not show its end takes all tokens but the whitespace at the end, and is a
statement that is not terminated. -/
theorem exists_statement_of_not_ends (h : ¬ Ends first rest) :
    ∃ s space, read first rest = .statement s ∧ s.isTerminated = false ∧ IsSpace space
      ∧ s.tokens ++ space = first :: rest := by
  obtain ⟨hcomment, hlt⟩ := not_or.mp h
  have hfull : lengthToTerminator 0 (first :: rest) = (first :: rest).length :=
    Nat.le_antisymm (lengthToTerminator_le _ _) (Nat.le_of_not_lt hlt)
  have hgo : isTerminator first = false := by
    refine Bool.eq_false_iff.mpr fun hstop => ?_
    rw [lengthToTerminator_cons_of_terminator hstop] at hfull
    cases hfull
  have hpunct : first.isPunct '\x7d' = false ∧ first.isPunct ';' = false := by
    simp [isTerminator] at hgo
    exact ⟨hgo.2, hgo.1.2⟩
  cases hkeyword : first.kind == .atKeyword with
  | true =>
    rw [lengthToTerminator_cons_of_keyword (beq_iff_eq.mp hkeyword), List.length_cons,
      Nat.succ_inj] at hfull
    refine ⟨.atRule first (dropEndWhile Token.isWhitespace rest) none,
      takeEndWhile Token.isWhitespace rest, ?_, rfl, fun t => of_mem_takeEndWhile, ?_⟩
    · simp [read, hpunct, hcomment, hkeyword, ofAtRule, hfull]
    · simp [Statement.tokens, dropEndWhile_append_takeEndWhile]
  | false =>
    obtain ⟨space, hspace, happend⟩ := statementOf_none_append (first :: rest)
    refine ⟨statementOf (first :: rest) none, space, ?_, isTerminated_statementOf_none hlt, hspace,
      happend⟩
    rw [List.length_cons] at hfull
    simp [read, hpunct, hcomment, hkeyword, ofStatement, hfull]

/-! ## Pieces behind pieces -/

/-- Whether a piece cannot go on with the tokens behind it. -/
def isTerminated (p : Piece) : Bool :=
  match p.body with
  | .statement s => s.isTerminated
  | .opening _ _ => true
  | .closing _ => true

theorem split_of_isSpace (h : IsSpace ts) : split ts = ([], ts) := by
  rw [split_of_dropWhile_eq_nil (List.dropWhile_eq_nil_iff.mpr h), List.takeWhile_eq_self_iff.mpr h]

theorem read_length_le (first : Token) (rest : List Token) :
    (read first rest).tokens.length - 1 ≤ rest.length := by
  have hread := read_prefix first rest
  have hlength := hread.length_le
  rw [List.length_cons] at hlength
  omega

/-- A piece that does not show its end is the last one, and not terminated. -/
theorem ends_of_isTerminated (hfirst : first.isWhitespace = false)
    (hlast : ∀ p ∈ (⟨ts, read first rest⟩
        :: (split (rest.drop ((read first rest).tokens.length - 1))).1).getLast?,
      p.isTerminated = true) : Ends first rest := by
  by_contra hnot
  obtain ⟨s, space, hread, hopen, hspace, happend⟩ := exists_statement_of_not_ends hnot
  have hbody : (read first rest).tokens ≠ [] := read_ne_nil hfirst rest
  have hleft : rest.drop ((read first rest).tokens.length - 1) = space := by
    rw [hread] at hbody ⊢
    rw [← List.take_length (l := rest)] at happend
    exact (drop_of_append hbody happend).trans (by rw [List.drop_length, List.append_nil])
  rw [hleft, split_of_isSpace hspace, hread] at hlast
  have hterminated : s.isTerminated = true := hlast _ rfl
  rw [hopen] at hterminated
  cases hterminated

/-- **Behind a terminated piece the pieces of any tokens may follow.** -/
theorem split_append (hlast : ∀ p ∈ (split ts).1.getLast?, p.isTerminated = true)
    (hspace : (split ts).2 = []) (more : List Token) :
    split (ts ++ more) = ((split ts).1 ++ (split more).1, (split more).2) := by
  revert hlast hspace
  fun_induction split ts with
  | case1 ts leading hnil =>
    intro _ hspace
    have hcut := List.takeWhile_append_dropWhile (p := Token.isWhitespace) (l := ts)
    rw [hnil, show ts.takeWhile Token.isWhitespace = [] from hspace] at hcut
    rw [← hcut]
    rfl
  | case2 ts leading first rest hcons body left ih =>
    intro hlast hspace
    have hfirst := isWhitespace_of_dropWhile_eq_cons hcons
    have hread := read_append (ends_of_isTerminated hfirst hlast) more
    have hleading : IsSpace leading := fun _ ht => List.mem_takeWhile_imp ht
    have hcut : ts ++ more = leading ++ first :: (rest ++ more) := by
      rw [← List.cons_append, ← List.append_assoc, ← hcons, List.takeWhile_append_dropWhile]
    have htake : (ts ++ more).takeWhile Token.isWhitespace = leading := by
      rw [hcut, List.takeWhile_append_of_pos hleading, List.takeWhile_cons_of_neg (by simp [hfirst]),
        List.append_nil]
    have hdrop : (ts ++ more).dropWhile Token.isWhitespace = first :: (rest ++ more) := by
      rw [hcut, List.dropWhile_append_of_pos hleading, List.dropWhile_cons_of_neg (by simp [hfirst])]
    have hbehind : ∀ p ∈ left.1.getLast?, p.isTerminated = true := by
      intro p hp
      refine hlast p ?_
      rw [List.getLast?_cons, hp]
      rfl
    rw [split_of_dropWhile_eq_cons hdrop, hread, htake,
      List.drop_append_of_le_length (read_length_le first rest), ih hbehind hspace]
    rfl

end Piece

/-! ## Building the tree piece by piece -/

namespace Stylesheet

/-- The open blocks and, in reverse, the nodes so far in the innermost of them. -/
structure Building where
  blocks : List OpenBlock
  done : List Node

namespace Building

/-- Puts one piece into the innermost open block. -/
def place (b : Building) (p : Piece) : Building :=
  match p.body with
  | .statement s => ⟨b.blocks, .statement p.leading b.blocks.length s :: b.done⟩
  | .opening head brace => ⟨⟨p.leading, head, brace, b.done⟩ :: b.blocks, []⟩
  | .closing brace =>
    match b.blocks with
    | [] => ⟨[], .statement p.leading 0 (.skipped [brace] (some ⟨.unexpectedBrace, brace.span⟩))
        :: b.done⟩
    | block :: outer =>
      ⟨outer, block.close outer b.done.reverse p.leading (some brace) :: block.before⟩

/-- The tree when no piece comes any more. -/
def finish (b : Building) (trailing : List Token) : Stylesheet := closeAll b.blocks b.done trailing

end Building

open Building

/-- **The tree is built piece by piece.** -/
theorem build_eq_foldl (blocks : List OpenBlock) (done : List Node) (pieces : List Piece)
    (trailing : List Token) :
    build blocks done pieces trailing = (pieces.foldl place ⟨blocks, done⟩).finish trailing := by
  induction pieces generalizing blocks done with
  | nil => rfl
  | cons p pieces ih =>
    obtain ⟨leading, body⟩ := p
    cases body with
    | statement s => exact ih _ _
    | opening head brace => exact ih _ _
    | closing brace => cases blocks <;> exact ih _ _

theorem ofTokens_eq_foldl (ts : List Token) :
    ofTokens ts = ((Piece.split ts).1.foldl place ⟨[], []⟩).finish (Piece.split ts).2 :=
  build_eq_foldl _ _ _ _

/-! ## Nodes in front of what is built -/

namespace Building

/-- What is being built, with nodes at the top in front of it. -/
def onto (front : List Node) : List OpenBlock → List Node → Building
  | [], done => ⟨[], done ++ front⟩
  | block :: outer, done =>
    let around := onto front outer block.before
    ⟨{ block with before := around.done } :: around.blocks, done⟩

variable (front : List Node) (blocks : List OpenBlock) (done : List Node)

theorem length_onto : (onto front blocks done).blocks.length = blocks.length := by
  induction blocks generalizing done with
  | nil => rfl
  | cons block outer ih => rw [onto, List.length_cons, List.length_cons, ih]

theorem ruleSetDepth_onto : ruleSetDepth (onto front blocks done).blocks = ruleSetDepth blocks := by
  unfold ruleSetDepth
  induction blocks generalizing done with
  | nil => rfl
  | cons block outer ih => rw [onto, List.countP_cons, List.countP_cons, ih]

theorem onto_cons (n : Node) :
    onto front blocks (n :: done)
      = ⟨(onto front blocks done).blocks, n :: (onto front blocks done).done⟩ := by
  cases blocks <;> rfl

/-- A block that is closed does not show what stands in front of the blocks around it. -/
theorem close_onto (block : OpenBlock) (before children : List Node) (trailing : List Token)
    (closing : Option Token) :
    OpenBlock.close { block with before := before } (onto front blocks done).blocks children trailing
        closing
      = block.close blocks children trailing closing := by
  have hdepth : ruleSetDepth ({ block with before := before } :: (onto front blocks done).blocks)
      = ruleSetDepth (block :: blocks) := by
    have houter := ruleSetDepth_onto front blocks done
    unfold ruleSetDepth at houter ⊢
    rw [List.countP_cons, List.countP_cons, houter]
  rw [OpenBlock.close, OpenBlock.close, hdepth, length_onto]

/-- **Nodes at the top do not touch the pieces placed behind them.** -/
theorem place_onto (p : Piece) :
    (onto front blocks done).place p
      = onto front (place ⟨blocks, done⟩ p).blocks (place ⟨blocks, done⟩ p).done := by
  unfold place
  cases p.body with
  | statement s => simp only [onto_cons, length_onto]
  | opening head brace => rfl
  | closing brace =>
    cases blocks with
    | nil => rfl
    | cons block outer =>
      simp only [onto_cons]
      rw [← close_onto front outer block.before block (onto front outer block.before).done]
      rfl

theorem foldl_place_onto (pieces : List Piece) :
    pieces.foldl place (onto front blocks done)
      = onto front (pieces.foldl place ⟨blocks, done⟩).blocks
          (pieces.foldl place ⟨blocks, done⟩).done := by
  induction pieces generalizing blocks done with
  | nil => rfl
  | cons p pieces ih => rw [List.foldl_cons, List.foldl_cons, place_onto, ih]

theorem finish_onto (trailing : List Token) :
    (onto front blocks done).finish trailing
      = ⟨front.reverse ++ (finish ⟨blocks, done⟩ trailing).children,
          (finish ⟨blocks, done⟩ trailing).trailing⟩ := by
  unfold finish
  induction blocks generalizing done trailing with
  | nil => simp [onto, closeAll]
  | cons block outer ih =>
    rw [closeAll, ← ih, onto_cons, onto, closeAll,
      ← close_onto front outer block.before block (onto front outer block.before).done]

end Building

/-! ## Terminated nodes at the top -/

/-- A block that stays open is a node at the top. -/
theorem exists_not_isTerminated_closeAll {blocks : List OpenBlock} (hblocks : blocks ≠ [])
    (done : List Node) (trailing : List Token) :
    ∃ n ∈ (closeAll blocks done trailing).children, n.isTerminated = false := by
  induction blocks generalizing done trailing with
  | nil => exact absurd rfl hblocks
  | cons block outer ih =>
    cases outer with
    | nil => exact ⟨_, by rw [closeAll, closeAll, List.mem_reverse]; exact List.mem_cons_self, rfl⟩
    | cons next outer => exact ih (List.cons_ne_nil _ _) _ _

/-- When all nodes at the top are terminated no block is open, and the last piece is terminated. -/
theorem isTerminated_of_finish {pieces : List Piece} {b : Building} {trailing : List Token}
    (hterminated : ∀ n ∈ ((pieces.foldl place b).finish trailing).children, n.isTerminated = true) :
    (pieces.foldl place b).blocks = [] ∧ ∀ p ∈ pieces.getLast?, p.isTerminated = true := by
  have hblocks : (pieces.foldl place b).blocks = [] := by
    by_contra hopen
    obtain ⟨n, hn, hnot⟩ := exists_not_isTerminated_closeAll hopen _ trailing
    rw [hterminated n hn] at hnot
    cases hnot
  refine ⟨hblocks, fun p hp => ?_⟩
  obtain ⟨front, rfl⟩ := List.getLast?_eq_some_iff.mp hp
  rw [List.foldl_append, List.foldl_cons, List.foldl_nil] at hterminated hblocks
  obtain ⟨leading, body⟩ := p
  cases body with
  | opening | closing => rfl
  | statement s =>
    refine hterminated (.statement leading (front.foldl place b).blocks.length s) ?_
    rw [place] at hblocks ⊢
    simp only at hblocks
    rw [finish, hblocks, closeAll, List.mem_reverse]
    exact List.mem_cons_self

/-- **Trees of terminated nodes may be put in front of any tree.** -/
theorem ofTokens_append_eq {ts : List Token} (htrailing : (ofTokens ts).trailing = [])
    (hterminated : ∀ n ∈ (ofTokens ts).children, n.isTerminated = true) (more : List Token) :
    ofTokens (ts ++ more)
      = ⟨(ofTokens ts).children ++ (ofTokens more).children, (ofTokens more).trailing⟩ := by
  rw [ofTokens_eq_foldl] at htrailing hterminated
  obtain ⟨hblocks, hlast⟩ := isTerminated_of_finish hterminated
  obtain ⟨blocks, done, hplaced⟩ :
      ∃ blocks done, (Piece.split ts).1.foldl place ⟨[], []⟩ = ⟨blocks, done⟩ := ⟨_, _, rfl⟩
  obtain rfl : blocks = [] := by rw [hplaced] at hblocks; exact hblocks
  rw [hplaced] at htrailing
  rw [ofTokens_eq_foldl, ofTokens_eq_foldl ts, ofTokens_eq_foldl more,
    Piece.split_append hlast htrailing, List.foldl_append, hplaced]
  have honto := foldl_place_onto done [] [] (Piece.split more).1
  rw [onto, List.nil_append] at honto
  rw [honto, finish_onto]
  rfl

end Stylesheet

namespace Node

theorem errorsOfAll_append (a b : List Node) :
    errorsOfAll (a ++ b) = errorsOfAll a ++ errorsOfAll b := by
  induction a with
  | nil => rfl
  | cons n ns ih => rw [List.cons_append, errorsOfAll, errorsOfAll, ih, List.append_assoc]

end Node

namespace Parse

theorem errors_ofTokens_perm (ts : List Token) :
    (ofTokens ts).errors.Perm (tokenErrors ts ++ (Stylesheet.ofTokens ts).errors) :=
  List.mergeSort_perm _ _

/-- **Parsing is compositional.** Tokens without whitespace at the end whose nodes at the top are
all terminated may be followed by any tokens: the tree of both is the nodes of the first in front of
those of the second, and their errors are the errors of both. -/
theorem ofTokens_append {ts : List Token} (htrailing : (ofTokens ts).sheet.trailing = [])
    (hterminated : ∀ n ∈ (ofTokens ts).sheet.children, n.isTerminated = true)
    (more : List Token) :
    (ofTokens (ts ++ more)).sheet.children
        = (ofTokens ts).sheet.children ++ (ofTokens more).sheet.children
      ∧ (ofTokens (ts ++ more)).sheet.trailing = (ofTokens more).sheet.trailing
      ∧ (ofTokens (ts ++ more)).errors.Perm ((ofTokens ts).errors ++ (ofTokens more).errors) := by
  have hsheet : (ofTokens (ts ++ more)).sheet = ⟨(ofTokens ts).sheet.children
      ++ (ofTokens more).sheet.children, (ofTokens more).sheet.trailing⟩ :=
    Stylesheet.ofTokens_append_eq htrailing hterminated more
  refine ⟨by rw [hsheet], by rw [hsheet], ?_⟩
  have herrors : (Stylesheet.ofTokens (ts ++ more)).errors
      = (Stylesheet.ofTokens ts).errors ++ (Stylesheet.ofTokens more).errors := by
    rw [show Stylesheet.ofTokens (ts ++ more) = _ from hsheet, Stylesheet.errors,
      Node.errorsOfAll_append]
    rfl
  have htokens : tokenErrors (ts ++ more) = tokenErrors ts ++ tokenErrors more := by
    rw [tokenErrors, List.filter_append, List.map_append]
    rfl
  refine (errors_ofTokens_perm _).trans (.trans ?_
    ((errors_ofTokens_perm ts).append (errors_ofTokens_perm more)).symm)
  rw [htokens, herrors, List.append_assoc, List.append_assoc]
  exact (List.perm_append_comm_assoc _ _ _).append_left _

/-- A rule set, a stray brace and skipped tokens that end with a semicolon may be followed by a
declaration that is not terminated. -/
theorem ofTokens_append_of_declaration :
    ((ofText "a\x7bb:c\x7d\x7dd e;".toList).sheet.trailing = []
        ∧ ∀ n ∈ (ofText "a\x7bb:c\x7d\x7dd e;".toList).sheet.children, n.isTerminated = true)
      ∧ (ofTokens (Tokens.ofText "a\x7bb:c\x7d\x7dd e;".toList
          ++ Tokens.ofText "f:g".toList)).sheet.children
        = (ofText "a\x7bb:c\x7d\x7dd e;".toList).sheet.children
            ++ (ofText "f:g".toList).sheet.children := by
  have htrailing : (ofText "a\x7bb:c\x7d\x7dd e;".toList).sheet.trailing = [] := by cbv
  have hterminated : (ofText "a\x7bb:c\x7d\x7dd e;".toList).sheet.children.all
      Node.isTerminated = true := by cbv
  exact ⟨⟨htrailing, List.all_eq_true.mp hterminated⟩,
    (ofTokens_append htrailing (List.all_eq_true.mp hterminated) _).1⟩

end Parse

end SheetLint
