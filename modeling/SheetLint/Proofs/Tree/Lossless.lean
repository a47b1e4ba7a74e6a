import Mathlib.Data.List.TakeWhile
import SheetLint.Tree.Parse

/-!
# The tree keeps every token

A piece takes a run off the front of the tokens and never skips one, pieces are put into the tree
in their order, and the blocks still open hold the tokens read so far. So the tree lists exactly
the tokens it was made of, whatever they are.

Results:
* `Piece.read_append_drop`: a piece and what is left behind it are the tokens it was read from.
* `Piece.tokens_split`: the pieces of a run and the whitespace behind them are the run.
* `Stylesheet.tokens_build`: putting pieces into open blocks keeps the order of the tokens.
* `Parse.lossless`: the tree of a run of tokens lists that run, and the tree of a text gives the
  text back.
-/

namespace SheetLint

/-! ## Trimming at the end -/

namespace Tokens

theorem dropEndWhile_prefix (p : Token → Bool) (ts : List Token) : dropEndWhile p ts <+: ts :=
  ⟨takeEndWhile p ts, dropEndWhile_append_takeEndWhile p ts⟩

theorem takeEndWhile_suffix (p : Token → Bool) (ts : List Token) : takeEndWhile p ts <:+ ts :=
  ⟨dropEndWhile p ts, dropEndWhile_append_takeEndWhile p ts⟩

theorem of_mem_takeEndWhile {p : Token → Bool} {ts : List Token} {t : Token}
    (h : t ∈ takeEndWhile p ts) : p t = true :=
  List.mem_takeWhile_imp (List.mem_reverse.mp h)

theorem of_mem_getLast?_dropEndWhile {p : Token → Bool} {ts : List Token} {t : Token}
    (h : t ∈ (dropEndWhile p ts).getLast?) : p t = false := by
  rw [dropEndWhile, List.getLast?_reverse] at h
  obtain ⟨more, hmore⟩ := List.head?_eq_some_iff.mp h
  simpa [hmore] using List.head_dropWhile_not p (l := ts.reverse) (by rw [hmore]; simp)

/-- What starts with a token that stays is not trimmed away. -/
theorem dropEndWhile_cons_ne_nil {p : Token → Bool} {t : Token} (ht : p t = false)
    (ts : List Token) : dropEndWhile p (t :: ts) ≠ [] := by
  intro h
  have hall := List.dropWhile_eq_nil_iff.mp (List.reverse_eq_nil_iff.mp h) t (by simp)
  rw [hall] at ht
  exact Bool.false_ne_true ht.symm

end Tokens

/-! ## One piece -/

namespace Piece

variable {ts front back rest : List Token} {first colon : Token} {depth : Nat}

theorem eq_append_of_cutAtColon? (h : cutAtColon? depth ts = some (front, colon, back)) :
    ts = front ++ colon :: back := by
  induction ts generalizing depth front with
  | nil => simp [cutAtColon?] at h
  | cons t ts ih =>
    rw [cutAtColon?] at h
    split at h
    · cases h
      rfl
    · obtain ⟨⟨front', cut⟩, hcut, heq⟩ := Option.map_eq_some_iff.mp h
      cases heq
      rw [ih hcut]
      rfl

/-- The parts of a declaration around its colon, joined. -/
theorem declaration_parts_append (front : List Token) (colon : Token) (back : List Token) :
    Tokens.dropEndWhile Token.isTrivia front ++ Tokens.takeEndWhile Token.isTrivia front ++ [colon]
        ++ back.takeWhile Token.isWhitespace
        ++ Tokens.dropEndWhile Token.isWhitespace (back.dropWhile Token.isWhitespace)
        ++ Tokens.takeEndWhile Token.isWhitespace (back.dropWhile Token.isWhitespace)
      = front ++ colon :: back := by
  rw [Tokens.dropEndWhile_append_takeEndWhile, List.append_assoc _ _ (Tokens.takeEndWhile _ _),
    Tokens.dropEndWhile_append_takeEndWhile, List.append_assoc,
    List.takeWhile_append_dropWhile, List.append_assoc, List.singleton_append]

/-- **What a declaration is read from**: tokens with a colon outside brackets and a property in front of
it. -/
theorem exists_cut_of_statementOf {semicolon : Option Token} {d : Declaration}
    (h : statementOf ts semicolon = .declaration d) :
    ∃ front colon back, cutAtColon? 0 ts = some (front, colon, back)
      ∧ Tokens.dropEndWhile Token.isTrivia front ≠ []
      ∧ d = {
          property := Tokens.dropEndWhile Token.isTrivia front
          beforeColon := Tokens.takeEndWhile Token.isTrivia front
          colon
          afterColon := back.takeWhile Token.isWhitespace
          value := Tokens.dropEndWhile Token.isWhitespace (back.dropWhile Token.isWhitespace)
          beforeSemicolon :=
            if semicolon.isSome then
              Tokens.takeEndWhile Token.isWhitespace (back.dropWhile Token.isWhitespace)
            else []
          semicolon } := by
  unfold statementOf at h
  cases hcut : cutAtColon? 0 ts with
  | none =>
    rw [hcut] at h
    simp only at h
    split at h <;> cases semicolon <;> cases h
  | some cut =>
    obtain ⟨front, colon, back⟩ := cut
    rw [hcut] at h
    simp only at h
    split at h
    · cases semicolon <;> cases h
    · rename_i hproperty
      exact ⟨front, colon, back, rfl, hproperty, (Statement.declaration.inj h).symm⟩

/-- A statement that ends with a semicolon has all tokens in front of it, and the semicolon. -/
theorem tokens_statementOf_some (ts : List Token) (s : Token) :
    (statementOf ts (some s)).tokens = ts ++ [s] := by
  unfold statementOf
  cases hcut : cutAtColon? 0 ts with
  | none =>
    simp only
    split <;> rfl
  | some cut =>
    obtain ⟨front, colon, back⟩ := cut
    simp only
    split
    · rfl
    · rw [eq_append_of_cutAtColon? hcut, ← declaration_parts_append front colon back]
      rfl

/-- What is written of a statement without semicolon leaves whitespace only. -/
theorem statementOf_none_append (ts : List Token) :
    ∃ space, (∀ t ∈ space, t.isWhitespace = true)
      ∧ (statementOf ts none).tokens ++ space = ts := by
  unfold statementOf
  cases hcut : cutAtColon? 0 ts with
  | none =>
    refine ⟨Tokens.takeEndWhile Token.isWhitespace ts,
      fun t ht => Tokens.of_mem_takeEndWhile ht, ?_⟩
    simp only
    split <;> exact Tokens.dropEndWhile_append_takeEndWhile _ _
  | some cut =>
    obtain ⟨front, colon, back⟩ := cut
    simp only
    split
    · exact ⟨Tokens.takeEndWhile Token.isWhitespace ts, fun t ht => Tokens.of_mem_takeEndWhile ht,
        Tokens.dropEndWhile_append_takeEndWhile _ _⟩
    · refine ⟨Tokens.takeEndWhile Token.isWhitespace (back.dropWhile Token.isWhitespace),
        fun t ht => Tokens.of_mem_takeEndWhile ht, ?_⟩
      rw [eq_append_of_cutAtColon? hcut, ← declaration_parts_append front colon back]
      simp only [Statement.tokens, Declaration.tokens, Option.isSome_none, Bool.false_eq_true,
        if_false, Option.toList_none, List.append_nil]

theorem tokens_statementOf_none (ts : List Token) : (statementOf ts none).tokens <+: ts := by
  obtain ⟨space, -, happend⟩ := statementOf_none_append ts
  exact ⟨space, happend⟩

theorem tokens_statementOf_none_ne_nil (hfirst : first.isWhitespace = false) (ts : List Token) :
    (statementOf (first :: ts) none).tokens ≠ [] := by
  unfold statementOf
  cases hcut : cutAtColon? 0 (first :: ts) with
  | none =>
    simp only
    split <;> exact Tokens.dropEndWhile_cons_ne_nil hfirst ts
  | some cut =>
    obtain ⟨front, colon, back⟩ := cut
    simp only
    split
    · exact Tokens.dropEndWhile_cons_ne_nil hfirst ts
    · simp [Statement.tokens, Declaration.tokens]

/-- Up to a token and with it. -/
theorem take_append_getElem {n : Nat} {t : Token} (h : ts[n]? = some t) :
    ts.take n ++ [t] <+: ts := by
  rw [← Option.toList_some, ← h, ← List.take_add_one]
  exact List.take_prefix _ _

theorem ofAtRule_prefix (keyword : Token) (rest : List Token) :
    (ofAtRule keyword rest).tokens <+: keyword :: rest := by
  have open_prefix : ∀ n, Tokens.dropEndWhile Token.isWhitespace (rest.take n) <+: rest := fun n =>
    (Tokens.dropEndWhile_prefix _ _).trans (List.take_prefix _ _)
  unfold ofAtRule
  simp only
  split
  · rename_i t ht
    have hcut := take_append_getElem ht
    split
    · simpa [PieceBody.tokens, Head.tokens] using hcut
    · split
      · simpa [PieceBody.tokens, Statement.tokens] using hcut
      · simpa [PieceBody.tokens, Statement.tokens] using open_prefix _
  · simpa [PieceBody.tokens, Statement.tokens] using open_prefix _

theorem ofStatement_prefix (first : Token) (rest : List Token) :
    (ofStatement first rest).tokens <+: first :: rest := by
  have open_prefix : ∀ n, (statementOf ((first :: rest).take n) none).tokens <+: first :: rest :=
    fun n => (tokens_statementOf_none _).trans (List.take_prefix _ _)
  unfold ofStatement
  simp only
  split
  · rename_i t ht
    have hcut := take_append_getElem ht
    split
    · simpa [PieceBody.tokens, Head.tokens] using hcut
    · split
      · simpa [PieceBody.tokens, tokens_statementOf_some] using hcut
      · exact open_prefix _
  · exact open_prefix _

theorem ofStatement_ne_nil (hfirst : first.isWhitespace = false)
    (hend : isTerminator first = false) (rest : List Token) :
    (ofStatement first rest).tokens ≠ [] := by
  have hlength : lengthToTerminator 0 (first :: rest) =
      lengthToTerminator (Tokens.bracketDepth 0 first) rest + 1 := by
    rw [lengthToTerminator, hend]
    simp
  unfold ofStatement
  simp only [hlength, List.take_succ_cons]
  split
  · split
    · simp [PieceBody.tokens]
    · split
      · simp [PieceBody.tokens, tokens_statementOf_some]
      · exact tokens_statementOf_none_ne_nil hfirst _
  · exact tokens_statementOf_none_ne_nil hfirst _

theorem read_prefix (first : Token) (rest : List Token) :
    (read first rest).tokens <+: first :: rest := by
  fun_cases read first rest with
  | case1 => simp [PieceBody.tokens]
  | case2 => simp [PieceBody.tokens, Statement.tokens]
  | case3 => simp [PieceBody.tokens, Statement.tokens]
  | case4 => exact ofAtRule_prefix first rest
  | case5 => exact ofStatement_prefix first rest

theorem ofAtRule_ne_nil (keyword : Token) (rest : List Token) :
    (ofAtRule keyword rest).tokens ≠ [] := by
  unfold ofAtRule
  simp only
  repeat' split
  all_goals simp [PieceBody.tokens, Statement.tokens, Head.tokens]

theorem read_ne_nil (hfirst : first.isWhitespace = false) (rest : List Token) :
    (read first rest).tokens ≠ [] := by
  fun_cases read first rest with
  | case1 => simp [PieceBody.tokens]
  | case2 => simp [PieceBody.tokens, Statement.tokens]
  | case3 => simp [PieceBody.tokens, Statement.tokens]
  | case4 => exact ofAtRule_ne_nil first rest
  | case5 hnoclose _ hnosemi =>
    by_cases hopen : first.isPunct '\x7b' = true
    · simp [ofStatement, lengthToTerminator, isTerminator, hopen, PieceBody.tokens]
    · refine ofStatement_ne_nil hfirst ?_ rest
      simp [isTerminator, hopen, hnosemi, hnoclose]

/-- **A piece is taken off the front.** The tokens of the piece and those left behind it are the
tokens that it was read from. -/
theorem read_append_drop (hfirst : first.isWhitespace = false) (rest : List Token) :
    (read first rest).tokens ++ rest.drop ((read first rest).tokens.length - 1)
      = first :: rest := by
  obtain ⟨left, hleft⟩ := read_prefix first rest
  cases htokens : (read first rest).tokens with
  | nil => exact absurd htokens (read_ne_nil hfirst rest)
  | cons t ts =>
    rw [htokens, List.cons_append] at hleft
    obtain ⟨rfl, rfl⟩ := List.cons.inj hleft
    simp

theorem split_of_dropWhile_eq_nil (h : ts.dropWhile Token.isWhitespace = []) :
    split ts = ([], ts.takeWhile Token.isWhitespace) := by
  rw [split]
  split
  · rfl
  · rename_i hcons
    rw [h] at hcons
    cases hcons

theorem split_of_dropWhile_eq_cons (h : ts.dropWhile Token.isWhitespace = first :: rest) :
    split ts =
      (⟨ts.takeWhile Token.isWhitespace, read first rest⟩
          :: (split (rest.drop ((read first rest).tokens.length - 1))).1,
        (split (rest.drop ((read first rest).tokens.length - 1))).2) := by
  rw [split]
  split
  · rename_i hnil
    rw [h] at hnil
    cases hnil
  · rename_i first' rest' hcons
    rw [h] at hcons
    cases hcons
    rfl

/-- **No token between pieces.** The pieces of a run and the whitespace behind them are the run. -/
theorem tokens_split (ts : List Token) : (split ts).1.flatMap tokens ++ (split ts).2 = ts := by
  fun_induction split ts with
  | case1 ts _ hnil =>
    have hcut := List.takeWhile_append_dropWhile (p := Token.isWhitespace) (l := ts)
    rw [hnil, List.append_nil] at hcut
    exact hcut
  | case2 ts _ first rest hcons body more ih =>
    have hfirst : first.isWhitespace = false := by
      have := List.head_dropWhile_not Token.isWhitespace (l := ts) (by rw [hcons]; simp)
      simpa [hcons] using this
    have hcut := List.takeWhile_append_dropWhile (p := Token.isWhitespace) (l := ts)
    rw [hcons, ← read_append_drop hfirst rest, ← ih] at hcut
    rw [List.flatMap_cons, tokens, List.append_assoc, List.append_assoc]
    exact hcut

end Piece

/-! ## The stack of open blocks -/

namespace Node

@[simp] theorem tokensOfAll_append (a b : List Node) :
    tokensOfAll (a ++ b) = tokensOfAll a ++ tokensOfAll b := by
  induction a with
  | nil => rfl
  | cons n ns ih => simp [tokensOfAll, ih]

theorem tokensOfAll_eq_flatMap (ns : List Node) : tokensOfAll ns = ns.flatMap tokens := by
  induction ns with
  | nil => rfl
  | cons n ns ih => rw [tokensOfAll, ih, List.flatMap_cons]

end Node

namespace Stylesheet

/-- The tokens of an open block that are read already. -/
def OpenBlock.tokens (b : OpenBlock) : List Token :=
  Node.tokensOfAll b.before.reverse ++ b.leading ++ b.head.tokens ++ [b.opening]

/-- The tokens of open blocks that are read already, the innermost block being the first. -/
def openTokens (blocks : List OpenBlock) : List Token := blocks.reverse.flatMap OpenBlock.tokens

/-- A block that is closed lists its head, its nodes and its brace behind what was in front. -/
theorem tokensOfAll_close (b : OpenBlock) (outer : List OpenBlock) (children : List Node)
    (trailing : List Token) (closing : Option Token) :
    Node.tokensOfAll (b.close outer children trailing closing :: b.before).reverse =
      b.tokens ++ Node.tokensOfAll children ++ trailing ++ closing.toList := by
  simp [OpenBlock.close, OpenBlock.tokens, Node.tokensOfAll, Node.tokens]

theorem tokens_closeAll (blocks : List OpenBlock) (done : List Node) (trailing : List Token) :
    (closeAll blocks done trailing).tokens =
      openTokens blocks ++ Node.tokensOfAll done.reverse ++ trailing := by
  induction blocks generalizing done trailing with
  | nil => simp [closeAll, openTokens, Stylesheet.tokens]
  | cons b outer ih =>
    rw [closeAll, ih, tokensOfAll_close]
    simp [openTokens]

/-- **Pieces go into the tree in their order.** -/
theorem tokens_build (blocks : List OpenBlock) (done : List Node) (pieces : List Piece)
    (trailing : List Token) :
    (build blocks done pieces trailing).tokens =
      openTokens blocks ++ Node.tokensOfAll done.reverse ++ pieces.flatMap Piece.tokens
        ++ trailing := by
  induction pieces generalizing blocks done with
  | nil => simp [build, tokens_closeAll]
  | cons p pieces ih =>
    rw [build]
    obtain ⟨leading, body⟩ := p
    cases body with
    | statement s => simp [ih, Node.tokensOfAll, Node.tokens, Piece.tokens, PieceBody.tokens]
    | opening head brace =>
      simp [ih, Node.tokensOfAll, Piece.tokens, PieceBody.tokens, openTokens, OpenBlock.tokens]
    | closing brace =>
      cases blocks with
      | nil =>
        simp [ih, Node.tokensOfAll, Node.tokens, Statement.tokens, Piece.tokens, PieceBody.tokens]
      | cons b outer =>
        simp only
        rw [ih, tokensOfAll_close]
        simp [Piece.tokens, PieceBody.tokens, openTokens]

theorem tokens_ofTokens (ts : List Token) : (ofTokens ts).tokens = ts := by
  rw [ofTokens, tokens_build]
  simp [openTokens, Node.tokensOfAll, Piece.tokens_split]

end Stylesheet

namespace Parse

theorem tokens_ofText (source : Text) : (ofText source).sheet.tokens = Tokens.ofText source :=
  Stylesheet.tokens_ofTokens _

/-- **Parsing loses nothing.** The tree of any run of tokens lists these tokens, each once and in
their order, and the tree of a text gives the text back. -/
theorem lossless :
    (∀ ts : List Token, (ofTokens ts).sheet.tokens = ts)
      ∧ ∀ t : Text, (ofText t).sheet.text = t := by
  have htokens : ∀ ts : List Token, (ofTokens ts).sheet.tokens = ts := Stylesheet.tokens_ofTokens
  refine ⟨htokens, fun t => ?_⟩
  rw [Stylesheet.text, ofText, htokens, Tokens.text_ofText]

end Parse

end SheetLint
