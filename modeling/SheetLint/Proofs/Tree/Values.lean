import SheetLint.Proofs.Token.Kinds
import SheetLint.Proofs.Tree.Semicolons

/-!
# Where values end

Behind the value of a declaration stands whitespace, and then its semicolon, the closing brace of the
block around it or nothing. The value does not end with whitespace itself. The prelude of an at-rule
ends likewise, or in front of the brace of its block. So neither ends in front of an opening
parenthesis.

Results:
* `Parse.exists_behind_value`: what stands behind a value in a text.
* `Stylesheet.exists_behind_run`: what stands behind a value or a prelude is no opening parenthesis.
-/

namespace SheetLint

open Scan Tokens

variable {first : Token} {rest ts : List Token} {semicolon : Option Token} {source : Text}
variable {d : Declaration}

/-- Whether the first character behind the whitespace of a text, if there is one, ends a declaration. -/
def Text.EndsValue (s : Text) : Prop := ∀ c ∈ (s.dropWhile isSpace).head?, c = ';' ∨ c = '\x7d'

theorem Text.EndsValue.head?_ne {s : Text} (h : s.EndsValue) : s.head? ≠ some '\\' := by
  intro hs
  obtain ⟨rest, rfl⟩ := List.head?_eq_some_iff.mp hs
  rcases h '\\' rfl with h | h <;> cases h

theorem Text.EndsValue.isQuote_eq_false {s : Text} (h : s.EndsValue) :
    startsWith isQuote (s.dropWhile isSpace) = false := by
  cases hs : s.dropWhile isSpace with
  | nil => rfl
  | cons c rest => rcases h c (by rw [hs]; rfl) with rfl | rfl <;> rfl

namespace Piece

/-- What stands around the end of a value. -/
structure EndsValue (d : Declaration) (semicolon : Option Token) : Prop where
  last : ∀ t ∈ d.value.getLast?, t.isWhitespace = false
  space : IsSpace d.beforeSemicolon
  semicolon_eq : d.semicolon = semicolon
  open_eq : semicolon = none → d.beforeSemicolon = []

theorem endsValue_of_statementOf (h : statementOf ts semicolon = .declaration d) :
    EndsValue d semicolon := by
  obtain ⟨front, colon, back, -, -, rfl⟩ := exists_cut_of_statementOf h
  refine ⟨fun t ht => of_mem_getLast?_dropEndWhile ht, fun t ht => ?_, rfl, ?_⟩
  · simp only at ht
    split at ht
    · exact of_mem_takeEndWhile ht
    · cases ht
  · rintro rfl
    rfl

/-- What stands behind the whitespace behind a value: its semicolon, a closing brace or nothing. -/
theorem exists_behind_of_endsValue {tail later : List Token}
    (hread : read first (tail ++ later) = .statement (.declaration d))
    (htokens : d.tokens = first :: tail) (hends : EndsValue d semicolon) :
    ∃ space after c, d.beforeSemicolon ++ (d.semicolon.toList ++ later) = space ++ after ∧ IsSpace space
      ∧ (c = ';' ∨ c = '\x7d') ∧ ∀ t ∈ after.head?, t.isPunct c = true := by
  cases hsemicolon : d.semicolon with
  | some t =>
    obtain ⟨_, hupTo⟩ := exists_readUpTo (t := t) hread hsemicolon
    refine ⟨d.beforeSemicolon, t :: later, ';', rfl, hends.space, .inl rfl, ?_⟩
    rintro _ ⟨⟩
    exact hupTo.isPunct
  | none =>
    obtain ⟨space, back, rfl, hspace, hback, -⟩ := exists_behind_of_read hread htokens hsemicolon
    have hnone := hends.open_eq (hends.semicolon_eq.symm.trans hsemicolon)
    exact ⟨space, back, '\x7d', by rw [hnone]; rfl, hspace, .inr rfl, hback⟩

end Piece

/-- **What stands behind a value in a text.** -/
theorem Parse.exists_behind_value (hd : d ∈ (ofText source).sheet.declarations) :
    (∀ t ∈ d.value.getLast?, t.isWhitespace = false)
      ∧ ∃ front back, Tokens.ofText source = front ++ (d.value ++ back) ∧ (text back).EndsValue := by
  obtain ⟨before, first, tail, later, hsource, htokens, hread⟩ := Stylesheet.exists_read_of_mem hd
  obtain ⟨ts, semicolon, hstatement⟩ := Piece.exists_statementOf_of_read hread
  have hends := Piece.endsValue_of_statementOf hstatement
  obtain ⟨space, after, c, hbehind, hspace, hc, hafter⟩ :=
    Piece.exists_behind_of_endsValue hread htokens hends
  have hcut : Tokens.ofTextAt .start source =
      (before ++ d.property ++ d.beforeColon ++ [d.colon] ++ d.afterColon)
        ++ (d.value ++ (space ++ after)) := by
    rw [← Tokens.ofText, hsource, ← List.cons_append, ← htokens, Declaration.tokens, ← hbehind]
    simp
  refine ⟨hends.last, _, _, hcut, fun x hx => ?_⟩
  have hmark : isSpace c = false := by rcases hc with rfl | rfl <;> rfl
  rw [← List.append_assoc] at hcut
  rwa [head?_behind_isSpace hcut hspace hmark hafter x hx]

/-! ## Values and preludes -/

variable {run : List Token} {t : Token} {n : Node}

/-- Whether a token stands in the value of a declaration or in the prelude of an at-rule, with or
without a block. -/
inductive Node.InValue (t : Token) : Node → Prop
  | declaration {leading : List Token} {level : Nat} {d : Declaration} (mem : t ∈ d.value) :
      InValue t (.statement leading level (.declaration d))
  | atRule {leading prelude : List Token} {level : Nat} {keyword : Token} {semicolon : Option Token}
      (mem : t ∈ prelude) : InValue t (.statement leading level (.atRule keyword prelude semicolon))
  | block {leading prelude trailing : List Token} {level depth : Nat} {keyword opening : Token}
      {children : List Node} {closing : Option Token} (mem : t ∈ prelude) :
      InValue t (.block leading level depth (.atRule keyword prelude) opening children trailing closing)

/-- The values and preludes of a tree. -/
def Stylesheet.valueView : View (List Token) where
  statement
    | .declaration d => some d.value
    | .atRule _ prelude _ => some prelude
    | _ => none
  head
    | .atRule _ prelude => some prelude
    | .ruleSet _ => none
  skipped _ _ := rfl

namespace Stylesheet

theorem inValue_iff : n.InValue t ↔ ∃ run, valueView.node? n = some run ∧ t ∈ run := by
  constructor
  · rintro (⟨mem⟩ | ⟨mem⟩ | ⟨mem⟩) <;> exact ⟨_, rfl, mem⟩
  · rintro ⟨run, hrun, ht⟩
    cases n with
    | statement leading level s =>
      cases s with
      | declaration d =>
        cases hrun
        exact .declaration ht
      | atRule keyword prelude semicolon =>
        cases hrun
        exact .atRule ht
      | comment | empty | skipped => cases hrun
    | block leading level depth head opening children trailing closing =>
      cases head with
      | ruleSet => cases hrun
      | atRule keyword prelude =>
        cases hrun
        exact .block ht

/-- A value or prelude is part of its node. -/
theorem isInfix_of_node? (h : valueView.node? n = some run) : run <:+: n.tokens := by
  cases n with
  | statement leading level s =>
    cases s with
    | declaration d =>
      cases h
      exact ⟨leading ++ d.property ++ d.beforeColon ++ [d.colon] ++ d.afterColon,
        d.beforeSemicolon ++ d.semicolon.toList,
        by simp [Node.tokens, Statement.tokens, Declaration.tokens]⟩
    | atRule keyword prelude semicolon =>
      cases h
      exact ⟨leading ++ [keyword], semicolon.toList, by simp [Node.tokens, Statement.tokens]⟩
    | comment | empty | skipped => cases h
  | block leading level depth head opening children trailing closing =>
    cases head with
    | ruleSet => cases h
    | atRule keyword prelude =>
      cases h
      exact ⟨leading ++ [keyword], [opening] ++ Node.tokensOfAll children ++ trailing
        ++ closing.toList, by simp [Node.tokens, Head.tokens]⟩

end Stylesheet

/-- The prelude, if the piece is an at-rule or opens its block. -/
def PieceBody.prelude? : PieceBody → Option (List Token)
  | statement (.atRule _ prelude _) => some prelude
  | opening (.atRule _ prelude) _ => some prelude
  | _ => none

namespace Stylesheet

theorem piece?_valueView_eq_some_iff {b : PieceBody} : valueView.piece? b = some run ↔
    (∃ d, b.declaration? = some d ∧ d.value = run) ∨ b.prelude? = some run := by
  cases b with
  | statement s => cases s <;> simp [View.piece?, valueView, PieceBody.declaration?, PieceBody.prelude?]
  | opening head brace =>
    cases head <;> simp [View.piece?, valueView, PieceBody.declaration?, PieceBody.prelude?]
  | closing brace => simp [View.piece?, PieceBody.declaration?, PieceBody.prelude?]

/-- A value or prelude is part of its piece. -/
theorem sublist_of_piece? {b : PieceBody} (h : valueView.piece? b = some run) :
    run.Sublist b.tokens := by
  rcases piece?_valueView_eq_some_iff.mp h with ⟨d, hd, rfl⟩ | hprelude
  · rw [PieceBody.declaration?_eq_some_iff.mp hd]
    refine List.IsInfix.sublist ⟨d.property ++ d.beforeColon ++ [d.colon] ++ d.afterColon,
      d.beforeSemicolon ++ d.semicolon.toList, ?_⟩
    simp [PieceBody.tokens, Statement.tokens, Declaration.tokens]
  · unfold PieceBody.prelude? at hprelude
    split at hprelude
    · cases hprelude
      exact (List.sublist_append_left _ _).cons _
    · cases hprelude
      exact (List.sublist_cons_self _ _).trans (List.sublist_append_left _ _)
    · cases hprelude

end Stylesheet

/-! ## What stands behind them -/

namespace Piece

variable {keyword : Token}

theorem isPunct_paren_of_isTerminator (h : isTerminator t = true) : t.isPunct '(' = false := by
  rw [isTerminator, Bool.or_eq_true, Bool.or_eq_true] at h
  rcases h with (hopen | hsemicolon) | hclose
  · exact Token.isPunct_of_ne hopen (by decide)
  · exact Token.isPunct_of_ne hsemicolon (by decide)
  · exact Token.isPunct_of_ne hclose (by decide)

/-- Behind a prelude stands a terminator, perhaps behind whitespace, or nothing. -/
theorem exists_behind_of_ofAtRule (h : (ofAtRule keyword rest).prelude? = some run) :
    ∃ back, rest = run ++ back ∧ ∀ t ∈ back.head?, t.isPunct '(' = false := by
  have hcut := List.take_append_drop (lengthToTerminator 0 rest) rest
  have hbehind : ∀ t ∈ (rest.drop (lengthToTerminator 0 rest)).head?, t.isPunct '(' = false := by
    intro t ht
    rw [List.head?_drop] at ht
    exact isPunct_paren_of_isTerminator (isTerminator_of_getElem? ht)
  have hwhole : ∃ back, rest = rest.take (lengthToTerminator 0 rest) ++ back
      ∧ ∀ t ∈ back.head?, t.isPunct '(' = false := ⟨_, hcut.symm, hbehind⟩
  have htrimmed : ∃ back, rest =
      dropEndWhile Token.isWhitespace (rest.take (lengthToTerminator 0 rest)) ++ back
        ∧ ∀ t ∈ back.head?, t.isPunct '(' = false := by
    refine ⟨takeEndWhile Token.isWhitespace (rest.take (lengthToTerminator 0 rest))
      ++ rest.drop (lengthToTerminator 0 rest), ?_, fun t ht => ?_⟩
    · rw [← List.append_assoc, dropEndWhile_append_takeEndWhile, hcut]
    · rw [List.head?_append, Option.mem_def, Option.or_eq_some_iff] at ht
      rcases ht with hspace | ⟨-, hdrop⟩
      · exact Token.isPunct_of_isWhitespace (of_mem_takeEndWhile (List.mem_of_mem_head? hspace)) '('
      · exact hbehind t hdrop
  unfold ofAtRule at h
  simp only at h
  split at h
  · split_ifs at h
    · cases h
      exact hwhole
    · cases h
      exact hwhole
    · cases h
      exact htrimmed
  · cases h
    exact htrimmed

theorem prelude?_ofStatement (first : Token) (rest : List Token) :
    (ofStatement first rest).prelude? = none := by
  have hstatement (ts : List Token) (semicolon : Option Token) :
      (PieceBody.statement (statementOf ts semicolon)).prelude? = none := by
    unfold statementOf
    simp only
    split
    · split
      · cases semicolon <;> rfl
      · rfl
    · split <;> cases semicolon <;> rfl
  unfold ofStatement
  simp only
  split
  · split_ifs
    · rfl
    · exact hstatement _ _
    · exact hstatement _ _
  · exact hstatement _ _

theorem exists_behind_prelude (h : (read first rest).prelude? = some run) :
    ∃ back, rest = run ++ back ∧ ∀ t ∈ back.head?, t.isPunct '(' = false := by
  unfold read at h
  split_ifs at h
  · cases h
  · cases h
  · cases h
  · exact exists_behind_of_ofAtRule h
  · rw [prelude?_ofStatement] at h
    cases h

end Piece

namespace Stylesheet

/-- **What stands behind a value or a prelude** is no opening parenthesis. -/
theorem exists_behind_run (h : run ∈ (Parse.ofText source).sheet.nodes.filterMap valueView.node?) :
    ∃ front back, Tokens.ofText source = front ++ (run ++ back)
      ∧ ∀ t ∈ back.head?, t.isPunct '(' = false := by
  have hsplit : (Parse.ofText source).sheet.nodes.filterMap valueView.node? =
    (Piece.split (Tokens.ofText source)).1.filterMap (valueView.piece? ·.body) :=
      seen_split valueView (Tokens.ofText source)
  rw [hsplit, List.mem_filterMap] at h
  obtain ⟨p, hp, hrun⟩ := h
  rcases piece?_valueView_eq_some_iff.mp hrun with ⟨d, hd, rfl⟩ | hprelude
  · have hmem : d ∈ (ofTokens (Tokens.ofText source)).declarations := by
      rw [declarations_split]
      exact List.mem_filterMap.mpr ⟨p, hp, hd⟩
    obtain ⟨-, front, back, hsource, hends⟩ := Parse.exists_behind_value hmem
    refine ⟨front, back, hsource, fun t ht => Bool.eq_false_iff.mpr fun hparen => ?_⟩
    obtain ⟨more, rfl⟩ := List.head?_eq_some_iff.mp ht
    have htext : Tokens.text (t :: more) = '(' :: Tokens.text more := by
      rw [text_cons, Token.text_of_isPunct hparen]
      rfl
    rcases hends '(' (by rw [htext]; rfl) with h | h <;> cases h
  · obtain ⟨before, first, tail, later, hsource, -, hread⟩ := Piece.exists_of_mem_split hp
    rw [← hread] at hprelude
    obtain ⟨back, hrest, hback⟩ := Piece.exists_behind_prelude hprelude
    exact ⟨before ++ [first], back, by rw [hsource, hrest]; simp, hback⟩

end Stylesheet

end SheetLint
