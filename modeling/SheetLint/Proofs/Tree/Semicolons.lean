import SheetLint.Proofs.Tree.Replacement

/-!
# Semicolons behind declarations

A declaration without semicolon ends in front of a closing brace or at the end of the source. A
semicolon behind its tokens is its semicolon, if its brackets are closed, and no other piece changes.
With an open bracket, which only the last piece of a source may have, the semicolon belongs to the
value.

Results:
* `Piece.read_withSemicolon`: a declaration with a semicolon behind it.
* `Piece.split_withSemicolons`: semicolons behind all declarations that have none.
* `Stylesheet.declarations_withSemicolons`: the declarations then.
-/

namespace SheetLint

open Tokens

/-- Whether each bracket of a declaration is closed. -/
def Declaration.isBalanced (d : Declaration) : Bool := d.tokens.foldl bracketDepth 0 == 0

/-- The declaration with a semicolon behind it, unless it has one. -/
def Declaration.withSemicolon (semicolon : Token) (d : Declaration) : Declaration :=
  if d.semicolon.isSome then d
  else if d.isBalanced then { d with semicolon := some semicolon }
  else { d with value := d.value ++ [semicolon] }

namespace PieceBody

/-- Whether the piece is a declaration without semicolon. -/
def isOpen (b : PieceBody) : Bool := b.declaration?.any (·.semicolon.isNone)

/-- The piece with a semicolon behind it, if it is a declaration without one. -/
def withSemicolon (semicolon : Token) : PieceBody → PieceBody
  | statement (.declaration d) => statement (.declaration (d.withSemicolon semicolon))
  | b => b

end PieceBody

/-- The piece with a semicolon behind it, if it is a declaration without one. -/
def Piece.withSemicolon (semicolon : Token) (p : Piece) : Piece :=
  ⟨p.leading, p.body.withSemicolon semicolon⟩

namespace Piece

variable {ts front back rest tail later later' : List Token} {first keyword colon semicolon t : Token}
  {depth : Nat} {d : Declaration}

/-! ## Declarations without semicolon -/

/-- What stands behind the colon does not tell where it stands. -/
theorem cutAtColon?_append (h : cutAtColon? depth ts = some (front, colon, back))
    (back' : List Token) : cutAtColon? depth (front ++ colon :: back') = some (front, colon, back') := by
  induction ts generalizing depth front with
  | nil => cases h
  | cons t ts ih =>
    rw [cutAtColon?] at h
    split at h
    · rename_i hstop
      cases h
      rw [List.nil_append, cutAtColon?, if_pos hstop]
    · rename_i hgo
      obtain ⟨⟨front', cut⟩, hcut, heq⟩ := Option.map_eq_some_iff.mp h
      cases heq
      rw [List.cons_append, cutAtColon?, if_neg hgo, ih hcut]
      rfl

/-- The colon of a declaration stands outside brackets. -/
theorem foldl_of_cutAtColon? (h : cutAtColon? depth ts = some (front, colon, back)) :
    front.foldl bracketDepth depth = 0 ∧ bracketDepth 0 colon = 0 := by
  induction ts generalizing depth front with
  | nil => cases h
  | cons t ts ih =>
    rw [cutAtColon?] at h
    split at h
    · rename_i hstop
      cases h
      rw [Bool.and_eq_true, decide_eq_true_eq] at hstop
      exact ⟨hstop.1, bracketDepth_of_isPunct hstop.2 (by decide) 0⟩
    · obtain ⟨⟨front', cut⟩, hcut, heq⟩ := Option.map_eq_some_iff.mp h
      cases heq
      have hinner := ih hcut
      exact hinner

/-- How a declaration without semicolon is cut: whitespace around its value, and the value, which
neither starts nor ends with whitespace. -/
structure IsOpenDeclaration (d : Declaration) (front : List Token) : Prop where
  cut (back : List Token) : cutAtColon? 0 (front ++ d.colon :: back) = some (front, d.colon, back)
  property : d.property = dropEndWhile Token.isTrivia front ∧ d.property ≠ []
  beforeColon : d.beforeColon = takeEndWhile Token.isTrivia front
  afterColon : IsSpace d.afterColon
  head : ∀ t ∈ d.value.head?, t.isWhitespace = false
  last : dropEndWhile Token.isWhitespace d.value = d.value
  rest : d.beforeSemicolon = [] ∧ d.semicolon = none

theorem dropEndWhile_idem (p : Token → Bool) (ts : List Token) :
    dropEndWhile p (dropEndWhile p ts) = dropEndWhile p ts := by
  rw [dropEndWhile, dropEndWhile, List.reverse_reverse, List.dropWhile_idempotent]

/-- A declaration that is read from tokens without semicolon. -/
theorem exists_isOpenDeclaration (h : statementOf ts none = .declaration d) :
    ∃ front, IsOpenDeclaration d front := by
  obtain ⟨front, colon, back, hcut, hproperty, rfl⟩ := exists_cut_of_statementOf h
  refine ⟨front, cutAtColon?_append hcut, ⟨rfl, hproperty⟩, rfl, fun _ => List.mem_takeWhile_imp, ?_,
    dropEndWhile_idem _ _, rfl, rfl⟩
  intro t ht
  obtain ⟨more, hmore⟩ := List.head?_eq_some_iff.mp ht
  obtain ⟨space, hspace⟩ := dropEndWhile_prefix Token.isWhitespace
    (back.dropWhile Token.isWhitespace)
  have hvalue : dropEndWhile Token.isWhitespace (back.dropWhile Token.isWhitespace) = t :: more :=
    hmore
  rw [hvalue, List.cons_append] at hspace
  exact isWhitespace_of_dropWhile_eq_cons hspace.symm

namespace IsOpenDeclaration

theorem tokens_eq (h : IsOpenDeclaration d front) :
    d.tokens = front ++ d.colon :: (d.afterColon ++ d.value) := by
  rw [Declaration.tokens, h.property.1, h.beforeColon, h.rest.1, h.rest.2,
    dropEndWhile_append_takeEndWhile]
  simp

/-- The value behind its whitespace. -/
theorem takeWhile_value (h : IsOpenDeclaration d front) (back : List Token)
    (hvalue : d.value ≠ [] ∨ back = []) :
    (d.afterColon ++ (d.value ++ back)).takeWhile Token.isWhitespace = d.afterColon
      ∧ (d.afterColon ++ (d.value ++ back)).dropWhile Token.isWhitespace = d.value ++ back := by
  rw [List.takeWhile_append_of_pos h.afterColon, List.dropWhile_append_of_pos h.afterColon]
  cases hfirst : d.value with
  | nil =>
    rw [hvalue.resolve_left (absurd hfirst)]
    simp
  | cons t ts =>
    have ht : ¬ t.isWhitespace = true := Bool.eq_false_iff.mp (h.head t (by rw [hfirst]; rfl))
    rw [List.cons_append, List.takeWhile_cons_of_neg ht, List.dropWhile_cons_of_neg ht, List.append_nil]
    exact ⟨rfl, rfl⟩

/-- With a semicolon behind its tokens it is a declaration with semicolon. -/
theorem statementOf_some (h : IsOpenDeclaration d front) (semicolon : Token) :
    statementOf d.tokens (some semicolon) = .declaration { d with semicolon := some semicolon } := by
  obtain ⟨hspace, hvalue⟩ := h.takeWhile_value [] (.inr rfl)
  rw [List.append_nil] at hspace hvalue
  have hend : takeEndWhile Token.isWhitespace d.value = [] := by
    have hwhole := dropEndWhile_append_takeEndWhile Token.isWhitespace d.value
    rw [h.last] at hwhole
    exact List.append_cancel_left (hwhole.trans (List.append_nil _).symm)
  rw [statementOf, h.tokens_eq, h.cut]
  simp only [← h.property.1, if_neg h.property.2, ← h.beforeColon, hspace, hvalue, h.last, hend,
    Option.isSome_some, if_true]
  rw [← h.rest.1]

/-- With a semicolon behind the open brackets of its value it is a declaration that goes on. -/
theorem statementOf_none (h : IsOpenDeclaration d front) (hvalue : d.value ≠ [])
    (hword : semicolon.isWhitespace = false) {space : List Token} (hspace : IsSpace space) :
    statementOf (d.tokens ++ semicolon :: space) none =
      .declaration { d with value := d.value ++ [semicolon] } := by
  obtain ⟨htake, hdrop⟩ := h.takeWhile_value (semicolon :: space) (.inl hvalue)
  have hend : dropEndWhile Token.isWhitespace (d.value ++ semicolon :: space) =
      d.value ++ [semicolon] := by
    have hreverse : ∀ t ∈ space.reverse, t.isWhitespace = true := fun t ht =>
      hspace t (List.mem_reverse.mp ht)
    rw [dropEndWhile, List.reverse_append, List.reverse_cons, List.append_assoc,
      List.dropWhile_append_of_pos hreverse, List.singleton_append,
      List.dropWhile_cons_of_neg (by simp [hword])]
    simp
  rw [statementOf, h.tokens_eq, List.append_assoc, List.cons_append, List.append_assoc, h.cut]
  simp only [← h.property.1, if_neg h.property.2, ← h.beforeColon, htake, hdrop, hend,
    Option.isSome_none, Bool.false_eq_true, if_false]
  rw [h.rest.1, h.rest.2]

/-- An empty value leaves no bracket open. -/
theorem isBalanced_of_value_eq_nil (h : IsOpenDeclaration d front) (hvalue : d.value = []) :
    d.isBalanced = true := by
  obtain ⟨hfront, hcolon⟩ := foldl_of_cutAtColon? (h.cut [])
  rw [Declaration.isBalanced, h.tokens_eq, hvalue, List.append_nil, List.foldl_append, hfront,
    List.foldl_cons, hcolon, foldl_bracketDepth_of_isSpace h.afterColon]
  rfl

end IsOpenDeclaration

/-! ## Pieces with semicolons -/

theorem semicolon_of_statementOf_some (h : statementOf ts (some t) = .declaration d) :
    d.semicolon = some t := by
  obtain ⟨front, colon, back, -, -, rfl⟩ := exists_cut_of_statementOf h
  rfl

/-- What a declaration is read from. -/
theorem exists_of_read_declaration (h : read first rest = .statement (.declaration d)) :
    first.isComment = false ∧ (∀ ts, read first ts = ofStatement first ts)
      ∧ (d.semicolon = none →
        statementOf ((first :: rest).take (lengthToTerminator 0 (first :: rest))) none =
          .declaration d) := by
  have hread : first.isComment = false ∧ ∀ ts, read first ts = ofStatement first ts := by
    unfold read at h
    split at h
    · cases h
    · rename_i hbrace
      split at h
      · cases h
      · rename_i hcomment
        split at h
        · cases h
        · rename_i hsemicolon
          split at h
          · unfold ofAtRule at h
            simp only at h
            split at h
            · split at h
              · cases h
              · split at h <;> cases h
            · cases h
          · rename_i hkind
            refine ⟨Bool.eq_false_iff.mpr hcomment, fun ts => ?_⟩
            rw [read, if_neg hbrace, if_neg hcomment, if_neg hsemicolon, if_neg hkind]
  refine ⟨hread.1, hread.2, fun hnone => ?_⟩
  rw [hread.2] at h
  unfold ofStatement at h
  simp only at h
  split at h
  · split at h
    · cases h
    · split at h
      · rw [semicolon_of_statementOf_some (PieceBody.statement.inj h)] at hnone
        cases hnone
      · exact PieceBody.statement.inj h
  · exact PieceBody.statement.inj h

/-- A declaration without semicolon holds no terminator outside brackets. -/
theorem length_le_of_read (h : read first (tail ++ later) = .statement (.declaration d))
    (htokens : d.tokens = first :: tail) (hnone : d.semicolon = none) :
    (first :: tail).length ≤ lengthToTerminator 0 (first :: tail ++ later) := by
  obtain ⟨-, -, hwhole⟩ := exists_of_read_declaration h
  obtain ⟨space, -, happend⟩ := statementOf_none_append
    ((first :: (tail ++ later)).take (lengthToTerminator 0 (first :: (tail ++ later))))
  rw [hwhole hnone] at happend
  have hlength := congrArg List.length happend
  rw [length_take_lengthToTerminator, List.length_append, Statement.tokens, htokens] at hlength
  rw [List.cons_append, ← hlength]
  exact Nat.le_add_right _ _

/-- **What a declaration without semicolon is followed by**: whitespace, and then a closing brace or
nothing. Behind open brackets nothing but whitespace is left. -/
theorem exists_behind_of_read (h : read first (tail ++ later) = .statement (.declaration d))
    (htokens : d.tokens = first :: tail) (hnone : d.semicolon = none) :
    ∃ space back, later = space ++ back ∧ IsSpace space
      ∧ (∀ t ∈ back.head?, t.isPunct '\x7d' = true) ∧ (d.isBalanced = false → back = []) := by
  have hle := length_le_of_read h htokens hnone
  have hends : EndsAt first tail later := endsAt_read (by rw [h]; exact htokens)
  rcases hends with (hcomment | hlt) | ⟨space, back, rfl, hspace, hback, hlength⟩
  · rw [(exists_of_read_declaration h).1] at hcomment
    cases hcomment
  · rw [lengthToTerminator_append_of_lt hlt] at hle
    exact absurd hlt (Nat.not_lt.mpr hle)
  · refine ⟨space, back, rfl, hspace, hback, fun hopen => ?_⟩
    cases back with
    | nil => rfl
    | cons brace more =>
      have hsplit : first :: (tail ++ (space ++ brace :: more)) =
          first :: (tail ++ space) ++ brace :: more := by simp
      rw [hsplit] at hlength
      have hbehind := lengthToTerminator_append_of_le (Nat.le_of_eq hlength.symm) (brace :: more)
      have hdepth : (first :: (tail ++ space)).foldl bracketDepth 0 ≠ 0 := by
        rw [← List.cons_append, List.foldl_append, foldl_bracketDepth_of_isSpace hspace, ← htokens]
        exact beq_eq_false_iff_ne.mp hopen
      generalize (first :: (tail ++ space)).foldl bracketDepth 0 = depth at hdepth hbehind
      rw [hlength, lengthToTerminator, if_neg (by simp [hdepth])] at hbehind
      omega

/-- **A semicolon behind a declaration that has none.** -/
theorem read_withSemicolon (h : read first (tail ++ later) = .statement (.declaration d))
    (htokens : d.tokens = first :: tail) (hnone : d.semicolon = none)
    (hsemicolon : semicolon.isPunct ';' = true) (hkeeps : KeepsEnd later later') :
    read first (tail ++ semicolon :: later') =
      .statement (.declaration (d.withSemicolon semicolon)) := by
  obtain ⟨-, hread, hwhole⟩ := exists_of_read_declaration h
  have hstatement := hwhole hnone
  obtain ⟨front, hopen⟩ := exists_isOpenDeclaration hstatement
  have hle := length_le_of_read h htokens hnone
  have hbrace : semicolon.isPunct '\x7b' = false := isPunct_openBrace_of_semicolon hsemicolon
  rw [hread, ofStatement, Declaration.withSemicolon, hnone, ← List.cons_append,
    lengthToTerminator_append_of_le hle]
  simp only [Option.isSome_none, Bool.false_eq_true, if_false]
  cases hbalanced : d.isBalanced with
  | true =>
    have hdepth : (first :: tail).foldl bracketDepth 0 = 0 := by
      rw [← htokens]
      exact beq_iff_eq.mp hbalanced
    have hstop : isTerminator semicolon = true := by simp [isTerminator, hsemicolon]
    rw [hdepth, lengthToTerminator_cons_of_terminator hstop, Nat.add_zero, List.take_left,
      List.getElem?_append_right (Nat.le_refl _), Nat.sub_self]
    simp [hbrace, hsemicolon, ← htokens, hopen.statementOf_some]
  | false =>
    have hdepth : (first :: tail).foldl bracketDepth 0 ≠ 0 := by
      rw [← htokens]
      exact beq_eq_false_iff_ne.mp hbalanced
    have hvalue : d.value ≠ [] := by
      intro hvalue
      rw [hopen.isBalanced_of_value_eq_nil hvalue] at hbalanced
      cases hbalanced
    have hspace : IsSpace later := by
      obtain ⟨space, back, rfl, hspace, -, hnil⟩ := exists_behind_of_read h htokens hnone
      rwa [hnil hbalanced, List.append_nil]
    rw [hkeeps.space hspace]
    have hword : semicolon.isWhitespace = false := isWhitespace_of_isPunct hsemicolon
    have hlength : (first :: tail).length
        + lengthToTerminator ((first :: tail).foldl bracketDepth 0) (semicolon :: later) =
        (first :: tail ++ semicolon :: later).length := by
      generalize (first :: tail).foldl bracketDepth 0 = depth at hdepth
      rw [lengthToTerminator, if_neg (by simp [hdepth]), lengthToTerminator_of_isSpace hspace]
      simp only [List.length_append, List.length_cons]
    rw [hlength, List.take_length, List.getElem?_eq_none (Nat.le_refl _), ← htokens]
    simp only [hopen.statementOf_none hvalue hword hspace, hnone, if_false, Bool.false_eq_true]

theorem tokens_withSemicolon (h : read first rest = .statement (.declaration d))
    (hnone : d.semicolon = none) (semicolon : Token) :
    (d.withSemicolon semicolon).tokens = d.tokens ++ [semicolon] := by
  obtain ⟨-, -, hwhole⟩ := exists_of_read_declaration h
  obtain ⟨front, hopen⟩ := exists_isOpenDeclaration (hwhole hnone)
  unfold Declaration.withSemicolon
  rw [hnone, Option.isSome_none, if_neg Bool.false_ne_true]
  split <;> simp [Declaration.tokens, hopen.rest]

/-! ## All pieces -/

/-- The tokens of the pieces of a run, with a semicolon behind each declaration that has none. -/
def tokensWithSemicolons (semicolon : Token) (ts : List Token) : List Token :=
  (split ts).1.flatMap (fun p => p.tokens ++ if p.body.isOpen then [semicolon] else [])
    ++ (split ts).2

theorem isOpen_eq_true_iff (b : PieceBody) :
    b.isOpen = true ↔ ∃ d, b = .statement (.declaration d) ∧ d.semicolon = none := by
  cases b with
  | opening | closing => simp [PieceBody.isOpen, PieceBody.declaration?]
  | statement s => cases s <;> simp [PieceBody.isOpen, PieceBody.declaration?]

theorem withSemicolon_of_not_isOpen {b : PieceBody} (h : b.isOpen = false) (semicolon : Token) :
    b.withSemicolon semicolon = b := by
  cases b with
  | opening | closing => rfl
  | statement s =>
    cases s with
    | declaration d =>
      have hsome : d.semicolon.isSome = true := by
        simpa [PieceBody.isOpen, PieceBody.declaration?] using h
      rw [PieceBody.withSemicolon, Declaration.withSemicolon, if_pos hsome]
    | atRule | comment | empty | skipped => rfl

/-- **A semicolon behind a declaration** changes no piece but the declaration. -/
theorem takesPlaceOf_withSemicolon (hsemicolon : semicolon.isPunct ';' = true) (p : Piece) :
    (p.withSemicolon semicolon).TakesPlaceOf p := by
  cases hopen : p.body.isOpen with
  | false =>
    rw [withSemicolon, withSemicolon_of_not_isOpen hopen]
    exact .refl p
  | true =>
    obtain ⟨d, hd, hnone⟩ := (isOpen_eq_true_iff p.body).mp hopen
    obtain ⟨leading, body⟩ := p
    obtain rfl : body = .statement (.declaration d) := hd
    refine ⟨fun brace hbrace => (nomatch hbrace),
      fun first tail later later' hleading hfirst htokens hread hkeeps => ?_⟩
    have hnew := read_withSemicolon hread htokens hnone hsemicolon hkeeps
    have htokens' : (PieceBody.statement (.declaration (d.withSemicolon semicolon))).tokens =
        first :: (tail ++ [semicolon]) := by
      rw [PieceBody.tokens, Statement.tokens, tokens_withSemicolon hread hnone, ← List.cons_append]
      exact congrArg (· ++ [semicolon]) htokens
    rw [List.append_cons tail] at hnew
    have hsplit := split_cons hleading hfirst hnew htokens'
    rw [withSemicolon, PieceBody.withSemicolon, tokens, htokens', List.append_assoc]
    exact hsplit

/-- The tokens of a piece with a semicolon behind it. -/
theorem tokens_withSemicolon_of_mem {p : Piece} (hp : p ∈ (split ts).1) (semicolon : Token) :
    (p.withSemicolon semicolon).tokens = p.tokens ++ if p.body.isOpen then [semicolon] else [] := by
  cases hopen : p.body.isOpen with
  | false => simp [withSemicolon, withSemicolon_of_not_isOpen hopen]
  | true =>
    obtain ⟨d, hd, hnone⟩ := (isOpen_eq_true_iff p.body).mp hopen
    obtain ⟨-, first, tail, later, -, -, hread⟩ := exists_of_mem_split hp
    rw [hd] at hread
    simp [withSemicolon, hd, PieceBody.withSemicolon, tokens, PieceBody.tokens, Statement.tokens,
      tokens_withSemicolon hread hnone]

/-- **Semicolons behind all declarations that have none** change these declarations and no other
piece. -/
theorem split_withSemicolons (hsemicolon : semicolon.isPunct ';' = true) (ts : List Token) :
    split (tokensWithSemicolons semicolon ts) =
      ((split ts).1.map (withSemicolon semicolon), (split ts).2) := by
  have htokens : tokensWithSemicolons semicolon ts =
      (split ts).1.flatMap (fun p => (p.withSemicolon semicolon).tokens) ++ (split ts).2 :=
    congrArg (· ++ (split ts).2)
      (List.flatMap_congr fun p hp => (tokens_withSemicolon_of_mem hp semicolon).symm)
  have hsame : split ts = ((split ts).1.map fun p => p, (split ts).2) := by rw [List.map_id']
  rw [htokens]
  exact split_of_takesPlace (fun p _ => takesPlaceOf_withSemicolon hsemicolon p) hsame

end Piece

/-- The piece that a declaration of a tree comes from. -/
theorem Stylesheet.exists_read_of_mem {ts : List Token} {d : Declaration}
    (h : d ∈ (ofTokens ts).declarations) :
    ∃ before first tail later, ts = before ++ first :: (tail ++ later) ∧ d.tokens = first :: tail
      ∧ Piece.read first (tail ++ later) = .statement (.declaration d) := by
  rw [declarations_split, List.mem_filterMap] at h
  obtain ⟨p, hp, hd⟩ := h
  obtain ⟨before, first, tail, later, hsplit, htokens, hread⟩ := Piece.exists_of_mem_split hp
  rw [PieceBody.declaration?_eq_some_iff.mp hd] at htokens hread
  exact ⟨before, first, tail, later, hsplit, htokens, hread⟩

/-- **The declarations with semicolons behind all that have none.** -/
theorem Stylesheet.declarations_withSemicolons {semicolon : Token}
    (hsemicolon : semicolon.isPunct ';' = true) (ts : List Token) :
    (ofTokens (Piece.tokensWithSemicolons semicolon ts)).declarations =
      (ofTokens ts).declarations.map (Declaration.withSemicolon semicolon) := by
  rw [declarations_split, declarations_split, Piece.split_withSemicolons hsemicolon,
    List.filterMap_map, List.map_filterMap]
  refine List.filterMap_congr fun p _ => ?_
  rw [Function.comp_apply, Piece.withSemicolon]
  cases p.body with
  | opening | closing => rfl
  | statement s => cases s <;> rfl

end SheetLint
