import SheetLint.Proofs.Edit.Tokens
import SheetLint.Proofs.Token.Semicolons
import SheetLint.Proofs.Tree.Defects
import SheetLint.Proofs.Tree.Semicolons
import SheetLint.Rule.DeclarationSemicolon

/-!
# What adding semicolons does to a text

The rule about semicolons puts one behind each declaration that has none, right behind its last
token. Behind a line comment and behind a backslash the semicolon is swallowed. Elsewhere it is read
as such, and it is the semicolon of the declaration, if no bracket of that is open.

Results:
* `Stylesheet.tokensWithSemicolons_eq`: semicolons behind pieces, as semicolons behind tokens.
* `DeclarationSemicolon.semicolons_fixed_iff`: what all fixes of the rule make of a text.
* `DeclarationSemicolon.semicolon_joins_comment`: a semicolon that becomes a part of a comment.
-/

namespace SheetLint

open Tokens

/-- The token behind which the semicolon of a declaration is missing. -/
def Declaration.openEnd? (d : Declaration) : Option Token :=
  if d.semicolon.isSome then none else d.tokens.getLast?

/-- The tokens behind which a semicolon is missing. -/
def Stylesheet.openEnds (s : Stylesheet) : List Token := s.declarations.filterMap Declaration.openEnd?

/-- Whether a semicolon is missing behind a token. -/
def Stylesheet.isOpenEnd (s : Stylesheet) (t : Token) : Bool := decide (t ∈ s.openEnds)

variable {source : Text} {ts : List Token} {t : Token} {d : Declaration} {flag : Token → Bool}

/-! ## Semicolons behind pieces -/

theorem Declaration.getLast?_tokens (d : Declaration) : ∃ t, d.tokens.getLast? = some t := by
  refine Option.ne_none_iff_exists'.mp fun hnone => ?_
  have hnil := List.getLast?_eq_none_iff.mp hnone
  simp [Declaration.tokens] at hnil

namespace Stylesheet

theorem mem_openEnds_iff : t ∈ (ofTokens ts).openEnds ↔
    ∃ p ∈ (Piece.split ts).1, p.body.isOpen = true ∧ p.tokens.getLast? = some t := by
  rw [openEnds, declarations_split, List.filterMap_filterMap, List.mem_filterMap]
  refine exists_congr fun p => and_congr_right fun _ => ?_
  obtain ⟨leading, body⟩ := p
  cases body with
  | opening | closing => simp [PieceBody.isOpen, PieceBody.declaration?]
  | statement s =>
    cases s with
    | atRule | comment | empty | skipped => simp [PieceBody.isOpen, PieceBody.declaration?]
    | declaration d =>
      obtain ⟨u, hu⟩ := d.getLast?_tokens
      cases hsemicolon : d.semicolon with
      | some => simp [PieceBody.isOpen, PieceBody.declaration?, Declaration.openEnd?, hsemicolon]
      | none =>
        simp [PieceBody.isOpen, PieceBody.declaration?, Declaration.openEnd?, hsemicolon, hu,
          Piece.tokens, PieceBody.tokens, Statement.tokens, List.getLast?_append]

theorem openEnds_sublist (ts : List Token) : (ofTokens ts).openEnds.Sublist ts := by
  refine List.Sublist.trans ?_ (declarations_sublist ts)
  rw [openEnds]
  induction (ofTokens ts).declarations with
  | nil => exact .slnil
  | cons d ds ih =>
    rw [List.flatMap_cons, List.filterMap_cons]
    cases hend : d.openEnd? with
    | none => exact ih.trans (List.sublist_append_right _ _)
    | some t =>
      have hlast : d.tokens.getLast? = some t := by
        unfold Declaration.openEnd? at hend
        split at hend
        · cases hend
        · exact hend
      obtain ⟨front, hfront⟩ := List.getLast?_eq_some_iff.mp hlast
      rw [hfront, ← List.singleton_append]
      exact (List.sublist_append_right front [t]).append ih

end Stylesheet

theorem Tokens.flatMap_withSemicolon_of_not (h : ∀ t ∈ ts, flag t = false) :
    ts.flatMap (Token.withSemicolon flag) = ts := by
  induction ts with
  | nil => rfl
  | cons t ts ih =>
    rw [List.forall_mem_cons] at h
    rw [List.flatMap_cons, ih h.2, Token.withSemicolon, h.1]
    rfl

/-- A declaration without semicolon ends with a token. -/
theorem Piece.exists_getLast? {p : Piece} (h : p.body.isOpen = true) :
    ∃ t, p.tokens.getLast? = some t := by
  obtain ⟨leading, body⟩ := p
  obtain ⟨d, rfl, -⟩ := (isOpen_eq_true_iff body).mp h
  obtain ⟨t, ht⟩ := d.getLast?_tokens
  exact ⟨t, by simp [Piece.tokens, PieceBody.tokens, Statement.tokens, ht]⟩

/-- Semicolons behind the last tokens of pieces. -/
theorem Piece.flatMap_withSemicolon {ps : List Piece} {trailing : List Token}
    (hnodup : (ps.flatMap Piece.tokens ++ trailing).Nodup)
    (hflag : ∀ t ∈ ps.flatMap Piece.tokens ++ trailing, flag t = true ↔
      ∃ p ∈ ps, p.body.isOpen = true ∧ p.tokens.getLast? = some t) :
    (ps.flatMap Piece.tokens ++ trailing).flatMap (Token.withSemicolon flag) =
      ps.flatMap (fun p => p.tokens ++ if p.body.isOpen then [Token.semicolon] else [])
        ++ trailing := by
  induction ps with
  | nil =>
    refine flatMap_withSemicolon_of_not fun t ht => Bool.eq_false_iff.mpr fun h => ?_
    simpa using (hflag t ht).mp h
  | cons p ps ih =>
    rw [List.flatMap_cons, List.append_assoc] at hnodup hflag
    obtain ⟨hhere, hlater, hapart⟩ := List.nodup_append.mp hnodup
    have hother : ∀ q ∈ ps, ∀ t, q.tokens.getLast? = some t →
        t ∈ ps.flatMap Piece.tokens ++ trailing := fun q hq t ht =>
      List.mem_append_left _ (List.mem_flatMap.mpr ⟨q, hq, List.mem_of_getLast? ht⟩)
    have hback := ih hlater fun t ht => by
      rw [hflag t (List.mem_append_right _ ht), List.exists_mem_cons_iff]
      refine or_iff_right fun ⟨_, hlast⟩ => hapart t (List.mem_of_getLast? hlast) t ht rfl
    have hfront : ∀ t ∈ p.tokens, flag t = true ↔
        p.body.isOpen = true ∧ p.tokens.getLast? = some t := fun t ht => by
      rw [hflag t (List.mem_append_left _ ht), List.exists_mem_cons_iff]
      refine or_iff_left fun ⟨q, hq, _, hlast⟩ => hapart t ht t (hother q hq t hlast) rfl
    have hpiece : p.tokens.flatMap (Token.withSemicolon flag) =
        p.tokens ++ if p.body.isOpen then [Token.semicolon] else [] := by
      cases hopen : p.body.isOpen with
      | false =>
        rw [flatMap_withSemicolon_of_not fun t ht => ?_]
        · exact (List.append_nil _).symm
        · refine Bool.eq_false_iff.mpr fun h => ?_
          rw [((hfront t ht).mp h).1] at hopen
          cases hopen
      | true =>
        obtain ⟨last, hlast⟩ := exists_getLast? hopen
        obtain ⟨front, htokens⟩ := List.getLast?_eq_some_iff.mp hlast
        have hnone : ∀ t ∈ front, flag t = false := by
          intro t ht
          refine Bool.eq_false_iff.mpr fun h => ?_
          have hsame := ((hfront t (by rw [htokens]; exact List.mem_append_left _ ht)).mp h).2
          rw [hlast] at hsame
          rw [htokens] at hhere
          exact (List.nodup_append.mp hhere).2.2 t ht last List.mem_cons_self
            (Option.some.inj hsame).symm
        have hend : flag last = true :=
          (hfront last (List.mem_of_getLast? hlast)).mpr ⟨hopen, hlast⟩
        rw [htokens, List.flatMap_append, flatMap_withSemicolon_of_not hnone, List.flatMap_singleton,
          Token.withSemicolon, hend, List.append_assoc]
        rfl
    rw [List.flatMap_cons, List.append_assoc, List.flatMap_append, hback, hpiece, List.flatMap_cons,
      List.append_assoc]
    simp

/-- **Semicolons behind pieces are semicolons behind their last tokens.** -/
theorem Stylesheet.tokensWithSemicolons_eq (hnodup : ts.Nodup) :
    Piece.tokensWithSemicolons Token.semicolon ts =
      ts.flatMap (Token.withSemicolon (ofTokens ts).isOpenEnd) := by
  have hcut := Piece.tokens_split ts
  have hflag (t : Token) : (ofTokens ts).isOpenEnd t = true ↔
      ∃ p ∈ (Piece.split ts).1, p.body.isOpen = true ∧ p.tokens.getLast? = some t := by
    rw [isOpenEnd, decide_eq_true_iff]
    exact mem_openEnds_iff
  have hpieces := Piece.flatMap_withSemicolon (by rw [hcut]; exact hnodup) fun t _ => hflag t
  rw [hcut] at hpieces
  exact hpieces.symm

/-! ## Where a semicolon is missing -/

namespace Stylesheet

/-- A declaration of a tree without semicolon ends with the token that its value ends with. -/
theorem exists_openEnd (h : d ∈ (ofTokens ts).declarations) (hnone : d.semicolon = none) :
    ∃ t, d.openEnd? = some t ∧ t.stop = d.valueStop := by
  obtain ⟨-, first, tail, later, -, -, hread⟩ := exists_read_of_mem h
  obtain ⟨-, -, hwhole⟩ := Piece.exists_of_read_declaration hread
  obtain ⟨front, hopen⟩ := Piece.exists_isOpenDeclaration (hwhole hnone)
  obtain ⟨t, ht⟩ := d.getLast?_tokens
  refine ⟨t, by rw [Declaration.openEnd?, hnone]; exact ht, ?_⟩
  rw [hopen.tokens_eq, List.getLast?_append, List.getLast?_cons, List.getLast?_append] at ht
  unfold Declaration.valueStop
  cases hvalue : d.value.getLast? with
  | some u =>
    simp only [hvalue, Option.some_or, Option.getD_some, Option.some.injEq] at ht
    rw [← ht]
  | none =>
    cases hcolon : d.afterColon.getLast? with
    | some u =>
      simp only [hvalue, hcolon, Option.none_or, Option.some_or, Option.getD_some,
        Option.some.injEq] at ht
      rw [← ht]
    | none =>
      simp only [hvalue, hcolon, Option.none_or, Option.some_or, Option.getD_none,
        Option.some.injEq] at ht
      rw [← ht]

/-- Behind a declaration without semicolon a block or the text ends. -/
theorem closes_of_mem_openEnds {front back : List Token}
    (h : t ∈ (Parse.ofText source).sheet.openEnds) (hsplit : ofText source = front ++ t :: back) :
    (Tokens.text back).Closes := by
  obtain ⟨d, hd, hend⟩ := List.mem_filterMap.mp h
  obtain ⟨hnone, hlast⟩ : d.semicolon = none ∧ d.tokens.getLast? = some t := by
    unfold Declaration.openEnd? at hend
    split at hend
    · cases hend
    · rename_i hsome
      exact ⟨by simpa using hsome, hend⟩
  obtain ⟨before, first, tail, later, hsplit', htokens, hread⟩ := exists_read_of_mem hd
  obtain ⟨space, rest, rfl, hspace, hrest, -⟩ := Piece.exists_behind_of_read hread htokens hnone
  obtain ⟨init, hinit⟩ := List.getLast?_eq_some_iff.mp (htokens ▸ hlast)
  have hsame : ofText source = (before ++ init) ++ t :: (space ++ rest) := by
    rw [hsplit', ← List.cons_append, hinit]
    simp
  have hback : back = space ++ rest := (split_unique hsplit hsame).2
  have hread' : ofTextAt .start source = (front ++ [t]) ++ (space ++ rest) := by
    rw [← hback, List.append_assoc]
    exact hsplit
  rw [hback]
  exact head?_behind_isSpace hread' hspace rfl hrest

end Stylesheet

/-! ## What the fixes do -/

namespace DeclarationSemicolon

/-- The edit that puts a semicolon behind a token. -/
def edit (t : Token) : Edit := .insert t.stop [';']

/-- **All edits of the rule put a semicolon behind a token where one is missing.** -/
theorem edits_check (source : Text) (ts : List Token) :
    ((check source (Stylesheet.ofTokens ts)).filterMap Finding.fix).flatMap Fix.edits =
      (Stylesheet.ofTokens ts).openEnds.map edit := by
  have hall : ∀ d ∈ (Stylesheet.ofTokens ts).declarations, d.semicolon = none →
      ∃ t, d.openEnd? = some t ∧ t.stop = d.valueStop := fun d => Stylesheet.exists_openEnd
  rw [check, Stylesheet.openEnds]
  generalize (Stylesheet.ofTokens ts).declarations = ds at hall
  induction ds with
  | nil => rfl
  | cons d ds ih =>
    rw [List.forall_mem_cons] at hall
    rw [List.flatMap_cons, List.filterMap_append, List.flatMap_append, ih hall.2,
      List.filterMap_cons]
    cases hsemicolon : d.semicolon with
    | some s =>
      have hend : d.openEnd? = none := by rw [Declaration.openEnd?, hsemicolon]; rfl
      rw [hend, declarationFindings, hsemicolon]
      rfl
    | none =>
      obtain ⟨t, hend, hstop⟩ := hall.1 hsemicolon
      rw [hend, declarationFindings, hsemicolon, ← hstop]
      rfl

theorem check_eq_nil_iff (source : Text) (sheet : Stylesheet) :
    check source sheet = [] ↔ ∀ d ∈ sheet.declarations, d.semicolon.isSome = true := by
  rw [check, List.flatMap_eq_nil_iff]
  refine forall₂_congr fun d _ => ?_
  unfold declarationFindings
  split <;> simp_all

/-- Places do not tell which declarations have a semicolon. -/
theorem declarations_bare (ts : List Token) :
    (Stylesheet.ofTokens (ts.map Token.bare)).declarations.map (·.semicolon.isSome) =
      (Stylesheet.ofTokens ts).declarations.map (·.semicolon.isSome) := by
  rw [Stylesheet.ofTokens_map_bare, Stylesheet.declarations_bare, List.map_map]
  refine List.map_congr_left fun d _ => ?_
  exact Option.isSome_map

/-- What the rule says of two texts with the same tokens. -/
theorem check_eq_nil_congr {source source' : Text} {ts ts' : List Token}
    (h : ts'.map Token.bare = ts.map Token.bare) :
    check source' (Stylesheet.ofTokens ts') = [] ↔ check source (Stylesheet.ofTokens ts) = [] := by
  have hsame : (Stylesheet.ofTokens ts').declarations.map (·.semicolon.isSome) =
      (Stylesheet.ofTokens ts).declarations.map (·.semicolon.isSome) := by
    rw [← declarations_bare, h, declarations_bare]
  have hall (sheet : Stylesheet) : (∀ d ∈ sheet.declarations, d.semicolon.isSome = true) ↔
      ∀ b ∈ sheet.declarations.map (·.semicolon.isSome), b = true := by simp
  rw [check_eq_nil_iff, check_eq_nil_iff, hall, hall, hsame]

theorem isSome_withSemicolon_iff (d : Declaration) :
    (d.withSemicolon Token.semicolon).semicolon.isSome = true
      ↔ (d.semicolon = none → d.isBalanced = true) := by
  unfold Declaration.withSemicolon
  cases hsemicolon : d.semicolon with
  | some s => simp [hsemicolon]
  | none => cases d.isBalanced <;> simp

/-- What the rule finds in tokens with semicolons behind declarations. -/
theorem check_withSemicolons_eq_nil_iff (source : Text) {ts : List Token} (hnodup : ts.Nodup) :
    check source (Stylesheet.ofTokens
        (ts.flatMap (Token.withSemicolon (Stylesheet.ofTokens ts).isOpenEnd))) = []
      ↔ ∀ d ∈ (Stylesheet.ofTokens ts).declarations, d.semicolon = none → d.isBalanced = true := by
  rw [← Stylesheet.tokensWithSemicolons_eq hnodup, check_eq_nil_iff,
    Stylesheet.declarations_withSemicolons rfl, List.forall_mem_map]
  exact forall₂_congr fun d _ => isSome_withSemicolon_iff d

/-- The edits for the ends of declarations give the text with semicolons behind them. -/
theorem applyAll?_edits {source : Text} {sheet : Stylesheet}
    (hsub : sheet.openEnds.Sublist (ofText source)) :
    Edit.applyAll? source (sheet.openEnds.map edit) =
      some (text ((ofText source).flatMap (Token.withSemicolon sheet.isOpenEnd))) := by
  refine Edit.applyAll?_map hsub (fun t _ hnot => ?_) fun t ht => ?_
  · rw [Token.withSemicolon, Stylesheet.isOpenEnd, decide_eq_false hnot]
    exact List.append_nil _
  · rw [Token.withSemicolon, Stylesheet.isOpenEnd, decide_eq_true ht]
    exact ⟨t.text, [], (List.append_nil _).symm, stop_eq (hsub.mem ht), rfl, rfl⟩

/-- **What all fixes of the rule make of the tokens of a text.** Applied together they give a text.
Its tokens are the old ones, with a semicolon behind each declaration that has none, exactly when
none of these declarations ends with a line comment or with a backslash alone. Then the rule finds
nothing any more exactly when no bracket is open in one of them. -/
theorem semicolons_fixed_iff (source : Text) (hok : (Parse.ofText source).isOk = true) :
    let sheet := (Parse.ofText source).sheet
    ∃ out, Edit.applyAll? source (((check source sheet).filterMap Finding.fix).flatMap Fix.edits)
        = some out
      ∧ ((ofText out).map Token.bare
            = ((ofText source).flatMap (Token.withSemicolon sheet.isOpenEnd)).map Token.bare
          ↔ ∀ t ∈ sheet.openEnds, t.isUnending = false)
      ∧ ((ofText out).map Token.bare
              = ((ofText source).flatMap (Token.withSemicolon sheet.isOpenEnd)).map Token.bare
            ∧ check out (Parse.ofText out).sheet = []
          ↔ (∀ t ∈ sheet.openEnds, t.isUnending = false)
            ∧ ∀ d ∈ sheet.declarations, d.semicolon = none → d.isBalanced = true) := by
  intro sheet
  have hsub : sheet.openEnds.Sublist (ofText source) := Stylesheet.openEnds_sublist (ofText source)
  have hedits : ((check source sheet).filterMap Finding.fix).flatMap Fix.edits =
      sheet.openEnds.map edit := edits_check source (ofText source)
  rw [hedits, applyAll?_edits hsub]
  refine ⟨_, rfl, ?_⟩
  have hread : Legible (ofText source) := legible_of_ofTextAt (rfl : ofTextAt .start source = _)
  have hlegible := (legible_iff .start).symm.trans
    (legible_withSemicolons_iff hread (Parse.kind_ne_error hok)
      fun front t back hsplit (hflag : sheet.isOpenEnd t = true) =>
        Stylesheet.closes_of_mem_openEnds (decide_eq_true_iff.mp hflag) hsplit)
  have hends : (∀ t ∈ ofText source, sheet.isOpenEnd t = true → t.isUnending = false) ↔
      ∀ t ∈ sheet.openEnds, t.isUnending = false :=
    ⟨fun h t ht => h t (hsub.subset ht) (decide_eq_true_iff.mpr ht),
      fun h t _ hflag => h t (decide_eq_true_iff.mp hflag)⟩
  have htokens := hlegible.trans hends
  refine ⟨htokens, ?_⟩
  rw [← htokens]
  refine and_congr_right fun hsame => ?_
  exact (check_eq_nil_congr hsame).trans (check_withSemicolons_eq_nil_iff source (nodup_ofText source))

/-! ## A declaration that ends with a word, and one that ends with a comment -/

namespace Missing

/-- The declaration of one letter, with these tokens as value. -/
def declarationOf (value : List Token) : Declaration :=
  ⟨[⟨.ident, ['a'], ⟨⟨0, 1, 1⟩, ⟨1, 1, 2⟩⟩⟩], [], ⟨.punct, [':'], ⟨⟨1, 1, 2⟩, ⟨2, 1, 3⟩⟩⟩, [], value,
    [], none⟩

/-- The sheet of a declaration with these tokens as value. -/
def sheetOf (value : List Token) : Stylesheet :=
  ⟨[.statement [] 0 (.declaration (declarationOf value))], []⟩

/-- A word as value. -/
def word : Token := ⟨.ident, ['b'], ⟨⟨2, 1, 3⟩, ⟨3, 1, 4⟩⟩⟩

/-- A declaration without semicolon. -/
def plain : Text := "a:b".toList

theorem parse_plain : Parse.ofText plain = ⟨sheetOf [word], []⟩ := by cbv

/-- A declaration without semicolon that ends with a line comment. -/
def commented : Text := "a:b//".toList

/-- The declaration with a semicolon in its comment. -/
def swallowed : Text := "a:b//;".toList

/-- The comment. -/
def comment : Token := ⟨.lineComment, ['/', '/'], ⟨⟨3, 1, 4⟩, ⟨5, 1, 6⟩⟩⟩

/-- The comment with a semicolon. -/
def longer : Token := ⟨.lineComment, ['/', '/', ';'], ⟨⟨3, 1, 4⟩, ⟨6, 1, 7⟩⟩⟩

theorem parse_commented : Parse.ofText commented = ⟨sheetOf [word, comment], []⟩ := by cbv

theorem parse_swallowed : Parse.ofText swallowed = ⟨sheetOf [word, longer], []⟩ := by cbv

end Missing

/-- **A declaration that ends with a word** gets its semicolon. -/
theorem semicolons_fixed_iff_plain :
    let source := Missing.plain
    let sheet := (Parse.ofText source).sheet
    (Parse.ofText source).isOk = true ∧ sheet.openEnds = [Missing.word]
      ∧ ∃ out, Edit.applyAll? source (((check source sheet).filterMap Finding.fix).flatMap Fix.edits)
          = some out
        ∧ (ofText out).map Token.bare
            = ((ofText source).flatMap (Token.withSemicolon sheet.isOpenEnd)).map Token.bare
        ∧ check out (Parse.ofText out).sheet = [] := by
  intro source sheet
  have hsheet : sheet = Missing.sheetOf [Missing.word] :=
    congrArg Parse.sheet Missing.parse_plain
  have hok : (Parse.ofText source).isOk = true := congrArg Parse.isOk Missing.parse_plain
  have hends : sheet.openEnds = [Missing.word] := by rw [hsheet]; rfl
  obtain ⟨out, happly, -, hboth⟩ := semicolons_fixed_iff source hok
  refine ⟨hok, hends, out, happly, hboth.mpr ⟨?_, ?_⟩⟩
  · change ∀ t ∈ sheet.openEnds, _
    rw [hends]
    decide
  · change ∀ d ∈ sheet.declarations, _
    rw [hsheet]
    decide

/-- **A semicolon that becomes a part of a comment.** With the only fix there is, the declaration has no
semicolon, and the rule finds the same again. -/
theorem semicolon_joins_comment :
    let source := Missing.commented
    let sheet := (Parse.ofText source).sheet
    (Parse.ofText source).isOk = true
      ∧ Edit.applyAll? source (((check source sheet).filterMap Finding.fix).flatMap Fix.edits)
          = some Missing.swallowed
      ∧ (ofText source).map Token.text = [['a'], [':'], ['b'], ['/', '/']]
      ∧ (ofText Missing.swallowed).map Token.text = [['a'], [':'], ['b'], ['/', '/', ';']]
      ∧ (ofText Missing.swallowed).map Token.bare
          ≠ ((ofText source).flatMap (Token.withSemicolon sheet.isOpenEnd)).map Token.bare
      ∧ check Missing.swallowed (Parse.ofText Missing.swallowed).sheet ≠ [] := by
  intro source sheet
  have hsheet : sheet = Missing.sheetOf [Missing.word, Missing.comment] :=
    congrArg Parse.sheet Missing.parse_commented
  have hends : sheet.openEnds = [Missing.comment] := by rw [hsheet]; rfl
  have hsource : ofText source = (Missing.declarationOf [Missing.word, Missing.comment]).tokens := by
    cbv
  have hswallowed : ofText Missing.swallowed =
      (Missing.declarationOf [Missing.word, Missing.longer]).tokens := by
    cbv
  refine ⟨congrArg Parse.isOk Missing.parse_commented, ?_, by rw [hsource]; rfl,
    by rw [hswallowed]; rfl, fun hsame => ?_, ?_⟩
  · have hedits : ((check source sheet).filterMap Finding.fix).flatMap Fix.edits =
        [edit Missing.comment] := by
      rw [hsheet]
      rfl
    have hwalk : Edit.Substituted 0 ("a:b//".toList ++ [] ++ []) [edit Missing.comment]
        ("a:b//".toList ++ [';'] ++ []) := .cons rfl rfl (.nil 5 [])
    rw [hedits]
    exact Edit.applyAll?_of_substituted hwalk (List.pairwise_singleton _ _)
  · have hlength := congrArg List.length hsame
    have hflag : sheet.isOpenEnd = fun t => decide (t ∈ [Missing.comment]) := by
      funext t
      rw [Stylesheet.isOpenEnd, hends]
    rw [hsource, hswallowed, hflag] at hlength
    revert hlength
    decide
  · rw [Missing.parse_swallowed]
    exact List.cons_ne_nil _ _

end DeclarationSemicolon

end SheetLint
