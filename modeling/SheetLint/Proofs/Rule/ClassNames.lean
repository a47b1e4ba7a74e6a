import SheetLint.Proofs.Edit.Applicable
import SheetLint.Proofs.Rule.Kebab
import SheetLint.Proofs.Rule.Rewriting
import SheetLint.Proofs.Token.Kinds
import SheetLint.Proofs.Token.Replacement
import SheetLint.Proofs.Tree.Closed
import SheetLint.Proofs.Tree.Defects

/-!
# What renaming a class does to a text

The rule about the names of classes writes the kebab-case form of a name in its place when the pattern
accepts that form. The pattern says nothing about how the form is read: it may be empty, start with a
digit, end with a backslash that has lost what it escaped, or be `url` in front of a parenthesis. Then
there is no name behind the dot. In all other cases there is, and no other token is changed.

Results:
* `Token.readsBefore_ident_iff`: what is read as an identifier where an identifier ends.
* `SelectorNaming.kebab_ne_dash`: no kebab-case form is a dash.
* `SelectorNaming.class_renamed_iff`: what a fix of the rule makes of the tokens of a text.
* `SelectorNaming.class_becomes_number`: a name that is read as a number behind its dot.
-/

namespace SheetLint

open Scan Tokens

/-! ## What is read as an identifier -/

namespace Scan

variable {w s s' : Text}

/-- Whether a text is one name. -/
structure IsName (w : Text) : Prop where
  starts : startsName w = true
  ends : nameLength w = w.length

/-- Whether a name and what stands behind it open an `url(` without quotes. -/
def OpensUrl (w s : Text) : Prop :=
  Text.eqIgnoreCase w "url".toList = true
    ∧ ∃ inside, s = '(' :: inside ∧ startsWith isQuote (inside.dropWhile isSpace) = false

theorem startsName_append (h : startsName w = true) (s : Text) : startsName (w ++ s) = true := by
  match w with
  | [c] =>
    have hdash : c ≠ '-' := by
      rintro rfl
      cases h
    have hescape : c ≠ '\\' := by
      rintro rfl
      cases h
    simpa [startsName, hdash, hescape] using h
  | c :: x :: w => exact (startsName_cons_cons c x w (w ++ s)).trans h

/-- Where a name ends, it is one by itself, unless it is the dash in front of a backslash. -/
theorem isName_of_append (hne : w ≠ []) (hdash : w ≠ ['-']) (hname : startsName (w ++ s) = true)
    (hend : nameLength (w ++ s) = w.length) : IsName w := by
  have hself : nameLength w = w.length := by
    have happend := nameLength_append_of_eq hend []
    rwa [List.append_nil] at happend
  refine ⟨?_, hself⟩
  match w with
  | [c] =>
    have hc : c ≠ '-' := fun h => hdash (by rw [h])
    have hescape : c ≠ '\\' := by
      rintro rfl
      cases hself
    simpa [startsName, hc, hescape] using hname
  | c :: x :: w => exact (startsName_cons_cons c x (w ++ s) w).trans hname

theorem nameOrUrl_of_isName (h : IsName w) (hs : nameLength s = 0) :
    nameOrUrl (w ++ s) = (.ident, w.length) ↔ ¬ OpensUrl w s := by
  have hend : nameLength (w ++ []) = w.length := by rw [List.append_nil, h.ends]
  have hlength : nameLength (w ++ s) = w.length := by
    rw [nameLength_append_of_eq hend, hs, Nat.add_zero]
  rw [nameOrUrl_eq_ident_iff hlength]
  constructor
  · rintro hquote ⟨hurl, inside, hs, hnone⟩
    rw [hquote inside hs hurl] at hnone
    cases hnone
  · intro hopens inside hs hurl
    exact Bool.of_not_eq_false fun hnone => hopens ⟨hurl, inside, hs, hnone⟩

/-- A dot with no digit behind it may stand in the place of any dot. -/
theorem TakesPlace.of_dot (h : startsMagnitude ('.' :: s') = false) (s : Text) :
    TakesPlace ('.' :: s) ('.' :: s') := by
  refine StartsLike.takesPlace ⟨.of_cons rfl (by decide) s s', ⟨id, id, ?_⟩, ⟨?_, ?_⟩, rfl⟩
  · rw [h]
    exact Bool.noConfusion
  · exact id
  · exact id

theorem startsMagnitude_dot_of_startsName (h : startsName s = true) :
    startsMagnitude ('.' :: s) = false := by
  have hs := startsMagnitude_of_startsName h
  cases s with
  | nil => rfl
  | cons c s =>
    by_cases hdot : c = '.'
    · rw [hdot]
      rfl
    · simpa [startsMagnitude, hdot] using hs

end Scan

namespace Token

variable {t : Token} {w s : Text}

/-- **What is read as an identifier** where an identifier ends: a name that opens no `url(`. -/
theorem readsBefore_ident_iff (hdash : w ≠ ['-']) (hs : nameLength s = 0) (span : Span) :
    (⟨.ident, w, span⟩ : Token).ReadsBefore s ↔ IsName w ∧ ¬ OpensUrl w s := by
  constructor
  · rintro ⟨c, u, hw, hscan⟩
    have hw : w = c :: u := hw
    have hstarts : startsName (w ++ s) = true := by
      rw [hw]
      exact (nameOrUrl_of_ident hscan).1
    have hend : nameLength (w ++ s) = w.length := by
      rw [hw]
      exact nameLength_of_ident hscan
    have hname := isName_of_append (by simp [hw]) hdash hstarts hend
    refine ⟨hname, (nameOrUrl_of_isName hname hs).mp ?_⟩
    rw [hw] at hstarts ⊢
    exact (kindAndLength_of_startsName hstarts).symm.trans hscan
  · rintro ⟨hname, hurl⟩
    cases w with
    | nil => cases hname.starts
    | cons c u =>
      refine ⟨c, u, rfl, ?_⟩
      exact (kindAndLength_of_startsName (startsName_append hname.starts s)).trans
        ((nameOrUrl_of_isName hname hs).mpr hurl)

theorem nameLength_of_readsBefore_ident (h : t.ReadsBefore s) (hkind : t.kind = .ident) :
    nameLength s = 0 := by
  obtain ⟨c, u, -, hscan⟩ := h
  rw [hkind] at hscan
  have hend : nameLength (c :: u ++ s) = (c :: u).length := nameLength_of_ident hscan
  have happend := nameLength_append_of_eq hend s
  omega

/-- A dot is read in front of any text that starts with a name. -/
theorem readsBefore_dot (hdot : t.isPunct '.' = true) (h : startsName s = true) : t.ReadsBefore s := by
  simp only [isPunct, Bool.and_eq_true, beq_iff_eq] at hdot
  have halone : StandsAlone '.' s := by
    refine ⟨rfl, by simp, by decide, by simp, by simp, ?_, by simp, ?_⟩
    · exact startsMagnitude_dot_of_startsName h
    · rfl
  exact ⟨'.', [], hdot.2, by rw [List.nil_append, halone.kindAndLength_eq, hdot.1]; rfl⟩

end Token

namespace SelectorNaming

variable {accepts : Text → Bool} {source : Text} {f : Finding} {fix : Fix} {ts : List Token}

/-! ## Kebab case -/

/-- **No kebab-case form is a dash.** -/
theorem kebab_ne_dash (name : Text) : kebab name ≠ ['-'] := by
  intro h
  have hform := kebab_kebab name
  rw [h] at hform
  -- a dash by itself is trimmed
  exact absurd hform (by decide)

/-! ## What the rule finds -/

/-- What is found among some tokens is about a name behind a dot. -/
theorem exists_of_mem_selectorFindings (h : f ∈ selectorFindings accepts ts) :
    ∃ front dot name back, ts = front ++ dot :: name :: back ∧ dot.isPunct '.' = true
      ∧ name.kind = .ident ∧ f ∈ nameFinding accepts dot name := by
  fun_induction selectorFindings accepts ts with
  | case1 dot name rest ih =>
    rcases List.mem_append.mp h with hfirst | hlater
    · split at hfirst
      · rename_i htest
        simp only [Bool.and_eq_true, beq_iff_eq] at htest
        exact ⟨[], dot, name, rest, rfl, htest.1.1.1, htest.1.1.2, hfirst⟩
      · cases hfirst
    · obtain ⟨front, dot', name', back, hts, hfound⟩ := ih hlater
      exact ⟨dot :: front, dot', name', back, by rw [hts, List.cons_append], hfound⟩
  | case2 => cases h

theorem fix_of_mem_nameFinding {dot name : Token} (h : f ∈ nameFinding accepts dot name)
    (hfix : f.fix = some fix) :
    f.span = ⟨dot.span.start, name.span.stop⟩ ∧ accepts name.text = false
      ∧ accepts (kebab name.text) = true
      ∧ fix.edits = [⟨name.start, name.stop, kebab name.text⟩] := by
  unfold nameFinding at h
  split at h
  · cases h
  · rename_i haccepts
    simp only at h
    rw [List.mem_singleton.mp h] at hfix ⊢
    simp only [Option.ite_none_right_eq_some, Option.some.injEq, Bool.and_eq_true] at hfix
    obtain ⟨⟨-, hbetter⟩, rfl⟩ := hfix
    exact ⟨rfl, Bool.eq_false_iff.mpr haccepts, hbetter, rfl⟩

theorem exists_of_mem_check (h : f ∈ check accepts source (Parse.ofText source).sheet) :
    ∃ front dot name back, ofText source = front ++ dot :: name :: back ∧ dot.isPunct '.' = true
      ∧ name.kind = .ident ∧ f ∈ nameFinding accepts dot name := by
  obtain ⟨n, hn, hfound⟩ := List.mem_flatMap.mp h
  split at hfound
  · rename_i leading level depth selectors opening children trailing closing
    obtain ⟨front, dot, name, back, rfl, hname⟩ := exists_of_mem_selectorFindings hfound
    obtain ⟨before, after, hsource⟩ := Parse.tokens_isInfix hn
    refine ⟨before ++ (leading ++ front), dot, name, back ++ opening :: (Node.tokensOfAll children
      ++ (trailing ++ (closing.toList ++ after))), ?_, hname⟩
    rw [← hsource]
    simp [Node.tokens, Head.tokens]
  · cases hfound

/-! ## What its fixes do -/

/-- **What a fix of the rule makes of the tokens of a text.** It is about a name behind a dot, which the
pattern does not accept, and puts the kebab-case form in its place, which the pattern does accept. The new
text is read as the old tokens with one identifier in the place of the name, exactly when the kebab-case
form is a name and, with what stands behind it, opens no `url(`. -/
theorem class_renamed_iff (source : Text) (hok : (Parse.ofText source).isOk = true)
    (accepts : Text → Bool) {f : Finding} (hf : f ∈ check accepts source (Parse.ofText source).sheet)
    {fix : Fix} (hfix : f.fix = some fix) :
    ∃ front dot name back out, ofText source = front ++ dot :: name :: back
      ∧ dot.isPunct '.' = true ∧ name.kind = .ident
      ∧ f.span = ⟨dot.span.start, name.span.stop⟩
      ∧ accepts name.text = false ∧ accepts (kebab name.text) = true
      ∧ Edit.applyAll? source fix.edits = some out
      ∧ ((∃ new : Token, new.kind = .ident ∧ accepts new.text = true
          ∧ (ofText out).map Token.bare = (front ++ dot :: new :: back).map Token.bare) ↔
        IsName (kebab name.text) ∧ ¬ OpensUrl (kebab name.text) (text back)) := by
  obtain ⟨front, dot, name, back, hsource, hdot, hkind, hname⟩ := exists_of_mem_check hf
  obtain ⟨hspan, hrefused, haccepted, hedits⟩ := fix_of_mem_nameFinding hname hfix
  have hcut : ofText source = (front ++ [dot]) ++ name :: back := by simp [hsource]
  have happly := Edit.applyAll?_token hcut (kebab name.text)
  refine ⟨front, dot, name, back, _, hsource, hdot, hkind, hspan, hrefused, haccepted,
    hedits ▸ happly, ?_⟩
  have hout (new : Token) : text (front ++ [dot]) ++ new.text ++ text back =
      text (front ++ dot :: new :: back) := by simp
  have hread : Legible (front ++ dot :: name :: back) :=
    legible_of_ofTextAt (hsource : ofTextAt .start source = _)
  have hname : Legible (name :: back) := hread.of_append.2
  have hend := Token.nameLength_of_readsBefore_ident hname.1 hkind
  constructor
  · rintro ⟨new, hnew, -, htokens⟩
    -- the two texts are the same, and so are their middles
    have htext := congrArg text htokens
    rw [text_map_bare, text_map_bare, text_ofText, ← hout new, List.append_left_inj,
      List.append_right_inj] at htext
    rw [htext, hout new] at htokens
    have hlegible := (legible_iff .start).mpr htokens
    have hreads := hlegible.of_append.2.1.congr (k := ⟨.ident, kebab name.text, default⟩) hnew.symm htext
    exact (Token.readsBefore_ident_iff (kebab_ne_dash _) hend _).mp hreads
  · rintro ⟨hkebab, hurl⟩
    let new : Token := ⟨.ident, kebab name.text, default⟩
    have hreads : new.ReadsBefore (text back) :=
      (Token.readsBefore_ident_iff (kebab_ne_dash _) hend default).mpr ⟨hkebab, hurl⟩
    have hstarts : startsName (text (new :: back)) = true := by
      rw [text_cons]
      exact startsName_append hkebab.starts _
    have hback : Legible (dot :: new :: back) :=
      ⟨Token.readsBefore_dot hdot hstarts, hreads, hname.2⟩
    have hplace : TakesPlace (text (dot :: name :: back)) (text (dot :: new :: back)) := by
      rw [text_cons, text_cons dot (new :: back), Token.text_of_isPunct hdot]
      exact .of_dot (startsMagnitude_dot_of_startsName hstarts) _
    have hlegible := hread.replaced (Parse.kind_ne_error_of_append hok hsource) hback hplace
    refine ⟨new, rfl, haccepted, ?_⟩
    rw [hout new]
    exact (legible_iff .start).mp hlegible

/-! ## A name with a capital, and one with a digit -/

namespace Naming

/-- Whether a name is made of small letters, digits and dashes. -/
def isPlain (t : Text) : Bool := !t.isEmpty && t.all fun c => c.isLower || c.isDigit || c == '-'

/-- The dot at the start. -/
def dot : Token := ⟨.punct, ['.'], ⟨⟨0, 1, 1⟩, ⟨1, 1, 2⟩⟩⟩

/-- The first of two braces at a place, with nothing between them. -/
def opening (place : Position) : Token := ⟨.punct, ['\x7b'], ⟨place, place.advance ['\x7b']⟩⟩

/-- The second of them. -/
def closing (place : Position) : Token :=
  ⟨.punct, ['\x7d'], ⟨place.advance ['\x7b'], place.advance ['\x7b', '\x7d']⟩⟩

/-- The rule set for a class, the name of which goes to a place. -/
def sheetOf (name : Token) (place : Position) : Stylesheet :=
  ⟨[.block [] 0 1 (.ruleSet [dot, name]) (opening place) [] [] (some (closing place))], []⟩

/-- A class with a capital. -/
def capital : Text := ".Foo\x7b\x7d".toList

/-- Its name. -/
def foo : Token := ⟨.ident, "Foo".toList, ⟨⟨1, 1, 2⟩, ⟨4, 1, 5⟩⟩⟩

theorem ofText_capital : ofText capital = [dot, foo, opening ⟨4, 1, 5⟩, closing ⟨4, 1, 5⟩] := by
  cbv

theorem parse_capital : Parse.ofText capital = ⟨sheetOf foo ⟨4, 1, 5⟩, []⟩ := by cbv

/-- A class with a digit behind an underscore. -/
def numbered : Text := "._1\x7b\x7d".toList

/-- Its name. -/
def one : Token := ⟨.ident, "_1".toList, ⟨⟨1, 1, 2⟩, ⟨3, 1, 4⟩⟩⟩

theorem ofText_numbered : ofText numbered = [dot] ++ one :: [opening ⟨3, 1, 4⟩, closing ⟨3, 1, 4⟩] := by
  cbv

theorem parse_numbered : Parse.ofText numbered = ⟨sheetOf one ⟨3, 1, 4⟩, []⟩ := by cbv

end Naming

/-- **A class with a capital** gets the small letter, and nothing else changes. -/
theorem class_renamed_iff_capital :
    let source := Naming.capital
    ∃ f ∈ check Naming.isPlain source (Parse.ofText source).sheet, ∃ fix out,
      (Parse.ofText source).isOk = true ∧ f.fix = some fix
        ∧ Edit.applyAll? source fix.edits = some out
        ∧ ∃ front back, ofText source = front ++ Naming.dot :: Naming.foo :: back
          ∧ ∃ new : Token, new.kind = .ident ∧ Naming.isPlain new.text = true
            ∧ (ofText out).map Token.bare = (front ++ Naming.dot :: new :: back).map Token.bare := by
  intro source
  have hok : (Parse.ofText source).isOk = true := congrArg Parse.isOk Naming.parse_capital
  obtain ⟨f, fix, hf, hfix⟩ : ∃ f fix, f ∈ check Naming.isPlain source (Parse.ofText source).sheet
      ∧ f.fix = some fix := by
    rw [show Parse.ofText source = _ from Naming.parse_capital]
    exact ⟨_, _, List.mem_singleton.mpr rfl, rfl⟩
  obtain ⟨front, dot, name, back, out, hsource, hdot, hkind, -, -, -, happly, hiff⟩ :=
    class_renamed_iff source hok Naming.isPlain hf hfix
  have hmem : dot ∈ ofText source ∧ name ∈ ofText source := by simp [hsource]
  rw [show ofText source = _ from Naming.ofText_capital] at hmem
  -- there is only one dot and one name
  have hdot : dot = Naming.dot := by
    have hother : ∀ t ∈ [Naming.dot, Naming.foo, Naming.opening ⟨4, 1, 5⟩, Naming.closing ⟨4, 1, 5⟩],
      t.isPunct '.' = true → t = Naming.dot := by decide
    exact hother dot hmem.1 hdot
  have hname : name = Naming.foo := by
    have hother : ∀ t ∈ [Naming.dot, Naming.foo, Naming.opening ⟨4, 1, 5⟩, Naming.closing ⟨4, 1, 5⟩],
      t.kind = .ident → t = Naming.foo := by decide
    exact hother name hmem.2 hkind
  subst hdot hname
  have hurl : Text.eqIgnoreCase (kebab Naming.foo.text) "url".toList = false := by decide
  obtain ⟨new, hnew⟩ := hiff.mpr ⟨⟨by decide, by decide⟩, fun hopens => by
    rw [hopens.1] at hurl
    cases hurl⟩
  exact ⟨f, hf, fix, out, hok, hfix, happly, front, back, hsource, new, hnew⟩

/-- **A name that becomes a part of a number.** With the only fix there is, the dot and the name are one
token. -/
theorem class_becomes_number :
    let source := Naming.numbered
    ∃ f ∈ check Naming.isPlain source (Parse.ofText source).sheet, ∃ fix out,
      (Parse.ofText source).isOk = true ∧ f.fix = some fix
        ∧ Edit.applyAll? source fix.edits = some out
        ∧ (ofText source).map Token.text = [['.'], ['_', '1'], ['\x7b'], ['\x7d']]
        ∧ (ofText out).map Token.text = [['.', '1'], ['\x7b'], ['\x7d']]
        ∧ ¬ ∃ front name back new, ofText source = front ++ name :: back
          ∧ (ofText out).map Token.bare = (front ++ new :: back).map Token.bare := by
  intro source
  have hok : (Parse.ofText source).isOk = true := congrArg Parse.isOk Naming.parse_numbered
  obtain ⟨f, hf, hfix⟩ : ∃ f ∈ check Naming.isPlain source (Parse.ofText source).sheet,
      f.fix = some (.replace "Rename to `.1`" 1 3 ['1']) := by
    rw [show Parse.ofText source = _ from Naming.parse_numbered]
    exact ⟨_, List.mem_singleton.mpr rfl, rfl⟩
  have hout : (ofText ".1\x7b\x7d".toList).map Token.text = [['.', '1'], ['\x7b'], ['\x7d']] := by cbv
  refine ⟨f, hf, _, _, hok, hfix, Edit.applyAll?_token Naming.ofText_numbered _,
    congrArg (List.map Token.text) Naming.ofText_numbered, hout, ?_⟩
  rintro ⟨front, name, back, new, hsource, hbare⟩
  have hlength := congrArg List.length hbare
  have hold := congrArg List.length (hsource.symm.trans Naming.ofText_numbered)
  have hnew := congrArg List.length hout
  simp only [List.length_map, List.length_append, List.length_cons, List.length_nil] at hlength hold hnew
  have hthree := hlength.symm.trans hnew
  omega

end SelectorNaming

end SheetLint
