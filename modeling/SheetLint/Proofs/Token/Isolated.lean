import SheetLint.Proofs.Token.Terminators

/-!
# Tokens read by themselves

A token is decided by its own text and by what does not go on with it. So it is read the same where
nothing stands behind it: the end of a text offers no token anything to go on with. An error is one
because its line or the text ends without what would close it, and both are still so. There is one
exception. A dash starts a name when a backslash stands behind it, whatever the backslash escapes, but
the name goes on with a backslash only if it escapes something. In front of one that does not, at the
end of a line or of the text, the name is the dash alone, and alone the dash is punctuation.

Results:
* `Token.ReadsBefore.alone`: a token without the exception.
* `Token.ReadsBefore.behind_bareDash`: what stands behind the exception.
* `Tokens.isolated_of_ofText`: the tokens of a text.
-/

namespace SheetLint

namespace Scan

variable {c q : Char} {k : TokenKind} {s t u w : Text}

/-! ## The end of a text -/

/-- The end of a text offers nothing. -/
theorem OffersNothingNew.nil (s : Text) : OffersNothingNew s [] :=
  ⟨nofun, nofun, nofun, nofun⟩

theorem OffersNoDigits.nil (s : Text) : OffersNoDigits s [] := ⟨nofun, nofun, nofun⟩

/-- A token that is no error, at the end of a text. -/
theorem kindAndLength_alone (hscan : kindAndLength c (w ++ s) = (k, w.length + 1)) (herror : k ≠ .error)
    (hdash : isBareDash k (c :: w) = false) : kindAndLength c w = (k, w.length + 1) := by
  have hoffers := kindAndLength_offers hscan herror (.nil s)
    (fun h => by rw [hdash] at h; cases h) (fun _ => .nil s) (fun _ => rfl) (fun _ => .inl rfl)
    fun _ => rfl
  rw [List.append_nil] at hoffers
  exact hoffers.resolve_right fun hgoes => nomatch hgoes.2.1

/-! ## Errors at the end of a text -/

/-- A string that its line ends is ended by the text. -/
theorem stringTail_alone (h : stringTail q (u ++ s) = (.error, u.length)) :
    stringTail q u = (.error, u.length) := by
  fun_induction stringTail q u with
  | case1 | case2 => rfl
  | case3 c cs tail ih =>
    obtain ⟨hkind, hlength⟩ := Prod.mk.inj h
    have hbehind := ih (Prod.ext hkind (Nat.add_right_cancel hlength))
    exact congrArg (fun tail : TokenKind × Nat => (tail.1, tail.2 + 2)) hbehind
  | case4 c cs hone hescape hbreak =>
    rw [List.cons_append, stringTail_cons (ne_backslash_of_not_escape hone hescape), if_pos hbreak] at h
    cases h
  | case5 cs hone hescape hbreak =>
    rw [List.cons_append, stringTail_cons (ne_backslash_of_not_escape hone hescape), if_neg hbreak,
      if_pos rfl] at h
    cases h
  | case6 c cs hone hescape hbreak hquote tail ih =>
    rw [List.cons_append, stringTail_cons (ne_backslash_of_not_escape hone hescape), if_neg hbreak,
      if_neg hquote] at h
    obtain ⟨hkind, hlength⟩ := Prod.mk.inj h
    have hbehind := ih (Prod.ext hkind (Nat.succ.inj hlength))
    exact congrArg (fun tail : TokenKind × Nat => (tail.1, tail.2 + 1)) hbehind

theorem urlTail_alone (h : urlTail (u ++ s) = (.error, u.length)) : urlTail u = (.error, u.length) := by
  induction u with
  | nil => rfl
  | cons c u ih =>
    rw [List.cons_append, urlTail] at h
    split_ifs at h with hclose hline
    · cases h
    · cases h
    · obtain ⟨hkind, hlength⟩ := Prod.mk.inj h
      have hbehind := ih (Prod.ext hkind (Nat.succ.inj hlength))
      rw [urlTail, if_neg hclose, if_neg hline, hbehind]
      rfl

/-- An `url(` that its line ends is ended by the text. -/
theorem nameOrUrl_alone (h : nameOrUrl (u ++ s) = (.error, u.length)) :
    nameOrUrl u = (.error, u.length) := by
  obtain ⟨name, body, rfl, hurl, hname, hquote, htail⟩ :=
    exists_body_of_nameOrUrl (by rw [h]; simp) (congrArg Prod.snd h)
  rw [h] at htail
  simp only [List.append_assoc, List.cons_append] at hname
  rw [nameOrUrl_url (nameLength_before_paren hname _) hurl ?_, urlTail_alone htail]
  · rw [List.length_append, List.length_cons]
    exact congrArg (Prod.mk _) (by omega)
  · -- a quote behind the spaces would be one in front of what stood there
    by_cases hblank : body.dropWhile isSpace = []
    · rw [hblank]
      rfl
    · rw [List.dropWhile_append, if_neg (mt List.isEmpty_iff.mp hblank), startsWith_append hblank]
        at hquote
      exact hquote

/-- A character that starts nothing starts nothing at the end of a text. -/
theorem standsAlone_nil (hspace : ¬ isSpace c = true) (hquote : ¬ (c = '"' || c = '\'') = true)
    (hmagnitude : ¬ startsMagnitude (c :: t) = true) (hname : ¬ startsName (c :: t) = true) :
    StandsAlone c [] where
  space := Bool.eq_false_iff.mpr hspace
  slash _ := ⟨nofun, nofun⟩
  quote := by simpa using hquote
  mark _ := rfl
  hash _ := ⟨nofun, rfl⟩
  magnitude := by
    by_cases hdot : c = '.'
    · subst hdot
      rfl
    · simpa [startsMagnitude, hdot] using hmagnitude
  dash _ := rfl
  name := by
    by_cases hc : c = '-' ∨ c = '\\'
    · rcases hc with rfl | rfl <;> rfl
    · rw [not_or] at hc
      simpa [startsName, hc.1, hc.2] using hname

/-- **An error at the end of a text.** -/
theorem kindAndLength_error_alone (hscan : kindAndLength c (w ++ s) = (.error, w.length + 1)) :
    kindAndLength c w = (.error, w.length + 1) := by
  have hwhole := hscan
  revert hscan
  fun_cases kindAndLength c (w ++ s) with
  | case4 | case9 =>
    -- what is open takes the whole text
    intro hscan
    have hlength := Nat.succ.inj (Prod.mk.inj hscan).2
    have hs : s = [] := List.length_eq_zero_iff.mp (by rw [List.length_append] at hlength; omega)
    rwa [hs, List.append_nil] at hwhole
  | case5 _ _ _ hquote tail =>
    intro hscan
    obtain ⟨hkind, hlength⟩ := Prod.mk.inj hscan
    have hq : isQuote c = true := by simpa [isQuote] using hquote
    rw [kindAndLength_quote hq, stringTail_alone (Prod.ext hkind (Nat.succ.inj hlength))]
  | case13 _ _ _ _ _ _ _ _ _ _ hname =>
    intro hscan
    have hread := nameOrUrl_alone (u := c :: w) hscan
    obtain ⟨name, inside, hcut, hurl, -⟩ :=
      exists_url_of_nameOrUrl (t := c :: w) (by rw [hread]; simp)
    rw [kindAndLength_of_startsName (hcut ▸ startsName_of_url hurl _), hread]
    rfl
  | case16 hspace _ _ hquote _ _ _ _ hmagnitude _ hname hcombinator hpunct =>
    intro hscan
    obtain rfl : w = [] := List.length_eq_zero_iff.mp (Nat.succ.inj (Prod.mk.inj hscan).2).symm
    rw [(standsAlone_nil hspace hquote hmagnitude hname).kindAndLength_eq]
    have hcombinator' : ¬ (c = '>' ∨ c = '+' ∨ c = '~') := by simpa [or_assoc] using hcombinator
    rw [kindAlone, if_neg hcombinator', if_neg hpunct]
    rfl
  | case1 | case2 | case3 | case6 | case7 | case8 | case10 | case11 | case12 | case14 | case15 =>
    intro hscan
    cases hscan

/-! ## The exception -/

/-- A mark in front of what starts no name is punctuation. -/
theorem kindAndLength_mark_alone (hc : c = '@' ∨ c = '$') (h : startsName t = false) :
    kindAndLength c t = (.punct, 1) := by
  have halone : StandsAlone c t := by
    rcases hc with rfl | rfl <;>
      exact ⟨rfl, nofun, by decide, fun _ => h, nofun, by cases t <;> rfl, nofun, by cases t <;> rfl⟩
  rw [halone.kindAndLength_eq]
  rcases hc with rfl | rfl <;> rfl

/-- **What stands behind a dash that is a name by itself**: a backslash that escapes nothing. -/
theorem behind_dash (hname : startsName ('-' :: s) = true) (hlength : nameLength ('-' :: s) = 1) :
    s = ['\\'] ∨ ∃ rest, s = '\\' :: '\n' :: rest := by
  obtain ⟨rest, rfl⟩ := List.head?_eq_some_iff.mp (head?_of_dash hname hlength)
  cases rest with
  | nil => exact .inl rfl
  | cons x rest =>
    by_cases hx : x = '\n'
    · exact .inr ⟨rest, by rw [hx]⟩
    · have hdash : isNameChar '-' = true := by decide
      simp [nameLength_cons, nameLength, hdash, hx] at hlength

end Scan

open Scan

namespace Token

variable {t : Token} {s : Text}

/-- Whether a token is a name only because a backslash stands behind its dash. -/
def isBareDash (t : Token) : Bool := Scan.isBareDash t.kind t.text

theorem isBareDash_iff : t.isBareDash = true ↔ t.kind = .ident ∧ t.text = ['-']
    ∨ t.kind = .atKeyword ∧ t.text = ['@', '-'] ∨ t.kind = .variable ∧ t.text = ['$', '-'] := by
  unfold isBareDash Scan.isBareDash
  cases t.kind <;> simp

/-- **A token by itself**, if it is not the exception. -/
theorem ReadsBefore.alone (h : t.ReadsBefore s) (hdash : t.isBareDash = false) : t.ReadsBefore [] := by
  obtain ⟨c, w, htext, hscan⟩ := h
  refine ⟨c, w, htext, ?_⟩
  rw [List.append_nil]
  by_cases herror : t.kind = .error
  · rw [herror] at hscan ⊢
    exact kindAndLength_error_alone hscan
  · rw [isBareDash, htext] at hdash
    exact kindAndLength_alone hscan herror hdash

theorem ReadsBefore.behind_bareDash (h : t.ReadsBefore s) (hdash : t.isBareDash = true) :
    s = ['\\'] ∨ ∃ rest, s = '\\' :: '\n' :: rest := by
  obtain ⟨c, w, htext, hscan⟩ := h
  have hmark (hc : c = '@' ∨ c = '$') (hw : w = ['-']) (hkind : t.kind ≠ .punct) :
      s = ['\\'] ∨ ∃ rest, s = '\\' :: '\n' :: rest := by
    subst hw
    have hname : startsName ('-' :: s) = true := by
      by_contra hnone
      rw [List.singleton_append, kindAndLength_mark_alone hc (Bool.eq_false_iff.mpr hnone)] at hscan
      exact hkind (Prod.mk.inj hscan).1.symm
    have hlength := kindAndLength_mark hc hname
    rw [← List.singleton_append, hscan] at hlength
    exact behind_dash hname (Nat.succ.inj hlength).symm
  rcases isBareDash_iff.mp hdash with ⟨hkind, hdash⟩ | ⟨hkind, hdash⟩ | ⟨hkind, hdash⟩
  · rw [htext, List.cons.injEq] at hdash
    obtain ⟨rfl, rfl⟩ := hdash
    rw [hkind] at hscan
    exact behind_dash (nameOrUrl_of_ident hscan).1 (nameLength_of_ident hscan)
  · rw [htext, List.cons.injEq] at hdash
    exact hmark (.inl hdash.1) hdash.2 (by rw [hkind]; decide)
  · rw [htext, List.cons.injEq] at hdash
    exact hmark (.inr hdash.1) hdash.2 (by rw [hkind]; decide)

end Token

namespace Tokens

variable {before after : List Token} {k : Token}

/-- The exception by itself is punctuation. -/
theorem ofText_bareDash (h : k.isBareDash = true) :
    (ofText k.text).map Token.bare = k.text.map fun c => ⟨.punct, [c], default⟩ := by
  rcases Token.isBareDash_iff.mp h with ⟨-, htext⟩ | ⟨-, htext⟩ | ⟨-, htext⟩ <;> rw [htext]
  · exact (by cbv : (ofText ['-']).map Token.bare = _)
  · exact (by cbv : (ofText ['@', '-']).map Token.bare = _)
  · exact (by cbv : (ofText ['$', '-']).map Token.bare = _)

/-- **Tokens by themselves.** The text of a token of a text, read alone, is that token, unless the token
is a name only because a backslash stands behind its dash. Such a token stands in front of a backslash
that escapes nothing, since the text or the line ends behind it, and alone its characters are
punctuation. -/
theorem isolated_of_ofText {source : Text} (h : ofText source = before ++ k :: after) :
    ((ofText k.text).map Token.bare = [k.bare] ↔ k.isBareDash = false)
      ∧ (k.isBareDash = true → (text after = ['\\'] ∨ ∃ rest, text after = '\\' :: '\n' :: rest)
        ∧ (ofText k.text).map Token.bare = k.text.map fun c => ⟨.punct, [c], default⟩) := by
  have hreads : k.ReadsBefore (text after) := Legible.readsBefore (h ▸ legible_ofText source)
  refine ⟨⟨fun halone => Bool.eq_false_iff.mpr fun hdash => ?_, fun hdash => ?_⟩,
    fun hdash => ⟨hreads.behind_bareDash hdash, ofText_bareDash hdash⟩⟩
  · rw [ofText_bareDash hdash] at halone
    have hone : k.text.length = 1 := by simpa using congrArg List.length halone
    rcases Token.isBareDash_iff.mp hdash with ⟨hkind, htext⟩ | ⟨-, htext⟩ | ⟨-, htext⟩ <;>
      rw [htext] at halone hone
    · have hpunct : TokenKind.punct = k.kind := congrArg Token.kind (List.cons.inj halone).1
      rw [hkind] at hpunct
      cases hpunct
    · cases hone
    · cases hone
  · have hlegible : Legible [k] := ⟨hreads.alone hdash, trivial⟩
    have hwhole := (legible_iff .start).mp hlegible
    rwa [text_cons, text_nil, List.append_nil] at hwhole

namespace Dash

/-- A dash in front of a backslash at the end of the text. -/
def source : Text := ['-', '\\']

/-- The dash. -/
def dash : Token := ⟨.ident, ['-'], ⟨⟨0, 1, 1⟩, ⟨1, 1, 2⟩⟩⟩

/-- The backslash. -/
def backslash : Token := ⟨.punct, ['\\'], ⟨⟨1, 1, 2⟩, ⟨2, 1, 3⟩⟩⟩

theorem ofText_source : ofText source = [] ++ dash :: [backslash] := by cbv

end Dash

/-- The backslash is a token by itself, the dash in front of it is not. -/
theorem isolated_backslash : ofText Dash.source = [Dash.dash] ++ Dash.backslash :: []
    ∧ (ofText Dash.backslash.text).map Token.bare = [Dash.backslash.bare]
    ∧ (ofText Dash.dash.text).map Token.bare ≠ [Dash.dash.bare] := by
  have hbackslash : ofText Dash.source = [Dash.dash] ++ Dash.backslash :: [] := Dash.ofText_source
  refine ⟨hbackslash, (isolated_of_ofText hbackslash).1.mpr rfl, fun hdash => ?_⟩
  have hbare := (isolated_of_ofText Dash.ofText_source).1.mp hdash
  exact absurd hbare (by decide)

/-- **Not every token is read off its text alone.** -/
theorem exists_not_isolated : ¬ ∀ source : Text, ∀ k ∈ ofText source,
    (ofText k.text).map Token.bare = [k.bare] := by
  intro h
  have hdash := h Dash.source Dash.dash (by rw [Dash.ofText_source]; simp)
  have halone : (ofText Dash.dash.text).map Token.bare = [⟨.punct, ['-'], default⟩] :=
    ofText_bareDash rfl
  rw [halone] at hdash
  exact absurd (List.cons.inj hdash).1 (by decide)

end Tokens

end SheetLint
