import SheetLint.Proofs.Token.Legible

/-!
# Semicolons behind tokens

A semicolon that is put behind a token, in front of whitespace, a closing brace or the end of the
text, is read as such, and no token changes, unless it stands behind a line comment, which goes on
with it, or behind a backslash, which escapes it.

Results:
* `Tokens.legible_withSemicolons_iff`: when a text with semicolons behind some tokens is read as
  that.
-/

namespace SheetLint

open Scan

/-- A semicolon. -/
def Token.semicolon : Token := ⟨.punct, [';'], default⟩

/-- A token, and a semicolon behind it if it is flagged. -/
def Token.withSemicolon (flag : Token → Bool) (t : Token) : List Token :=
  t :: if flag t then [semicolon] else []

theorem Token.readsBefore_semicolon (s : Text) : semicolon.ReadsBefore s :=
  readsBefore_mark (by decide) default s

/-- Whether a text goes on with whitespace and a closing brace, or ends with whitespace. -/
def Text.Closes (s : Text) : Prop := ∀ c ∈ (s.dropWhile isSpace).head?, c = '\x7d'

namespace Scan

variable {s s' u : Text} {c : Char}

/-- A semicolon in front of the end of a block offers nothing. -/
theorem offers_semicolon (hs : s.Closes) (s' : Text) :
    OffersNoMore s (';' :: s') ∧ OffersNoDigits s (';' :: s') := by
  have hfirst : s.head? ≠ some '\\' := by
    intro h
    obtain ⟨rest, rfl⟩ := List.head?_eq_some_iff.mp h
    have := hs '\\' rfl
    cases this
  have hquote : startsWith isQuote (s.dropWhile isSpace) = false := by
    cases hrest : s.dropWhile isSpace with
    | nil => rfl
    | cons c rest =>
      have hbrace := hs c (by rw [hrest]; rfl)
      rw [hbrace]
      rfl
  exact ⟨.of_isBar hfirst rfl hquote.symm, .of_isBar rfl s s'⟩

/-- What stands in front of a semicolon behind a token starts like the token. -/
theorem StartsLike.of_semicolon (hs : s.Closes) (hne : u ≠ []) (hlone : u ≠ ['\\']) (s' : Text) :
    StartsLike (u ++ s) (u ++ ';' :: s') := by
  obtain ⟨hoffers, hdigits⟩ := offers_semicolon hs s'
  obtain ⟨c, w, rfl⟩ := List.exists_cons_of_ne_nil hne
  refine ⟨hoffers.append _, hdigits.append _, ?_, rfl⟩
  cases w with
  | nil => exact .of_cons hoffers.toOffersNoMoreHere fun hc => hlone (by rw [hc])
  | cons x w => exact ⟨(startsName_cons_cons c x _ _).trans, id⟩

end Scan

namespace Token

variable {t : Token} {s s' : Text}

/-- **The tokens that are read in front of a semicolon** where they are read in front of the end of a
block. -/
theorem ReadsBefore.semicolon_iff (h : t.ReadsBefore s) (herror : t.kind ≠ .error)
    (hs : s.Closes) (s' : Text) : t.ReadsBefore (';' :: s') ↔ t.isUnending = false := by
  rw [isUnending, Bool.or_eq_false_iff, beq_eq_false_iff_ne, beq_eq_false_iff_ne]
  constructor
  · intro hreads
    refine ⟨fun hkind => ?_, fun hlone => ?_⟩
    · rcases hreads.line hkind with hnil | hbreak
      · cases hnil
      · cases hbreak
    · have hnone := hreads.lone hlone
      cases hnone
  · rintro ⟨hline, hlone⟩
    obtain ⟨hoffers, hdigits⟩ := offers_semicolon hs s'
    refine (h.or_goesOn herror hoffers.toOffersNoMoreHere (fun _ => hdigits) (fun _ => rfl)
      (fun hkind => absurd hkind hline) fun htext => absurd htext hlone).resolve_right ?_
    rintro ⟨c, w, -, -, hname, -⟩
    cases hname

end Token

namespace Tokens

variable {flag : Token → Bool} {ts : List Token}

theorem text_withSemicolon (t : Token) (ts : List Token) :
    text ((t :: ts).flatMap (Token.withSemicolon flag)) =
      t.text ++ ((if flag t then [';'] else []) ++ text (ts.flatMap (Token.withSemicolon flag))) := by
  rw [List.flatMap_cons, text_append, Token.withSemicolon, text_cons, List.append_assoc]
  split <;> rfl

/-- Semicolons at the ends of blocks change nothing, where they are not swallowed. -/
theorem legible_withSemicolons (h : Legible ts) (herror : ∀ t ∈ ts, t.kind ≠ .error)
    (hcloses : ∀ front t back, ts = front ++ t :: back → flag t = true → (text back).Closes)
    (hends : ∀ t ∈ ts, flag t = true → t.isUnending = false) :
    Legible (ts.flatMap (Token.withSemicolon flag))
      ∧ StartsLike (text ts) (text (ts.flatMap (Token.withSemicolon flag))) := by
  induction ts with
  | nil => exact ⟨trivial, .refl []⟩
  | cons p ts ih =>
    obtain ⟨hreads, hlater⟩ := h
    rw [List.forall_mem_cons] at herror hends
    obtain ⟨hlegible, hlike⟩ := ih hlater herror.2
      (fun front t back hsplit => hcloses (p :: front) t back (by rw [hsplit]; rfl)) hends.2
    rw [text_withSemicolon, List.flatMap_cons, Token.withSemicolon, text_cons]
    cases hflag : flag p with
    | false => exact ⟨⟨hreads.of_startsLike herror.1 hlike, hlegible⟩, hlike.append p.text⟩
    | true =>
      have hs := hcloses [] p ts rfl hflag
      have hend := hends.1 hflag
      have hlone : p.text ≠ ['\\'] := by
        intro hlone
        simp [Token.isUnending, hlone] at hend
      exact ⟨⟨(hreads.semicolon_iff herror.1 hs _).mpr hend, Token.readsBefore_semicolon _, hlegible⟩,
        .of_semicolon hs hreads.ne_nil hlone _⟩

/-- **When a text with semicolons behind some tokens is read as that**: none of these tokens goes on
with the semicolon. -/
theorem legible_withSemicolons_iff (h : Legible ts) (herror : ∀ t ∈ ts, t.kind ≠ .error)
    (hcloses : ∀ front t back, ts = front ++ t :: back → flag t = true → (text back).Closes) :
    Legible (ts.flatMap (Token.withSemicolon flag))
      ↔ ∀ t ∈ ts, flag t = true → t.isUnending = false := by
  refine ⟨fun hnew t ht hflag => ?_,
    fun hends => (legible_withSemicolons h herror hcloses hends).1⟩
  obtain ⟨front, back, rfl⟩ := List.append_of_mem ht
  have hreads : t.ReadsBefore (';' :: text (back.flatMap (Token.withSemicolon flag))) := by
    rw [List.flatMap_append, List.flatMap_cons, Token.withSemicolon, if_pos hflag] at hnew
    exact hnew.of_append.1
  have hcloses := hcloses front t back rfl hflag
  exact (h.readsBefore.semicolon_iff (herror t ht) hcloses _).mp hreads

end Tokens

end SheetLint
