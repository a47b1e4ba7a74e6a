import SheetLint.Proofs.Token.Seams

/-!
# Other tokens in the place of some

Tokens are read off their text and what stands behind it, so other tokens may take the place of some
when two things are right: they are read themselves, and their text offers those in front of them no
more than the old text did. A first character in common is all that this takes, for most characters,
and so is a first letter.

Results:
* `Scan.TakesPlace.of_cons`, `Scan.TakesPlace.of_isNameStart`, `Scan.TakesPlace.of_isQuote`: texts
  that may take the place of others.
* `Tokens.Legible.replaced`: other tokens behind some.
-/

namespace SheetLint

open Scan

namespace Scan

variable {s s' : Text} {c d : Char}

/-- Whether a text may stand in the place of another one, behind any tokens: it offers no more, and
where that one ends whitespace or a line it does so, too. -/
structure TakesPlace (s s' : Text) : Prop where
  offers : OffersNoMore s s'
  digits : OffersNoDigits s s'
  name : OffersNoName s s'
  space : startsWith isSpace s = false → startsWith isSpace s' = false
  line : s = [] ∨ startsWith isLineBreak s = true → s' = [] ∨ startsWith isLineBreak s' = true

theorem StartsLike.takesPlace (h : StartsLike s s') : TakesPlace s s' := by
  refine ⟨h.offers, h.digits, h.name, (startsWith_eq_of_head? h.head).trans, fun hline => ?_⟩
  rwa [startsWith_eq_of_head? h.head, ← List.head?_eq_none_iff, h.head, List.head?_eq_none_iff]

theorem TakesPlace.append (h : TakesPlace s s') (u : Text) : TakesPlace (u ++ s) (u ++ s') := by
  cases u with
  | nil => exact h
  | cons c u =>
    refine ⟨h.offers.append _, h.digits.append _, .append h.offers h.name _, id, fun hline => ?_⟩
    exact .inr (hline.resolve_left (List.cons_ne_nil c _))

/-- A first character in common, no matter what is behind it. -/
theorem TakesPlace.of_cons (hspace : isSpace c = false) (hc : c ∉ ['(', '.', '-', '\\'])
    (s s' : Text) : TakesPlace (c :: s) (c :: s') := by
  have hne {d : Char} (hd : d ∈ ['(', '.', '-', '\\']) : c ≠ d := by
    rintro rfl
    exact hc hd
  refine StartsLike.takesPlace ⟨.of_cons hspace (hne (by decide)) s s',
    .of_cons (hne (by decide)) s s', ⟨?_, ?_⟩, rfl⟩
  · simp [startsName, hne (d := '-') (by decide), hne (d := '\\') (by decide)]
  · simp [startsName]

/-- First characters that start a name, no matter what is behind them. -/
theorem TakesPlace.of_isNameStart (hc : isNameStart c = true) (hd : isNameStart d = true)
    (s s' : Text) : TakesPlace (c :: s) (d :: s') := by
  have hc' {x : Char} (hx : isNameStart x = false) : c ≠ x := ne_of_isNameStart hc hx
  have hd' {x : Char} (hx : isNameStart x = false) : d ≠ x := ne_of_isNameStart hd hx
  have hspace : isSpace c = false := isSpace_of_isNameStart hc
  have hspace' : isSpace d = false := isSpace_of_isNameStart hd
  have hquote : isQuote c = false := by simp [isQuote, hc' (x := '"') rfl, hc' (x := '\'') rfl]
  have hquote' : isQuote d = false := by simp [isQuote, hd' (x := '"') rfl, hd' (x := '\'') rfl]
  have hchar : isNameChar c = true := by simp [isNameChar, hc]
  refine ⟨⟨⟨⟨fun _ => hc, ?_, ?_, ?_⟩, ?_⟩, ?_⟩, ⟨fun _ => hchar, ?_, ?_⟩, ⟨?_, ?_⟩, fun _ => hspace', ?_⟩
  · simp [startsName, hc]
  · intro x hx hhead
    refine absurd (Option.some.inj hhead) (hd' ?_)
    simp only [List.mem_cons, List.not_mem_nil, or_false] at hx
    rcases hx with rfl | rfl | rfl | rfl | rfl <;> rfl
  · exact fun rest hrest => absurd (List.cons.inj hrest).1 (hd' rfl)
  · exact fun hhead => absurd (Option.some.inj hhead) (hc' rfl)
  · simp [hspace, hspace', startsWith, hquote, hquote']
  · simp [startsWith, isDigit_of_isNameStart hd]
  · simp [startsMagnitude, isDigit_of_isNameStart hd, hd' (x := '.') rfl]
  · simp [startsName, hc, hc' (x := '-') rfl, hc' (x := '\\') rfl]
  · simp [startsName, hc' (x := '\n') rfl]
  · simp [startsWith, isLineBreak, hc' (x := '\n') rfl, hc' (x := '\r') rfl]

/-- First characters that open a string, no matter what is behind them. -/
theorem TakesPlace.of_isQuote (hc : isQuote c = true) (hd : isQuote d = true) (s s' : Text) :
    TakesPlace (c :: s) (d :: s') := by
  have hc' : c = '"' ∨ c = '\'' := by simpa [isQuote] using hc
  have hd' : d = '"' ∨ d = '\'' := by simpa [isQuote] using hd
  have hstart : isNameStart d = false := by rcases hd' with rfl | rfl <;> rfl
  have hdash : d ≠ '-' := by rcases hd' with rfl | rfl <;> decide
  have hescape : d ≠ '\\' := by rcases hd' with rfl | rfl <;> decide
  have hdot : d ≠ '.' := by rcases hd' with rfl | rfl <;> decide
  have hdigit : d.isDigit = false := by rcases hd' with rfl | rfl <;> rfl
  have hspace : isSpace c = false ∧ isSpace d = false := by
    constructor
    · rcases hc' with rfl | rfl <;> rfl
    · rcases hd' with rfl | rfl <;> rfl
  refine ⟨⟨.of_head ?_ hstart hdash hescape ?_ s', ?_⟩, ⟨?_, ?_, ?_⟩, ⟨?_, ?_⟩, fun _ => hspace.2, ?_⟩
  · rcases hc' with rfl | rfl <;> simp
  · rcases hd' with rfl | rfl <;> simp
  · simp [hspace, startsWith, hc, hd]
  · simp [startsWith, isNameChar, hstart, hdigit, hdash]
  · simp [startsWith, hdigit]
  · simp [startsMagnitude, hdigit, hdot]
  · simp [startsName, hstart, hdash, hescape]
  · rcases hc' with rfl | rfl <;> simp [startsName]
  · rcases hc' with rfl | rfl <;> simp [startsWith, isLineBreak]

end Scan

variable {t : Token} {s s' : Text}

theorem Token.ReadsBefore.of_takesPlace (h : t.ReadsBefore s) (herror : t.kind ≠ .error)
    (hplace : TakesPlace s s') : t.ReadsBefore s' :=
  h.of_offers herror hplace.offers hplace.name (fun _ => hplace.digits)
    (fun hkind => hplace.space (h.space hkind)) fun hkind => hplace.line (h.line hkind)

/-- **Other tokens behind some**, the text of which may stand in the place of the old one. -/
theorem Tokens.Legible.replaced {front ts ts' : List Token} (h : Legible (front ++ ts))
    (herror : ∀ t ∈ front, t.kind ≠ .error) (hback : Legible ts')
    (hplace : TakesPlace (text ts) (text ts')) : Legible (front ++ ts') := by
  induction front with
  | nil => exact hback
  | cons t front ih =>
    rw [List.forall_mem_cons] at herror
    have hfirst : t.ReadsBefore (text front ++ text ts) := by
      rw [← text_append]
      exact h.1
    refine ⟨?_, ih h.2 herror.2⟩
    change t.ReadsBefore (text (front ++ ts'))
    rw [text_append]
    exact hfirst.of_takesPlace herror.1 (hplace.append (text front))

end SheetLint
