import SheetLint.Proofs.Token.Legible

/-!
# Reading texts in lower case

No scan looks at the case of a letter: the classes of characters hold both letters or none, the marks
that scans look for are no letters, and `url` is compared without regard to case. So a text in lower
case is read as the tokens of the text, in lower case.

Results:
* `Scan.class_toLower`: what tells no letter from the one in the other case.
* `Scan.kindAndLength_lower`: tokens are told apart and end without regard to letter case.
* `Tokens.Legible.lowered_eq`: texts that differ in letter case are read as tokens that do.
-/

namespace SheetLint

open Text (lower)

namespace Scan

variable {c d : Char} {p : Char → Bool}

/-! ## Classes of characters -/

theorem toNat_of_isUpper {c : Char} (hc : c.isUpper = true) : 65 ≤ c.toNat ∧ c.toNat ≤ 90 := by
  simp only [Char.isUpper, decide_eq_true_eq, ge_iff_le, UInt32.le_iff_toNat_le] at hc
  exact hc

/-- What does not tell a letter from the one in the other case does not tell any character from its
lower case. -/
theorem class_toLower {α : Type} [DecidableEq α] {p : Char → α}
    (hp : (List.range 26).all (fun i => p (Char.ofNat (65 + i + 32)) = p (Char.ofNat (65 + i))) = true)
    (c : Char) : p c.toLower = p c := by
  cases hc : c.isUpper with
  | true =>
    have hbounds := toNat_of_isUpper hc
    obtain ⟨i, hi⟩ := Nat.exists_eq_add_of_le hbounds.1
    have hletter := List.all_eq_true.mp hp i (List.mem_range.mpr (by omega))
    rw [decide_eq_true_eq, ← hi, Char.ofNat_toNat] at hletter
    rw [Char.toLower_eq_of_isUpper hc, hletter]
  | false => rw [Char.toLower_eq_of_not_isUpper (Bool.eq_false_iff.mp hc)]

theorem isSpace_toLower (c : Char) : isSpace c.toLower = isSpace c := class_toLower (by decide) c

theorem isLineBreak_toLower (c : Char) : isLineBreak c.toLower = isLineBreak c :=
  class_toLower (by decide) c

theorem isQuote_toLower (c : Char) : isQuote c.toLower = isQuote c := class_toLower (by decide) c

theorem isNameStart_toLower (c : Char) : isNameStart c.toLower = isNameStart c :=
  class_toLower (by decide) c

theorem isNameChar_toLower (c : Char) : isNameChar c.toLower = isNameChar c :=
  class_toLower (by decide) c

theorem isDigit_toLower (c : Char) : c.toLower.isDigit = c.isDigit := class_toLower (by decide) c

theorem isPunctuation_toLower (c : Char) : isPunctuation c.toLower = isPunctuation c :=
  class_toLower (by decide) c

/-- Only a character without letter case is the lower case of just itself. -/
theorem toLower_eq_iff (hd : d.isAlpha = false) : c.toLower = d ↔ c = d := by
  cases hc : c.isUpper with
  | true =>
    have halpha : c.toLower.isAlpha = true := by
      rw [class_toLower (p := Char.isAlpha) (by decide) c, Char.isAlpha, hc, Bool.true_or]
    refine iff_of_false ?_ ?_
    · rintro rfl
      rw [halpha] at hd
      cases hd
    · rintro rfl
      rw [Char.isAlpha, hc] at hd
      cases hd
  | false => rw [Char.toLower_eq_of_not_isUpper (Bool.eq_false_iff.mp hc)]

/-! ## Scans -/

theorem lower_cons (c : Char) (t : Text) : lower (c :: t) = c.toLower :: lower t := rfl

theorem lower_append (t t' : Text) : lower (t ++ t') = lower t ++ lower t' := List.map_append

theorem drop_lower (t : Text) (n : Nat) : (lower t).drop n = lower (t.drop n) := List.map_drop.symm

theorem take_lower (t : Text) (n : Nat) : (lower t).take n = lower (t.take n) := List.map_take.symm

theorem lower_lower (t : Text) : lower (lower t) = lower t := by
  have hcase (c : Char) : c.toLower.toLower = c.toLower := class_toLower (by decide) c
  simp [lower, hcase]

theorem head?_lower (hd : d.isAlpha = false) (t : Text) :
    (lower t).head? = some d ↔ t.head? = some d := by
  cases t with
  | nil => rfl
  | cons c t => simp [lower_cons, toLower_eq_iff hd]

theorem startsWith_lower (hp : ∀ c, p (Char.toLower c) = p c) (t : Text) :
    startsWith p (lower t) = startsWith p t := by
  cases t with
  | nil => rfl
  | cons c t => exact hp c

theorem length_takeWhile_lower (hp : ∀ c, p (Char.toLower c) = p c) (t : Text) :
    ((lower t).takeWhile p).length = (t.takeWhile p).length := by
  rw [lower, List.takeWhile_map, List.length_map, show p ∘ Char.toLower = p from funext hp]

theorem dropWhile_lower (hp : ∀ c, p (Char.toLower c) = p c) (t : Text) :
    (lower t).dropWhile p = lower (t.dropWhile p) := by
  rw [lower, List.dropWhile_map, show p ∘ Char.toLower = p from funext hp, lower]

theorem startsName_cons_eq (c : Char) (t : Text) : startsName (c :: t) =
    if c = '-' then startsWith (fun x => isNameStart x || x == '-' || x == '\\') t
    else if c = '\\' then startsWith (· != '\n') t
    else isNameStart c := by
  split_ifs with hdash hescape
  · subst hdash
    cases t <;> rfl
  · subst hescape
    cases t <;> rfl
  · simp [startsName, hdash, hescape]

theorem startsName_lower (t : Text) : startsName (lower t) = startsName t := by
  cases t with
  | nil => rfl
  | cons c t =>
    have hgoes := class_toLower (p := fun x => isNameStart x || x == '-' || x == '\\') (by decide)
    have hfeed := class_toLower (p := (· != '\n')) (by decide)
    rw [lower_cons, startsName_cons_eq, startsName_cons_eq, startsWith_lower hgoes,
      startsWith_lower hfeed, isNameStart_toLower]
    simp only [toLower_eq_iff (d := '-') rfl, toLower_eq_iff (d := '\\') rfl]

theorem startsMagnitude_cons_eq (c : Char) (t : Text) : startsMagnitude (c :: t) =
    if c = '.' then startsWith Char.isDigit t else c.isDigit := by
  split_ifs with hdot
  · subst hdot
    cases t <;> rfl
  · simp [startsMagnitude, hdot]

theorem startsMagnitude_lower (t : Text) : startsMagnitude (lower t) = startsMagnitude t := by
  cases t with
  | nil => rfl
  | cons c t =>
    rw [lower_cons, startsMagnitude_cons_eq, startsMagnitude_cons_eq, startsWith_lower isDigit_toLower,
      isDigit_toLower]
    simp only [toLower_eq_iff (d := '.') rfl]

theorem nameLength_lower (t : Text) : nameLength (lower t) = nameLength t := by
  have hescape (c : Char) := toLower_eq_iff (c := c) (d := '\\') rfl
  have hfeed (c : Char) := toLower_eq_iff (c := c) (d := '\n') rfl
  fun_induction nameLength t with
  | case1 cs => rfl
  | case2 c cs hc ih =>
    rw [lower_cons, lower_cons, show '\\'.toLower = '\\' from rfl, nameLength,
      if_neg (mt (hfeed c).mp hc), ih]
  | case3 c cs _ hname ih =>
    have hc : c ≠ '\\' := by
      rintro rfl
      cases hname
    rw [lower_cons, nameLength_cons (mt (hescape c).mp hc), isNameChar_toLower, if_pos hname, ih]
  | case4 c cs hplain hname =>
    by_cases hc : c = '\\'
    · subst hc
      cases cs with
      | nil => rfl
      | cons x cs => exact absurd rfl (hplain x cs rfl)
    · rw [lower_cons, nameLength_cons (mt (hescape c).mp hc), isNameChar_toLower, if_neg hname]
  | case5 => rfl

theorem digitsLength_lower (t : Text) : digitsLength (lower t) = digitsLength t :=
  length_takeWhile_lower isDigit_toLower t

theorem magnitudeLength_lower (t : Text) : magnitudeLength (lower t) = magnitudeLength t := by
  have hfraction (t : Text) : fractionLength (lower t) = fractionLength t := by
    cases t with
    | nil => rfl
    | cons c t =>
      by_cases hdot : c = '.'
      · subst hdot
        rw [lower_cons, show '.'.toLower = '.' from rfl, fractionLength, fractionLength,
          startsWith_lower isDigit_toLower, digitsLength_lower]
      · have hdot' := mt (toLower_eq_iff (c := c) (d := '.') rfl).mp hdot
        simp [lower_cons, fractionLength, hdot, hdot']
  rw [magnitudeLength_eq, magnitudeLength_eq, digitsLength_lower, drop_lower, hfraction]

theorem unitLength_lower (t : Text) : unitLength (lower t) = unitLength t := by
  cases t with
  | nil => rfl
  | cons c t =>
    by_cases hpercent : c = '%'
    · subst hpercent
      rfl
    · rw [lower_cons, unitLength_cons (mt (toLower_eq_iff rfl).mp hpercent), unitLength_cons hpercent,
        isNameStart_toLower, ← lower_cons, nameLength_lower]

theorem numberLength_lower (t : Text) : numberLength (lower t) = numberLength t := by
  simp only [numberLength, magnitudeLength_lower, drop_lower, unitLength_lower]

theorem stringTail_lower {quote : Char} (hquote : quote.isAlpha = false) (t : Text) :
    stringTail quote (lower t) = stringTail quote t := by
  have hescape (c : Char) := toLower_eq_iff (c := c) (d := '\\') rfl
  fun_induction stringTail quote t with
  | case1 | case2 => rfl
  | case3 c cs tail ih =>
    rw [lower_cons, lower_cons, show '\\'.toLower = '\\' from rfl, stringTail, ih]
  | case4 c cs hone hmore hbreak =>
    have hc : c ≠ '\\' := by
      rintro rfl
      cases hbreak
    rw [lower_cons, stringTail_cons (mt (hescape c).mp hc), isLineBreak_toLower, if_pos hbreak]
  | case5 cs hone hmore hbreak =>
    have hc : quote ≠ '\\' := ne_backslash_of_not_escape hone hmore
    rw [lower_cons, stringTail_cons (mt (hescape quote).mp hc), isLineBreak_toLower, if_neg hbreak,
      if_pos ((toLower_eq_iff hquote).mpr rfl)]
  | case6 c cs hone hmore hbreak hother tail ih =>
    have hc : c ≠ '\\' := ne_backslash_of_not_escape hone hmore
    rw [lower_cons, stringTail_cons (mt (hescape c).mp hc), isLineBreak_toLower, if_neg hbreak,
      if_neg (mt (toLower_eq_iff hquote).mp hother), ih]

theorem commentTail?_lower (t : Text) : commentTail? (lower t) = commentTail? t := by
  induction t with
  | nil => rfl
  | cons c t ih =>
    rw [lower_cons, commentTail?_cons, commentTail?_cons, ih]
    simp only [toLower_eq_iff (d := '*') rfl, head?_lower (d := '/') rfl]

theorem interpolationTail?_lower (depth : Nat) {quote : Option Char}
    (hquote : ∀ q ∈ quote, isQuote q = true) (t : Text) :
    interpolationTail? depth quote (lower t) = interpolationTail? depth quote t := by
  have houtside : ∀ q ∈ (none : Option Char), isQuote q = true := by simp
  have hlower {c : Char} (hc : c = '"' ∨ c = '\'') : c.toLower = c := by
    rcases hc with rfl | rfl <;> rfl
  fun_induction interpolationTail? depth quote t with
  | case1 | case2 => rfl
  | case3 depth q c cs ih =>
    rw [lower_cons, lower_cons, show '\\'.toLower = '\\' from rfl, interpolationTail?, ih hquote]
  | case4 depth q c cs hone hescape ih =>
    have hc : c ≠ '\\' := ne_backslash_of_not_escape hone hescape
    have hq : q = '"' ∨ q = '\'' := by simpa [isQuote] using hquote q rfl
    have halpha : q.isAlpha = false := by rcases hq with rfl | rfl <;> rfl
    rw [lower_cons, interpolationTail?_quoted depth (mt (toLower_eq_iff rfl).mp hc), ← ih]
    · simp only [toLower_eq_iff halpha]
    · split <;> simp [hquote q rfl]
  | case5 depth c cs hstring ih =>
    rw [lower_cons, hlower hstring, interpolationTail?_bare, if_pos hstring,
      ih (by simpa [isQuote] using hstring)]
  | case6 depth cs hstring ih =>
    rw [lower_cons, show '\x7b'.toLower = '\x7b' from rfl, interpolationTail?_bare, if_neg hstring,
      if_pos rfl, ih houtside]
  | case7 cs hstring hopen => rfl
  | case8 cs d hstring hopen ih =>
    rw [lower_cons, show '\x7d'.toLower = '\x7d' from rfl, interpolationTail?_bare, if_neg hstring,
      if_neg hopen, if_pos rfl]
    simp only [ih houtside]
  | case9 depth c cs hstring hopen hclose ih =>
    have hstring' := mt (Or.imp (toLower_eq_iff rfl).mp (toLower_eq_iff rfl).mp) hstring
    rw [lower_cons, interpolationTail?_bare, if_neg hstring', if_neg (mt (toLower_eq_iff rfl).mp hopen),
      if_neg (mt (toLower_eq_iff rfl).mp hclose), ih houtside]

theorem urlTail_lower (t : Text) : urlTail (lower t) = urlTail t := by
  induction t with
  | nil => rfl
  | cons c t ih =>
    rw [lower_cons, urlTail, urlTail, ih, isLineBreak_toLower]
    simp only [toLower_eq_iff (d := ')') rfl]

theorem nameOrUrl_lower (t : Text) : nameOrUrl (lower t) = nameOrUrl t := by
  have hurl (w : Text) :
      Text.eqIgnoreCase (lower w) "url".toList = Text.eqIgnoreCase w "url".toList := by
    rw [Text.eqIgnoreCase, lower_lower, Text.eqIgnoreCase]
  have hquote (w : Text) : startsWith isQuote (lower w) = startsWith isQuote w :=
    startsWith_lower isQuote_toLower w
  unfold isQuote at hquote
  unfold nameOrUrl
  simp only [nameLength_lower, drop_lower, take_lower, hurl]
  cases t.drop (nameLength t) with
  | nil => rfl
  | cons c back =>
    by_cases hc : c = '('
    · subst hc
      rw [lower_cons, show '('.toLower = '(' from rfl]
      simp only [dropWhile_lower isSpace_toLower, hquote, urlTail_lower]
    · have hc' := mt (toLower_eq_iff (c := c) (d := '(') rfl).mp hc
      rw [lower_cons]
      simp [hc, hc']

/-- **Tokens are told apart and end without regard to letter case.** -/
theorem kindAndLength_lower (c : Char) (t : Text) :
    kindAndLength c.toLower (lower t) = kindAndLength c t := by
  by_cases hquote : c = '"' ∨ c = '\''
  · have hlower : c.toLower = c := by rcases hquote with rfl | rfl <;> rfl
    have halpha : c.isAlpha = false := by rcases hquote with rfl | rfl <;> rfl
    have hc : isQuote c = true := by simpa [isQuote] using hquote
    rw [hlower, kindAndLength_quote hc, kindAndLength_quote hc, stringTail_lower halpha]
  · have hstring : (decide (c = '"') || decide (c = '\'')) = false := by simpa using hquote
    have hline := length_takeWhile_lower (p := (!isLineBreak ·)) (by simp [isLineBreak_toLower])
    have hmark (d : Char) (hd : d.isAlpha = false) : c.toLower = d ↔ c = d := toLower_eq_iff hd
    have hnext (d : Char) (hd : d.isAlpha = false) : (lower t).head? = some d ↔ t.head? = some d :=
      head?_lower hd t
    have hinside : interpolationTail? 0 none (lower (t.drop 1)) = interpolationTail? 0 none (t.drop 1) :=
      interpolationTail?_lower 0 (by simp) _
    have hlength : (lower t).length = t.length := List.length_map _
    unfold kindAndLength
    simp only [hmark '/' rfl, hmark '"' rfl, hmark '\'' rfl, hmark '@' rfl, hmark '$' rfl, hmark '#' rfl,
      hmark '-' rfl, hmark '>' rfl, hmark '+' rfl, hmark '~' rfl, hnext '/' rfl, hnext '*' rfl,
      hnext '\x7b' rfl, hstring, Bool.false_eq_true, if_false, isSpace_toLower, ← lower_cons,
      length_takeWhile_lower isSpace_toLower, hline, hlength, drop_lower, commentTail?_lower, hinside,
      startsName_lower, nameLength_lower, nameOrUrl_lower, startsWith_lower isNameChar_toLower,
      startsMagnitude_lower, numberLength_lower, isPunctuation_toLower]

end Scan

/-! ## Tokens -/

open Scan

variable {s : Text} {t : Token} {ts ts' : List Token}

/-- A token in lower case, without its place. -/
def Token.lowered (t : Token) : Token := ⟨t.kind, lower t.text, default⟩

theorem Token.ReadsBefore.lowered (h : t.ReadsBefore s) : t.lowered.ReadsBefore (lower s) := by
  obtain ⟨c, w, htext, hscan⟩ := h
  refine ⟨c.toLower, lower w, by rw [Token.lowered, htext, lower_cons], ?_⟩
  rw [← lower_append, kindAndLength_lower, hscan, Text.lower, List.length_map]
  rfl

namespace Tokens

theorem text_map_lowered (ts : List Token) : text (ts.map Token.lowered) = lower (text ts) := by
  induction ts with
  | nil => rfl
  | cons t ts ih => rw [List.map_cons, text_cons, text_cons, ih, lower_append, Token.lowered]

theorem Legible.lowered (h : Legible ts) : Legible (ts.map Token.lowered) := by
  induction ts with
  | nil => trivial
  | cons t ts ih =>
    refine ⟨?_, ih h.2⟩
    rw [text_map_lowered]
    exact h.1.lowered

/-- **Texts that differ in letter case are read as tokens that differ in letter case.** -/
theorem Legible.lowered_eq (h : Legible ts) (h' : Legible ts')
    (htext : lower (text ts) = lower (text ts')) :
    ts.map Token.lowered = ts'.map Token.lowered := by
  have hbare (ts : List Token) : (ts.map Token.lowered).map Token.bare = ts.map Token.lowered := by
    rw [List.map_map]
    rfl
  rw [← hbare ts, ← (legible_iff .start).mp h.lowered, text_map_lowered, htext, ← text_map_lowered,
    (legible_iff .start).mp h'.lowered, hbare]

end Tokens

end SheetLint
