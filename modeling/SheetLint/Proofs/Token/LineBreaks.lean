import SheetLint.Proofs.Text.LineBreaks
import SheetLint.Proofs.Token.Stability

/-!
# Tokens and line endings

A line ends with a line feed, or with a carriage return in front of it. Both are whitespace and both
end what may not go over a line, so most scanners do not tell one ending from the other. But a
backslash in front of a line ending takes one character of it: a name goes on with a carriage return
and not with a line feed, and a string is not cut where a line feed is escaped.

Results:
* `Scan.kindAndLength_withReturns`: a scan that meets no escaped line feed does not see the ending.
* `Tokens.ofTextAt_withReturns`: nor do the tokens of a text without escaped line feeds.
* `Tokens.escapesLineFeed_eq_false`: an escaped line feed always shows in the tokens.
-/

namespace SheetLint

open Text

/-! ## Scans over line endings -/

namespace Scan

variable {t rest : Text} {c : Char}

theorem startsWith_withReturns {p : Char → Bool} (hp : p '\r' = p '\n') (t : Text) :
    startsWith p (withReturns t) = startsWith p t := by
  cases t with
  | nil => rfl
  | cons c t =>
    by_cases hc : c = '\n'
    · subst hc
      exact hp
    · rw [withReturns_cons hc]
      rfl

theorem head?_withReturns (hc : c ≠ '\r') (hc' : c ≠ '\n') (t : Text) :
    (withReturns t).head? = some c ↔ t.head? = some c := by
  cases t with
  | nil => exact Iff.rfl
  | cons d t =>
    by_cases hd : d = '\n'
    · subst hd
      simp [Ne.symm hc, Ne.symm hc']
    · rw [withReturns_cons hd]
      rfl

/-- Whether a text starts with a backslash in front of a line feed. -/
def StartsEscaped (t : Text) : Prop := ['\\', '\n'] <+: t

theorem startsEscaped_cons_iff : StartsEscaped (c :: t) ↔ c = '\\' ∧ t.head? = some '\n' := by
  cases t <;> simp [StartsEscaped, List.cons_prefix_cons, eq_comm]

theorem startsName_withReturns (h : ¬ StartsEscaped t) :
    startsName (withReturns t) = startsName t := by
  match t with
  | [] => rfl
  | c :: t =>
    by_cases hc : c = '\n'
    · subst hc
      rfl
    · rw [withReturns_cons hc]
      match t with
      | [] => rfl
      | d :: t =>
        by_cases hd : d = '\n'
        · subst hd
          have hescape : c ≠ '\\' := fun hescape => h (startsEscaped_cons_iff.mpr ⟨hescape, rfl⟩)
          by_cases hdash : c = '-'
          · subst hdash
            rfl
          · simp [startsName, hescape, hdash]
        · rw [withReturns_cons hd]
          exact startsName_cons_cons c d t _

theorem startsMagnitude_withReturns (t : Text) :
    startsMagnitude (withReturns t) = startsMagnitude t := by
  match t with
  | [] => rfl
  | c :: t =>
    by_cases hc : c = '\n'
    · subst hc
      rfl
    · rw [withReturns_cons hc]
      match t with
      | [] => rfl
      | d :: t =>
        by_cases hd : d = '\n'
        · subst hd
          by_cases hdot : c = '.'
          · subst hdot
            rfl
          · simp [startsMagnitude, hdot]
        · rw [withReturns_cons hd]
          exact startsMagnitude_cons_cons c d t _

/-! ### Names and numbers -/

theorem ne_lineFeed_of_isNameChar (h : isNameChar c = true) : c ≠ '\n' := by
  rintro rfl
  exact absurd h (by decide)

theorem lineFeed_notMem_name (t : Text) : '\n' ∉ t.take (nameLength t) := by
  fun_induction nameLength t with
  | case1 | case4 | case5 => simp
  | case2 c cs hc ih => simpa [Ne.symm hc] using ih
  | case3 c cs _ hname ih => simpa [Ne.symm (ne_lineFeed_of_isNameChar hname)] using ih

/-- A name ends at the same place, unless an escaped line feed is behind it. -/
theorem nameLength_withReturns (h : ¬ StartsEscaped (t.drop (nameLength t))) :
    nameLength (withReturns t) = nameLength t := by
  fun_induction nameLength t with
  | case1 => exact absurd (startsEscaped_cons_iff.mpr ⟨rfl, rfl⟩) h
  | case2 c cs hc ih =>
    rw [withReturns_cons (by decide), withReturns_cons hc, nameLength, if_neg hc, ih h]
  | case3 c cs _ hname ih =>
    have hescape : c ≠ '\\' := by
      rintro rfl
      cases hname
    rw [withReturns_cons (ne_lineFeed_of_isNameChar hname), nameLength_cons hescape, if_pos hname,
      ih h]
  | case4 c cs hplain hname =>
    by_cases hc : c = '\n'
    · subst hc
      rfl
    · rw [withReturns_cons hc]
      by_cases hescape : c = '\\'
      · cases cs with
        | nil =>
          subst hescape
          rfl
        | cons d cs => exact absurd rfl (hplain d cs hescape)
      · rw [nameLength_cons hescape, if_neg hname]
  | case5 => rfl

theorem lineFeed_notMem_digits (t : Text) : '\n' ∉ t.take (digitsLength t) := by
  rw [digitsLength, ← List.prefix_iff_eq_take.mp (List.takeWhile_prefix _)]
  exact fun hmem => absurd (List.mem_takeWhile_imp hmem) (by decide)

theorem digitsLength_withReturns (t : Text) : digitsLength (withReturns t) = digitsLength t := by
  have hdigits : '\n' ∉ t.takeWhile Char.isDigit := fun hmem =>
    absurd (List.mem_takeWhile_imp hmem) (by decide)
  rw [digitsLength, takeWhile_withReturns rfl, withReturns_eq_self hdigits, digitsLength]

theorem lineFeed_notMem_magnitude (t : Text) : '\n' ∉ t.take (magnitudeLength t) := by
  have hwhole := lineFeed_notMem_digits t
  unfold magnitudeLength
  simp only
  split
  · rename_i rest hdrop
    split
    · rw [Nat.add_assoc, List.take_add, hdrop, Nat.add_comm 1, List.take_succ_cons]
      simp [hwhole, lineFeed_notMem_digits]
    · exact hwhole
  · exact hwhole

theorem magnitudeLength_withReturns (t : Text) :
    magnitudeLength (withReturns t) = magnitudeLength t := by
  unfold magnitudeLength
  simp only [digitsLength_withReturns, drop_withReturns (lineFeed_notMem_digits t)]
  generalize t.drop (digitsLength t) = back
  cases back with
  | nil => rfl
  | cons c back =>
    by_cases hc : c = '\n'
    · subst hc
      rfl
    · rw [withReturns_cons hc]
      by_cases hdot : c = '.'
      · subst hdot
        simp only [startsWith_withReturns (p := Char.isDigit) rfl, digitsLength_withReturns]
      · simp [hdot]

theorem lineFeed_notMem_unit (t : Text) : '\n' ∉ t.take (unitLength t) := by
  unfold unitLength
  split
  · simp
  · split
    · exact lineFeed_notMem_name t
    · simp

theorem unitLength_withReturns (h : ¬ StartsEscaped (t.drop (unitLength t))) :
    unitLength (withReturns t) = unitLength t := by
  cases t with
  | nil => rfl
  | cons c t =>
    by_cases hc : c = '\n'
    · subst hc
      rfl
    · rw [withReturns_cons hc]
      by_cases hpercent : c = '%'
      · subst hpercent
        rfl
      · rw [unitLength_cons hpercent] at h ⊢
        rw [unitLength_cons hpercent]
        split
        · rename_i hname
          rw [if_pos hname] at h
          rw [← withReturns_cons hc, nameLength_withReturns h]
        · rfl

theorem lineFeed_notMem_number (t : Text) : '\n' ∉ t.take (numberLength t) := by
  unfold numberLength
  simp only [List.take_add, List.mem_append, not_or]
  exact ⟨lineFeed_notMem_magnitude t, lineFeed_notMem_unit _⟩

theorem numberLength_withReturns (h : ¬ StartsEscaped (t.drop (numberLength t))) :
    numberLength (withReturns t) = numberLength t := by
  unfold numberLength at h ⊢
  simp only [magnitudeLength_withReturns, drop_withReturns (lineFeed_notMem_magnitude t)]
  simp only [← List.drop_drop] at h
  rw [unitLength_withReturns h]

/-! ### Strings, comments, interpolations and addresses -/

/-- A string on one line is read the same. -/
theorem stringTail_withReturns {quote : Char} (h : '\n' ∉ t.take (stringTail quote t).2) :
    stringTail quote (withReturns t) = stringTail quote t := by
  fun_induction stringTail quote t with
  | case1 | case2 => rfl
  | case3 c cs tail ih =>
    simp only [List.take_succ_cons, List.mem_cons, not_or] at h
    rw [withReturns_cons (by decide), withReturns_cons (Ne.symm h.2.1), stringTail, ih h.2.2]
  | case4 c cs hone hescape hbreak =>
    by_cases hc : c = '\n'
    · subst hc
      rfl
    · have hplain : c ≠ '\\' := by
        rintro rfl
        cases hbreak
      rw [withReturns_cons hc, stringTail_cons hplain, if_pos hbreak]
  | case5 cs hone hescape hbreak =>
    have hc : quote ≠ '\\' := ne_backslash_of_not_escape hone hescape
    have hfeed : quote ≠ '\n' := by
      rintro rfl
      exact hbreak rfl
    rw [withReturns_cons hfeed, stringTail_cons hc, if_neg hbreak, if_pos rfl]
  | case6 c cs hone hescape hbreak hquote tail ih =>
    have hc : c ≠ '\\' := ne_backslash_of_not_escape hone hescape
    simp only [List.take_succ_cons, List.mem_cons, not_or] at h
    rw [withReturns_cons (Ne.symm h.1), stringTail_cons hc, if_neg hbreak, if_neg hquote, ih h.2]

/-- No string goes over a line that ends with a carriage return. -/
theorem lineFeed_notMem_string (quote : Char) (t : Text) :
    '\n' ∉ (withReturns t).take (stringTail quote (withReturns t)).2 := by
  fun_induction stringTail quote t with
  | case1 | case2 => simp [withReturns, stringTail]
  | case3 c cs tail ih =>
    rw [withReturns_cons (by decide)]
    by_cases hc : c = '\n'
    · subst hc
      -- the return is escaped, and the line feed ends the token
      have hstop : stringTail quote ('\n' :: withReturns cs) = (.error, 0) := by
        rw [stringTail_cons (by decide)]
        rfl
      simp [stringTail, hstop]
    · rw [withReturns_cons hc, stringTail]
      simpa [Ne.symm hc] using ih
  | case4 c cs hone hescape hbreak =>
    by_cases hc : c = '\n'
    · subst hc
      simp [stringTail_cons, isLineBreak]
    · have hplain : c ≠ '\\' := by
        rintro rfl
        cases hbreak
      simp [withReturns_cons hc, stringTail_cons hplain, hbreak]
  | case5 cs hone hescape hbreak =>
    have hc : quote ≠ '\\' := ne_backslash_of_not_escape hone hescape
    have hfeed : quote ≠ '\n' := by
      rintro rfl
      exact hbreak rfl
    simp [withReturns_cons hfeed, stringTail_cons hc, hbreak, Ne.symm hfeed]
  | case6 c cs hone hescape hbreak hquote tail ih =>
    have hc : c ≠ '\\' := ne_backslash_of_not_escape hone hescape
    have hfeed : c ≠ '\n' := by
      rintro rfl
      exact hbreak rfl
    rw [withReturns_cons hfeed, stringTail_cons hc, if_neg hbreak, if_neg hquote]
    simpa [Ne.symm hfeed] using ih

/-- A comment ends behind the same characters. -/
theorem commentTail?_withReturns (t : Text) :
    commentTail? (withReturns t) =
      (commentTail? t).map fun n => (withReturns (t.take n)).length := by
  induction t with
  | nil => rfl
  | cons c t ih =>
    by_cases hc : c = '\n'
    · subst hc
      rw [withReturns_lineFeed, commentTail?_cons, commentTail?_cons, commentTail?_cons, ih]
      cases commentTail? t <;> simp
    · have hslash := head?_withReturns (c := '/') (by decide) (by decide) t
      rw [withReturns_cons hc, commentTail?_cons, commentTail?_cons, ih]
      simp only [hslash]
      split
      · rename_i hclose
        obtain ⟨rfl, hclose⟩ := hclose
        obtain ⟨rest, rfl⟩ := List.head?_eq_some_iff.mp hclose
        rfl
      · cases commentTail? t <;> simp [withReturns_cons hc]

theorem interpolationTail?_lineBreak (depth : Nat) (hc : isLineBreak c = true) (t : Text) :
    interpolationTail? depth none (c :: t) = (interpolationTail? depth none t).map (· + 1) := by
  have hbreak : c = '\n' ∨ c = '\r' := by simpa [isLineBreak] using hc
  rcases hbreak with rfl | rfl <;> simp [interpolationTail?_bare]

/-- So does an interpolation: what a backslash hides in its strings makes no difference. -/
theorem interpolationTail?_withReturns (depth : Nat) {quote : Option Char}
    (hquote : ∀ q ∈ quote, isQuote q = true) (t : Text) :
    interpolationTail? depth quote (withReturns t) =
      (interpolationTail? depth quote t).map fun n => (withReturns (t.take n)).length := by
  have hfeed {q : Char} (hq : isQuote q = true) : '\n' ≠ q ∧ '\r' ≠ q := by
    constructor <;> (rintro rfl; cases hq)
  have houtside : ∀ q ∈ (none : Option Char), isQuote q = true := by simp
  fun_induction interpolationTail? depth quote t with
  | case1 => simp [interpolationTail?]
  | case2 => rfl
  | case3 depth q c cs ih =>
    have hstring := ih hquote
    rw [withReturns_cons (by decide)]
    by_cases hc : c = '\n'
    · subst hc
      rw [withReturns_lineFeed, interpolationTail?, interpolationTail?_quoted depth (by decide),
        if_neg (hfeed (hquote q rfl)).1, hstring]
      cases interpolationTail? depth (some q) cs <;> simp [withReturns_cons]
    · rw [withReturns_cons hc, interpolationTail?, hstring]
      cases interpolationTail? depth (some q) cs <;> simp [withReturns_cons, hc]
  | case4 depth q c cs hone hescape ih =>
    have hq := hquote q rfl
    have hc : c ≠ '\\' := ne_backslash_of_not_escape hone hescape
    have hstring := ih (by split <;> simp [hq])
    by_cases hline : c = '\n'
    · subst hline
      rw [if_neg (hfeed hq).1] at hstring ⊢
      rw [withReturns_lineFeed, interpolationTail?_quoted depth (by decide), if_neg (hfeed hq).2,
        interpolationTail?_quoted depth (by decide), if_neg (hfeed hq).1, hstring]
      cases interpolationTail? depth (some q) cs <;> simp
    · rw [withReturns_cons hline, interpolationTail?_quoted depth hc, hstring]
      generalize interpolationTail? depth _ cs = tail
      cases tail <;> simp [withReturns_cons hline]
  | case5 depth c cs hstring ih =>
    have hline : c ≠ '\n' := by
      rintro rfl
      simp at hstring
    rw [withReturns_cons hline, interpolationTail?_bare, if_pos hstring,
      ih (by simpa [isQuote] using hstring)]
    cases interpolationTail? depth (some c) cs <;> simp [withReturns_cons hline]
  | case6 depth cs hstring ih =>
    rw [withReturns_cons (by decide), interpolationTail?_bare, if_neg hstring, if_pos rfl,
      ih houtside]
    cases interpolationTail? (depth + 1) none cs <;> simp [withReturns_cons]
  | case7 cs hstring hopen =>
    rw [withReturns_cons (by decide), interpolationTail?_bare, if_neg hstring, if_neg hopen,
      if_pos rfl]
    rfl
  | case8 cs d hstring hopen ih =>
    rw [withReturns_cons (by decide), interpolationTail?_bare, if_neg hstring, if_neg hopen,
      if_pos rfl]
    simp only [ih houtside]
    cases interpolationTail? d none cs <;> simp [withReturns_cons]
  | case9 depth c cs hstring hopen hclose ih =>
    by_cases hline : c = '\n'
    · subst hline
      rw [withReturns_lineFeed, interpolationTail?_lineBreak depth rfl,
        interpolationTail?_lineBreak depth rfl, ih houtside]
      cases interpolationTail? depth none cs <;> simp
    · rw [withReturns_cons hline, interpolationTail?_bare, if_neg hstring, if_neg hopen,
        if_neg hclose, ih houtside]
      cases interpolationTail? depth none cs <;> simp [withReturns_cons hline]

theorem lineFeed_notMem_url (t : Text) : '\n' ∉ t.take (urlTail t).2 := by
  fun_induction urlTail t with
  | case1 | case2 | case3 => simp
  | case4 c cs hclose hbreak tail ih =>
    have hc : c ≠ '\n' := by
      rintro rfl
      exact hbreak rfl
    simpa [Ne.symm hc] using ih

theorem urlTail_withReturns (t : Text) : urlTail (withReturns t) = urlTail t := by
  induction t with
  | nil => rfl
  | cons c t ih =>
    by_cases hc : c = '\n'
    · subst hc
      rfl
    · rw [withReturns_cons hc, urlTail, urlTail, ih]

theorem lineFeed_notMem_nameOrUrl (t : Text) : '\n' ∉ t.take (nameOrUrl t).2 := by
  have hname := lineFeed_notMem_name t
  unfold nameOrUrl
  simp only
  split
  · rename_i inside hdrop
    split
    · rw [Nat.add_assoc, List.take_add, hdrop, Nat.add_comm 1, List.take_succ_cons]
      simp [hname, lineFeed_notMem_url]
    · exact hname
  · exact hname

theorem nameOrUrl_withReturns (h : ¬ StartsEscaped (t.drop (nameOrUrl t).2)) :
    nameOrUrl (withReturns t) = nameOrUrl t := by
  have hfeed := lineFeed_notMem_name t
  have hname : nameLength (withReturns t) = nameLength t := by
    refine nameLength_withReturns fun hescaped => h ?_
    -- behind the name of an address is a parenthesis
    have hident : (nameOrUrl t).2 = nameLength t := by
      unfold nameOrUrl
      simp only
      split
      · rename_i inside hdrop
        rw [hdrop, startsEscaped_cons_iff] at hescaped
        cases hescaped.1
      · rfl
    rwa [hident]
  unfold nameOrUrl
  simp only [hname, take_withReturns hfeed, drop_withReturns hfeed]
  generalize t.drop (nameLength t) = back
  cases back with
  | nil => rfl
  | cons c back =>
    by_cases hc : c = '\n'
    · subst hc
      rfl
    · rw [withReturns_cons hc]
      by_cases hparen : c = '('
      · subst hparen
        simp only [dropWhile_withReturns (p := isSpace) rfl, urlTail_withReturns,
          startsWith_withReturns (p := fun c => c == '"' || c == '\'') rfl]
      · simp [hparen]

/-! ### One token -/

/-- A mark is no part of a name where an escaped line feed is behind it. -/
theorem kindAndLength_mark_escaped (hc : c = '@' ∨ c = '$') (h : StartsEscaped rest) :
    kindAndLength c rest = (.punct, 1) := by
  obtain ⟨rest, rfl⟩ := h
  rcases hc with rfl | rfl
  · rfl
  · rfl

theorem length_takeWhile_withReturns {p : Char → Bool} (hp : p '\r' = p '\n') (t : Text) :
    ((withReturns t).takeWhile p).length =
      (withReturns (t.take (t.takeWhile p).length)).length := by
  rw [takeWhile_withReturns hp, ← List.prefix_iff_eq_take.mp (List.takeWhile_prefix p)]

/-- The tests of the scanner do not see how lines end, unless a line feed is escaped behind the
character or behind the token. -/
theorem sameTests_withReturns (hc : c ≠ '\n') (hescape : c = '\\' → rest.head? ≠ some '\n')
    (hbehind : ¬ StartsEscaped ((c :: rest).drop (kindAndLength c rest).2)) :
    SameTests c rest (withReturns rest) where
  slash _ := by rw [head?_withReturns (by decide) (by decide)]
  star _ := by rw [head?_withReturns (by decide) (by decide)]
  mark hmark := by
    refine startsName_withReturns fun hescaped => ?_
    rw [kindAndLength_mark_escaped hmark hescaped] at hbehind
    exact hbehind hescaped
  brace _ := by rw [head?_withReturns (by decide) (by decide)]
  hash _ := startsWith_withReturns rfl rest
  magnitude := by rw [← withReturns_cons hc, startsMagnitude_withReturns]
  dash _ := startsMagnitude_withReturns rest
  name := by
    rw [← withReturns_cons hc, startsName_withReturns]
    rw [startsEscaped_cons_iff]
    exact fun h => hescape h.1 h.2

/-- A comment and an interpolation end where they ended, but for the carriage returns in them. -/
theorem enclosed_withReturns (kind : TokenKind) {d : Char} (hc : c ≠ '\n') (hd : d ≠ '\n')
    (tail? : Option Nat) :
    enclosed kind (d :: withReturns t) (tail?.map fun n => (withReturns (t.take n)).length) =
      ((enclosed kind (d :: t) tail?).1,
        (withReturns ((c :: d :: t).take (enclosed kind (d :: t) tail?).2)).length) := by
  cases tail? with
  | none => simp [enclosed, withReturns_cons hc, withReturns_cons hd]
  | some n => simp [enclosed, withReturns_cons hc, withReturns_cons hd]

/-- **A scan that meets no escaped line feed does not see how lines end.** No line feed is escaped
by the token, between its quotes or behind it. -/
theorem kindAndLength_withReturns (hc : c ≠ '\n')
    (hescape : c = '\\' → rest.head? ≠ some '\n')
    (hquoted : isQuote c = true → '\n' ∉ (c :: rest).take (kindAndLength c rest).2)
    (hbehind : ¬ StartsEscaped ((c :: rest).drop (kindAndLength c rest).2)) :
    kindAndLength c (withReturns rest) =
      ((kindAndLength c rest).1,
        (withReturns ((c :: rest).take (kindAndLength c rest).2)).length) := by
  have hwhole : c :: withReturns rest = withReturns (c :: rest) := (withReturns_cons hc rest).symm
  -- a token on one line keeps its length
  have hkeep {n : Nat} (hn : n ≤ rest.length + 1) (hfeed : '\n' ∉ (c :: rest).take n) :
      n = (withReturns ((c :: rest).take n)).length := (length_withReturns_take hfeed hn).symm
  have hkeep' {n : Nat} (hn : n ≤ rest.length) (hfeed : '\n' ∉ rest.take n) :
      n + 1 = (withReturns ((c :: rest).take (n + 1))).length :=
    hkeep (Nat.succ_le_succ hn) (by simp [Ne.symm hc, hfeed])
  obtain ⟨p, q, hp, hq, hread⟩ := (sameTests_withReturns hc hescape hbehind).exists_readAlike
  rw [hp] at hquoted hbehind ⊢
  rw [hq]
  cases hread with
  | whitespace => rw [hwhole, length_takeWhile_withReturns rfl]
  | lineComment => rw [hwhole, length_takeWhile_withReturns rfl]
  | blockComment _ hhead =>
    obtain ⟨rest, rfl⟩ := List.head?_eq_some_iff.mp hhead
    rw [withReturns_cons (by decide), List.drop_one, List.drop_one, List.tail_cons, List.tail_cons,
      commentTail?_withReturns, enclosed_withReturns _ hc (by decide)]
  | string hquote =>
    have hfeed := hquoted (by simpa [isQuote] using hquote)
    rw [List.take_succ_cons, List.mem_cons, not_or] at hfeed
    rw [stringTail_withReturns hfeed.2, ← hkeep' (stringTail_le c rest) hfeed.2]
  | mark | hash =>
    rw [nameLength_withReturns hbehind, ← hkeep' (nameLength_le rest) (lineFeed_notMem_name rest)]
  | interpolation _ hhead =>
    obtain ⟨rest, rfl⟩ := List.head?_eq_some_iff.mp hhead
    rw [withReturns_cons (by decide), List.drop_one, List.drop_one, List.tail_cons, List.tail_cons,
      interpolationTail?_withReturns 0 (by simp), enclosed_withReturns _ hc (by decide)]
  | number =>
    rw [hwhole, numberLength_withReturns hbehind,
      ← hkeep (numberLength_le (c :: rest)) (lineFeed_notMem_number (c :: rest))]
  | negative =>
    rw [numberLength_withReturns hbehind,
      ← hkeep' (numberLength_le rest) (lineFeed_notMem_number rest)]
  | name =>
    rw [hwhole, nameOrUrl_withReturns hbehind,
      ← hkeep (nameOrUrl_le (c :: rest)) (lineFeed_notMem_nameOrUrl (c :: rest))]
  | single => exact Prod.ext rfl (hkeep' (Nat.zero_le _) (by simp))

theorem kindAndLength_lineFeed {w s : Text} {kind : TokenKind}
    (h : kindAndLength '\n' (w ++ s) = (kind, w.length + 1)) :
    kindAndLength '\r' ('\n' :: withReturns (w ++ s)) =
      (kind, ('\n' :: withReturns w).length + 1) := by
  have hrun : kindAndLength '\n' (w ++ s) =
      (.whitespace, (('\n' :: (w ++ s)).takeWhile isSpace).length) := rfl
  rw [hrun, Prod.mk.injEq] at h
  obtain ⟨rfl, hlength⟩ := h
  have hreturn : kindAndLength '\r' ('\n' :: withReturns (w ++ s)) =
      (.whitespace, ((withReturns ('\n' :: (w ++ s))).takeWhile isSpace).length) := rfl
  rw [hreturn, length_takeWhile_withReturns rfl, hlength, List.take_succ_cons, List.take_left]
  rfl

end Scan

/-! ## All tokens -/

namespace Tokens

open Scan

variable {t w s : Text} {c : Char} {kind : TokenKind} {place place' : Position}

/-- Whether a line feed is escaped: a backslash that is a token by itself stands in front of it, or
it stands between quotes. -/
def escapesLineFeed : List Token → Bool
  | [] => false
  | t :: ts =>
    t.isPunct '\\' && (text ts).head? == some '\n'
      || startsWith isQuote t.text && t.text.has '\n'
      || escapesLineFeed ts

/-- A backslash in front of a line feed is a token by itself. -/
theorem escapesLineFeed_of_startsEscaped (h : StartsEscaped s) (place : Position) :
    escapesLineFeed (ofTextAt place s) = true := by
  obtain ⟨rest, rfl⟩ := h
  have hscan : kindAndLength '\\' ([] ++ '\n' :: rest) = (.punct, ([] : Text).length + 1) := rfl
  have htokens := ofTextAt_eq_cons place hscan
  rw [List.nil_append] at htokens
  show escapesLineFeed (ofTextAt place ('\\' :: '\n' :: rest)) = true
  rw [htokens, escapesLineFeed, text_ofTextAt]
  rfl

/-- The first token of a text with returns, where that escapes no line feed. -/
theorem ofTextAt_withReturns_cons (place : Position)
    (h : kindAndLength c (w ++ s) = (kind, w.length + 1))
    (hescape : c = '\\' → (w ++ s).head? ≠ some '\n') (hquoted : isQuote c = true → '\n' ∉ w)
    (hbehind : ¬ StartsEscaped s) :
    ∃ span, ofTextAt place (withReturns (c :: (w ++ s))) =
      ⟨kind, withReturns (c :: w), span⟩
        :: ofTextAt (place.advance (withReturns (c :: w))) (withReturns s) := by
  by_cases hc : c = '\n'
  · subst hc
    have hscan := kindAndLength_lineFeed h
    rw [withReturns_append, ← List.cons_append] at hscan
    rw [withReturns_lineFeed, withReturns_append, ← List.cons_append]
    exact ⟨_, ofTextAt_eq_cons place hscan⟩
  · have htake : (c :: (w ++ s)).take (w.length + 1) = c :: w := by simp
    have hdrop : (c :: (w ++ s)).drop (w.length + 1) = s := by simp
    have hscan := kindAndLength_withReturns hc hescape
    rw [h] at hscan
    simp only [htake, hdrop, withReturns_append, withReturns_cons hc] at hscan
    rw [withReturns_cons hc, withReturns_cons hc, withReturns_append]
    refine ⟨_, ofTextAt_eq_cons place (hscan (fun hquote => ?_) hbehind)⟩
    rw [List.mem_cons, not_or]
    exact ⟨Ne.symm hc, hquoted hquote⟩

/-- What a token says of line feeds, by its first character. -/
theorem escapesLineFeed_cons_iff {k : Token} {ks : List Token} (htext : k.text = c :: w)
    (hscan : kindAndLength c (w ++ text ks) = (k.kind, w.length + 1)) :
    escapesLineFeed (k :: ks) = false ↔
      (c = '\\' → (w ++ text ks).head? ≠ some '\n') ∧ (isQuote c = true → '\n' ∉ w)
        ∧ escapesLineFeed ks = false := by
  have hlone : (k.isPunct '\\' && (text ks).head? == some '\n') = false ↔
      (c = '\\' → (w ++ text ks).head? ≠ some '\n') := by
    constructor
    · rintro hpunct rfl hhead
      obtain ⟨rest, hrest⟩ := List.head?_eq_some_iff.mp hhead
      have hone : kindAndLength '\\' (w ++ text ks) = (.punct, 1) := by
        rw [hrest]
        rfl
      rw [hone, Prod.mk.injEq] at hscan
      obtain rfl : w = [] := List.length_eq_zero_iff.mp (by omega)
      rw [List.nil_append] at hhead
      simp [Token.isPunct, htext, ← hscan.1, hhead] at hpunct
    · intro hhead
      refine Bool.eq_false_iff.mpr fun htrue => ?_
      rw [Bool.and_eq_true, beq_iff_eq] at htrue
      have hsingle := Token.text_of_isPunct htrue.1
      rw [htext, List.cons.injEq] at hsingle
      obtain ⟨rfl, rfl⟩ := hsingle
      exact hhead rfl htrue.2
  have hquoted : (startsWith isQuote k.text && k.text.has '\n') = false ↔
      (isQuote c = true → '\n' ∉ w) := by
    have hfeed (hc : isQuote c = true) : '\n' ≠ c := by
      rintro rfl
      cases hc
    cases hc : isQuote c with
    | false => simp [htext, startsWith, hc]
    | true => simp [htext, startsWith, hc, Text.has, hfeed hc]
  rw [escapesLineFeed, Bool.or_eq_false_iff, Bool.or_eq_false_iff, hlone, hquoted, and_assoc]

/-- **Where no line feed is escaped, tokens do not see how lines end**, and keep their texts but for
the returns in them. -/
theorem ofTextAt_withReturns (place place' : Position) (t : Text)
    (h : escapesLineFeed (ofTextAt place t) = false) :
    (ofTextAt place' (withReturns t)).map (fun k => (k.kind, k.text)) =
      (ofTextAt place t).map fun k => (k.kind, withReturns k.text) := by
  induction hts : ofTextAt place t generalizing place place' t with
  | nil =>
    have ht : t = [] := by rw [← text_ofTextAt place t, hts, text_nil]
    rw [ht, withReturns_nil, ofTextAt]
    rfl
  | cons k ks ih =>
    obtain ⟨c, w, htext, hscan, hmore⟩ := exists_scan_of_ofTextAt_eq_cons hts
    have ht : t = c :: (w ++ text ks) := by
      rw [← text_ofTextAt place t, hts, text_cons, htext, List.cons_append]
    rw [hts] at h
    obtain ⟨hescape, hquoted, hlater⟩ := (escapesLineFeed_cons_iff htext hscan).mp h
    have hbehind : ¬ StartsEscaped (text ks) := by
      intro hescaped
      have htrue := escapesLineFeed_of_startsEscaped hescaped (place.advance k.text)
      rw [hmore, hlater] at htrue
      cases htrue
    obtain ⟨span, hfirst⟩ := ofTextAt_withReturns_cons place' hscan hescape hquoted hbehind
    rw [ht, hfirst, List.map_cons, List.map_cons, htext,
      ih (place.advance k.text) _ (text ks) (by rw [hmore]; exact hlater) hmore]

/-- A backslash in front of a carriage return starts a name. -/
theorem kind_of_escapedReturn {k : Token} {ks : List Token} {rest : Text}
    (h : ofTextAt place ('\\' :: '\r' :: '\n' :: rest) = k :: ks) : k.kind = .ident := by
  have hname : nameLength ('\\' :: '\r' :: '\n' :: rest) = 2 := by
    rw [nameLength, if_neg (by decide), nameLength_cons (by decide)]
    rfl
  have hnamed : nameOrUrl ('\\' :: '\r' :: '\n' :: rest) = (.ident, 2) := by
    unfold nameOrUrl
    simp only [hname]
    rfl
  have hscan : kindAndLength '\\' (['\r'] ++ '\n' :: rest) = (.ident, ['\r'].length + 1) := hnamed
  have htokens := ofTextAt_eq_cons place hscan
  rw [List.singleton_append, h] at htokens
  rw [(List.cons.inj htokens).1]

/-- No token between quotes goes over a line that ends with a carriage return. -/
theorem lineFeed_notMem_quoted {k : Token} {ks : List Token} (hc : isQuote c = true)
    (h : ofTextAt place (withReturns (c :: t)) = k :: ks) : '\n' ∉ k.text := by
  have hfeed : c ≠ '\n' := by
    rintro rfl
    cases hc
  rw [withReturns_cons hfeed] at h
  obtain ⟨d, w, htext, hscan, -⟩ := exists_scan_of_ofTextAt_eq_cons h
  have hsame : d :: (w ++ text ks) = c :: withReturns t := by
    rw [← List.cons_append, ← htext, ← text_cons, ← h, text_ofTextAt]
  rw [List.cons.injEq] at hsame
  obtain ⟨rfl, hrest⟩ := hsame
  have hstring : kindAndLength d (w ++ text ks) =
      ((stringTail d (w ++ text ks)).1, (stringTail d (w ++ text ks)).2 + 1) := by
    have hquotes : d = '"' ∨ d = '\'' := by simpa [isQuote] using hc
    rcases hquotes with rfl | rfl <;> rfl
  rw [hscan, Prod.mk.injEq, Nat.add_right_cancel_iff] at hstring
  have hline := lineFeed_notMem_string d t
  rw [← hrest, ← hstring.2, List.take_left] at hline
  simp [htext, Ne.symm hfeed, hline]

/-- **An escaped line feed shows in the tokens**: with a return in front of it some kind is another
one, or some text is another one even without the returns. -/
theorem escapesLineFeed_eq_false (place place' : Position) (t : Text) (ht : '\r' ∉ t)
    (h : (ofTextAt place' (withReturns t)).map (fun k => (k.kind, withoutReturns k.text)) =
      (ofTextAt place t).map fun k => (k.kind, k.text)) :
    escapesLineFeed (ofTextAt place t) = false := by
  induction hts : ofTextAt place t generalizing place place' t with
  | nil => rfl
  | cons k ks ih =>
    obtain ⟨c, w, htext, hscan, hmore⟩ := exists_scan_of_ofTextAt_eq_cons hts
    have hwhole : t = c :: (w ++ text ks) := by
      rw [← text_ofTextAt place t, hts, text_cons, htext, List.cons_append]
    rw [hts, List.map_cons, List.map_eq_cons_iff] at h
    obtain ⟨k', ks', hts', hfirst, hlater⟩ := h
    rw [Prod.mk.injEq] at hfirst
    obtain ⟨hkind, hsame⟩ := hfirst
    have hescape : c = '\\' → (w ++ text ks).head? ≠ some '\n' := by
      rintro rfl hhead
      obtain ⟨rest, hrest⟩ := List.head?_eq_some_iff.mp hhead
      rw [hwhole, hrest] at hts'
      rw [hrest] at hscan
      have hpunct : TokenKind.punct = k.kind := congrArg Prod.fst hscan
      rw [kind_of_escapedReturn hts', ← hpunct] at hkind
      cases hkind
    have hquoted : isQuote c = true → '\n' ∉ w := by
      intro hc hmem
      rw [hwhole] at hts'
      refine lineFeed_notMem_quoted hc hts' ?_
      have hmem' : '\n' ∈ withoutReturns k'.text := by
        rw [hsame, htext]
        exact List.mem_cons_of_mem c hmem
      exact List.mem_of_mem_filter hmem'
    -- the token has the returns of the other one, so the same text is left
    have hrest : text ks' = withReturns (text ks) := by
      by_cases hbehind : StartsEscaped (text ks)
      · have hcut : k'.text ++ text ks' = withReturns k.text ++ withReturns (text ks) := by
          rw [← text_cons, ← hts', text_ofTextAt, hwhole, ← withReturns_append, htext,
            List.cons_append]
        have hkept : '\r' ∉ k.text := fun hmem => ht (by
          rw [hwhole, ← List.cons_append, ← htext]
          exact List.mem_append_left _ hmem)
        refine (eq_withReturns_of_append hcut hkept ?_ hsame).2
        obtain ⟨rest, hrest⟩ := hbehind
        rw [← hrest]
        simp [withReturns_cons]
      · obtain ⟨span, hread⟩ := ofTextAt_withReturns_cons place' hscan hescape hquoted hbehind
        rw [← hwhole, hts', List.cons.injEq] at hread
        rw [hread.2, text_ofTextAt]
    obtain ⟨-, -, -, -, hmore'⟩ := exists_scan_of_ofTextAt_eq_cons hts'
    have hclean : '\r' ∉ text ks := fun hmem => ht (by
      rw [hwhole]
      exact List.mem_cons_of_mem c (List.mem_append_right w hmem))
    refine (escapesLineFeed_cons_iff htext hscan).mpr ⟨hescape, hquoted, ?_⟩
    refine ih (place.advance k.text) (place'.advance k'.text) (text ks) hclean ?_ hmore
    rw [hmore, ← hrest, hmore']
    exact hlater

end Tokens

end SheetLint
