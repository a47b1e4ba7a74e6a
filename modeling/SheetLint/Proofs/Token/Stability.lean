import Mathlib.Tactic.SplitIfs
import SheetLint.Proofs.Token.Kinds

/-!
# Tokens in front of an edge

How a token is read depends on what stands behind it. But whitespace, a brace, a semicolon and a
comment start with characters that hardly any token goes on with. A token that ends in front of such
an *edge* has seen at most one character of it, and a quote behind it after `url(`. So it is read
the same in front of another edge, unless that one continues whitespace, or takes away the line
break that ended a line comment or kept a backslash from escaping what is behind it.

Results:
* `Scan.kindAndLength_front`: a scan that stays in front of an edge is the same in front of another
  one.
* `Tokens.exists_ofTextAt_alike`: so are the kinds and texts of the tokens in front of it.
* `Tokens.exists_ofTextAt_front`: what stands behind a semicolon has no say in them at all.
-/

namespace SheetLint

/-! ## Edges -/

namespace Scan

/-- The characters that whitespace, braces, semicolons and comments start with. -/
def isEdge (c : Char) : Bool := isSpace c || c == '\x7b' || c == '\x7d' || c == ';' || c == '/'

/-- The quotes of strings. -/
def isQuote (c : Char) : Bool := c == '"' || c == '\''

theorem kindAndLength_quote {c : Char} (hc : isQuote c = true) (rest : Text) :
    kindAndLength c rest = ((stringTail c rest).1, (stringTail c rest).2 + 1) := by
  rcases Bool.or_eq_true_iff.mp hc with hc | hc <;> rw [beq_iff_eq.mp hc] <;>
    simp [kindAndLength, isSpace]

/-- Two texts in front of which most tokens end alike: both start with an edge, with the same one
where it is a slash or an opening brace, and the first quote behind whitespace is in both or in
none. -/
structure Alike (s s' : Text) : Prop where
  edge : startsWith isEdge s = true
  edge' : startsWith isEdge s' = true
  slash : s'.head? = some '/' ↔ s.head? = some '/'
  brace : s'.head? = some '\x7b' ↔ s.head? = some '\x7b'
  quote : startsWith isQuote (s'.dropWhile isSpace) = startsWith isQuote (s.dropWhile isSpace)

variable {u s s' t t' : Text} {c d d' : Char}

theorem eq_of_isEdge (hd : isEdge d = true) :
    d = ' ' ∨ d = '\t' ∨ d = '\n' ∨ d = '\r' ∨ d = '\x0c' ∨ d = '\x7b' ∨ d = '\x7d' ∨ d = ';'
      ∨ d = '/' := by
  simpa [isEdge, isSpace, or_assoc] using hd

/-- What an edge is not. -/
theorem not_of_isEdge {p : Char → Bool} (hd : isEdge d = true)
    (hp : [' ', '\t', '\n', '\r', '\x0c', '\x7b', '\x7d', ';', '/'].all (!p ·) = true) :
    p d = false := by
  simp only [List.all_cons, List.all_nil, Bool.and_true, Bool.and_eq_true, Bool.not_eq_true'] at hp
  obtain ⟨h1, h2, h3, h4, h5, h6, h7, h8, h9⟩ := hp
  rcases eq_of_isEdge hd with rfl | rfl | rfl | rfl | rfl | rfl | rfl | rfl | rfl <;> assumption

theorem ne_of_isEdge (hd : isEdge d = true)
    (hc : [' ', '\t', '\n', '\r', '\x0c', '\x7b', '\x7d', ';', '/'].all (· != c) = true) :
    d ≠ c := by
  simpa using not_of_isEdge (p := (· == c)) hd hc

theorem isNameStart_of_isEdge (hd : isEdge d = true) : isNameStart d = false :=
  not_of_isEdge hd (by decide)

theorem isNameChar_of_isEdge (hd : isEdge d = true) : isNameChar d = false :=
  not_of_isEdge hd (by decide)

theorem isDigit_of_isEdge (hd : isEdge d = true) : d.isDigit = false :=
  not_of_isEdge hd (by decide)

/-- Texts that start with the same edge other than whitespace. -/
theorem Alike.of_head (hd : isEdge d = true) (hspace : isSpace d = false) :
    Alike (d :: t) (d :: t') where
  edge := hd
  edge' := hd
  slash := Iff.rfl
  brace := Iff.rfl
  quote := by simp [hspace, startsWith]

/-- A text behind an edge is one that starts with it. -/
theorem exists_eq_cons_of_startsWith {p : Char → Bool} (h : startsWith p s = true) :
    ∃ d t, s = d :: t ∧ p d = true := by
  cases s with
  | nil => cases h
  | cons d t => exact ⟨d, t, rfl, h⟩

/-! ## Scans that stay in front of an edge -/

/-- Whether a character is at the front, for those that edges agree on. -/
theorem head?_front (h : s'.head? = some c ↔ s.head? = some c) (u : Text) :
    (u ++ s').head? = some c ↔ (u ++ s).head? = some c := by
  cases u with
  | nil => exact h
  | cons => exact Iff.rfl

/-- A character at the front that is no edge stands in front of the edge. -/
theorem exists_eq_cons_of_head?_front (hd : d ≠ c) (h : (u ++ d :: t).head? = some c) :
    ∃ u', u = c :: u' := by
  cases u with
  | nil => exact absurd (Option.some.inj h) hd
  | cons x u => exact ⟨u, by rw [Option.some.inj h]⟩

/-- Two characters tell whether a name starts. -/
theorem startsName_cons_cons (c d : Char) (t t' : Text) :
    startsName (c :: d :: t') = startsName (c :: d :: t) := by
  by_cases hdash : c = '-'
  · subst hdash
    rfl
  · by_cases hescape : c = '\\'
    · subst hescape
      rfl
    · simp [startsName, hdash, hescape]

/-- No name starts with an edge. -/
theorem startsName_of_isEdge (hd : isEdge d = true) (t : Text) : startsName (d :: t) = false := by
  have hdash : d ≠ '-' := ne_of_isEdge hd (by decide)
  have hescape : d ≠ '\\' := ne_of_isEdge hd (by decide)
  simp [startsName, hdash, hescape, isNameStart_of_isEdge hd]

/-- Only a backslash sees which edge is behind it. -/
theorem startsName_singleton (hc : c ≠ '\\') (hd : isEdge d = true) (hd' : isEdge d' = true)
    (t t' : Text) : startsName (c :: d' :: t') = startsName (c :: d :: t) := by
  by_cases hc' : c = '-'
  · subst hc'
    have hstop {x : Char} (hx : isEdge x = true) :
        (isNameStart x || x == '-' || x == '\\') = false :=
      not_of_isEdge (p := fun x => isNameStart x || x == '-' || x == '\\') hx (by decide)
    exact (hstop hd').trans (hstop hd).symm
  · simp [startsName, hc, hc']

/-- A name starts in front of both edges or of none, but for a backslash that escapes the edge. -/
theorem startsName_front (hd : isEdge d = true) (hd' : isEdge d' = true)
    (hlone : ['\\'] <:+ u → d = '\n' → d' = '\n') (t t' : Text) :
    startsName (u ++ d' :: t') = startsName (u ++ d :: t)
      ∨ u.length < nameLength (u ++ d :: t) ∧ startsName (u ++ d :: t) = true := by
  match u, hlone with
  | [], _ =>
    left
    rw [List.nil_append, List.nil_append, startsName_of_isEdge hd, startsName_of_isEdge hd']
  | [c], hlone =>
    by_cases hc : c = '\\'
    · subst hc
      by_cases hfeed : d = '\n'
      · left
        rw [hfeed, hlone List.suffix_rfl hfeed]
        rfl
      · right
        simp [nameLength, hfeed, startsName]
    · exact .inl (startsName_singleton hc hd hd' t t')
  | c :: x :: u, _ => exact .inl (startsName_cons_cons c x _ _)

/-- Two characters tell whether a magnitude starts. -/
theorem startsMagnitude_cons_cons (c d : Char) (t t' : Text) :
    startsMagnitude (c :: d :: t') = startsMagnitude (c :: d :: t) := by
  by_cases hdot : c = '.'
  · subst hdot
    rfl
  · simp [startsMagnitude, hdot]

theorem startsMagnitude_of_isEdge (hd : isEdge d = true) (t : Text) :
    startsMagnitude (d :: t) = false := by
  have hdot : d ≠ '.' := ne_of_isEdge hd (by decide)
  simp [startsMagnitude, hdot, isDigit_of_isEdge hd]

theorem startsMagnitude_front (hd : isEdge d = true) (hd' : isEdge d' = true) (u t t' : Text) :
    startsMagnitude (u ++ d' :: t') = startsMagnitude (u ++ d :: t) := by
  match u with
  | [] =>
    rw [List.nil_append, List.nil_append, startsMagnitude_of_isEdge hd,
      startsMagnitude_of_isEdge hd']
  | [c] =>
    by_cases hdot : c = '.'
    · subst hdot
      simp [startsMagnitude, isDigit_of_isEdge hd, isDigit_of_isEdge hd']
    · simp [startsMagnitude, hdot]
  | c :: x :: u => exact startsMagnitude_cons_cons c x _ _

/-- A class of characters without edges is not at the front of both texts or of none. -/
theorem startsWith_front {p : Char → Bool} (hd : p d = false) (hd' : p d' = false) (u t t' : Text) :
    startsWith p (u ++ d' :: t') = startsWith p (u ++ d :: t) := by
  cases u with
  | nil => exact hd'.trans hd.symm
  | cons => rfl

/-- A run of characters that ends in front of the edge. -/
theorem takeWhile_front {p : Char → Bool} (h : ((u ++ d :: t).takeWhile p).length ≤ u.length)
    (hstop : (u ++ d :: t).takeWhile p = u → p d = false → p d' = false) :
    (u ++ d' :: t').takeWhile p = (u ++ d :: t).takeWhile p := by
  rw [List.takeWhile_append] at h hstop ⊢
  rw [List.takeWhile_append]
  split
  · rename_i hall
    rw [if_pos hall, List.length_append] at h
    have hd : p d = false := by
      by_contra hgo
      simp [hgo] at h
    have hd' : p d' = false := hstop (by simp [hall, hd]) hd
    simp [hd, hd']
  · rfl

/-- A run of characters of a class without the edge ends in front of it. -/
theorem takeWhile_stop {p : Char → Bool} (hp : p d = false) (u t : Text) :
    (u ++ d :: t).takeWhile p = u.takeWhile p := by
  induction u with
  | nil => simp [hp]
  | cons c u ih => simp only [List.cons_append, List.takeWhile_cons, ih]

theorem nameLength_cons {c : Char} (hc : c ≠ '\\') (t : Text) :
    nameLength (c :: t) = if isNameChar c then nameLength t + 1 else 0 := by
  cases t <;> simp [nameLength, hc]

/-- No name goes on with an edge. -/
theorem nameLength_of_isEdge (hd : isEdge d = true) (t : Text) : nameLength (d :: t) = 0 := by
  rw [nameLength_cons (ne_of_isEdge hd (by decide)), isNameChar_of_isEdge hd]
  rfl

theorem nameLength_front (hd : isEdge d = true) (hd' : isEdge d' = true)
    (hlone : ['\\'] <:+ u → d = '\n' → d' = '\n') (h : nameLength (u ++ d :: t) ≤ u.length) :
    nameLength (u ++ d' :: t') = nameLength (u ++ d :: t) := by
  fun_induction nameLength u with
  | case1 => simp [nameLength]
  | case2 c cs hc ih =>
    simp only [List.cons_append, nameLength, if_neg hc, List.length_cons] at h ⊢
    rw [ih (fun hsuffix => hlone (hsuffix.trans ⟨['\\', c], rfl⟩)) (by omega)]
  | case3 c cs _ hname ih =>
    have hc : c ≠ '\\' := by
      rintro rfl
      cases hname
    simp only [List.cons_append, nameLength_cons hc, if_pos hname, List.length_cons] at h ⊢
    rw [ih (fun hsuffix => hlone (hsuffix.trans (List.suffix_cons c cs))) (by omega)]
  | case4 c cs hplain hname =>
    by_cases hc : c = '\\'
    · -- an escape at the end would take the edge
      cases cs with
      | nil =>
        subst hc
        by_cases hfeed : d = '\n'
        · simp [nameLength, hfeed, hlone List.suffix_rfl hfeed]
        · simp [nameLength, hfeed] at h
      | cons x cs => exact absurd rfl (hplain x cs hc)
    · simp only [List.cons_append, nameLength_cons hc, if_neg hname]
  | case5 =>
    rw [List.nil_append, List.nil_append, nameLength_of_isEdge hd, nameLength_of_isEdge hd']

theorem digitsLength_stop (hd : isEdge d = true) (u t : Text) :
    digitsLength (u ++ d :: t) = digitsLength u := by
  rw [digitsLength, takeWhile_stop (isDigit_of_isEdge hd), digitsLength]

theorem magnitudeLength_stop (hd : isEdge d = true) (u t : Text) :
    magnitudeLength (u ++ d :: t) = magnitudeLength u := by
  have hle := digitsLength_le u
  have hdot : d ≠ '.' := ne_of_isEdge hd (by decide)
  simp only [magnitudeLength, digitsLength_stop hd, List.drop_append_of_le_length hle]
  generalize u.drop (digitsLength u) = back
  cases back with
  | nil => simp [hdot]
  | cons c back =>
    by_cases hdot : c = '.'
    · subst hdot
      simp only [List.cons_append, digitsLength_stop hd]
      cases back with
      | nil => simp [startsWith, isDigit_of_isEdge hd]
      | cons => rfl
    · simp [hdot]

theorem unitLength_cons {c : Char} (hc : c ≠ '%') (t : Text) :
    unitLength (c :: t) = if isNameStart c then nameLength (c :: t) else 0 := by
  unfold unitLength
  split
  · rename_i heq
    exact absurd (List.cons.inj heq).1 hc
  · rfl

theorem unitLength_of_isEdge (hd : isEdge d = true) (t : Text) : unitLength (d :: t) = 0 := by
  rw [unitLength_cons (ne_of_isEdge hd (by decide)), isNameStart_of_isEdge hd]
  rfl

theorem unitLength_front (hd : isEdge d = true) (hd' : isEdge d' = true)
    (hlone : ['\\'] <:+ u → d = '\n' → d' = '\n') (h : unitLength (u ++ d :: t) ≤ u.length) :
    unitLength (u ++ d' :: t') = unitLength (u ++ d :: t) := by
  match u with
  | [] => rw [List.nil_append, List.nil_append, unitLength_of_isEdge hd, unitLength_of_isEdge hd']
  | c :: u =>
    by_cases hc : c = '%'
    · subst hc
      rfl
    · simp only [List.cons_append, unitLength_cons hc] at h ⊢
      split_ifs at h ⊢ with hname
      · exact nameLength_front (u := c :: u) hd hd' hlone h
      · rfl

theorem numberLength_front (hd : isEdge d = true) (hd' : isEdge d' = true)
    (hlone : ['\\'] <:+ u → d = '\n' → d' = '\n') (h : numberLength (u ++ d :: t) ≤ u.length) :
    numberLength (u ++ d' :: t') = numberLength (u ++ d :: t) := by
  have hle := magnitudeLength_le u
  simp only [numberLength, magnitudeLength_stop hd, magnitudeLength_stop hd',
    List.drop_append_of_le_length hle] at h ⊢
  have hunit : unitLength (u.drop (magnitudeLength u) ++ d :: t) ≤
      (u.drop (magnitudeLength u)).length := by
    rw [List.length_drop]
    omega
  rw [unitLength_front hd hd' (fun hsuffix => hlone (hsuffix.trans (List.drop_suffix _ _))) hunit]

/-- What is not taken for an escape does not start with a backslash. -/
theorem ne_backslash_of_not_escape {cs : Text} (hlone : c = '\\' → cs = [] → False)
    (hescape : ∀ x rest, c = '\\' → cs = x :: rest → False) : c ≠ '\\' := by
  intro hc
  cases cs with
  | nil => exact hlone hc rfl
  | cons x rest => exact hescape x rest hc rfl

theorem stringTail_cons {quote c : Char} (hc : c ≠ '\\') (t : Text) :
    stringTail quote (c :: t) =
      if isLineBreak c then (.error, 0)
      else if c = quote then (.string, 1)
      else ((stringTail quote t).1, (stringTail quote t).2 + 1) := by
  cases t <;> simp [stringTail, hc]

/-- A string goes on with an edge other than a line break. -/
theorem stringTail_of_isEdge (quote : Char) (hd : isEdge d = true) (t : Text) :
    isLineBreak d = true ∧ stringTail quote (d :: t) = (.error, 0)
      ∨ 0 < (stringTail quote (d :: t)).2 := by
  rw [stringTail_cons (ne_of_isEdge hd (by decide))]
  split
  · rename_i hbreak
    exact .inl ⟨hbreak, rfl⟩
  · split
    · exact .inr (Nat.succ_pos _)
    · exact .inr (Nat.succ_pos _)

theorem stringTail_front {quote : Char} (hd : isEdge d = true) (hd' : isEdge d' = true)
    (h : (stringTail quote (u ++ d :: t)).2 ≤ u.length)
    (hend : stringTail quote (u ++ d :: t) = (.error, u.length) →
      isLineBreak d = true → isLineBreak d' = true) :
    stringTail quote (u ++ d' :: t') = stringTail quote (u ++ d :: t) := by
  fun_induction stringTail quote u with
  | case1 =>
    rcases stringTail_of_isEdge quote hd t with ⟨hline, herror⟩ | hpos
    · have hline' := hend herror hline
      rw [List.nil_append, List.nil_append, herror, stringTail_cons (ne_of_isEdge hd' (by decide)),
        if_pos hline']
    · exact absurd h (Nat.not_le.mpr hpos)
  | case2 => simp [stringTail] at h
  | case3 c cs tail ih =>
    simp only [List.cons_append, stringTail, List.length_cons] at h hend ⊢
    rw [ih (by omega) fun herror => hend (by rw [herror])]
  | case4 c cs hone hescape hbreak =>
    have hc : c ≠ '\\' := by
      rintro rfl
      cases hbreak
    simp only [List.cons_append, stringTail_cons hc, if_pos hbreak]
  | case5 cs hone hescape hbreak =>
    have hc : quote ≠ '\\' := ne_backslash_of_not_escape hone hescape
    simp only [List.cons_append, stringTail_cons hc, if_neg hbreak, if_true]
  | case6 c cs hone hescape hbreak hquote tail ih =>
    have hc : c ≠ '\\' := ne_backslash_of_not_escape hone hescape
    simp only [List.cons_append, stringTail_cons hc, if_neg hbreak, if_neg hquote,
      List.length_cons] at h hend ⊢
    rw [ih (by omega) fun herror => hend (by rw [herror])]

theorem two_le_commentTail? {t : Text} {n : Nat} (h : commentTail? t = some n) : 2 ≤ n := by
  fun_induction commentTail? t generalizing n with
  | case1 =>
    cases h
    exact Nat.le_refl 2
  | case2 _ _ _ ih =>
    obtain ⟨m, hm, rfl⟩ := Option.map_eq_some_iff.mp h
    exact Nat.le_succ_of_le (ih hm)
  | case3 => cases h

theorem commentTail?_cons (c : Char) (t : Text) :
    commentTail? (c :: t) =
      if c = '*' ∧ t.head? = some '/' then some 2 else (commentTail? t).map (· + 1) := by
  split_ifs with hclose
  · obtain ⟨rfl, hslash⟩ := hclose
    obtain ⟨rest, rfl⟩ := List.head?_eq_some_iff.mp hslash
    rfl
  · conv_lhs => unfold commentTail?
    split
    · rename_i heq
      cases heq
      exact absurd ⟨rfl, rfl⟩ hclose
    · rename_i heq
      cases heq
      rfl
    · rename_i heq
      cases heq

/-- A closed comment does not look behind its end. -/
theorem commentTail?_front {n : Nat} (h : commentTail? (u ++ s) = some n) (hn : n ≤ u.length)
    (s' : Text) : commentTail? (u ++ s') = some n := by
  have htwo := two_le_commentTail? h
  induction u generalizing n with
  | nil =>
    rw [List.length_nil] at hn
    omega
  | cons c u ih =>
    cases u with
    | nil =>
      rw [List.length_singleton] at hn
      omega
    | cons x u =>
      rw [List.cons_append, commentTail?_cons, List.cons_append, List.head?_cons] at h ⊢
      split_ifs at h ⊢
      · exact h
      · obtain ⟨m, hm, rfl⟩ := Option.map_eq_some_iff.mp h
        rw [← List.cons_append, ih hm (Nat.le_of_succ_le_succ hn) (two_le_commentTail? hm)]
        rfl

theorem interpolationTail?_pos {depth n : Nat} {quote : Option Char} {t : Text}
    (h : interpolationTail? depth quote t = some n) : 0 < n := by
  fun_induction interpolationTail? depth quote t generalizing n with
  | case1 | case2 => cases h
  | case7 =>
    cases h
    exact Nat.succ_pos _
  | case3 | case4 | case5 | case6 | case8 | case9 =>
    obtain ⟨m, -, rfl⟩ := Option.map_eq_some_iff.mp h
    exact Nat.succ_pos _

theorem interpolationTail?_quoted (depth : Nat) {q c : Char} (hc : c ≠ '\\') (t : Text) :
    interpolationTail? depth (some q) (c :: t) =
      (interpolationTail? depth (if c = q then none else some q) t).map (· + 1) := by
  cases t <;> simp [interpolationTail?, hc]

theorem interpolationTail?_bare (depth : Nat) (c : Char) (t : Text) :
    interpolationTail? depth none (c :: t) =
      if c = '"' ∨ c = '\'' then (interpolationTail? depth (some c) t).map (· + 1)
      else if c = '\x7b' then (interpolationTail? (depth + 1) none t).map (· + 1)
      else if c = '\x7d' then
        match depth with
        | 0 => some 1
        | d + 1 => (interpolationTail? d none t).map (· + 1)
      else (interpolationTail? depth none t).map (· + 1) := by
  conv_lhs => unfold interpolationTail?
  split
  case h_5 c' t' _ heq =>
    obtain ⟨rfl, rfl⟩ := List.cons.inj heq
    rfl
  all_goals contradiction

theorem interpolationTail?_front {depth n : Nat} {quote : Option Char}
    (h : interpolationTail? depth quote (u ++ s) = some n) (hn : n ≤ u.length) :
    interpolationTail? depth quote (u ++ s') = some n := by
  fun_induction interpolationTail? depth quote u generalizing n with
  | case1 => exact absurd hn (Nat.not_le.mpr (interpolationTail?_pos h))
  | case2 depth q =>
    -- the escape takes a character from behind
    cases s with
    | nil => cases h
    | cons c s =>
      rw [List.cons_append, List.nil_append, interpolationTail?] at h
      obtain ⟨m, -, rfl⟩ := Option.map_eq_some_iff.mp h
      simp at hn
  | case3 depth q c cs ih =>
    rw [List.cons_append, List.cons_append, interpolationTail?] at h ⊢
    obtain ⟨m, hm, rfl⟩ := Option.map_eq_some_iff.mp h
    rw [ih hm (by simpa using hn)]
    rfl
  | case4 depth q c cs hone hescape ih =>
    have hc : c ≠ '\\' := ne_backslash_of_not_escape hone hescape
    rw [List.cons_append, interpolationTail?_quoted depth hc] at h ⊢
    obtain ⟨m, hm, rfl⟩ := Option.map_eq_some_iff.mp h
    rw [ih hm (by simpa using hn)]
    rfl
  | case5 depth c cs hquote ih =>
    rw [List.cons_append, interpolationTail?_bare, if_pos hquote] at h ⊢
    obtain ⟨m, hm, rfl⟩ := Option.map_eq_some_iff.mp h
    rw [ih hm (by simpa using hn)]
    rfl
  | case6 depth cs hquote ih =>
    rw [List.cons_append, interpolationTail?_bare, if_neg hquote, if_pos rfl] at h ⊢
    obtain ⟨m, hm, rfl⟩ := Option.map_eq_some_iff.mp h
    rw [ih hm (by simpa using hn)]
    rfl
  | case7 cs hquote hopen =>
    rw [List.cons_append, interpolationTail?_bare, if_neg hquote, if_neg hopen, if_pos rfl] at h ⊢
    exact h
  | case8 cs d hquote hopen ih =>
    rw [List.cons_append, interpolationTail?_bare, if_neg hquote, if_neg hopen, if_pos rfl] at h ⊢
    obtain ⟨m, hm, rfl⟩ := Option.map_eq_some_iff.mp h
    simp only [ih hm (by simpa using hn), Option.map_some]
  | case9 depth c cs hquote hopen hclose ih =>
    rw [List.cons_append, interpolationTail?_bare, if_neg hquote, if_neg hopen,
      if_neg hclose] at h ⊢
    obtain ⟨m, hm, rfl⟩ := Option.map_eq_some_iff.mp h
    rw [ih hm (by simpa using hn)]
    rfl


theorem urlTail_cons {c : Char} (hc : c ≠ ')') (t : Text) :
    urlTail (c :: t) =
      if isLineBreak c then (.error, 0) else ((urlTail t).1, (urlTail t).2 + 1) := by
  rw [urlTail, if_neg hc]

theorem urlTail_front (hd : isEdge d = true) (hd' : isEdge d' = true)
    (h : (urlTail (u ++ d :: t)).2 ≤ u.length)
    (hend : urlTail (u ++ d :: t) = (.error, u.length) →
      isLineBreak d = true → isLineBreak d' = true) :
    urlTail (u ++ d' :: t') = urlTail (u ++ d :: t) := by
  induction u with
  | nil =>
    have hsame := urlTail_cons (ne_of_isEdge hd (c := ')') (by decide)) t
    rw [List.nil_append, hsame] at h hend
    rw [List.nil_append, List.nil_append, hsame, urlTail_cons (ne_of_isEdge hd' (by decide))]
    by_cases hline : isLineBreak d = true
    · rw [if_pos hline] at hend
      rw [if_pos hline, if_pos (hend rfl hline)]
    · rw [if_neg hline] at h
      cases h
  | cons c u ih =>
    simp only [List.cons_append, urlTail, List.length_cons] at h hend ⊢
    split_ifs at h hend ⊢ with hclose hline
    · rfl
    · rfl
    · rw [ih (Nat.le_of_succ_le_succ h) fun herror => hend (by rw [herror])]

/-- Whether a quote stands behind whitespace is not said by what the whitespace is. -/
theorem startsWith_dropWhile_front (halike : Alike s s') (u : Text) :
    startsWith isQuote ((u ++ s').dropWhile isSpace) =
      startsWith isQuote ((u ++ s).dropWhile isSpace) := by
  rw [List.dropWhile_append, List.dropWhile_append]
  split
  · exact halike.quote
  · rename_i hstop
    obtain ⟨c, rest, hrest⟩ := List.exists_cons_of_ne_nil (mt List.isEmpty_iff.mpr hstop)
    rw [hrest]
    rfl

/-- A name is a part of what it starts. -/
theorem nameLength_le_nameOrUrl (t : Text) : nameLength t ≤ (nameOrUrl t).2 := by
  unfold nameOrUrl
  simp only
  split
  · split <;> simp only <;> omega
  · exact Nat.le_refl _

theorem nameOrUrl_front (halike : Alike (d :: t) (d' :: t'))
    (hlone : ['\\'] <:+ u → d = '\n' → d' = '\n') (h : (nameOrUrl (u ++ d :: t)).2 ≤ u.length)
    (hend : nameOrUrl (u ++ d :: t) = (.error, u.length) →
      isLineBreak d = true → isLineBreak d' = true) :
    nameOrUrl (u ++ d' :: t') = nameOrUrl (u ++ d :: t) := by
  have hd : isEdge d = true := halike.edge
  have hd' : isEdge d' = true := halike.edge'
  have hname : nameLength (u ++ d :: t) ≤ u.length :=
    Nat.le_trans (nameLength_le_nameOrUrl _) h
  have hsame : nameLength (u ++ d' :: t') = nameLength (u ++ d :: t) :=
    nameLength_front hd hd' hlone hname
  unfold nameOrUrl at h hend ⊢
  simp only [hsame, List.drop_append_of_le_length hname,
    List.take_append_of_le_length hname] at h hend ⊢
  generalize hback : u.drop (nameLength (u ++ d :: t)) = back at h hend ⊢
  cases back with
  | nil =>
    have hparen : d ≠ '(' := ne_of_isEdge hd (by decide)
    have hparen' : d' ≠ '(' := ne_of_isEdge hd' (by decide)
    simp [hparen, hparen']
  | cons x back =>
    by_cases hparen : x = '('
    · subst hparen
      have hlength : nameLength (u ++ d :: t) + (back.length + 1) = u.length := by
        rw [← List.length_cons, ← hback, List.length_drop]
        omega
      have hquote := startsWith_dropWhile_front halike back
      unfold isQuote at hquote
      simp only [List.cons_append, hquote] at h hend ⊢
      split_ifs at h hend ⊢
      · rw [urlTail_front (t := t) hd hd' (by simp only at h; omega) fun herror => hend (by
          rw [herror]
          simp only [Prod.mk.injEq, true_and]
          omega)]
      · rfl
    · simp [hparen]

/-- A mark in front of a name is read together with it. -/
theorem kindAndLength_mark (hc : c = '@' ∨ c = '$') (h : startsName t = true) :
    (kindAndLength c t).2 = nameLength t + 1 := by
  rcases hc with rfl | rfl
  · have hspace : isSpace '@' = false := by decide
    simp [kindAndLength, hspace, h]
  · have hspace : isSpace '$' = false := by decide
    simp [kindAndLength, hspace, h]

/-- The tests of the scanner agree in front of edges, when the token does not take the edge. -/
theorem sameTests_front (halike : Alike s s') (h : (kindAndLength c (u ++ s)).2 ≤ u.length + 1)
    (hlone : ['\\'] <:+ c :: u → s.head? = some '\n' → s'.head? = some '\n') :
    SameTests c (u ++ s) (u ++ s') := by
  obtain ⟨d, t, rfl, hd⟩ := exists_eq_cons_of_startsWith halike.edge
  obtain ⟨d', t', rfl, hd'⟩ := exists_eq_cons_of_startsWith halike.edge'
  simp only [List.head?_cons, Option.some.injEq] at hlone
  have hlone' : ['\\'] <:+ u → d = '\n' → d' = '\n' := fun hsuffix =>
    hlone (hsuffix.trans (List.suffix_cons c u))
  have hstar : (d' :: t').head? = some '*' ↔ (d :: t).head? = some '*' := by
    have hne : d ≠ '*' := ne_of_isEdge hd (by decide)
    have hne' : d' ≠ '*' := ne_of_isEdge hd' (by decide)
    simp [hne, hne']
  have hmark (hc : c = '@' ∨ c = '$') :
      startsName (u ++ d' :: t') = startsName (u ++ d :: t) := by
    rcases startsName_front hd hd' hlone' t t' with hsame | ⟨hlong, hname⟩
    · exact hsame
    · -- the name would take the edge
      rw [kindAndLength_mark hc hname] at h
      omega
  have hname : startsName (c :: (u ++ d' :: t')) = startsName (c :: (u ++ d :: t)) := by
    rcases startsName_front (u := c :: u) hd hd' hlone t t' with hsame | ⟨hlong, hname⟩
    · exact hsame
    · rw [List.cons_append] at hlong hname
      have hle := nameLength_le_nameOrUrl (c :: (u ++ d :: t))
      rw [kindAndLength_of_startsName hname] at h
      rw [List.length_cons] at hlong
      omega
  exact {
    slash := fun _ => head?_front halike.slash u
    star := fun _ => head?_front hstar u
    mark := hmark
    brace := fun _ => head?_front halike.brace u
    hash := fun _ => startsWith_front (isNameChar_of_isEdge hd) (isNameChar_of_isEdge hd') u t t'
    magnitude := startsMagnitude_front hd hd' (c :: u) t t'
    dash := fun _ => startsMagnitude_front hd hd' u t t'
    name := hname }

/-- **A scan that stays in front of an edge is the same in front of another one**, unless that
continues the whitespace, or takes away the line break that ended the token or kept a backslash
from escaping. -/
theorem kindAndLength_front {k : TokenKind × Nat} (halike : Alike s s')
    (hk : kindAndLength c (u ++ s) = k) (h : k.2 ≤ u.length + 1)
    (hspace : k = (.whitespace, u.length + 1) → startsWith isSpace s' = true →
      startsWith isSpace s = true)
    (hend : k.1 = .lineComment ∨ k.1 = .error → k.2 = u.length + 1 →
      startsWith isLineBreak s = true → startsWith isLineBreak s' = true)
    (hlone : ['\\'] <:+ c :: u → s.head? = some '\n' → s'.head? = some '\n') :
    kindAndLength c (u ++ s') = k := by
  obtain ⟨p, q, hp, hq, hread⟩ := (sameTests_front halike (hk ▸ h) hlone).exists_readAlike
  obtain rfl : p = k := hp.symm.trans hk
  rw [hq]
  obtain ⟨d, t, rfl, hd⟩ := exists_eq_cons_of_startsWith halike.edge
  obtain ⟨d', t', rfl, hd'⟩ := exists_eq_cons_of_startsWith halike.edge'
  simp only [startsWith, List.head?_cons, Option.some.injEq] at hspace hend hlone
  have hlone' : ['\\'] <:+ u → d = '\n' → d' = '\n' := fun hsuffix =>
    hlone (hsuffix.trans (List.suffix_cons c u))
  cases hread with
  | whitespace =>
    refine Prod.ext rfl (congrArg List.length (takeWhile_front (u := c :: u) h fun hall hstop => ?_))
    refine Bool.eq_false_iff.mpr fun hgo => ?_
    have hgoes := hspace (by rw [← List.cons_append, hall]; rfl) hgo
    rw [hstop] at hgoes
    cases hgoes
  | lineComment =>
    refine Prod.ext rfl (congrArg List.length (takeWhile_front (u := c :: u) h fun hall hstop => ?_))
    rw [Bool.not_eq_false'] at hstop ⊢
    exact hend (.inl rfl) (by rw [← List.cons_append, hall]; rfl) hstop
  | blockComment hc hhead =>
    obtain ⟨u, rfl⟩ := exists_eq_cons_of_head?_front (ne_of_isEdge hd (by decide)) hhead
    simp only [List.cons_append, List.drop_succ_cons, List.drop_zero] at h ⊢
    obtain ⟨n, htail⟩ := exists_tail_of_enclosed (h.trans (by simp))
    rw [htail] at h ⊢
    rw [commentTail?_front htail (Nat.le_of_add_le_add_right h)]
    rfl
  | string hc =>
    rw [stringTail_front (t := t) hd hd' (by simpa using h) fun herror =>
      hend (.inr (by rw [herror])) (by rw [herror])]
  | mark hc => rw [nameLength_front (t := t) hd hd' hlone' (by simpa using h)]
  | interpolation hc hhead =>
    cases u with
    | nil =>
      -- the interpolation would take the brace
      exact absurd h (Nat.not_le_of_lt (one_lt_enclosed _ d t _))
    | cons x u =>
      simp only [List.cons_append, List.drop_succ_cons, List.drop_zero] at h ⊢
      obtain ⟨n, htail⟩ := exists_tail_of_enclosed (h.trans (by simp))
      rw [htail] at h ⊢
      rw [interpolationTail?_front htail (Nat.le_of_add_le_add_right h)]
      rfl
  | hash => rw [nameLength_front (t := t) hd hd' hlone' (by simpa using h)]
  | number => exact Prod.ext rfl (numberLength_front (u := c :: u) hd hd' hlone h)
  | negative => rw [numberLength_front (t := t) hd hd' hlone' (by simpa using h)]
  | name =>
    exact nameOrUrl_front (u := c :: u) halike hlone h fun herror =>
      hend (.inr (congrArg Prod.fst herror)) (congrArg Prod.snd herror)
  | single => rfl

/-- A brace or a semicolon is a token by itself, whatever stands behind it. -/
theorem kindAndLength_closer (hc : c = '\x7b' ∨ c = '\x7d' ∨ c = ';') (t : Text) :
    kindAndLength c t = (.punct, 1) := by
  have hedge : isEdge c = true := by rcases hc with rfl | rfl | rfl <;> rfl
  have hmagnitude : startsMagnitude (c :: t) = false := startsMagnitude_of_isEdge hedge t
  have hname : startsName (c :: t) = false := startsName_of_isEdge hedge t
  rcases hc with rfl | rfl | rfl
  all_goals
    simp [kindAndLength, hmagnitude, hname, isSpace, isPunctuation]

/-- A block comment does not look behind its end. -/
theorem kindAndLength_comment (h : kindAndLength c (u ++ s) = (.blockComment, u.length + 1))
    (s' : Text) : kindAndLength c (u ++ s') = (.blockComment, u.length + 1) := by
  have hkind := kindAndLength_blockComment (by rw [h])
  rw [h] at hkind
  obtain ⟨rfl, hstar, hlength⟩ := hkind
  cases u with
  | nil => simp at hlength
  | cons x u =>
    rw [List.cons_append, List.head?_cons, Option.some.injEq] at hstar
    subst hstar
    have hspace : isSpace '/' = false := by decide
    rw [List.cons_append] at h ⊢
    cases htail : commentTail? (u ++ s) with
    | none => simp [kindAndLength, hspace, htail] at h
    | some n =>
      have hn : n = u.length := by simpa [kindAndLength, hspace, htail] using h
      have htail' := commentTail?_front htail (Nat.le_of_eq hn) s'
      simp [kindAndLength, hspace, htail', hn]

end Scan

/-! ## Tokens in front of an edge -/

/-- The token as if it stood at the start of a text: its kind and its text alone. -/
def Token.bare (t : Token) : Token := { t with span := default }

theorem Token.bare_of_isPunct {t : Token} {c : Char} (h : t.isPunct c = true) :
    t.bare = ⟨.punct, [c], default⟩ := by
  rw [isPunct, Bool.and_eq_true, beq_iff_eq, beq_iff_eq] at h
  rw [bare, h.1, h.2]

/-- Whether a token that ends in front of one text also ends in front of another: no whitespace goes
on there, and the line break that ends a line comment is there. -/
structure Token.EndsBefore (t : Token) (s s' : Text) : Prop where
  space : t.kind = .whitespace → Scan.startsWith Scan.isSpace s' = true →
    Scan.startsWith Scan.isSpace s = true
  line : t.kind = .lineComment ∨ t.kind = .error → Scan.startsWith Scan.isLineBreak s = true →
    Scan.startsWith Scan.isLineBreak s' = true

/-- Whether a token is closed by its last character: a brace, a semicolon or a block comment. -/
def Token.isClosed (t : Token) : Bool :=
  t.isPunct '\x7b' || t.isPunct '\x7d' || t.isPunct ';' || t.kind == .blockComment

namespace Tokens

/-- The token that the scanner reads at the front of a text. -/
theorem ofTextAt_eq_cons {c : Char} {w v : Text} {kind : TokenKind} (place : Position)
    (h : Scan.kindAndLength c (w ++ v) = (kind, w.length + 1)) :
    ofTextAt place (c :: (w ++ v)) =
      ⟨kind, c :: w, ⟨place, place.advance (c :: w)⟩⟩ :: ofTextAt (place.advance (c :: w)) v := by
  rw [ofTextAt]
  simp [h]

/-- What the scanner read of the first of some tokens, and of the others. -/
theorem exists_scan_of_ofTextAt_eq_cons {k : Token} {ts : List Token} {place : Position} {t : Text}
    (h : ofTextAt place t = k :: ts) :
    ∃ c w, k.text = c :: w ∧ Scan.kindAndLength c (w ++ text ts) = (k.kind, w.length + 1)
      ∧ ofTextAt (place.advance k.text) (text ts) = ts := by
  have hfirst : ofTextAt place t = [] ++ k :: ts := h
  obtain ⟨c, w, htext, hscan⟩ := exists_scan_of_ofTextAt hfirst
  refine ⟨c, w, htext, hscan, ?_⟩
  have ht : t = c :: (w ++ text ts) := by
    rw [← text_ofTextAt place t, h, text_cons, htext, List.cons_append]
  rw [ht, ofTextAt_eq_cons place hscan] at h
  rw [htext]
  exact (List.cons.inj h).2

/-- What is behind some of the tokens of a text is read off the rest of the text. -/
theorem exists_ofTextAt_of_append {before after : List Token} {place : Position} {t : Text}
    (h : ofTextAt place t = before ++ after) : ∃ place', ofTextAt place' (text after) = after := by
  induction before generalizing place t with
  | nil =>
    refine ⟨place, ?_⟩
    rw [List.nil_append] at h
    rw [← h, text_ofTextAt]
  | cons k before ih =>
    obtain ⟨c, w, -, -, hmore⟩ := exists_scan_of_ofTextAt_eq_cons h
    exact ih hmore

theorem text_ne_nil_of_ofTextAt {front after : List Token} {place : Position} {t : Text}
    (h : ofTextAt place t = front ++ after) (hne : front ≠ []) : text front ≠ [] := by
  obtain ⟨k, ks, rfl⟩ := List.exists_cons_of_ne_nil hne
  rw [text_cons]
  have hk : k.text ≠ [] := ne_nil_of_mem_ofTextAt (by rw [h]; exact List.mem_cons_self)
  simp [hk]

/-- What stands behind the first of the tokens that a text starts with. -/
theorem exists_scan_of_append {k : Token} {front after : List Token} {s : Text} {place : Position}
    (h : ofTextAt place (text (k :: front) ++ s) = k :: front ++ after) :
    ∃ c w, k.text = c :: w
      ∧ Scan.kindAndLength c (w ++ (text front ++ s)) = (k.kind, w.length + 1)
      ∧ ofTextAt (place.advance k.text) (text front ++ s) = front ++ after := by
  obtain ⟨c, w, htext, hscan, hmore⟩ := exists_scan_of_ofTextAt_eq_cons h
  have hbehind : text (front ++ after) = text front ++ s := by
    have hwhole := text_ofTextAt place (text (k :: front) ++ s)
    rw [h, List.cons_append, text_cons, text_cons, List.append_assoc] at hwhole
    exact List.append_cancel_left hwhole
  change Scan.kindAndLength c (w ++ text (front ++ after)) = _ at hscan
  change ofTextAt _ (text (front ++ after)) = front ++ after at hmore
  rw [hbehind] at hscan hmore
  exact ⟨c, w, htext, hscan, hmore⟩

/-- **The tokens in front of an edge stand in front of another one**, if the last of them ends there
and no backslash is given other than a line feed to escape. -/
theorem exists_ofTextAt_alike {front after : List Token} {s s' : Text} {place : Position}
    (halike : Scan.Alike s s') (h : ofTextAt place (text front ++ s) = front ++ after)
    (hlast : ∀ k ∈ front.getLast?, k.EndsBefore s s')
    (hlone : ['\\'] <:+ text front → s.head? = some '\n' → s'.head? = some '\n')
    (place' : Position) :
    ∃ front' place'', ofTextAt place' (text front ++ s') = front' ++ ofTextAt place'' s'
      ∧ front'.map Token.bare = front.map Token.bare := by
  induction front generalizing place place' with
  | nil => exact ⟨[], place', rfl, rfl⟩
  | cons k front ih =>
    obtain ⟨c, w, htext, hscan, hmore⟩ := exists_scan_of_append h
    have hwhole : c :: (w ++ text front) = text (k :: front) := by
      rw [text_cons, htext, List.cons_append]
    -- only the last token comes up to the edge
    have hend : w.length + 1 = (w ++ text front).length + 1 → k.EndsBefore s s' := by
      intro hlength
      have hnil : front = [] := by
        by_contra hne
        refine text_ne_nil_of_ofTextAt hmore hne (List.length_eq_zero_iff.mp ?_)
        rw [List.length_append] at hlength
        omega
      exact hlast k (by rw [hnil]; rfl)
    have hscan' : Scan.kindAndLength c (w ++ (text front ++ s')) = (k.kind, w.length + 1) := by
      rw [← List.append_assoc] at hscan ⊢
      refine Scan.kindAndLength_front halike hscan (by simp) (fun heq => ?_) (fun hkind heq => ?_)
        (by rwa [hwhole])
      · rw [Prod.mk.injEq] at heq
        exact (hend heq.2).space heq.1
      · exact (hend heq).line hkind
    obtain ⟨front', place'', hfront, hbare⟩ := ih hmore
      (fun k' hk' => hlast k' (by rw [List.getLast?_cons, hk']; rfl))
      (fun hsuffix => hlone (hsuffix.trans ⟨k.text, by rw [text_cons]⟩)) (place'.advance (c :: w))
    refine ⟨⟨k.kind, c :: w, ⟨place', place'.advance (c :: w)⟩⟩ :: front', place'', ?_, ?_⟩
    · rw [← hwhole, List.cons_append, List.append_assoc, ofTextAt_eq_cons place' hscan', hfront]
      rfl
    · rw [List.map_cons, List.map_cons, hbare, Token.bare, Token.bare, htext]

/-- A text with the same edge at its front, other than whitespace. -/
theorem exists_ofTextAt_of_head {front after : List Token} {c : Char} {t : Text} {place : Position}
    (hc : Scan.isEdge c = true) (hspace : Scan.isSpace c = false)
    (h : ofTextAt place (text front ++ c :: t) = front ++ after) (place' : Position) (t' : Text) :
    ∃ front' place'', ofTextAt place' (text front ++ c :: t') =
        front' ++ ofTextAt place'' (c :: t')
      ∧ front'.map Token.bare = front.map Token.bare := by
  have halike : Scan.Alike (c :: t) (c :: t') := .of_head hc hspace
  exact exists_ofTextAt_alike halike h (fun _ _ => ⟨fun _ h => h, fun _ h => h⟩) (fun _ h => h)
    place'

/-- A closed token starts with an edge, and is read the same whatever stands behind it. -/
theorem scan_of_isClosed {last : Token} {c : Char} {w : Text} (hclosed : last.isClosed = true)
    (htext : last.text = c :: w) {s : Text}
    (hscan : Scan.kindAndLength c (w ++ s) = (last.kind, w.length + 1)) :
    Scan.isEdge c = true ∧ Scan.isSpace c = false
      ∧ ∀ s', Scan.kindAndLength c (w ++ s') = (last.kind, w.length + 1) := by
  by_cases hcomment : last.kind = .blockComment
  · rw [hcomment] at hscan ⊢
    obtain ⟨rfl, -, -⟩ := Scan.kindAndLength_blockComment (by rw [hscan])
    exact ⟨rfl, rfl, Scan.kindAndLength_comment hscan⟩
  · have hcloser : ∃ x, (x = '\x7b' ∨ x = '\x7d' ∨ x = ';') ∧ last.isPunct x = true := by
      simpa [Token.isClosed, hcomment, or_assoc] using hclosed
    obtain ⟨x, hx, hpunct⟩ := hcloser
    rw [Token.text_of_isPunct hpunct, List.cons.injEq] at htext
    obtain ⟨rfl, rfl⟩ := htext
    have hkind : last.kind = .punct := by
      rw [Token.isPunct, Bool.and_eq_true, beq_iff_eq] at hpunct
      exact hpunct.1
    rw [hkind]
    refine ⟨?_, ?_, fun s' => Scan.kindAndLength_closer hx s'⟩
    · rcases hx with rfl | rfl | rfl <;> rfl
    · rcases hx with rfl | rfl | rfl <;> rfl

/-- **The tokens up to a closed one do not depend on what stands behind it.** -/
theorem exists_ofTextAt_closed {front after : List Token} {last : Token} {s : Text}
    {place : Position} (hclosed : last.isClosed = true)
    (h : ofTextAt place (text front ++ (last.text ++ s)) = front ++ last :: after)
    (place' : Position) (s' : Text) :
    ∃ front' place'', ofTextAt place' (text front ++ (last.text ++ s')) =
        front' ++ ofTextAt place'' s'
      ∧ front'.map Token.bare = (front ++ [last]).map Token.bare := by
  obtain ⟨c, w, htext, hscan⟩ := exists_scan_of_ofTextAt h
  obtain ⟨hedge, hspace, hsame⟩ := scan_of_isClosed hclosed htext hscan
  rw [htext, List.cons_append] at h ⊢
  obtain ⟨front', place'', hfront, hbare⟩ :=
    exists_ofTextAt_of_head hedge hspace h place' (w ++ s')
  rw [ofTextAt_eq_cons place'' (hsame s')] at hfront
  refine ⟨front' ++ [⟨last.kind, c :: w, ⟨place'', place''.advance (c :: w)⟩⟩],
    place''.advance (c :: w), ?_, ?_⟩
  · rw [hfront, List.append_assoc]
    rfl
  · rw [List.map_append, List.map_append, hbare, List.map_singleton, List.map_singleton,
      Token.bare, Token.bare, htext]

/-- **The tokens in front of a semicolon do not depend on what stands behind it.** -/
theorem exists_ofTextAt_front {front after : List Token} {s : Text} {place : Position}
    (h : ofTextAt place (text front ++ ';' :: s) = front ++ after) (place' : Position) (s' : Text) :
    ∃ front' semicolon after', ofTextAt place' (text front ++ ';' :: s') =
        front' ++ semicolon :: after'
      ∧ front'.map Token.bare = front.map Token.bare ∧ semicolon.isPunct ';' = true := by
  obtain ⟨front', place'', hfront, hbare⟩ :=
    exists_ofTextAt_of_head (c := ';') rfl rfl h place' s'
  have hsemicolon := ofTextAt_eq_cons (w := []) place''
    (Scan.kindAndLength_closer (.inr (.inr rfl)) ([] ++ s'))
  exact ⟨front', _, _, hfront.trans (congrArg (front' ++ ·) hsemicolon), hbare, rfl⟩

end Tokens

end SheetLint
