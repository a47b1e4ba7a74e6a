import SheetLint.Proofs.Token.Positions

/-!
# How tokens of a kind start

The kind of a token is decided by its first characters. What rules put in the place of a token is
told from the token by these.

Results:
* `Scan.SameTests.exists_readAlike`: texts on which the tests of the scanner agree are read in the same
  branch.
* `Scan.scanned_of_kindAndLength`: the kind of a token, read backwards.
* `Scan.kindAndLength_blockComment`, `Scan.kindAndLength_numberSign`: which kinds the scanner gives.
* `Tokens.text_of_blockComment`: a block comment starts with its mark.
* `Tokens.head?_text_ne_numberSign`: trivia and numbers start with no number sign.
-/

namespace SheetLint

namespace Scan

theorem stringTail_kind (quote : Char) (t : Text) :
    (stringTail quote t).1 = .string ∨ (stringTail quote t).1 = .error := by
  fun_induction stringTail quote t with
  | case1 | case2 | case4 => exact .inr rfl
  | case3 c cs tail ih => exact ih
  | case5 => exact .inl rfl
  | case6 c cs _ _ _ _ tail ih => exact ih

theorem urlTail_kind (t : Text) : (urlTail t).1 = .url ∨ (urlTail t).1 = .error := by
  fun_induction urlTail t with
  | case1 | case3 => exact .inr rfl
  | case2 => exact .inl rfl
  | case4 c cs _ _ tail ih => exact ih

theorem nameOrUrl_kind (t : Text) :
    (nameOrUrl t).1 = .ident ∨ (nameOrUrl t).1 = .url ∨ (nameOrUrl t).1 = .error := by
  unfold nameOrUrl
  simp only
  split
  · split
    · exact .inr (urlTail_kind _)
    · exact .inl rfl
  · exact .inl rfl

theorem nameOrUrl_ident {t : Text} (h : (nameOrUrl t).1 = .ident) :
    (nameOrUrl t).2 = nameLength t := by
  have hcases : (nameOrUrl t).2 = nameLength t ∨ ∃ inside, (nameOrUrl t).1 = (urlTail inside).1 := by
    unfold nameOrUrl
    simp only
    split
    · split
      · exact .inr ⟨_, rfl⟩
      · exact .inl rfl
    · exact .inl rfl
  rcases hcases with hname | ⟨inside, hurl⟩
  · exact hname
  · rw [hurl] at h
    rcases urlTail_kind inside with hkind | hkind <;> rw [hkind] at h <;> cases h

/-! ## What starts a name -/

section

variable {t : Text} {c d : Char}

theorem isDigit_of_isNameStart (hc : isNameStart c = true) : c.isDigit = false := by
  rw [Bool.eq_false_iff]
  intro hdigit
  simp only [Char.isDigit, Bool.and_eq_true, decide_eq_true_eq, ge_iff_le, UInt32.le_iff_toNat_le]
    at hdigit
  simp only [isNameStart, isWide, Char.isAlpha, Char.isUpper, Char.isLower, Bool.or_eq_true,
    Bool.and_eq_true, decide_eq_true_eq, beq_iff_eq, ge_iff_le, UInt32.le_iff_toNat_le] at hc
  change 48 ≤ c.toNat ∧ c.toNat ≤ 57 at hdigit
  change (((65 ≤ c.toNat ∧ c.toNat ≤ 90) ∨ (97 ≤ c.toNat ∧ c.toNat ≤ 122)) ∨ c = '_') ∨
    128 ≤ c.toNat at hc
  rcases hc with (h | rfl) | h
  · omega
  · exact absurd hdigit (by decide)
  · omega

/-- What starts no name is not the start of one. -/
theorem ne_of_isNameStart (hc : isNameStart c = true) (hd : isNameStart d = false) : c ≠ d := by
  rintro rfl
  rw [hd] at hc
  cases hc

theorem isSpace_of_isNameStart (hc : isNameStart c = true) : isSpace c = false := by
  rw [Bool.eq_false_iff]
  intro hspace
  simp only [isSpace, Bool.or_eq_true, beq_iff_eq] at hspace
  rcases hspace with (((rfl | rfl) | rfl) | rfl) | rfl <;> cases hc

/-- A text that starts a name starts no magnitude, nor does a dash make it one. -/
theorem startsMagnitude_of_startsName (h : startsName t = true) : startsMagnitude t = false := by
  cases t with
  | nil => rfl
  | cons c t =>
    by_cases hc : c = '-' ∨ c = '\\'
    · rcases hc with rfl | rfl <;> rfl
    · rw [not_or] at hc
      have hstart : isNameStart c = true := by simpa [startsName, hc.1, hc.2] using h
      have hdot := ne_of_isNameStart hstart (d := '.') rfl
      simp [startsMagnitude, hdot, isDigit_of_isNameStart hstart]

theorem startsMagnitude_of_dash (h : startsName ('-' :: t) = true) : startsMagnitude t = false := by
  cases t with
  | nil => rfl
  | cons c t =>
    have hc : (isNameStart c = true ∨ c = '-') ∨ c = '\\' := by simpa [startsName] using h
    rcases hc with (hstart | rfl) | rfl
    · have hdot := ne_of_isNameStart hstart (d := '.') rfl
      simp [startsMagnitude, hdot, isDigit_of_isNameStart hstart]
    · rfl
    · rfl

theorem kindAndLength_of_startsName (h : startsName (c :: t) = true) :
    kindAndLength c t = nameOrUrl (c :: t) := by
  have hmagnitude := startsMagnitude_of_startsName h
  by_cases hdash : c = '-'
  · subst hdash
    simp [kindAndLength, h, hmagnitude, startsMagnitude_of_dash h, isSpace]
  · by_cases hescape : c = '\\'
    · subst hescape
      simp [kindAndLength, h, hmagnitude, isSpace]
    · have hstart : isNameStart c = true := by simpa [startsName, hdash, hescape] using h
      have hne {d : Char} (hd : isNameStart d = false) : c ≠ d := ne_of_isNameStart hstart hd
      simp [kindAndLength, h, hmagnitude, isSpace_of_isNameStart hstart, hne (d := '/') rfl,
        hne (d := '"') rfl, hne (d := '\'') rfl, hne (d := '@') rfl, hne (d := '$') rfl,
        hne (d := '#') rfl, hdash]

end

/-! ## The branches of the scanner -/

/-- What is read up to the end of a comment or an interpolation, which is an error without it. -/
def enclosed (kind : TokenKind) (t : Text) : Option Nat → TokenKind × Nat
  | some n => (kind, n + 2)
  | none => (.error, t.length + 1)

theorem one_lt_enclosed (kind : TokenKind) (c : Char) (t : Text) (tail? : Option Nat) :
    1 < (enclosed kind (c :: t) tail?).2 := by
  cases tail? <;> simp [enclosed]

/-- What does not take the whole text has its end. -/
theorem exists_tail_of_enclosed {kind : TokenKind} {t : Text} {tail? : Option Nat}
    (h : (enclosed kind t tail?).2 ≤ t.length) : ∃ n, tail? = some n := by
  cases tail? with
  | none => exact absurd h (Nat.not_succ_le_self _)
  | some n => exact ⟨n, rfl⟩

/-- **How two texts are read in the same branch of the scanner**, behind the same character: the test
that the first text passes, and what is read off each. -/
inductive ReadAlike (c : Char) (s t : Text) : TokenKind × Nat → TokenKind × Nat → Prop
  | whitespace (hspace : isSpace c = true) :
    ReadAlike c s t (.whitespace, ((c :: s).takeWhile isSpace).length)
      (.whitespace, ((c :: t).takeWhile isSpace).length)
  | lineComment (hc : c = '/') (hhead : s.head? = some '/') :
    ReadAlike c s t (.lineComment, ((c :: s).takeWhile (!isLineBreak ·)).length)
      (.lineComment, ((c :: t).takeWhile (!isLineBreak ·)).length)
  | blockComment (hc : c = '/') (hhead : s.head? = some '*') :
    ReadAlike c s t (enclosed .blockComment s (commentTail? (s.drop 1)))
      (enclosed .blockComment t (commentTail? (t.drop 1)))
  | string (hc : c = '"' ∨ c = '\'') :
    ReadAlike c s t ((stringTail c s).1, (stringTail c s).2 + 1)
      ((stringTail c t).1, (stringTail c t).2 + 1)
  | mark {kind : TokenKind} (hc : c = '@' ∧ kind = .atKeyword ∨ c = '$' ∧ kind = .variable)
    (hname : startsName s = true) :
    ReadAlike c s t (kind, nameLength s + 1) (kind, nameLength t + 1)
  | interpolation (hc : c = '#') (hhead : s.head? = some '\x7b') :
    ReadAlike c s t (enclosed .interpolation s (interpolationTail? 0 none (s.drop 1)))
      (enclosed .interpolation t (interpolationTail? 0 none (t.drop 1)))
  | hash (hc : c = '#') (hname : startsWith isNameChar s = true) :
    ReadAlike c s t (.hash, nameLength s + 1) (.hash, nameLength t + 1)
  | number (hmagnitude : startsMagnitude (c :: s) = true) :
    ReadAlike c s t (.number, numberLength (c :: s)) (.number, numberLength (c :: t))
  | negative (hc : c = '-') (hmagnitude : startsMagnitude s = true) :
    ReadAlike c s t (.number, numberLength s + 1) (.number, numberLength t + 1)
  | name (hname : startsName (c :: s) = true) :
    ReadAlike c s t (nameOrUrl (c :: s)) (nameOrUrl (c :: t))
  | single {kind : TokenKind} (hspace : isSpace c = false)
    (hkind : kind = .combinator ∨ kind = .punct ∨ kind = .error) : ReadAlike c s t (kind, 1) (kind, 1)

/-- Texts on which the tests of the scanner agree, behind the same character. -/
structure SameTests (c : Char) (s t : Text) : Prop where
  slash : c = '/' → (t.head? = some '/' ↔ s.head? = some '/')
  star : c = '/' → (t.head? = some '*' ↔ s.head? = some '*')
  mark : c = '@' ∨ c = '$' → startsName t = startsName s
  brace : c = '#' → (t.head? = some '\x7b' ↔ s.head? = some '\x7b')
  hash : c = '#' → startsWith isNameChar t = startsWith isNameChar s
  magnitude : startsMagnitude (c :: t) = startsMagnitude (c :: s)
  dash : c = '-' → startsMagnitude t = startsMagnitude s
  name : startsName (c :: t) = startsName (c :: s)

theorem SameTests.refl (c : Char) (s : Text) : SameTests c s s :=
  ⟨fun _ => .rfl, fun _ => .rfl, fun _ => rfl, fun _ => .rfl, fun _ => rfl, rfl, fun _ => rfl, rfl⟩

/-- One test at a time: a text that passes it is read in its branch. -/
theorem ReadAlike.ite {c : Char} {s t : Text} {b : Bool} {p q p' q' : TokenKind × Nat}
    (hpos : b = true → ReadAlike c s t p q) (hneg : b ≠ true → ReadAlike c s t p' q') :
    ReadAlike c s t (if b then p else p') (if b then q else q') := by
  cases b with
  | false => exact hneg Bool.false_ne_true
  | true => exact hpos rfl

/-- **Texts on which the tests agree are read in the same branch.** -/
theorem SameTests.exists_readAlike {c : Char} {s t : Text} (h : SameTests c s t) :
    ∃ p q, kindAndLength c s = p ∧ kindAndLength c t = q ∧ ReadAlike c s t p q := by
  have hboth {d : Char} {p q : Bool} (hpq : c = d → p = q) :
      (decide (c = d) && p) = (decide (c = d) && q) := by
    by_cases hc : c = d
    · rw [hpq hc]
    · rw [decide_eq_false hc, Bool.false_and, Bool.false_and]
  have hfirst {d e : Char} (hsame : c = d → (t.head? = some e ↔ s.head? = some e)) :
      (decide (c = d) && decide (t.head? = some e)) = (decide (c = d) && decide (s.head? = some e)) :=
    hboth fun hc => decide_eq_decide.mpr (hsame hc)
  have htest {d : Char} {p : Bool} (hpq : (decide (c = d) && p) = true) : c = d ∧ p = true := by
    rwa [Bool.and_eq_true, decide_eq_true_eq] at hpq
  have hhead {d e : Char} (hde : (decide (c = d) && decide (s.head? = some e)) = true) :
      c = d ∧ s.head? = some e :=
    (htest hde).imp_right of_decide_eq_true
  refine ⟨_, _, rfl, rfl, ?_⟩
  unfold kindAndLength
  rw [hfirst h.slash, hfirst h.star, hboth fun hc => h.mark (.inl hc),
    hboth fun hc => h.mark (.inr hc), hfirst h.brace, hboth h.hash, h.magnitude, hboth h.dash, h.name]
  refine .ite (fun hspace => .whitespace hspace) fun hspace => ?_
  refine .ite (fun hline => .lineComment (hhead hline).1 (hhead hline).2) fun _ => ?_
  refine .ite (fun hblock => .blockComment (hhead hblock).1 (hhead hblock).2) fun _ => ?_
  refine .ite (fun hquote => .string (by simpa using hquote)) fun _ => ?_
  refine .ite (fun hat => .mark (.inl ⟨(htest hat).1, rfl⟩) (htest hat).2) fun _ => ?_
  refine .ite (fun hdollar => .mark (.inr ⟨(htest hdollar).1, rfl⟩) (htest hdollar).2) fun _ => ?_
  refine .ite (fun hopen => .interpolation (hhead hopen).1 (hhead hopen).2) fun _ => ?_
  refine .ite (fun hhash => .hash (htest hhash).1 (htest hhash).2) fun _ => ?_
  refine .ite (fun hmagnitude => .number hmagnitude) fun _ => ?_
  refine .ite (fun hdash => .negative (htest hdash).1 (htest hdash).2) fun _ => ?_
  refine .ite (fun hname => .name hname) fun _ => ?_
  have hspace' : isSpace c = false := Bool.eq_false_iff.mpr hspace
  refine .ite (fun _ => .single hspace' (.inl rfl)) fun _ => ?_
  exact .ite (fun _ => .single hspace' (.inr (.inl rfl))) fun _ => .single hspace' (.inr (.inr rfl))

/-! ## What the kind of a token says -/

/-- **How a token is scanned**: its kind and length by the test that its first characters pass. An
error is a token without its end, or a character that no token starts with. -/
inductive Scanned (c : Char) (rest : Text) : TokenKind → Nat → Prop
  | whitespace (hspace : isSpace c = true) :
    Scanned c rest .whitespace ((c :: rest).takeWhile isSpace).length
  | lineComment (hc : c = '/') (hhead : rest.head? = some '/') :
    Scanned c rest .lineComment ((c :: rest).takeWhile (!isLineBreak ·)).length
  | blockComment {n : Nat} (hc : c = '/') (hhead : rest.head? = some '*')
    (htail : commentTail? (rest.drop 1) = some n) : Scanned c rest .blockComment (n + 2)
  | string {n : Nat} (hc : c = '"' ∨ c = '\'') (htail : stringTail c rest = (.string, n)) :
    Scanned c rest .string (n + 1)
  | atKeyword (hc : c = '@') (hname : startsName rest = true) :
    Scanned c rest .atKeyword (nameLength rest + 1)
  | variable (hc : c = '$') (hname : startsName rest = true) :
    Scanned c rest .variable (nameLength rest + 1)
  | interpolation {n : Nat} (hc : c = '#') (hhead : rest.head? = some '\x7b')
    (htail : interpolationTail? 0 none (rest.drop 1) = some n) : Scanned c rest .interpolation (n + 2)
  | hash (hc : c = '#') (hname : startsWith isNameChar rest = true) :
    Scanned c rest .hash (nameLength rest + 1)
  | number (hmagnitude : startsMagnitude (c :: rest) = true) :
    Scanned c rest .number (numberLength (c :: rest))
  | negative (hc : c = '-') (hmagnitude : startsMagnitude rest = true) :
    Scanned c rest .number (numberLength rest + 1)
  | ident {n : Nat} (hname : startsName (c :: rest) = true)
    (hread : nameOrUrl (c :: rest) = (.ident, n)) : Scanned c rest .ident n
  | url {n : Nat} (hname : startsName (c :: rest) = true)
    (hread : nameOrUrl (c :: rest) = (.url, n)) : Scanned c rest .url n
  | combinator : Scanned c rest .combinator 1
  | punct (hspace : isSpace c = false) : Scanned c rest .punct 1
  | error (n : Nat) : Scanned c rest .error n

/-- **What the kind of a token says** about its first characters and its length. -/
theorem scanned_of_kindAndLength {c : Char} {rest : Text} {k : TokenKind} {n : Nat}
    (h : kindAndLength c rest = (k, n)) : Scanned c rest k n := by
  obtain ⟨p, _, hp, -, halike⟩ := (SameTests.refl c rest).exists_readAlike
  suffices hscanned : Scanned c rest p.1 p.2 by rwa [← hp, h] at hscanned
  cases halike with
  | whitespace hspace => exact .whitespace hspace
  | lineComment hc hhead => exact .lineComment hc hhead
  | blockComment hc hhead =>
    cases htail : commentTail? (rest.drop 1) with
    | none => exact .error _
    | some n => exact .blockComment hc hhead htail
  | string hc =>
    rcases stringTail_kind c rest with hkind | hkind <;> rw [hkind]
    · exact .string hc (Prod.ext hkind rfl)
    · exact .error _
  | mark hc hname =>
    rcases hc with ⟨hc, rfl⟩ | ⟨hc, rfl⟩
    · exact .atKeyword hc hname
    · exact .variable hc hname
  | interpolation hc hhead =>
    cases htail : interpolationTail? 0 none (rest.drop 1) with
    | none => exact .error _
    | some n => exact .interpolation hc hhead htail
  | hash hc hname => exact .hash hc hname
  | number hmagnitude => exact .number hmagnitude
  | negative hc hmagnitude => exact .negative hc hmagnitude
  | name hname =>
    rcases nameOrUrl_kind (c :: rest) with hkind | hkind | hkind <;> rw [hkind]
    · exact .ident hname (Prod.ext hkind rfl)
    · exact .url hname (Prod.ext hkind rfl)
    · exact .error _
  | single hspace hkind =>
    rcases hkind with rfl | rfl | rfl
    · exact .combinator
    · exact .punct hspace
    · exact .error _

theorem exists_scanned {c : Char} {rest : Text} {k : TokenKind}
    (h : (kindAndLength c rest).1 = k) : ∃ n, kindAndLength c rest = (k, n) ∧ Scanned c rest k n :=
  have heq : kindAndLength c rest = (k, (kindAndLength c rest).2) := Prod.ext h rfl
  ⟨_, heq, scanned_of_kindAndLength heq⟩

/-- How an identifier is read. -/
theorem nameOrUrl_of_ident {c : Char} {rest : Text} {n : Nat}
    (h : kindAndLength c rest = (.ident, n)) :
    startsName (c :: rest) = true ∧ nameOrUrl (c :: rest) = (.ident, n) := by
  cases scanned_of_kindAndLength h with
  | ident hname hread => exact ⟨hname, hread⟩

theorem nameLength_of_ident {c : Char} {rest : Text} {n : Nat}
    (h : kindAndLength c rest = (.ident, n)) : nameLength (c :: rest) = n := by
  have hread := (nameOrUrl_of_ident h).2
  rw [← nameOrUrl_ident (congrArg Prod.fst hread), hread]

/-- A block comment starts with its mark. -/
theorem kindAndLength_blockComment {c : Char} {rest : Text}
    (h : (kindAndLength c rest).1 = .blockComment) :
    c = '/' ∧ rest.head? = some '*' ∧ 2 ≤ (kindAndLength c rest).2 := by
  obtain ⟨n, hscan, hscanned⟩ := exists_scanned h
  rw [hscan]
  cases hscanned with
  | blockComment hc hhead _ => exact ⟨hc, hhead, Nat.le_add_left _ _⟩

/-- Neither whitespace nor a comment nor a number starts with a number sign. -/
theorem kindAndLength_numberSign (rest : Text) :
    (kindAndLength '#' rest).1 = .interpolation ∨ (kindAndLength '#' rest).1 = .error
      ∨ (kindAndLength '#' rest).1 = .hash ∨ (kindAndLength '#' rest).1 = .punct := by
  have hspace : isSpace '#' = false := by decide
  have hmagnitude : startsMagnitude ('#' :: rest) = false := by simp [startsMagnitude]
  have hname : startsName ('#' :: rest) = false := by simp [startsName, isNameStart, isWide]
  have hpunct : isPunctuation '#' = true := by decide
  unfold kindAndLength
  simp only [hspace, hmagnitude, hname, hpunct, Char.reduceEq, decide_false, Bool.false_and,
    Bool.or_self, Bool.false_eq_true, if_false, if_true, decide_true, Bool.true_and]
  split
  · split
    · simp
    · simp
  · split
    · simp
    · simp

end Scan

theorem Token.text_of_isPunct {t : Token} {c : Char} (h : t.isPunct c = true) : t.text = [c] := by
  rw [isPunct, Bool.and_eq_true] at h
  exact beq_iff_eq.mp h.2

/-- A mark is no other mark. -/
theorem Token.isPunct_of_ne {t : Token} {c c' : Char} (h : t.isPunct c = true) (hne : c ≠ c') :
    t.isPunct c' = false := by
  rw [isPunct, text_of_isPunct h]
  simp [hne]

/-- A mark that is no bracket leaves the depth of brackets as it is. -/
theorem Tokens.bracketDepth_of_isPunct {t : Token} {c : Char} (h : t.isPunct c = true)
    (hc : c ∉ ['(', ')', '[', ']']) (depth : Nat) : bracketDepth depth t = depth := by
  have hother (c' : Char) (hc' : c' ∈ ['(', ')', '[', ']']) : t.isPunct c' = false :=
    Token.isPunct_of_ne h fun heq => hc (heq ▸ hc')
  simp [bracketDepth, Token.isOpener, Token.isCloser, hother]

theorem Tokens.parenDepth_of_isPunct {t : Token} {c : Char} (h : t.isPunct c = true)
    (hc : c ∉ ['(', ')']) (depth : Nat) : parenDepth depth t = depth := by
  have hother (c' : Char) (hc' : c' ∈ ['(', ')']) : t.isPunct c' = false :=
    Token.isPunct_of_ne h fun heq => hc (heq ▸ hc')
  simp [parenDepth, hother]

namespace Tokens

variable {source : Text}

/-- How the scanner reads a token: off its text and what stands behind it. -/
theorem exists_scan_of_ofTextAt {place : Position} {t : Text} {before after : List Token} {k : Token}
    (h : ofTextAt place t = before ++ k :: after) :
    ∃ c w, k.text = c :: w
      ∧ Scan.kindAndLength c (w ++ text after) = (k.kind, w.length + 1) := by
  obtain ⟨c, rest, hrest, hscan⟩ := scan_of_ofTextAt place t before h
  have hne : k.text ≠ [] := ne_nil_of_mem_ofTextAt (by rw [h]; simp)
  obtain ⟨d, w, htext⟩ := List.exists_cons_of_ne_nil hne
  rw [htext, List.cons_append, List.cons.injEq] at hrest
  obtain ⟨rfl, rfl⟩ := hrest
  rw [htext] at hscan
  exact ⟨d, w, htext, hscan⟩

theorem text_of_blockComment {t : Token} (ht : t ∈ ofText source)
    (hkind : t.kind = .blockComment) : t.text.take 2 = ['/', '*'] := by
  obtain ⟨before, after, h⟩ := List.append_of_mem ht
  obtain ⟨c, w, htext, hscan⟩ := exists_scan_of_ofTextAt h
  obtain ⟨rfl, hstar, hlength⟩ := Scan.kindAndLength_blockComment (by rw [hscan, hkind])
  rw [hscan] at hlength
  cases w with
  | nil => simp at hlength
  | cons d w =>
    cases hstar
    rw [htext]
    rfl

/-- Trivia and numbers do not start with a number sign. -/
theorem head?_text_ne_numberSign {t : Token} (ht : t ∈ ofText source)
    (hkind : t.isTrivia = true ∨ t.kind = .number) : t.text.head? ≠ some '#' := by
  obtain ⟨before, after, h⟩ := List.append_of_mem ht
  obtain ⟨c, w, htext, hscan⟩ := exists_scan_of_ofTextAt h
  rw [htext, List.head?_cons]
  rintro ⟨⟩
  have hsign := Scan.kindAndLength_numberSign (w ++ text after)
  simp only [hscan] at hsign
  rcases hsign with h | h | h | h <;>
    simp [Token.isTrivia, Token.isWhitespace, Token.isComment, h] at hkind

end Tokens

end SheetLint
