import SheetLint.Proofs.Token.Cuts

/-!
# What a text offers the tokens in front of it

A token ends where nothing goes on with it. So it still ends there when another text stands behind
it that *offers no more* than the first one: none of the beginnings that some token would go on
with, unless the first one has it too. Names are kept apart. A backslash in front of a line feed
starts none, in front of anything else it does, and then a name in front of it may go on.

Results:
* `Scan.OffersNoMore.append`, `Scan.OffersNoDigits.append`: two texts with a common front.
* `Scan.numberLength_offers`, `Scan.startsName_offers`, `Scan.nameOrUrl_offers`: numbers and names
  in front of a text that offers no more.
-/

namespace SheetLint

namespace Scan

variable {u s s' : Text} {c d : Char}

/-! ## What a text offers -/

/-- Whether a text offers the token right in front of it nothing to go on with that another one does
not, backslashes and digits apart. -/
structure OffersNothingNew (s s' : Text) : Prop where
  nameStart : startsWith isNameStart s' = true → startsWith isNameStart s = true
  dashed : startsName ('-' :: s') = true → startsName ('-' :: s) = true
  mark : ∀ c ∈ ['%', '/', '*', '\x7b', '('], s'.head? = some c → s.head? = some c
  inner : ∀ t', s' = '(' :: t' → ∃ t, s = '(' :: t ∧
    startsWith isQuote (t'.dropWhile isSpace) = startsWith isQuote (t.dropWhile isSpace)

/-- Whether a text offers the token right in front of it no more to go on with than another one does,
names that start with a backslash and digits apart. A dash that is a name only because a backslash
stands behind it has one behind it still. -/
structure OffersNoMoreHere (s s' : Text) : Prop extends OffersNothingNew s s' where
  escape : s.head? = some '\\' → s'.head? = some '\\'

/-- Whether a text offers the tokens in front of it no more to go on with than another one does. One
that is further in front may see a parenthesis and what stands in it. -/
structure OffersNoMore (s s' : Text) : Prop extends OffersNoMoreHere s s' where
  quote : startsWith isQuote (s'.dropWhile isSpace) = startsWith isQuote (s.dropWhile isSpace)

/-- Whether a text offers the names and numbers in front of it no more digits than another one does,
nor what else they go on with. -/
structure OffersNoDigits (s s' : Text) : Prop where
  nameChar : startsWith isNameChar s' = true → startsWith isNameChar s = true
  digit : startsWith Char.isDigit s' = true → startsWith Char.isDigit s = true
  magnitude : startsMagnitude s' = true → startsMagnitude s = true

/-- The characters that no token goes on with, whitespace and comments apart. -/
def isBar (c : Char) : Bool := isSpace c || c == '\x7d' || c == ';' || c == ','

theorem eq_of_isBar (hd : isBar d = true) :
    d = ' ' ∨ d = '\t' ∨ d = '\n' ∨ d = '\r' ∨ d = '\x0c' ∨ d = '\x7d' ∨ d = ';' ∨ d = ',' := by
  simpa [isBar, isSpace, or_assoc] using hd

/-- What a bar is not. -/
theorem not_of_isBar {p : Char → Bool} (hd : isBar d = true)
    (hp : [' ', '\t', '\n', '\r', '\x0c', '\x7d', ';', ','].all (!p ·) = true) : p d = false := by
  simp only [List.all_cons, List.all_nil, Bool.and_true, Bool.and_eq_true, Bool.not_eq_true'] at hp
  obtain ⟨h1, h2, h3, h4, h5, h6, h7, h8⟩ := hp
  rcases eq_of_isBar hd with rfl | rfl | rfl | rfl | rfl | rfl | rfl | rfl <;> assumption

theorem OffersNoMore.refl (s : Text) : OffersNoMore s s :=
  ⟨⟨⟨id, id, fun _ _ => id, fun t ht => ⟨t, ht, rfl⟩⟩, id⟩, rfl⟩

/-- A first character that nothing goes on with offers nothing. -/
theorem OffersNoMoreHere.of_head (hs : s.head? ≠ some '\\') (hstart : isNameStart d = false)
    (hdash : d ≠ '-') (hescape : d ≠ '\\') (hmark : ∀ c ∈ ['%', '/', '*', '\x7b', '('], d ≠ c)
    (s' : Text) : OffersNoMoreHere s (d :: s') := by
  refine ⟨⟨?_, ?_, fun c hc h => ?_, fun t' ht => ?_⟩, fun h => absurd h hs⟩
  · simp [startsWith, hstart]
  · simp [startsName, hstart, hdash, hescape]
  · exact absurd (Option.some.inj h) (hmark c hc)
  · exact absurd (List.cons.inj ht).1 (hmark '(' (by decide))

/-- **A bar offers nothing.** -/
theorem OffersNoMoreHere.of_isBar (hs : s.head? ≠ some '\\') (hd : isBar d = true) (s' : Text) :
    OffersNoMoreHere s (d :: s') := by
  have hne {c : Char} (hc : isBar c = false) : d ≠ c := by
    rintro rfl
    rw [hd] at hc
    cases hc
  refine .of_head hs (not_of_isBar hd (by decide)) (hne (by decide)) (hne (by decide)) ?_ s'
  simp only [List.mem_cons, List.not_mem_nil, or_false, forall_eq_or_imp, forall_eq]
  exact ⟨hne (by decide), hne (by decide), hne (by decide), hne (by decide), hne (by decide)⟩

theorem OffersNoMore.of_isBar (hs : s.head? ≠ some '\\') (hd : isBar d = true)
    (hquote : startsWith isQuote ((d :: s').dropWhile isSpace) =
      startsWith isQuote (s.dropWhile isSpace)) : OffersNoMore s (d :: s') :=
  ⟨.of_isBar hs hd s', hquote⟩

theorem OffersNoDigits.of_isBar (hd : isBar d = true) (s s' : Text) : OffersNoDigits s (d :: s') := by
  have hchar : isNameChar d = false := not_of_isBar hd (by decide)
  have hdigit : d.isDigit = false := not_of_isBar hd (by decide)
  have hdot : d ≠ '.' := by
    rintro rfl
    cases hd
  refine ⟨?_, ?_, ?_⟩
  · simp [startsWith, hchar]
  · simp [startsWith, hdigit]
  · simp [startsMagnitude, hdot, hdigit]

/-- **Two texts that start alike** offer what those behind their first character do. -/
theorem OffersNoMore.cons (h : OffersNoMore s s') (c : Char) : OffersNoMore (c :: s) (c :: s') where
  nameStart := id
  dashed := by simp [startsName]
  escape := id
  mark := fun _ _ => id
  quote := by
    by_cases hc : isSpace c = true
    · rw [List.dropWhile_cons_of_pos hc, List.dropWhile_cons_of_pos hc]
      exact h.quote
    · rw [List.dropWhile_cons_of_neg hc, List.dropWhile_cons_of_neg hc]
      rfl
  inner := by
    intro t' ht
    obtain ⟨rfl, rfl⟩ := List.cons.inj ht
    exact ⟨s, rfl, h.quote⟩

theorem OffersNoDigits.cons (h : OffersNoDigits s s') (c : Char) :
    OffersNoDigits (c :: s) (c :: s') where
  nameChar := id
  digit := id
  magnitude := by
    by_cases hc : c = '.'
    · subst hc
      intro hs'
      cases s' with
      | nil => cases hs'
      | cons d' s' =>
        have hs := h.digit hs'
        cases s with
        | nil => cases hs
        | cons d s => exact hs
    · simp [startsMagnitude, hc]

/-- **Two texts with a common front.** -/
theorem OffersNoMore.append (h : OffersNoMore s s') (u : Text) : OffersNoMore (u ++ s) (u ++ s') := by
  induction u with
  | nil => exact h
  | cons c u ih => exact ih.cons c

theorem OffersNoDigits.append (h : OffersNoDigits s s') (u : Text) :
    OffersNoDigits (u ++ s) (u ++ s') := by
  induction u with
  | nil => exact h
  | cons c u ih => exact ih.cons c

/-- Two texts with a first character in common, no matter what is behind it: one that is neither
space nor opens a parenthesis. -/
theorem OffersNoMore.of_cons (hc : isSpace c = false) (hparen : c ≠ '(') (s s' : Text) :
    OffersNoMore (c :: s) (c :: s') where
  nameStart := id
  dashed := by simp [startsName]
  escape := id
  mark := fun _ _ => id
  quote := by simp [hc, startsWith]
  inner := fun _ ht => absurd (List.cons.inj ht).1 hparen

/-- Two texts with a first character in common, no matter what is behind it: one other than a dot. -/
theorem OffersNoDigits.of_cons (hdot : c ≠ '.') (s s' : Text) :
    OffersNoDigits (c :: s) (c :: s') where
  nameChar := id
  digit := id
  magnitude := by simp [startsMagnitude, hdot]

/-! ## Names and numbers at the end of which another text stands -/

/-- A name that ends where a text starts goes on with the name at the front of that. -/
theorem nameLength_append_of_eq (h : nameLength (u ++ s) = u.length) (s' : Text) :
    nameLength (u ++ s') = u.length + nameLength s' := by
  fun_induction nameLength u with
  | case1 => simp [nameLength] at h
  | case2 c cs hc ih =>
    simp only [List.cons_append, nameLength, if_neg hc, List.length_cons] at h ⊢
    rw [ih (by omega)]
    omega
  | case3 c cs _ hname ih =>
    have hc : c ≠ '\\' := by
      rintro rfl
      cases hname
    simp only [List.cons_append, nameLength_cons hc, if_pos hname, List.length_cons] at h ⊢
    rw [ih (by omega)]
    omega
  | case4 c cs hplain hname =>
    by_cases hc : c = '\\'
    · subst hc
      cases cs with
      | nil =>
        -- an escape takes two characters
        cases s with
        | nil => simp [nameLength, isNameChar, isNameStart, isWide] at h
        | cons x s =>
          simp only [List.cons_append, List.nil_append, nameLength, List.length_singleton] at h
          split at h <;> omega
      | cons x cs => exact absurd rfl (hplain x cs rfl)
    · simp [List.cons_append, nameLength_cons hc, hname] at h
  | case5 => simp

/-- The characters and escapes that a name goes on with. -/
theorem nameLength_eq_zero_iff (t : Text) :
    nameLength t = 0 ↔ startsWith isNameChar t = false ∧ startsName t = false := by
  constructor
  · intro h
    refine ⟨Bool.eq_false_iff.mpr fun hchar => ?_, Bool.eq_false_iff.mpr fun hname => ?_⟩
    · obtain ⟨c, rest, rfl, hc⟩ := exists_eq_cons_of_startsWith hchar
      have hne : c ≠ '\\' := by
        rintro rfl
        cases hc
      rw [nameLength_cons hne, if_pos hc] at h
      cases h
    · exact Nat.ne_of_gt (nameLength_pos hname) h
  · rintro ⟨hchar, hname⟩
    cases t with
    | nil => rfl
    | cons c rest =>
      by_cases hc : c = '\\'
      · subst hc
        cases rest with
        | nil => rfl
        | cons x rest =>
          have hx : x = '\n' := by simpa [startsName] using hname
          simp [nameLength, hx]
      · have hstop : isNameChar c = false := hchar
        rw [nameLength_cons hc, hstop]
        rfl

/-- What a text that offers no more does to a name in front of it. -/
theorem OffersNoDigits.nameLength_eq (h : OffersNoDigits s s') (hs : nameLength s = 0) :
    nameLength s' = 0 ∨ startsName s = false ∧ startsName s' = true ∧ 0 < nameLength s' := by
  obtain ⟨hchar, hname⟩ := (nameLength_eq_zero_iff s).mp hs
  by_cases hname' : startsName s' = true
  · exact .inr ⟨hname, hname', nameLength_pos hname'⟩
  · refine .inl ((nameLength_eq_zero_iff s').mpr ⟨?_, Bool.eq_false_iff.mpr hname'⟩)
    exact Bool.eq_false_iff.mpr fun hchar' => by rw [h.nameChar hchar'] at hchar; cases hchar

theorem takeWhile_offers {p : Char → Bool} (h : ((u ++ s).takeWhile p).length ≤ u.length)
    (hp : startsWith p s' = true → startsWith p s = true) :
    (u ++ s').takeWhile p = (u ++ s).takeWhile p := by
  have hstop {t : Text} (ht : startsWith p t = false) : t.takeWhile p = [] := by
    cases t with
    | nil => rfl
    | cons c t => exact List.takeWhile_cons_of_neg (by simpa [startsWith] using ht)
  rw [List.takeWhile_append] at h ⊢
  rw [List.takeWhile_append]
  split
  · rename_i hall
    rw [if_pos hall, List.length_append] at h
    have hs : startsWith p s = false := by
      refine Bool.eq_false_iff.mpr fun hgo => ?_
      obtain ⟨c, rest, rfl, hc⟩ := exists_eq_cons_of_startsWith hgo
      simp [hc] at h
    have hs' : startsWith p s' = false := Bool.eq_false_iff.mpr fun hgo => by
      rw [hp hgo] at hs
      cases hs
    rw [hstop hs, hstop hs']
  · rfl

/-- Length of a dot with the digits behind it. -/
def fractionLength : Text → Nat
  | '.' :: rest => if startsWith Char.isDigit rest then 1 + digitsLength rest else 0
  | _ => 0

theorem magnitudeLength_eq (t : Text) :
    magnitudeLength t = digitsLength t + fractionLength (t.drop (digitsLength t)) := by
  unfold magnitudeLength
  simp only
  generalize t.drop (digitsLength t) = back
  split
  · simp only [fractionLength]
    split <;> omega
  · rename_i hdot
    rw [fractionLength]
    · rfl
    · exact hdot

/-- A magnitude starts with a digit or a fraction. -/
theorem startsMagnitude_iff (t : Text) :
    startsMagnitude t = true ↔ startsWith Char.isDigit t = true ∨ 0 < fractionLength t := by
  cases t with
  | nil => simp [startsMagnitude, startsWith, fractionLength]
  | cons c t =>
    by_cases hc : c = '.'
    · subst hc
      cases t with
      | nil => simp [startsMagnitude, startsWith, fractionLength]
      | cons d t =>
        have hdot : ('.' : Char).isDigit = false := by decide
        by_cases hd : d.isDigit = true <;> simp [startsMagnitude, startsWith, fractionLength, hd]
    · simp [startsMagnitude, startsWith, fractionLength, hc]

theorem digitsLength_offers (h : OffersNoDigits s s') (hle : digitsLength (u ++ s) ≤ u.length) :
    digitsLength (u ++ s') = digitsLength (u ++ s) :=
  congrArg List.length (takeWhile_offers hle h.digit)

/-- Digits that come up to a text end there. -/
theorem not_digit_of_digitsLength (hle : digitsLength (u ++ s) ≤ u.length)
    (hnil : u.drop (digitsLength (u ++ s)) = []) : startsWith Char.isDigit s = false := by
  have hlength : digitsLength (u ++ s) = u.length :=
    Nat.le_antisymm hle (List.drop_eq_nil_iff.mp hnil)
  cases s with
  | nil => rfl
  | cons d s => exact of_length_takeWhile hlength

theorem fractionLength_offers (h : OffersNoDigits s s') (hle : fractionLength (u ++ s) ≤ u.length)
    (hdigit : u = [] → startsWith Char.isDigit s = false) :
    fractionLength (u ++ s') = fractionLength (u ++ s) := by
  match u with
  | [] =>
    have hnone : ¬ startsMagnitude s = true := by
      rw [startsMagnitude_iff, hdigit rfl]
      simpa using hle
    have hnone' := mt h.magnitude hnone
    rw [startsMagnitude_iff, not_or] at hnone hnone'
    rw [List.nil_append, List.nil_append]
    omega
  | c :: u =>
    by_cases hc : c = '.'
    · subst hc
      have hsame : startsWith Char.isDigit (u ++ s') = startsWith Char.isDigit (u ++ s) := by
        cases u with
        | nil =>
          have hs : startsWith Char.isDigit s = false := Bool.eq_false_iff.mpr fun hgo => by
            have hpos : 0 < digitsLength s := by
              obtain ⟨x, rest, rfl, hx⟩ := exists_eq_cons_of_startsWith hgo
              simp [digitsLength, hx]
            simp only [List.cons_append, List.nil_append, fractionLength, if_pos hgo,
              List.length_singleton] at hle
            omega
          have hs' := mt h.digit (Bool.eq_false_iff.mp hs)
          exact (Bool.eq_false_iff.mpr hs').trans hs.symm
        | cons => rfl
      simp only [List.cons_append, fractionLength, hsame, List.length_cons] at hle ⊢
      split_ifs at hle ⊢
      · rw [digitsLength_offers h (by omega)]
      · rfl
    · simp [fractionLength, hc]

/-- A magnitude that ends in front of a text ends in front of one that offers no more. -/
theorem magnitudeLength_offers (h : OffersNoDigits s s') (hle : magnitudeLength (u ++ s) ≤ u.length) :
    magnitudeLength (u ++ s') = magnitudeLength (u ++ s) := by
  rw [magnitudeLength_eq] at hle ⊢
  have hwhole : digitsLength (u ++ s) ≤ u.length := by omega
  rw [magnitudeLength_eq, digitsLength_offers h hwhole]
  rw [List.drop_append_of_le_length hwhole] at hle ⊢
  rw [List.drop_append_of_le_length hwhole, fractionLength_offers h]
  · rw [List.length_drop]
    omega
  · exact not_digit_of_digitsLength hwhole

/-- A unit that ends in front of a text ends in front of one that offers no more, unless it goes on
there with a name. -/
theorem unitLength_offers (h : OffersNothingNew s s') (hdigits : OffersNoDigits s s')
    (hn : unitLength (u ++ s) = u.length) :
    unitLength (u ++ s') = u.length
      ∨ startsName s = false ∧ startsName s' = true ∧ u.length < unitLength (u ++ s') := by
  cases u with
  | nil =>
    left
    rw [List.nil_append] at hn ⊢
    cases s' with
    | nil => rfl
    | cons x s' =>
      have hpercent : x ≠ '%' := by
        rintro rfl
        obtain ⟨rest, rfl⟩ := List.head?_eq_some_iff.mp (h.mark '%' (by decide) rfl)
        cases hn
      have hstart : isNameStart x = false := by
        refine Bool.eq_false_iff.mpr fun hx => ?_
        obtain ⟨y, rest, rfl, hy⟩ := exists_eq_cons_of_startsWith (h.nameStart hx)
        have hne : y ≠ '%' := by
          rintro rfl
          cases hy
        have hescape : y ≠ '\\' := by
          rintro rfl
          cases hy
        have hchar : isNameChar y = true := by simp [isNameChar, hy]
        rw [unitLength_cons hne, if_pos hy, nameLength_cons hescape, if_pos hchar] at hn
        cases hn
      rw [unitLength_cons hpercent, hstart]
      rfl
  | cons x u =>
    by_cases hx : x = '%'
    · subst hx
      exact .inl hn
    · simp only [List.cons_append, unitLength_cons hx] at hn ⊢
      split_ifs at hn ⊢
      · have hname (t : Text) : nameLength (x :: (u ++ t)) = (x :: u).length + nameLength t :=
          nameLength_append_of_eq (u := x :: u) hn t
        have hs : nameLength s = 0 := by
          have := hname s
          omega
        rw [hname]
        rcases hdigits.nameLength_eq hs with hzero | ⟨hnone, hsome, hpos⟩
        · exact .inl (by omega)
        · exact .inr ⟨hnone, hsome, by omega⟩

/-- A number that ends in front of a text ends in front of one that offers no more, unless its unit
goes on there with a name. -/
theorem numberLength_offers (h : OffersNothingNew s s') (hdigits : OffersNoDigits s s')
    (hn : numberLength (u ++ s) = u.length) :
    numberLength (u ++ s') = u.length
      ∨ startsName s = false ∧ startsName s' = true ∧ u.length < numberLength (u ++ s') := by
  have hle : magnitudeLength (u ++ s) ≤ u.length := hn ▸ Nat.le_add_right _ _
  have hlength : (u.drop (magnitudeLength (u ++ s))).length = u.length - magnitudeLength (u ++ s) :=
    List.length_drop
  unfold numberLength at hn ⊢
  simp only [magnitudeLength_offers hdigits hle, List.drop_append_of_le_length hle] at hn ⊢
  have hunit : unitLength (u.drop (magnitudeLength (u ++ s)) ++ s) =
      (u.drop (magnitudeLength (u ++ s))).length := by
    omega
  rcases unitLength_offers h hdigits hunit with hsame | ⟨hnone, hsome, hlong⟩
  · left
    omega
  · exact .inr ⟨hnone, hsome, by omega⟩

/-- Whether a number is a percentage: a sign, digits and dots, and the percent sign. -/
def isPercentage (t : Text) : Bool :=
  t.dropWhile (fun c => c.isDigit || c == '.' || c == '-') == ['%']

theorem magnitudeLength_percent (u t : Text) :
    magnitudeLength (u ++ '%' :: t) = magnitudeLength u := by
  have hdigits (u : Text) : digitsLength (u ++ '%' :: t) = digitsLength u :=
    congrArg List.length (takeWhile_stop (by decide) u t)
  have hfraction (u : Text) : fractionLength (u ++ '%' :: t) = fractionLength u := by
    cases u with
    | nil => rfl
    | cons c u =>
      by_cases hc : c = '.'
      · subst hc
        have hsame : startsWith Char.isDigit (u ++ '%' :: t) = startsWith Char.isDigit u := by
          cases u <;> rfl
        simp only [List.cons_append, fractionLength, hsame, hdigits]
      · simp [fractionLength, hc]
  rw [magnitudeLength_eq, magnitudeLength_eq, hdigits,
    List.drop_append_of_le_length (digitsLength_le u), hfraction]

/-- A percentage is closed by its sign. -/
theorem numberLength_percent (hu : ∀ c ∈ u, isNameStart c = false ∧ c ≠ '%')
    (hn : numberLength (u ++ '%' :: s) = u.length + 1) (s' : Text) :
    numberLength (u ++ '%' :: s') = u.length + 1 := by
  have hle := magnitudeLength_le u
  unfold numberLength at hn ⊢
  simp only [magnitudeLength_percent, List.drop_append_of_le_length hle] at hn ⊢
  cases hunit : u.drop (magnitudeLength u) with
  | nil =>
    rw [hunit] at hn
    exact hn
  | cons x rest =>
    -- the number would end in front of its sign
    obtain ⟨hstart, hpercent⟩ := hu x (List.mem_of_mem_drop (by rw [hunit]; exact List.mem_cons_self))
    rw [hunit, List.cons_append, unitLength_cons hpercent, hstart] at hn
    simp only [Bool.false_eq_true, if_false] at hn
    omega

/-- A dash that is a name by itself stands in front of a backslash. -/
theorem head?_of_dash (hname : startsName ('-' :: s) = true) (hlength : nameLength ('-' :: s) = 1) :
    s.head? = some '\\' := by
  cases s with
  | nil => cases hname
  | cons x s =>
    by_contra hx
    have hescape : x ≠ '\\' := fun heq => hx (by rw [heq]; rfl)
    have hchar : isNameChar x = true := by
      have hgo : isNameStart x = true ∨ x = '-' := by
        simpa [startsName, hescape] using hname
      rcases hgo with hgo | rfl
      · simp [isNameChar, hgo]
      · rfl
    have hdash : isNameChar '-' = true := by decide
    simp [nameLength_cons, hchar, hdash, hescape] at hlength

/-- A name that ends where a text starts also starts in front of another one, if it is no dash that a
backslash stands behind. -/
theorem startsName_offers (hdash : u = ['-'] → s.head? = some '\\' → s'.head? = some '\\')
    (hlength : nameLength (u ++ s) = u.length) (hne : u ≠ []) (hname : startsName (u ++ s) = true) :
    startsName (u ++ s') = true := by
  match u with
  | [c] =>
    by_cases hc' : c = '-'
    · subst hc'
      have hhead := head?_of_dash hname hlength
      obtain ⟨rest, rfl⟩ := List.head?_eq_some_iff.mp (hdash rfl hhead)
      rfl
    · by_cases hc : c = '\\'
      · subst hc
        -- an escape takes two characters
        cases s with
        | nil => cases hname
        | cons x s =>
          have hx : x ≠ '\n' := by simpa [startsName] using hname
          simp [nameLength, hx] at hlength
      · simpa [startsName, hc', hc] using hname
  | c :: x :: u => exact (startsName_cons_cons c x (u ++ s) (u ++ s')).trans hname

/-! ## Names and `url(` -/

/-- No name goes on with a parenthesis. -/
theorem nameLength_paren (t : Text) : nameLength ('(' :: t) = 0 := by
  rw [nameLength_cons (by decide)]
  rfl

/-- What stands behind the parenthesis does not matter to the name. -/
theorem nameLength_before_paren (h : nameLength (u ++ '(' :: s) = u.length) (s' : Text) :
    nameLength (u ++ '(' :: s') = u.length := by
  rw [nameLength_append_of_eq h, nameLength_paren, Nat.add_zero]

/-- What starts with a name and is no identifier is an `url(`, without a quote inside. -/
theorem exists_url_of_nameOrUrl {t : Text} (h : (nameOrUrl t).1 ≠ .ident) :
    ∃ name inside, t = name ++ '(' :: inside ∧ Text.eqIgnoreCase name "url".toList = true
      ∧ nameLength t = name.length ∧ startsWith isQuote (inside.dropWhile isSpace) = false
      ∧ nameOrUrl t = ((urlTail inside).1, name.length + 1 + (urlTail inside).2) := by
  have hcut := List.take_append_drop (nameLength t) t
  have hlength : (t.take (nameLength t)).length = nameLength t := by
    rw [List.length_take, Nat.min_eq_left (nameLength_le t)]
  revert h
  unfold nameOrUrl
  simp only
  split
  · rename_i inside hinside
    rw [hinside] at hcut
    split
    · rename_i hurl
      rw [Bool.and_eq_true, Bool.not_eq_true'] at hurl
      exact fun _ => ⟨_, inside, hcut.symm, hurl.1, hlength.symm, hurl.2, by rw [hlength]⟩
    · exact fun h => absurd rfl h
  · exact fun h => absurd rfl h

/-- The `url(` that a text ends with, which may be open. -/
theorem exists_body_of_nameOrUrl (h : (nameOrUrl (u ++ s)).1 ≠ .ident)
    (hlength : (nameOrUrl (u ++ s)).2 = u.length) :
    ∃ name body, u = name ++ '(' :: body ∧ Text.eqIgnoreCase name "url".toList = true
      ∧ nameLength (u ++ s) = name.length
      ∧ startsWith isQuote ((body ++ s).dropWhile isSpace) = false
      ∧ urlTail (body ++ s) = ((nameOrUrl (u ++ s)).1, body.length) := by
  obtain ⟨name, inside, hcut, hurl, hname, hquote, heq⟩ := exists_url_of_nameOrUrl h
  rw [heq] at hlength ⊢
  have hopening : name ++ ['('] <+: u ++ s := ⟨inside, by rw [hcut]; simp⟩
  obtain ⟨body, rfl⟩ : name ++ ['('] <+: u :=
    List.prefix_of_prefix_length_le hopening (List.prefix_append u s)
      (by rw [← hlength, List.length_append, List.length_singleton]; omega)
  obtain rfl : inside = body ++ s := by simpa using hcut.symm
  refine ⟨name, body, by simp, hurl, hname, hquote, Prod.ext rfl ?_⟩
  simp only [List.length_append, List.length_singleton] at hlength
  show (urlTail (body ++ s)).2 = body.length
  omega

/-- The name `url` in front of a parenthesis without a quote inside. -/
theorem nameOrUrl_url {name inside : Text} (hname : nameLength (name ++ '(' :: inside) = name.length)
    (hurl : Text.eqIgnoreCase name "url".toList = true)
    (hquote : startsWith isQuote (inside.dropWhile isSpace) = false) :
    nameOrUrl (name ++ '(' :: inside) =
      ((urlTail inside).1, name.length + 1 + (urlTail inside).2) := by
  unfold isQuote at hquote
  unfold nameOrUrl
  simp only [hname, List.drop_left, List.take_left, hurl, hquote]
  rfl

/-- A name is an identifier up to its end, unless it is `url` in front of a parenthesis without a quote
inside. -/
theorem nameOrUrl_eq_ident_iff (hend : nameLength (u ++ s) = u.length) :
    nameOrUrl (u ++ s) = (.ident, u.length) ↔
      ∀ inside, s = '(' :: inside → Text.eqIgnoreCase u "url".toList = true →
        startsWith isQuote (inside.dropWhile isSpace) = true := by
  unfold nameOrUrl
  simp only [hend, List.drop_left, List.take_left]
  split
  · rename_i inside
    unfold isQuote
    split
    · rename_i htest
      rw [Bool.and_eq_true, Bool.not_eq_true'] at htest
      refine iff_of_false (fun h => ?_) fun h => ?_
      · rw [Prod.mk.injEq] at h
        omega
      · rw [h inside rfl htest.1] at htest
        cases htest.2
    · rename_i htest
      refine iff_of_true rfl fun inside' h hurl => ?_
      cases h
      rwa [hurl, Bool.true_and, Bool.not_eq_true', Bool.not_eq_false] at htest
  · rename_i hparen
    exact iff_of_true rfl fun inside h => absurd h (hparen inside)

/-- A closed `url(`, the name of which stops at its parenthesis, whatever stands behind it. -/
theorem nameOrUrl_of_lt (hlength : (nameOrUrl (u ++ s)).2 = u.length)
    (herror : (nameOrUrl (u ++ s)).1 ≠ .error) (hless : nameLength (u ++ s) < u.length) (s' : Text) :
    nameOrUrl (u ++ s') = nameOrUrl (u ++ s) := by
  have hkind : (nameOrUrl (u ++ s)).1 ≠ .ident := fun hident => by
    rw [nameOrUrl_ident hident] at hlength
    omega
  obtain ⟨name, body, rfl, hurl, hname, hquote, htail⟩ := exists_body_of_nameOrUrl hkind hlength
  have hclosed : (urlTail (body ++ s)).1 = .url :=
    (urlTail_kind _).resolve_right (by rw [htail]; exact herror)
  have hle : (urlTail (body ++ s)).2 ≤ body.length := by rw [htail]
  have hsame (t : Text) : startsWith isQuote ((body ++ t).dropWhile isSpace) =
      startsWith isQuote (body.dropWhile isSpace) :=
    startsWith_dropWhile_append (mem_of_urlTail hclosed hle) rfl t
  simp only [List.append_assoc, List.cons_append] at hname ⊢
  rw [nameOrUrl_url hname hurl hquote,
    nameOrUrl_url (nameLength_before_paren hname _) hurl (by rw [hsame, ← hsame s, hquote]),
    urlTail_within hclosed hle]

/-- What ends where its name ends is an identifier. -/
theorem nameOrUrl_eq_ident (hlength : (nameOrUrl (u ++ s)).2 = u.length)
    (hend : nameLength (u ++ s) = u.length) : nameOrUrl (u ++ s) = (.ident, u.length) := by
  refine Prod.ext ?_ hlength
  by_contra hkind
  obtain ⟨name, body, rfl, -, hname, -⟩ := exists_body_of_nameOrUrl hkind hlength
  rw [hend, List.length_append, List.length_cons] at hname
  omega

/-- **A name, or an `url(` that is closed**, in front of a text that offers no more. -/
theorem nameOrUrl_offers (h : OffersNothingNew s s') (hlength : (nameOrUrl (u ++ s)).2 = u.length)
    (herror : (nameOrUrl (u ++ s)).1 ≠ .error)
    (hdigits : (nameOrUrl (u ++ s)).1 = .ident → OffersNoDigits s s') :
    nameOrUrl (u ++ s') = nameOrUrl (u ++ s)
      ∨ startsName s = false ∧ startsName s' = true ∧ u.length < (nameOrUrl (u ++ s')).2 := by
  have hle : nameLength (u ++ s) ≤ u.length := hlength ▸ nameLength_le_nameOrUrl _
  rcases Nat.lt_or_eq_of_le hle with hless | hend
  · exact .inl (nameOrUrl_of_lt hlength herror hless s')
  · have hname := nameLength_append_of_eq hend
    have hs : nameLength s = 0 := by
      have := hname s
      omega
    have hident := nameOrUrl_eq_ident hlength hend
    rcases (hdigits (by rw [hident])).nameLength_eq hs with hzero | ⟨hnone, hsome, hpos⟩
    · left
      have hend' : nameLength (u ++ s') = u.length := by rw [hname, hzero, Nat.add_zero]
      rw [hident, nameOrUrl_eq_ident_iff hend']
      intro inside' hinside' hurl
      obtain ⟨inside, hinside, hquote⟩ := h.inner inside' hinside'
      rw [hquote]
      exact (nameOrUrl_eq_ident_iff hend).mp hident inside hinside hurl
    · refine .inr ⟨hnone, hsome, Nat.lt_of_lt_of_le ?_ (nameLength_le_nameOrUrl _)⟩
      rw [hname]
      omega

end Scan

end SheetLint
