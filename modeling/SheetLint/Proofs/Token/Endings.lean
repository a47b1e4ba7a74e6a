import SheetLint.Proofs.Token.Offers

/-!
# Where tokens end

What a token is depends on its first characters, and where it ends on what stands behind it. In
front of a text that offers no more, the same token ends in the same place, or else a name starts
there now and the token goes on with it.

Results:
* `Scan.standsAlone_of_kindAndLength`: when a token is one character.
* `Scan.kindAndLength_offers`: a token in front of a text that offers no more.
-/

namespace SheetLint

namespace Scan

variable {u s s' t : Text} {c d : Char}

/-! ## What the first characters of a token make of it -/

theorem kindAndLength_of_startsMagnitude (h : startsMagnitude (c :: t) = true) :
    kindAndLength c t = (.number, numberLength (c :: t)) := by
  have hc : c = '.' ∨ c.isDigit = true := by
    by_cases hdot : c = '.'
    · exact .inl hdot
    · exact .inr (by simpa [startsMagnitude, hdot] using h)
  have hne {d : Char} (hd : (d == '.' || d.isDigit) = false) : c ≠ d := by
    rintro rfl
    rw [Bool.or_eq_false_iff, beq_eq_false_iff_ne] at hd
    rcases hc with hc | hc
    · exact hd.1 hc
    · rw [hd.2] at hc
      cases hc
  have hspace : isSpace c = false := by
    simp only [isSpace, Bool.or_eq_false_iff, beq_eq_false_iff_ne]
    exact ⟨⟨⟨⟨hne rfl, hne rfl⟩, hne rfl⟩, hne rfl⟩, hne rfl⟩
  simp [kindAndLength, h, hspace, hne (d := '/') rfl, hne (d := '"') rfl, hne (d := '\'') rfl,
    hne (d := '@') rfl, hne (d := '$') rfl, hne (d := '#') rfl]

theorem kindAndLength_dash (h : startsMagnitude t = true) :
    kindAndLength '-' t = (.number, numberLength t + 1) := by
  have hdash : startsMagnitude ('-' :: t) = false := by simp [startsMagnitude]
  simp [kindAndLength, h, hdash, isSpace]

theorem kindAndLength_at (h : startsName t = true) :
    kindAndLength '@' t = (.atKeyword, nameLength t + 1) := by
  simp [kindAndLength, h, isSpace]

theorem kindAndLength_dollar (h : startsName t = true) :
    kindAndLength '$' t = (.variable, nameLength t + 1) := by
  simp [kindAndLength, h, isSpace]

theorem kindAndLength_hash (h : startsWith isNameChar t = true) :
    kindAndLength '#' t = (.hash, nameLength t + 1) := by
  have hbrace : t.head? ≠ some '\x7b' := by
    intro heq
    obtain ⟨rest, rfl⟩ := List.head?_eq_some_iff.mp heq
    cases h
  simp [kindAndLength, h, hbrace, isSpace]

theorem kindAndLength_brace (h : t.head? = some '\x7b') :
    kindAndLength '#' t =
      match interpolationTail? 0 none (t.drop 1) with
      | some n => (.interpolation, n + 2)
      | none => (.error, t.length + 1) := by
  have hspace : isSpace '#' = false := rfl
  simp only [kindAndLength, h, hspace]
  cases interpolationTail? 0 none (t.drop 1) <;> rfl

/-- What a character is by itself. -/
def kindAlone (c : Char) : TokenKind :=
  if c = '>' ∨ c = '+' ∨ c = '~' then .combinator
  else if isPunctuation c then .punct
  else .error

/-- Whether nothing goes on with a character that stands in front of a text. -/
structure StandsAlone (c : Char) (t : Text) : Prop where
  space : isSpace c = false
  slash : c = '/' → t.head? ≠ some '/' ∧ t.head? ≠ some '*'
  quote : c ≠ '"' ∧ c ≠ '\''
  mark : c = '@' ∨ c = '$' → startsName t = false
  hash : c = '#' → t.head? ≠ some '\x7b' ∧ startsWith isNameChar t = false
  magnitude : startsMagnitude (c :: t) = false
  dash : c = '-' → startsMagnitude t = false
  name : startsName (c :: t) = false

/-- A character that nothing goes on with is a token by itself. -/
theorem StandsAlone.kindAndLength_eq (h : StandsAlone c t) : kindAndLength c t = (kindAlone c, 1) := by
  unfold kindAndLength kindAlone
  rw [if_neg (Bool.eq_false_iff.mp h.space), if_neg, if_neg, if_neg (by simpa using h.quote), if_neg,
    if_neg, if_neg, if_neg, if_neg (Bool.eq_false_iff.mp h.magnitude), if_neg,
    if_neg (Bool.eq_false_iff.mp h.name)]
  · simp only [Bool.or_eq_true, decide_eq_true_eq, or_assoc]
    split_ifs <;> rfl
  · simpa using h.dash
  · simpa using fun hc => (h.hash hc).2
  · simpa using fun hc => (h.hash hc).1
  · simpa using fun hc => h.mark (.inr hc)
  · simpa using fun hc => h.mark (.inl hc)
  · simpa using fun hc => (h.slash hc).2
  · simpa using fun hc => (h.slash hc).1

/-- Nothing goes on with a punctuation character or a combinator. -/
theorem standsAlone_of_kindAndLength
    (h : (kindAndLength c t).1 = .punct ∨ (kindAndLength c t).1 = .combinator) :
    StandsAlone c t := by
  revert h
  fun_cases kindAndLength c t with
  | case5 =>
    intro (h : (stringTail c t).1 = .punct ∨ (stringTail c t).1 = .combinator)
    rcases stringTail_kind c t with hkind | hkind <;> rw [hkind] at h <;> simp at h
  | case13 =>
    intro h
    rcases nameOrUrl_kind (c :: t) with hkind | hkind | hkind <;> rw [hkind] at h <;> simp at h
  | case14 hspace hline hblock hquote hat hdollar hbrace hhash hmagnitude hdash hname
  | case15 hspace hline hblock hquote hat hdollar hbrace hhash hmagnitude hdash hname =>
    intro _
    rw [Bool.not_eq_true] at hspace hmagnitude hname
    simp only [Bool.and_eq_true, Bool.or_eq_true, decide_eq_true_eq, not_and, not_or,
      Bool.not_eq_true] at hline hblock hquote hat hdollar hbrace hhash hdash
    refine ⟨hspace, fun hc => ⟨hline hc, hblock hc⟩, hquote, ?_, fun hc => ⟨hbrace hc, hhash hc⟩,
      hmagnitude, hdash, hname⟩
    rintro (hc | hc)
    · exact hat hc
    · exact hdollar hc
  | case1 | case2 | case3 | case4 | case6 | case7 | case8 | case9 | case10 | case11 | case12
    | case16 =>
    intro h
    simp at h

/-- What stands alone in front of a text does so in front of one that offers no more, unless a mark is
given a name there. -/
theorem StandsAlone.offers (h : StandsAlone c s) (hoffers : OffersNothingNew s s')
    (hdigits : c = '.' ∨ c = '#' ∨ c = '-' → OffersNoDigits s s')
    (hlone : c = '\\' → startsName ('\\' :: s') = false)
    (hmark : c = '@' ∨ c = '$' → startsName s' = false) : StandsAlone c s' where
  space := h.space
  slash hc := by
    refine ⟨fun hs' => (h.slash hc).1 ?_, fun hs' => (h.slash hc).2 ?_⟩
    · exact hoffers.mark '/' (by decide) hs'
    · exact hoffers.mark '*' (by decide) hs'
  quote := h.quote
  mark := hmark
  hash hc := by
    refine ⟨fun hs' => (h.hash hc).1 ?_, Bool.eq_false_iff.mpr fun hs' => ?_⟩
    · exact hoffers.mark '\x7b' (by decide) hs'
    · have hs := (hdigits (.inr (.inl hc))).nameChar hs'
      rw [(h.hash hc).2] at hs
      cases hs
  magnitude := by
    refine Bool.eq_false_iff.mpr fun hs' => Bool.eq_false_iff.mp h.magnitude ?_
    by_cases hdot : c = '.'
    · exact ((hdigits (.inl hdot)).cons c).magnitude hs'
    · simpa [startsMagnitude, hdot] using hs'
  dash hc := by
    refine Bool.eq_false_iff.mpr fun hs' => Bool.eq_false_iff.mp (h.dash hc) ?_
    exact (hdigits (.inr (.inr hc))).magnitude hs'
  name := by
    refine Bool.eq_false_iff.mpr fun hs' => Bool.eq_false_iff.mp h.name ?_
    by_cases hdash : c = '-'
    · subst hdash
      exact hoffers.dashed hs'
    · by_cases hc : c = '\\'
      · subst hc
        rw [hlone rfl] at hs'
        cases hs'
      · simpa [startsName, hdash, hc] using hs'

/-! ## Tokens at the end of which another text stands -/

/-- The tokens that go on with digits: names, numbers other than percentages, and the marks that
digits make a number or a name of. -/
def takesDigits (kind : TokenKind) (t : Text) : Bool :=
  match kind with
  | .ident | .atKeyword | .variable | .hash => true
  | .number => !isPercentage t
  | .punct => t == ['.'] || t == ['#'] || t == ['-']
  | _ => false

/-- The tokens that are a name only because a backslash stands behind their dash. -/
def isBareDash (kind : TokenKind) (t : Text) : Bool :=
  match kind with
  | .ident => t == ['-']
  | .atKeyword => t == ['@', '-']
  | .variable => t == ['$', '-']
  | _ => false

/-- Whether a name starts at the front of a text and none at the front of another one, and a token that
ended there is longer now. -/
def GoesOnWithName (s s' : Text) (length length' : Nat) : Prop :=
  startsName s = false ∧ startsName s' = true ∧ length < length'

theorem kindAndLength_space (hc : isSpace c = true)
    (hlength : ((c :: (u ++ s)).takeWhile isSpace).length = u.length + 1)
    (hs' : startsWith isSpace s' = false) :
    kindAndLength c (u ++ s') = (.whitespace, u.length + 1) := by
  have hsame : (c :: u ++ s').takeWhile isSpace = (c :: u ++ s).takeWhile isSpace :=
    takeWhile_offers (Nat.le_of_eq hlength) fun hgo => by rw [hs'] at hgo; cases hgo
  rw [List.cons_append, List.cons_append] at hsame
  unfold kindAndLength
  rw [if_pos hc, hsame, hlength]

theorem kindAndLength_line (hc : c = '/') (hhead : (u ++ s).head? = some '/')
    (hlength : ((c :: (u ++ s)).takeWhile (!isLineBreak ·)).length = u.length + 1)
    (hs' : s' = [] ∨ startsWith isLineBreak s' = true) :
    kindAndLength c (u ++ s') = (.lineComment, u.length + 1) := by
  subst hc
  have hne : u ≠ [] := by
    rintro rfl
    obtain ⟨rest, rfl⟩ := List.head?_eq_some_iff.mp hhead
    simp [isLineBreak] at hlength
  have hsame : ('/' :: u ++ s').takeWhile (!isLineBreak ·) =
      ('/' :: u ++ s).takeWhile (!isLineBreak ·) := by
    refine takeWhile_offers (Nat.le_of_eq hlength) fun hgo => ?_
    rcases hs' with rfl | hbreak
    · cases hgo
    · obtain ⟨d, rest, rfl, hd⟩ := exists_eq_cons_of_startsWith hbreak
      simp [startsWith, hd] at hgo
  rw [List.cons_append, List.cons_append] at hsame
  rw [kindAndLength_lineComment_eq, hsame, hlength]
  rw [List.head?_append_of_ne_nil _ hne] at hhead ⊢
  exact hhead

theorem kindAndLength_string (hc : isQuote c = true) (hkind : (stringTail c (u ++ s)).1 = .string)
    (hlength : (stringTail c (u ++ s)).2 = u.length) (s' : Text) :
    kindAndLength c (u ++ s') = (.string, u.length + 1) := by
  rw [kindAndLength_quote hc, stringTail_within hkind (Nat.le_of_eq hlength), hkind, hlength]

theorem kindAndLength_interpolation (hhead : (u ++ s).head? = some '\x7b') {n : Nat}
    (htail : interpolationTail? 0 none ((u ++ s).drop 1) = some n) (hlength : n + 1 = u.length)
    (s' : Text) : kindAndLength '#' (u ++ s') = (.interpolation, u.length + 1) := by
  obtain ⟨x, u, rfl⟩ := List.exists_cons_of_ne_nil
    (fun hnil : u = [] => by rw [hnil] at hlength; cases hlength)
  rw [List.cons_append, List.drop_succ_cons, List.drop_zero] at htail
  rw [List.length_cons, Nat.succ_inj] at hlength
  have hhead' : (x :: u ++ s').head? = some '\x7b' := hhead
  rw [kindAndLength_brace hhead', List.cons_append, List.drop_succ_cons, List.drop_zero,
    interpolationTail?_front htail (Nat.le_of_eq hlength), hlength]
  rfl

/-- A name behind a mark, at the end of which another text stands. -/
theorem nameLength_offers (hdigits : OffersNoDigits s s')
    (hlength : nameLength (u ++ s) = u.length) :
    nameLength (u ++ s') = u.length ∨ GoesOnWithName s s' u.length (nameLength (u ++ s')) := by
  have hname := nameLength_append_of_eq hlength
  have hs : nameLength s = 0 := by
    have := hname s
    omega
  rw [hname]
  rcases hdigits.nameLength_eq hs with hzero | ⟨hnone, hsome, hpos⟩
  · exact .inl (by omega)
  · exact .inr ⟨hnone, hsome, by omega⟩

/-- A percentage is read whatever stands behind it. -/
theorem numberLength_of_isPercentage (hu : isPercentage u = true)
    (hlength : numberLength (u ++ s) = u.length) (s' : Text) :
    numberLength (u ++ s') = u.length := by
  have hcut := List.takeWhile_append_dropWhile
    (p := fun c : Char => c.isDigit || c == '.' || c == '-') (l := u)
  rw [beq_iff_eq.mp hu] at hcut
  have hfront : ∀ d ∈ u.takeWhile (fun c => c.isDigit || c == '.' || c == '-'),
      isNameStart d = false ∧ d ≠ '%' := by
    intro d hd
    have hchar := List.mem_takeWhile_imp hd
    refine ⟨Bool.eq_false_iff.mpr fun hstart => ?_, ?_⟩
    · rw [isDigit_of_isNameStart hstart, Bool.false_or, Bool.or_eq_true, beq_iff_eq,
        beq_iff_eq] at hchar
      rcases hchar with rfl | rfl <;> cases hstart
    · rintro rfl
      cases hchar
  generalize u.takeWhile (fun c => c.isDigit || c == '.' || c == '-') = front at hcut hfront
  subst hcut
  rw [List.append_assoc, List.length_append] at hlength ⊢
  exact numberLength_percent hfront hlength s'

/-- A number at the end of which another text stands. -/
theorem numberLength_of_takesDigits (h : OffersNothingNew s s')
    (hdigits : isPercentage u = false → OffersNoDigits s s')
    (hlength : numberLength (u ++ s) = u.length) :
    numberLength (u ++ s') = u.length ∨ GoesOnWithName s s' u.length (numberLength (u ++ s')) := by
  cases hu : isPercentage u with
  | true => exact .inl (numberLength_of_isPercentage hu hlength s')
  | false => exact numberLength_offers h (hdigits hu) hlength

/-- A magnitude that is a part of a number starts it whatever stands behind the number. -/
theorem startsMagnitude_of_numberLength (hmagnitude : startsMagnitude (u ++ s) = true)
    (hlength : numberLength (u ++ s) = u.length) (s' : Text) : startsMagnitude (u ++ s') = true := by
  have hpos := numberLength_pos hmagnitude
  match u with
  | [] =>
    rw [hlength] at hpos
    cases hpos
  | [c] =>
    by_cases hdot : c = '.'
    · -- a dot alone is no number
      subst hdot
      cases s with
      | nil => cases hmagnitude
      | cons d s =>
        have hd : d.isDigit = true := hmagnitude
        have hlong : 2 ≤ magnitudeLength ('.' :: d :: s) := by
          simp [magnitudeLength, digitsLength, startsWith, hd]
          omega
        have hle : magnitudeLength ('.' :: d :: s) ≤ numberLength ('.' :: d :: s) :=
          Nat.le_add_right _ _
        simp only [List.cons_append, List.nil_append, List.length_singleton] at hlength
        omega
    · simpa [startsMagnitude, hdot] using hmagnitude
  | c :: x :: u => exact (startsMagnitude_cons_cons c x (u ++ s) (u ++ s')).trans hmagnitude

/-- A name behind a mark that makes a token of it. -/
theorem kindAndLength_marked_offers {k : TokenKind}
    (hmarked : ∀ {t : Text}, startsName t = true → kindAndLength c t = (k, nameLength t + 1))
    (hdash : u = ['-'] → s.head? = some '\\' → s'.head? = some '\\') (hdigits : OffersNoDigits s s')
    (hname : startsName (u ++ s) = true) (hend : nameLength (u ++ s) = u.length) :
    kindAndLength c (u ++ s') = (k, u.length + 1)
      ∨ GoesOnWithName s s' (u.length + 1) (kindAndLength c (u ++ s')).2 := by
  have hne : u ≠ [] := fun hnil => Nat.ne_of_gt (nameLength_pos hname) (by rw [hend, hnil]; rfl)
  rw [hmarked (startsName_offers hdash hend hne hname)]
  exact (nameLength_offers hdigits hend).imp (fun hsame => by rw [hsame])
    fun hgoes => ⟨hgoes.1, hgoes.2.1, Nat.succ_lt_succ hgoes.2.2⟩

theorem kindAndLength_hash_offers (hdigits : OffersNoDigits s s')
    (hchar : startsWith isNameChar (u ++ s) = true) (hend : nameLength (u ++ s) = u.length) :
    kindAndLength '#' (u ++ s') = (.hash, u.length + 1)
      ∨ GoesOnWithName s s' (u.length + 1) (kindAndLength '#' (u ++ s')).2 := by
  have hne : u ≠ [] := by
    rintro rfl
    have hzero := ((nameLength_eq_zero_iff s).mp hend).1
    rw [List.nil_append, hzero] at hchar
    cases hchar
  have hchar' : startsWith isNameChar (u ++ s') = true := by
    rwa [startsWith_append hne] at hchar ⊢
  rw [kindAndLength_hash hchar']
  exact (nameLength_offers hdigits hend).imp (fun hsame => by rw [hsame])
    fun hgoes => ⟨hgoes.1, hgoes.2.1, Nat.succ_lt_succ hgoes.2.2⟩

theorem kindAndLength_name_offers (hname : startsName (c :: (u ++ s)) = true)
    (hend : (nameOrUrl (c :: u ++ s)).2 = (c :: u).length)
    (herror : (nameOrUrl (c :: u ++ s)).1 ≠ .error) (h : OffersNothingNew s s')
    (hdash : (nameOrUrl (c :: u ++ s)).1 = .ident → c :: u = ['-'] → s.head? = some '\\' →
      s'.head? = some '\\')
    (hdigits : (nameOrUrl (c :: u ++ s)).1 = .ident → OffersNoDigits s s') :
    kindAndLength c (u ++ s') = nameOrUrl (c :: u ++ s)
      ∨ GoesOnWithName s s' (c :: u).length (kindAndLength c (u ++ s')).2 := by
  have hname' : startsName (c :: (u ++ s')) = true := by
    cases u with
    | nil =>
      have hpos := nameLength_pos hname
      have hle := nameLength_le_nameOrUrl (c :: ([] ++ s))
      have hone : nameLength ([c] ++ s) = [c].length :=
        Nat.le_antisymm (Nat.le_trans hle (Nat.le_of_eq hend)) hpos
      have hident := nameOrUrl_eq_ident (u := [c]) hend hone
      exact startsName_offers (u := [c]) (hdash (congrArg Prod.fst hident)) hone (by simp) hname
    | cons x u => exact (startsName_cons_cons c x (u ++ s) (u ++ s')).trans hname
  rw [kindAndLength_of_startsName hname']
  exact nameOrUrl_offers (u := c :: u) h hend herror hdigits

/-- What stands alone goes on as a mark, if at all. -/
theorem StandsAlone.kindAndLength_offers (halone : StandsAlone c s) (h : OffersNothingNew s s')
    (hdigits : c = '.' ∨ c = '#' ∨ c = '-' → OffersNoDigits s s')
    (hlone : c = '\\' → startsName ('\\' :: s') = false) :
    kindAndLength c s' = kindAndLength c s ∨ GoesOnWithName s s' 1 (kindAndLength c s').2 := by
  by_cases hmark : (c = '@' ∨ c = '$') ∧ startsName s' = true
  · obtain ⟨hc, hname⟩ := hmark
    refine .inr ⟨halone.mark hc, hname, ?_⟩
    rw [kindAndLength_mark hc hname]
    exact Nat.succ_lt_succ (nameLength_pos hname)
  · have halone' : StandsAlone c s' :=
      halone.offers h hdigits hlone fun hc => Bool.eq_false_iff.mpr fun hname => hmark ⟨hc, hname⟩
    rw [halone'.kindAndLength_eq, halone.kindAndLength_eq]
    exact .inl rfl

/-- **A token is read in front of a text that offers no more**, unless it goes on there with a name. -/
theorem kindAndLength_offers {k : TokenKind} (hscan : kindAndLength c (u ++ s) = (k, u.length + 1))
    (herror : k ≠ .error) (h : OffersNothingNew s s')
    (hdash : isBareDash k (c :: u) = true → s.head? = some '\\' → s'.head? = some '\\')
    (hdigits : takesDigits k (c :: u) = true → OffersNoDigits s s')
    (hspace : k = .whitespace → startsWith isSpace s' = false)
    (hline : k = .lineComment → s' = [] ∨ startsWith isLineBreak s' = true)
    (hlone : c :: u = ['\\'] → startsName ('\\' :: s') = false) :
    kindAndLength c (u ++ s') = (k, u.length + 1)
      ∨ GoesOnWithName s s' (u.length + 1) (kindAndLength c (u ++ s')).2 := by
  obtain ⟨n, hlength, hscanned⟩ : ∃ n, n = u.length + 1 ∧ Scanned c (u ++ s) k n :=
    ⟨_, rfl, scanned_of_kindAndLength hscan⟩
  cases hscanned with
  | whitespace hblank => exact .inl (kindAndLength_space hblank hlength (hspace rfl))
  | lineComment hc hhead => exact .inl (kindAndLength_line hc hhead hlength (hline rfl))
  | blockComment => exact .inl (kindAndLength_comment hscan s')
  | string hc htail =>
    have hend : (stringTail c (u ++ s)).2 = u.length := by
      rw [htail]
      exact Nat.succ_inj.mp hlength
    exact .inl (kindAndLength_string (by simpa [isQuote] using hc) (by rw [htail]) hend s')
  | atKeyword hc hname =>
    subst hc
    exact kindAndLength_marked_offers kindAndLength_at (fun hu => hdash (by rw [hu]; rfl)) (hdigits rfl)
      hname (Nat.succ_inj.mp hlength)
  | «variable» hc hname =>
    subst hc
    exact kindAndLength_marked_offers kindAndLength_dollar (fun hu => hdash (by rw [hu]; rfl))
      (hdigits rfl) hname (Nat.succ_inj.mp hlength)
  | interpolation hc hhead htail =>
    subst hc
    exact .inl (kindAndLength_interpolation hhead htail (Nat.succ_inj.mp hlength) s')
  | hash hc hchar =>
    subst hc
    exact kindAndLength_hash_offers (hdigits rfl) hchar (Nat.succ_inj.mp hlength)
  | number hmagnitude =>
    have hend : numberLength (c :: u ++ s) = (c :: u).length := hlength
    have hmagnitude' : startsMagnitude (c :: (u ++ s')) = true :=
      startsMagnitude_of_numberLength (u := c :: u) hmagnitude hend s'
    rw [kindAndLength_of_startsMagnitude hmagnitude']
    refine (numberLength_of_takesDigits (u := c :: u) h (fun hu => hdigits ?_) hend).imp
      (fun hsame => congrArg _ hsame) id
    simp [takesDigits, hu]
  | negative hc hmagnitude =>
    subst hc
    have hend := Nat.succ_inj.mp hlength
    rw [kindAndLength_dash (startsMagnitude_of_numberLength hmagnitude hend s')]
    refine (numberLength_of_takesDigits h (fun hu => hdigits ?_) hend).imp
      (fun hsame => by rw [hsame]) fun hgoes => ⟨hgoes.1, hgoes.2.1, Nat.succ_lt_succ hgoes.2.2⟩
    have hsign : isPercentage ('-' :: u) = isPercentage u := rfl
    simp [takesDigits, hsign, hu]
  | ident hname hread =>
    subst hlength
    rw [← hread]
    exact kindAndLength_name_offers hname (congrArg Prod.snd hread) (by simp [hread]) h
      (fun _ hu => hdash (by rw [hu]; rfl)) fun _ => hdigits rfl
  | url hname hread =>
    subst hlength
    rw [← hread]
    exact kindAndLength_name_offers hname (congrArg Prod.snd hread) (by simp [hread]) h
      (fun hident => by simp [hread] at hident) fun hident => by simp [hread] at hident
  | combinator | punct =>
    obtain rfl : u = [] := List.length_eq_zero_iff.mp (Nat.succ_inj.mp hlength.symm)
    rw [List.nil_append] at hscan ⊢
    have halone : StandsAlone c s := standsAlone_of_kindAndLength (by simp [hscan])
    have hkind := halone.kindAndLength_eq
    rw [hscan, Prod.mk.injEq] at hkind
    refine hscan ▸ halone.kindAndLength_offers h (fun hc => hdigits ?_) fun hc => hlone (by rw [hc])
    rw [hkind.1]
    rcases hc with rfl | rfl | rfl <;> rfl
  | error => exact absurd rfl herror

end Scan

end SheetLint
