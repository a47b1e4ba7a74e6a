import SheetLint.Proofs.Token.Numbers

/-!
# Zeros in place of numbers

A zero without sign and unit takes less room than the number that it replaces, so it may touch what
that did not: a token in front of it that takes digits goes on with the zero, and the zero goes on
with a percent sign or a fraction. Nothing else changes what any token is read as.

Results:
* `Tokens.legible_zeroed_iff`: when a text with zeros in place of some numbers is read as that.
-/

namespace SheetLint

open Scan

/-- The number zero. -/
def Token.zero : Token := ⟨.number, ['0'], default⟩

namespace Token

variable {flag : Token → Bool} {t p n : Token} {s s' : Text}

/-- A zero in place of a flagged token. -/
def zeroed (flag : Token → Bool) (t : Token) : Token := if flag t then zero else t.bare

/-- Whether a token is a number that starts with its fraction. -/
def isFraction (t : Token) : Bool := t.kind == .number && t.text.head? == some '.'

/-- Whether a zero in place of a flagged one of two neighbours keeps them apart. -/
def ApartFrom (flag : Token → Bool) (p n : Token) : Prop :=
  (flag n = true → p.takesDigits = false)
    ∧ (flag p = true → n.isPunct '%' = false ∧ n.isFraction = false)

instance (p n : Token) : Decidable (ApartFrom flag p n) := inferInstanceAs (Decidable (_ ∧ _))

/-- Whether a token is a number with a name as unit. -/
def HasUnit (t : Token) : Prop :=
  t.kind = .number ∧ ∃ n, Number.ofText? t.text = some n ∧ n.unit ≠ [] ∧ n.unit ≠ ['%']

theorem zeroed_of_flag (h : flag t = true) : zeroed flag t = zero := if_pos h

theorem zeroed_of_not_flag (h : flag t = false) : zeroed flag t = t.bare :=
  if_neg (Bool.eq_false_iff.mp h)

theorem map_bare_zeroed (ts : List Token) :
    (ts.map (zeroed flag)).map Token.bare = ts.map (zeroed flag) := by
  rw [List.map_map]
  refine List.map_congr_left fun t _ => ?_
  rw [Function.comp_apply, zeroed]
  split <;> rfl

/-- A number with a unit takes digits, starts like a number and stands in front of no name. -/
theorem HasUnit.parts (ht : t.HasUnit) (h : t.ReadsBefore s) :
    t.takesDigits = true ∧ nameLength s = 0
      ∧ ∃ c w, t.text = c :: w ∧ (c = '-' ∨ Number.isMagnitudeChar c = true) := by
  obtain ⟨hkind, n, hn, hne, hpercent⟩ := ht
  obtain ⟨c, w, htext, hscan⟩ := h
  rw [hkind] at hscan
  rw [htext] at hn
  obtain ⟨sign, magnitude, unit, hparts⟩ := exists_parts_of_number hscan
  have hunit := hparts.unit_of_ofText? hn
  rw [hunit] at hne hpercent
  refine ⟨?_, ?_, ?_⟩
  · rw [takesDigits, hkind, htext, Scan.takesDigits, Bool.not_eq_true']
    exact Bool.eq_false_iff.mpr (mt hparts.isPercentage_iff.mp hpercent)
  · obtain ⟨x, u, rfl⟩ := List.exists_cons_of_ne_nil hne
    rcases head_of_unitLength hparts.unit_eq with ⟨rfl, rfl⟩ | ⟨-, hname⟩
    · exact absurd rfl hpercent
    · exact hname
  · rw [htext]
    exact hparts.head

/-- The characters that a number starts with. -/
theorem ne_of_magnitude {c d : Char} (hc : c = '-' ∨ Number.isMagnitudeChar c = true)
    (hd : d ≠ '-' ∧ Number.isMagnitudeChar d = false) : c ≠ d := by
  rintro rfl
  rcases hc with hc | hc
  · exact hd.1 hc
  · rw [hd.2] at hc
    cases hc

/-- A dot by itself takes digits. -/
theorem takesDigits_of_dot (h : t.ReadsBefore s) (htext : t.text = ['.']) : t.takesDigits = true := by
  obtain ⟨c, w, hw, hscan⟩ := h
  rw [htext, List.cons.injEq] at hw
  obtain ⟨rfl, rfl⟩ := hw
  rw [List.nil_append, List.length_nil] at hscan
  have hkind : t.kind = .punct ∨ t.kind = .number := by
    by_cases hmagnitude : startsMagnitude ('.' :: s) = true
    · rw [kindAndLength_of_startsMagnitude hmagnitude] at hscan
      exact .inr (Prod.mk.inj hscan).1.symm
    · have halone : StandsAlone '.' s := by
        refine ⟨rfl, ?_, ⟨by decide, by decide⟩, ?_, ?_, Bool.eq_false_iff.mpr hmagnitude, ?_, rfl⟩
        · exact fun h => absurd h (by decide)
        · exact fun h => absurd h (by decide)
        · exact fun h => absurd h (by decide)
        · exact fun h => absurd h (by decide)
      rw [halone.kindAndLength_eq] at hscan
      exact .inl (Prod.mk.inj hscan).1.symm
  rcases hkind with hkind | hkind <;> rw [takesDigits, hkind, htext] <;> rfl

/-- The numbers that start with their fraction are the tokens that start with a dot and a digit. -/
theorem isFraction_iff (h : t.ReadsBefore s) :
    t.isFraction = true ↔ t.text.head? = some '.' ∧ startsMagnitude (t.text ++ s) = true := by
  obtain ⟨c, w, htext, hscan⟩ := h
  rw [isFraction, Bool.and_eq_true, beq_iff_eq, beq_iff_eq, and_comm, htext]
  refine and_congr_right fun hhead => ?_
  obtain rfl : c = '.' := Option.some.inj hhead
  rw [List.cons_append]
  constructor
  · intro hkind
    by_contra hnone
    have halone : kindAndLength '.' (w ++ s) = (.punct, 1) := by
      simp [kindAndLength, isSpace, hnone, startsName, isNameStart, isWide, isPunctuation]
    rw [halone, hkind] at hscan
    cases hscan
  · intro hmagnitude
    rw [kindAndLength_of_startsMagnitude hmagnitude] at hscan
    exact (Prod.mk.inj hscan).1.symm

end Token

namespace Tokens

variable {flag : Token → Bool} {ts : List Token} {t : Token} {s s' : Text}

/-- What zeros in place of numbers make of a text: what they offer to a token in front of it, and what
else tells its first character from the one before. -/
structure Zeroed (s s' : Text) : Prop where
  offers : OffersNoMore s s'
  name : OffersNoName s s'
  head : s'.head? = s.head? ∨ s'.head? = some '0'
    ∧ ∃ c w, s = c :: w ∧ (c = '-' ∨ Number.isMagnitudeChar c = true)

theorem zeroed_zero {c : Char} (hc : c = '-' ∨ Number.isMagnitudeChar c = true) (s s' : Text) :
    Zeroed (c :: s) ('0' :: s') := by
  have hne {d : Char} (hd : d ≠ '-' ∧ Number.isMagnitudeChar d = false) : c ≠ d :=
    Token.ne_of_magnitude hc hd
  have hescape : c ≠ '\\' := hne (by decide)
  have hspace : isSpace c = false := by
    simp only [isSpace, Bool.or_eq_false_iff, beq_eq_false_iff_ne]
    exact ⟨⟨⟨⟨hne (by decide), hne (by decide)⟩, hne (by decide)⟩, hne (by decide)⟩, hne (by decide)⟩
  have hquote : isQuote c = false := by
    simp only [isQuote, Bool.or_eq_false_iff, beq_eq_false_iff_ne]
    exact ⟨hne (by decide), hne (by decide)⟩
  have hzero : isSpace '0' = false := rfl
  refine ⟨⟨.of_head ?_ rfl ?_ ?_ ?_ s', ?_⟩, ⟨?_, ?_⟩, .inr ⟨rfl, c, s, rfl, hc⟩⟩
  · exact fun h => hescape (Option.some.inj h)
  · decide
  · decide
  · simp
  · rw [List.dropWhile_cons_of_neg (by simp [hzero]), List.dropWhile_cons_of_neg (by simp [hspace])]
    exact hquote.symm
  · simp [startsName, isNameStart, isWide]
  · intro _
    have hfeed : c ≠ '\n' := hne (by decide)
    simpa [startsName] using hfeed

theorem Zeroed.append (h : Zeroed s s') {u : Text} (hu : u ≠ []) : Zeroed (u ++ s) (u ++ s') := by
  refine ⟨h.offers.append u, .append h.offers h.name u, .inl ?_⟩
  rw [List.head?_append_of_ne_nil _ hu, List.head?_append_of_ne_nil _ hu]

/-- The first character stays in a class that no number starts in. -/
theorem Zeroed.startsWith_eq_false (h : Zeroed s s') {p : Char → Bool} (hp : p '0' = false)
    (hs : startsWith p s = false) : startsWith p s' = false := by
  cases s' with
  | nil => rfl
  | cons d s' =>
    rcases h.head with hsame | ⟨hzero, -⟩
    · obtain ⟨more, rfl⟩ := List.head?_eq_some_iff.mp hsame.symm
      exact hs
    · obtain rfl : d = '0' := Option.some.inj hzero
      exact hp

/-- What ends a line comment still does. -/
theorem Zeroed.ends_line (h : Zeroed s s') (hs : s = [] ∨ startsWith isLineBreak s = true) :
    s' = [] ∨ startsWith isLineBreak s' = true := by
  rcases h.head with hsame | ⟨-, c, w, rfl, hc⟩
  · cases s' with
    | nil => exact .inl rfl
    | cons d s' =>
      obtain ⟨more, rfl⟩ := List.head?_eq_some_iff.mp hsame.symm
      exact .inr (hs.resolve_left (List.cons_ne_nil d more))
  · have hbreak : isLineBreak c = true := hs.resolve_left (List.cons_ne_nil c w)
    rw [isLineBreak, Bool.or_eq_true, beq_iff_eq, beq_iff_eq] at hbreak
    exact absurd hbreak (not_or.mpr ⟨Token.ne_of_magnitude hc (by decide),
      Token.ne_of_magnitude hc (by decide)⟩)

/-- **A zero is read in front of what stands apart from it**: of what it replaces no name went on, and
neither a percent sign nor a fraction comes next. -/
theorem readsBefore_zero (hlater : Legible ts) (hname : nameLength (text ts) = 0)
    (hnext : ∀ n ∈ ts.head?, n.isPunct '%' = false ∧ n.isFraction = false)
    (h : Zeroed (text ts) s') (hdigits : OffersNoDigits (text ts) s') : Token.zero.ReadsBefore s' := by
  have hnone := ((nameLength_eq_zero_iff _).mp hname).1
  refine ⟨'0', [], rfl, (kindAndLength_zero_iff _).mpr ⟨?_, ?_, ?_⟩⟩
  · refine Bool.eq_false_iff.mpr fun hmagnitude => ?_
    have hold := hdigits.magnitude hmagnitude
    cases ts with
    | nil => cases hold
    | cons n ts =>
      obtain ⟨x, u, hx⟩ := List.exists_cons_of_ne_nil hlater.1.ne_nil
      rw [text_cons] at hold hnone
      have hdot : x = '.' := by
        by_contra hx'
        rw [hx] at hold hnone
        have hdigit : x.isDigit = true := by simpa [startsMagnitude, hx'] using hold
        have hchar : isNameChar x = false := hnone
        simp [isNameChar, hdigit] at hchar
      have hfraction := (Token.isFraction_iff hlater.1).mpr ⟨by rw [hx, hdot]; rfl, hold⟩
      rw [(hnext n rfl).2] at hfraction
      cases hfraction
  · intro hhead
    have hold := h.offers.mark '%' (by decide) hhead
    cases ts with
    | nil => cases hold
    | cons n ts =>
      rw [text_cons, List.head?_append_of_ne_nil _ hlater.1.ne_nil] at hold
      have hpercent := hlater.1.isPunct_of_head (by decide) hold
      rw [(hnext n rfl).1] at hpercent
      cases hpercent
  · refine Bool.eq_false_iff.mpr fun hstart => ?_
    obtain ⟨x, more, heq, hx⟩ := exists_eq_cons_of_startsWith (h.offers.nameStart hstart)
    rw [heq] at hnone
    have hchar : isNameChar x = false := hnone
    simp [isNameChar, hx] at hchar

/-- A token offers the numbers in front of it no digits because of what stands behind it, unless it
takes them itself. -/
theorem offersNoDigits_behind (h : t.ReadsBefore s)
    (hdigits : t.takesDigits = true → OffersNoDigits s s') :
    OffersNoDigits (t.text ++ s) (t.text ++ s') := by
  by_cases htakes : t.takesDigits = true
  · exact (hdigits htakes).append t.text
  · obtain ⟨c, w, htext⟩ := List.exists_cons_of_ne_nil h.ne_nil
    cases w with
    | nil =>
      have hdot : c ≠ '.' := fun heq => htakes (Token.takesDigits_of_dot h (by rw [htext, heq]))
      rw [htext]
      exact .of_cons hdot _ _
    | cons x w =>
      rw [htext]
      exact ⟨id, id, (startsMagnitude_cons_cons c x _ _).trans⟩

/-- **Zeros that stand apart change what they replace, and nothing else.** -/
theorem legible_zeroed (h : Legible ts) (herror : ∀ t ∈ ts, t.kind ≠ .error)
    (hunit : ∀ t ∈ ts, flag t = true → t.HasUnit) (hchain : ts.IsChain (Token.ApartFrom flag)) :
    Legible (ts.map (Token.zeroed flag)) ∧ Zeroed (text ts) (text (ts.map (Token.zeroed flag)))
      ∧ ((∀ t ∈ ts.head?, flag t = false) →
        OffersNoDigits (text ts) (text (ts.map (Token.zeroed flag)))) := by
  induction ts with
  | nil => exact ⟨trivial, ⟨.refl [], .refl [], .inl rfl⟩, fun _ => ⟨id, id, id⟩⟩
  | cons p ts ih =>
    obtain ⟨hreads, hlater⟩ := h
    rw [List.forall_mem_cons] at herror hunit
    rw [List.isChain_cons] at hchain
    obtain ⟨hnext, hchain⟩ := hchain
    obtain ⟨hlegible, hzeroed, hdigits⟩ := ih hlater herror.2 hunit.2 hchain
    have hdigits (ht : p.takesDigits = true) :
        OffersNoDigits (text ts) (text (ts.map (Token.zeroed flag))) := by
      refine hdigits fun n hn => Bool.eq_false_iff.mpr fun hflag => ?_
      rw [(hnext n hn).1 hflag] at ht
      cases ht
    rw [List.map_cons, text_cons, text_cons]
    cases hflag : flag p with
    | true =>
      obtain ⟨htakes, hname, c, w, htext, hc⟩ := (hunit.1 hflag).parts hreads
      have hzero := readsBefore_zero hlater hname (fun n hn => (hnext n hn).2 hflag) hzeroed
        (hdigits htakes)
      rw [Token.zeroed_of_flag hflag, htext]
      refine ⟨⟨hzero, hlegible⟩, zeroed_zero hc _ _, fun hhead => ?_⟩
      rw [hhead p rfl] at hflag
      cases hflag
    | false =>
      have hspace : p.kind = .whitespace →
          startsWith isSpace (text (ts.map (Token.zeroed flag))) = false := fun hkind =>
        hzeroed.startsWith_eq_false rfl (hreads.space hkind)
      have hline : p.kind = .lineComment → text (ts.map (Token.zeroed flag)) = []
          ∨ startsWith isLineBreak (text (ts.map (Token.zeroed flag))) = true := fun hkind =>
        hzeroed.ends_line (hreads.line hkind)
      have hreads' := hreads.of_offers herror.1 hzeroed.offers hzeroed.name hdigits hspace hline
      rw [Token.zeroed_of_not_flag hflag]
      exact ⟨⟨hreads'.congr rfl rfl, hlegible⟩, hzeroed.append hreads.ne_nil,
        fun _ => offersNoDigits_behind hreads hdigits⟩

theorem takesDigits_zeroed (h : t.takesDigits = true) : (Token.zeroed flag t).takesDigits = true := by
  cases hflag : flag t with
  | true => rw [Token.zeroed_of_flag hflag]; rfl
  | false => rw [Token.zeroed_of_not_flag hflag]; exact h

/-- What a zero is read in front of stands apart from it. -/
theorem apart_of_readsBefore_zero (hzero : Token.zero.ReadsBefore (t.text ++ s))
    (h : t.ReadsBefore s) : t.isPunct '%' = false ∧ t.isFraction = false := by
  obtain ⟨c, w, htext, hscan⟩ := hzero
  obtain ⟨rfl, rfl⟩ := List.cons.inj htext
  obtain ⟨hmagnitude, hpercent, -⟩ := (kindAndLength_zero_iff _).mp hscan
  constructor
  · refine Bool.eq_false_iff.mpr fun hpunct => hpercent ?_
    rw [Token.text_of_isPunct hpunct]
    rfl
  · refine Bool.eq_false_iff.mpr fun hfraction => ?_
    have hstarts := ((Token.isFraction_iff h).mp hfraction).2
    rw [List.nil_append, hstarts] at hmagnitude
    cases hmagnitude

/-- Zeros that are read as such stand apart. -/
theorem isChain_of_legible_zeroed (h : Legible (ts.map (Token.zeroed flag))) :
    ts.IsChain (Token.ApartFrom flag) := by
  induction ts with
  | nil => exact .nil
  | cons p ts ih =>
    refine List.isChain_cons.mpr ⟨fun n hn => ?_, ih h.2⟩
    obtain ⟨more, rfl⟩ := List.head?_eq_some_iff.mp hn
    have hreads := h.1
    rw [List.map_cons, text_cons] at hreads
    constructor
    · intro hflag
      rw [Token.zeroed_of_flag hflag] at hreads
      refine Bool.eq_false_iff.mpr fun htakes => ?_
      exact Token.not_readsBefore_digit (takesDigits_zeroed htakes) (d := '0') rfl hreads
    · intro hflag
      rw [Token.zeroed_of_flag hflag] at hreads
      cases hn : flag n with
      | true =>
        -- no zero is read in front of another one
        rw [Token.zeroed_of_flag hn] at hreads
        exact absurd hreads (Token.not_readsBefore_digit (t := Token.zero) rfl (d := '0') rfl)
      | false =>
        have hbehind := h.2.1
        rw [Token.zeroed_of_not_flag hn] at hreads hbehind
        exact apart_of_readsBefore_zero hreads hbehind

/-- **When a text with zeros in place of some numbers is read as that.** -/
theorem legible_zeroed_iff (h : Legible ts) (herror : ∀ t ∈ ts, t.kind ≠ .error)
    (hunit : ∀ t ∈ ts, flag t = true → t.HasUnit) :
    Legible (ts.map (Token.zeroed flag)) ↔ ts.IsChain (Token.ApartFrom flag) :=
  ⟨isChain_of_legible_zeroed, fun hchain => (legible_zeroed h herror hunit hchain).1⟩

end Tokens

end SheetLint
