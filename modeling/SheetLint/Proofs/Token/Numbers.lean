import SheetLint.Proofs.Token.Legible
import SheetLint.Proofs.Value.Numerals

/-!
# Numbers next to other tokens

A number is a sign, a magnitude and a unit. Its text says which of its characters are which, so a
number that is replaced by another one can be told from what stands next to it: a token in front of
it that takes digits goes on with those of the new number, and the new number goes on with a percent
sign or a fraction behind it.

Results:
* `Scan.exists_parts_of_number`: sign, magnitude and unit of a number.
* `Tokens.exists_numeral_of_ofText`: the numbers of a text are read as the numerals and units that
  they are written with.
* `Tokens.indices_numbers`: no number among the tokens of a value is passed over.
* `Token.not_readsBefore_digit`: a token that takes digits does not end in front of one.
* `Scan.kindAndLength_zero_iff`: where a zero is a number by itself.
-/

namespace SheetLint

open Scan

namespace Scan

variable {u s t : Text} {c d : Char}

/-! ## Magnitudes -/

theorem take_digitsLength (t : Text) : t.take (digitsLength t) = t.takeWhile Char.isDigit :=
  (List.prefix_iff_eq_take.mp (List.takeWhile_prefix _)).symm

/-- A fraction is a dot with digits behind it, or nothing. -/
theorem exists_digits_of_fractionLength (t : Text) :
    ∃ fraction : Text, (∀ c ∈ fraction, c.isDigit = true)
      ∧ t.take (fractionLength t) = Numeral.pointed fraction := by
  fun_cases fractionLength t with
  | case1 rest hstart =>
    obtain ⟨d, more, rfl, hd⟩ := exists_eq_cons_of_startsWith hstart
    refine ⟨(d :: more).takeWhile Char.isDigit, fun c hc => List.mem_takeWhile_imp hc, ?_⟩
    rw [Nat.add_comm, List.take_succ_cons, take_digitsLength, List.takeWhile_cons_of_pos hd]
    rfl
  | case2 | case3 => exact ⟨[], nofun, rfl⟩

/-- **What is scanned as a magnitude** is digits, and a dot with digits behind it or nothing. -/
theorem exists_digits_of_magnitudeLength (t : Text) :
    ∃ whole fraction : Text, (∀ c ∈ whole ++ fraction, c.isDigit = true)
      ∧ t.take (magnitudeLength t) = whole ++ Numeral.pointed fraction := by
  obtain ⟨fraction, hfraction, hback⟩ := exists_digits_of_fractionLength (t.drop (digitsLength t))
  refine ⟨t.takeWhile Char.isDigit, fraction, fun c hc => ?_, ?_⟩
  · rcases List.mem_append.mp hc with hc | hc
    · exact List.mem_takeWhile_imp hc
    · exact hfraction c hc
  · rw [magnitudeLength_eq, List.take_add, take_digitsLength, hback]

theorem isMagnitudeChar_of_mem (hc : c ∈ t.take (magnitudeLength t)) :
    Number.isMagnitudeChar c = true := by
  obtain ⟨whole, fraction, hdigit, htake⟩ := exists_digits_of_magnitudeLength t
  rw [htake] at hc
  exact Numeral.isMagnitudeChar_of_mem hdigit c hc

/-- A magnitude does not end in front of a digit. -/
theorem magnitudeLength_digit_ne (hd : d.isDigit = true) (u s : Text) :
    magnitudeLength (u ++ d :: s) ≠ u.length := by
  have hrun {u : Text} (hlength : digitsLength (u ++ d :: s) = u.length) : False := by
    have hstop : d.isDigit = false := of_length_takeWhile hlength
    rw [hd] at hstop
    cases hstop
  rw [magnitudeLength_eq]
  intro hlength
  have hle : digitsLength (u ++ d :: s) ≤ u.length := by omega
  rw [List.drop_append_of_le_length hle] at hlength
  have hback : (u.drop (digitsLength (u ++ d :: s))).length =
      u.length - digitsLength (u ++ d :: s) := List.length_drop
  cases hdrop : u.drop (digitsLength (u ++ d :: s)) with
  | nil =>
    rw [hdrop, List.length_nil] at hback
    have hend : digitsLength (u ++ d :: s) = u.length := by omega
    exact hrun hend
  | cons x back =>
    rw [hdrop, List.length_cons] at hback
    rw [hdrop, List.cons_append] at hlength
    unfold fractionLength at hlength
    split at hlength
    · rename_i heq
      rw [← (List.cons.inj heq).2] at hlength
      split at hlength
      · have hend : digitsLength (back ++ d :: s) = back.length := by omega
        exact hrun hend
      · omega
    · omega

/-! ## Units -/

/-- Whether a unit starts here, or nothing. -/
theorem head_of_unitLength (h : unitLength (c :: u ++ s) = (c :: u).length) :
    c = '%' ∧ u = [] ∨ isNameStart c = true ∧ nameLength s = 0 := by
  by_cases hc : c = '%'
  · subst hc
    exact .inl ⟨rfl, List.length_eq_zero_iff.mp (Nat.succ_inj.mp h).symm⟩
  · rw [List.cons_append, unitLength_cons hc] at h
    split at h
    · rename_i hstart
      have hname := nameLength_append_of_eq (u := c :: u) h s
      rw [List.cons_append, h] at hname
      exact .inr ⟨hstart, by omega⟩
    · cases h

/-- A unit does not start like a magnitude or a sign. -/
theorem dropWhile_unit {p : Char → Bool} (h : unitLength (u ++ s) = u.length) (hpercent : p '%' = false)
    (hp : ∀ c, isNameStart c = true → p c = false) : u.dropWhile p = u := by
  cases u with
  | nil => rfl
  | cons c u =>
    refine List.dropWhile_cons_of_neg (Bool.not_eq_true _ ▸ ?_)
    rcases head_of_unitLength h with ⟨rfl, -⟩ | ⟨hstart, -⟩
    · exact hpercent
    · exact hp c hstart

/-! ## Numbers -/

/-- **The parts of a number**: a dash or nothing, a magnitude, a unit. -/
structure IsNumber (whole : Text) (sign magnitude unit rest : Text) : Prop where
  whole_eq : whole = sign ++ (magnitude ++ unit)
  sign_eq : sign = [] ∨ sign = ['-']
  ne_nil : magnitude ≠ []
  chars : ∀ c ∈ magnitude, Number.isMagnitudeChar c = true
  length_eq : magnitudeLength (magnitude ++ (unit ++ rest)) = magnitude.length
  unit_eq : unitLength (unit ++ rest) = unit.length

theorem exists_parts_of_numberLength (hstarts : startsMagnitude (u ++ s) = true)
    (h : numberLength (u ++ s) = u.length) : ∃ magnitude unit, IsNumber u [] magnitude unit s := by
  have hle : magnitudeLength (u ++ s) ≤ u.length := h ▸ Nat.le_add_right _ _
  have hpos := magnitudeLength_pos hstarts
  have hcut := List.take_append_drop (magnitudeLength (u ++ s)) u
  have hlength : (u.take (magnitudeLength (u ++ s))).length = magnitudeLength (u ++ s) := by
    rw [List.length_take, Nat.min_eq_left hle]
  refine ⟨u.take (magnitudeLength (u ++ s)), u.drop (magnitudeLength (u ++ s)), ?_, .inl rfl, ?_,
    ?_, ?_, ?_⟩
  · rw [List.nil_append, hcut]
  · intro hnil
    rw [hnil, List.length_nil] at hlength
    omega
  · intro c hc
    refine isMagnitudeChar_of_mem (t := u ++ s) ?_
    rwa [List.take_append_of_le_length hle]
  · rw [← List.append_assoc, hcut, hlength]
  · unfold numberLength at h
    simp only [List.drop_append_of_le_length hle] at h
    rw [List.length_drop]
    omega

theorem exists_parts_of_number (h : kindAndLength c (u ++ s) = (.number, u.length + 1)) :
    ∃ sign magnitude unit, IsNumber (c :: u) sign magnitude unit s := by
  generalize hn : u.length + 1 = n at h
  cases scanned_of_kindAndLength h with
  | number hmagnitude =>
    obtain ⟨magnitude, unit, hparts⟩ := exists_parts_of_numberLength (u := c :: u) hmagnitude hn.symm
    exact ⟨[], magnitude, unit, hparts⟩
  | negative hc hmagnitude =>
    obtain ⟨magnitude, unit, hparts⟩ := exists_parts_of_numberLength hmagnitude (Nat.succ_inj.mp hn).symm
    refine ⟨['-'], magnitude, unit, ?_, .inr rfl, hparts.ne_nil, hparts.chars, hparts.length_eq,
      hparts.unit_eq⟩
    rw [hc, hparts.whole_eq]
    rfl

namespace IsNumber

variable {whole sign magnitude unit rest : Text}

/-- The percentages are the numbers with a percent sign. -/
theorem isPercentage_iff (h : IsNumber whole sign magnitude unit rest) :
    isPercentage whole = true ↔ unit = ['%'] := by
  have hfront : ∀ c ∈ sign ++ magnitude, (c.isDigit || c == '.' || c == '-') = true := by
    intro c hc
    rcases List.mem_append.mp hc with hc | hc
    · rcases h.sign_eq with hsign | hsign
      · rw [hsign] at hc
        cases hc
      · rw [hsign, List.mem_singleton] at hc
        rw [hc]
        rfl
    · have hchar := h.chars c hc
      rw [Number.isMagnitudeChar] at hchar
      rw [hchar, Bool.true_or]
  rw [isPercentage, h.whole_eq, ← List.append_assoc, List.dropWhile_append_of_pos hfront,
    dropWhile_unit h.unit_eq rfl, beq_iff_eq]
  intro c hc
  have hdash := ne_of_isNameStart hc (d := '-') rfl
  have hdot := ne_of_isNameStart hc (d := '.') rfl
  simp [isDigit_of_isNameStart hc, hdash, hdot]

/-- The first character of a number. -/
theorem head (h : IsNumber whole sign magnitude unit rest) :
    ∃ c w, whole = c :: w ∧ (c = '-' ∨ Number.isMagnitudeChar c = true) := by
  obtain ⟨c, w, hc⟩ := List.exists_cons_of_ne_nil h.ne_nil
  rcases h.sign_eq with hsign | hsign
  · refine ⟨c, w ++ unit, by rw [h.whole_eq, hsign, hc]; rfl, .inr (h.chars c ?_)⟩
    rw [hc]
    exact List.mem_cons_self
  · exact ⟨'-', magnitude ++ unit, by rw [h.whole_eq, hsign]; rfl, .inl rfl⟩

/-- Sign and magnitude are a numeral. -/
theorem exists_numeral (h : IsNumber whole sign magnitude unit rest) :
    ∃ m : Numeral, m.text = sign ++ magnitude := by
  obtain ⟨front, fraction, hdigit, htake⟩ :=
    exists_digits_of_magnitudeLength (magnitude ++ (unit ++ rest))
  rw [h.length_eq, List.take_left] at htake
  have hne : front ++ fraction ≠ [] := by
    intro hnil
    obtain ⟨rfl, rfl⟩ := List.append_eq_nil_iff.mp hnil
    exact h.ne_nil htake
  rcases h.sign_eq with hsign | hsign
  · exact ⟨⟨false, front, fraction, hdigit, hne⟩, by rw [hsign, htake]; rfl⟩
  · exact ⟨⟨true, front, fraction, hdigit, hne⟩, by rw [hsign, htake]; rfl⟩

/-- A unit that is scanned has the form of one. -/
theorem unitForm (h : IsNumber whole sign magnitude unit rest) : Number.UnitForm unit := by
  cases unit with
  | nil => exact .absent
  | cons c name =>
    rcases head_of_unitLength h.unit_eq with ⟨rfl, rfl⟩ | ⟨hstart, -⟩
    · exact .percent
    · exact .name ((isNameStart_iff c).mp hstart) name

/-- **A number is read as a numeral and the unit that is scanned.** -/
theorem exists_ofText?_eq (h : IsNumber whole sign magnitude unit rest) :
    ∃ m : Numeral, whole = m.text ++ unit ∧ Number.ofText? whole = some (m.number unit) := by
  obtain ⟨m, hm⟩ := h.exists_numeral
  have hwhole : whole = m.text ++ unit := by rw [h.whole_eq, hm, List.append_assoc]
  exact ⟨m, hwhole, hwhole ▸ m.ofText?_append h.unitForm⟩

theorem unit_of_ofText? (h : IsNumber whole sign magnitude unit rest) {n : Number}
    (hn : Number.ofText? whole = some n) : n.unit = unit := by
  obtain ⟨m, -, hread⟩ := h.exists_ofText?_eq
  rw [hread] at hn
  exact Option.some.inj hn ▸ rfl

/-- No number but a percentage ends in front of a digit. -/
theorem unit_of_digit (h : IsNumber whole sign magnitude unit (d :: s)) (hd : d.isDigit = true) :
    unit = ['%'] := by
  cases hunit : unit with
  | nil =>
    have hlength := h.length_eq
    rw [hunit, List.nil_append] at hlength
    exact absurd hlength (magnitudeLength_digit_ne hd magnitude s)
  | cons c u =>
    have hlength := h.unit_eq
    rw [hunit] at hlength
    rcases head_of_unitLength hlength with ⟨rfl, rfl⟩ | ⟨-, hname⟩
    · rfl
    · have hchar : isNameChar d = true := by simp [isNameChar, hd]
      have hnone : isNameChar d = false := ((nameLength_eq_zero_iff _).mp hname).1
      rw [hnone] at hchar
      cases hchar

end IsNumber

/-! ## Zeros -/

theorem unitLength_eq_zero_iff (t : Text) :
    unitLength t = 0 ↔ t.head? ≠ some '%' ∧ startsWith isNameStart t = false := by
  cases t with
  | nil => simp [unitLength, startsWith]
  | cons c t =>
    by_cases hc : c = '%'
    · subst hc
      simp [unitLength]
    · rw [unitLength_cons hc]
      split
      · rename_i hstart
        have hescape : c ≠ '\\' := ne_of_isNameStart hstart rfl
        have hchar : isNameChar c = true := by simp [isNameChar, hstart]
        simp [nameLength_cons hescape, hchar, startsWith, hstart]
      · rename_i hstart
        simpa [startsWith, hc] using hstart

/-- Where a zero is a number by itself: in front of no digit, no fraction and no unit. -/
theorem numberLength_zero_iff (t : Text) :
    numberLength ('0' :: t) = 1 ↔ startsMagnitude t = false ∧ t.head? ≠ some '%'
      ∧ startsWith isNameStart t = false := by
  have hmagnitude : magnitudeLength ('0' :: t) =
      1 + digitsLength t + fractionLength (t.drop (digitsLength t)) := by
    have hdigits : digitsLength ('0' :: t) = digitsLength t + 1 := by simp [digitsLength]
    rw [magnitudeLength_eq, hdigits, List.drop_succ_cons]
    omega
  have hnone : magnitudeLength ('0' :: t) = 1 ↔ startsMagnitude t = false := by
    rw [hmagnitude, Bool.eq_false_iff, Ne, startsMagnitude_iff, not_or]
    cases t with
    | nil => simp [digitsLength, fractionLength, startsWith]
    | cons c t =>
      by_cases hc : c.isDigit = true
      · have hpos : 0 < digitsLength (c :: t) := by simp [digitsLength, hc]
        simp only [startsWith, hc, not_true_eq_false, false_and, iff_false]
        omega
      · have hzero : digitsLength (c :: t) = 0 := by simp [digitsLength, hc]
        simp only [startsWith, hc, hzero, List.drop_zero]
        simp
  rw [← unitLength_eq_zero_iff, ← hnone]
  unfold numberLength
  simp only
  constructor
  · intro h
    have hone : magnitudeLength ('0' :: t) = 1 := by omega
    rw [hone, List.drop_succ_cons, List.drop_zero] at h
    exact ⟨hone, by omega⟩
  · rintro ⟨hone, hunit⟩
    rw [hone, List.drop_succ_cons, List.drop_zero, hunit]

theorem kindAndLength_zero_iff (t : Text) :
    kindAndLength '0' t = (.number, 1) ↔ startsMagnitude t = false ∧ t.head? ≠ some '%'
      ∧ startsWith isNameStart t = false := by
  have hstarts : startsMagnitude ('0' :: t) = true := rfl
  rw [kindAndLength_of_startsMagnitude hstarts, Prod.mk.injEq, and_iff_right rfl,
    numberLength_zero_iff]

/-! ## Digits behind a token -/

theorem nameLength_digit_ne (hd : d.isDigit = true) (u s : Text) :
    nameLength (u ++ d :: s) ≠ u.length := by
  intro hlength
  have hname := nameLength_append_of_eq hlength (d :: s)
  have hzero : nameLength (d :: s) = 0 := by omega
  have hnone : isNameChar d = false := ((nameLength_eq_zero_iff _).mp hzero).1
  simp [isNameChar, hd] at hnone

end Scan

/-- Marks that digits make something of do not stand alone in front of one. -/
theorem Scan.StandsAlone.not_digit {c d : Char} {s : Text} (h : StandsAlone c (d :: s))
    (hc : c = '.' ∨ c = '#' ∨ c = '-') (hd : d.isDigit = true) : False := by
  rcases hc with rfl | rfl | rfl
  · have hnone : d.isDigit = false := h.magnitude
    rw [hd] at hnone
    cases hnone
  · have hnone : isNameChar d = false := (h.hash rfl).2
    simp [isNameChar, hd] at hnone
  · have hnone := h.dash rfl
    have hdot : d ≠ '.' := by
      rintro rfl
      cases hd
    simp [startsMagnitude, hdot, hd] at hnone

namespace Token

variable {t : Token} {s : Text} {d : Char}

/-- **A token that takes digits does not end in front of one.** -/
theorem not_readsBefore_digit (ht : t.takesDigits = true) (hd : d.isDigit = true) :
    ¬ t.ReadsBefore (d :: s) := by
  rintro ⟨c, w, htext, hscan⟩
  rw [takesDigits, htext] at ht
  generalize t.kind = k at *
  have hwhole := hscan
  revert hscan
  fun_cases Scan.kindAndLength c (w ++ d :: s) with
  | case5 =>
    intro (hscan : ((stringTail c (w ++ d :: s)).1, _) = (k, _))
    have hkind : (stringTail c (w ++ d :: s)).1 = k := congrArg Prod.fst hscan
    rcases stringTail_kind c (w ++ d :: s) with hstring | herror
    · rw [← hkind, hstring] at ht
      cases ht
    · rw [← hkind, herror] at ht
      cases ht
  | case6 | case7 | case10 =>
    intro hscan
    exact nameLength_digit_ne hd w s (Nat.succ_inj.mp (Prod.mk.inj hscan).2)
  | case11 | case12 =>
    intro hscan
    obtain ⟨rfl, -⟩ := Prod.mk.inj hscan
    obtain ⟨sign, magnitude, unit, hparts⟩ := exists_parts_of_number hwhole
    have hpercent := hparts.isPercentage_iff.mpr (hparts.unit_of_digit hd)
    simp [Scan.takesDigits, hpercent] at ht
  | case13 =>
    intro hscan
    rcases nameOrUrl_kind (c :: (w ++ d :: s)) with hident | hurl | herror
    · have hlength := nameOrUrl_ident hident
      rw [hscan] at hlength
      exact nameLength_digit_ne hd (c :: w) s hlength.symm
    · rw [hscan] at hurl
      rw [show k = .url from hurl] at ht
      cases ht
    · rw [hscan] at herror
      rw [show k = .error from herror] at ht
      cases ht
  | case15 =>
    intro hscan
    obtain ⟨rfl, hlength⟩ := Prod.mk.inj hscan
    obtain rfl : w = [] := List.length_eq_zero_iff.mp (Nat.succ_inj.mp hlength).symm
    have halone : StandsAlone c (d :: s) := standsAlone_of_kindAndLength (.inl (by
      rw [List.nil_append] at hwhole
      rw [hwhole]))
    exact halone.not_digit (by simpa [Scan.takesDigits, or_assoc] using ht) hd
  | case1 | case2 | case3 | case4 | case8 | case9 | case14 | case16 =>
    intro hscan
    obtain ⟨rfl, -⟩ := Prod.mk.inj hscan
    cases ht

/-! ## Numbers as they are read -/

/-- **A number is read as it is written**, whatever it stands in front of. -/
theorem ReadsBefore.exists_numeral (h : t.ReadsBefore s) (hkind : t.kind = .number) :
    ∃ (m : Numeral) (unit : Text), t.text = m.text ++ unit ∧ Number.UnitForm unit
      ∧ Number.ofText? t.text = some (m.number unit) := by
  obtain ⟨c, w, htext, hscan⟩ := h
  rw [hkind] at hscan
  obtain ⟨sign, magnitude, unit, hparts⟩ := exists_parts_of_number hscan
  obtain ⟨m, hwhole, hread⟩ := hparts.exists_ofText?_eq
  rw [← htext] at hwhole hread
  exact ⟨m, unit, hwhole, hparts.unitForm, hread⟩

end Token

namespace Tokens

variable {k : Token} {ts : List Token}

/-- **The numbers of a text are read as they are written**: each of them is a numeral with a unit behind
it, and it is read as these two. What is scanned as a number is never refused as one. -/
theorem exists_numeral_of_ofText {source : Text} (h : k ∈ ofText source) (hkind : k.kind = .number) :
    ∃ (m : Numeral) (unit : Text), k.text = m.text ++ unit ∧ Number.UnitForm unit
      ∧ Number.ofText? k.text = some (m.number unit) := by
  obtain ⟨s, hreads⟩ := exists_readsBefore h
  exact hreads.exists_numeral hkind

namespace Fractions

/-- Three numbers in a row. -/
def source : Text := "-.5é\\3x1.2.0%".toList

/-- A fraction with a dash. Its unit goes on with an escape and a digit, and ends in front of a dot. -/
def first : Token := ⟨.number, "-.5é\\3x1".toList, ⟨⟨0, 1, 1⟩, ⟨9, 1, 9⟩⟩⟩

/-- The fraction behind it, which ends in front of a second dot. -/
def second : Token := ⟨.number, ".2".toList, ⟨⟨9, 1, 9⟩, ⟨11, 1, 11⟩⟩⟩

/-- What is left, a percentage. -/
def third : Token := ⟨.number, ".0%".toList, ⟨⟨11, 1, 11⟩, ⟨14, 1, 14⟩⟩⟩

theorem ofText_source : ofText source = [first, second, third] := by cbv

end Fractions

theorem exists_numeral_of_ofText_fractions :
    Fractions.first ∈ ofText Fractions.source ∧ Fractions.first.kind = .number
      ∧ ∃ (m : Numeral) (unit : Text), Fractions.first.text = m.text ++ unit
        ∧ Number.UnitForm unit ∧ Number.ofText? Fractions.first.text = some (m.number unit) := by
  have hfirst : Fractions.first ∈ ofText Fractions.source := by
    rw [Fractions.ofText_source]
    exact List.mem_cons_self
  exact ⟨hfirst, rfl, exists_numeral_of_ofText hfirst rfl⟩

/-- **No number is passed over**: the numbers of a value are read at the indices of its tokens of this
kind, each once and in order. -/
theorem indices_numbers {source : Text} (h : ts ⊆ ofText source) :
    (numbers ts).map Prod.fst = (ts.zipIdx.filter fun p => p.1.kind == .number).map Prod.snd := by
  rw [numbers, List.map_filterMap, ← List.filterMap_eq_map, List.filterMap_filter]
  refine List.filterMap_congr fun ⟨t, i⟩ hti => ?_
  by_cases hkind : t.kind = .number
  · obtain ⟨s, hreads⟩ := exists_readsBefore (h (List.fst_mem_of_mem_zipIdx hti))
    obtain ⟨m, unit, -, -, hread⟩ := hreads.exists_numeral hkind
    simp [hkind, hread]
  · simp [hkind]

end Tokens

end SheetLint
