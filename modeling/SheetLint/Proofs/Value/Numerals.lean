import SheetLint.Proofs.Token.Endings
import SheetLint.Value.Number

/-!
# Numbers as they are written

A numeral is a dash or nothing, digits, and a dot with digits behind it or nothing. A number is a
numeral with its unit written behind it. `Number.ofText?` looks for the end of the numeral by itself:
it takes every digit and dot it finds, and refuses what these do not make a magnitude of. No unit
starts with one of them, so what it takes is the numeral, and that it never refuses.

Results:
* `Numeral.ofText?_append`: a numeral with a unit behind it is read as these two.
-/

namespace SheetLint

open Scan

/-- **The forms of a unit**: nothing, a percent sign, or what starts with a letter, an underscore or a
character outside ASCII. -/
inductive Number.UnitForm : Text → Prop
  | absent : UnitForm []
  | percent : UnitForm ['%']
  | name {c : Char} (hc : c.isAlpha = true ∨ c = '_' ∨ 128 ≤ c.toNat) (w : Text) : UnitForm (c :: w)

/-- **A numeral**: whether it has a dash, its digits in front of the dot and those behind it. It has at
least one digit. -/
structure Numeral where
  negative : Bool
  whole : Text
  fraction : Text
  isDigit : ∀ c ∈ whole ++ fraction, c.isDigit = true
  ne_nil : whole ++ fraction ≠ []
deriving DecidableEq, Repr

namespace Numeral

/-- Digits behind a dot, which is left out where there are none. -/
def pointed : Text → Text
  | [] => []
  | d :: fraction => '.' :: d :: fraction

/-- The numeral without its dash. -/
def magnitude (m : Numeral) : Text := m.whole ++ pointed m.fraction

/-- The numeral as it is written. -/
def text (m : Numeral) : Text := (if m.negative then ['-'] else []) ++ m.magnitude

/-- The number that a numeral and a unit make. -/
def number (m : Numeral) (unit : Text) : Number where
  negative := m.negative
  digits := Number.digitsValue (m.whole ++ m.fraction)
  places := m.fraction.length
  unit := unit

end Numeral

variable {whole fraction unit : Text} {c : Char}

/-! ## Where a numeral ends -/

theorem Scan.isNameStart_iff (c : Char) :
    isNameStart c = true ↔ c.isAlpha = true ∨ c = '_' ∨ 128 ≤ c.toNat := by
  simp [isNameStart, isWide, or_assoc]

theorem Scan.isMagnitudeChar_of_isNameStart (hc : isNameStart c = true) :
    Number.isMagnitudeChar c = false := by
  have hdot := ne_of_isNameStart hc (d := '.') rfl
  simp [Number.isMagnitudeChar, isDigit_of_isNameStart hc, hdot]

namespace Number

/-- No unit starts like a numeral goes on. -/
theorem UnitForm.isMagnitudeChar_head (h : UnitForm unit) :
    ∀ c ∈ unit.head?, isMagnitudeChar c = false := by
  cases h with
  | absent => nofun
  | percent =>
    rintro c ⟨⟩
    rfl
  | name hc w =>
    rintro c ⟨⟩
    exact isMagnitudeChar_of_isNameStart ((isNameStart_iff _).mpr hc)

theorem UnitForm.takeWhile_eq_nil (h : UnitForm unit) : unit.takeWhile isMagnitudeChar = [] := by
  cases unit with
  | nil => rfl
  | cons c w => exact List.takeWhile_cons_of_neg (Bool.eq_false_iff.mp (h.isMagnitudeChar_head c rfl))

theorem UnitForm.dropWhile_eq_self (h : UnitForm unit) : unit.dropWhile isMagnitudeChar = unit := by
  cases unit with
  | nil => rfl
  | cons c w => exact List.dropWhile_cons_of_neg (Bool.eq_false_iff.mp (h.isMagnitudeChar_head c rfl))

end Number

namespace Numeral

open Number

/-- A magnitude is made of digits and dots. -/
theorem isMagnitudeChar_of_mem (hdigit : ∀ c ∈ whole ++ fraction, c.isDigit = true) :
    ∀ c ∈ whole ++ pointed fraction, isMagnitudeChar c = true := by
  have hchar {c : Char} (hc : c ∈ whole ++ fraction) : isMagnitudeChar c = true := by
    rw [isMagnitudeChar, hdigit c hc, Bool.true_or]
  intro c hc
  rcases List.mem_append.mp hc with hc | hc
  · exact hchar (List.mem_append_left fraction hc)
  · cases fraction with
    | nil => cases hc
    | cons d fraction =>
      rcases List.mem_cons.mp hc with rfl | hc
      · rfl
      · exact hchar (List.mem_append_right whole hc)

/-- The digits of a numeral are read off its magnitude. -/
theorem magnitude?_magnitude (m : Numeral) : magnitude? m.magnitude = some (m.whole, m.fraction) := by
  have hwhole : ∀ c ∈ m.whole, c.isDigit = true := fun c hc => m.isDigit c (List.mem_append_left _ hc)
  have hfraction : m.fraction.all Char.isDigit = true :=
    List.all_eq_true.mpr fun c hc => m.isDigit c (List.mem_append_right _ hc)
  have hsome : (m.whole.isEmpty && m.fraction.isEmpty) = false := by
    rw [Bool.eq_false_iff, Ne, Bool.and_eq_true, List.isEmpty_iff, List.isEmpty_iff]
    exact fun hnil => m.ne_nil (List.append_eq_nil_iff.mpr hnil)
  have htake : (pointed m.fraction).takeWhile Char.isDigit = [] := by
    cases m.fraction <;> rfl
  have hdrop : (pointed m.fraction).dropWhile Char.isDigit = pointed m.fraction := by
    cases m.fraction <;> rfl
  have hpoint : (pointed m.fraction).drop 1 = m.fraction := by
    cases m.fraction <;> rfl
  simp only [magnitude?, magnitude, List.takeWhile_append_of_pos hwhole,
    List.dropWhile_append_of_pos hwhole, htake, hdrop, hpoint, List.append_nil, hfraction, hsome]
  rfl

/-- A magnitude does not start with a sign. -/
theorem exists_magnitude_eq_cons (m : Numeral) :
    ∃ c w, m.magnitude = c :: w ∧ c ≠ '-' ∧ c ≠ '+' := by
  have hne : m.magnitude ≠ [] := by
    intro hnil
    have hread := m.magnitude?_magnitude
    rw [hnil] at hread
    cases hread
  obtain ⟨c, w, hc⟩ := List.exists_cons_of_ne_nil hne
  have hmem : c ∈ m.magnitude := by
    rw [hc]
    exact List.mem_cons_self
  have hchar := isMagnitudeChar_of_mem m.isDigit c hmem
  refine ⟨c, w, hc, ?_, ?_⟩ <;>
  · rintro rfl
    cases hchar

/-- **A numeral with a unit behind it is read as these two.** -/
theorem ofText?_append (m : Numeral) (h : UnitForm unit) :
    ofText? (m.text ++ unit) = some (m.number unit) := by
  obtain ⟨c, w, hc, hdash, hplus⟩ := m.exists_magnitude_eq_cons
  have hsign : ((m.text ++ unit).head? == some '-') = m.negative := by
    cases hn : m.negative <;> simp [text, hn, hc, hdash]
  have hunsigned : (if (m.text ++ unit).head? == some '-' || (m.text ++ unit).head? == some '+' then
      (m.text ++ unit).drop 1 else m.text ++ unit) = m.magnitude ++ unit := by
    cases hn : m.negative <;> simp [text, hn, hc, hdash, hplus]
  have hchars : ∀ c ∈ m.magnitude, isMagnitudeChar c = true := isMagnitudeChar_of_mem m.isDigit
  have htake : (m.magnitude ++ unit).takeWhile isMagnitudeChar = m.magnitude := by
    rw [List.takeWhile_append_of_pos hchars, h.takeWhile_eq_nil, List.append_nil]
  have hdrop : (m.magnitude ++ unit).dropWhile isMagnitudeChar = unit := by
    rw [List.dropWhile_append_of_pos hchars, h.dropWhile_eq_self]
  simp only [ofText?, hunsigned]
  rw [htake, hdrop, hsign, magnitude?_magnitude, Option.map_some, number]

example : ofText? "-.5é\\3x1".toList = some ⟨true, 5, 1, "é\\3x1".toList⟩ := by decide

end Numeral

end SheetLint
