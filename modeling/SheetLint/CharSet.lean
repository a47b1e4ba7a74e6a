import SheetLint.Text

/-!
# Sets of characters as ranges

A set of characters is a list of ranges of numbers. Characters are numbered without the gap that
surrogates leave between the code points, so that characters next to each other have numbers next
to each other. The ranges are in order and do not touch, so that each set has one list.

Results:
* `has_gaps`: the gaps between ranges in order are made of the numbers that are in no range.
-/

namespace SheetLint

/-- The numbers from `lo` to `hi`, both included. -/
structure NumberRange where
  lo : Nat
  hi : Nat
deriving DecidableEq, Repr

/-- Whether a number is in a range. -/
def NumberRange.has (r : NumberRange) (n : Nat) : Bool := r.lo ≤ n && n ≤ r.hi

/-- The ranges of the numbers of some characters. -/
structure CharSet where
  ranges : List NumberRange
deriving DecidableEq, Repr

namespace CharSet

/-! ## Numbers of characters -/

/-- The first code point that is no character. -/
def gapStart : Nat := 0xd800

/-- How many code points in a row are no characters. -/
def gapLength : Nat := 0x800

/-- The number of a character. -/
def number (c : Char) : Nat := if c.toNat < gapStart then c.toNat else c.toNat - gapLength

/-- The number of the last character. -/
def lastNumber : Nat := 0x10ffff - gapLength

/-- The code point with a number. -/
def codePoint (n : Nat) : Nat := if n < gapStart then n else n + gapLength

/-! ## Making sets -/

/-- No character. -/
def empty : CharSet := ⟨[]⟩

/-- The characters from `lo` to `hi`. -/
def ofRange (lo hi : Char) : CharSet := ⟨[⟨number lo, number hi⟩]⟩

/-- One character. -/
def ofChar (c : Char) : CharSet := ofRange c c

/-- Joins ranges that are in the order of their starts wherever they overlap or touch. `current`
is the range that the next ones may be joined to. -/
def joinTo (current : NumberRange) : List NumberRange → List NumberRange
  | [] => [current]
  | r :: rs =>
    if r.lo ≤ current.hi + 1 then joinTo ⟨current.lo, max current.hi r.hi⟩ rs
    else current :: joinTo r rs

/-- Ranges in any order, put in order and joined. -/
def join (rs : List NumberRange) : List NumberRange :=
  match rs.mergeSort fun r s => r.lo ≤ s.lo with
  | [] => []
  | r :: rs => joinTo r rs

/-- The characters of either set. -/
def union (a b : CharSet) : CharSet := ⟨join (a.ranges ++ b.ranges)⟩

/-- The characters of any of the sets. -/
def unionAll (sets : List CharSet) : CharSet := ⟨join (sets.flatMap ranges)⟩

/-- The numbers from a start on that are in none of the ranges. -/
def gaps (start : Nat) : List NumberRange → List NumberRange
  | [] => if start ≤ lastNumber then [⟨start, lastNumber⟩] else []
  | r :: rs => (if start < r.lo then [⟨start, r.lo - 1⟩] else []) ++ gaps (r.hi + 1) rs

/-- The characters that are not in the set. -/
def complement (s : CharSet) : CharSet := ⟨gaps 0 s.ranges⟩

/-- The characters of both sets. -/
def inter (a b : CharSet) : CharSet := (a.complement.union b.complement).complement

/-- The characters of the first set that are not in the second. -/
def diff (a b : CharSet) : CharSet := a.inter b.complement

/-- The characters of exactly one of the sets. -/
def symmDiff (a b : CharSet) : CharSet := (a.diff b).union (b.diff a)

/-! ## Asking sets -/

/-- Whether a character is in the set. -/
def contains (s : CharSet) (c : Char) : Bool := s.ranges.any (·.has (number c))

/-- The character of a set that holds just one. -/
def single? (s : CharSet) : Option Char :=
  match s.ranges with
  | [r] => if r.lo = r.hi then some (Char.ofNat (codePoint r.lo)) else none
  | _ => none

/-- Whether all characters of the set are in ASCII. -/
def isAscii (s : CharSet) : Bool := s.ranges.all (·.hi < 128)

/-! ## Laws -/

/-- Ranges from a start on, one behind the other. -/
def InOrder (start : Nat) : List NumberRange → Prop
  | [] => True
  | r :: rs => start ≤ r.lo ∧ r.lo ≤ r.hi ∧ r.hi ≤ lastNumber ∧ InOrder (r.hi + 1) rs

theorem start_le_of_has {start n : Nat} {rs : List NumberRange} (h : InOrder start rs)
    (hn : ∃ r ∈ rs, r.has n) : start ≤ n := by
  induction rs generalizing start with
  | nil => simp at hn
  | cons r rs ih =>
    obtain ⟨hlo, hhi, -, hrest⟩ := h
    obtain ⟨s, hs, hsn⟩ := hn
    rcases List.mem_cons.1 hs with rfl | hs
    · simp [NumberRange.has] at hsn
      omega
    · have := ih hrest ⟨s, hs, hsn⟩
      omega

theorem has_gaps {start : Nat} {rs : List NumberRange} (h : InOrder start rs) (n : Nat) :
    (∃ g ∈ gaps start rs, g.has n) ↔ start ≤ n ∧ n ≤ lastNumber ∧ ¬∃ r ∈ rs, r.has n := by
  induction rs generalizing start with
  | nil =>
    by_cases hs : start ≤ lastNumber
    · simp [gaps, hs, NumberRange.has]
    · simp [gaps, hs]
      omega
  | cons r rs ih =>
    obtain ⟨hlo, hhi, hlast, hrest⟩ := h
    have hfirst : (∃ g ∈ (if start < r.lo then [(⟨start, r.lo - 1⟩ : NumberRange)] else []), g.has n)
        ↔ start ≤ n ∧ n < r.lo := by
      by_cases hs : start < r.lo
      · simp [hs, NumberRange.has]
        omega
      · simp [hs]
        omega
    have hr : r.has n = true ↔ r.lo ≤ n ∧ n ≤ r.hi := by simp [NumberRange.has]
    have hafter := start_le_of_has (n := n) hrest
    rw [gaps]
    simp only [List.mem_append, List.mem_cons, or_and_right, exists_or, hfirst, ih hrest,
      exists_eq_left, hr]
    by_cases hp : ∃ s ∈ rs, s.has n
    · have := hafter hp
      simp only [hp, not_true_eq_false, or_true, and_false, or_false, iff_false]
      omega
    · simp only [hp, or_false, not_false_eq_true, and_true]
      omega

end CharSet

end SheetLint
