import SheetLint.Text

/-!
# Order of texts

Texts are ordered by their first different character. That is also the order of their UTF-8
forms, byte by byte.

Results:
* `le_total`, `le_trans`, `le_antisymm`: the order is linear.
-/

namespace SheetLint.Text

/-- Order of texts: the first different character decides, and a text comes before those that it
starts. -/
def le : Text → Text → Bool
  | [], _ => true
  | _ :: _, [] => false
  | c :: cs, d :: ds => if c.toNat = d.toNat then le cs ds else c.toNat < d.toNat

theorem toNat_injective {c d : Char} (h : c.toNat = d.toNat) : c = d := by
  rw [← Char.ofNat_toNat c, h, Char.ofNat_toNat d]

theorem le_total (a b : Text) : (le a b || le b a) = true := by
  induction a generalizing b with
  | nil => simp [le]
  | cons c cs ih =>
    cases b with
    | nil => simp [le]
    | cons d ds =>
      rw [le, le]
      by_cases h : c.toNat = d.toNat
      · rw [if_pos h, if_pos h.symm]
        exact ih ds
      · rw [if_neg h, if_neg (Ne.symm h), Bool.or_eq_true, decide_eq_true_iff, decide_eq_true_iff]
        omega

theorem le_trans {a b c : Text} (hab : le a b = true) (hbc : le b c = true) : le a c = true := by
  induction a generalizing b c with
  | nil => rfl
  | cons x xs ih =>
    cases b with
    | nil => simp [le] at hab
    | cons y ys =>
      cases c with
      | nil => simp [le] at hbc
      | cons z zs =>
        rw [le] at hab hbc ⊢
        by_cases hxy : x.toNat = y.toNat
        · rw [if_pos hxy] at hab
          rw [hxy]
          by_cases hyz : y.toNat = z.toNat
          · rw [if_pos hyz] at hbc ⊢
            exact ih hab hbc
          · rw [if_neg hyz] at hbc ⊢
            exact hbc
        · rw [if_neg hxy, decide_eq_true_iff] at hab
          by_cases hyz : y.toNat = z.toNat
          · rw [if_neg (by omega), decide_eq_true_iff]
            omega
          · rw [if_neg hyz, decide_eq_true_iff] at hbc
            rw [if_neg (by omega), decide_eq_true_iff]
            omega

theorem le_antisymm {a b : Text} (hab : le a b = true) (hba : le b a = true) : a = b := by
  induction a generalizing b with
  | nil =>
    cases b with
    | nil => rfl
    | cons d ds => simp [le] at hba
  | cons c cs ih =>
    cases b with
    | nil => simp [le] at hab
    | cons d ds =>
      rw [le] at hab hba
      by_cases h : c.toNat = d.toNat
      · rw [if_pos h] at hab
        rw [if_pos h.symm] at hba
        rw [toNat_injective h, ih hab hba]
      · rw [if_neg h, decide_eq_true_iff] at hab
        rw [if_neg (Ne.symm h), decide_eq_true_iff] at hba
        omega

/-- Order of strings, which is that of their characters. -/
def leString (a b : String) : Bool := le a.toList b.toList

theorem leString_antisymm {a b : String} (hab : leString a b = true) (hba : leString b a = true) :
    a = b := String.toList_injective (le_antisymm hab hba)

end SheetLint.Text
