import Mathlib
import SheetLint.Text.Order

/-!
# Texts as bytes

Texts are ordered by their characters. The UTF-8 forms of two characters are ordered as the
characters are, and neither is the start of the other, so that the order of texts is the order of
their UTF-8 forms, byte by byte.

Results:
* `encode_lt`: a smaller character has a smaller UTF-8 form.
* `le_iff_bytes`: the order of texts is that of their bytes.
-/

namespace SheetLint.Text

/-- The UTF-8 form of a text. -/
def bytes (t : Text) : List UInt8 := t.flatMap String.utf8EncodeChar

@[simp] theorem bytes_cons (c : Char) (cs : Text) :
    bytes (c :: cs) = String.utf8EncodeChar c ++ bytes cs := rfl

/-- Bytes are compared as the numbers that they are. -/
theorem cons_lt_cons_ofNat {m n : Nat} (hm : m < 256) (hn : n < 256) {cs ds : List UInt8} :
    UInt8.ofNat m :: cs < UInt8.ofNat n :: ds ↔ m < n ∨ m = n ∧ cs < ds := by
  rw [List.cons_lt_cons_iff, UInt8.ofNat_lt_iff_lt hm hn, ← UInt8.toNat_inj,
    UInt8.toNat_ofNat_of_lt' hm, UInt8.toNat_ofNat_of_lt' hn]

/-- Numbers are compared by all digits but the last, and then by the last. -/
theorem lt_iff_div_mod (m n : Nat) :
    m < n ↔ m / 64 < n / 64 ∨ m / 64 = n / 64 ∧ m % 64 < n % 64 := by
  omega

/-- **A smaller character has a smaller UTF-8 form**, whatever comes behind it. -/
theorem encode_lt {c d : Char} (h : c.toNat < d.toNat) (cs ds : List UInt8) :
    String.utf8EncodeChar c ++ cs < String.utf8EncodeChar d ++ ds := by
  have hd : d.val.toNat < 0x110000 := by
    have hvalid := d.valid
    simp only [UInt32.isValidChar, Nat.isValidChar] at hvalid
    omega
  have h : c.val.toNat < d.val.toNat := h
  unfold String.utf8EncodeChar
  dsimp only
  generalize c.val.toNat = m at h ⊢
  generalize d.val.toNat = n at h hd ⊢
  -- The digits are those behind the lead byte; the first of four has three bits to it.
  have hdigits := h
  rw [lt_iff_div_mod, lt_iff_div_mod (m / 64), lt_iff_div_mod (m / 64 / 64)] at hdigits
  simp only [Nat.div_div_eq_div_mul, Nat.reduceMul] at hdigits
  have hm : m / 262144 % 8 = m / 262144 := by omega
  have hn : n / 262144 % 8 = n / 262144 := by omega
  rw [hm, hn]
  split_ifs <;>
    simp (disch := omega) only [List.cons_append, List.nil_append, cons_lt_cons_ofNat] <;> omega

theorem append_le_append_iff (front : List UInt8) {cs ds : List UInt8} :
    front ++ cs ≤ front ++ ds ↔ cs ≤ ds := by
  induction front with
  | nil => rfl
  | cons b bs ih => simp [List.cons_le_cons_iff, ih]

/-- **The order of texts** is that of their UTF-8 forms, byte by byte. -/
theorem le_iff_bytes (a b : Text) : le a b = true ↔ bytes a ≤ bytes b := by
  induction a generalizing b with
  | nil => simp [le, bytes]
  | cons c cs ih =>
    cases b with
    | nil => simp [le, bytes]
    | cons d ds =>
      rw [le, bytes_cons, bytes_cons]
      rcases Nat.lt_trichotomy c.toNat d.toNat with h | h | h
      · rw [if_neg h.ne, decide_eq_true_iff]
        exact iff_of_true h (List.le_of_lt (encode_lt h _ _))
      · rw [if_pos h, toNat_injective h, append_le_append_iff]
        exact ih ds
      · rw [if_neg h.ne', decide_eq_true_iff]
        exact iff_of_false h.not_gt (List.not_le.mpr (encode_lt h _ _))

end SheetLint.Text
