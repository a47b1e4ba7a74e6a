/-!
# Text as a list of characters, measured in bytes

Sources, tokens and replacements are lists of characters. Offsets count bytes of the UTF-8 form,
so a text has a `size` in bytes and can be cut at a byte offset, provided that the offset lies
between two characters.

Results:
* `size_append`: the size of a joined text is the sum of the sizes.
* `cut?_eq_some_iff`: a text is cut at `n` into the two parts whose first is `n` bytes long, and
  only so.
-/

namespace SheetLint

/-- A piece of source text, character by character. -/
abbrev Text := List Char

namespace Text

/-- Number of bytes of the UTF-8 form. -/
def size : Text → Nat
  | [] => 0
  | c :: cs => c.utf8Size + size cs

@[simp] theorem size_nil : size [] = 0 := rfl

@[simp] theorem size_cons (c : Char) (cs : Text) : size (c :: cs) = c.utf8Size + size cs := rfl

@[simp] theorem size_append (a b : Text) : size (a ++ b) = size a + size b := by
  induction a with
  | nil => simp
  | cons c cs ih => simp [ih, Nat.add_assoc]

theorem size_pos_of_ne_nil {t : Text} (h : t ≠ []) : 0 < size t := by
  cases t with
  | nil => exact absurd rfl h
  | cons c cs => have := c.utf8Size_pos; simp; omega

theorem eq_nil_of_size_eq_zero {t : Text} (h : size t = 0) : t = [] := by
  cases t with
  | nil => rfl
  | cons c cs => exact absurd h (Nat.ne_of_gt (size_pos_of_ne_nil (List.cons_ne_nil c cs)))

/-- Cuts a text at a byte offset; `none` when the offset lies inside a character or past the
end. -/
def cut? : Nat → Text → Option (Text × Text)
  | 0, t => some ([], t)
  | _ + 1, [] => none
  | n + 1, c :: cs =>
    if c.utf8Size ≤ n + 1 then
      (cut? (n + 1 - c.utf8Size) cs).map fun parts => (c :: parts.1, parts.2)
    else none

theorem cut?_append (a b : Text) : cut? (size a) (a ++ b) = some (a, b) := by
  induction a with
  | nil => simp [cut?]
  | cons c cs ih =>
    have hc := c.utf8Size_pos
    obtain ⟨n, hn⟩ : ∃ n, size (c :: cs) = n + 1 := ⟨size (c :: cs) - 1, by simp; omega⟩
    have hle : c.utf8Size ≤ n + 1 := by simp at hn; omega
    have hrest : n + 1 - c.utf8Size = size cs := by simp at hn; omega
    rw [hn, List.cons_append, cut?, if_pos hle, hrest, ih]
    rfl

theorem eq_append_of_cut? {n : Nat} {t a b : Text} (h : cut? n t = some (a, b)) :
    t = a ++ b ∧ size a = n := by
  induction t generalizing n a b with
  | nil =>
    cases n with
    | zero => simp [cut?] at h; simp [h]
    | succ n => simp [cut?] at h
  | cons c cs ih =>
    cases n with
    | zero => simp [cut?] at h; simp [h.1, h.2]
    | succ n =>
      rw [cut?] at h
      split at h
      · next hle =>
        obtain ⟨⟨x, y⟩, hxy, heq⟩ := Option.map_eq_some_iff.1 h
        obtain ⟨rfl, rfl⟩ := Prod.mk.inj heq
        obtain ⟨rfl, hs⟩ := ih hxy
        exact ⟨rfl, by simp [hs]; omega⟩
      · simp at h

theorem cut?_eq_some_iff {n : Nat} {t a b : Text} :
    cut? n t = some (a, b) ↔ t = a ++ b ∧ size a = n :=
  ⟨eq_append_of_cut?, fun ⟨ht, hn⟩ => by rw [ht, ← hn]; exact cut?_append a b⟩

/-- Whether a byte offset lies between two characters of the text, or at one of its ends. -/
def isBoundary (t : Text) (n : Nat) : Bool := (cut? n t).isSome

/-- The text with ASCII letters in lower case. -/
def lower (t : Text) : Text := t.map Char.toLower

/-- Equality of texts up to the case of ASCII letters. -/
def eqIgnoreCase (a b : Text) : Bool := lower a == lower b

/-- The text between backquotes, as messages show it. -/
def quoted (t : Text) : String := "`" ++ String.ofList t ++ "`"

/-- Whether the text holds the character. -/
def has (t : Text) (c : Char) : Bool := t.contains c

end Text

end SheetLint
