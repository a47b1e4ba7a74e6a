import SheetLint.Text

/-!
# Texts with other line endings

A line feed may have a carriage return in front of it. A text in which every line feed has one, and
which has no others, gives the text back when they are left out; and a run of characters of a class
ends at the same place in both, if line feed and carriage return are both in the class or both not.

Results:
* `Text.withoutReturns_withReturns`: the returns of a text can be left out again.
* `Text.eq_withReturns_of_append`: a text is cut in front of a character in one way, returns aside.
* `Text.takeWhile_withReturns`: runs of characters end at the same place.
-/

namespace SheetLint.Text

/-- The text with a carriage return in front of every line feed. -/
def withReturns (t : Text) : Text := t.flatMap fun c => if c = '\n' then ['\r', '\n'] else [c]

/-- The text without its carriage returns. -/
def withoutReturns (t : Text) : Text := t.filter (· != '\r')

variable {a b t : Text} {c : Char} {n : Nat}

@[simp] theorem withReturns_nil : withReturns [] = [] := rfl

@[simp] theorem withReturns_lineFeed (t : Text) :
    withReturns ('\n' :: t) = '\r' :: '\n' :: withReturns t := rfl

theorem withReturns_cons (hc : c ≠ '\n') (t : Text) : withReturns (c :: t) = c :: withReturns t := by
  rw [withReturns, List.flatMap_cons, if_neg hc]
  rfl

@[simp] theorem withReturns_append (a b : Text) :
    withReturns (a ++ b) = withReturns a ++ withReturns b :=
  List.flatMap_append

theorem withReturns_eq_self (h : '\n' ∉ t) : withReturns t = t := by
  induction t with
  | nil => rfl
  | cons c t ih =>
    rw [List.mem_cons, not_or] at h
    rw [withReturns_cons (Ne.symm h.1), ih h.2]

/-- A part on one line stays as it is. -/
theorem withReturns_eq_append (h : '\n' ∉ t.take n) :
    withReturns t = t.take n ++ withReturns (t.drop n) := by
  have hcut := withReturns_append (t.take n) (t.drop n)
  rwa [List.take_append_drop, withReturns_eq_self h] at hcut

theorem take_withReturns (h : '\n' ∉ t.take n) : (withReturns t).take n = t.take n := by
  rw [withReturns_eq_append h]
  rcases Nat.le_total n t.length with hn | hn
  · exact List.take_left' (by rw [List.length_take, Nat.min_eq_left hn])
  · rw [List.drop_eq_nil_of_le hn, withReturns_nil, List.append_nil, List.take_take, Nat.min_self]

theorem drop_withReturns (h : '\n' ∉ t.take n) :
    (withReturns t).drop n = withReturns (t.drop n) := by
  rw [withReturns_eq_append h]
  rcases Nat.le_total n t.length with hn | hn
  · exact List.drop_left' (by rw [List.length_take, Nat.min_eq_left hn])
  · rw [List.drop_eq_nil_of_le hn, withReturns_nil, List.append_nil]
    exact List.drop_eq_nil_of_le (by rw [List.length_take]; exact Nat.min_le_left _ _)

/-- A part on one line keeps its length. -/
theorem length_withReturns_take (h : '\n' ∉ t.take n) (hn : n ≤ t.length) :
    (withReturns (t.take n)).length = n := by
  rw [withReturns_eq_self h, List.length_take, Nat.min_eq_left hn]

@[simp] theorem withoutReturns_append (a b : Text) :
    withoutReturns (a ++ b) = withoutReturns a ++ withoutReturns b :=
  List.filter_append a b

theorem withoutReturns_cons (hc : c ≠ '\r') (t : Text) :
    withoutReturns (c :: t) = c :: withoutReturns t := by
  rw [withoutReturns, List.filter_cons_of_pos (by simpa using hc)]
  rfl

theorem withoutReturns_withReturns (h : '\r' ∉ t) : withoutReturns (withReturns t) = t := by
  induction t with
  | nil => rfl
  | cons c t ih =>
    rw [List.mem_cons, not_or] at h
    by_cases hc : c = '\n'
    · rw [hc, withReturns_lineFeed]
      exact congrArg _ (ih h.2)
    · rw [withReturns_cons hc, withoutReturns_cons (Ne.symm h.1), ih h.2]

theorem withoutReturns_eq_nil_iff : withoutReturns t = [] ↔ ∀ c ∈ t, c = '\r' := by
  simp [withoutReturns, List.filter_eq_nil_iff]

/-- No text with returns ends with one. -/
theorem getLast?_withReturns (h : '\r' ∉ t) : (withReturns t).getLast? ≠ some '\r' := by
  rcases List.eq_nil_or_concat t with rfl | ⟨front, c, rfl⟩
  · simp
  · have hc : c ≠ '\r' := by
      rintro rfl
      exact h (by simp)
    rw [List.concat_eq_append, withReturns_append]
    by_cases hline : c = '\n'
    · simp [hline]
    · simp [withReturns_cons hline, hc]

/-- A part in front that differs from a text in returns alone has the returns of that text. -/
theorem eq_withReturns_of_append {front rest : Text} (h : front ++ rest = withReturns a ++ b)
    (ha : '\r' ∉ a) (hb : b.head? ≠ some '\r') (hfront : withoutReturns front = a) :
    front = withReturns a ∧ rest = b := by
  rcases List.append_eq_append_iff.mp h with ⟨e, hwith, hrest⟩ | ⟨e, hfront', hb'⟩
  · have hnone : withoutReturns e = [] := by
      have hall := congrArg withoutReturns hwith
      rwa [withoutReturns_withReturns ha, withoutReturns_append, hfront, List.self_eq_append_right]
        at hall
    rcases List.eq_nil_or_concat e with rfl | ⟨e, c, rfl⟩
    · exact ⟨by rw [hwith, List.append_nil], hrest⟩
    · refine absurd ?_ (getLast?_withReturns ha)
      have hc : c = '\r' := withoutReturns_eq_nil_iff.mp hnone c (by simp)
      simp [hwith, hc]
  · have hnone : withoutReturns e = [] := by
      rwa [hfront', withoutReturns_append, withoutReturns_withReturns ha,
        List.append_right_eq_self] at hfront
    cases e with
    | nil => exact ⟨by rw [hfront', List.append_nil], hb'.symm⟩
    | cons c e =>
      refine absurd ?_ hb
      have hc : c = '\r' := withoutReturns_eq_nil_iff.mp hnone c (by simp)
      rw [hb', hc]
      rfl

/-- Runs of characters of a class with both or none of the two end at the same characters. -/
theorem takeWhile_withReturns {p : Char → Bool} (hp : p '\r' = p '\n') (t : Text) :
    (withReturns t).takeWhile p = withReturns (t.takeWhile p) := by
  induction t with
  | nil => rfl
  | cons c t ih =>
    by_cases hc : c = '\n'
    · subst hc
      cases hfeed : p '\n' <;> simp [hp, hfeed, ih]
    · cases hgo : p c <;> simp [withReturns_cons hc, hgo, ih]

theorem dropWhile_withReturns {p : Char → Bool} (hp : p '\r' = p '\n') (t : Text) :
    (withReturns t).dropWhile p = withReturns (t.dropWhile p) := by
  have hwhole := List.takeWhile_append_dropWhile (p := p) (l := withReturns t)
  have hparts : withReturns (t.takeWhile p) ++ withReturns (t.dropWhile p) = withReturns t := by
    rw [← withReturns_append, List.takeWhile_append_dropWhile]
  rw [takeWhile_withReturns hp] at hwhole
  exact List.append_cancel_left (hwhole.trans hparts.symm)

end SheetLint.Text
