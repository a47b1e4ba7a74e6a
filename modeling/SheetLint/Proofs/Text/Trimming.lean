import Mathlib.Data.List.DropRight
import SheetLint.Text.Blank
import SheetLint.Text.Split

/-!
# Trimmed and cut texts

Comments, ids and configuration values are trimmed, and cut at words and characters. What is left of a
text by each of these is told by how the text is put together again.

Results:
* `Text.exists_padding`, `Text.trim_append`: blanks around a text.
* `Text.stripStart?_eq_some_iff`, `Text.stripEnd?_eq_some_iff`, `Text.cutAt?_eq_some_iff`: the parts of a
  text.
* `Text.map_trim_splitOn`: blanks in front of the first part.
-/

namespace SheetLint.Text

variable {t front back core word rest : Text} {c sep : Char}

/-! ## Blanks -/

theorem trimEnd_eq (t : Text) : trimEnd t = t.rdropWhile isBlank := rfl

theorem trimStart_append (hfront : ∀ c ∈ front, isBlank c = true) (t : Text) :
    trimStart (front ++ t) = trimStart t := List.dropWhile_append_of_pos hfront

theorem trimEnd_append (hback : ∀ c ∈ back, isBlank c = true) (t : Text) :
    trimEnd (t ++ back) = trimEnd t := by
  rw [trimEnd, List.reverse_append, List.dropWhile_append_of_pos (by simpa using hback), trimEnd]

/-- What starts with no blank is kept from there on. -/
theorem trimStart_cons (hc : isBlank c = false) (t : Text) : trimStart (c :: t) = c :: t :=
  List.dropWhile_cons_of_neg (Bool.eq_false_iff.mp hc)

/-- What is no blank is kept, with all behind it. -/
theorem trimStart_append_cons (hc : isBlank c = false) (front t : Text) :
    trimStart (front ++ c :: t) = trimStart front ++ c :: t := by
  rw [trimStart, trimStart, List.dropWhile_append]
  split
  · rename_i hnil
    rw [List.isEmpty_iff.mp hnil]
    exact trimStart_cons hc t
  · rfl

/-- What is no blank is kept, with all in front of it. -/
theorem trimEnd_append_cons (hc : isBlank c = false) (t back : Text) :
    trimEnd (t ++ c :: back) = t ++ c :: trimEnd back := by
  have hstart := trimStart_append_cons hc back.reverse t.reverse
  unfold trimStart at hstart
  unfold trimEnd
  simp [hstart]

theorem trimEnd_trimEnd (t : Text) : trimEnd (trimEnd t) = trimEnd t := by
  rw [trimEnd_eq, trimEnd_eq, List.rdropWhile_idempotent]

/-- **Blanks around a text are trimmed away.** -/
theorem trim_append (hfront : ∀ c ∈ front, isBlank c = true) (hback : ∀ c ∈ back, isBlank c = true)
    (t : Text) : trim (front ++ t ++ back) = trim t := by
  rw [List.append_assoc, trim, trimStart_append hfront, trimStart, List.dropWhile_append]
  split
  · rename_i hnil
    rw [List.dropWhile_eq_nil_iff.mpr hback, trim, trimStart, List.isEmpty_iff.mp hnil]
  · exact trimEnd_append hback _

theorem exists_padding_end (t : Text) :
    ∃ back, (∀ c ∈ back, isBlank c = true) ∧ t = trimEnd t ++ back := by
  refine ⟨t.rtakeWhile isBlank, fun c hc => List.mem_rtakeWhile_imp hc, ?_⟩
  rw [trimEnd_eq, List.rdropWhile_append_rtakeWhile]

/-- **A text is its trimmed form between blanks.** -/
theorem exists_padding (t : Text) : ∃ front back, (∀ c ∈ front, isBlank c = true)
    ∧ (∀ c ∈ back, isBlank c = true) ∧ t = front ++ trim t ++ back := by
  obtain ⟨back, hback, hend⟩ := exists_padding_end (trimStart t)
  refine ⟨t.takeWhile isBlank, back, fun c hc => List.mem_takeWhile_imp hc, hback, ?_⟩
  rw [List.append_assoc, trim, ← hend, trimStart, List.takeWhile_append_dropWhile]

theorem trim_trimEnd (t : Text) : trim (trimEnd t) = trim t := by
  obtain ⟨back, hback, hend⟩ := exists_padding_end t
  conv_rhs => rw [hend, ← List.nil_append (trimEnd t)]
  exact (trim_append (by simp) hback _).symm

/-- Blanks around a text without blanks are trimmed. -/
theorem trim_of_blank (hfront : ∀ c ∈ front, isBlank c = true)
    (hback : ∀ c ∈ back, isBlank c = true) (hcore : ∀ c ∈ core, isBlank c = false) :
    trim (front ++ core ++ back) = core := by
  rw [trim_append hfront hback]
  cases core with
  | nil => rfl
  | cons c core =>
    obtain ⟨hc, hcore⟩ := List.forall_mem_cons.mp hcore
    rcases List.eq_nil_or_concat' core with rfl | ⟨front, d, rfl⟩
    · rw [trim, trimStart_cons hc]
      exact trimEnd_append_cons hc [] []
    · rw [trim, trimStart_cons hc]
      exact trimEnd_append_cons (t := c :: front) (hcore d (by simp)) []

/-! ## Parts -/

/-- A word that a text starts with is cut off. -/
theorem stripStart?_append (word t : Text) : stripStart? word (word ++ t) = some t := by
  induction word with
  | nil => cases t <;> rfl
  | cons c word ih => rw [List.cons_append, stripStart?, if_pos rfl, ih]

theorem stripStart?_eq_some_iff : stripStart? word t = some rest ↔ t = word ++ rest := by
  refine ⟨fun h => ?_, fun h => h ▸ stripStart?_append word rest⟩
  fun_induction stripStart? word t with
  | case1 t => exact Option.some.inj h
  | case2 => cases h
  | case3 ws c cs ih => rw [ih h, List.cons_append]
  | case4 => cases h

/-- A word that a text ends with is cut off. -/
theorem stripEnd?_append (word t : Text) : stripEnd? word (t ++ word) = some t := by
  rw [stripEnd?, List.reverse_append, stripStart?_append, Option.map_some, List.reverse_reverse]

theorem stripEnd?_eq_some_iff : stripEnd? word t = some rest ↔ t = rest ++ word := by
  rw [stripEnd?, Option.map_eq_some_iff]
  simp only [stripStart?_eq_some_iff]
  constructor
  · rintro ⟨back, hback, rfl⟩
    rw [← List.reverse_reverse t, hback, List.reverse_append, List.reverse_reverse]
  · rintro rfl
    exact ⟨rest.reverse, List.reverse_append, List.reverse_reverse rest⟩

/-- A text is cut at the first of the separators. -/
theorem cutAt?_eq_some_iff :
    cutAt? sep t = some (front, back) ↔ t = front ++ sep :: back ∧ sep ∉ front := by
  induction t generalizing front with
  | nil => simp [cutAt?]
  | cons c t ih =>
    rw [cutAt?]
    split
    · rename_i hc
      subst hc
      cases front with
      | nil => simp
      | cons d front =>
        simp only [Option.some.injEq, Prod.mk.injEq, List.nil_eq, reduceCtorEq, false_and, false_iff,
          List.cons_append, List.cons.injEq, List.mem_cons, not_or]
        exact fun h => h.2.1 h.1.1
    · rename_i hc
      rw [Option.map_eq_some_iff]
      cases front with
      | nil => simp [hc]
      | cons d front =>
        simp only [Prod.exists, Prod.mk.injEq, List.cons.injEq, List.cons_append, List.mem_cons, not_or]
        constructor
        · rintro ⟨a, b, hcut, ⟨rfl, rfl⟩, rfl⟩
          obtain ⟨rfl, hfree⟩ := ih.mp hcut
          exact ⟨⟨rfl, rfl⟩, Ne.symm hc, hfree⟩
        · rintro ⟨⟨rfl, rfl⟩, -, hfree⟩
          exact ⟨front, back, ih.mpr ⟨rfl, hfree⟩, ⟨rfl, rfl⟩, rfl⟩

theorem splitOn_ne_nil (sep : Char) (t : Text) : splitOn sep t ≠ [] := by
  fun_cases splitOn sep t <;> simp

theorem splitOn_of_notMem (h : sep ∉ t) : splitOn sep t = [t] := by
  induction t with
  | nil => rfl
  | cons c t ih =>
    obtain ⟨hc, ht⟩ := not_or.mp (mt List.mem_cons.mpr h)
    rw [splitOn, if_neg (Ne.symm hc), ih ht]

/-- The parts on both sides of a separator. -/
theorem splitOn_append_cons (sep : Char) (s t : Text) :
    splitOn sep (s ++ sep :: t) = splitOn sep s ++ splitOn sep t := by
  induction s with
  | nil => simp [splitOn]
  | cons c s ih =>
    rw [List.cons_append, splitOn, splitOn, ih]
    by_cases hc : c = sep
    · rw [if_pos hc, if_pos hc, List.cons_append]
    · rw [if_neg hc, if_neg hc]
      cases hparts : splitOn sep s with
      | nil => exact absurd hparts (splitOn_ne_nil sep s)
      | cons part parts => rfl

/-- Blanks in front of a text are in front of its first part. -/
theorem map_trim_splitOn (hsep : isBlank sep = false) (t : Text) :
    (splitOn sep (trimStart t)).map trim = (splitOn sep t).map trim := by
  induction t with
  | nil => rfl
  | cons c t ih =>
    by_cases hc : isBlank c = true
    · have hne : c ≠ sep := by
        rintro rfl
        rw [hsep] at hc
        cases hc
      rw [← List.singleton_append, trimStart_append (by simpa using hc), ih, List.singleton_append,
        splitOn, if_neg hne]
      cases hparts : splitOn sep t with
      | nil => exact absurd hparts (splitOn_ne_nil sep t)
      | cons part parts =>
        have htrim : trim (c :: part) = trim part := by
          rw [trim, ← List.singleton_append, trimStart_append (by simpa using hc), trim]
        rw [List.map_cons, List.map_cons, htrim]
    · rw [trimStart_cons (Bool.eq_false_iff.mpr hc)]

end SheetLint.Text
