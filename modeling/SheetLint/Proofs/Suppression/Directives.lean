import SheetLint.Proofs.Text.Trimming
import SheetLint.Suppression

/-!
# The comments that are directives

A comment is a directive when it holds `scss-lint:` and behind that `allow(`, a list of words and a
parenthesis, with blanks in front of each if need be. The words are what stands between commas, blanks
around them apart, and there has to be one. What follows is the reason, if it has the form of one, and
else is of no concern. This says so without the order in which the text is taken apart.

Results:
* `Directive.reason?_eq_some_iff`: the reasons that are read.
* `Directive.ofComment?_eq_some_iff`: the directives that are read.
-/

namespace SheetLint

open Text

/-- Whether a text is made of blanks. -/
def Text.IsPadding (t : Text) : Prop := ∀ c ∈ t, isBlank c = true

namespace Directive

variable {t content gap gap' list rest reason : Text} {d : Directive}

/-! ## The grammar -/

/-- Whether a text is a comment around the content. -/
inductive Encloses (content : Text) : Text → Prop where
  | line : Encloses content ('/' :: '/' :: content)
  | block : Encloses content ('/' :: '*' :: (content ++ ['*', '/']))

/-- The words between the commas of a list. -/
def words (list : Text) : List Text := ((splitOn ',' list).map trim).filter (· ≠ [])

/-- Whether a reason is given at the front of a text: `reason=` and a quoted text, with blanks in front
of each. -/
def GivesReason (t reason : Text) : Prop :=
  ∃ gap gap' more, t = gap ++ "reason=".toList ++ gap' ++ '"' :: reason ++ '"' :: more
    ∧ gap.IsPadding ∧ gap'.IsPadding ∧ '"' ∉ reason

/-- **Whether a directive is written in the text of a comment.** -/
def IsWritten (d : Directive) (t : Text) : Prop :=
  ∃ gap gap' list rest, Encloses
      (gap ++ "scss-lint:".toList ++ gap' ++ "allow(".toList ++ list ++ ')' :: rest) t
    ∧ gap.IsPadding ∧ gap'.IsPadding ∧ ')' ∉ list
    ∧ d.rules = words list ∧ d.rules ≠ []
    ∧ ∀ reason, d.reason = some reason ↔ GivesReason rest reason

/-! ## What is read -/

theorem content?_eq_some_iff : content? t = some content ↔ Encloses content t := by
  constructor
  · intro h
    unfold content? at h
    split at h
    · cases h
      exact .line
    · rw [stripEnd?_eq_some_iff.mp h]
      exact .block
    · cases h
  · rintro (_ | _)
    · rfl
    · exact stripEnd?_append ['*', '/'] content

/-- A word with a last character that is no blank, between blanks and anything. -/
theorem trim_word {c e : Char} (word : Text) (hgap : gap.IsPadding) (hc : isBlank c = false)
    (he : isBlank e = false) (rest : Text) :
    trim (gap ++ c :: word ++ e :: rest) = c :: word ++ e :: trimEnd rest := by
  rw [List.append_assoc, trim, trimStart_append hgap, List.cons_append, trimStart_cons hc,
    ← List.cons_append, trimEnd_append_cons he]

theorem reason?_of_form (hgap : gap.IsPadding) (hgap' : gap'.IsPadding) (hfree : '"' ∉ reason)
    (more : Text) :
    reason? (gap ++ "reason=".toList ++ gap' ++ '"' :: reason ++ '"' :: more) = some reason := by
  have houter : trim (gap ++ "reason=".toList ++ gap' ++ '"' :: reason ++ '"' :: more) =
      "reason=".toList ++ (gap' ++ '"' :: reason ++ '"' :: trimEnd more) := by
    have hword := trim_word ("eason=".toList ++ gap' ++ '"' :: reason) hgap (c := 'r') (e := '"')
      (by decide) (by decide) more
    simpa using hword
  have hinner : trim (gap' ++ '"' :: reason ++ '"' :: trimEnd more) =
      '"' :: (reason ++ '"' :: trimEnd more) := by
    rw [trim_word reason hgap' (by decide) (by decide), trimEnd_trimEnd, List.cons_append]
  have hcut : cutAt? '"' (reason ++ '"' :: trimEnd more) = some (reason, trimEnd more) :=
    cutAt?_eq_some_iff.mpr ⟨rfl, hfree⟩
  simp only [reason?, houter, stripStart?_append, Option.bind_eq_bind, Option.bind_some, hinner,
    stripStart?, if_true, hcut]
  rfl

/-- **The reasons that are read.** -/
theorem reason?_eq_some_iff : reason? t = some reason ↔ GivesReason t reason := by
  constructor
  · intro h
    simp only [reason?, Option.bind_eq_bind, Option.bind_eq_some_iff, stripStart?_eq_some_iff,
      Option.pure_def, Option.some.injEq] at h
    obtain ⟨value, hvalue, quoted, hquoted, ⟨front, more⟩, hcut, rfl⟩ := h
    obtain ⟨rfl, hfree⟩ := cutAt?_eq_some_iff.mp hcut
    obtain ⟨gap, back, hgap, -, ht⟩ := exists_padding t
    obtain ⟨gap', back', hgap', -, hvalue'⟩ := exists_padding value
    refine ⟨gap, gap', more ++ back' ++ back, ?_, hgap, hgap', hfree⟩
    rw [ht, hvalue, hvalue', hquoted]
    simp
  · rintro ⟨gap, gap', more, rfl, hgap, hgap', hfree⟩
    exact reason?_of_form hgap hgap' hfree more

theorem reason?_trimEnd (t : Text) : reason? (trimEnd t) = reason? t := by
  rw [reason?, trim_trimEnd, reason?]

theorem words_trimStart (list : Text) : words (trimStart list) = words list := by
  rw [words, map_trim_splitOn (by decide), words]

/-- What is read in a comment of this form. -/
theorem ofComment?_of_form (hgap : gap.IsPadding) (hgap' : gap'.IsPadding) (hfree : ')' ∉ list)
    (henclosed : Encloses
      (gap ++ "scss-lint:".toList ++ gap' ++ "allow(".toList ++ list ++ ')' :: rest) t) :
    ofComment? t = if words list = [] then none else some ⟨words list, reason? rest⟩ := by
  have houter : trim (gap ++ "scss-lint:".toList ++ gap' ++ "allow(".toList ++ list ++ ')' :: rest) =
      "scss-lint:".toList ++ (gap' ++ "allow(".toList ++ list ++ ')' :: trimEnd rest) := by
    have hword := trim_word ("css-lint:".toList ++ gap' ++ "allow(".toList ++ list) hgap (c := 's')
      (e := ')') (by decide) (by decide) rest
    simpa using hword
  have hinner : trim (gap' ++ "allow(".toList ++ list ++ ')' :: trimEnd rest) =
      "allow(".toList ++ (list ++ ')' :: trimEnd rest) := by
    have hword := trim_word ("llow(".toList ++ list) hgap' (c := 'a') (e := ')') (by decide) (by decide)
      (trimEnd rest)
    rw [trimEnd_trimEnd] at hword
    simpa using hword
  have hlist : trim (list ++ ')' :: trimEnd rest) = trimStart list ++ ')' :: trimEnd rest := by
    rw [trim, trimStart_append_cons (by decide), trimEnd_append_cons (by decide), trimEnd_trimEnd]
  have hcut : cutAt? ')' (trimStart list ++ ')' :: trimEnd rest) = some (trimStart list, trimEnd rest) :=
    cutAt?_eq_some_iff.mpr ⟨rfl, fun hmem => hfree ((List.dropWhile_suffix _).subset hmem)⟩
  rw [ofComment?, content?_eq_some_iff.mpr henclosed]
  simp only [Option.bind_eq_bind, Option.bind_some, houter, stripStart?_append, hinner, hlist, hcut]
  have hwords := words_trimStart list
  rw [words] at hwords
  simp only [hwords, reason?_trimEnd]
  cases words list <;> rfl

/-- A comment that holds a directive has this form. -/
theorem exists_form_of_ofComment? (h : ofComment? t = some d) :
    ∃ gap gap' list rest, gap.IsPadding ∧ gap'.IsPadding ∧ ')' ∉ list ∧ Encloses
      (gap ++ "scss-lint:".toList ++ gap' ++ "allow(".toList ++ list ++ ')' :: rest) t := by
  simp only [ofComment?, Option.bind_eq_bind, Option.bind_eq_some_iff, content?_eq_some_iff,
    stripStart?_eq_some_iff] at h
  obtain ⟨content, henclosed, directive, hdirective, tail, htail, ⟨list, rest⟩, hcut, -⟩ := h
  obtain ⟨hlist, hfree⟩ := cutAt?_eq_some_iff.mp hcut
  obtain ⟨gap, back, hgap, -, hcontent⟩ := exists_padding content
  obtain ⟨gap', back', hgap', -, hdirective'⟩ := exists_padding directive
  obtain ⟨space, back'', hspace, -, htail'⟩ := exists_padding tail
  refine ⟨gap, gap', space ++ list, rest ++ back'' ++ back' ++ back, hgap, hgap', ?_, ?_⟩
  · rw [List.mem_append, not_or]
    exact ⟨fun hmem => absurd (hspace _ hmem) (by decide), hfree⟩
  · rw [hdirective, hdirective', htail, htail', hlist] at hcontent
    rw [hcontent] at henclosed
    simpa using henclosed

/-- **The directives that are read** are those that are written. -/
theorem ofComment?_eq_some_iff : ofComment? t = some d ↔ d.IsWritten t := by
  constructor
  · intro h
    obtain ⟨gap, gap', list, rest, hgap, hgap', hfree, henclosed⟩ := exists_form_of_ofComment? h
    rw [ofComment?_of_form hgap hgap' hfree henclosed, Option.ite_none_left_eq_some] at h
    obtain ⟨hwords, hd⟩ := h
    cases hd
    exact ⟨gap, gap', list, rest, henclosed, hgap, hgap', hfree, rfl, hwords,
      fun _ => reason?_eq_some_iff⟩
  · rintro ⟨gap, gap', list, rest, henclosed, hgap, hgap', hfree, hrules, hne, hreason⟩
    rw [hrules] at hne
    rw [ofComment?_of_form hgap hgap' hfree henclosed, if_neg hne, ← hrules]
    congr
    refine Option.ext fun reason => ?_
    rw [reason?_eq_some_iff, hreason]

end Directive

end SheetLint
