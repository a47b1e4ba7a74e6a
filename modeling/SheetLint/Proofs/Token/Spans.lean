import SheetLint.Proofs.Edit.Applicable

/-!
# Spans that lie in a text

A span lies in a text when its ends are two places of the text, all numbers of them counted from the
start of the text. The spans of tokens do, and so do those that are put together from their ends.

Results:
* `Span.inText_of_run`: the span of a run of tokens lies in the text.
* `Span.inText_behind`: so does the empty span behind a token.
-/

namespace SheetLint

variable {source : Text} {run : List Token} {t first last : Token}

/-- Whether a span lies in a text: its ends are the places in front of a piece of the text and
behind it. -/
def Span.InText (source : Text) (s : Span) : Prop :=
  ∃ front covered back, source = front ++ covered ++ back
    ∧ s = ⟨.behind front, .behind (front ++ covered)⟩

namespace Span

theorem inText_of_token (ht : t ∈ Tokens.ofText source) : t.span.InText source := by
  obtain ⟨before, after, h⟩ := List.append_of_mem ht
  exact ⟨_, _, _, Tokens.text_eq_of_ofText h, Tokens.span_of_ofText h⟩

/-- From the start of one token to the end of a later one. -/
theorem inText_between (middle : List Token)
    (h : first :: (middle ++ [last]) <:+: Tokens.ofText source) :
    InText source ⟨first.span.start, last.span.stop⟩ := by
  obtain ⟨before, after, h⟩ := h
  have hfirst : Tokens.ofText source = before ++ first :: (middle ++ last :: after) := by
    simp [← h]
  have hlast : Tokens.ofText source = (before ++ first :: middle) ++ last :: after := by simp [← h]
  refine ⟨Tokens.text before, Tokens.text (first :: middle ++ [last]), Tokens.text after, ?_, ?_⟩
  · rw [Tokens.text_eq_of_ofText hlast]
    simp
  · rw [Tokens.span_of_ofText hfirst, Tokens.span_of_ofText hlast]
    simp

/-- **The span of a run of tokens lies in the text.** -/
theorem inText_of_run {span : Span} (hrun : run <:+: Tokens.ofText source)
    (hspan : Tokens.span? run = some span) : span.InText source := by
  unfold Tokens.span? at hspan
  split at hspan
  · rename_i first last hfirst hlast
    cases hspan
    obtain ⟨middle, rfl⟩ := List.head?_eq_some_iff.mp hfirst
    rcases List.eq_nil_or_concat middle with rfl | ⟨front, last', rfl⟩
    · cases hlast
      exact inText_of_token (hrun.subset List.mem_cons_self)
    · rw [List.concat_eq_append] at hrun hlast
      rw [← List.cons_append, List.getLast?_append_of_ne_nil _ (List.cons_ne_nil _ _)] at hlast
      cases hlast
      exact inText_between front hrun
  · cases hspan

/-- The empty span behind a token lies in the text. -/
theorem inText_behind (ht : t ∈ Tokens.ofText source) :
    InText source ⟨t.span.stop, t.span.stop⟩ := by
  obtain ⟨before, after, h⟩ := List.append_of_mem ht
  refine ⟨Tokens.text before ++ t.text, [], Tokens.text after, ?_, ?_⟩
  · rw [List.append_nil]
    exact Tokens.text_eq_of_ofText h
  · rw [Tokens.span_of_ofText h, List.append_nil]

end Span

end SheetLint
