import SheetLint.Proofs.Edit.Respacing

/-!
# Ink

The *ink* of a text is the number of its characters other than space characters. It is all in the
words, so a text that loses ink does not keep its words.

Results:
* `Tokens.ink_eq_sum_words`: the ink of a text is that of its words.
* `Edit.ink_of_applyAll?`: edits of which none puts more ink than it takes leave no more ink, and
  less if one takes more than it puts.
-/

namespace SheetLint

namespace Text

/-- The number of characters other than space characters. -/
def ink (t : Text) : Nat := t.countP fun c => !Scan.isSpace c

@[simp] theorem ink_append (a b : Text) : ink (a ++ b) = ink a + ink b := List.countP_append

theorem IsBlank.ink_eq_zero {t : Text} (h : t.IsBlank) : ink t = 0 :=
  List.countP_eq_zero.mpr fun c hc => by simp [h c hc]

end Text

namespace Tokens

/-- The ink of tokens is that of their words, if whitespace tokens hold none. -/
theorem ink_text {ts : List Token}
    (h : ∀ t ∈ ts, t.isWhitespace = true → Text.ink t.text = 0) :
    Text.ink (text ts) = ((words ts).map fun t => Text.ink t.text).sum := by
  induction ts with
  | nil => rfl
  | cons t ts ih =>
    rw [List.forall_mem_cons] at h
    rw [text_cons, Text.ink_append, ih h.2, words, words, List.filter_cons]
    cases ht : t.isWhitespace with
    | true => simp [h.1 ht]
    | false => simp [Token.bare]

/-- **The ink of a text is that of its words.** -/
theorem ink_eq_sum_words (s : Text) :
    Text.ink s = ((words (ofText s)).map fun t => Text.ink t.text).sum := by
  rw [← ink_text, text_ofText]
  intro t ht hspace
  obtain ⟨before, after, h⟩ := List.append_of_mem ht
  exact (isBlank_text h hspace).ink_eq_zero

theorem ink_eq_of_words_eq {s s' : Text} (h : words (ofText s') = words (ofText s)) :
    Text.ink s' = Text.ink s := by
  rw [ink_eq_sum_words, h, ← ink_eq_sum_words]

end Tokens

namespace Edit

variable {source out : Text} {e : Edit}

/-- Whether an edit puts no more ink than it takes. -/
def KeepsInk (source : Text) (e : Edit) : Prop :=
  ∀ old, Replaces source e old → Text.ink e.replacement ≤ Text.ink old

/-- Whether an edit puts less ink than it takes. -/
def LosesInk (source : Text) (e : Edit) : Prop :=
  ∀ old, Replaces source e old → Text.ink e.replacement < Text.ink old

theorem LosesInk.keepsInk (h : e.LosesInk source) : e.KeepsInk source :=
  fun old hold => Nat.le_of_lt (h old hold)

theorem IsRespacing.keepsInk (h : e.IsRespacing source) : e.KeepsInk source := by
  intro old _
  rw [h.isBlank.ink_eq_zero]
  exact Nat.zero_le _

theorem Substituted.ink {front rest : Text} {es : List Edit}
    (h : Substituted front.size rest es out) (hsource : source = front ++ rest) (hes : ∀ e ∈ es, e.KeepsInk source) :
    Text.ink out ≤ Text.ink rest
      ∧ ((∃ e ∈ es, e.LosesInk source) → Text.ink out < Text.ink rest) := by
  generalize hpos : front.size = pos at h
  induction h generalizing front with
  | nil => simp
  | @cons pos kept old rest out e es start_eq stop_eq more ih =>
    rw [List.forall_mem_cons] at hes
    have hreplaces : Replaces source e old := by
      refine ⟨front ++ kept, rest, by simp [hsource], ?_, ?_⟩
      · rw [Text.size_append, hpos, start_eq]
      · rw [Text.size_append, hpos, stop_eq, start_eq]
    have hfirst := hes.1 old hreplaces
    have hsplit : source = (front ++ kept ++ old) ++ rest := by simp [hsource]
    obtain ⟨hle, hlt⟩ := ih hsplit hes.2 (by
      rw [Text.size_append, Text.size_append, hpos, stop_eq, start_eq])
    simp only [Text.ink_append]
    refine ⟨by omega, ?_⟩
    rintro ⟨x, hx, hloses⟩
    rcases List.mem_cons.mp hx with rfl | hlater
    · have := hloses old hreplaces
      omega
    · have := hlt ⟨x, hlater, hloses⟩
      omega

/-- **Ink does not grow** by edits of which none puts more than it takes. -/
theorem ink_of_applyAll? {edits : List Edit} (h : applyAll? source edits = some out)
    (hconflict : edits.Pairwise fun a b => a.conflicts b = false)
    (hedits : ∀ e ∈ edits, e.KeepsInk source) :
    Text.ink out ≤ Text.ink source
      ∧ ((∃ e ∈ edits, e.LosesInk source) → Text.ink out < Text.ink source) := by
  have hwalk : Substituted (Text.size []) source (inOrder edits) out :=
    substituted_of_applyAll? h hconflict
  have hperm := perm_inOrder edits
  obtain ⟨hle, hlt⟩ := hwalk.ink rfl fun e he => hedits e (hperm.subset he)
  exact ⟨hle, fun ⟨e, he, hloses⟩ => hlt ⟨e, hperm.symm.subset he, hloses⟩⟩

end Edit

end SheetLint
