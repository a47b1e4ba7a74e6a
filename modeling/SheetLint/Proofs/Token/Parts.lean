import SheetLint.Proofs.Token.Legible
import SheetLint.Value

/-!
# The parts of a value, read by themselves

A value is cut into parts at the trivia outside parentheses. Each token of a part ends where nothing
goes on with it, and no token goes on with a line feed, so the part is also read in front of one. Only
an `url` in front of a parenthesis looks further, for a quote behind whitespace. It finds the same as
long as the part ends with something other than that parenthesis.

Results:
* `Tokens.Legible.fed`, `Tokens.Legible.fed_of_space`: words in front of a line feed.
-/

namespace SheetLint

open Scan

/-! ## Parts by themselves -/

/-- A line feed. -/
def Token.feed : Token := ⟨.whitespace, ['\n'], default⟩

namespace Scan

variable {s u : Text} {c : Char}

theorem offersNoMoreHere_feed (hs : s.head? ≠ some '\\') : OffersNoMoreHere s ['\n'] :=
  .of_isBar hs rfl []

/-- A line feed behind a text that holds more than space and parentheses, or where no quote is next. -/
theorem offersNoMore_feed (hs : s.head? ≠ some '\\')
    (hu : (∃ c ∈ u, isSpace c = false ∧ c ≠ '(') ∨ startsWith isQuote (s.dropWhile isSpace) = false) :
    OffersNoMore (u ++ s) (u ++ ['\n']) := by
  rcases hu with ⟨c, hc, hspace, hparen⟩ | hquote
  · obtain ⟨front, back, rfl⟩ := List.append_of_mem hc
    rw [List.append_assoc, List.append_assoc]
    exact (OffersNoMore.of_cons hspace hparen _ _).append front
  · exact OffersNoMore.append ⟨offersNoMoreHere_feed hs, hquote.symm⟩ u

theorem startsLike_feed (hne : u ≠ []) (hs : s.head? ≠ some '\\')
    (hu : (∃ c ∈ u, isSpace c = false ∧ c ≠ '(') ∨ startsWith isQuote (s.dropWhile isSpace) = false) :
    StartsLike (u ++ s) (u ++ ['\n']) := by
  refine ⟨offersNoMore_feed hs hu, .append (.of_isBar rfl s []) u, ?_, ?_⟩
  · match u with
    | [c] =>
      by_cases hc : c = '\\'
      · subst hc
        exact ⟨by simp [startsName], id⟩
      · exact .of_cons (offersNoMoreHere_feed hs) hc
    | c :: x :: u => exact ⟨(startsName_cons_cons c x _ _).trans, id⟩
  · rw [List.head?_append_of_ne_nil _ hne, List.head?_append_of_ne_nil _ hne]

end Scan

namespace Token

variable {t : Token} {s : Text}

theorem readsBefore_feed : feed.ReadsBefore [] := ⟨'\n', [], rfl, rfl⟩

/-- A word is read in front of a line feed, when what stands behind it does not go on with it. -/
theorem ReadsBefore.feed (h : t.ReadsBefore s) (herror : t.kind ≠ .error) (hs : s.head? ≠ some '\\')
    (hword : t.isWhitespace = false) : t.ReadsBefore ['\n'] := by
  refine (h.or_goesOn herror (offersNoMoreHere_feed hs) (fun _ => .of_isBar rfl s []) (fun hkind => ?_)
    (fun _ => .inr rfl) fun _ => rfl).resolve_right ?_
  · rw [isWhitespace, hkind] at hword
    cases hword
  · rintro ⟨c, w, -, -, hname, -⟩
    cases hname

/-- A word is an opening parenthesis or starts with a character other than that and space. -/
theorem ReadsBefore.isPunct_or (h : t.ReadsBefore s) (hword : t.isWhitespace = false) :
    t.isPunct '(' = true ∨ ∃ c ∈ t.text, isSpace c = false ∧ c ≠ '(' := by
  obtain ⟨c, w, htext⟩ := List.exists_cons_of_ne_nil h.ne_nil
  have hspace : isSpace c = false := by
    have hhead := h.isSpace_head_iff
    rw [hword, htext] at hhead
    exact Bool.eq_false_iff.mpr fun hc => Bool.false_ne_true (hhead.mp hc)
  by_cases hc : c = '('
  · exact .inl (h.isPunct_of_head (by decide) (by rw [htext, hc]; rfl))
  · exact .inr ⟨c, by rw [htext]; exact List.mem_cons_self, hspace, hc⟩

end Token

namespace Tokens

variable {part back : List Token} {last : Token}

/-- **Words are read in front of a line feed**, when what stands behind them goes on with none. -/
theorem Legible.fed (h : Legible (part ++ back)) (herror : ∀ t ∈ part, t.kind ≠ .error)
    (hback : (text back).head? ≠ some '\\') (hlast : part.getLast? = some last)
    (hword : last.isWhitespace = false)
    (hparen : last.isPunct '(' = true → startsWith isQuote ((text back).dropWhile isSpace) = false) :
    Legible (part ++ [Token.feed]) := by
  induction part with
  | nil => cases hlast
  | cons t part ih =>
    rw [List.forall_mem_cons] at herror
    cases part with
    | nil =>
      cases hlast
      exact ⟨h.1.feed herror.1 hback hword, Token.readsBefore_feed, trivial⟩
    | cons k part =>
      rw [List.getLast?_cons_cons] at hlast
      refine ⟨?_, ih h.2 herror.2 hlast⟩
      obtain ⟨init, hinit⟩ := List.getLast?_eq_some_iff.mp hlast
      have hreads : last.ReadsBefore (text back) := by
        have hlater : Legible ((k :: part) ++ back) := h.2
        rw [hinit, List.append_assoc] at hlater
        exact hlater.of_append.1
      have htext : text (k :: part) = text init ++ last.text := by rw [hinit, text_append]; simp
      have hread : t.ReadsBefore (text ((k :: part) ++ back)) := h.1
      change t.ReadsBefore (text ((k :: part) ++ [Token.feed]))
      rw [text_append] at hread ⊢
      refine hread.of_startsLike herror.1 (startsLike_feed ?_ hback ?_)
      · rw [htext]
        exact List.append_ne_nil_of_right_ne_nil _ hreads.ne_nil
      · refine (hreads.isPunct_or hword).symm.imp (fun ⟨c, hc, hplain⟩ => ⟨c, ?_, hplain⟩) hparen
        rw [htext]
        exact List.mem_append_right _ hc

/-- **Words are read in front of a line feed**, when whitespace outside parentheses is behind them. -/
theorem Legible.fed_of_space {t : Token} (h : Legible (part ++ t :: back))
    (herror : ∀ t ∈ part, t.kind ≠ .error) (hne : part ≠ []) (ht : t.isWhitespace = true)
    (hdepth : part.foldl parenDepth 0 = 0) : Legible (part ++ [Token.feed]) := by
  obtain ⟨init, last, rfl⟩ := List.eq_nil_or_concat' part |>.resolve_left hne
  have hblank : startsWith isSpace (text (t :: back)) = true := by
    have hspace : t.ReadsBefore (text back) := h.readsBefore
    rw [text_cons, startsWith_append hspace.ne_nil]
    exact hspace.isSpace_head_iff.mpr ht
  have hlast : last.ReadsBefore (text (t :: back)) := by
    rw [List.append_assoc] at h
    exact h.of_append.1
  refine h.fed herror (fun hescape => ?_) List.getLast?_concat (Bool.eq_false_iff.mpr fun hword => ?_)
    fun hparen => ?_
  · obtain ⟨more, hmore⟩ := List.head?_eq_some_iff.mp hescape
    rw [hmore] at hblank
    cases hblank
  · -- whitespace would go on
    rw [hlast.space (beq_iff_eq.mp hword)] at hblank
    cases hblank
  · -- the parenthesis would be open
    rw [List.foldl_append, List.foldl_cons, List.foldl_nil, parenDepth, if_pos hparen] at hdepth
    cases hdepth

end Tokens

end SheetLint
