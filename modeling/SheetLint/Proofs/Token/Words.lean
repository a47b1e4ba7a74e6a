import SheetLint.Proofs.Token.Stability
import SheetLint.Proofs.Tree.Nodes

/-!
# The words of a text

The *words* of a text are its tokens other than whitespace, wherever they stand. A *gap* is where two
of them stand side by side, with whitespace or nothing between them.

Results:
* `Scan.kindAndLength_whitespace_iff`, `Tokens.isBlank_text`: what whitespace is.
* `Tokens.words_blank_append`: whitespace in front of a text does not count.
* `Tokens.Gap`: where two words stand side by side.
-/

namespace SheetLint

/-- Whether a text is whitespace. -/
def Text.IsBlank (t : Text) : Prop := ∀ c ∈ t, Scan.isSpace c = true

theorem Text.IsBlank.append {a b : Text} (ha : a.IsBlank) (hb : b.IsBlank) :
    Text.IsBlank (a ++ b) :=
  List.forall_mem_append.mpr ⟨ha, hb⟩

/-! ## Whitespace tokens -/

namespace Scan

/-- Whitespace is what starts with a space character. -/
theorem kindAndLength_whitespace_iff (c : Char) (rest : Text) :
    (kindAndLength c rest).1 = .whitespace ↔ isSpace c = true := by
  constructor
  · intro h
    obtain ⟨n, -, hscanned⟩ := exists_scanned h
    cases hscanned with
    | whitespace hspace => exact hspace
  · intro hc
    unfold kindAndLength
    rw [if_pos hc]

/-- A line comment goes on up to a line break. -/
theorem kindAndLength_lineComment {c : Char} {rest : Text}
    (h : (kindAndLength c rest).1 = .lineComment) :
    (kindAndLength c rest).2 = ((c :: rest).takeWhile (!isLineBreak ·)).length := by
  obtain ⟨n, hscan, hscanned⟩ := exists_scanned h
  rw [hscan]
  cases hscanned with
  | lineComment => rfl

/-- A run of characters that ends where a text does. -/
theorem of_length_takeWhile {p : Char → Bool} {u t : Text} {d : Char}
    (h : ((u ++ d :: t).takeWhile p).length = u.length) : p d = false := by
  by_contra hd
  rw [Bool.not_eq_false] at hd
  rw [List.takeWhile_append] at h
  split at h
  · simp [hd] at h
  · rename_i hne
    exact hne h

theorem startsWith_eq_of_head? {p : Char → Bool} {s s' : Text} (h : s'.head? = s.head?) :
    startsWith p s' = startsWith p s := by
  cases s <;> cases s' <;> simp_all [startsWith]

theorem startsWith_append {p : Char → Bool} {s : Text} (hs : s ≠ []) (t : Text) :
    startsWith p (s ++ t) = startsWith p s := by
  obtain ⟨c, s, rfl⟩ := List.exists_cons_of_ne_nil hs
  rfl

theorem isSpace_of_isLineBreak {t : Text} (h : startsWith isLineBreak t = true) :
    startsWith isSpace t = true := by
  cases t with
  | nil => cases h
  | cons c t =>
    rcases Bool.or_eq_true_iff.mp h with hc | hc <;> rw [beq_iff_eq.mp hc] <;> rfl

/-- A text does not go on with whitespace that stands in front of it. -/
theorem dropWhile_blank_append {space s : Text} (hspace : space.IsBlank)
    (hs : startsWith isSpace s = false) : (space ++ s).dropWhile isSpace = s := by
  rw [List.dropWhile_append_of_pos hspace]
  cases s with
  | nil => rfl
  | cons c s => exact List.dropWhile_cons_of_neg (by simpa [startsWith] using hs)

end Scan

namespace Tokens

open Scan

variable {ts : List Token} {t : Token} {place place' : Position} {s : Text}

theorem isSpace_head_iff {before after : List Token} (h : ofTextAt place s = before ++ t :: after) :
    startsWith isSpace t.text = true ↔ t.isWhitespace = true := by
  obtain ⟨c, w, htext, hscan⟩ := exists_scan_of_ofTextAt h
  have hkind := kindAndLength_whitespace_iff c (w ++ text after)
  rw [hscan] at hkind
  rw [htext, Token.isWhitespace, beq_iff_eq]
  exact hkind.symm

/-- A whitespace token is whitespace. -/
theorem isBlank_text {before after : List Token} (h : ofTextAt place s = before ++ t :: after)
    (ht : t.isWhitespace = true) : Text.IsBlank t.text := by
  obtain ⟨c, w, htext, hscan⟩ := exists_scan_of_ofTextAt h
  have hc : isSpace c = true := by
    rw [← kindAndLength_whitespace_iff c (w ++ text after), hscan]
    exact beq_iff_eq.mp ht
  unfold kindAndLength at hscan
  rw [if_pos hc, Prod.mk.injEq, ← List.cons_append] at hscan
  have hfront : (c :: w) <+: ((c :: w) ++ text after).takeWhile isSpace := by
    refine List.prefix_of_prefix_length_le (List.prefix_append _ _) (List.takeWhile_prefix _) ?_
    rw [hscan.2, List.length_cons]
  intro x hx
  rw [htext] at hx
  exact List.mem_takeWhile_imp (hfront.subset hx)

theorem isBlank_text_of_isSpace {before space after : List Token}
    (h : ofTextAt place s = before ++ (space ++ after)) (hspace : IsSpace space) :
    Text.IsBlank (text space) := by
  intro c hc
  obtain ⟨t, ht, hct⟩ := List.mem_flatMap.mp hc
  obtain ⟨front, back, rfl⟩ := List.append_of_mem ht
  have ht' : ofTextAt place s = (before ++ front) ++ t :: (back ++ after) := by
    rw [h]
    simp
  exact isBlank_text ht' (hspace t ht) c hct

/-- The first character behind whitespace, in front of a mark or of nothing. -/
theorem head?_behind_isSpace {before space after : List Token} {c : Char}
    (h : ofTextAt place s = before ++ (space ++ after)) (hspace : IsSpace space) (hc : isSpace c = false)
    (hafter : ∀ t ∈ after.head?, t.isPunct c = true) :
    ∀ d ∈ ((text (space ++ after)).dropWhile isSpace).head?, d = c := by
  rw [text_append, List.dropWhile_append_of_pos (isBlank_text_of_isSpace h hspace)]
  cases after with
  | nil => simp
  | cons mark more =>
    have hmark := hafter mark rfl
    rw [Token.isPunct, Bool.and_eq_true, beq_iff_eq, beq_iff_eq] at hmark
    rw [text_cons, hmark.2, List.singleton_append, List.dropWhile_cons_of_neg (by simp [hc])]
    rintro d ⟨⟩
    rfl

/-- Behind a line comment stands a line break. -/
theorem isLineBreak_of_lineComment {before after : List Token}
    (h : ofTextAt place s = before ++ t :: after) (ht : t.kind = .lineComment) (hne : after ≠ []) :
    startsWith isLineBreak (text after) = true := by
  obtain ⟨c, w, htext, hscan⟩ := exists_scan_of_ofTextAt h
  have hlength := kindAndLength_lineComment (by rw [hscan]; exact ht)
  rw [hscan, ← List.cons_append] at hlength
  obtain ⟨next, more, rfl⟩ := List.exists_cons_of_ne_nil hne
  have hnext : next.text ≠ [] := ne_nil_of_mem_ofTextAt (by rw [h]; simp)
  obtain ⟨d, v, hd⟩ := List.exists_cons_of_ne_nil hnext
  rw [text_cons, hd, List.cons_append] at hlength ⊢
  have hstop := of_length_takeWhile (u := c :: w) (t := v ++ text more) hlength.symm
  simpa [startsWith] using hstop

/-! ## Words -/

/-- The tokens other than whitespace, wherever they stand. -/
def words (ts : List Token) : List Token := (ts.filter fun t => !t.isWhitespace).map Token.bare

@[simp] theorem words_append (a b : List Token) : words (a ++ b) = words a ++ words b := by
  simp [words]

theorem words_of_isSpace (h : IsSpace ts) : words ts = [] := by
  rw [words, List.filter_eq_nil_iff.mpr fun t ht => by simp [h t ht], List.map_nil]

/-- Places do not count. -/
theorem words_eq_of_map_bare {ts' : List Token} (h : ts'.map Token.bare = ts.map Token.bare) :
    words ts' = words ts := by
  have hwords (ts : List Token) :
      words ts = (ts.map Token.bare).filter fun t => !t.isWhitespace := by
    rw [words, List.filter_map]
    rfl
  rw [hwords, hwords, h]

/-- A text is read the same wherever it stands. -/
theorem map_bare_ofTextAt (place place' : Position) (s : Text) :
    (ofTextAt place' s).map Token.bare = (ofTextAt place s).map Token.bare := by
  fun_induction ofTextAt place s generalizing place' with
  | case1 => rw [ofTextAt]
  | case2 place c rest scanned more taken stop ih =>
    rw [ofTextAt]
    simp only [List.map_cons, Token.bare]
    exact congrArg _ (ih _)

theorem words_ofTextAt (place place' : Position) (s : Text) :
    words (ofTextAt place' s) = words (ofTextAt place s) :=
  words_eq_of_map_bare (map_bare_ofTextAt place place' s)

theorem words_dropWhile (place place' : Position) (s : Text) :
    words (ofTextAt place s) = words (ofTextAt place' (s.dropWhile isSpace)) := by
  cases s with
  | nil => exact words_ofTextAt place' place []
  | cons c rest =>
    by_cases hc : isSpace c = true
    · have hcut := List.takeWhile_append_dropWhile (p := isSpace) (l := rest)
      have hscan : kindAndLength c (rest.takeWhile isSpace ++ rest.dropWhile isSpace) =
          (.whitespace, (rest.takeWhile isSpace).length + 1) := by
        unfold kindAndLength
        rw [hcut, if_pos hc, List.takeWhile_cons_of_pos hc]
        rfl
      have hread := ofTextAt_eq_cons place hscan
      rw [hcut] at hread
      rw [List.dropWhile_cons_of_pos hc, hread]
      exact words_ofTextAt place' _ _
    · rw [List.dropWhile_cons_of_neg hc]
      exact words_ofTextAt place' place _

/-- **Whitespace in front of a text does not count.** -/
theorem words_blank_append {space : Text} (hspace : space.IsBlank) (place place' : Position)
    (s : Text) : words (ofTextAt place (space ++ s)) = words (ofTextAt place' s) := by
  rw [words_dropWhile place place, words_dropWhile place' place s]
  congr 2
  rw [List.dropWhile_append_of_pos hspace]

/-! ## Gaps -/

/-- Tokens with a word among them are cut in front of their first word. -/
theorem exists_first_word (h : ∃ t ∈ ts, t.isWhitespace = false) :
    ∃ lead first more, ts = lead ++ first :: more ∧ IsSpace lead ∧ first.isWhitespace = false := by
  induction ts with
  | nil => simp at h
  | cons t ts ih =>
    cases ht : t.isWhitespace with
    | false => exact ⟨[], t, ts, rfl, by simp [IsSpace], ht⟩
    | true =>
      rw [List.exists_mem_cons_iff, ht] at h
      obtain ⟨lead, first, more, rfl, hlead, hfirst⟩ := ih (h.resolve_left Bool.noConfusion)
      exact ⟨t :: lead, first, more, rfl, List.forall_mem_cons.mpr ⟨ht, hlead⟩, hfirst⟩

/-- Tokens with a word among them are cut behind their last word. -/
theorem exists_last_word (h : ∃ t ∈ ts, t.isWhitespace = false) :
    ∃ before last space, ts = before ++ last :: space ∧ last.isWhitespace = false
      ∧ IsSpace space := by
  have hreverse : ∃ t ∈ ts.reverse, t.isWhitespace = false := by simpa using h
  obtain ⟨lead, first, more, hcut, hlead, hfirst⟩ := exists_first_word hreverse
  refine ⟨more.reverse, first, lead.reverse, ?_, hfirst, fun t ht => hlead t (by simpa using ht)⟩
  rw [← List.reverse_reverse ts, hcut]
  simp

/-- Where two words stand among the tokens, with whitespace or nothing between them. -/
structure Gap (ts front : List Token) (last : Token) (space : List Token) (next : Token)
    (back : List Token) : Prop where
  split : ts = front ++ last :: (space ++ next :: back)
  isSpace : IsSpace space
  last_not : last.isWhitespace = false
  next_not : next.isWhitespace = false

end Tokens

end SheetLint
