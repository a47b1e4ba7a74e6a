import SheetLint.Proofs.Token.Legible
import Mathlib.Order.Lattice
import Mathlib.Data.List.Lex

/-!
# Words in front of other whitespace

Behind a word stands whitespace, or nothing where the word ends by itself or a brace comes next. With
other whitespace there the word stays, and so do the words in front of it, unless it goes on: a line
comment in front of something other than its line break, or a backslash that is given something to
escape. Then it grows, or a word in front of it does, and the lengths of the words are greater in the
lexicographic order.

Results:
* `Token.ReadsBefore.seam`: a word in front of other whitespace.
* `Tokens.words_of_startsLike`: words in front of a text that starts like the old one.
* `Tokens.wordLengths_lt_of_append`: a word that grows, behind others.
-/

namespace SheetLint

open Scan

/-- Whether a token ends whatever stands behind it: a closed one or a comma. -/
def Token.endsAnywhere (t : Token) : Bool := t.isClosed || t.isPunct ','

/-- Whether a token goes on in front of a text. -/
def Token.GrowsBefore (t : Token) (s : Text) : Prop :=
  ∃ c w, t.text = c :: w ∧ w.length + 1 < (kindAndLength c (w ++ s)).2

namespace Scan

variable {s s' space space' : Text} {c : Char}

/-- Texts that start with one mark are alike, no matter what is behind it. -/
theorem StartsLike.of_mark (hc : c ∈ ['/', '\x7b', '\x7d', ';', ',']) (s s' : Text) :
    StartsLike (c :: s) (c :: s') := by
  have hspace : isSpace c = false := by
    simp only [List.mem_cons, List.not_mem_nil, or_false] at hc
    rcases hc with rfl | rfl | rfl | rfl | rfl <;> rfl
  have hne {d : Char} (hd : d ∉ ['/', '\x7b', '\x7d', ';', ',']) : c ≠ d := by
    rintro rfl
    exact hd hc
  refine ⟨.of_cons hspace (hne (by decide)) s s', .of_cons (hne (by decide)) s s', ⟨?_, ?_⟩, rfl⟩
  · simp [startsName, hne (d := '-') (by decide), hne (d := '\\') (by decide)]
  · simp [startsName]

/-- What a backslash escapes is the character behind it. -/
theorem startsName_escape (h : s'.head? = s.head?) :
    startsName ('\\' :: s') = startsName ('\\' :: s) := by
  cases s <;> cases s' <;> simp_all [startsName]

/-- No name starts with a bar. -/
theorem startsName_of_isBar (hc : isBar c = true) (s : Text) : startsName (c :: s) = false := by
  have hstart : isNameStart c = false := not_of_isBar hc (by decide)
  have hne {d : Char} (hd : isBar d = false) : c ≠ d := by
    rintro rfl
    rw [hc] at hd
    cases hd
  simp [startsName, hstart, hne (d := '-') (by decide), hne (d := '\\') (by decide)]

/-- **Other whitespace in front of a word offers nothing.** It may be missing in front of a comma. -/
theorem offers_blank (hspace : space.IsBlank) (hspace' : space'.IsBlank)
    (hs : startsWith isSpace s = false) (hhead : s'.head? = s.head?)
    (hslash : space = [] → s.head? ≠ some '\\') (hcomma : space' = [] → s.head? = some ',') :
    ∃ c t, space' ++ s' = c :: t ∧ isBar c = true ∧ OffersNoMore (space ++ s) (c :: t)
      ∧ OffersNoDigits (space ++ s) (c :: t) := by
  obtain ⟨c, t, ht, hc⟩ : ∃ c t, space' ++ s' = c :: t ∧ isBar c = true := by
    cases space' with
    | nil =>
      obtain ⟨t, ht⟩ := List.head?_eq_some_iff.mp (hhead.trans (hcomma rfl))
      exact ⟨',', t, ht, rfl⟩
    | cons c t => exact ⟨c, t ++ s', rfl, by simp [isBar, hspace' c List.mem_cons_self]⟩
  have hfirst : (space ++ s).head? ≠ some '\\' := by
    cases space with
    | nil => exact hslash rfl
    | cons d t =>
      rintro ⟨⟩
      have hblank := hspace '\\' List.mem_cons_self
      cases hblank
  refine ⟨c, t, ht, hc, .of_isBar hfirst hc ?_, .of_isBar hc _ _⟩
  rw [← ht, dropWhile_blank_append hspace hs,
    dropWhile_blank_append hspace' ((startsWith_eq_of_head? hhead).trans hs)]
  exact startsWith_eq_of_head? hhead

end Scan

/-! ## The last word in front of other whitespace -/

namespace Token

variable {t : Token} {s s' : Text} {c : Char}

/-- A token that ends anywhere starts with a mark, and is read in front of any text. -/
theorem ReadsBefore.exists_mark (h : t.ReadsBefore s) (hends : t.endsAnywhere = true) :
    ∃ c w, t.text = c :: w ∧ c ∈ ['/', '\x7b', '\x7d', ';', ','] ∧ ∀ s', t.ReadsBefore s' := by
  obtain ⟨c, w, htext, hscan⟩ := h
  by_cases hcomma : t.isPunct ',' = true
  · rw [text_of_isPunct hcomma, List.cons.injEq] at htext
    obtain ⟨rfl, rfl⟩ := htext
    refine ⟨',', [], text_of_isPunct hcomma, by simp, fun s' => ⟨',', [], text_of_isPunct hcomma, ?_⟩⟩
    rw [isPunct, Bool.and_eq_true, beq_iff_eq] at hcomma
    rw [hcomma.1]
    exact kindAndLength_of_mem_marks (by decide) s'
  · have hclosed : t.isClosed = true := by simpa [endsAnywhere, hcomma] using hends
    have hsame := (Tokens.scan_of_isClosed hclosed htext hscan).2.2
    refine ⟨c, w, htext, ?_, fun s' => ⟨c, w, htext, hsame s'⟩⟩
    by_cases hcomment : t.kind = .blockComment
    · rw [hcomment] at hscan
      obtain ⟨rfl, -, -⟩ := kindAndLength_blockComment (by rw [hscan])
      simp
    · have hbrace : t.isPunct '\x7b' = true ∨ t.isPunct '\x7d' = true ∨ t.isPunct ';' = true := by
        simpa [isClosed, hcomment, or_assoc] using hclosed
      rcases hbrace with hpunct | hpunct | hpunct <;>
        · rw [text_of_isPunct hpunct, List.cons.injEq] at htext
          simp [← htext.1]

/-- A token that ends anywhere does not go on behind its end. -/
theorem ReadsBefore.isUnending_of_endsAnywhere (h : t.ReadsBefore s) (hends : t.endsAnywhere = true) :
    t.isUnending = false := by
  obtain ⟨c, w, htext, hc, hsame⟩ := h.exists_mark hends
  rw [isUnending, Bool.or_eq_false_iff, beq_eq_false_iff_ne, beq_eq_false_iff_ne]
  refine ⟨fun hkind => ?_, fun hlone => ?_⟩
  · rcases (hsame [' ']).line hkind with hnil | hbreak
    · cases hnil
    · cases hbreak
  · rw [hlone, List.cons.injEq] at htext
    rw [← htext.1] at hc
    simp at hc

/-- Whitespace does not go on behind its end. -/
theorem ReadsBefore.isUnending_of_isWhitespace (h : t.ReadsBefore s) (hblank : t.isWhitespace = true) :
    t.isUnending = false := by
  obtain ⟨c, w, htext, hscan⟩ := h
  rw [isWhitespace, beq_iff_eq] at hblank
  have hc := (kindAndLength_whitespace_iff c (w ++ s)).mp ((congrArg Prod.fst hscan).trans hblank)
  rw [isUnending, Bool.or_eq_false_iff, beq_eq_false_iff_ne, beq_eq_false_iff_ne, hblank, htext]
  refine ⟨by decide, fun hlone => ?_⟩
  rw [(List.cons.inj hlone).1] at hc
  cases hc

/-- Behind a token that goes on stands nothing, or the line break that ends it. -/
theorem ReadsBefore.isLineBreak_of_isUnending (h : t.ReadsBefore s) (hends : t.isUnending = true) :
    s = [] ∨ startsWith isLineBreak s = true := by
  rcases Bool.or_eq_true_iff.mp hends with hkind | hlone
  · exact h.line (beq_iff_eq.mp hkind)
  · have hname := h.lone (beq_iff_eq.mp hlone)
    cases s with
    | nil => exact .inl rfl
    | cons c s =>
      have hc : c = '\n' := by simpa [startsName] using hname
      exact .inr (by rw [hc]; rfl)

/-- **A word in front of other whitespace stays**, if it does not go on or its line break stays, and
what is read in front of it finds the same there. -/
theorem ReadsBefore.seam (h : t.ReadsBefore s) (herror : t.kind ≠ .error)
    (hword : t.isWhitespace = false) (hoffers : OffersNoMore s s') (hdigits : OffersNoDigits s s')
    (hname : startsName s' = false)
    (hend : t.isUnending = true → s'.head? = s.head? ∨ s'.head? = some '\n') :
    t.ReadsBefore s' ∧ StartsLike (t.text ++ s) (t.text ++ s') := by
  have hlone (htext : t.text = ['\\']) : startsName ('\\' :: s') = false := by
    rcases hend (by rw [isUnending, htext]; simp) with hhead | hfeed
    · rw [startsName_escape hhead]
      exact h.lone htext
    · obtain ⟨rest, rfl⟩ := List.head?_eq_some_iff.mp hfeed
      rfl
  have hline (hkind : t.kind = .lineComment) : s' = [] ∨ startsWith isLineBreak s' = true := by
    rcases hend (by rw [isUnending, hkind]; rfl) with hhead | hfeed
    · rw [startsWith_eq_of_head? hhead, ← List.head?_eq_none_iff, hhead, List.head?_eq_none_iff]
      exact h.line hkind
    · obtain ⟨rest, rfl⟩ := List.head?_eq_some_iff.mp hfeed
      exact .inr rfl
  have hreads : t.ReadsBefore s' := by
    refine (h.or_goesOn herror hoffers.toOffersNoMoreHere (fun _ => hdigits) (fun hkind => ?_) hline
      hlone).resolve_right ?_
    · rw [isWhitespace, hkind] at hword
      cases hword
    · rintro ⟨c, w, -, -, hsome, -⟩
      rw [hname] at hsome
      cases hsome
  refine ⟨hreads, hoffers.append _, hdigits.append _, ?_, ?_⟩
  · obtain ⟨c, w, htext, -⟩ := h
    rw [htext] at hlone ⊢
    cases w with
    | nil =>
      by_cases hc : c = '\\'
      · subst hc
        exact ⟨fun hnew => (Bool.eq_false_iff.mp (hlone rfl) hnew).elim, by simp [startsName]⟩
      · exact .of_cons hoffers.toOffersNoMoreHere hc
    | cons x w => exact ⟨(startsName_cons_cons c x _ _).trans, id⟩
  · rw [List.head?_append_of_ne_nil _ h.ne_nil, List.head?_append_of_ne_nil _ h.ne_nil]

/-- A token in front of another text that starts with the same character: it is read there, or it is
longer. -/
theorem ReadsBefore.or_grows (h : t.ReadsBefore s) (herror : t.kind ≠ .error)
    (hoffers : OffersNoMore s s') (hdigits : OffersNoDigits s s') (hhead : s'.head? = s.head?) :
    t.ReadsBefore s' ∨ t.isWhitespace = false ∧ t.GrowsBefore s' := by
  have hspace (hkind : t.kind = .whitespace) : startsWith isSpace s' = false :=
    (startsWith_eq_of_head? hhead).trans (h.space hkind)
  have hline (hkind : t.kind = .lineComment) : s' = [] ∨ startsWith isLineBreak s' = true := by
    rw [startsWith_eq_of_head? hhead, ← List.head?_eq_none_iff, hhead, List.head?_eq_none_iff]
    exact h.line hkind
  have hlone (htext : t.text = ['\\']) : startsName ('\\' :: s') = false := by
    rw [startsName_escape hhead]
    exact h.lone htext
  refine (h.or_goesOn herror hoffers.toOffersNoMoreHere (fun _ => hdigits) hspace hline
    hlone).imp_right ?_
  rintro ⟨c, w, htext, -, -, hlong⟩
  refine ⟨Bool.eq_false_iff.mpr fun hblank => ?_, c, w, htext, hlong⟩
  -- whitespace is as long as before
  rw [isWhitespace, beq_iff_eq] at hblank
  obtain ⟨c', w', htext', hscan⟩ := h
  rw [htext, List.cons.injEq] at htext'
  obtain ⟨rfl, rfl⟩ := htext'
  have hc := (kindAndLength_whitespace_iff c (w ++ s)).mp ((congrArg Prod.fst hscan).trans hblank)
  unfold kindAndLength at hscan
  rw [if_pos hc, Prod.mk.injEq] at hscan
  rw [kindAndLength_space hc hscan.2 (hspace hblank)] at hlong
  exact Nat.lt_irrefl _ hlong

/-- **A word that goes on grows** in front of anything but a line break. -/
theorem ReadsBefore.growsBefore_of_isUnending (h : t.ReadsBefore s) (hends : t.isUnending = true)
    (hc : isLineBreak c = false) (rest : Text) : t.GrowsBefore (c :: rest) := by
  obtain ⟨d, w, htext, hscan⟩ := h
  refine ⟨d, w, htext, ?_⟩
  rcases Bool.or_eq_true_iff.mp hends with hkind | hlone
  · -- the characters of the comment and the one behind it are none that ends a line
    rw [beq_iff_eq] at hkind
    rw [hkind] at hscan
    obtain ⟨rfl, hmark, hlong⟩ := kindAndLength_commentMark (.inl (congrArg Prod.fst hscan))
    have hlength := kindAndLength_lineComment (congrArg Prod.fst hscan)
    rw [hscan] at hlong hlength
    have hslash : (w ++ s).head? = some '/' := by
      refine hmark.resolve_right fun hblock => ?_
      rw [kindAndLength_blockComment_eq hblock] at hscan
      split at hscan <;> cases hscan
    have hne : w ≠ [] := by
      rintro rfl
      simp at hlong
    rw [List.head?_append_of_ne_nil _ hne] at hslash
    have hall : ∀ x ∈ '/' :: w, (!isLineBreak x) = true := by
      have hfront : '/' :: w <+: ('/' :: w ++ s).takeWhile (!isLineBreak ·) :=
        List.prefix_of_prefix_length_le (List.prefix_append _ _) (List.takeWhile_prefix _)
          (Nat.le_of_eq hlength)
      exact fun x hx => List.mem_takeWhile_imp (p := (!isLineBreak ·)) (hfront.subset hx)
    rw [kindAndLength_lineComment_eq (by rw [List.head?_append_of_ne_nil _ hne, hslash]),
      ← List.cons_append, List.takeWhile_append_of_pos hall, List.takeWhile_cons_of_pos (by simp [hc])]
    simp only [List.length_append, List.length_cons]
    omega
  · rw [beq_iff_eq, htext, List.cons.injEq] at hlone
    obtain ⟨rfl, rfl⟩ := hlone
    have hfeed : c ≠ '\n' := by
      rintro rfl
      cases hc
    have hname : startsName ('\\' :: c :: rest) = true := by simp [startsName, hfeed]
    have hlong : 2 ≤ nameLength ('\\' :: c :: rest) := by simp [nameLength, hfeed]
    have hle := nameLength_le_nameOrUrl ('\\' :: c :: rest)
    rw [List.nil_append, kindAndLength_of_startsName hname, List.length_nil]
    omega

end Token

/-! ## Words in front of it -/

namespace Tokens

/-- How long the words are. -/
def wordLengths (ts : List Token) : List Nat := (words ts).map fun t => t.text.length

@[simp] theorem wordLengths_append (a b : List Token) :
    wordLengths (a ++ b) = wordLengths a ++ wordLengths b := by
  simp [wordLengths]

variable {t next : Token} {us ts : List Token} {s : Text}

/-- Behind a token that goes on stands no word. -/
theorem Legible.isUnending_of_word (h : Legible (t :: next :: ts)) (hword : next.isWhitespace = false) :
    t.isUnending = false := by
  refine Bool.eq_false_iff.mpr fun hends => ?_
  obtain ⟨hreads, ⟨c, w, htext, hscan⟩, -⟩ := h
  rw [text_cons, htext, List.cons_append] at hreads
  rcases hreads.isLineBreak_of_isUnending hends with hnil | hbreak
  · cases hnil
  · have hblank := (kindAndLength_whitespace_iff c (w ++ text ts)).mpr (isSpace_of_isLineBreak hbreak)
    have hkind : next.kind = .whitespace := by rw [← hblank, hscan]
    rw [Token.isWhitespace, hkind] at hword
    cases hword

theorem wordLengths_cons (ht : t.isWhitespace = false) (ts : List Token) :
    wordLengths (t :: ts) = t.text.length :: wordLengths ts := by
  simp [wordLengths, words, ht, Token.bare]

theorem wordLengths_ofTextAt (place place' : Position) (s : Text) :
    wordLengths (ofTextAt place' s) = wordLengths (ofTextAt place s) := by
  rw [wordLengths, words_ofTextAt place place', wordLengths]

/-- A token that is read in front of a text, and the words of that. -/
theorem words_of_readsBefore (h : t.ReadsBefore s) (place place' : Position) :
    words (ofTextAt place (t.text ++ s)) = words [t] ++ words (ofTextAt place' s) := by
  obtain ⟨c, w, htext, hscan⟩ := h
  rw [htext, List.cons_append, ofTextAt_eq_cons place hscan, ← List.singleton_append, words_append,
    words_ofTextAt place' (place.advance (c :: w))]
  refine congrArg (· ++ _) (words_eq_of_map_bare ?_)
  simp [Token.bare, htext]

/-- **Words in front of a text that starts like the old one** stay. -/
theorem words_of_startsLike (h : Legible (us ++ ts)) (herror : ∀ t ∈ us, t.kind ≠ .error)
    (hlike : StartsLike (text ts) s) (place place' : Position) :
    words (ofTextAt place (text us ++ s)) = words us ++ words (ofTextAt place' s) := by
  induction us generalizing place with
  | nil => exact words_ofTextAt place' place s
  | cons u us ih =>
    rw [List.forall_mem_cons] at herror
    have hfirst : u.ReadsBefore (text us ++ text ts) := by
      rw [← text_append]
      exact h.1
    have hread := hfirst.of_startsLike herror.1 (hlike.append (text us))
    rw [text_cons, List.append_assoc, words_of_readsBefore hread place place', ih h.2 herror.2,
      ← List.append_assoc, ← words_append]
    rfl

/-- **A text in front of which a word grew.** -/
theorem wordLengths_lt_of_growsBefore {s' : Text} (h : t.ReadsBefore s') (hword : t.isWhitespace = false)
    (hgrows : t.GrowsBefore s) (ts : List Token) (place : Position) :
    wordLengths (t :: ts) < wordLengths (ofTextAt place (t.text ++ s)) := by
  obtain ⟨c, w, htext, hlong⟩ := hgrows
  obtain ⟨c', w', htext', hscan⟩ := h
  rw [htext, List.cons.injEq] at htext'
  obtain ⟨rfl, rfl⟩ := htext'
  have hc : isSpace c = false := by
    rw [← Bool.not_eq_true, ← kindAndLength_whitespace_iff c (w ++ s'), hscan]
    simpa [Token.isWhitespace] using hword
  have hle := kindAndLength_le c (w ++ s)
  rw [wordLengths_cons hword, htext, List.cons_append, ofTextAt, wordLengths_cons]
  · refine List.Lex.rel ?_
    rw [List.length_cons, List.length_cons, List.length_take]
    omega
  · rw [Token.isWhitespace, beq_eq_false_iff_ne, Ne, kindAndLength_whitespace_iff, hc]
    exact Bool.false_ne_true

/-- **A text in which a word grew, behind other words**: it grows, or one in front of it does. -/
theorem wordLengths_lt_of_append (h : Legible (us ++ ts)) (herror : ∀ t ∈ us, t.kind ≠ .error)
    (hoffers : OffersNoMore (text ts) s) (hdigits : OffersNoDigits (text ts) s)
    (hhead : s.head? = (text ts).head?) (place place' : Position)
    (hlt : wordLengths ts < wordLengths (ofTextAt place' s)) :
    wordLengths (us ++ ts) < wordLengths (ofTextAt place (text us ++ s)) := by
  induction us generalizing place with
  | nil =>
    rw [text_nil, List.nil_append, List.nil_append, wordLengths_ofTextAt place' place]
    exact hlt
  | cons u us ih =>
    rw [List.forall_mem_cons] at herror
    have hfirst : u.ReadsBefore (text us ++ text ts) := by
      rw [← text_append]
      exact h.1
    have hhead' : (text us ++ s).head? = (text us ++ text ts).head? := by
      cases text us with
      | nil => exact hhead
      | cons => rfl
    rw [text_cons, List.append_assoc, List.cons_append]
    rcases hfirst.or_grows herror.1 (hoffers.append _) (hdigits.append _) hhead' with
      hreads | ⟨hword, hgrows⟩
    · -- the first word stays
      rw [wordLengths, wordLengths, words_of_readsBefore hreads place place', ← List.singleton_append,
        words_append, List.map_append, List.map_append]
      exact List.append_left_lt (ih h.2 herror.2 place')
    · exact wordLengths_lt_of_growsBefore hfirst hword hgrows (us ++ ts) place

end Tokens

end SheetLint
