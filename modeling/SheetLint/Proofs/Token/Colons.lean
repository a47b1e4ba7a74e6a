import SheetLint.Proofs.Token.Replacement

/-!
# Other whitespace around colons

Whitespace in front of a colon may be dropped and a single space put behind the colon. Nothing goes
on with a colon, a backslash apart, which escapes it. So the text of the tokens then is read as
these tokens exactly when no whitespace is dropped behind a backslash.

A list of tokens is *spaced* when its whitespace is told from its words by the characters. Two
spaced lists with one text and the same words are the same, so a text has the words of a spaced list
exactly when it is read as that list.

Results:
* `Tokens.Spaced.map_bare_eq`: what words a text has is how it is read.
* `Tokens.legible_iff_words`: when a text has the words of a list.
* `Tokens.words_tidied_iff`: when the words stay, with other whitespace around colons.
-/

namespace SheetLint

open Scan

/-! ## Lists that their words and their text determine -/

namespace Tokens

/-- Whether whitespace is a run of space characters with none behind it, and nothing else starts
with one. -/
def Spaced : List Token → Prop
  | [] => True
  | t :: ts =>
    t.text ≠ [] ∧ (t.isWhitespace = true → t.text.IsBlank ∧ startsWith isSpace (text ts) = false)
      ∧ (t.isWhitespace = false → startsWith isSpace t.text = false) ∧ Spaced ts

variable {ts us : List Token} {t u : Token}

theorem Legible.spaced (h : Legible ts) : Spaced ts := by
  induction ts with
  | nil => trivial
  | cons t ts ih =>
    obtain ⟨hreads, hlater⟩ := h
    refine ⟨hreads.ne_nil, fun hblank => ⟨hreads.isBlank hblank, hreads.space (beq_iff_eq.mp hblank)⟩,
      fun hword => Bool.eq_false_iff.mpr fun hspace => ?_, ih hlater⟩
    rw [hreads.isSpace_head_iff.mp hspace] at hword
    cases hword

namespace Spaced

/-- Whitespace is what starts with a space. -/
theorem startsWith_eq (h : Spaced (t :: ts)) : startsWith isSpace (text (t :: ts)) = t.isWhitespace := by
  obtain ⟨hne, hblank, hword, -⟩ := h
  rw [text_cons, startsWith_append hne]
  cases ht : t.isWhitespace with
  | true =>
    obtain ⟨c, w, htext⟩ := List.exists_cons_of_ne_nil hne
    rw [htext]
    exact (hblank ht).1 c (by simp [htext])
  | false => exact hword ht

/-- A whitespace token is the run of space characters at the front. -/
theorem text_eq (h : Spaced (t :: ts)) (ht : t.isWhitespace = true) :
    t.text = (text (t :: ts)).takeWhile isSpace := by
  obtain ⟨hblank, hend⟩ := h.2.1 ht
  rw [text_cons, List.takeWhile_append_of_pos hblank]
  cases htext : text ts with
  | nil => simp
  | cons c s =>
    rw [htext] at hend
    have hc : isSpace c = false := hend
    rw [List.takeWhile_cons_of_neg (Bool.eq_false_iff.mp hc), List.append_nil]

/-- **What words a text has is how it is read.** -/
theorem map_bare_eq (hts : Spaced ts) (hus : Spaced us) (htext : text us = text ts)
    (hwords : words us = words ts) : us.map Token.bare = ts.map Token.bare := by
  induction ts generalizing us with
  | nil =>
    cases us with
    | nil => rfl
    | cons u us => exact absurd (List.append_eq_nil_iff.mp htext).1 hus.1
  | cons t ts ih =>
    cases us with
    | nil => exact absurd (List.append_eq_nil_iff.mp htext.symm).1 hts.1
    | cons u us =>
      have hsame : u.isWhitespace = t.isWhitespace := by
        rw [← hus.startsWith_eq, ← hts.startsWith_eq, htext]
      -- the first tokens are the same whitespace, or the same word
      obtain ⟨hbare, hlater⟩ : u.bare = t.bare ∧ words us = words ts := by
        cases ht : t.isWhitespace with
        | true =>
          rw [ht] at hsame
          have hkind : u.kind = t.kind := (beq_iff_eq.mp hsame).trans (beq_iff_eq.mp ht).symm
          refine ⟨?_, by simpa [words, hsame, ht] using hwords⟩
          rw [Token.bare, Token.bare, hkind, hus.text_eq hsame, hts.text_eq ht, htext]
        | false =>
          rw [ht] at hsame
          simpa [words, hsame, ht] using hwords
      have hfirst : u.text = t.text := (Token.mk.inj hbare).2.1
      rw [text_cons, text_cons, hfirst, List.append_cancel_left_eq] at htext
      rw [List.map_cons, List.map_cons, hbare, ih hts.2.2.2 hus.2.2.2 htext hlater]

end Spaced

/-- **A text has the words of a spaced list** exactly when it is read as that list. -/
theorem legible_iff_words (h : Spaced ts) : Legible ts ↔ words (ofText (text ts)) = words ts := by
  constructor
  · exact fun hlegible => words_eq_of_map_bare ((legible_iff .start).mp hlegible)
  · intro hwords
    refine (legible_iff .start).mpr ?_
    exact h.map_bare_eq (legible_ofText _).spaced (text_ofText _) hwords

end Tokens

/-! ## Tokens in front of a colon -/

section

variable {t : Token} {s s' : Text}

/-- A colon is a word by itself. -/
theorem Token.isWord_of_colon (h : t.isPunct ':' = true) :
    t.isWhitespace = false ∧ t.isUnending = false := by
  have htext := text_of_isPunct h
  rw [isPunct, Bool.and_eq_true, beq_iff_eq] at h
  constructor
  · rw [isWhitespace, h.1]
    rfl
  · simp [isUnending, h.1, htext]

/-- A colon is read in front of anything. -/
theorem Token.readsBefore_colon (h : t.isPunct ':' = true) (s : Text) : t.ReadsBefore s := by
  refine ⟨':', [], text_of_isPunct h, ?_⟩
  rw [isPunct, Bool.and_eq_true, beq_iff_eq] at h
  rw [h.1]
  simp [kindAndLength, isSpace, startsMagnitude, startsName, isNameStart, isWide, isPunctuation]

theorem Scan.TakesPlace.of_colon (s s' : Text) : TakesPlace (':' :: s) (':' :: s') :=
  .of_cons rfl (by decide) s s'

/-- What a word is told of a text behind it that starts with something else. -/
structure Scan.Parts (s s' : Text) : Prop where
  offers : OffersNoMore s s'
  digits : OffersNoDigits s s'
  name : startsName s' = false

/-- **A colon offers nothing** where whitespace stood in front of it. -/
theorem Scan.Parts.of_colon (hs : startsWith isSpace s = true) (hdrop : (s.dropWhile isSpace).head? = some ':')
    (s' : Text) : Parts s (':' :: s') := by
  have hescape : s.head? ≠ some '\\' := by
    cases s with
    | nil => simp
    | cons c s =>
      rintro ⟨⟩
      cases hs
  have hquote : startsWith isQuote (s.dropWhile isSpace) = false := by
    obtain ⟨more, hmore⟩ := List.head?_eq_some_iff.mp hdrop
    rw [hmore]
    rfl
  have hmark : ∀ c ∈ ['%', '/', '*', '\x7b', '('], ':' ≠ c := by simp
  refine ⟨⟨.of_head hescape rfl (by decide) (by decide) hmark s', hquote.symm⟩, ?_, rfl⟩
  exact ⟨Bool.noConfusion, Bool.noConfusion, Bool.noConfusion⟩

/-- A space offers nothing where other whitespace stood. -/
theorem Scan.Parts.of_space {blank : Text} (hblank : blank.IsBlank) (hne : blank ≠ [])
    (hs : startsWith isSpace s = false) (hhead : s'.head? = s.head?) :
    Parts (blank ++ s) (' ' :: s') := by
  have hspace : Text.IsBlank [' '] := fun c hc => by rw [List.mem_singleton.mp hc]; rfl
  obtain ⟨c, t, heq, hbar, hoffers, hdigits⟩ :=
    offers_blank hblank hspace hs hhead (fun hnil => absurd hnil hne) (by simp)
  rw [List.singleton_append] at heq
  rw [heq]
  exact ⟨hoffers, hdigits, startsName_of_isBar hbar t⟩

/-- A word in front of a text that starts with something else. -/
theorem Token.ReadsBefore.of_parts (h : t.ReadsBefore s) (herror : t.kind ≠ .error)
    (hword : t.isWhitespace = false) (hends : t.isUnending = false) (hparts : Parts s s') :
    t.ReadsBefore s' ∧ TakesPlace (t.text ++ s) (t.text ++ s') := by
  obtain ⟨hreads, hlike⟩ := h.seam herror hword hparts.offers hparts.digits hparts.name fun hgoes => by
    rw [hends] at hgoes
    cases hgoes
  exact ⟨hreads, hlike.takesPlace⟩

/-- A colon is no part of what goes on in front of it, a backslash and a line comment apart. -/
theorem Token.ReadsBefore.isUnending_of_colon (h : t.ReadsBefore (':' :: s)) : t.isUnending = false := by
  refine Bool.eq_false_iff.mpr fun hends => ?_
  rcases h.isLineBreak_of_isUnending hends with hnil | hbreak
  · cases hnil
  · cases hbreak

end

/-! ## Other whitespace around colons -/

/-- A single space. -/
def Token.space : Token := ⟨.whitespace, [' '], default⟩

/-- What becomes of a token: it is dropped, or a single space takes its place or is put behind it, or
it stays. -/
def Token.tidied (dropped spaced : Token → Bool) (t : Token) : List Token :=
  if dropped t then []
  else if spaced t then if t.isWhitespace then [space] else [t, space]
  else [t]

section

variable {dropped spaced : Token → Bool} {t : Token}

theorem Token.tidied_of_dropped (h : dropped t = true) : t.tidied dropped spaced = [] := if_pos h

theorem Token.tidied_of_kept (hdropped : dropped t = false) (hspaced : spaced t = false) :
    t.tidied dropped spaced = [t] := by
  simp [tidied, hdropped, hspaced]

theorem Token.tidied_of_blank (hdropped : dropped t = false) (hspaced : spaced t = true)
    (hblank : t.isWhitespace = true) : t.tidied dropped spaced = [space] := by
  simp [tidied, hdropped, hspaced, hblank]

theorem Token.tidied_of_word (hdropped : dropped t = false) (hword : t.isWhitespace = false) :
    t.tidied dropped spaced = t :: if spaced t then [space] else [] := by
  cases hspaced : spaced t <;> simp [tidied, hdropped, hspaced, hword]

end

namespace Tokens

variable {dropped spaced : Token → Bool} {ts : List Token} {t next : Token}

/-- What the neighbours of tokens are that are dropped, or of those that a space takes the place of or is
put behind. -/
structure Neighbours (dropped spaced : Token → Bool) (t next : Token) : Prop where
  colon : dropped t = true → next.isPunct ':' = true
  word : spaced t = true → next.isWhitespace = false
  behind : dropped next = true → t.isWhitespace = false
  behindColon : spaced next = true → next.isWhitespace = true → t.isPunct ':' = true

/-- Whether tokens may be tidied: whitespace in front of colons is dropped, and a space put behind
colons that stand in front of words. -/
structure Tidies (dropped spaced : Token → Bool) (ts : List Token) : Prop where
  blank : ∀ t ∈ ts, dropped t = true → t.isWhitespace = true
  colon : ∀ t ∈ ts, spaced t = true → t.isWhitespace = true ∨ t.isPunct ':' = true
  last : ∀ t ∈ ts.getLast?, dropped t = false ∧ spaced t = false
  neighbours : ts.IsChain (Neighbours dropped spaced)

namespace Tidies

theorem tail (h : Tidies dropped spaced (t :: ts)) : Tidies dropped spaced ts := by
  refine ⟨(List.forall_mem_cons.mp h.blank).2, (List.forall_mem_cons.mp h.colon).2, fun u hu => ?_,
    h.neighbours.of_cons⟩
  refine h.last u ?_
  rw [List.getLast?_cons, hu]
  rfl

/-- Behind a token that does not stay stands another one. -/
theorem exists_next (h : Tidies dropped spaced (t :: ts)) (ht : dropped t = true ∨ spaced t = true) :
    ∃ next more, ts = next :: more ∧ Neighbours dropped spaced t next := by
  cases ts with
  | nil =>
    obtain ⟨hdropped, hspaced⟩ := h.last t rfl
    simp [hdropped, hspaced] at ht
  | cons next more => exact ⟨next, more, rfl, (List.isChain_cons_cons.mp h.neighbours).1⟩

/-- A word stays, maybe with a space behind it. -/
theorem exists_text_word (h : Tidies dropped spaced (t :: ts)) (hword : t.isWhitespace = false) :
    ∃ more, text ((t :: ts).flatMap (Token.tidied dropped spaced)) = t.text ++ more := by
  have hstays : dropped t = false := by
    refine Bool.eq_false_iff.mpr fun hdropped => ?_
    rw [h.blank t List.mem_cons_self hdropped] at hword
    cases hword
  rw [List.flatMap_cons, text_append, Token.tidied, hstays, hword]
  cases spaced t with
  | true => exact ⟨_, by simp [text_cons]; rfl⟩
  | false => exact ⟨_, by simp [text_cons]; rfl⟩

theorem startsWith_isSpace (h : Tidies dropped spaced (t :: ts)) (hword : t.isWhitespace = false)
    (hspaced : Spaced (t :: ts)) :
    startsWith isSpace (text ((t :: ts).flatMap (Token.tidied dropped spaced))) = false := by
  obtain ⟨more, hmore⟩ := h.exists_text_word hword
  rw [hmore, startsWith_append hspaced.1]
  exact hspaced.2.2.1 hword

/-- A space is put in front of a word. -/
theorem startsWith_of_spaced (h : Tidies dropped spaced (t :: ts)) (hspaced : spaced t = true)
    (hts : Spaced ts) : startsWith isSpace (text (ts.flatMap (Token.tidied dropped spaced))) = false := by
  obtain ⟨next, more, rfl, hnext⟩ := h.exists_next (.inr hspaced)
  exact h.tail.startsWith_isSpace (hnext.word hspaced) hts

/-- The words are the old ones. -/
theorem words_eq (h : Tidies dropped spaced ts) :
    words (ts.flatMap (Token.tidied dropped spaced)) = words ts := by
  induction ts with
  | nil => rfl
  | cons t ts ih =>
    have hspace : words [Token.space] = [] := rfl
    have hblank (ht : t.isWhitespace = true) : words [t] = [] :=
      words_of_isSpace fun u hu => by rwa [List.mem_singleton.mp hu]
    have hone : words (t.tidied dropped spaced) = words [t] := by
      unfold Token.tidied
      split
      · rename_i hdropped
        exact (hblank (h.blank t List.mem_cons_self hdropped)).symm
      · split
        · split
          · rename_i ht
            rw [hspace, hblank ht]
          · rw [← List.singleton_append, words_append, hspace, List.append_nil]
        · rfl
    rw [List.flatMap_cons, words_append, hone, ih h.tail, ← words_append]
    rfl

/-- Whitespace and words are told apart as before. -/
theorem spaced_flatMap (h : Tidies dropped spaced ts) (hts : Spaced ts) :
    Spaced (ts.flatMap (Token.tidied dropped spaced)) := by
  induction ts with
  | nil => trivial
  | cons t ts ih =>
    have hlater := ih h.tail hts.2.2.2
    have hspace (hspaced : spaced t = true) :
        Spaced (Token.space :: ts.flatMap (Token.tidied dropped spaced)) := by
      refine ⟨by simp [Token.space], fun _ => ⟨?_, h.startsWith_of_spaced hspaced hts.2.2.2⟩,
        Bool.noConfusion, hlater⟩
      exact fun c hc => by rw [List.mem_singleton.mp hc]; rfl
    rw [List.flatMap_cons, Token.tidied]
    split
    · exact hlater
    · split
      · rename_i hspaced
        split
        · exact hspace hspaced
        · rename_i hword
          exact ⟨hts.1, fun hblank => absurd hblank hword, hts.2.2.1, hspace hspaced⟩
      · refine ⟨hts.1, fun hblank => ⟨(hts.2.1 hblank).1, ?_⟩, hts.2.2.1, hlater⟩
        cases ts with
        | nil => rfl
        | cons next more =>
          have hword : next.isWhitespace = false := by
            rw [← hts.2.2.2.startsWith_eq]
            exact (hts.2.1 hblank).2
          exact h.tail.startsWith_isSpace hword hts.2.2.2

end Tidies

/-- Whether no whitespace is dropped behind a word that goes on there. -/
def DropsFreely (dropped : Token → Bool) (ts : List Token) : Prop :=
  ts.IsChain fun t next => dropped next = true → t.isUnending = false

/-- What the tokens in front of tidied ones find: a text that may take the place of the old one, or one
that starts with something else where whitespace stood that does not stay. -/
def TidiesFront (dropped spaced : Token → Bool) (ts : List Token) (s : Text) : Prop :=
  TakesPlace (text ts) s ∨ ∃ t more, ts = t :: more ∧ t.isWhitespace = true
    ∧ (dropped t = true ∨ spaced t = true) ∧ Parts (text ts) s

/-- Where whitespace is dropped, a text starts with the colon behind it. -/
theorem Tidies.parts_of_dropped (h : Tidies dropped spaced (t :: ts)) (hlegible : Legible (t :: ts))
    (hdropped : dropped t = true) :
    Parts (text (t :: ts)) (text (ts.flatMap (Token.tidied dropped spaced))) := by
  obtain ⟨next, more, rfl, hnext⟩ := h.exists_next (.inl hdropped)
  have hblank := h.blank t List.mem_cons_self hdropped
  have hcolon := hnext.colon hdropped
  obtain ⟨rest, hrest⟩ := h.tail.exists_text_word (Token.isWord_of_colon hcolon).1
  have hcut := dropWhile_blank_append (hlegible.1.isBlank hblank)
    (hlegible.1.space (beq_iff_eq.mp hblank))
  rw [hrest, Token.text_of_isPunct hcolon]
  refine .of_colon (hlegible.spaced.startsWith_eq.trans hblank) ?_ rest
  rw [text_cons, hcut, text_cons, Token.text_of_isPunct hcolon]
  rfl

/-- A space in the place of other whitespace stands in front of the word behind that. -/
theorem Tidies.parts_of_spaced (h : Tidies dropped spaced (t :: ts)) (hlegible : Legible (t :: ts))
    (hspaced : spaced t = true) (hblank : t.isWhitespace = true) :
    Parts (text (t :: ts)) (' ' :: text (ts.flatMap (Token.tidied dropped spaced))) := by
  obtain ⟨next, more, rfl, hnext⟩ := h.exists_next (.inr hspaced)
  obtain ⟨rest, hrest⟩ := h.tail.exists_text_word (hnext.word hspaced)
  have hhead : (text ((next :: more).flatMap (Token.tidied dropped spaced))).head? =
      (text (next :: more)).head? := by
    rw [hrest, text_cons, List.head?_append_of_ne_nil _ hlegible.2.1.ne_nil,
      List.head?_append_of_ne_nil _ hlegible.2.1.ne_nil]
  exact .of_space (hlegible.1.isBlank hblank) hlegible.1.ne_nil
    (hlegible.1.space (beq_iff_eq.mp hblank)) hhead

/-- A token that stays is read in front of what becomes of those behind it. -/
theorem Tidies.readsBefore_of_front {s : Text} (h : Tidies dropped spaced (t :: ts))
    (hread : t.ReadsBefore (text ts)) (herror : t.kind ≠ .error) (hfree : DropsFreely dropped (t :: ts))
    (hfront : TidiesFront dropped spaced ts s) :
    t.ReadsBefore s ∧ TakesPlace (t.text ++ text ts) (t.text ++ s) := by
  rcases hfront with hplace | ⟨next, more, rfl, hblank, hgoes, hparts⟩
  · exact ⟨hread.of_takesPlace herror hplace, hplace.append t.text⟩
  · obtain ⟨hnext, -⟩ := List.isChain_cons_cons.mp h.neighbours
    obtain ⟨hword, hends⟩ : t.isWhitespace = false ∧ t.isUnending = false := by
      rcases hgoes with hgoes | hgoes
      · exact ⟨hnext.behind hgoes, (List.isChain_cons_cons.mp hfree).1 hgoes⟩
      · exact Token.isWord_of_colon (hnext.behindColon hgoes hblank)
    exact hread.of_parts herror hword hends hparts

/-- **Tidied tokens are read as such** where no whitespace is dropped behind a word that goes on. -/
theorem legible_tidied (hlegible : Legible ts) (herror : ∀ t ∈ ts, t.kind ≠ .error)
    (h : Tidies dropped spaced ts) (hfree : DropsFreely dropped ts) :
    Legible (ts.flatMap (Token.tidied dropped spaced))
      ∧ TidiesFront dropped spaced ts (text (ts.flatMap (Token.tidied dropped spaced))) := by
  induction ts with
  | nil => exact ⟨trivial, .inl (StartsLike.refl []).takesPlace⟩
  | cons t ts ih =>
    rw [List.forall_mem_cons] at herror
    obtain ⟨hnew, hfront⟩ := ih hlegible.2 herror.2 h.tail hfree.of_cons
    have hspace (hspaced : spaced t = true) :
        Legible (Token.space :: ts.flatMap (Token.tidied dropped spaced)) := by
      refine ⟨Token.readsBefore_blank (by simp) ?_ ?_ default, hnew⟩
      · exact fun c hc => by rw [List.mem_singleton.mp hc]; rfl
      · exact h.startsWith_of_spaced hspaced hlegible.2.spaced
    rw [List.flatMap_cons]
    cases hdropped : dropped t with
    | true =>
      rw [Token.tidied_of_dropped hdropped, List.nil_append]
      exact ⟨hnew, .inr ⟨t, ts, rfl, h.blank t List.mem_cons_self hdropped, .inl hdropped,
        h.parts_of_dropped hlegible hdropped⟩⟩
    | false =>
      cases hspaced : spaced t with
      | true =>
        cases hblank : t.isWhitespace with
        | true =>
          rw [Token.tidied_of_blank hdropped hspaced hblank]
          exact ⟨hspace hspaced, .inr ⟨t, ts, rfl, hblank, .inr hspaced,
            h.parts_of_spaced hlegible hspaced hblank⟩⟩
        | false =>
          have hcolon : t.isPunct ':' = true := by
            simpa [hblank] using h.colon t List.mem_cons_self hspaced
          rw [Token.tidied_of_word hdropped hblank, hspaced, if_pos rfl]
          refine ⟨⟨(Token.readsBefore_colon hcolon _).congr rfl rfl, hspace hspaced⟩, .inl ?_⟩
          rw [List.cons_append, text_cons, text_cons, Token.text_of_isPunct hcolon]
          exact .of_colon _ _
      | false =>
        obtain ⟨hreads, hplace⟩ := h.readsBefore_of_front hlegible.1 herror.1 hfree hfront
        rw [Token.tidied_of_kept hdropped hspaced]
        exact ⟨⟨hreads.congr rfl rfl, hnew⟩, .inl hplace⟩

/-- Where whitespace is dropped, the word in front of it stands in front of the colon. -/
theorem dropsFreely_of_legible (h : Tidies dropped spaced ts)
    (hnew : Legible (ts.flatMap (Token.tidied dropped spaced))) : DropsFreely dropped ts := by
  induction ts with
  | nil => exact List.isChain_nil
  | cons t ts ih =>
    rw [List.flatMap_cons] at hnew
    refine List.isChain_cons.mpr ⟨fun next hnext hdropped => ?_, ih h.tail hnew.of_append⟩
    obtain ⟨more, rfl⟩ := List.head?_eq_some_iff.mp hnext
    obtain ⟨colon, rest, rfl, hcolon⟩ := h.tail.exists_next (.inl hdropped)
    have hneighbours := (List.isChain_cons_cons.mp h.neighbours).1
    have hword := hneighbours.behind hdropped
    have hstays : dropped t = false := by
      refine Bool.eq_false_iff.mpr fun ht => ?_
      rw [h.blank t List.mem_cons_self ht] at hword
      cases hword
    have halone : spaced t = false := by
      refine Bool.eq_false_iff.mpr fun ht => ?_
      have hnext := hneighbours.word ht
      rw [h.tail.blank next List.mem_cons_self hdropped] at hnext
      cases hnext
    obtain ⟨back, hback⟩ :=
      h.tail.tail.exists_text_word (Token.isWord_of_colon (hcolon.colon hdropped)).1
    rw [Token.tidied_of_kept hstays halone, List.flatMap_cons, Token.tidied_of_dropped hdropped,
      List.nil_append] at hnew
    have hread : t.ReadsBefore (text ((colon :: rest).flatMap (Token.tidied dropped spaced))) :=
      hnew.1
    rw [hback, Token.text_of_isPunct (hcolon.colon hdropped)] at hread
    exact hread.isUnending_of_colon

/-- **When the words stay, with other whitespace around colons**: when no whitespace is dropped behind a
word that goes on there. -/
theorem words_tidied_iff (hlegible : Legible ts) (herror : ∀ t ∈ ts, t.kind ≠ .error)
    (h : Tidies dropped spaced ts) :
    words (ofText (text (ts.flatMap (Token.tidied dropped spaced)))) = words ts
      ↔ DropsFreely dropped ts := by
  rw [← h.words_eq, ← legible_iff_words (h.spaced_flatMap hlegible.spaced)]
  exact ⟨dropsFreely_of_legible h, fun hfree => (legible_tidied hlegible herror h hfree).1⟩

end Tokens

end SheetLint
