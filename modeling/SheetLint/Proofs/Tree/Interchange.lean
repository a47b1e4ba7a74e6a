import SheetLint.Proofs.Token.Cuts
import SheetLint.Proofs.Token.Seams
import SheetLint.Proofs.Tree.Closed
import SheetLint.Proofs.Tree.Semicolons
import SheetLint.Proofs.Tree.Siblings

/-!
# Statements that take the place of others

A statement that ends with a semicolon is read as it wherever it stands. So one of them may take the
place of another: the pieces in front of it end closed, or they would go on to a closing brace; and
the pieces behind it find the same whitespace and braces in front of them. The text of the pieces
that stand side by side then is read as these pieces.

Results:
* `Statement.IsClosed.split_cons`, `Statement.IsClosed.legible_append`: a statement with semicolon is
  read in front of anything.
* `Piece.split_settled`: tokens fall into the same pieces, some of their statements exchanged.
* `Tokens.legible_settled`: the text of these tokens is read as they are.
-/

namespace SheetLint

open Scan Tokens

/-! ## Legible tokens in front of others -/

/-- A line comment is read in front of any line break. -/
theorem Token.ReadsBefore.of_lineBreak {t : Token} {s s' : Text} (h : t.ReadsBefore s)
    (hkind : t.kind = .lineComment) (hbreak : startsWith isLineBreak s' = true) :
    t.ReadsBefore s' ∧ t.text.head? = some '/' := by
  obtain ⟨c, w, htext, hscan⟩ := h
  obtain ⟨d, s', rfl, hd⟩ := exists_eq_cons_of_startsWith hbreak
  rw [hkind] at hscan
  obtain ⟨rfl, -, -⟩ := kindAndLength_commentMark (.inl (by rw [hscan]))
  refine ⟨⟨'/', w, htext, ?_⟩, by rw [htext]; rfl⟩
  rw [hkind]
  exact kindAndLength_lineComment_stop hscan hd

namespace Tokens

variable {front space ts ts' : List Token}

/-- Tokens in front of some that start like the old ones. -/
theorem Legible.append_of_startsLike (h : Legible (front ++ ts)) (herror : ∀ t ∈ front, t.kind ≠ .error)
    (hlike : StartsLike (text ts) (text ts')) (hts' : Legible ts') : Legible (front ++ ts') := by
  induction front with
  | nil => exact hts'
  | cons t front ih =>
    rw [List.forall_mem_cons] at herror
    refine ⟨?_, ih h.2 herror.2⟩
    have hread : t.ReadsBefore (text (front ++ ts)) := h.1
    change t.ReadsBefore (text (front ++ ts'))
    rw [text_append] at hread ⊢
    exact hread.of_startsLike herror.1 (hlike.append (text front))

/-- **Tokens that end closed, in front of any others**, of which a line break comes first behind a line
comment. -/
theorem Legible.append_of_endsClosed (h : Legible (front ++ ts)) (herror : ∀ t ∈ front, t.kind ≠ .error)
    (hclosed : EndsClosed front)
    (hbreak : (∃ last ∈ front.getLast?, last.kind = .lineComment) →
      startsWith isLineBreak (text ts') = true) (hts' : Legible ts') : Legible (front ++ ts') := by
  obtain ⟨last, hlast, hends⟩ := hclosed
  obtain ⟨before, rfl⟩ := List.getLast?_eq_some_iff.mp hlast
  rw [List.append_assoc] at h ⊢
  have hread : last.ReadsBefore (text ts) := h.of_append.1
  -- the last token starts with a mark, and is read in front of the others
  obtain ⟨hnew, c, w, htext, hc⟩ : last.ReadsBefore (text ts')
      ∧ ∃ c w, last.text = c :: w ∧ c ∈ ['/', '\x7b', '\x7d', ';', ','] := by
    by_cases hline : last.kind = .lineComment
    · obtain ⟨hnew, hhead⟩ := hread.of_lineBreak hline (hbreak ⟨last, hlast, hline⟩)
      obtain ⟨w, htext⟩ := List.head?_eq_some_iff.mp hhead
      exact ⟨hnew, '/', w, htext, by simp⟩
    · have hanywhere : last.endsAnywhere = true := by
        rw [Token.endsAnywhere, hends.resolve_right hline]
        rfl
      obtain ⟨c, w, htext, hc, hnew⟩ := hread.exists_mark hanywhere
      exact ⟨hnew _, c, w, htext, hc⟩
  refine h.append_of_startsLike (fun t ht => herror t (List.mem_append_left _ ht)) ?_ ⟨hnew, hts'⟩
  rw [List.singleton_append, List.singleton_append, text_cons, text_cons, htext, List.cons_append,
    List.cons_append]
  exact .of_mark hc _ _

/-- A text that starts with a word starts with no whitespace. -/
theorem Legible.startsWith_isSpace (h : Legible ts) (hword : StartsWithWord ts) :
    startsWith isSpace (text ts) = false := by
  obtain ⟨first, hfirst, hword⟩ := hword
  obtain ⟨more, rfl⟩ := List.head?_eq_some_iff.mp hfirst
  rw [text_cons, startsWith_append h.1.ne_nil]
  exact Bool.eq_false_iff.mpr fun hblank => by simp [h.1.isSpace_head_iff.mp hblank] at hword

/-- Whitespace in front of others that start with a word. -/
theorem Legible.space_append (h : Legible (space ++ ts)) (hspace : IsSpace space)
    (hword : StartsWithWord ts') (hts' : Legible ts') : Legible (space ++ ts') := by
  induction space with
  | nil => exact hts'
  | cons t space ih =>
    obtain ⟨ht, hspace⟩ := List.forall_mem_cons.mp hspace
    refine ⟨?_, ih h.2 hspace⟩
    cases space with
    | nil =>
      exact (Token.readsBefore_blank h.1.ne_nil (h.1.isBlank ht) (hts'.startsWith_isSpace hword)
        t.span).congr (beq_iff_eq.mp ht) rfl
    | cons u space =>
      -- whitespace behind whitespace would belong to it
      have hblank := (List.forall_mem_cons.mp hspace).1
      rw [Legible.isWhitespace_of_space h ht] at hblank
      cases hblank

end Tokens

/-! ## Statements with semicolon -/

/-- Whether a statement ends with a semicolon and its tokens are read as it. -/
structure Statement.IsClosed (s : Statement) : Prop where
  word : StartsWithWord s.tokens
  readUpTo : ∃ first tail semicolon, Piece.ReadUpTo s first tail semicolon
    ∧ Tokens.Closed (first :: tail) semicolon

namespace Statement.IsClosed

variable {s : Statement} {leading ts later : List Token}

/-- **A statement with semicolon is a piece of any tokens that it is in front of.** -/
theorem split_cons (h : s.IsClosed) (hleading : IsSpace leading) (later : List Token) :
    Piece.split (leading ++ (s.tokens ++ later)) =
      (⟨leading, .statement s⟩ :: (Piece.split later).1, (Piece.split later).2) := by
  obtain ⟨first, tail, semicolon, hread, -⟩ := h.readUpTo
  obtain ⟨first', hfirst, hword⟩ := h.word
  rw [hread.tokens_eq] at hfirst ⊢
  cases hfirst
  have hends : Piece.Ends first (tail ++ [semicolon]) := .inr <| by
    rw [← List.cons_append, hread.length_eq]
    simp
  have hmore := (Piece.read_append hends later).trans hread.read_eq
  exact Piece.split_cons hleading hword hmore hread.tokens_eq

/-- **Its text is read as it** in front of any other. -/
theorem legible_append (h : s.IsClosed) (herror : ∀ t ∈ s.tokens, t.kind ≠ .error)
    (hts : Legible ts) : Legible (s.tokens ++ ts) := by
  obtain ⟨first, tail, semicolon, hread, hclosed⟩ := h.readUpTo
  obtain ⟨place, after, hstands⟩ := hclosed.stands
  have hlegible := legible_of_ofTextAt hstands
  rw [List.append_cons, ← hread.tokens_eq] at hlegible
  refine hlegible.append_of_endsClosed herror ?_ ?_ hts
  · rw [hread.tokens_eq]
    exact endsClosed_of_isPunct (.inr (.inr rfl)) hclosed.isPunct
  · rw [hread.tokens_eq]
    rintro ⟨last, hlast, hline⟩
    rw [List.getLast?_concat] at hlast
    cases hlast
    have hpunct := hclosed.isPunct
    rw [Token.isPunct, hline] at hpunct
    cases hpunct

end Statement.IsClosed

/-! ## What stands in front of pieces -/

/-- Whether tokens start as those do that a piece is the first of, as far as it can be told in front of
them: with the same whitespace and closing brace, or with a line break. -/
structure Piece.Fronts (p : Piece) (ts : List Token) : Prop where
  closing : ∀ brace, p.body = .closing brace → ∃ more, ts = p.leading ++ brace :: more
  line : startsWith isLineBreak (text p.leading) = true → startsWith isLineBreak (text ts) = true

section

variable {p : Piece} {ps : List Piece} {front trailing ts ts' : List Token}

/-- Behind a line comment a piece starts with a line break. -/
theorem Piece.startsWith_leading {last : Token} (hsplit : Piece.split ts = (p :: ps, trailing))
    (hread : Legible (last :: ts)) (hline : last.kind = .lineComment) :
    startsWith isLineBreak (text p.leading) = true := by
  obtain ⟨first, tail, later, rfl, -, hfirst, -, -, -⟩ := Piece.exists_of_split_eq_cons hsplit
  have hword : first.ReadsBefore (text (tail ++ later)) := hread.2.readsBefore
  have hbreak := (hread.1.line hline).resolve_left fun hnil => by
    rw [text_append, text_cons] at hnil
    exact hword.ne_nil (List.append_eq_nil_iff.mp (List.append_eq_nil_iff.mp hnil).2).1
  cases hleading : p.leading with
  | nil =>
    -- the line break would be the first word
    rw [hleading, List.nil_append, text_cons, startsWith_append hword.ne_nil] at hbreak
    rw [hword.isSpace_head_iff.mp (isSpace_of_isLineBreak hbreak)] at hfirst
    cases hfirst
  | cons t leading =>
    have hne : t.text ≠ [] := by
      rw [hleading] at hread
      exact hread.2.1.ne_nil
    rw [hleading, List.cons_append, text_cons, startsWith_append hne] at hbreak
    rwa [text_cons, startsWith_append hne]

/-- **Tokens in front of a piece that stands apart from them**, and of others that start as it does. -/
theorem Tokens.Legible.append_of_fronts (h : Legible (front ++ ts))
    (herror : ∀ t ∈ front, t.kind ≠ .error) (hsplit : Piece.split ts = (p :: ps, trailing))
    (hapart : Apart front p.body.tokens) (hfronts : p.Fronts ts') (hts' : Legible ts') :
    Legible (front ++ ts') := by
  rcases hapart with hclosed | ⟨brace, hhead, hbrace⟩
  · refine h.append_of_endsClosed herror hclosed ?_ hts'
    rintro ⟨last, hlast, hline⟩
    obtain ⟨before, rfl⟩ := List.getLast?_eq_some_iff.mp hlast
    rw [List.append_assoc] at h
    exact hfronts.line (Piece.startsWith_leading hsplit h.of_append hline)
  · -- nothing sees behind the brace
    have hclosing := Piece.eq_closing_of_isPunct hsplit hhead hbrace
    obtain ⟨first, tail, later, rfl, -, -, htokens, -, -⟩ := Piece.exists_of_split_eq_cons hsplit
    obtain ⟨more, rfl⟩ := hfronts.closing brace hclosing
    rw [htokens] at hhead
    cases hhead
    refine h.append_of_startsLike herror ?_ hts'
    rw [text_append, text_append, text_cons, text_cons, Token.text_of_isPunct hbrace]
    exact (StartsLike.of_mark (by simp) _ _).append _

end

/-! ## Pieces with other statements -/

/-- A piece, and the statement that takes the place of its own, if another does. -/
structure PieceSlot where
  piece : Piece
  moved? : Option Statement

namespace PieceSlot

/-- The piece that stands in the slot then. -/
def settled (slot : PieceSlot) : Piece where
  leading := slot.piece.leading
  body := (slot.moved?.map PieceBody.statement).getD slot.piece.body

/-- A slot in which one statement with semicolon may take the place of another. -/
def Sound (slot : PieceSlot) : Prop :=
  ∀ s ∈ slot.moved?, s.IsClosed ∧ ∃ old, slot.piece.body = .statement old ∧ old.IsClosed

/-- The tokens of the pieces in the slots, in front of the whitespace behind them. -/
def settledTokens (slots : List PieceSlot) (trailing : List Token) : List Token :=
  slots.flatMap (fun slot => slot.settled.tokens) ++ trailing

variable {slot : PieceSlot} {slots : List PieceSlot} {trailing ts : List Token}

/-- A closing brace keeps its slot. -/
theorem Sound.moved?_eq_none (h : slot.Sound) {brace : Token}
    (hclosing : slot.piece.body = .closing brace) : slot.moved? = none := by
  refine Option.eq_none_iff_forall_not_mem.mpr fun s hs => ?_
  obtain ⟨-, old, hold, -⟩ := h s hs
  rw [hclosing] at hold
  cases hold

theorem settled_of_none (h : slot.moved? = none) : slot.settled = slot.piece := by
  rw [settled, h]
  rfl

/-- Without pieces there is nothing but whitespace. -/
theorem settledTokens_nil (h : Piece.split ts = ([], trailing)) : settledTokens [] trailing = ts :=
  Piece.eq_of_split_eq_nil h

theorem settledTokens_cons (slot : PieceSlot) (slots : List PieceSlot) (trailing : List Token) :
    settledTokens (slot :: slots) trailing =
      slot.piece.leading ++ (slot.settled.body.tokens ++ settledTokens slots trailing) := by
  rw [settledTokens, List.flatMap_cons, Piece.tokens, List.append_assoc, List.append_assoc]
  rfl

theorem mem_settledTokens {t : Token} (h : t ∈ settledTokens slots trailing) :
    t ∈ slots.flatMap (fun slot => slot.piece.tokens) ++ trailing
      ∨ ∃ slot ∈ slots, ∃ s ∈ slot.moved?, t ∈ s.tokens := by
  rcases List.mem_append.mp h with hslots | htrailing
  · obtain ⟨slot, hslot, ht⟩ := List.mem_flatMap.mp hslots
    cases hmoved : slot.moved? with
    | none =>
      rw [settled_of_none hmoved] at ht
      exact .inl (List.mem_append_left _ (List.mem_flatMap.mpr ⟨slot, hslot, ht⟩))
    | some s =>
      rw [settled, hmoved] at ht
      rcases List.mem_append.mp ht with hleading | hbody
      · have hpiece : t ∈ slot.piece.tokens := List.mem_append_left _ hleading
        exact .inl (List.mem_append_left _ (List.mem_flatMap.mpr ⟨slot, hslot, hpiece⟩))
      · exact .inr ⟨slot, hslot, s, hmoved, hbody⟩
  · exact .inl (List.mem_append_right _ htrailing)

end PieceSlot

open PieceSlot

namespace Piece

variable {slots : List PieceSlot} {slot : PieceSlot} {trailing ts : List Token}

/-- With other statements in some slots, tokens still start with the same whitespace and closing brace. -/
theorem fronts_settledTokens (hslot : slot.Sound) (slots : List PieceSlot) (trailing : List Token) :
    slot.piece.Fronts (settledTokens (slot :: slots) trailing) where
  closing brace hbrace := by
    rw [settledTokens_cons, settled_of_none (hslot.moved?_eq_none hbrace), hbrace]
    exact ⟨settledTokens slots trailing, rfl⟩
  line hbreak := by
    rw [settledTokens_cons, text_append]
    obtain ⟨c, rest, hleading, hc⟩ := exists_eq_cons_of_startsWith hbreak
    rw [hleading]
    exact hc

/-- **A statement with semicolon** may take the place of another. -/
theorem takesPlaceOf_settled (hslot : slot.Sound) : slot.settled.TakesPlaceOf slot.piece := by
  cases hmoved : slot.moved? with
  | none =>
    rw [settled_of_none hmoved]
    exact .refl _
  | some s =>
    have hsettled : slot.settled = ⟨slot.piece.leading, .statement s⟩ := by
      rw [settled, hmoved]
      rfl
    rw [hsettled]
    refine ⟨fun brace hbrace => ?_, fun first tail later later' hleading _ _ _ _ => ?_⟩
    · rw [hslot.moved?_eq_none hbrace] at hmoved
      cases hmoved
    · rw [tokens, List.append_assoc]
      exact (hslot s hmoved).1.split_cons hleading _

/-- **Tokens fall into the same pieces**, some of their statements exchanged. -/
theorem split_settled (hslots : ∀ slot ∈ slots, slot.Sound)
    (h : split ts = (slots.map PieceSlot.piece, trailing)) :
    split (settledTokens slots trailing) = (slots.map settled, trailing) :=
  split_of_takesPlace (fun slot hslot => takesPlaceOf_settled (hslots slot hslot)) h

end Piece

namespace Tokens

variable {slots : List PieceSlot} {trailing ts : List Token}

/-- **The text of pieces, some of their statements exchanged, is read as them.** -/
theorem legible_settled (hslots : ∀ slot ∈ slots, slot.Sound)
    (h : Piece.split ts = (slots.map PieceSlot.piece, trailing)) (hlegible : Legible ts)
    (herror : ∀ t ∈ ts, t.kind ≠ .error)
    (hmoved : ∀ slot ∈ slots, ∀ s ∈ slot.moved?, ∀ t ∈ s.tokens, t.kind ≠ .error) :
    Legible (settledTokens slots trailing) := by
  induction slots generalizing ts with
  | nil => rwa [settledTokens_nil h]
  | cons slot slots ih =>
    obtain ⟨hslot, hslots⟩ := List.forall_mem_cons.mp hslots
    obtain ⟨hmine, hmoved⟩ := List.forall_mem_cons.mp hmoved
    have hchain := Piece.isChain_split ts
    rw [h] at hchain
    obtain ⟨first, tail, later, rfl, hleading, hfirst, htokens, -, hlater⟩ :=
      Piece.exists_of_split_eq_cons h
    rw [← List.cons_append, ← htokens] at hlegible herror
    have hbody := hlegible.of_append
    have hbehind := ih hslots hlater hbody.of_append (fun t ht => herror t (by simp [ht])) hmoved
    rw [settledTokens_cons]
    cases hnew : slot.moved? with
    | some s =>
      have hsettled : slot.settled.body.tokens = s.tokens := by
        rw [settled, hnew]
        rfl
      rw [hsettled]
      have hs := (hslot s hnew).1
      exact hlegible.space_append hleading (hs.word.append _)
        (hs.legible_append (hmine s hnew) hbehind)
    | none =>
      have hword : StartsWithWord slot.piece.body.tokens := ⟨first, by rw [htokens]; rfl, hfirst⟩
      rw [settled_of_none hnew]
      refine hlegible.space_append hleading (hword.append _) ?_
      have hclean : ∀ t ∈ slot.piece.body.tokens, t.kind ≠ .error := fun t ht =>
        herror t (by simp [ht])
      cases slots with
      | nil => rwa [settledTokens_nil hlater]
      | cons next slots =>
        exact hbody.append_of_fronts hclean hlater (List.isChain_cons_cons.mp hchain).1
          (Piece.fronts_settledTokens (hslots next List.mem_cons_self) slots trailing) hbehind

end Tokens

end SheetLint
