import SheetLint.Proofs.Tree.Interchange

/-!
# Other whitespace in front of pieces

In front of a piece that is no closing brace other whitespace may stand, if it starts with a line break:
the piece in front of it ends closed, or with the line of a comment, so it does not go on in the new
whitespace, and no piece reads what stands in front of it.

Results:
* `Piece.split_spacedTokens`: tokens fall into the same pieces, with other whitespace in front of some.
* `Tokens.legible_spacedTokens`: the text of these tokens is read as they are.
* `Tokens.words_spacedTokens`: it has the same words.
-/

namespace SheetLint

open Scan Tokens

/-- A piece, and the whitespace that takes the place of its own, if other does. -/
structure SpaceSlot where
  piece : Piece
  put? : Option Token

namespace SpaceSlot

/-- The piece that stands in the slot then. -/
def spaced (slot : SpaceSlot) : Piece where
  leading := slot.put?.elim slot.piece.leading fun t => [t]
  body := slot.piece.body

/-- A slot in which a line break may come first: the piece is no closing brace. -/
structure Sound (slot : SpaceSlot) : Prop where
  space : ∀ t ∈ slot.put?, t.isWhitespace = true ∧ t.text.IsBlank
  line : ∀ t ∈ slot.put?, startsWith isLineBreak t.text = true
  closing : ∀ brace, slot.piece.body = .closing brace → slot.put? = none

/-- The tokens of the pieces in the slots, in front of the whitespace behind them. -/
def spacedTokens (slots : List SpaceSlot) (trailing : List Token) : List Token :=
  slots.flatMap (fun slot => slot.spaced.tokens) ++ trailing

variable {slot : SpaceSlot} {slots : List SpaceSlot} {trailing ts : List Token}

theorem spaced_of_none (h : slot.put? = none) : slot.spaced = slot.piece := by
  rw [spaced, h]
  rfl

theorem leading_of_some {t : Token} (h : slot.put? = some t) : slot.spaced.leading = [t] := by
  rw [spaced, h]
  rfl

theorem Sound.isSpace_leading (h : slot.Sound) (hspace : IsSpace slot.piece.leading) :
    IsSpace slot.spaced.leading := by
  cases hput : slot.put? with
  | none => rwa [spaced_of_none hput]
  | some t =>
    rw [leading_of_some hput]
    exact List.forall_mem_singleton.mpr (h.space t hput).1

theorem spacedTokens_cons (slot : SpaceSlot) (slots : List SpaceSlot) (trailing : List Token) :
    spacedTokens (slot :: slots) trailing =
      slot.spaced.leading ++ (slot.piece.body.tokens ++ spacedTokens slots trailing) := by
  rw [spacedTokens, List.flatMap_cons, Piece.tokens, List.append_assoc, List.append_assoc]
  rfl

/-- Without pieces there is nothing but whitespace. -/
theorem spacedTokens_nil (h : Piece.split ts = ([], trailing)) : spacedTokens [] trailing = ts :=
  Piece.eq_of_split_eq_nil h

/-- With other whitespace in front of pieces, tokens still start with the same closing brace. -/
theorem fronts_spacedTokens (hslot : slot.Sound) (slots : List SpaceSlot) (trailing : List Token) :
    slot.piece.Fronts (spacedTokens (slot :: slots) trailing) where
  closing brace hbrace := by
    rw [spacedTokens_cons, spaced_of_none (hslot.closing brace hbrace), hbrace]
    exact ⟨spacedTokens slots trailing, rfl⟩
  line hbreak := by
    rw [spacedTokens_cons, text_append]
    obtain ⟨c, rest, hleading, hc⟩ :
        ∃ c rest, text slot.spaced.leading = c :: rest ∧ isLineBreak c = true := by
      cases hput : slot.put? with
      | none =>
        rw [spaced_of_none hput]
        exact exists_eq_cons_of_startsWith hbreak
      | some t =>
        rw [leading_of_some hput, text_cons, text_nil, List.append_nil]
        exact exists_eq_cons_of_startsWith (hslot.line t hput)
    rw [hleading]
    exact hc

end SpaceSlot

open SpaceSlot

namespace Piece

variable {slot : SpaceSlot} {slots : List SpaceSlot} {trailing ts : List Token}

/-- **A piece behind other whitespace** takes the place of its own. -/
theorem takesPlaceOf_spaced (hslot : slot.Sound) : slot.spaced.TakesPlaceOf slot.piece := by
  refine .of_leading (fun brace hbrace => ?_) hslot.isSpace_leading
  rw [hslot.closing brace hbrace]
  rfl

/-- **Tokens fall into the same pieces**, with other whitespace in front of some. -/
theorem split_spacedTokens (hslots : ∀ slot ∈ slots, slot.Sound)
    (h : split ts = (slots.map SpaceSlot.piece, trailing)) :
    split (spacedTokens slots trailing) = (slots.map spaced, trailing) :=
  split_of_takesPlace (fun slot hslot => takesPlaceOf_spaced (hslots slot hslot)) h

end Piece

namespace Tokens

variable {slots : List SpaceSlot} {trailing ts : List Token}

/-- **The text of pieces, with other whitespace in front of some, is read as them.** -/
theorem legible_spacedTokens (hslots : ∀ slot ∈ slots, slot.Sound)
    (h : Piece.split ts = (slots.map SpaceSlot.piece, trailing)) (hlegible : Legible ts)
    (herror : ∀ t ∈ ts, t.kind ≠ .error) : Legible (spacedTokens slots trailing) := by
  induction slots generalizing ts with
  | nil => rwa [spacedTokens_nil h]
  | cons slot slots ih =>
    obtain ⟨hslot, hslots⟩ := List.forall_mem_cons.mp hslots
    have hchain := Piece.isChain_split ts
    rw [h] at hchain
    obtain ⟨first, tail, later, rfl, hleading, hfirst, htokens, -, hlater⟩ :=
      Piece.exists_of_split_eq_cons h
    rw [← List.cons_append, ← htokens] at hlegible herror
    have hold := hlegible.of_append
    have hbehind := ih hslots hlater hold.of_append fun t ht => herror t (by simp [ht])
    have hword : StartsWithWord (slot.piece.body.tokens ++ spacedTokens slots trailing) :=
      StartsWithWord.append ⟨first, by rw [htokens]; rfl, hfirst⟩ _
    -- the piece is read in front of those behind it
    have hbody : Legible (slot.piece.body.tokens ++ spacedTokens slots trailing) := by
      cases slots with
      | nil => rwa [spacedTokens_nil hlater]
      | cons next slots =>
        exact hold.append_of_fronts (fun t ht => herror t (by simp [ht])) hlater
          (List.isChain_cons_cons.mp hchain).1
          (fronts_spacedTokens (hslots next List.mem_cons_self) slots trailing) hbehind
    rw [spacedTokens_cons]
    cases hput : slot.put? with
    | none =>
      rw [spaced_of_none hput]
      exact hlegible.space_append hleading hword hbody
    | some t =>
      obtain ⟨hkind, hblank⟩ := hslot.space t hput
      obtain ⟨c, rest, htext, -⟩ := exists_eq_cons_of_startsWith (hslot.line t hput)
      have hread := Token.readsBefore_blank (by simp [htext]) hblank (hbody.startsWith_isSpace hword) t.span
      rw [leading_of_some hput]
      exact ⟨hread.congr (beq_iff_eq.mp hkind) rfl, hbody⟩

/-- **Whitespace in front of pieces is no word.** -/
theorem words_spacedTokens (hslots : ∀ slot ∈ slots, slot.Sound)
    (hspace : ∀ slot ∈ slots, IsSpace slot.piece.leading) (trailing : List Token) :
    words (spacedTokens slots trailing) =
      words (slots.flatMap (fun slot => slot.piece.tokens) ++ trailing) := by
  induction slots with
  | nil => rfl
  | cons slot slots ih =>
    rw [List.forall_mem_cons] at hslots hspace
    have hnew := words_of_isSpace (hslots.1.isSpace_leading hspace.1)
    rw [spacedTokens_cons, words_append, words_append, hnew, ih hslots.2 hspace.2, List.flatMap_cons,
      Piece.tokens, List.append_assoc, List.append_assoc, words_append slot.piece.leading,
      words_of_isSpace hspace.1, words_append slot.piece.body.tokens]

end Tokens

end SheetLint
