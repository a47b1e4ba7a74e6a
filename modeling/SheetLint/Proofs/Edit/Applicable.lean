import SheetLint.Proofs.Edit.Substitution
import SheetLint.Proofs.Token.Positions

/-!
# Fixes that can be carried out

A fix is *applicable* to a text when its edits lie in the text, do not conflict, and applied by
themselves change the text. Rules place their edits by the spans of tokens, so a run of tokens that
stands in the text is all that a fix of one edit needs, with a replacement other than the text of
the run. Several edits could undo each other's changes; they do not when none of the texts that they
put or take goes on behind another.

Results:
* `Tokens.offsets_of_span?`: where a run of tokens stands in its text.
* `Edit.Substituted.replaces_self`: a walk that changes nothing.
* `Edit.applyAll?_token`, `Edit.applyAll?_run`: what replacing a token or a run of tokens does.
* `Fix.applicable_of_one`, `Fix.applicable_of_several`: fixes of one edit and of several.
* `Fix.applicable_token`, `Fix.applicable_run`: fixes of a token and of a run of tokens.
-/

namespace SheetLint

variable {source new : Text} {run before after : List Token} {t : Token} {message : String}

/-! ## Where a run of tokens stands -/

namespace Tokens

theorem start_of_ofText (h : ofText source = before ++ t :: after) : t.start = (text before).size := by
  rw [Token.start, span_of_ofText h]
  rfl

theorem stop_of_ofText (h : ofText source = before ++ t :: after) :
    t.stop = (text before).size + t.text.size := by
  rw [Token.stop, span_of_ofText h]
  exact Text.size_append _ _

theorem source_eq (h : ofText source = before ++ run ++ after) :
    source = text before ++ text run ++ text after := by
  rw [← text_ofText source, h]
  simp

/-- The ends of a run of tokens are where its text stands. -/
theorem ends_of_ofText (h : ofText source = before ++ run ++ after) :
    (∀ t ∈ run.head?, t.start = (text before).size)
      ∧ ∀ t ∈ run.getLast?, t.stop = (text before).size + (text run).size := by
  constructor
  · intro t ht
    obtain ⟨tail, rfl⟩ := List.head?_eq_some_iff.mp ht
    exact start_of_ofText (by simpa using h)
  · intro t ht
    obtain ⟨front, rfl⟩ := List.getLast?_eq_some_iff.mp ht
    have htoken : ofText source = (before ++ front) ++ t :: after := by simpa using h
    have hstop := stop_of_ofText htoken
    simpa [Nat.add_assoc] using hstop

theorem ne_nil_of_mem_run {t : Token} (hrun : run <:+: ofText source) (ht : t ∈ run) :
    t.text ≠ [] := ne_nil_of_mem_ofText (hrun.subset ht)

theorem text_ne_nil (hrun : run <:+: ofText source) (hne : run ≠ []) : text run ≠ [] := by
  obtain ⟨t, ts, rfl⟩ := List.exists_cons_of_ne_nil hne
  intro hnil
  rw [text_cons] at hnil
  exact ne_nil_of_mem_run hrun List.mem_cons_self (List.append_eq_nil_iff.mp hnil).1

theorem exists_span? (hne : run ≠ []) : ∃ span, span? run = some span := by
  obtain ⟨t, ts, rfl⟩ := List.exists_cons_of_ne_nil hne
  obtain ⟨last, hlast⟩ := Option.ne_none_iff_exists'.mp
    (mt List.getLast?_eq_none_iff.mp (List.cons_ne_nil t ts))
  exact ⟨_, by rw [span?, hlast, List.head?_cons]⟩

/-- The span of a run of tokens is where its text stands. -/
theorem offsets_of_span? {span : Span} (h : ofText source = before ++ run ++ after)
    (hspan : Tokens.span? run = some span) :
    span.start.offset = (text before).size
      ∧ span.stop.offset = (text before).size + (text run).size := by
  obtain ⟨hfirst, hlast⟩ := ends_of_ofText h
  unfold Tokens.span? at hspan
  split at hspan
  · rename_i first last hhead hgetLast
    cases hspan
    exact ⟨hfirst first hhead, hlast last hgetLast⟩
  · cases hspan

end Tokens

/-! ## Edges between words -/

namespace Tokens

/-- Whether no word reaches across an offset. -/
def IsEdge (ts : List Token) (offset : Nat) : Prop :=
  ∀ t ∈ ts, t.isWhitespace = false → t.stop ≤ offset ∨ offset ≤ t.start

instance (ts : List Token) (offset : Nat) : Decidable (IsEdge ts offset) :=
  inferInstanceAs (Decidable (∀ t ∈ ts, _))

theorem stop_le_of_mem_front (h : ofText source = before ++ after) (ht : t ∈ before) :
    t.stop ≤ (text before).size := by
  obtain ⟨front, back, rfl⟩ := List.append_of_mem ht
  rw [stop_of_ofText (h.trans (List.append_assoc _ _ _))]
  simp

theorem le_start_of_mem_back (h : ofText source = before ++ after) (ht : t ∈ after) :
    (text before).size ≤ t.start := by
  obtain ⟨front, back, rfl⟩ := List.append_of_mem ht
  rw [start_of_ofText (h.trans (List.append_assoc _ _ _).symm)]
  simp

/-- Where tokens meet is an edge. -/
theorem isEdge_of_append (h : ofText source = before ++ after) :
    IsEdge (ofText source) (text before).size := by
  intro t ht _
  rw [h] at ht
  exact (List.mem_append.mp ht).imp (stop_le_of_mem_front h) (le_start_of_mem_back h)

/-- Inside whitespace each place is an edge. -/
theorem isEdge_of_isWhitespace (h : ofText source = before ++ t :: after)
    (ht : t.isWhitespace = true) {kept : Text} (hkept : kept.size ≤ t.text.size) :
    IsEdge (ofText source) ((text before).size + kept.size) := by
  intro u hu hword
  rw [h] at hu
  rcases List.mem_append.mp hu with hbefore | hafter
  · have := stop_le_of_mem_front h hbefore
    exact .inl (by omega)
  · rcases List.mem_cons.mp hafter with rfl | hafter
    · rw [ht] at hword
      cases hword
    · have hread : ofText source = (before ++ [t]) ++ after := by simpa using h
      have hstart := le_start_of_mem_back hread hafter
      rw [text_append, text_cons, text_nil, List.append_nil, Text.size_append] at hstart
      exact .inr (by omega)

end Tokens

/-- Whether no word reaches across an end of the range of an edit. -/
def Edit.OnEdges (source : Text) (e : Edit) : Prop :=
  Tokens.IsEdge (Tokens.ofText source) e.start ∧ Tokens.IsEdge (Tokens.ofText source) e.stop

/-- The ends of a run of tokens are edges. -/
theorem Edit.onEdges_of_run {e : Edit} (h : Tokens.ofText source = before ++ run ++ after)
    (hstart : e.start = (Tokens.text before).size)
    (hstop : e.stop = (Tokens.text before).size + (Tokens.text run).size) : e.OnEdges source := by
  constructor
  · rw [hstart]
    exact Tokens.isEdge_of_append (h.trans (List.append_assoc _ _ _))
  · rw [hstop, ← Text.size_append, ← Tokens.text_append]
    exact Tokens.isEdge_of_append h

/-! ## What an edit replaces -/

/-- Whether the range of an edit holds a text. -/
def Edit.Replaces (source : Text) (e : Edit) (old : Text) : Prop :=
  ∃ front back, source = front ++ old ++ back ∧ e.start = front.size
    ∧ e.stop = front.size + old.size

namespace Edit

variable {e : Edit} {old : Text}

theorem Replaces.inText (h : Replaces source e old) : InText source e := by
  obtain ⟨front, back, rfl, hstart, hstop⟩ := h
  refine ⟨by omega, ?_, ?_, ?_⟩
  · simp only [Text.size_append]
    omega
  · rw [List.append_assoc, hstart]
    exact isBoundary_size front _
  · rw [hstop, ← Text.size_append]
    exact isBoundary_size (front ++ old) back

/-- What one edit makes of a text. -/
theorem applyAll?_one (front old new back : Text) :
    applyAll? (front ++ old ++ back) [⟨front.size, front.size + old.size, new⟩]
      = some (front ++ new ++ back) := by
  have hreplaces : Replaces (front ++ old ++ back) ⟨front.size, front.size + old.size, new⟩ old :=
    ⟨front, back, rfl, rfl, rfl⟩
  have hwalk : Substituted (Text.size []) (front ++ old ++ back)
      [⟨front.size, front.size + old.size, new⟩] (front ++ new ++ back) :=
    .cons (Nat.zero_add _).symm rfl (.nil _ back)
  have happly := applyInTurn?_reverse hwalk
  rw [applyAll?, if_pos (by simpa using (fits_iff _ _).mpr hreplaces.inText), List.mergeSort_singleton]
  exact happly

theorem Replaces.applyAll?_eq (h : Replaces source e old) :
    ∃ front back, source = front ++ old ++ back ∧ e.start = front.size
      ∧ e.stop = front.size + old.size
      ∧ applyAll? source [e] = some (front ++ e.replacement ++ back) := by
  obtain ⟨start, stop, new⟩ := e
  obtain ⟨front, back, rfl, hstart, hstop⟩ := h
  obtain rfl : start = front.size := hstart
  obtain rfl : stop = front.size + old.size := hstop
  exact ⟨front, back, rfl, rfl, rfl, applyAll?_one front old new back⟩

/-- What replacing a token does. -/
theorem applyAll?_token (h : Tokens.ofText source = before ++ t :: after) (new : Text) :
    applyAll? source [⟨t.start, t.stop, new⟩]
      = some (Tokens.text before ++ new ++ Tokens.text after) := by
  have hsource : source = Tokens.text before ++ t.text ++ Tokens.text after := by
    rw [← Tokens.text_ofText source, h]
    simp
  rw [Tokens.start_of_ofText h, Tokens.stop_of_ofText h, hsource]
  exact applyAll?_one _ _ _ _

/-- What replacing a run of tokens does. -/
theorem applyAll?_run {span : Span} (h : Tokens.ofText source = before ++ run ++ after)
    (hspan : Tokens.span? run = some span) (new : Text) :
    applyAll? source [⟨span.start.offset, span.stop.offset, new⟩]
      = some (Tokens.text before ++ new ++ Tokens.text after) := by
  obtain ⟨hstart, hstop⟩ := Tokens.offsets_of_span? h hspan
  rw [hstart, hstop, Tokens.source_eq h]
  exact applyAll?_one _ _ _ _

/-- A range in a text holds some of it. -/
theorem exists_replaces (h : InText source e) : ∃ old, Replaces source e old := by
  obtain ⟨hle, -, hstart, hstop⟩ := h
  obtain ⟨front, rest, rfl, hfront⟩ := exists_of_isBoundary hstart
  obtain ⟨before, back, hcut, hbefore⟩ := exists_of_isBoundary hstop
  obtain ⟨old, rfl, rfl⟩ := exists_of_append_eq hcut (by omega)
  exact ⟨old, front, back, (List.append_assoc _ _ _).symm, hfront.symm, by
    rw [← hbefore, Text.size_append]⟩

/-- The range of an edit holds one text. -/
theorem Replaces.unique {old' : Text} (h : Replaces source e old) (h' : Replaces source e old') :
    old = old' := by
  obtain ⟨front, back, rfl, hstart, hstop⟩ := h
  obtain ⟨front', back', hsource, hstart', hstop'⟩ := h'
  obtain ⟨hfront, -⟩ := eq_of_append_eq hsource (by simp only [Text.size_append]; omega)
  exact (eq_of_append_eq hfront (by omega)).2

/-- A walk that changes nothing replaces each range by what stands there, provided that neither text
goes on behind the other. -/
theorem Substituted.replaces_self {front rest out : Text} {es : List Edit}
    (h : Substituted front.size rest es out) (hsource : source = front ++ rest) (hout : out = rest)
    (hcode : ∀ e ∈ es, ∀ old, Replaces source e old →
      ∀ x y, e.replacement ++ x = old ++ y → e.replacement = old) :
    ∀ e ∈ es, Replaces source e e.replacement := by
  generalize hpos : front.size = pos at h
  induction h generalizing front with
  | nil => simp
  | @cons pos kept old rest out e es start_eq stop_eq more ih =>
    rw [List.forall_mem_cons] at hcode
    have hreplaces : Replaces source e old := by
      refine ⟨front ++ kept, rest, by simp [hsource], ?_, ?_⟩
      · rw [Text.size_append, hpos, start_eq]
      · rw [Text.size_append, hpos, stop_eq, start_eq]
    simp only [List.append_assoc] at hout
    have hbehind := List.append_cancel_left hout
    have hsame := hcode.1 old hreplaces out rest hbehind
    rw [hsame] at hbehind
    rw [List.forall_mem_cons]
    have hsplit : source = (front ++ kept ++ old) ++ rest := by simp [hsource]
    refine ⟨by rwa [hsame], ih hsplit ?_ hcode.2 ?_⟩
    · exact List.append_cancel_left hbehind
    · rw [Text.size_append, Text.size_append, hpos, stop_eq, start_eq]

end Edit

/-! ## Applicable fixes -/

/-- A fix that can be carried out on a text by itself, and changes it. It touches words from their
first to their last byte. -/
structure Fix.Applicable (source : Text) (f : Fix) : Prop where
  inText : ∀ e ∈ f.edits, Edit.InText source e
  edges : ∀ e ∈ f.edits, e.OnEdges source
  apart : f.edits.Pairwise fun a b => a.conflicts b = false
  changes : ∃ out, Edit.applyAll? source f.edits = some out ∧ out ≠ source

namespace Fix

open Tokens Edit

/-- A fix whose edits replace ranges that stand apart, where no text goes on behind the one that it
replaces, and one is not the text that it replaces. -/
theorem applicable_of_several {edits : List Edit}
    (hreplaces : ∀ e ∈ edits, ∃ old, Replaces source e old ∧ old ≠ []
      ∧ ∀ x y, e.replacement ++ x = old ++ y → e.replacement = old)
    (hedges : ∀ e ∈ edits, e.OnEdges source) (hapart : edits.Pairwise fun a b => a.stop ≤ b.start)
    (hchange : ∃ e ∈ edits, ¬ Replaces source e e.replacement) :
    Applicable source ⟨message, edits⟩ := by
  have hin : ∀ e ∈ edits, InText source e := fun e he =>
    let ⟨_, hold, _⟩ := hreplaces e he
    hold.inText
  have hrange : ∀ e ∈ edits, e.start < e.stop := by
    intro e he
    obtain ⟨old, ⟨front, back, -, hstart, hstop⟩, hne, -⟩ := hreplaces e he
    have := Text.size_pos_of_ne_nil hne
    omega
  have hconflict : edits.Pairwise fun a b => a.conflicts b = false := by
    refine hapart.imp_of_mem fun {a b} ha hb hab => ?_
    have ha := hrange a ha
    have hb := hrange b hb
    rw [conflicts_eq_false_iff, if_neg (by omega), if_neg (by omega)]
    exact .inr hab
  obtain ⟨out, happly, hwalk⟩ := applyAll?_eq_some hconflict hin
  refine ⟨hin, hedges, hconflict, out, happly, fun hsame => ?_⟩
  obtain ⟨e, he, hne⟩ := hchange
  have hstart : Substituted (Text.size []) source (inOrder edits) out := hwalk
  refine hne (hstart.replaces_self rfl hsame ?_ e
    ((perm_inOrder edits).symm.subset he))
  intro e he old hold
  obtain ⟨old', hold', -, hcode⟩ := hreplaces e ((perm_inOrder edits).subset he)
  rw [hold.unique hold']
  exact hcode

/-- A fix of one edit that replaces a text by another. -/
theorem applicable_of_one {old : Text} {e : Edit} (h : Replaces source e old)
    (hedges : e.OnEdges source) (hne : e.replacement ≠ old) : Applicable source ⟨message, [e]⟩ := by
  obtain ⟨front, back, hsource, -, -, happly⟩ := h.applyAll?_eq
  refine ⟨by simpa using h.inText, by simpa using hedges, List.pairwise_singleton _ _, _, happly, ?_⟩
  rw [hsource]
  intro hsame
  exact hne (List.append_cancel_left (List.append_cancel_right hsame))

/-- A fix of one edit that replaces a run of tokens. -/
theorem applicable_of_run {e : Edit} (h : ofText source = before ++ run ++ after)
    (hstart : e.start = (text before).size)
    (hstop : e.stop = (text before).size + (text run).size) (hne : e.replacement ≠ text run) :
    Applicable source ⟨message, [e]⟩ :=
  applicable_of_one ⟨_, _, source_eq h, hstart, hstop⟩ (onEdges_of_run h hstart hstop) hne

/-- A fix that replaces a token. -/
theorem applicable_token (ht : t ∈ ofText source) (hne : new ≠ t.text) :
    Applicable source (.replace message t.start t.stop new) := by
  obtain ⟨before, after, h⟩ := List.append_of_mem ht
  have hrun : ofText source = before ++ [t] ++ after := by simpa using h
  exact applicable_of_run hrun (start_of_ofText h) (by simpa using stop_of_ofText h) (by simpa using hne)

/-- A fix that replaces a run of tokens from its first to its last byte. -/
theorem applicable_run {span : Span} (hrun : run <:+: ofText source)
    (hspan : Tokens.span? run = some span) (hne : new ≠ text run) :
    Applicable source (.replace message span.start.offset span.stop.offset new) := by
  obtain ⟨before, after, h⟩ := hrun
  obtain ⟨hstart, hstop⟩ := offsets_of_span? h.symm hspan
  exact applicable_of_run h.symm hstart hstop hne

/-- What replacing a run of tokens does, where an empty run is at its offset. -/
theorem replaceRun_eq {offset : Nat} (h : ofText source = before ++ run ++ after)
    (hoffset : run = [] → offset = (text before).size) :
    Edit.replaceRun run offset new =
      ⟨(text before).size, (text before).size + (text run).size, new⟩ := by
  obtain ⟨hfirst, hlast⟩ := ends_of_ofText h
  cases hrun : run with
  | nil => simp [Edit.replaceRun, Edit.insert, hoffset hrun]
  | cons first more =>
    obtain ⟨last, hgetLast⟩ : ∃ last, run.getLast? = some last := by
      rw [hrun]
      exact ⟨_, List.getLast?_cons⟩
    rw [← hrun]
    have hhead : run.head? = some first := by rw [hrun]; rfl
    simp only [Edit.replaceRun, hhead, hgetLast, hfirst first hhead, hlast last hgetLast]

end Fix

end SheetLint
