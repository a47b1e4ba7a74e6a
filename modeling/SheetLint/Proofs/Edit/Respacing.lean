import SheetLint.Proofs.Edit.Tokens
import SheetLint.Proofs.Token.Seams

/-!
# Other whitespace between the words

An edit that puts other whitespace between two words of a text keeps the words, unless the new
whitespace is *swallowed*: by a line comment that has lost its line break, or by a backslash that is
given something to escape. So such edits, applied together, keep the words exactly when none of them
is swallowed; otherwise the words grow, and since they only ever grow, they do not come back.

Results:
* `Edit.Respaces`: an edit of whitespace between two words.
* `Edit.words_of_applyAll?`: such edits keep the words of a text, or let them grow.
-/

namespace SheetLint

open Scan Tokens

namespace Edit

/-- An edit that puts other whitespace between two words of a text. It keeps the front of what is
there, if anything, and replaces the rest. Only in front of a comma it may leave nothing. -/
structure Respaces (source : Text) (e : Edit) (front : List Token) (last : Token)
    (space : List Token) (next : Token) (back : List Token) (kept old : Text) : Prop where
  gap : Gap (ofText source) front last space next back
  text_eq : text space = kept ++ old
  start_eq : e.start = (text front ++ last.text ++ kept).size
  stop_eq : e.stop = e.start + old.size
  char : ∀ c ∈ e.replacement, c = ' ' ∨ c = '\n'
  comma : e.replacement = [] → next.isPunct ',' = true
  whole : next.isPunct ',' = true → kept = []
  apart : space = [] →
    last.endsAnywhere = true ∨ next.isPunct '\x7b' = true ∨ next.isPunct '\x7d' = true

/-- An edit that puts whitespace right in front of the first word of a text. -/
structure Leads (source : Text) (e : Edit) (lead : List Token) (next : Token) (back : List Token) :
    Prop where
  split : ofText source = lead ++ next :: back
  isSpace : IsSpace lead
  next_not : next.isWhitespace = false
  start_eq : e.start = (text lead).size
  stop_eq : e.stop = e.start
  char : ∀ c ∈ e.replacement, c = ' ' ∨ c = '\n'

/-- Whether an edit puts other whitespace between two words, or some in front of all. -/
def IsRespacing (source : Text) (e : Edit) : Prop :=
  (∃ front last space next back kept old, e.Respaces source front last space next back kept old)
    ∨ ∃ lead next back, e.Leads source lead next back

/-- Whether an edit puts something other than a line feed right behind a token that goes on there. -/
def IsSwallowed (source : Text) (e : Edit) : Prop :=
  e.replacement.head? ≠ some '\n'
    ∧ ∃ t ∈ ofText source, t.stop = e.start ∧ t.isUnending = true

instance (source : Text) (e : Edit) : Decidable (e.IsSwallowed source) :=
  inferInstanceAs (Decidable (_ ∧ _))

namespace IsRespacing

variable {source : Text} {e : Edit}

theorem isBlank (h : e.IsRespacing source) : Text.IsBlank e.replacement := by
  have hchar : ∀ c ∈ e.replacement, c = ' ' ∨ c = '\n' := by
    rcases h with ⟨_, _, _, _, _, _, _, h⟩ | ⟨_, _, _, h⟩ <;> exact h.char
  exact fun c hc => by rcases hchar c hc with rfl | rfl <;> rfl

theorem exists_word (h : e.IsRespacing source) : ∃ t ∈ ofText source, t.isWhitespace = false := by
  rcases h with ⟨_, last, _, _, _, _, _, h⟩ | ⟨_, next, _, h⟩
  · exact ⟨last, by rw [h.gap.split]; simp, h.gap.last_not⟩
  · exact ⟨next, by rw [h.split]; simp, h.next_not⟩

/-- Whitespace in front of all words is left alone. -/
theorem size_le_start (h : e.IsRespacing source) {lead ts : List Token} {first : Token}
    (hsource : ofText source = lead ++ first :: ts) (hlead : IsSpace lead) :
    (text lead).size ≤ e.start := by
  have hfront {front more : List Token} {t : Token} (hsplit : ofText source = front ++ t :: more)
      (ht : t.isWhitespace = false) : (text lead).size ≤ (text front).size := by
    rcases List.append_eq_append_iff.mp (hsource.symm.trans hsplit) with
      ⟨between, rfl, -⟩ | ⟨between, hcut, hrest⟩
    · simp
    · cases between with
      | nil => rw [hcut, List.append_nil]
      | cons x between =>
        rw [hlead t (by rw [hcut, (List.cons.inj hrest).1]; simp)] at ht
        cases ht
  rcases h with ⟨_, _, _, _, _, _, _, h⟩ | ⟨_, _, _, h⟩
  · have hle := hfront h.gap.split h.gap.last_not
    have hstart := h.start_eq
    simp only [Text.size_append] at hstart
    omega
  · rw [h.start_eq]
    exact hfront h.split h.next_not

end IsRespacing

/-- Tokens in front of a word that are no longer than whitespace in front of all words are that. -/
theorem Leads.eq_of_le {source : Text} {e : Edit} {lead back done ts : List Token} {next first : Token}
    (h : e.Leads source lead next back) (hsource : ofText source = done ++ first :: ts)
    (hfirst : first.isWhitespace = false) (hle : (text done).size ≤ (text lead).size) : done = lead := by
  rcases List.append_eq_append_iff.mp (hsource.symm.trans h.split) with
    ⟨more, hlead, hback⟩ | ⟨more, hdone, hback⟩
  · cases more with
    | nil => rw [hlead, List.append_nil]
    | cons x more =>
      have hblank := h.isSpace first (by rw [hlead, (List.cons.inj hback).1]; simp)
      rw [hfirst] at hblank
      cases hblank
  · cases more with
    | nil => rw [hdone, List.append_nil]
    | cons x more =>
      have hne : x.text ≠ [] := ne_nil_of_mem_ofText (t := source) (by rw [hsource, hdone]; simp)
      have hsize := Text.size_pos_of_ne_nil hne
      rw [hdone, text_append, text_cons, Text.size_append, Text.size_append] at hle
      omega

/-- Whitespace in front of all words is not swallowed. -/
theorem Leads.not_isSwallowed {source : Text} {e : Edit} {lead back : List Token} {next : Token}
    (h : e.Leads source lead next back) : ¬ e.IsSwallowed source := by
  rintro ⟨-, t, ht, hstop, hends⟩
  obtain ⟨before, after, hhere⟩ := List.append_of_mem ht
  have hreads := (legible_of_ofTextAt (s := source) hhere).readsBefore
  rw [h.split] at ht
  rcases List.mem_append.mp ht with hlead | hback
  · rw [hreads.isUnending_of_isWhitespace (h.isSpace t hlead)] at hends
    cases hends
  · have hle := le_start_of_mem_back h.split hback
    have hlt := (start_lt_stop (s := source) (h.split ▸ ht)).2
    have hstart := h.start_eq
    omega

namespace Respaces

variable {source : Text} {front space back done ts : List Token} {last next first : Token}
  {kept old : Text} {e : Edit}

theorem legible (h : e.Respaces source front last space next back kept old) :
    Legible (front ++ last :: (space ++ next :: back)) :=
  legible_of_ofTextAt (s := source) h.gap.split

theorem mem_last (h : e.Respaces source front last space next back kept old) :
    last ∈ ofText source := by
  rw [h.gap.split]
  simp

/-- What the word in front of a gap is read in front of. -/
theorem readsBefore (h : e.Respaces source front last space next back kept old) :
    last.ReadsBefore (text space ++ text (next :: back)) := by
  rw [← text_append]
  exact h.legible.readsBefore

theorem isBlank_space (h : e.Respaces source front last space next back kept old) :
    (text space).IsBlank := by
  have hread : ofTextAt .start source = (front ++ [last]) ++ (space ++ next :: back) := by
    rw [List.append_assoc]
    exact h.gap.split
  exact isBlank_text_of_isSpace hread h.gap.isSpace

theorem isBlank_kept (h : e.Respaces source front last space next back kept old) :
    (kept ++ e.replacement).IsBlank := by
  intro c hc
  rcases List.mem_append.mp hc with hkept | hnew
  · refine h.isBlank_space c ?_
    rw [h.text_eq]
    exact List.mem_append_left _ hkept
  · rcases h.char c hnew with rfl | rfl <;> rfl

theorem eq_nil_of_text (h : e.Respaces source front last space next back kept old)
    (hnil : text space = []) : space = [] := by
  by_contra hne
  have hread : ofTextAt .start source = (front ++ [last]) ++ (space ++ next :: back) := by
    rw [List.append_assoc]
    exact h.gap.split
  obtain ⟨place, hspace⟩ := exists_ofTextAt_of_append hread
  exact text_ne_nil_of_ofTextAt hspace hne hnil

/-- What follows a gap does not start with whitespace. -/
theorem not_isSpace_next (h : e.Respaces source front last space next back kept old) :
    startsWith isSpace (text (next :: back)) = false := by
  have hread : ofTextAt .start source = (front ++ last :: space) ++ next :: back := by
    rw [List.append_assoc]
    exact h.gap.split
  have hne : next.text ≠ [] := ne_nil_of_mem_ofTextAt (by rw [hread]; simp)
  rw [text_cons, startsWith_append hne, Bool.eq_false_iff, Ne, isSpace_head_iff hread,
    h.gap.next_not]
  exact Bool.false_ne_true

/-! ## Edits that are swallowed -/

/-- Behind a word that goes on stands whitespace. -/
theorem isUnending_of_nil (h : e.Respaces source front last space next back kept old)
    (hnil : space = []) : last.isUnending = false := by
  have hlegible := h.legible.of_append
  rw [hnil] at hlegible
  exact Legible.isUnending_of_word hlegible h.gap.next_not

/-- An edit of a gap is swallowed when it leaves nothing behind a word that goes on there. -/
theorem isSwallowed_iff (h : e.Respaces source front last space next back kept old) :
    e.IsSwallowed source ↔
      last.isUnending = true ∧ kept = [] ∧ e.replacement.head? ≠ some '\n' := by
  have hlast := stop_of_ofText h.gap.split
  have hstart := h.start_eq
  simp only [Text.size_append] at hstart
  constructor
  · rintro ⟨hhead, t, ht, hstop, hends⟩
    obtain ⟨before, after, hhere⟩ := List.append_of_mem ht
    have hreads := (legible_of_ofTextAt (s := source) hhere).readsBefore
    have hlt := (start_lt_stop ht).2
    have hwhole := h.gap.split
    have hsize := Text.size_pos_of_ne_nil h.readsBefore.ne_nil
    have hspace := congrArg Text.size h.text_eq
    rw [Text.size_append] at hspace
    rw [hwhole, List.mem_append, List.mem_cons, List.mem_append] at ht
    rcases ht with hfront | rfl | hblank | hback
    · have := stop_le_of_mem_front hwhole hfront
      omega
    · exact ⟨hends, Text.eq_nil_of_size_eq_zero (by omega), hhead⟩
    · rw [hreads.isUnending_of_isWhitespace (h.gap.isSpace t hblank)] at hends
      cases hends
    · have hsplit : ofText source = (front ++ last :: space) ++ next :: back := by
        rw [hwhole, List.append_assoc]
        rfl
      have hle := le_start_of_mem_back hsplit hback
      simp only [text_append, text_cons, Text.size_append] at hle
      omega
  · rintro ⟨hends, rfl, hhead⟩
    exact ⟨hhead, last, h.mem_last, by rw [hlast, hstart]; rfl, hends⟩

/-! ## Edits one behind the other -/

/-- An edit behind some tokens inserts at the end of the gap just passed, or stands in a gap behind
it. -/
theorem passed_or_ahead (h : e.Respaces source front last space next back kept old)
    (hsource : ofText source = done ++ first :: ts)
    (hfirst : first.isWhitespace = false) (hle : (text done).size ≤ e.start) :
    (done = front ++ last :: space ∧ first :: ts = next :: back ∧ old = [])
      ∨ ∃ mid, front = done ++ mid := by
  have hsplit := h.gap.split
  rcases Nat.lt_or_ge front.length done.length with hlt | hge
  · left
    -- the word in front of the gap is passed
    obtain ⟨more, rfl⟩ : ∃ more, done = (front ++ [last]) ++ more := by
      have hfront : front ++ [last] <+: ofText source :=
        ⟨space ++ next :: back, by rw [hsplit, List.append_assoc]; rfl⟩
      exact (List.prefix_of_prefix_length_le hfront ⟨first :: ts, hsource.symm⟩
        (by simpa using hlt)).imp fun _ => Eq.symm
    have hmore : more ++ first :: ts = space ++ next :: back := by
      rw [hsource, List.append_assoc, List.append_assoc, List.append_cancel_left_eq] at hsplit
      exact (List.cons.inj hsplit).2
    have hstart := h.start_eq
    have hspace := congrArg Text.size h.text_eq
    simp only [text_append, text_cons, text_nil, List.append_nil, Text.size_append] at hle hstart hspace
    obtain ⟨rfl, hback⟩ : more = space ∧ first :: ts = next :: back := by
      rcases List.append_eq_append_iff.mp hmore with ⟨rest, hcut, hrest⟩ | ⟨rest, hcut, hrest⟩
      · cases rest with
        | nil => exact ⟨by rw [hcut, List.append_nil], hrest⟩
        | cons x rest =>
          have hblank := h.gap.isSpace first (by rw [hcut, (List.cons.inj hrest).1]; simp)
          rw [hfirst] at hblank
          cases hblank
      · cases rest with
        | nil => exact ⟨by rw [hcut, List.append_nil], hrest.symm⟩
        | cons x rest =>
          have hne : x.text ≠ [] := ne_nil_of_mem_ofText (t := source) (by rw [hsource, hcut]; simp)
          have hsize := Text.size_pos_of_ne_nil hne
          rw [hcut, text_append, text_cons, Text.size_append, Text.size_append] at hle
          omega
    exact ⟨by simp, hback, Text.eq_nil_of_size_eq_zero (by omega)⟩
  · exact .inr ((List.prefix_of_prefix_length_le ⟨_, hsource.symm⟩ ⟨_, hsplit.symm⟩ hge).imp
      fun _ => Eq.symm)

theorem stop_eq_size (h : e.Respaces source front last space next back kept old) :
    e.stop = (text (front ++ last :: space)).size := by
  have hspace := congrArg Text.size h.text_eq
  rw [h.stop_eq, h.start_eq, text_append, text_cons]
  simp only [Text.size_append] at hspace ⊢
  omega

/-- Where all whitespace goes in front of a comma, nothing else is put there. -/
theorem stop_lt_of_isPunct (h : e.Respaces source front last space next back kept old)
    (hcomma : next.isPunct ',' = true) (hne : space ≠ []) {e' : Edit} (h' : e'.IsRespacing source)
    (hle : e.stop ≤ e'.start) : e.stop < e'.stop := by
  have hsplit : ofText source = (front ++ last :: space) ++ next :: back := by
    rw [h.gap.split, List.append_assoc]
    rfl
  have hstop := h.stop_eq_size
  rcases h' with ⟨front', last', space', next', back', kept', old', h'⟩ | ⟨lead, next', back', h'⟩
  swap
  · -- no word stands in front of the first one
    have hlead := h'.eq_of_le hsplit h.gap.next_not (by rw [← hstop, ← h'.start_eq]; exact hle)
    have hblank := h'.isSpace last (by rw [← hlead]; simp)
    rw [h.gap.last_not] at hblank
    cases hblank
  rcases h'.passed_or_ahead hsplit h.gap.next_not (hstop ▸ hle) with
    ⟨hdone, hback, rfl⟩ | ⟨mid, rfl⟩
  · have hnil : space' = [] := by
      refine h'.eq_nil_of_text ?_
      rw [h'.text_eq, h'.whole (by rw [← (List.cons.inj hback).1]; exact hcomma)]
      rfl
    -- the last token of the gap is whitespace, and no word
    obtain ⟨more, t, rfl⟩ := (List.eq_nil_or_concat' space).resolve_left hne
    have hlast := congrArg List.getLast? hdone
    rw [hnil, ← List.cons_append, ← List.append_assoc, List.getLast?_concat, List.getLast?_concat,
      Option.some.injEq] at hlast
    have hblank := h.gap.isSpace t (by simp)
    rw [hlast, h'.gap.last_not] at hblank
    cases hblank
  · have hsize := Text.size_pos_of_ne_nil h'.readsBefore.ne_nil
    have hstart := h'.start_eq
    have hend := h'.stop_eq
    simp only [text_append, text_cons, Text.size_append] at hstart hstop
    omega

/-! ## The words in front of new whitespace -/

variable {new behind : Text}

/-- What is put in a gap offers the words in front of it nothing, if they do not end by themselves. -/
theorem offers (h : e.Respaces source front last space next back kept old) (hnew : new.IsBlank)
    (hhead : behind.head? = (text (next :: back)).head?) (hends : last.endsAnywhere = false) :
    ∃ c t, kept ++ e.replacement ++ (new ++ behind) = c :: t ∧ isBar c = true
      ∧ OffersNoMore (text space ++ text (next :: back)) (c :: t)
      ∧ OffersNoDigits (text space ++ text (next :: back)) (c :: t) := by
  have hfirst {c : Char} (hpunct : next.isPunct c = true) : (text (next :: back)).head? = some c := by
    rw [text_cons, Token.text_of_isPunct hpunct]
    rfl
  have hblank : (kept ++ e.replacement ++ new).IsBlank := h.isBlank_kept.append hnew
  rw [← List.append_assoc _ new]
  refine offers_blank h.isBlank_space hblank h.not_isSpace_next hhead (fun hnil => ?_) fun hnil => ?_
  · rcases h.apart (h.eq_nil_of_text hnil) with hlast | hbrace | hbrace
    · rw [hends] at hlast
      cases hlast
    · rw [hfirst hbrace]
      decide
    · rw [hfirst hbrace]
      decide
  · rw [List.append_eq_nil_iff, List.append_eq_nil_iff] at hnil
    exact hfirst (h.comma hnil.1.2)

/-- **The word in front of a gap stays** when its new whitespace is not swallowed, and so does what
the words in front of it find. -/
theorem seam (h : e.Respaces source front last space next back kept old) (hok : last.kind ≠ .error)
    (hnew : new.IsBlank) (hhead : behind.head? = (text (next :: back)).head?)
    (hfree : ¬ e.IsSwallowed source) :
    last.ReadsBefore (kept ++ e.replacement ++ (new ++ behind))
      ∧ StartsLike (text (last :: (space ++ next :: back)))
          (last.text ++ (kept ++ e.replacement ++ (new ++ behind))) := by
  rw [text_cons, text_append]
  cases hends : last.endsAnywhere with
  | true =>
    obtain ⟨c, w, htext, hc, hsame⟩ := h.readsBefore.exists_mark hends
    rw [htext]
    exact ⟨hsame _, .of_mark hc _ _⟩
  | false =>
    obtain ⟨c, t, hct, hbar, hoffers, hdigits⟩ := h.offers hnew hhead hends
    rw [hct]
    refine h.readsBefore.seam hok h.gap.last_not hoffers hdigits (startsName_of_isBar hbar t)
      fun hgoes => ?_
    rw [← hct]
    cases hkept : kept with
    | nil =>
      have hfeed : e.replacement.head? = some '\n' := by
        by_contra hfeed
        exact hfree (h.isSwallowed_iff.mpr ⟨hgoes, hkept, hfeed⟩)
      obtain ⟨rest, hrest⟩ := List.head?_eq_some_iff.mp hfeed
      rw [hrest]
      exact .inr rfl
    | cons d more =>
      rw [h.text_eq, hkept]
      exact .inl rfl

/-- **A word in front of a gap grows** when the new whitespace is swallowed. -/
theorem growsBefore (h : e.Respaces source front last space next back kept old)
    (hhead : behind.head? = (text (next :: back)).head?) (hswallowed : e.IsSwallowed source)
    (hnil : e.replacement = [] → new = []) :
    last.GrowsBefore (kept ++ e.replacement ++ (new ++ behind)) := by
  obtain ⟨hgoes, rfl, hfeed⟩ := h.isSwallowed_iff.mp hswallowed
  obtain ⟨c, t, hct, hc⟩ : ∃ c t, e.replacement ++ (new ++ behind) = c :: t ∧ isLineBreak c = false := by
    cases hput : e.replacement with
    | nil =>
      have hcomma := h.comma hput
      rw [text_cons, Token.text_of_isPunct hcomma] at hhead
      obtain ⟨t, ht⟩ := List.head?_eq_some_iff.mp hhead
      exact ⟨',', t, by rw [hnil hput, ht]; rfl, rfl⟩
    | cons c t =>
      rw [hput] at hfeed
      rcases h.char c (by rw [hput]; simp) with rfl | rfl
      · exact ⟨' ', t ++ (new ++ behind), rfl, rfl⟩
      · exact absurd rfl hfeed
  rw [List.nil_append, hct]
  exact h.readsBefore.growsBefore_of_isUnending hgoes hc t

end Respaces

/-! ## Several edits -/

/-- Substitution behind a front that all edits leave alone. -/
theorem Substituted.drop {pos : Nat} {front rest out : Text} {es : List Edit}
    (h : Substituted pos (front ++ rest) es out) (hes : ∀ e ∈ es, pos + front.size ≤ e.start) :
    ∃ out', out = front ++ out' ∧ Substituted (pos + front.size) rest es out' := by
  generalize hwhole : front ++ rest = whole at h
  cases h with
  | nil => exact ⟨rest, hwhole.symm, .nil _ _⟩
  | @cons _ kept old later out e es start_eq stop_eq more =>
    have hle := hes e List.mem_cons_self
    rw [List.append_assoc] at hwhole
    obtain ⟨kept', rfl, rfl⟩ := exists_of_append_eq hwhole (by omega)
    rw [Text.size_append] at start_eq
    refine ⟨kept' ++ e.replacement ++ out, by simp, ?_⟩
    rw [← List.append_assoc]
    exact .cons (by omega) stop_eq more

/-- What edits from an offset on make of the tokens there: some whitespace, and a text in which the
words are the old ones, or greater if an edit is swallowed. -/
structure Rewritten (source : Text) (pos : Nat) (es : List Edit) (ts : List Token)
    (space behind : Text) : Prop where
  blank : space.IsBlank
  nil : (∀ e ∈ es, pos < e.stop) → space = []
  head : behind.head? = (text ts).head?
  kept : (∀ e ∈ es, ¬ e.IsSwallowed source) → ∀ place, words (ofTextAt place behind) = words ts
  grown : (∃ e ∈ es, e.IsSwallowed source) →
    ∀ place, wordLengths ts < wordLengths (ofTextAt place behind)

section

variable {source new behind kept old : Text} {front space back mid done ts : List Token}
  {last next first : Token} {e : Edit} {es : List Edit} {pos : Nat}

theorem Respaces.legible_mid
    (h : e.Respaces source (done ++ mid) last space next back kept old) :
    Legible (mid ++ last :: (space ++ next :: back)) := by
  have hlegible := h.legible
  rw [List.append_assoc] at hlegible
  exact hlegible.of_append

theorem Respaces.mem_mid (h : e.Respaces source (done ++ mid) last space next back kept old)
    {t : Token} (ht : t ∈ mid) : t ∈ ofText source := by
  rw [h.gap.split]
  simp [ht]

/-- The words up to a gap, when the edit of it is not swallowed. -/
theorem Respaces.words_eq (h : e.Respaces source (done ++ mid) last space next back kept old)
    (herror : ∀ t ∈ ofText source, t.kind ≠ .error) (hnew : new.IsBlank)
    (hhead : behind.head? = (text (next :: back)).head?) (hfree : ¬ e.IsSwallowed source)
    (place place' : Position) :
    words (ofTextAt place
        (text mid ++ (last.text ++ (kept ++ e.replacement ++ (new ++ behind))))) =
      words (mid ++ [last]) ++ words (ofTextAt place' behind) := by
  obtain ⟨hreads, hlike⟩ := h.seam (herror last h.mem_last) hnew hhead hfree
  have hblank : (kept ++ e.replacement ++ new).IsBlank := h.isBlank_kept.append hnew
  rw [words_of_startsLike h.legible_mid (fun t ht => herror t (h.mem_mid ht)) hlike place place',
    words_of_readsBefore hreads place' place', ← List.append_assoc _ new,
    words_blank_append hblank place' place', words_append, List.append_assoc]

/-- The lengths of the words from a gap on, when the edit of it is swallowed. -/
theorem Respaces.wordLengths_lt (h : e.Respaces source (done ++ mid) last space next back kept old)
    (herror : ∀ t ∈ ofText source, t.kind ≠ .error) (hnew : new.IsBlank)
    (hhead : behind.head? = (text (next :: back)).head?) (hswallowed : e.IsSwallowed source)
    (hnil : e.replacement = [] → new = []) (place : Position) :
    wordLengths (mid ++ last :: (space ++ next :: back)) <
      wordLengths (ofTextAt place
        (text mid ++ (last.text ++ (kept ++ e.replacement ++ (new ++ behind))))) := by
  have hends : last.endsAnywhere = false := by
    refine Bool.eq_false_iff.mpr fun hends => ?_
    have hgoes := (h.isSwallowed_iff.mp hswallowed).1
    rw [h.readsBefore.isUnending_of_endsAnywhere hends] at hgoes
    cases hgoes
  obtain ⟨c, t, hct, -, hoffers, hdigits⟩ := h.offers hnew hhead hends
  have hgrows := h.growsBefore hhead hswallowed hnil
  rw [hct] at hgrows ⊢
  refine wordLengths_lt_of_append h.legible_mid (fun t ht => herror t (h.mem_mid ht)) ?_ ?_ ?_ place
    place ?_
  · rw [text_cons, text_append]
    exact hoffers.append _
  · rw [text_cons, text_append]
    exact hdigits.append _
  · rw [text_cons, List.head?_append_of_ne_nil _ h.readsBefore.ne_nil,
      List.head?_append_of_ne_nil _ h.readsBefore.ne_nil]
  · exact wordLengths_lt_of_growsBefore h.readsBefore h.gap.last_not hgrows _ place

/-- **One edit more**, in front of others. -/
theorem Respaces.rewritten (h : e.Respaces source (done ++ mid) last space next back kept old)
    (herror : ∀ t ∈ ofText source, t.kind ≠ .error)
    (hes : ∀ e' ∈ es, e'.IsRespacing source ∧ e.stop ≤ e'.start)
    (hlater : Rewritten source e.stop es (next :: back) new behind) :
    Rewritten source pos (e :: es) (mid ++ last :: (space ++ next :: back)) []
      (text mid ++ (last.text ++ (kept ++ e.replacement ++ (new ++ behind)))) := by
  have hwords : words (mid ++ last :: (space ++ next :: back)) =
      words (mid ++ [last]) ++ words (next :: back) := by
    have hsplit : mid ++ last :: (space ++ next :: back) =
        (mid ++ [last]) ++ space ++ next :: back := by
      simp
    rw [hsplit, words_append, words_append _ space, words_of_isSpace h.gap.isSpace, List.append_nil]
  refine ⟨by simp [Text.IsBlank], fun _ => rfl, ?_, fun hfree place => ?_, fun hsome place => ?_⟩
  · have hne : text mid ++ last.text ≠ [] :=
      List.append_ne_nil_of_right_ne_nil _ h.readsBefore.ne_nil
    rw [text_append, text_cons, ← List.append_assoc, ← List.append_assoc (text mid) last.text,
      List.head?_append_of_ne_nil _ hne, List.head?_append_of_ne_nil _ hne]
  · rw [List.forall_mem_cons] at hfree
    rw [h.words_eq herror hlater.blank hlater.head hfree.1 place place, hlater.kept hfree.2 place,
      hwords]
  · by_cases hswallowed : e.IsSwallowed source
    · refine h.wordLengths_lt herror hlater.blank hlater.head hswallowed (fun hput => ?_) place
      refine hlater.nil fun e' he' => ?_
      have hne : space ≠ [] := fun hnil => by
        have hgoes := (h.isSwallowed_iff.mp hswallowed).1
        rw [h.isUnending_of_nil hnil] at hgoes
        cases hgoes
      exact h.stop_lt_of_isPunct (h.comma hput) hne (hes e' he').1 (hes e' he').2
    · have hmore : ∃ e ∈ es, e.IsSwallowed source := by simpa [hswallowed] using hsome
      rw [wordLengths, wordLengths, h.words_eq herror hlater.blank hlater.head hswallowed place place,
        hwords, List.map_append, List.map_append]
      exact List.append_left_lt (hlater.grown hmore place)

theorem Respaces.not_isSwallowed (h : e.Respaces source front last space next back kept []) :
    ¬ e.IsSwallowed source := by
  rw [h.isSwallowed_iff]
  rintro ⟨hgoes, rfl, -⟩
  rw [h.isUnending_of_nil (h.eq_nil_of_text h.text_eq)] at hgoes
  cases hgoes

/-- An insertion right behind what is passed, in front of others. -/
theorem Rewritten.cons_passed (hlater : Rewritten source pos es ts new behind)
    (hchar : ∀ c ∈ e.replacement, c = ' ' ∨ c = '\n') (hpos : pos = e.stop)
    (hfree : ¬ e.IsSwallowed source) :
    Rewritten source pos (e :: es) ts (e.replacement ++ new) behind := by
  have hput : Text.IsBlank e.replacement := fun c hc => by
    rcases hchar c hc with rfl | rfl <;> rfl
  refine ⟨hput.append hlater.blank, fun hall => ?_, hlater.head, fun hnone => ?_, fun hsome => ?_⟩
  · have := hall e List.mem_cons_self
    omega
  · exact hlater.kept (List.forall_mem_cons.mp hnone).2
  · exact hlater.grown (by simpa [hfree] using hsome)

/-- **Substitution in gaps keeps the words or lets them grow**, behind some whitespace of the gap just
passed. -/
theorem Substituted.rewritten {rest out : Text} (h : Substituted pos rest es out)
    (hsource : ofText source = done ++ first :: ts) (hpos : pos = (text done).size)
    (hrest : rest = text (first :: ts)) (hfirst : first.isWhitespace = false)
    (hes : ∀ e ∈ es, e.IsRespacing source) (herror : ∀ t ∈ ofText source, t.kind ≠ .error) :
    ∃ space behind, out = space ++ behind ∧ Rewritten source pos es (first :: ts) space behind := by
  induction h generalizing done first ts with
  | nil pos rest =>
    have hread : ofTextAt .start source = done ++ first :: ts := hsource
    obtain ⟨place₀, hplace⟩ := exists_ofTextAt_of_append hread
    refine ⟨[], rest, rfl, by simp [Text.IsBlank], fun _ => rfl, by rw [hrest], fun _ place => ?_, ?_⟩
    · rw [words_ofTextAt place₀ place, hrest, hplace]
    · rintro ⟨e, he, -⟩
      cases he
  | @cons pos keptText oldText rest out e es start_eq stop_eq more ih =>
    rw [List.forall_mem_cons] at hes
    obtain ⟨hedit, hes⟩ := hes
    -- an insertion right behind what is passed leaves all words in front of it
    have hinsert (hstart : e.start = pos) (hstop : e.stop = e.start)
        (hchar : ∀ c ∈ e.replacement, c = ' ' ∨ c = '\n') (hfree : ¬ e.IsSwallowed source) :
        ∃ space behind, keptText ++ e.replacement ++ out = space ++ behind
          ∧ Rewritten source pos (e :: es) (first :: ts) space behind := by
      obtain rfl : keptText = [] := Text.eq_nil_of_size_eq_zero (by omega)
      obtain rfl : oldText = [] := Text.eq_nil_of_size_eq_zero (by omega)
      obtain ⟨space', behind, rfl, hlater⟩ := ih hsource (by omega) hrest hfirst hes
      have hpos' : pos = e.stop := by omega
      exact ⟨e.replacement ++ space', behind, by simp,
        (hpos' ▸ hlater : Rewritten source pos es _ _ _).cons_passed hchar hpos' hfree⟩
    rcases hedit with ⟨front, last, space, next, back, kept, old, h⟩ | ⟨lead, next, back, h⟩
    swap
    · have hlead := h.eq_of_le hsource hfirst (by rw [← h.start_eq]; omega)
      exact hinsert (by rw [h.start_eq, hpos, hlead]) h.stop_eq h.char h.not_isSwallowed
    have hstop := h.stop_eq_size
    rcases h.passed_or_ahead hsource hfirst (by omega) with ⟨rfl, hback, rfl⟩ | ⟨mid, rfl⟩
    · have hend := h.stop_eq
      rw [Text.size_nil] at hend
      exact hinsert (by omega) hend h.char h.not_isSwallowed
    · have hhere : first :: ts = mid ++ last :: (space ++ next :: back) := by
        have hsplit := hsource.symm.trans h.gap.split
        rw [List.append_assoc, List.append_cancel_left_eq] at hsplit
        exact hsplit
      have hcut : keptText ++ oldText ++ rest =
          (text mid ++ last.text ++ kept) ++ old ++ text (next :: back) := by
        rw [hrest, hhere]
        simp only [text_append, text_cons, h.text_eq, List.append_assoc]
      have hstart := h.start_eq
      have hend := h.stop_eq
      simp only [text_append, Text.size_append] at hstart
      obtain ⟨hfront, rfl⟩ := eq_of_append_eq hcut (by simp only [Text.size_append]; omega)
      obtain ⟨rfl, -⟩ := eq_of_append_eq hfront (by simp only [Text.size_append]; omega)
      have hsplit : ofText source = (done ++ mid ++ last :: space) ++ next :: back := by
        rw [h.gap.split]
        simp
      obtain ⟨space', behind, rfl, hlater⟩ := ih hsplit hstop rfl h.gap.next_not hes
      refine ⟨[], _, ?_, hhere ▸ h.rewritten herror (fun e' he' => ⟨hes e' he', more.le_start e' he'⟩) hlater⟩
      simp only [List.nil_append, List.append_assoc]

end

/-- **Edits of gaps keep the words of a text, unless one is swallowed**: then the words grow. -/
theorem words_of_applyAll? {source out : Text} {edits : List Edit}
    (h : applyAll? source edits = some out)
    (hconflict : edits.Pairwise fun a b => a.conflicts b = false)
    (hedits : ∀ e ∈ edits, e.IsRespacing source)
    (herror : ∀ t ∈ ofText source, t.kind ≠ .error) :
    ((∀ e ∈ edits, ¬ e.IsSwallowed source) → words (ofText out) = words (ofText source))
      ∧ ((∃ e ∈ edits, e.IsSwallowed source) →
        wordLengths (ofText source) < wordLengths (ofText out)) := by
  have hwalk := substituted_of_applyAll? h hconflict
  have hperm := perm_inOrder edits
  have hedits' : ∀ e ∈ inOrder edits, e.IsRespacing source := fun e he => hedits e (hperm.subset he)
  by_cases hne : edits = []
  · obtain rfl : source = out := by simpa [hne, applyAll?, applyInTurn?] using h
    simp [hne]
  · obtain ⟨e, he⟩ := List.exists_mem_of_ne_nil edits hne
    obtain ⟨lead, first, ts, hsource, hlead, hfirst⟩ := exists_first_word (hedits e he).exists_word
    have htext : source = text lead ++ text (first :: ts) := by
      rw [← text_append, ← hsource, text_ofText]
    have hpast : ∀ e ∈ inOrder edits, 0 + (text lead).size ≤ e.start := fun e he => by
      rw [Nat.zero_add]
      exact (hedits' e he).size_le_start hsource hlead
    rw [htext] at hwalk
    obtain ⟨out, rfl, hmore⟩ := hwalk.drop hpast
    obtain ⟨space, behind, rfl, hbehind⟩ :=
      hmore.rewritten hsource (Nat.zero_add _) rfl hfirst hedits' herror
    have hread : ofTextAt .start source = [] ++ (lead ++ first :: ts) := hsource
    have hblank : (text lead).IsBlank := isBlank_text_of_isSpace hread hlead
    have hwords := words_blank_append (hblank.append hbehind.blank) .start .start behind
    rw [List.append_assoc] at hwords
    have hold : words (ofText source) = words (first :: ts) := by
      rw [hsource, words_append, words_of_isSpace hlead, List.nil_append]
    rw [wordLengths, wordLengths, ofText, hwords, hold]
    refine ⟨fun hfree => hbehind.kept (fun e he => hfree e (hperm.subset he)) .start, ?_⟩
    rintro ⟨e, he, hswallowed⟩
    exact hbehind.grown ⟨e, hperm.symm.subset he, hswallowed⟩ .start

end Edit

end SheetLint
