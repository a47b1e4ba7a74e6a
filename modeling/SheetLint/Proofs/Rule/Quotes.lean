import SheetLint.Proofs.Edit.Tokens
import SheetLint.Proofs.Rule.Rewriting
import SheetLint.Proofs.Token.Replacement
import SheetLint.Proofs.Tree.Defects

/-!
# What the preferred quotes do to the tokens of a text

The rule about quotes marks the strings between other quotes than the preferred ones, unless those
occur inside, and its fixes put the preferred quotes around the same content. A string ends with the
first of its quotes that no backslash hides, so it ends where it did, and no token in front of it looks
at which quotes it has. So any of the fixes may be applied together, and they change the strings that
they are about and no other token. After all of them no string is marked.

Results:
* `QuoteStyle.stringFinding_cases`: the strings that are marked.
* `QuoteStyle.legible_exchanged`: a text with other quotes around some strings is read as that.
* `QuoteStyle.quotes_exchanged`: what any of the fixes make of the tokens of a text, and what is found
  after all of them.
-/

namespace SheetLint.QuoteStyle

open Scan Tokens

variable {source s : Text} {preferred : Quote} {t k : Token} {ts fixed : List Token}

/-! ## The strings that are marked -/

/-- What stands between the quotes of a string. -/
def content (t : Token) : Text := (t.text.drop 1).dropLast

/-- The string with the same content between the preferred quotes. -/
def requoted (preferred : Quote) (t : Token) : Token :=
  ⟨.string, preferred.char :: content t ++ [preferred.char], default⟩

/-- A token, between the preferred quotes if it is one of some strings. -/
def exchanged (preferred : Quote) (fixed : List Token) (t : Token) : Token :=
  if t ∈ fixed then requoted preferred t else t.bare

/-- Whether a token is a string between other quotes than the preferred ones, which do not occur in
it. -/
structure IsOther (preferred : Quote) (t : Token) : Prop where
  kind : t.kind = .string
  quotes : ∃ q : Quote, q ≠ preferred ∧ t.text = q.char :: content t ++ [q.char]
  free : preferred.char ∉ content t

/-- The finding for a string. -/
def finding (preferred : Quote) (t : Token) : Finding where
  span := t.span
  message := "Strings should use " ++ preferred.word ++ " quotes"
  fix := some (.replace ("Use " ++ preferred.word ++ " quotes") t.start t.stop
    (preferred.char :: content t ++ [preferred.char]))

theorem exists_quote {c : Char} (hc : isQuote c = true) : ∃ q : Quote, q.char = c := by
  have hc' : c = '"' ∨ c = '\'' := by simpa [isQuote] using hc
  rcases hc' with rfl | rfl
  · exact ⟨.double, rfl⟩
  · exact ⟨.single, rfl⟩

/-- A string is its content between two quotes. -/
theorem exists_quotes (h : t.ReadsBefore s) (hkind : t.kind = .string) :
    ∃ q : Quote, t.text = q.char :: content t ++ [q.char] := by
  obtain ⟨c, w, htext, hscan⟩ := h
  rw [hkind] at hscan
  obtain ⟨hc, inner, rfl, -⟩ := exists_content_of_string hscan
  obtain ⟨q, rfl⟩ := exists_quote hc
  refine ⟨q, ?_⟩
  rw [content, htext, List.drop_succ_cons, List.drop_zero, List.dropLast_concat, List.cons_append]

/-- What a string between the preferred quotes is read in front of: anything. -/
theorem readsBefore_requoted (h : t.ReadsBefore s) (ht : IsOther preferred t) (s' : Text) :
    (requoted preferred t).ReadsBefore s' := by
  obtain ⟨c, w, htext, hscan⟩ := h
  rw [ht.kind] at hscan
  obtain ⟨-, inner, rfl, hstring⟩ := exists_content_of_string hscan
  have hinner : content t = inner := by
    rw [content, htext, List.drop_succ_cons, List.drop_zero, List.dropLast_concat]
  have hread := hstring _ (isQuote_char preferred) (hinner ▸ ht.free) s'
  refine ⟨preferred.char, inner ++ [preferred.char], by rw [requoted, hinner, List.cons_append], ?_⟩
  rw [List.append_assoc, List.singleton_append, hread, List.length_append, List.length_singleton]
  rfl

/-- **A string is marked or it is not**, and the ones that are stand between other quotes. -/
theorem stringFinding_cases (h : t.ReadsBefore s) (preferred : Quote) :
    stringFinding preferred t = [finding preferred t] ∧ IsOther preferred t
      ∨ stringFinding preferred t = [] := by
  unfold stringFinding
  simp only
  split
  · rename_i htest
    simp only [Bool.and_eq_true, beq_iff_eq, bne_iff_ne, Bool.not_eq_true', ← Bool.not_eq_true,
      List.contains_iff_mem] at htest
    obtain ⟨⟨hkind, hhead⟩, hfree⟩ := htest
    obtain ⟨q, htext⟩ := exists_quotes h hkind
    refine .inl ⟨rfl, hkind, ⟨q, ?_, htext⟩, hfree⟩
    rintro rfl
    exact hhead (by rw [htext]; rfl)
  · exact .inr rfl

/-- What is found at a token does not depend on its place. -/
theorem stringFinding_eq_nil (hkind : k.kind = t.kind) (htext : k.text = t.text)
    (h : stringFinding preferred t = []) : stringFinding preferred k = [] := by
  unfold stringFinding at h ⊢
  rw [hkind, htext]
  simp only [ite_eq_right_iff, reduceCtorEq, imp_false] at h ⊢
  exact h

/-- Nothing is found at a string between the preferred quotes. -/
theorem stringFinding_requoted (htext : k.text = (requoted preferred t).text) :
    stringFinding preferred k = [] := by
  unfold stringFinding
  rw [htext]
  simp [requoted]

/-- **What the rule finds is one finding for each of some strings.** -/
theorem exists_others (preferred : Quote) (source : Text) :
    ∃ others : List Token, others.Sublist (ofText source) ∧ (∀ t ∈ others, IsOther preferred t)
      ∧ (∀ t ∈ ofText source, t ∉ others → stringFinding preferred t = [])
      ∧ check preferred source (Parse.ofText source).sheet = others.map (finding preferred) := by
  have hall (ts : List Token) (h : Legible ts) : ∃ others : List Token, others.Sublist ts
      ∧ (∀ t ∈ others, IsOther preferred t)
      ∧ (∀ t ∈ ts, t ∉ others → stringFinding preferred t = [])
      ∧ ts.flatMap (stringFinding preferred) = others.map (finding preferred) := by
    induction ts with
    | nil => exact ⟨[], .slnil, by simp, by simp, rfl⟩
    | cons t ts ih =>
      obtain ⟨others, hsub, hothers, hnone, hfound⟩ := ih h.2
      rw [List.flatMap_cons, hfound]
      rcases stringFinding_cases h.1 preferred with ⟨hsome, ht⟩ | hempty
      · refine ⟨t :: others, hsub.cons_cons t, List.forall_mem_cons.mpr ⟨ht, hothers⟩, ?_, ?_⟩
        · rw [List.forall_mem_cons]
          refine ⟨fun hnot => absurd List.mem_cons_self hnot, fun u hu hnot => ?_⟩
          exact hnone u hu fun hmem => hnot (List.mem_cons_of_mem t hmem)
        · rw [hsome, List.map_cons, List.singleton_append]
      · refine ⟨others, hsub.cons t, hothers, List.forall_mem_cons.mpr ⟨fun _ => hempty, hnone⟩, ?_⟩
        rw [hempty, List.nil_append]
  rw [check, Parse.tokens_ofText]
  exact hall _ (legible_ofText source)

/-! ## What the fixes do -/

theorem exchanged_of_mem (h : t ∈ fixed) : exchanged preferred fixed t = requoted preferred t :=
  if_pos h

theorem exchanged_of_not_mem (h : t ∉ fixed) : exchanged preferred fixed t = t.bare := if_neg h

theorem map_bare_exchanged (ts : List Token) :
    (ts.map (exchanged preferred fixed)).map Token.bare = ts.map (exchanged preferred fixed) := by
  rw [List.map_map]
  refine List.map_congr_left fun t _ => ?_
  rw [Function.comp_apply, exchanged]
  split <;> rfl

/-- **A text with other quotes around some strings is read as that.** -/
theorem legible_exchanged (h : Legible ts) (herror : ∀ t ∈ ts, t.kind ≠ .error)
    (hfixed : ∀ t ∈ fixed, IsOther preferred t) :
    Legible (ts.map (exchanged preferred fixed))
      ∧ TakesPlace (text ts) (text (ts.map (exchanged preferred fixed))) := by
  induction ts with
  | nil => exact ⟨trivial, (StartsLike.refl []).takesPlace⟩
  | cons t ts ih =>
    rw [List.forall_mem_cons] at herror
    obtain ⟨hlegible, hplace⟩ := ih h.2 herror.2
    rw [List.map_cons, text_cons, text_cons]
    by_cases ht : t ∈ fixed
    · obtain ⟨q, -, htext⟩ := (hfixed t ht).quotes
      rw [exchanged_of_mem ht, htext]
      exact ⟨⟨readsBefore_requoted h.1 (hfixed t ht) _, hlegible⟩,
        .of_isQuote (isQuote_char q) (isQuote_char preferred) _ _⟩
    · rw [exchanged_of_not_mem ht]
      exact ⟨⟨(h.1.of_takesPlace herror.1 hplace).congr rfl rfl, hlegible⟩, hplace.append t.text⟩

/-- The edit for a string. -/
def edit (preferred : Quote) (t : Token) : Edit := ⟨t.start, t.stop, (requoted preferred t).text⟩

theorem edits_map_finding (ts : List Token) :
    ((ts.map (finding preferred)).filterMap Finding.fix).flatMap Fix.edits =
      ts.map (edit preferred) := by
  induction ts with
  | nil => rfl
  | cons t ts ih => exact congrArg (edit preferred t :: ·) ih

/-- What the edits for some strings make of a text. -/
theorem exists_applyAll? (hok : (Parse.ofText source).isOk = true) (hsub : fixed.Sublist (ofText source))
    (hfixed : ∀ t ∈ fixed, IsOther preferred t) :
    ∃ out, Edit.applyAll? source (fixed.map (edit preferred)) = some out
      ∧ (ofText out).map Token.bare = (ofText source).map (exchanged preferred fixed) := by
  have hone : (ofText source).map (exchanged preferred fixed) =
      (ofText source).flatMap fun t => [exchanged preferred fixed t] := List.map_eq_flatMap
  have happly : Edit.applyAll? source (fixed.map (edit preferred)) =
      some (text ((ofText source).map (exchanged preferred fixed))) := by
    rw [hone]
    refine Edit.applyAll?_map hsub (fun t _ hnot => ?_) fun t ht => ?_
    · rw [exchanged_of_not_mem hnot]
      exact List.append_nil _
    · rw [exchanged_of_mem ht]
      exact ⟨[], t.text, rfl, rfl, rfl, List.append_nil _⟩
  have hread := legible_ofText source
  have hlegible := (legible_exchanged hread (Parse.kind_ne_error hok) hfixed).1
  exact ⟨_, happly, ((legible_iff .start).mp hlegible).trans (map_bare_exchanged _)⟩

/-- **What any of the fixes make of the tokens of a text.** Each is about a string between other quotes.
Applied together they give a text that is read as the old tokens, with the preferred quotes around these
strings. In the text that all of them give, nothing is found. -/
theorem quotes_exchanged (preferred : Quote) (source : Text)
    (hok : (Parse.ofText source).isOk = true) :
    let found := check preferred source (Parse.ofText source).sheet
    (∀ chosen : List Finding, chosen.Sublist found →
      ∃ fixed : List Token, fixed.Sublist (ofText source)
        ∧ fixed.map Token.span = chosen.map Finding.span ∧ (∀ t ∈ fixed, IsOther preferred t)
        ∧ ∃ out, Edit.applyAll? source ((chosen.filterMap Finding.fix).flatMap Fix.edits) = some out
          ∧ (ofText out).map Token.bare = (ofText source).map (exchanged preferred fixed))
      ∧ ∃ out, Edit.applyAll? source ((found.filterMap Finding.fix).flatMap Fix.edits) = some out
        ∧ check preferred out (Parse.ofText out).sheet = [] := by
  intro found
  obtain ⟨others, hothers, hmarked, hunmarked, hfound⟩ := exists_others preferred source
  have hfound : found = others.map (finding preferred) := hfound
  rw [hfound]
  constructor
  · intro chosen hchosen
    obtain ⟨fixed, hfixed, rfl⟩ := List.sublist_map_iff.mp hchosen
    have hother : ∀ t ∈ fixed, IsOther preferred t := fun t ht => hmarked t (hfixed.subset ht)
    obtain ⟨out, happly, htokens⟩ := exists_applyAll? hok (hfixed.trans hothers) hother
    refine ⟨fixed, hfixed.trans hothers, ?_, hother, out, by rw [edits_map_finding, happly], htokens⟩
    rw [List.map_map]
    rfl
  · obtain ⟨out, happly, htokens⟩ := exists_applyAll? hok hothers hmarked
    refine ⟨out, by rw [edits_map_finding, happly], List.flatMap_eq_nil_iff.mpr fun k hk => ?_⟩
    rw [Parse.tokens_ofText] at hk
    have hmem := List.mem_map_of_mem (f := Token.bare) hk
    rw [htokens] at hmem
    obtain ⟨t, ht, hbare⟩ := List.mem_map.mp hmem
    by_cases hin : t ∈ others
    · rw [exchanged_of_mem hin] at hbare
      exact stringFinding_requoted (congrArg Token.text hbare).symm
    · rw [exchanged_of_not_mem hin] at hbare
      have hkind : k.kind = t.kind := (congrArg Token.kind hbare).symm
      exact stringFinding_eq_nil hkind (congrArg Token.text hbare).symm (hunmarked t ht hin)

namespace Escape

/-- A text with a string that holds an escape, and one that holds a quote. -/
def escaped : Text := "a\x7bb:\"\\c\"\"'\"\x7d".toList

/-- The first of the strings. -/
def marked : Token := ⟨.string, "\"\\c\"".toList, ⟨⟨4, 1, 5⟩, ⟨8, 1, 9⟩⟩⟩

theorem isOk_escaped : (Parse.ofText escaped).isOk = true := by cbv

theorem ofText_escaped :
    ofText escaped =
      [⟨.ident, ['a'], ⟨⟨0, 1, 1⟩, ⟨1, 1, 2⟩⟩⟩, ⟨.punct, ['\x7b'], ⟨⟨1, 1, 2⟩, ⟨2, 1, 3⟩⟩⟩,
        ⟨.ident, ['b'], ⟨⟨2, 1, 3⟩, ⟨3, 1, 4⟩⟩⟩, ⟨.punct, [':'], ⟨⟨3, 1, 4⟩, ⟨4, 1, 5⟩⟩⟩, marked,
        ⟨.string, "\"'\"".toList, ⟨⟨8, 1, 9⟩, ⟨11, 1, 12⟩⟩⟩,
        ⟨.punct, ['\x7d'], ⟨⟨11, 1, 12⟩, ⟨12, 1, 13⟩⟩⟩] := by cbv

end Escape

/-- Of two strings the one with an escape in it is marked, the one with a quote in it is not. -/
theorem quotes_exchanged_around_escape :
    let found := check .single Escape.escaped (Parse.ofText Escape.escaped).sheet
    (Parse.ofText Escape.escaped).isOk = true ∧ found = [finding .single Escape.marked]
      ∧ (∃ fixed : List Token, fixed.map Token.span = [Escape.marked.span]
        ∧ ∃ out, Edit.applyAll? Escape.escaped [⟨4, 8, "'\\c'".toList⟩] = some out
          ∧ (ofText out).map Token.bare = (ofText Escape.escaped).map (exchanged .single fixed))
      ∧ ∃ out, Edit.applyAll? Escape.escaped [⟨4, 8, "'\\c'".toList⟩] = some out
        ∧ check .single out (Parse.ofText out).sheet = [] := by
  intro found
  have hfound : found = [finding .single Escape.marked] := by
    rw [show found = (Parse.ofText Escape.escaped).sheet.tokens.flatMap (stringFinding .single) from rfl,
      Parse.tokens_ofText, Escape.ofText_escaped]
    rfl
  obtain ⟨hany, hall⟩ := quotes_exchanged .single Escape.escaped Escape.isOk_escaped
  obtain ⟨fixed, -, hfixed, -, hout⟩ := hany found (List.Sublist.refl _)
  rw [show check .single Escape.escaped (Parse.ofText Escape.escaped).sheet = _ from hfound] at hall
  rw [hfound] at hfixed hout
  exact ⟨Escape.isOk_escaped, hfound, ⟨fixed, hfixed, hout⟩, hall⟩

end SheetLint.QuoteStyle
