import SheetLint.Proofs.Edit.Applicable

/-!
# Edits of tokens

An edit of a token keeps the front of its text and replaces the rest: all of it when the token is
replaced, nothing when something is put behind it. Edits of different tokens of a text do not
conflict, and applied together they give the texts of the tokens, some of them new.

Results:
* `Tokens.substituted_ofTextAt`: a walk through a text, token by token.
* `map_eq_filterMap`: a part of a list without copies, as a choice of its elements.
* `Edit.applyAll?_map`: what edits of some tokens make of a text.
-/

namespace SheetLint

open Tokens

/-- A choice that leaves out all elements but those of a part without copies is one among these. -/
theorem filterMap_eq_of_sublist {α β : Type} {ks ts : List α} {choose : α → Option β}
    (h : ks.Sublist ts) (hnodup : ts.Nodup) (hnone : ∀ t ∈ ts, t ∉ ks → choose t = none) :
    ts.filterMap choose = ks.filterMap choose := by
  induction h with
  | slnil => rfl
  | @cons ks ts t hsub ih =>
    obtain ⟨hnew, hnodup⟩ := List.nodup_cons.mp hnodup
    rw [List.forall_mem_cons] at hnone
    rw [List.filterMap_cons_none (hnone.1 fun ht => hnew (hsub.mem ht)), ih hnodup hnone.2]
  | @cons_cons ks ts t hsub ih =>
    obtain ⟨hnew, hnodup⟩ := List.nodup_cons.mp hnodup
    rw [List.filterMap_cons, List.filterMap_cons, ih hnodup fun u hu hnot => ?_]
    refine hnone u (List.mem_cons_of_mem t hu) fun hmem => ?_
    rcases List.mem_cons.mp hmem with rfl | hmem
    · exact hnew hu
    · exact hnot hmem

/-- **A part of a list without copies** is a choice of its elements. -/
theorem map_eq_filterMap {α β : Type} [DecidableEq α] {ks ts : List α} (f : α → β)
    (h : ks.Sublist ts) (hnodup : ts.Nodup) :
    ks.map f = ts.filterMap fun t => if t ∈ ks then some (f t) else none := by
  rw [filterMap_eq_of_sublist h hnodup fun t _ hnot => if_neg hnot]
  have hall : ks.filterMap (fun t => if t ∈ ks then some (f t) else none) = ks.filterMap (some ∘ f) :=
    List.filterMap_congr fun t ht => if_pos ht
  rw [hall, List.filterMap_eq_map]

/-- Whether an edit makes another text of a token, the front of which it keeps. -/
def Edit.Rewrites (e : Edit) (t : Token) (new : Text) : Prop :=
  ∃ kept old, t.text = kept ++ old ∧ e.start = t.start + kept.size ∧ e.stop = t.stop
    ∧ new = kept ++ e.replacement

namespace Tokens

variable {place : Position} {source s : Text} {t u : Token}

theorem stop_eq (ht : t ∈ ofTextAt place s) : t.stop = t.start + t.text.size := by
  obtain ⟨before, after, h⟩ := List.append_of_mem ht
  have hspan := span_of_ofTextAt place s before h
  rw [Token.start, Token.stop, hspan, Position.advance_offset, Position.advance_offset,
    Text.size_append, Nat.add_assoc]

/-- Tokens hold something and stand behind the place where their text starts. -/
theorem start_lt_stop (ht : t ∈ ofTextAt place s) : place.offset ≤ t.start ∧ t.start < t.stop := by
  obtain ⟨before, after, h⟩ := List.append_of_mem ht
  have hspan := span_of_ofTextAt place s before h
  have hsize := Text.size_pos_of_ne_nil (ne_nil_of_mem_ofTextAt ht)
  have hstop := stop_eq ht
  have hstart : t.start = place.offset + (text before).size := by
    rw [Token.start, hspan, Position.advance_offset]
  omega

/-- Each token stands behind those in front of it. -/
theorem pairwise_ofTextAt (place : Position) (s : Text) :
    (ofTextAt place s).Pairwise fun t u => t.stop ≤ u.start := by
  fun_induction ofTextAt place s with
  | case1 => exact List.Pairwise.nil
  | case2 place c rest scanned more taken stop ih =>
    exact List.pairwise_cons.mpr ⟨fun u hu => (start_lt_stop hu).1, ih⟩

/-- No two tokens of a text are the same. -/
theorem nodup_ofText (source : Text) : (ofText source).Nodup := by
  refine (pairwise_ofTextAt .start source).imp_of_mem fun {t u} ht _ hle heq => ?_
  subst heq
  exact absurd hle (Nat.not_le.mpr (start_lt_stop ht).2)

/-- Tokens of a text that start in one place are the same. -/
theorem eq_of_start_eq (ht : t ∈ ofText source) (hu : u ∈ ofText source) (hstart : t.start = u.start) :
    t = u := by
  by_contra hne
  have hpair : ∀ x y : Token, x.stop ≤ y.start → x.start < x.stop → x.start ≠ y.start := by
    intro x y hle hlt heq
    omega
  have hsymm : Std.Symm fun x y : Token => x.start ≠ y.start := ⟨fun _ _ => Ne.symm⟩
  have hapart : (ofText source).Pairwise fun x y => x.start ≠ y.start :=
    (pairwise_ofTextAt .start source).imp_of_mem fun {x y} hx _ hle =>
      hpair x y hle (start_lt_stop hx).2
  exact hapart.forall ht hu hne hstart

/-- Tokens of a text with one span are the same. -/
theorem eq_of_span_eq (ht : t ∈ ofText source) (hu : u ∈ ofText source) (hspan : t.span = u.span) :
    t = u := eq_of_start_eq ht hu (congrArg (·.start.offset) hspan)

/-- A token stands in one place of a text. -/
theorem split_unique {front front' back back' : List Token} (h : ofText source = front ++ t :: back)
    (h' : ofText source = front' ++ t :: back') : front = front' ∧ back = back' := by
  have hnodup := nodup_ofText source
  rw [h] at hnodup
  obtain ⟨-, hbehind, hapart⟩ := List.nodup_append.mp hnodup
  have hfront : t ∉ front := fun ht => hapart t ht t List.mem_cons_self rfl
  have hsame := (List.append_cons_inj_of_notMem hfront (List.nodup_cons.mp hbehind).1).mp (h.symm.trans h')
  exact ⟨hsame.1, hsame.2.2⟩

/-- A token starts where the one in front of it ends. -/
theorem start_eq_stop {front back : List Token} (h : ofText source = front ++ t :: u :: back) :
    u.start = t.stop :=
  congrArg Position.offset
    (List.isChain_iff_forall_rel_of_append_cons_cons.mp (isChain_ofTextAt .start source) h)

/-- The token that ends where another one starts stands in front of it. -/
theorem exists_split_of_stop_eq (ht : t ∈ ofText source) (hu : u ∈ ofText source)
    (hstop : t.stop = u.start) : ∃ front back, ofText source = front ++ t :: u :: back := by
  obtain ⟨front, back, hsplit⟩ := List.append_of_mem ht
  cases back with
  | cons v back =>
    have hv : v ∈ ofText source := by simp [hsplit]
    have hsame : v = u := eq_of_start_eq hv hu ((start_eq_stop hsplit).trans hstop)
    exact ⟨front, back, hsame ▸ hsplit⟩
  | nil =>
    -- nothing starts behind the last token
    have hlt := (start_lt_stop hu).2
    have hpair := pairwise_ofTextAt .start source
    change (ofText source).Pairwise _ at hpair
    rw [hsplit, List.mem_append, List.mem_singleton] at hu
    rcases hu with hfront | rfl
    · rw [hsplit, List.pairwise_append] at hpair
      have hle := hpair.2.2 u hfront t List.mem_cons_self
      have htlt := (start_lt_stop ht).2
      omega
    · omega

/-- **A walk through a text, token by token.** -/
theorem substituted_ofTextAt {edit? : Token → Option Edit} {new : Token → Text}
    (hnone : ∀ t ∈ ofTextAt place s, edit? t = none → new t = t.text)
    (hsome : ∀ t ∈ ofTextAt place s, ∀ e, edit? t = some e → e.Rewrites t (new t)) :
    Edit.Substituted place.offset s ((ofTextAt place s).filterMap edit?)
      ((ofTextAt place s).flatMap new) := by
  fun_induction ofTextAt place s with
  | case1 => exact .nil _ []
  | case2 place c rest scanned more taken stop ih =>
    rw [List.forall_mem_cons] at hnone hsome
    have hbehind := ih hnone.2 hsome.2
    have hcut : c :: rest = taken ++ rest.drop more := by simp [taken]
    have hstop : stop.offset = place.offset + Text.size taken := Position.advance_offset place taken
    rw [List.flatMap_cons, hcut]
    cases hedit : edit? ⟨scanned.1, taken, ⟨place, stop⟩⟩ with
    | none =>
      rw [List.filterMap_cons_none hedit, hnone.1 hedit]
      exact .keep (hstop ▸ hbehind)
    | some e =>
      obtain ⟨kept, old, htext, hstart, hend, hnew⟩ := hsome.1 e hedit
      have htext : taken = kept ++ old := htext
      have hstart : e.start = place.offset + kept.size := hstart
      have hend : e.stop = stop.offset := hend
      rw [List.filterMap_cons_some hedit, hnew, htext]
      refine .cons hstart ?_ (hend ▸ hbehind)
      rw [hend, hstop, htext, Text.size_append]
      omega

end Tokens

namespace Edit

variable {source : Text}

/-- Ranges of a walk hold some of the text. -/
theorem Substituted.exists_replaces {front rest out : Text} {es : List Edit}
    (h : Substituted front.size rest es out) (hsource : source = front ++ rest) :
    ∀ e ∈ es, ∃ old, Replaces source e old := by
  generalize hpos : front.size = pos at h
  induction h generalizing front with
  | nil => simp
  | @cons pos kept old rest out e es start_eq stop_eq more ih =>
    rw [List.forall_mem_cons]
    have hpassed : source = (front ++ kept ++ old) ++ rest := by simp [hsource]
    refine ⟨⟨old, front ++ kept, rest, by simp [hsource], ?_, ?_⟩, ih hpassed ?_⟩
    · rw [Text.size_append, hpos, start_eq]
    · rw [Text.size_append, hpos, stop_eq, start_eq]
    · rw [Text.size_append, Text.size_append, hpos, stop_eq, start_eq]

/-- Edits that stand apart do not conflict. -/
theorem pairwise_conflicts_of_apart {es : List Edit} (hle : ∀ e ∈ es, e.start ≤ e.stop)
    (hapart : es.Pairwise fun a b => a.stop ≤ b.start ∧ a.start < b.stop) :
    es.Pairwise fun a b => a.conflicts b = false := by
  refine hapart.imp_of_mem fun {a b} ha hb hab => (conflicts_eq_false_iff a b).mpr ?_
  have hale := hle a ha
  have hble := hle b hb
  split <;> split <;> omega

/-- **What a walk gives is what applying its edits gives**, if they stand apart. -/
theorem applyAll?_of_substituted {out : Text} {es : List Edit} (h : Substituted 0 source es out)
    (hapart : es.Pairwise fun a b => a.stop ≤ b.start ∧ a.start < b.stop) :
    applyAll? source es = some out := by
  have hfit : ∀ e ∈ es, InText source e := fun e he => by
    have hwalk : Substituted (Text.size []) source es out := h
    obtain ⟨old, hold⟩ := hwalk.exists_replaces rfl e he
    exact hold.inText
  have hconflict := pairwise_conflicts_of_apart (fun e he => (hfit e he).1) hapart
  have hsorted : es.Pairwise fun a b => walksBefore a b = true := by
    refine hapart.imp_of_mem fun {a b} ha _ hab => (walksBefore_eq_true_iff a b).mpr ?_
    have hale := (hfit a ha).1
    omega
  obtain ⟨out', happly, hwalk⟩ := applyAll?_eq_some hconflict hfit
  rw [← eq_inOrder hconflict (fun e he => (hfit e he).1) (.refl es) hsorted] at hwalk
  rw [happly, hwalk.unique h]

/-- Edits of different tokens stand apart. -/
theorem apart_ofText {edit? : Token → Option Edit} {new : Token → Text}
    (hsome : ∀ t ∈ ofText source, ∀ e, edit? t = some e → e.Rewrites t (new t)) :
    ((ofText source).filterMap edit?).Pairwise fun a b => a.stop ≤ b.start ∧ a.start < b.stop := by
  rw [List.pairwise_filterMap]
  refine (pairwise_ofTextAt .start source).imp_of_mem fun {t u} ht hu hle e he e' he' => ?_
  obtain ⟨kept, old, htext, hstart, hstop, -⟩ := hsome t ht e he
  obtain ⟨kept', old', htext', hstart', hstop', -⟩ := hsome u hu e' he'
  have hlength := stop_eq ht
  rw [htext, Text.size_append] at hlength
  have hu := (start_lt_stop hu).2
  omega

/-- Edits of different tokens do not conflict. -/
theorem pairwise_conflicts_ofText {edit? : Token → Option Edit} {new : Token → Text}
    (hsome : ∀ t ∈ ofText source, ∀ e, edit? t = some e → e.Rewrites t (new t)) :
    ((ofText source).filterMap edit?).Pairwise fun a b => a.conflicts b = false := by
  refine pairwise_conflicts_of_apart (fun e he => ?_) (apart_ofText hsome)
  obtain ⟨t, ht, he⟩ := List.mem_filterMap.mp he
  obtain ⟨kept, old, htext, hstart, hstop, -⟩ := hsome t ht e he
  have hlength := stop_eq ht
  rw [htext, Text.size_append] at hlength
  omega

/-- **What edits of tokens make of a text.** -/
theorem applyAll?_ofText {edit? : Token → Option Edit} {new : Token → Text}
    (hnone : ∀ t ∈ ofText source, edit? t = none → new t = t.text)
    (hsome : ∀ t ∈ ofText source, ∀ e, edit? t = some e → e.Rewrites t (new t)) :
    applyAll? source ((ofText source).filterMap edit?) = some ((ofText source).flatMap new) :=
  applyAll?_of_substituted (substituted_ofTextAt hnone hsome) (apart_ofText hsome)

/-- **What edits of some tokens make of a text**: it holds the new tokens in place of the old ones. -/
theorem applyAll?_map {edit : Token → Edit} {new : Token → List Token} {ks : List Token}
    (hsub : ks.Sublist (ofText source)) (hkept : ∀ t ∈ ofText source, t ∉ ks → text (new t) = t.text)
    (hput : ∀ t ∈ ks, (edit t).Rewrites t (text (new t))) :
    applyAll? source (ks.map edit) = some (text ((ofText source).flatMap new)) := by
  have htext : text ((ofText source).flatMap new) = (ofText source).flatMap fun t => text (new t) :=
    List.flatMap_assoc
  rw [map_eq_filterMap edit hsub (nodup_ofText source), htext]
  refine applyAll?_ofText (fun t ht hnone => hkept t ht fun hmem => ?_) fun t _ e he => ?_
  · rw [if_pos hmem] at hnone
    cases hnone
  · by_cases hmem : t ∈ ks
    · rw [if_pos hmem] at he
      cases he
      exact hput t hmem
    · rw [if_neg hmem] at he
      cases he

end Edit

end SheetLint
