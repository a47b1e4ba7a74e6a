import SheetLint.Proofs.Rule.BoxValues
import SheetLint.Proofs.Token.LetterCase
import SheetLint.Proofs.Token.Parts
import SheetLint.Proofs.Tree.Defects
import SheetLint.Proofs.Tree.Values
import SheetLint.Proofs.Value.Parts

/-!
# What dropped values mean

The rule about box values compares their texts without regard to letter case. A part of a value
stands between whitespace, or at an end of the value, so it is read as the same tokens wherever it
stands, and a dropped part has the tokens of the one that stands in for it, letter case aside. What the
texts do not tell is whether the case counts, as it does in variables and strings, and whether a part
is a value at all: an operator between spaces is taken for one.

Results:
* `Box.ofValues?_map`, `Box.prefix_sides`: the sides of a box and the values that give them.
* `ShorthandValues.legible_part`: a part of a value is read by itself.
* `ShorthandValues.sameUpToCase_of_mem_standIns`: the tokens of a dropped part.
* `ShorthandValues.dropped_values_same_iff`: the declarations of which only equal values are dropped.
* `ShorthandValues.summand_dropped`: a sum of which a part is dropped.
-/

namespace SheetLint

/-! ## The values of the sides -/

namespace Box

variable {α β : Type} {l : List α} {box : Box α} {x : α}

/-- The values of the sides in their order. -/
def sides (b : Box α) : List α := [b.top, b.right, b.bottom, b.left]

/-- The sides with what a function makes of their values. -/
def map (f : α → β) (b : Box α) : Box β := ⟨f b.top, f b.right, f b.bottom, f b.left⟩

theorem sides_map (f : α → β) (b : Box α) : (b.map f).sides = b.sides.map f := rfl

theorem ofValues?_map (f : α → β) (l : List α) : ofValues? (l.map f) = (ofValues? l).map (map f) := by
  cases l with
  | nil => rfl
  | cons top more => simp [ofValues?, map, Option.getD_map]

/-- The values of the sides start with those that are given. -/
theorem prefix_sides (h : ofValues? l = some box) (hlength : l.length ≤ 4) : l <+: box.sides := by
  match l with
  | [a] | [a, b] | [a, b, c] | [a, b, c, d] =>
    cases h
    simp [sides]

/-- The values of the sides are some that are given. -/
theorem mem_of_mem_sides (h : ofValues? l = some box) (hx : x ∈ box.sides) : x ∈ l := by
  match l with
  | top :: more =>
    have hside (i : Nat) {y : α} (hy : y ∈ top :: more) : more[i]?.getD y ∈ top :: more := by
      cases hget : more[i]? with
      | none => exact hy
      | some z => exact List.mem_cons_of_mem top (List.mem_of_getElem? hget)
    have htop : top ∈ top :: more := List.mem_cons_self
    cases h
    simp only [sides, List.mem_cons, List.not_mem_nil, or_false] at hx
    rcases hx with rfl | rfl | rfl | rfl
    · exact htop
    · exact hside 0 htop
    · exact hside 1 htop
    · exact hside 2 (hside 0 htop)

end Box

/-! ## Tokens in another letter case -/

/-- Whether two tokens are the same, letter case aside. -/
structure Token.SameUpToCase (t k : Token) : Prop where
  kind : t.kind = k.kind
  text : t.text.lower = k.text.lower

/-- Whether the letter case of a token counts: of variables and strings. -/
def Token.isExact (t : Token) : Bool := t.kind == .variable || t.kind == .string

/-- Whether two tokens mean the same in a value. -/
def Token.SameValue (t k : Token) : Prop := t.SameUpToCase k ∧ (t.isExact = true → t.text = k.text)

namespace Tokens

variable {p q : List Token}

/-- The texts of the tokens the letter case of which counts. -/
def exactTexts (ts : List Token) : List Text := (ts.filter Token.isExact).map Token.text

theorem exactTexts_cons (t : Token) (ts : List Token) :
    exactTexts (t :: ts) = if t.isExact then t.text :: exactTexts ts else exactTexts ts := by
  cases ht : t.isExact <;> simp [exactTexts, ht]

theorem forall₂_sameValue_iff (h : List.Forall₂ Token.SameUpToCase p q) :
    List.Forall₂ Token.SameValue p q ↔ exactTexts p = exactTexts q := by
  induction h with
  | nil => simp [exactTexts]
  | @cons t k p q htk hpq ih =>
    have hexact : k.isExact = t.isExact := by rw [Token.isExact, Token.isExact, htk.kind]
    rw [List.forall₂_cons, ih, Token.SameValue, exactTexts_cons, exactTexts_cons, hexact]
    cases t.isExact <;> simp [htk]

/-- Two lists of tokens that are the same in lower case. -/
theorem forall₂_of_map_lowered (h : p.map Token.lowered = q.map Token.lowered) :
    List.Forall₂ Token.SameUpToCase p q := by
  induction p generalizing q with
  | nil =>
    rw [List.map_nil, eq_comm, List.map_eq_nil_iff] at h
    rw [h]
    exact .nil
  | cons t p ih =>
    obtain ⟨k, rest, rfl, hk, hrest⟩ := List.map_eq_cons_iff.mp h.symm
    obtain ⟨hkind, htext, -⟩ := Token.mk.inj hk
    exact .cons ⟨hkind.symm, htext.symm⟩ (ih hrest.symm)

end Tokens

namespace ShorthandValues

open Scan

/-! ## Dropped values and what stands in for them -/

variable {source : Text} {d : Declaration} {p q part : List Token}

/-- The parts of a value that are left. -/
def kept (d : Declaration) : List (List Token) :=
  (Tokens.parts d.value).take (shorten (partTexts d)).length

/-- The parts of a value that are dropped, each with the one that stands in for it by the box rule. -/
def standIns (d : Declaration) : List (List Token × List Token) :=
  match Box.ofValues? (kept d) with
  | some box => ((Tokens.parts d.value).zip box.sides).drop (kept d).length
  | none => []

theorem IsLong.length_parts_le (h : IsLong d) : (Tokens.parts d.value).length ≤ 4 := by
  simpa [partTexts] using h.le_four

/-- The parts that are left are the shortest values. -/
theorem text_kept (h : IsLong d) :
    (kept d).map Tokens.text = shorten (partTexts d)
      ∧ IsShortest (partTexts d) (shorten (partTexts d)) := by
  have hshortest := isShortest_shorten h.ne_nil h.le_four
  refine ⟨?_, hshortest⟩
  rw [kept, List.map_take]
  exact (List.prefix_iff_eq_take.mp hshortest.isPrefix).symm

/-- The box of the parts that are left, next to that of all parts. -/
theorem exists_boxes (h : IsLong d) :
    ∃ box all, Box.ofValues? (kept d) = some box ∧ Box.ofValues? (Tokens.parts d.value) = some all
      ∧ box.map (Text.lower ∘ Tokens.text) = all.map (Text.lower ∘ Tokens.text) := by
  obtain ⟨hkept, hshortest⟩ := text_kept h
  have hsame := hshortest.same
  rw [SameBox, ← hkept, partTexts, List.map_map, List.map_map, Box.ofValues?_map,
    Box.ofValues?_map] at hsame
  obtain ⟨part, more, hparts⟩ := List.exists_cons_of_ne_nil (mt List.map_eq_nil_iff.mpr h.ne_nil)
  rw [hparts] at hsame ⊢
  obtain ⟨box, hbox, hmap⟩ := Option.map_eq_some_iff.mp hsame
  exact ⟨box, _, hbox, rfl, hmap⟩

theorem kept_append_standIns (h : IsLong d) :
    kept d ++ (standIns d).map Prod.fst = Tokens.parts d.value := by
  obtain ⟨box, all, hbox, -⟩ := exists_boxes h
  have hlength : (kept d).length = (shorten (partTexts d)).length := by
    rw [← (text_kept h).1, List.length_map]
  have hfour : (Tokens.parts d.value).length ≤ box.sides.length := h.length_parts_le
  rw [standIns, hbox]
  simp only
  rw [List.map_drop, List.map_fst_zip hfour, hlength, kept, List.take_append_drop]

/-- A dropped part and the one that stands in for it have the same text, letter case aside. -/
theorem of_mem_standIns (h : IsLong d) (hmem : (p, q) ∈ standIns d) :
    p ∈ Tokens.parts d.value ∧ q ∈ Tokens.parts d.value
      ∧ Text.lower (Tokens.text p) = Text.lower (Tokens.text q) := by
  obtain ⟨box, all, hbox, hall, hmap⟩ := exists_boxes h
  rw [standIns, hbox] at hmem
  have hzip := List.mem_of_mem_drop hmem
  obtain ⟨hp, hq⟩ := List.of_mem_zip hzip
  refine ⟨hp, List.mem_of_mem_take (Box.mem_of_mem_sides hbox hq), ?_⟩
  obtain ⟨i, hi⟩ := List.mem_iff_getElem?.mp hzip
  obtain ⟨hpi, hqi⟩ := List.getElem?_zip_eq_some.mp hi
  obtain ⟨behind, hbehind⟩ := Box.prefix_sides hall h.length_parts_le
  have hside : all.sides[i]? = some p := by
    rw [← hbehind, List.getElem?_append_left (List.getElem?_eq_some_iff.mp hpi).1, hpi]
  have hsides : (box.sides.map (Text.lower ∘ Tokens.text))[i]? =
      (all.sides.map (Text.lower ∘ Tokens.text))[i]? := by
    rw [← Box.sides_map, hmap, Box.sides_map]
  rw [List.getElem?_map, List.getElem?_map, hqi, hside] at hsides
  exact (Option.some.inj hsides).symm

/-- **A part of a value is read by itself.** -/
theorem legible_part (hok : (Parse.ofText source).isOk = true)
    (hd : d ∈ (Parse.ofText source).sheet.declarations) (hplain : ∀ t ∈ d.value, t.isComment = false)
    (hpart : part ∈ Tokens.parts d.value) : Tokens.Legible (part ++ [Token.feed]) := by
  obtain ⟨hlast, before, after, hsource, hends⟩ := Parse.exists_behind_value hd
  obtain ⟨hne, front, back, hvalue, hback⟩ := Tokens.exists_of_mem_parts hpart
  rw [hvalue] at hlast hplain hsource
  have hcut : Tokens.ofTextAt .start source = (before ++ front) ++ (part ++ (back ++ after)) := by
    rw [← Tokens.ofText, hsource]
    simp
  have hread : Tokens.Legible (part ++ (back ++ after)) :=
    (Tokens.legible_of_ofTextAt hcut).of_append
  have herror : ∀ t ∈ part, t.kind ≠ .error := fun t ht =>
    Parse.kind_ne_error hok t (by rw [Tokens.ofText, hcut]; simp [ht])
  cases back with
  | nil =>
    -- the value ends with the part
    obtain ⟨init, last, rfl⟩ := List.eq_nil_or_concat' part |>.resolve_left hne
    refine hread.fed herror hends.head?_ne List.getLast?_concat (hlast last ?_)
      fun _ => hends.isQuote_eq_false
    simp
  | cons t rest =>
    obtain ⟨htrivia, hdepth⟩ := hback t rfl
    rw [Token.isTrivia, hplain t (by simp), Bool.or_false] at htrivia
    exact hread.fed_of_space herror hne htrivia hdepth

/-- **A dropped part is read as the tokens of the one that stands in for it**, letter case aside. -/
theorem sameUpToCase_of_mem_standIns (hok : (Parse.ofText source).isOk = true)
    (hd : d ∈ (Parse.ofText source).sheet.declarations) (h : IsLong d) (hmem : (p, q) ∈ standIns d) :
    List.Forall₂ Token.SameUpToCase p q := by
  obtain ⟨hp, hq, htext⟩ := of_mem_standIns h hmem
  have hplain : ∀ t ∈ d.value, t.isComment = false := fun t ht => (h.unmarked t ht).1
  have hsame := (legible_part hok hd hplain hp).lowered_eq (legible_part hok hd hplain hq) (by
    rw [Tokens.text_append, Tokens.text_append, lower_append, lower_append, htext])
  rw [List.map_append, List.map_append] at hsame
  exact Tokens.forall₂_of_map_lowered (List.append_cancel_right hsame)

/-! ## Values that mean the same -/

/-- The operators that may stand between spaces. -/
def operators : List Char := ['+', '-', '*', '%', '<', '>', '=']

/-- Whether a part of a value is nothing but an operator. -/
def isOperator : List Token → Bool
  | [t] => (t.kind == .punct || t.kind == .combinator) && operators.any (t.text == [·])
  | _ => false

/-- Whether only values are dropped that mean the same as what stands in for them: no part is an
operator, and the tokens are the same, letter case aside where it does not count. -/
structure DropsSame (d : Declaration) : Prop where
  plain : ∀ part ∈ Tokens.parts d.value, isOperator part = false
  same : ∀ pair ∈ standIns d, List.Forall₂ Token.SameValue pair.1 pair.2

theorem isLong_of_found (h : declarationFindings d ≠ []) : IsLong d := by
  by_contra hshort
  exact h (declarationFindings_eq_nil hshort)

/-- **When only values are dropped that mean the same.** Each dropped part has the tokens of the part
that stands in for it, of the same kinds and with the same texts up to letter case. They mean the same
exactly when no part is an operator and the variables and strings in them are spelled alike. -/
theorem dropped_values_same_iff (source : Text) (hok : (Parse.ofText source).isOk = true)
    {d : Declaration} (hd : d ∈ (Parse.ofText source).sheet.declarations)
    (hfound : declarationFindings d ≠ []) :
    (kept d ++ (standIns d).map Prod.fst = Tokens.parts d.value ∧ standIns d ≠ []
      ∧ IsShortest (partTexts d) ((kept d).map Tokens.text))
    ∧ (∀ pair ∈ standIns d, List.Forall₂ Token.SameUpToCase pair.1 pair.2)
    ∧ (DropsSame d ↔ (∀ part ∈ Tokens.parts d.value, isOperator part = false)
      ∧ ∀ pair ∈ standIns d, Tokens.exactTexts pair.1 = Tokens.exactTexts pair.2) := by
  have hlong := isLong_of_found hfound
  obtain ⟨hkept, hshortest⟩ := text_kept hlong
  have hall := kept_append_standIns hlong
  have hsame : ∀ pair ∈ standIns d, List.Forall₂ Token.SameUpToCase pair.1 pair.2 :=
    fun pair hpair => sameUpToCase_of_mem_standIns hok hd hlong hpair
  refine ⟨⟨hall, fun hnil => ?_, by rw [hkept]; exact hshortest⟩, hsame, ?_⟩
  · have hless := ((isLong_iff d).mp hlong).2.2.2.2
    rw [hnil, List.map_nil, List.append_nil] at hall
    rw [← hkept, hall, partTexts] at hless
    exact Nat.lt_irrefl _ hless
  · constructor
    · intro h
      exact ⟨h.plain, fun pair hpair =>
        (Tokens.forall₂_sameValue_iff (hsame pair hpair)).mp (h.same pair hpair)⟩
    · rintro ⟨hplain, hexact⟩
      exact ⟨hplain, fun pair hpair =>
        (Tokens.forall₂_sameValue_iff (hsame pair hpair)).mpr (hexact pair hpair)⟩

namespace Repeated

/-- A call twice, in another letter case. -/
def calls : Text := ['a', '\x7b'] ++ "margin:F($a) f($a)".toList ++ ['\x7d']

/-- A sum. -/
def sum : Text := ['a', '\x7b'] ++ "margin:1px + 1px".toList ++ ['\x7d']

/-- The property. -/
def margin : Token := ⟨.ident, "margin".toList, ⟨⟨2, 1, 3⟩, ⟨8, 1, 9⟩⟩⟩

/-- The colon behind it. -/
def colon : Token := ⟨.punct, [':'], ⟨⟨8, 1, 9⟩, ⟨9, 1, 10⟩⟩⟩

/-- The declaration with calls. -/
def ofCalls : Declaration :=
  ⟨[margin], [], colon, [],
    [⟨.ident, ['F'], ⟨⟨9, 1, 10⟩, ⟨10, 1, 11⟩⟩⟩, ⟨.punct, ['('], ⟨⟨10, 1, 11⟩, ⟨11, 1, 12⟩⟩⟩,
      ⟨.variable, "$a".toList, ⟨⟨11, 1, 12⟩, ⟨13, 1, 14⟩⟩⟩, ⟨.punct, [')'], ⟨⟨13, 1, 14⟩, ⟨14, 1, 15⟩⟩⟩,
      ⟨.whitespace, [' '], ⟨⟨14, 1, 15⟩, ⟨15, 1, 16⟩⟩⟩,
      ⟨.ident, ['f'], ⟨⟨15, 1, 16⟩, ⟨16, 1, 17⟩⟩⟩, ⟨.punct, ['('], ⟨⟨16, 1, 17⟩, ⟨17, 1, 18⟩⟩⟩,
      ⟨.variable, "$a".toList, ⟨⟨17, 1, 18⟩, ⟨19, 1, 20⟩⟩⟩, ⟨.punct, [')'], ⟨⟨19, 1, 20⟩, ⟨20, 1, 21⟩⟩⟩],
    [], none⟩

theorem isOk_calls : (Parse.ofText calls).isOk = true := by cbv

theorem declarations_calls : (Parse.ofText calls).sheet.declarations = [ofCalls] := by cbv

/-- The operator of the sum. -/
def plus : Token := ⟨.combinator, ['+'], ⟨⟨13, 1, 14⟩, ⟨14, 1, 15⟩⟩⟩

/-- The declaration with a sum. -/
def ofSum : Declaration :=
  ⟨[margin], [], colon, [],
    [⟨.number, "1px".toList, ⟨⟨9, 1, 10⟩, ⟨12, 1, 13⟩⟩⟩,
      ⟨.whitespace, [' '], ⟨⟨12, 1, 13⟩, ⟨13, 1, 14⟩⟩⟩, plus,
      ⟨.whitespace, [' '], ⟨⟨14, 1, 15⟩, ⟨15, 1, 16⟩⟩⟩,
      ⟨.number, "1px".toList, ⟨⟨15, 1, 16⟩, ⟨18, 1, 19⟩⟩⟩],
    [], none⟩

theorem isOk_sum : (Parse.ofText sum).isOk = true := by cbv

theorem declarations_sum : (Parse.ofText sum).sheet.declarations = [ofSum] := by cbv

end Repeated

/-- **A call in another letter case is dropped**, and means the same. -/
theorem repeated_call_dropped :
    let source := Repeated.calls
    ∃ d ∈ (Parse.ofText source).sheet.declarations,
      (Parse.ofText source).isOk = true ∧ declarationFindings d ≠ []
        ∧ (kept d).map Tokens.text = ["F($a)".toList] ∧ DropsSame d := by
  intro source
  have hd : Repeated.ofCalls ∈ (Parse.ofText source).sheet.declarations := by
    rw [show (Parse.ofText source).sheet.declarations = _ from Repeated.declarations_calls]
    exact List.mem_singleton_self _
  have hfound : declarationFindings Repeated.ofCalls ≠ [] := by
    obtain ⟨f, hf, -⟩ := exists_finding hd (by decide)
    rw [hf]
    exact List.cons_ne_nil f []
  obtain ⟨-, -, hiff⟩ := dropped_values_same_iff source Repeated.isOk_calls hd hfound
  refine ⟨_, hd, Repeated.isOk_calls, hfound, by decide, hiff.mpr ⟨by decide, by decide⟩⟩

/-- **A part of a sum is dropped**, and the operator is left behind. -/
theorem summand_dropped :
    let source := Repeated.sum
    ∃ d ∈ (Parse.ofText source).sheet.declarations, ∃ f ∈ declarationFindings d, ∃ fix,
      (Parse.ofText source).isOk = true ∧ f.fix = some fix
        ∧ Edit.applyAll? source fix.edits = some (['a', '\x7b'] ++ "margin:1px +".toList ++ ['\x7d'])
        ∧ ¬ DropsSame d := by
  intro source
  have hd : Repeated.ofSum ∈ (Parse.ofText source).sheet.declarations := by
    rw [show (Parse.ofText source).sheet.declarations = _ from Repeated.declarations_sum]
    exact List.mem_singleton_self _
  have hfound : ∃ f ∈ declarationFindings Repeated.ofSum, ∃ fix, f.fix = some fix
      ∧ fix.edits = [⟨9, 18, "1px +".toList⟩] := ⟨_, List.mem_singleton.mpr rfl, _, rfl, rfl⟩
  obtain ⟨f, hf, fix, hfix, hedits⟩ := hfound
  refine ⟨_, hd, f, hf, fix, Repeated.isOk_sum, hfix, by rw [hedits]; cbv, fun h => ?_⟩
  exact absurd (h.plain [Repeated.plus] (by decide)) (by decide)

end ShorthandValues

end SheetLint
