import SheetLint.Proofs.Rule.Places
import SheetLint.Proofs.Rule.Rewriting
import SheetLint.Proofs.Tree.Nesting

/-!
# The shortest values of a box

Up to four values give the sides of a box. The rule drops values from the back as long as the last one
repeats what would stand in for it, and that leaves the shortest values with the same sides: when some
values from the front give all sides, so do more of them, and where the last one cannot go nothing in
front of it can. What is reported are the declarations of a box property with two to four values, none
of them set apart by another mark than space, that are not the shortest.

Results:
* `Box.ofValues?_between`: values between some and all that give the same sides.
* `ShorthandValues.isShortest_shorten`: what is left is shortest.
* `ShorthandValues.box_values_exact`: what is left, what is reported and what the fixes put.
-/

namespace SheetLint

/-! ## The box rule -/

/-- The values of the four sides of a box. -/
structure Box (α : Type) where
  top : α
  right : α
  bottom : α
  left : α
deriving DecidableEq, Repr

namespace Box

variable {α : Type} {few more all : List α}

/-- The box rule: the sides that some values give, as far as there are four. A missing right is the
top, a missing bottom the top, a missing left the right. -/
def ofValues? : List α → Option (Box α)
  | [] => none
  | top :: more =>
    let right := more[0]?.getD top
    some ⟨top, right, more[1]?.getD top, more[2]?.getD right⟩

/-- Each place in a list that stands between two others is as in one of them. -/
theorem getElem?_between (hfew : few <+: more) (hmore : more <+: all) (i : Nat) :
    more[i]? = few[i]? ∨ more[i]? = all[i]? := by
  by_cases hi : i < more.length
  · obtain ⟨behind, rfl⟩ := hmore
    exact .inr (List.getElem?_append_left hi).symm
  · have hle := hfew.length_le
    left
    rw [List.getElem?_eq_none (by omega), List.getElem?_eq_none (by omega)]

/-- **When some values from the front give all sides, more of them do.** -/
theorem ofValues?_between (hfew : few <+: more) (hmore : more <+: all)
    (hsame : ofValues? few = ofValues? all) : ofValues? more = ofValues? all := by
  cases few with
  | nil =>
    cases all with
    | nil => rw [List.prefix_nil.mp hmore]
    | cons => cases hsame
  | cons top few =>
    obtain ⟨more, rfl, hfront⟩ := List.cons_prefix_iff.mp hfew
    obtain ⟨all, rfl, hback⟩ := List.cons_prefix_iff.mp hmore
    simp only [ofValues?, Option.some.injEq, Box.mk.injEq, true_and] at hsame ⊢
    have hplace := getElem?_between hfront hback
    obtain ⟨hright, hbottom, hleft⟩ := hsame
    have hright' : more[0]?.getD top = all[0]?.getD top := by
      rcases hplace 0 with h | h
      · rw [h, hright]
      · rw [h]
    refine ⟨hright', ?_, ?_⟩
    · rcases hplace 1 with h | h
      · rw [h, hbottom]
      · rw [h]
    · rcases hplace 2 with h | h
      · rw [h, hright', ← hleft, hright]
      · rw [h, hright']

end Box

/-- What is found for the elements of a list that pass, in their order. -/
theorem forall₂_flatMap_filter {α β : Type} {R : β → α → Prop} {p : α → Prop} [DecidablePred p]
    {f : α → List β} {xs : List α} (hsome : ∀ x ∈ xs, p x → ∃ y, f x = [y] ∧ R y x)
    (hnone : ∀ x ∈ xs, ¬ p x → f x = []) :
    List.Forall₂ R (xs.flatMap f) (xs.filter fun x => decide (p x)) := by
  induction xs with
  | nil => exact .nil
  | cons x xs ih =>
    rw [List.forall_mem_cons] at hsome hnone
    have hlater := ih hsome.2 hnone.2
    rw [List.flatMap_cons, List.filter_cons]
    by_cases hx : p x
    · obtain ⟨y, hy, hyx⟩ := hsome.1 hx
      rw [hy, if_pos (decide_eq_true hx)]
      exact .cons hyx hlater
    · rw [hnone.1 hx, if_neg (by simpa using hx)]
      exact hlater

namespace ShorthandValues

/-! ## Shortest values -/

variable {parts shorter : List Text} {last : Text}

/-- Whether two lists of values give the same sides, letter case aside. -/
def SameBox (a b : List Text) : Prop :=
  Box.ofValues? (a.map Text.lower) = Box.ofValues? (b.map Text.lower)

instance (a b : List Text) : Decidable (SameBox a b) := inferInstanceAs (Decidable (_ = _))

/-- Whether a part of some values, from the front on, gives the same sides as all of them, and no
smaller one does. -/
structure IsShortest (parts shorter : List Text) : Prop where
  isPrefix : shorter <+: parts
  same : SameBox shorter parts
  least : ∀ fewer, fewer <+: parts → SameBox fewer parts → shorter.length ≤ fewer.length

/-- Where the last value gives no side of its own, the shortest values are those without it. -/
theorem IsShortest.dropped (h : IsShortest parts shorter) (hsame : SameBox parts (parts ++ [last])) :
    IsShortest (parts ++ [last]) shorter where
  isPrefix := h.isPrefix.trans (List.prefix_append _ _)
  same := h.same.trans hsame
  least fewer hfewer hbox := by
    rcases List.prefix_concat_iff.mp hfewer with rfl | hfewer
    · exact h.isPrefix.length_le.trans (by simp)
    · exact h.least fewer hfewer (hbox.trans hsame.symm)

/-- Where the last value gives a side of its own, all values stay. -/
theorem isShortest_concat (hother : ¬ SameBox parts (parts ++ [last])) :
    IsShortest (parts ++ [last]) (parts ++ [last]) where
  isPrefix := List.prefix_rfl
  same := rfl
  least fewer hfewer hbox := by
    rcases List.prefix_concat_iff.mp hfewer with rfl | hfewer
    · exact Nat.le_refl _
    · refine absurd (Box.ofValues?_between ?_ ?_ hbox) hother
      · exact hfewer.map _
      · exact (List.prefix_append _ _).map _

theorem eqIgnoreCase_iff (a b : Text) : Text.eqIgnoreCase a b = true ↔ a.lower = b.lower := by
  simp [Text.eqIgnoreCase]

theorem isShortest_one (a : Text) : IsShortest [a] [a] := by
  have hother : ¬ SameBox [] ([] ++ [a]) := by simp [SameBox, Box.ofValues?]
  exact isShortest_concat hother

/-- A second value can go when it repeats the first. -/
theorem isShortest_two (a b : Text) : IsShortest [a, b] (shortenTwo [a, b]) := by
  have hrepeats : Text.eqIgnoreCase b a = true ↔ SameBox [a] ([a] ++ [b]) := by
    rw [eqIgnoreCase_iff, eq_comm]
    simp [SameBox, Box.ofValues?]
  rw [shortenTwo]
  split
  · exact (isShortest_one a).dropped (hrepeats.mp ‹_›)
  · exact isShortest_concat (mt hrepeats.mpr ‹_›)

/-- A third value can go when it repeats the first. -/
theorem isShortest_three (a b c : Text) : IsShortest [a, b, c] (shortenThree [a, b, c]) := by
  have hrepeats : Text.eqIgnoreCase c a = true ↔ SameBox [a, b] ([a, b] ++ [c]) := by
    rw [eqIgnoreCase_iff, eq_comm]
    simp [SameBox, Box.ofValues?]
  rw [shortenThree]
  split
  · exact (isShortest_two a b).dropped (hrepeats.mp ‹_›)
  · exact isShortest_concat (mt hrepeats.mpr ‹_›)

/-- A fourth value can go when it repeats the second. -/
theorem isShortest_four (a b c d : Text) : IsShortest [a, b, c, d] (shorten [a, b, c, d]) := by
  have hrepeats : Text.eqIgnoreCase d b = true ↔ SameBox [a, b, c] ([a, b, c] ++ [d]) := by
    rw [eqIgnoreCase_iff, eq_comm]
    simp [SameBox, Box.ofValues?]
  rw [shorten]
  split
  · exact (isShortest_three a b c).dropped (hrepeats.mp ‹_›)
  · exact isShortest_concat (mt hrepeats.mpr ‹_›)

/-- **The rule leaves the shortest values.** -/
theorem isShortest_shorten (hne : parts ≠ []) (hlength : parts.length ≤ 4) :
    IsShortest parts (shorten parts) := by
  match parts with
  | [a] => exact isShortest_one a
  | [a, b] => exact isShortest_two a b
  | [a, b, c] => exact isShortest_three a b c
  | [a, b, c, d] => exact isShortest_four a b c d

/-- What is shortest cannot be shortened. -/
theorem IsShortest.shorten_eq (h : IsShortest parts shorter) (hne : parts ≠ [])
    (hlength : parts.length ≤ 4) : shorten shorter = shorter := by
  have hshorter : shorter ≠ [] := by
    rintro rfl
    obtain ⟨a, as, rfl⟩ := List.exists_cons_of_ne_nil hne
    cases h.same
  have hagain := isShortest_shorten hshorter (h.isPrefix.length_le.trans hlength)
  refine hagain.isPrefix.eq_of_length_le ?_
  exact h.least _ (hagain.isPrefix.trans h.isPrefix) (hagain.same.trans h.same)

/-! ## Which values are reported -/

variable {source : Text} {d : Declaration}

/-- The texts of the parts of a value. -/
def partTexts (d : Declaration) : List Text := (Tokens.parts d.value).map Tokens.text

/-- Whether a declaration gives the sides of a box by more values than it takes. -/
structure IsLong (d : Declaration) : Prop where
  property : boxProperties.contains (String.ofList d.normalizedName) = true
  two_le : 2 ≤ (partTexts d).length
  le_four : (partTexts d).length ≤ 4
  unmarked : ∀ t ∈ d.value, t.isComment = false ∧ ∀ c ∈ ['!', ',', '/'], t.isPunct c = false
  shorter : ∃ fewer, fewer <+: partTexts d ∧ fewer.length < (partTexts d).length
    ∧ SameBox fewer (partTexts d)

theorem IsLong.ne_nil (h : IsLong d) : partTexts d ≠ [] :=
  List.ne_nil_of_length_pos (Nat.lt_of_lt_of_le Nat.two_pos h.two_le)

theorem exists_shorter_iff (hne : parts ≠ []) (hlength : parts.length ≤ 4) :
    (∃ fewer, fewer <+: parts ∧ fewer.length < parts.length ∧ SameBox fewer parts) ↔
      (shorten parts).length < parts.length := by
  have hshortest := isShortest_shorten hne hlength
  constructor
  · rintro ⟨fewer, hfewer, hlt, hsame⟩
    exact Nat.lt_of_le_of_lt (hshortest.least fewer hfewer hsame) hlt
  · exact fun hlt => ⟨_, hshortest.isPrefix, hlt, hshortest.same⟩

theorem hasMarks_eq_false_iff (ts : List Token) : hasMarks ts = false ↔
    ∀ t ∈ ts, t.isComment = false ∧ ∀ c ∈ ['!', ',', '/'], t.isPunct c = false := by
  simp [hasMarks, and_assoc]

theorem isLong_iff (d : Declaration) : IsLong d ↔
    boxProperties.contains (String.ofList d.normalizedName) = true ∧ hasMarks d.value = false
      ∧ 2 ≤ (partTexts d).length ∧ (partTexts d).length ≤ 4
      ∧ (shorten (partTexts d)).length < (partTexts d).length := by
  constructor
  · intro h
    exact ⟨h.property, (hasMarks_eq_false_iff _).mpr h.unmarked, h.two_le, h.le_four,
      (exists_shorter_iff h.ne_nil h.le_four).mp h.shorter⟩
  · rintro ⟨hproperty, hmarks, htwo, hfour, hshorter⟩
    have hne : partTexts d ≠ [] :=
      List.ne_nil_of_length_pos (Nat.lt_of_lt_of_le Nat.two_pos htwo)
    exact ⟨hproperty, htwo, hfour, (hasMarks_eq_false_iff _).mp hmarks,
      (exists_shorter_iff hne hfour).mpr hshorter⟩

instance (d : Declaration) : Decidable (IsLong d) := decidable_of_iff' _ (isLong_iff d)

/-- Whether a finding is at a value and replaces exactly its text, by the values of its shortest form
with single spaces between them. -/
structure Shortens (source : Text) (f : Finding) (d : Declaration) : Prop where
  span : Tokens.span? d.value = some f.span
  fix : ∃ fix front back shorter, f.fix = some fix ∧ IsShortest (partTexts d) shorter
    ∧ source = front ++ Tokens.text d.value ++ back
    ∧ f.span.start.offset = front.size ∧ f.span.stop.offset = (front ++ Tokens.text d.value).size
    ∧ fix.edits = [⟨f.span.start.offset, f.span.stop.offset, joinSpaced shorter⟩]
    ∧ Edit.applyAll? source fix.edits = some (front ++ joinSpaced shorter ++ back)

/-- A declaration with too many values is reported once. -/
theorem exists_finding (hd : d ∈ (Parse.ofText source).sheet.declarations) (h : IsLong d) :
    ∃ f, declarationFindings d = [f] ∧ Shortens source f d := by
  obtain ⟨hproperty, hmarks, htwo, hfour, hshorter⟩ := (isLong_iff d).mp h
  have hparts := h.ne_nil
  have hne : d.value ≠ [] := by
    intro hnil
    rw [partTexts, hnil] at hparts
    exact hparts rfl
  obtain ⟨span, hspan⟩ := Tokens.exists_span? hne
  obtain ⟨before, after, hread⟩ := Parse.value_isInfix hd
  obtain ⟨hstart, hstop⟩ := Tokens.offsets_of_span? hread.symm hspan
  unfold declarationFindings
  rw [partTexts] at htwo hfour hshorter
  simp only [hproperty, hmarks, htwo, hfour, hshorter, hspan]
  exact ⟨_, rfl, hspan, _, Tokens.text before, Tokens.text after, _, rfl,
    isShortest_shorten hparts h.le_four, Tokens.source_eq hread.symm, hstart,
    hstop.trans (Text.size_append _ _).symm, rfl, Edit.applyAll?_run hread.symm hspan _⟩

theorem declarationFindings_eq_nil (h : ¬ IsLong d) : declarationFindings d = [] := by
  rw [isLong_iff, partTexts] at h
  unfold declarationFindings
  simp only
  rw [if_neg]
  simpa [and_assoc] using h

/-- **Box values are shortened exactly.** Of one to four values those are left that give the same sides,
with no smaller number from the front that does, and they stay when they are shortened again. In a text
the rule reports each declaration with too many values for its box once, at any nesting level and in
source order, and nothing else. The fix replaces exactly the text of the value by that of the shortest
values with single spaces between them. -/
theorem box_values_exact :
    (∀ parts : List Text, parts ≠ [] → parts.length ≤ 4 →
      IsShortest parts (shorten parts) ∧ shorten (shorten parts) = shorten parts)
    ∧ ∀ source : Text,
      let sheet := (Parse.ofText source).sheet
      (∀ d, d ∈ sheet.declarations ↔ ∃ around leading level,
        Node.Enclosed sheet.children around (.statement leading level (.declaration d)))
      ∧ List.Forall₂ (Shortens source) (check source sheet)
        (sheet.declarations.filter (IsLong ·)) := by
  constructor
  · intro parts hne hlength
    have hshortest := isShortest_shorten hne hlength
    exact ⟨hshortest, hshortest.shorten_eq hne hlength⟩
  · intro source sheet
    exact ⟨fun d => Stylesheet.mem_declarations_iff, forall₂_flatMap_filter
      (fun d hd h => exists_finding hd h) fun d _ h => declarationFindings_eq_nil h⟩

namespace Nested

/-- A declaration of two equal values, in the inner one of two blocks. -/
def nested : Text := ['a', '\x7b', 'b', '\x7b'] ++ "inset:0 0".toList ++ ['\x7d', '\x7d']

/-- The declaration. -/
def declaration : Declaration :=
  ⟨[⟨.ident, "inset".toList, ⟨⟨4, 1, 5⟩, ⟨9, 1, 10⟩⟩⟩], [],
    ⟨.punct, [':'], ⟨⟨9, 1, 10⟩, ⟨10, 1, 11⟩⟩⟩, [],
    [⟨.number, ['0'], ⟨⟨10, 1, 11⟩, ⟨11, 1, 12⟩⟩⟩, ⟨.whitespace, [' '], ⟨⟨11, 1, 12⟩, ⟨12, 1, 13⟩⟩⟩,
      ⟨.number, ['0'], ⟨⟨12, 1, 13⟩, ⟨13, 1, 14⟩⟩⟩], [], none⟩

theorem declarations_eq : (Parse.ofText nested).sheet.declarations = [declaration] := by cbv

theorem isLong_declaration : IsLong declaration := by decide

end Nested

/-- Four values of which two go, and a declaration of two equal values in an inner block. -/
theorem box_values_exact_in_blocks :
    let parts : List Text := ["1px".toList, "2PX".toList, "1px".toList, "2px".toList]
    (parts ≠ [] ∧ parts.length ≤ 4 ∧ IsShortest parts ["1px".toList, "2PX".toList])
      ∧ ∃ f, check Nested.nested (Parse.ofText Nested.nested).sheet = [f]
        ∧ Shortens Nested.nested f Nested.declaration := by
  intro parts
  obtain ⟨hshorten, hcheck⟩ := box_values_exact
  obtain ⟨-, hfound⟩ := hcheck Nested.nested
  refine ⟨⟨by decide, by decide, (hshorten parts (by decide) (by decide)).1⟩, ?_⟩
  have hlong : [Nested.declaration].filter (IsLong ·) = [Nested.declaration] := by
    simp [Nested.isLong_declaration]
  rw [Nested.declarations_eq, hlong] at hfound
  obtain ⟨f, fs, hf, hfs, hcheck⟩ := List.forall₂_cons_right_iff.mp hfound
  obtain rfl := List.forall₂_nil_right_iff.mp hfs
  exact ⟨f, hcheck, hf⟩

end ShorthandValues

end SheetLint
