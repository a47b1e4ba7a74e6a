import SheetLint.Proofs.Edit.Tokens
import SheetLint.Proofs.Rule.FixesApply
import SheetLint.Proofs.Token.Zeros
import SheetLint.Proofs.Tree.Defects
import SheetLint.Rule.ZeroUnit

/-!
# What dropping units does to the tokens of a text

The rule about zero lengths marks numbers, each at most once, and its fixes put a zero in the place
of the numbers that they are about. Any of the fixes may be applied together, and then the tokens are
the old ones, with a zero for each number that was marked, exactly when the zeros stand apart from
what they touch: nothing in front of one takes digits, and neither a percent sign nor a fraction
stands behind one.

Results:
* `ZeroUnit.exists_marked`: what the rule finds is one finding for each of some numbers.
* `ZeroUnit.zeros_fixed_iff`: what any of the fixes make of the tokens of a text.
* `ZeroUnit.zero_joins_number`: a zero that becomes a part of the number in front of it.
-/

namespace SheetLint.ZeroUnit

open Tokens

variable {source : Text} {t : Token}

/-! ## The numbers that are marked -/

/-- The finding for a number. -/
def finding (t : Token) : Finding :=
  let unit := (Number.ofText? t.text).elim [] Number.unit
  { span := t.span
    message := "Unit " ++ Text.quoted unit ++ " is unnecessary on a zero length"
    fix := some (.replace ("Replace " ++ Text.quoted t.text ++ " with `0`") t.start t.stop ['0']) }

/-- The units of length are names. -/
theorem unit_of_isOneOf {unit : Text} (h : isOneOf lengthUnits unit.lower = true) :
    unit ≠ [] ∧ unit ≠ ['%'] := by
  constructor
  · rintro rfl
    revert h
    decide
  · rintro rfl
    revert h
    decide

/-- A number is marked or it is not. -/
theorem numberFinding_eq (calls : List Call) (i : Nat) (t : Token) :
    numberFinding calls i t = [] ∨ numberFinding calls i t = [finding t] ∧ t.HasUnit := by
  unfold numberFinding
  split
  · rename_i n hn
    split
    · rename_i htest
      right
      rw [Bool.and_eq_true] at htest
      split at hn
      · rename_i hkind
        refine ⟨by rw [finding, hn]; rfl, beq_iff_eq.mp hkind, n, hn, unit_of_isOneOf htest.2⟩
      · cases hn
    · exact .inl rfl
  · exact .inl rfl

/-- What is found among the tokens of a value is one finding for each of some numbers. -/
theorem exists_marked_of_value (calls : List Call) (ts : List Token) (i : Nat) :
    ∃ marked : List Token, marked.Sublist ts ∧ (∀ t ∈ marked, t.HasUnit)
      ∧ (ts.zipIdx i).flatMap (fun x => numberFinding calls x.2 x.1) = marked.map finding := by
  induction ts generalizing i with
  | nil => exact ⟨[], .slnil, by simp, rfl⟩
  | cons t ts ih =>
    obtain ⟨marked, hsub, hunit, hfound⟩ := ih (i + 1)
    rw [List.zipIdx_cons, List.flatMap_cons, hfound]
    rcases numberFinding_eq calls i t with hnone | ⟨hsome, ht⟩
    · exact ⟨marked, hsub.cons t, hunit, by rw [hnone, List.nil_append]⟩
    · refine ⟨t :: marked, hsub.cons_cons t, List.forall_mem_cons.mpr ⟨ht, hunit⟩, ?_⟩
      rw [hsome, List.map_cons, List.singleton_append]

/-- **What the rule finds is one finding for each of some numbers.** -/
theorem exists_marked (source : Text) :
    ∃ marked : List Token, marked.Sublist (ofText source) ∧ (∀ t ∈ marked, t.HasUnit)
      ∧ check source (Parse.ofText source).sheet = marked.map finding := by
  have hdeclaration (d : Declaration) : ∃ marked : List Token, marked.Sublist d.tokens
      ∧ (∀ t ∈ marked, t.HasUnit) ∧ declarationFindings d = marked.map finding := by
    unfold declarationFindings
    split
    · exact ⟨[], List.nil_sublist _, by simp, rfl⟩
    · obtain ⟨marked, hsub, hunit, hfound⟩ := exists_marked_of_value (mathCalls d.value) d.value 0
      refine ⟨marked, hsub.trans (List.IsInfix.sublist ?_), hunit, hfound⟩
      exact ⟨d.property ++ d.beforeColon ++ [d.colon] ++ d.afterColon,
        d.beforeSemicolon ++ d.semicolon.toList, by simp [Declaration.tokens]⟩
  have hall (ds : List Declaration) : ∃ marked : List Token,
      marked.Sublist (ds.flatMap Declaration.tokens) ∧ (∀ t ∈ marked, t.HasUnit)
        ∧ ds.flatMap declarationFindings = marked.map finding := by
    induction ds with
    | nil => exact ⟨[], .slnil, by simp, rfl⟩
    | cons d ds ih =>
      obtain ⟨here, hsub, hunit, hfound⟩ := hdeclaration d
      obtain ⟨later, hsub', hunit', hfound'⟩ := ih
      refine ⟨here ++ later, hsub.append hsub', List.forall_mem_append.mpr ⟨hunit, hunit'⟩, ?_⟩
      rw [List.flatMap_cons, hfound, hfound', List.map_append]
  obtain ⟨marked, hsub, hunit, hfound⟩ := hall (Parse.ofText source).sheet.declarations
  exact ⟨marked, hsub.trans (Stylesheet.declarations_sublist _), hunit, hfound⟩

/-! ## What the fixes do -/

/-- The edit for a number. -/
def edit (t : Token) : Edit := ⟨t.start, t.stop, ['0']⟩

theorem edits_map_finding (ks : List Token) :
    ((ks.map finding).filterMap Finding.fix).flatMap Fix.edits = ks.map edit := by
  induction ks with
  | nil => rfl
  | cons k ks ih => exact congrArg (edit k :: ·) ih

/-- Whether one of some findings is about a token. -/
def isAbout (fs : List Finding) (t : Token) : Bool := fs.any (·.span == t.span)

/-- The findings for some numbers are about these numbers. -/
theorem isAbout_map_iff {ks : List Token} (hks : ks ⊆ ofText source) (ht : t ∈ ofText source) :
    isAbout (ks.map finding) t = true ↔ t ∈ ks := by
  rw [isAbout, List.any_map, List.any_eq_true]
  constructor
  · rintro ⟨k, hk, hspan⟩
    rwa [← eq_of_span_eq (hks hk) ht (beq_iff_eq.mp hspan)]
  · exact fun hmem => ⟨t, hmem, beq_self_eq_true t.span⟩

/-- The edits for some numbers give the text with zeros in their place. -/
theorem applyAll?_edits {ks : List Token} {flag : Token → Bool} (hsub : ks.Sublist (ofText source))
    (hflag : ∀ {t : Token}, t ∈ ofText source → flag t = decide (t ∈ ks)) :
    Edit.applyAll? source (ks.map edit) = some (text ((ofText source).map (Token.zeroed flag))) := by
  have hone : (ofText source).map (Token.zeroed flag) =
      (ofText source).flatMap fun t => [Token.zeroed flag t] := List.map_eq_flatMap
  rw [hone]
  refine Edit.applyAll?_map hsub (fun t ht hnot => ?_) fun t ht => ?_
  · rw [Token.zeroed_of_not_flag (by simpa [hflag ht] using hnot)]
    exact List.append_nil _
  · rw [Token.zeroed_of_flag (by simpa [hflag (hsub.mem ht)] using ht)]
    exact ⟨[], t.text, rfl, rfl, rfl, rfl⟩

/-- **What any of the fixes make of the tokens of a text.** Each is about a number of the text. Applied
together they give a text, and that is read as the old tokens, with a zero for each of these numbers,
exactly when the zeros stand apart from their neighbours. -/
theorem zeros_fixed_iff (source : Text) (hok : (Parse.ofText source).isOk = true)
    {chosen : List Finding} (h : chosen.Sublist (check source (Parse.ofText source).sheet)) :
    (∀ f ∈ chosen, ∃ t ∈ ofText source, t.kind = .number ∧ t.span = f.span)
      ∧ ∃ out, Edit.applyAll? source ((chosen.filterMap Finding.fix).flatMap Fix.edits) = some out
        ∧ ((ofText out).map Token.bare = (ofText source).map (Token.zeroed (isAbout chosen))
          ↔ (ofText source).IsChain (Token.ApartFrom (isAbout chosen))) := by
  obtain ⟨marked, hmarked, hunit, hfound⟩ := exists_marked source
  rw [hfound] at h
  obtain ⟨ks, hks, rfl⟩ := List.sublist_map_iff.mp h
  have hsub := hks.trans hmarked
  have habout {t : Token} (ht : t ∈ ofText source) : isAbout (ks.map finding) t = decide (t ∈ ks) := by
    rw [Bool.eq_iff_iff, isAbout_map_iff hsub.subset ht, decide_eq_true_iff]
  generalize isAbout (ks.map finding) = flag at habout ⊢
  have hflag : ∀ t ∈ ofText source, flag t = true → t.HasUnit := by
    intro t ht hflag
    rw [habout ht, decide_eq_true_iff] at hflag
    exact hunit t (hks.subset hflag)
  constructor
  · intro f hf
    obtain ⟨t, ht, rfl⟩ := List.mem_map.mp hf
    exact ⟨t, hsub.subset ht, (hunit t (hks.subset ht)).1, rfl⟩
  · rw [edits_map_finding, applyAll?_edits hsub habout]
    refine ⟨_, rfl, ?_⟩
    have hlegible : Legible ((ofText source).map (Token.zeroed flag)) ↔ _ := legible_iff .start
    rw [Token.map_bare_zeroed] at hlegible
    have hread : Legible (ofText source) := legible_of_ofTextAt (rfl : ofTextAt .start source = _)
    exact hlegible.symm.trans (legible_zeroed_iff hread (Parse.kind_ne_error hok) hflag)

/-! ## A number alone, and one that touches another -/

namespace Touching

/-- The property and the colon of a declaration of one letter. -/
def front : List Token :=
  [⟨.ident, ['a'], ⟨⟨0, 1, 1⟩, ⟨1, 1, 2⟩⟩⟩, ⟨.punct, [':'], ⟨⟨1, 1, 2⟩, ⟨2, 1, 3⟩⟩⟩]

/-- The declaration with these tokens as value. -/
def declarationOf (value : List Token) : Declaration :=
  ⟨front.take 1, [], ⟨.punct, [':'], ⟨⟨1, 1, 2⟩, ⟨2, 1, 3⟩⟩⟩, [], value, [], none⟩

/-- The sheet of a declaration with these tokens as value. -/
def sheetOf (value : List Token) : Stylesheet :=
  ⟨[.statement [] 0 (.declaration (declarationOf value))], []⟩

/-- A declaration with one number. -/
def alone : Text := "a:0px".toList

/-- The number. -/
def number : Token := ⟨.number, "0px".toList, ⟨⟨2, 1, 3⟩, ⟨5, 1, 6⟩⟩⟩

theorem ofText_alone : ofText alone = front ++ [number] := by cbv

theorem parse_alone : Parse.ofText alone = ⟨sheetOf [number], []⟩ := by cbv

theorem check_alone : check alone (Parse.ofText alone).sheet = [finding number] := by
  rw [parse_alone]
  rfl

/-- A declaration with a number that starts with its sign right behind another one. -/
def touching : Text := "a:1-0px".toList

/-- The declaration without sign and unit. -/
def joined : Text := "a:10".toList

/-- The number in front. -/
def one : Token := ⟨.number, ['1'], ⟨⟨2, 1, 3⟩, ⟨3, 1, 4⟩⟩⟩

/-- The number with a unit. -/
def signed : Token := ⟨.number, "-0px".toList, ⟨⟨3, 1, 4⟩, ⟨7, 1, 8⟩⟩⟩

theorem ofText_touching : ofText touching = front ++ [one, signed] := by cbv

theorem parse_touching : Parse.ofText touching = ⟨sheetOf [one, signed], []⟩ := by cbv

theorem check_touching : check touching (Parse.ofText touching).sheet = [finding signed] := by
  rw [parse_touching]
  rfl

end Touching

/-- **A number by itself** loses its unit, and nothing else changes. -/
theorem zeros_fixed_iff_alone :
    let source := Touching.alone
    let chosen := check source (Parse.ofText source).sheet
    (Parse.ofText source).isOk = true ∧ chosen.Sublist (check source (Parse.ofText source).sheet)
      ∧ chosen.map Finding.span = [Touching.number.span]
      ∧ (ofText source).IsChain (Token.ApartFrom (isAbout chosen))
      ∧ ∃ out, Edit.applyAll? source ((chosen.filterMap Finding.fix).flatMap Fix.edits) = some out
        ∧ (ofText out).map Token.bare = (ofText source).map (Token.zeroed (isAbout chosen)) := by
  intro source chosen
  have hchosen : chosen = [finding Touching.number] := Touching.check_alone
  have hok : (Parse.ofText source).isOk = true := congrArg Parse.isOk Touching.parse_alone
  have hchain : (ofText source).IsChain (Token.ApartFrom (isAbout chosen)) := by
    rw [hchosen, show ofText source = _ from Touching.ofText_alone]
    decide
  obtain ⟨-, out, happly, hiff⟩ := zeros_fixed_iff source hok (List.Sublist.refl chosen)
  exact ⟨hok, .refl _, by rw [hchosen]; rfl, hchain, out, happly, hiff.mpr hchain⟩

/-- **A zero that becomes a part of the number in front of it.** With the only fix there is, the two
numbers of the declaration become one. -/
theorem zero_joins_number :
    let source := Touching.touching
    let chosen := check source (Parse.ofText source).sheet
    (Parse.ofText source).isOk = true
      ∧ chosen.map Finding.span = [Touching.signed.span]
      ∧ Edit.applyAll? source ((chosen.filterMap Finding.fix).flatMap Fix.edits)
          = some Touching.joined
      ∧ (ofText source).map Token.text = [['a'], [':'], ['1'], "-0px".toList]
      ∧ (ofText Touching.joined).map Token.text = [['a'], [':'], ['1', '0']]
      ∧ (ofText Touching.joined).map Token.bare
          ≠ (ofText source).map (Token.zeroed (isAbout chosen)) := by
  intro source chosen
  have hchosen : chosen = [finding Touching.signed] := Touching.check_touching
  have hjoined : ofText Touching.joined =
      Touching.front ++ [⟨.number, ['1', '0'], ⟨⟨2, 1, 3⟩, ⟨4, 1, 5⟩⟩⟩] := by cbv
  have hsource : ofText source = Touching.front ++ [Touching.one, Touching.signed] :=
    Touching.ofText_touching
  refine ⟨congrArg Parse.isOk Touching.parse_touching, by rw [hchosen]; rfl, ?_, ?_, ?_, ?_⟩
  · rw [hchosen]
    have hwalk : Edit.Substituted 0 ("a:1".toList ++ "-0px".toList ++ []) [edit Touching.signed]
        ("a:1".toList ++ ['0'] ++ []) := .cons rfl rfl (.nil 7 [])
    exact Edit.applyAll?_of_substituted hwalk (List.pairwise_singleton _ _)
  · rw [hsource]
    rfl
  · rw [hjoined]
    rfl
  · intro hsame
    have hlength := congrArg List.length hsame
    rw [hjoined, hsource, List.length_map, List.length_map] at hlength
    cases hlength

end SheetLint.ZeroUnit
