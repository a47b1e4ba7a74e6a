import Mathlib.Algebra.Order.BigOperators.Group.List
import SheetLint.Proofs.Rule.FixesApply
import SheetLint.Proofs.Rule.Kebab
import SheetLint.Proofs.Token.Terminators
import SheetLint.Rule.BannedFunctions
import SheetLint.Rule.CommentStyle
import SheetLint.Rule.MaxNestingDepth
import SheetLint.Rule.NoImportant
import SheetLint.Rule.QuoteStyle
import SheetLint.Rule.ShorthandValues
import SheetLint.Rule.ZeroUnit

/-!
# The fixes of rules that rewrite what they find

The rules about strings, numbers, names, comments and box values replace tokens by another way to
write them. What each puts there is not what it found: the two differ in a character, or in their
lengths. A string with other quotes is a string, and a name in kebab case still escapes its slashes,
so neither holds a comment. Other rules only report.

Results:
* `Tokens.unmarked_of_ident`, `SelectorNaming.unmarked_kebab`: no mark of a comment stands in a
  name, nor in its kebab-case form.
* `QuoteStyle.sparesComments`, `ZeroUnit.sparesComments`, `SelectorNaming.sparesComments`: the fixes
  of these rules are applicable and spare comments.
* `Tokens.separatedLength_segments`: the segments of a run and the separators between them fill it.
* `CommentStyle.fixesApply`, `ShorthandValues.fixesApply`: the fixes of these rules are applicable.
* `MaxNestingDepth.sparesComments`, `NoImportant.sparesComments`, `BannedFunctions.sparesComments`:
  these rules give none.
-/

namespace SheetLint

open Parse

variable {source : Text} {f : Finding}

/-! ## Rules without fixes -/

/-- A check that gives no fix. -/
theorem Check.sparesComments_of_no_fix {check : Check}
    (h : ∀ source sheet, ∀ f ∈ check source sheet, f.fix = none) : Check.SparesComments check :=
  fun source f hf => Finding.sparesComments_of_eq_none (h source _ f hf)

theorem MaxNestingDepth.sparesComments (most : Nat) :
    Check.SparesComments (MaxNestingDepth.check most) := by
  refine Check.sparesComments_of_no_fix fun source sheet f hf => ?_
  obtain ⟨n, -, hf⟩ := List.mem_flatMap.mp hf
  unfold MaxNestingDepth.nodeFindings at hf
  split at hf
  · simp only at hf
    split at hf
    · split at hf
      · rw [List.mem_singleton.mp hf]
      · cases hf
    · cases hf
  · cases hf

theorem NoImportant.sparesComments : Check.SparesComments NoImportant.check := by
  refine Check.sparesComments_of_no_fix fun source sheet f hf => ?_
  obtain ⟨d, -, hf⟩ := List.mem_flatMap.mp hf
  unfold NoImportant.declarationFindings at hf
  split at hf
  · rw [List.mem_singleton.mp hf]
  · cases hf

theorem BannedFunctions.sparesComments (functions : List String) :
    Check.SparesComments (BannedFunctions.check functions) := by
  refine Check.sparesComments_of_no_fix fun source sheet f hf => ?_
  obtain ⟨n, -, hf⟩ := List.mem_flatMap.mp hf
  obtain ⟨call, -, rfl⟩ := List.mem_map.mp hf
  rfl

/-! ## Strings -/

namespace Scan

/-- **A string is its content between two quotes**, and the same content is a string between other
quotes that do not occur in it. -/
theorem exists_content_of_string {c : Char} {w s : Text}
    (h : kindAndLength c (w ++ s) = (.string, w.length + 1)) :
    isQuote c = true ∧ ∃ content, w = content ++ [c] ∧ ∀ q, isQuote q = true → q ∉ content →
      ∀ back, kindAndLength q (content ++ q :: back) = (.string, content.length + 2) := by
  have hreads : (⟨.string, c :: w, default⟩ : Token).ReadsBefore s := ⟨c, w, rfl, h⟩
  obtain ⟨_, content, hc, htext, hinside⟩ := hreads.exists_inside_of_string rfl
  obtain ⟨rfl, rfl⟩ := List.cons.inj htext
  refine ⟨hc, content, rfl, fun q hq hfree back => ?_⟩
  rw [kindAndLength_quote hq, (hinside.requoted hfree).stringTail_eq hq]

end Scan

namespace QuoteStyle

theorem isQuote_char (q : Quote) : Scan.isQuote q.char = true := by
  cases q <;> rfl

/-- A string between other quotes is a string. -/
theorem isMute_requoted {t : Token} (ht : t ∈ Tokens.ofText source) (hkind : t.kind = .string)
    (preferred : Quote) (hcontent : preferred.char ∉ (t.text.drop 1).dropLast) :
    Text.IsMute (preferred.char :: (t.text.drop 1).dropLast ++ [preferred.char]) := by
  obtain ⟨before, after, h⟩ := List.append_of_mem ht
  have hread : Tokens.ofTextAt .start source = before ++ t :: after := h
  obtain ⟨c, w, htext, hscan⟩ := Tokens.exists_scan_of_ofTextAt hread
  rw [hkind] at hscan
  obtain ⟨-, content, rfl, hstring⟩ := Scan.exists_content_of_string hscan
  rw [htext, List.drop_succ_cons, List.drop_zero, List.dropLast_concat] at hcontent ⊢
  rw [List.cons_append]
  have hword : TokenKind.string ≠ .lineComment ∧ TokenKind.string ≠ .blockComment := by decide
  refine Text.isMute_of_scan ?_ (fun back => ?_) hword
  · cases preferred <;> rfl
  · rw [List.append_assoc, List.singleton_append, hstring _ (isQuote_char preferred) hcontent,
      List.length_append, List.length_singleton]

/-- **The rule about quotes spares comments.** -/
theorem sparesComments (preferred : Quote) : Check.SparesComments (check preferred) := by
  intro source f hf
  obtain ⟨t, ht, hf⟩ := List.mem_flatMap.mp hf
  rw [show (ofText source).sheet.tokens = Tokens.ofText source from Stylesheet.tokens_ofTokens _]
    at ht
  unfold stringFinding at hf
  simp only at hf
  split at hf
  · rename_i htest
    simp only [Bool.and_eq_true, beq_iff_eq, bne_iff_ne, Bool.not_eq_true', ← Bool.not_eq_true,
      List.contains_iff_mem] at htest
    rw [List.mem_singleton.mp hf]
    rintro fix ⟨⟩
    refine Fix.sparesComments_token ht (by rw [Token.isComment, htest.1.1]; rfl) (fun hsame => ?_)
      (isMute_requoted ht htest.1.1 preferred htest.2)
    exact htest.1.2 (by rw [← hsame]; rfl)
  · cases hf

end QuoteStyle

/-! ## Zero lengths -/

namespace ZeroUnit

theorem sparesComments_number {calls : List Call} {i : Nat} {t : Token}
    (ht : t ∈ Tokens.ofText source) (hf : f ∈ numberFinding calls i t) : f.SparesComments source := by
  unfold numberFinding at hf
  split at hf
  · rename_i n hn
    split at hf
    · rename_i htest
      rw [List.mem_singleton.mp hf]
      rintro fix ⟨⟩
      have hnumber : t.kind = .number := by
        by_contra hother
        rw [if_neg (by simpa using hother)] at hn
        cases hn
      -- the text `0` is a number without unit
      refine Fix.sparesComments_token ht (by rw [Token.isComment, hnumber]; rfl) (fun hsame => ?_)
        (Text.isMute_of_not_mem (by decide))
      rw [← hsame] at hn
      split at hn
      · have hunit : n.unit = [] := by
          cases hn
          rfl
        rw [hunit] at htest
        simp [isOneOf, lengthUnits, Text.lower] at htest
      · cases hn
    · cases hf
  · cases hf

/-- **The rule about zero lengths spares comments.** -/
theorem sparesComments : Check.SparesComments check := by
  intro source f hf
  obtain ⟨d, hd, hf⟩ := List.mem_flatMap.mp hf
  unfold declarationFindings at hf
  split at hf
  · cases hf
  · obtain ⟨⟨t, i⟩, ht, hf⟩ := List.mem_flatMap.mp hf
    refine sparesComments_number ((tokens_isInfix_of_declaration hd).subset ?_) hf
    simp [Declaration.tokens, List.fst_mem_of_mem_zipIdx ht]

end ZeroUnit

/-! ## Names of classes -/

namespace Scan

/-- A slash in a name is escaped, and what follows it is not a slash or a star, unless escaped. -/
theorem unmarked_take_nameLength (t : Text) : Text.Unmarked (t.take (nameLength t))
    ∧ ∀ c ∈ (t.take (nameLength t)).head?, c ≠ '/' ∧ c ≠ '*' := by
  fun_induction nameLength t with
  | case1 cs => simp [Text.Unmarked]
  | case2 c cs hc ih =>
    refine ⟨?_, by simp⟩
    rw [List.take_succ_cons, List.take_succ_cons]
    refine (ih.1.cons fun d hd _ => ih.2 d hd).cons fun _ _ hslash => ?_
    cases hslash
  | case3 c cs _ hname ih =>
    have hslash : c ≠ '/' := by
      rintro rfl
      cases hname
    have hstar : c ≠ '*' := by
      rintro rfl
      cases hname
    rw [List.take_succ_cons]
    exact ⟨ih.1.cons fun _ _ hc => absurd hc hslash, by simpa using ⟨hslash, hstar⟩⟩
  | case4 | case5 => simp [Text.Unmarked]

end Scan

/-- **No mark stands in a name.** -/
theorem Tokens.unmarked_of_ident {t : Token} (ht : t ∈ Tokens.ofText source)
    (hkind : t.kind = .ident) : t.text.Unmarked := by
  obtain ⟨before, after, h⟩ := List.append_of_mem ht
  have hread : Tokens.ofTextAt .start source = before ++ t :: after := h
  obtain ⟨c, w, htext, hscan⟩ := Tokens.exists_scan_of_ofTextAt hread
  rw [hkind] at hscan
  have hname := (Scan.unmarked_take_nameLength (c :: (w ++ Tokens.text after))).1
  rw [Scan.nameLength_of_ident hscan, ← List.cons_append,
    List.take_left' (List.length_cons)] at hname
  rwa [htext]

namespace Text

/-- Whether a character has no part in the mark of a comment. -/
def IsHarmless (c : Char) : Prop := c ≠ '/' ∧ c ≠ '*'

/-- Unmarked texts with some harmless characters between them. -/
theorem unmarked_append {a between b : Text} (ha : a.Unmarked) (hb : b.Unmarked)
    (hne : between ≠ []) (hbetween : ∀ c ∈ between, IsHarmless c) :
    Unmarked (a ++ (between ++ b)) := by
  have hinside : Unmarked between := by
    rw [Unmarked, List.isChain_iff_forall_rel_of_append_cons_cons]
    rintro x y front back rfl hslash
    exact absurd hslash (hbetween x (by simp)).1
  obtain ⟨first, hfirst⟩ := Option.ne_none_iff_exists'.mp (mt List.head?_eq_none_iff.mp hne)
  refine ha.append (hinside.append hb fun x hx y _ hslash => ?_) fun x _ y hy _ => ?_
  · exact absurd hslash (hbetween x (List.mem_of_getLast? hx)).1
  · rw [List.head?_append, hfirst] at hy
    cases hy
    exact hbetween first (List.mem_of_head? hfirst)

theorem unmarked_intercalate {sep : Text} {parts : List Text} (hne : sep ≠ [])
    (hsep : ∀ c ∈ sep, IsHarmless c) (h : ∀ p ∈ parts, p.Unmarked) :
    Unmarked (List.intercalate sep parts) := by
  induction parts with
  | nil => exact List.isChain_nil
  | cons p parts ih =>
    rw [List.forall_mem_cons] at h
    cases parts with
    | nil =>
      rw [List.intercalate_singleton]
      exact h.1
    | cons q parts =>
      rw [List.intercalate_cons_cons, List.append_assoc]
      exact unmarked_append h.1 (ih h.2) hne hsep

end Text

namespace SelectorNaming

open Text (IsHarmless Unmarked)

theorem isHarmless_toLower {c : Char} (h : c.isUpper = true) : IsHarmless c.toLower := by
  have hlower : c.toLower.isLower = true := by simp [Char.isAlpha, h]
  constructor <;>
  · intro hc
    rw [hc] at hlower
    cases hlower

/-- A character in kebab case, with or without a dash in front of it, stands in for the character of
the name. -/
theorem unmarked_pushDash {done rest between : Text} {c : Char}
    (h : Unmarked (done.reverse ++ c :: rest)) (hbetween : ∀ x ∈ between, IsHarmless x)
    (hne : between ≠ []) : Unmarked ((pushDash done).reverse ++ (between ++ rest)) := by
  have hdone : Unmarked done.reverse := h.left_of_append
  have hrest : Unmarked rest := h.right_of_append.tail
  have hdash : ∀ x ∈ '-' :: between, IsHarmless x :=
    List.forall_mem_cons.mpr ⟨by simp [IsHarmless], hbetween⟩
  unfold pushDash
  split
  · exact Text.unmarked_append hdone hrest hne hbetween
  · exact Text.unmarked_append hdone hrest hne hbetween
  · rw [List.reverse_cons, List.append_assoc, List.singleton_append, ← List.cons_append]
    exact Text.unmarked_append hdone hrest (List.cons_ne_nil _ _) hdash

/-- What a separator leaves. -/
theorem unmarked_separator {done rest : Text} {c : Char}
    (h : Unmarked (done.reverse ++ c :: rest)) : Unmarked ((pushDash done).reverse ++ rest) := by
  have hrest : Unmarked rest := h.right_of_append.tail
  have hdash : ∀ x ∈ ['-'], IsHarmless x := by simp [IsHarmless]
  unfold pushDash
  split
  · exact hrest
  · rename_i ds
    have hds : Unmarked ds.reverse := by
      rw [List.reverse_cons, List.append_assoc] at h
      exact h.left_of_append
    rw [List.reverse_cons, List.append_assoc]
    exact Text.unmarked_append hds hrest (List.cons_ne_nil _ _) hdash
  · rw [List.reverse_cons, List.append_assoc]
    exact Text.unmarked_append h.left_of_append hrest (List.cons_ne_nil _ _) hdash

/-- **Kebab case puts no mark into a word**: `done` is what is read, and `rest` what is not yet. -/
theorem unmarked_kebabFrom {before : Option Char} {done rest : Text}
    (h : Unmarked (done.reverse ++ rest)) : Unmarked (kebabFrom before done rest).reverse := by
  induction rest generalizing before done with
  | nil => simpa [kebabFrom] using h
  | cons c rest ih =>
    rw [kebabFrom]
    refine ih ?_
    split
    · exact unmarked_separator h
    · split
      · rename_i hupper
        have hlower : ∀ x ∈ [c.toLower], IsHarmless x := by
          simpa using isHarmless_toLower hupper
        rw [List.reverse_cons, List.append_assoc]
        split
        · exact unmarked_pushDash h hlower (List.cons_ne_nil _ _)
        · exact Text.unmarked_append h.left_of_append h.right_of_append.tail (List.cons_ne_nil _ _)
            hlower
      · simpa using h

theorem unmarked_kebabWord {word : Text} (h : word.Unmarked) : (kebabWord word).Unmarked := by
  have hfrom : Unmarked (kebabFrom none [] word).reverse := unmarked_kebabFrom (by simpa using h)
  refine List.IsChain.prefix hfrom ?_
  rw [kebabWord, List.reverse_prefix]
  exact List.dropWhile_suffix _

/-- The kebab-case form of a name without mark has none. -/
theorem unmarked_kebab {name : Text} (h : name.Unmarked) : (kebab name).Unmarked := by
  refine Text.unmarked_intercalate (List.cons_ne_nil _ _) (by simp [IsHarmless]) fun p hp => ?_
  obtain ⟨element, helement, rfl⟩ := List.mem_map.mp hp
  have helement : Unmarked element :=
    List.IsChain.infix h (isInfix_of_mem_splitAtPair helement)
  refine Text.unmarked_intercalate (List.cons_ne_nil _ _) (by simp [IsHarmless]) fun q hq => ?_
  obtain ⟨word, hword, rfl⟩ := List.mem_map.mp hq
  have hword : Unmarked word :=
    List.IsChain.infix helement (isInfix_of_mem_splitAtPair hword)
  exact unmarked_kebabWord hword

theorem sparesComments_name {accepts : Text → Bool} {dot name : Token}
    (hname : name ∈ Tokens.ofText source) (hident : name.kind = .ident)
    (hf : f ∈ nameFinding accepts dot name) : f.SparesComments source := by
  unfold nameFinding at hf
  simp only at hf
  split at hf
  · cases hf
  · rw [List.mem_singleton.mp hf]
    intro fix hfix
    simp only at hfix
    split at hfix
    · rename_i hbetter
      cases hfix
      rw [Bool.and_eq_true, bne_iff_ne] at hbetter
      exact Fix.sparesComments_token hname (by rw [Token.isComment, hident]; rfl) hbetter.1
        (Text.isMute_of_unmarked (unmarked_kebab (Tokens.unmarked_of_ident hname hident)))
    · cases hfix

theorem sparesComments_selector {accepts : Text → Bool} {ts : List Token}
    (hts : ts ⊆ Tokens.ofText source) (hf : f ∈ selectorFindings accepts ts) :
    f.SparesComments source := by
  fun_induction selectorFindings accepts ts with
  | case1 dot name rest ih =>
    have hrest : name :: rest ⊆ Tokens.ofText source := (List.cons_subset.mp hts).2
    rcases List.mem_append.mp hf with hfirst | hlater
    · split at hfirst
      · rename_i htest
        simp only [Bool.and_eq_true, beq_iff_eq] at htest
        exact sparesComments_name (hrest List.mem_cons_self) htest.1.1.2 hfirst
      · cases hfirst
    · exact ih hrest hlater
  | case2 => cases hf

/-- **The rule about the names of classes spares comments.** -/
theorem sparesComments (accepts : Text → Bool) : Check.SparesComments (check accepts) := by
  intro source f hf
  obtain ⟨n, hn, hf⟩ := List.mem_flatMap.mp hf
  split at hf
  · refine sparesComments_selector (fun t ht => (tokens_isInfix hn).subset ?_) hf
    simp [Node.tokens, Head.tokens, ht]
  · cases hf

end SelectorNaming

/-! ## Comments -/

namespace CommentStyle

theorem take_lineComment (t : Text) : (lineComment t).take 2 = ['/', '/'] := by
  unfold lineComment
  split <;> rfl

theorem fixApplies_comment {allowHeadings : Bool} {t : Token} (ht : t ∈ Tokens.ofText source)
    (hf : f ∈ commentFindings allowHeadings source t) : f.FixApplies source := by
  unfold commentFindings at hf
  split at hf
  · cases hf
  · rename_i htest
    rw [List.mem_singleton.mp hf]
    intro fix hfix
    simp only at hfix
    split at hfix
    · cases hfix
      have hkind : t.kind = .blockComment := by
        by_contra hother
        exact htest (by simp [hother])
      refine Fix.applicable_token ht fun hsame => ?_
      have hmark := Tokens.text_of_blockComment ht hkind
      rw [← hsame, take_lineComment] at hmark
      simp at hmark
    · cases hfix

theorem fixesApply (allowHeadings : Bool) : Check.FixesApply (check allowHeadings) := by
  intro source f hf
  obtain ⟨n, hn, hf⟩ := List.mem_flatMap.mp hf
  split at hf
  · refine fixApplies_comment ((tokens_isInfix hn).subset ?_) hf
    simp [Node.tokens, Statement.tokens]
  · cases hf

end CommentStyle

/-! ## Box values -/

namespace Tokens

/-- The length of texts that each have a separator behind them. -/
def separatedLength (parts : List Text) : Nat := (parts.map fun p => p.length + 1).sum

/-- **The segments of a run and the separators between them fill it.** -/
theorem separatedLength_segments {nest : Nat → Token → Nat} {isSeparator : Token → Bool}
    {depth : Nat} {ts : List Token} (hts : ∀ t ∈ ts, t.text ≠ []) :
    separatedLength ((segments nest isSeparator depth ts).map text) ≤ (text ts).length + 1 := by
  induction ts generalizing depth with
  | nil => simp [segments, separatedLength]
  | cons t ts ih =>
    rw [List.forall_mem_cons] at hts
    have hpos := List.length_pos_iff.mpr hts.1
    have hrest (depth : Nat) := @ih depth hts.2
    rw [segments]
    split
    · have := hrest 0
      simp only [separatedLength, List.map_cons, List.sum_cons, text_nil, List.length_nil, text_cons,
        List.length_append] at this ⊢
      omega
    · have := hrest (nest depth t)
      split
      · rename_i hnil
        exact absurd hnil (segments_ne_nil _ _ _ _)
      · rename_i segment more hsegments
        rw [hsegments] at this
        simp only [separatedLength, List.map_cons, List.sum_cons, text_cons,
          List.length_append] at this ⊢
        omega

theorem separatedLength_parts {ts : List Token} (hts : ∀ t ∈ ts, t.text ≠ []) :
    separatedLength ((parts ts).map text) ≤ (text ts).length + 1 := by
  have hkept : List.Sublist (parts ts) (segments parenDepth Token.isTrivia 0 ts) :=
    List.filter_sublist
  exact Nat.le_trans (((hkept.map text).map _).sum_le_sum (by simp)) (separatedLength_segments hts)

theorem length_le_separatedLength (parts : List Text) : parts.length ≤ separatedLength parts := by
  induction parts with
  | nil => exact Nat.zero_le _
  | cons p ps ih =>
    simp only [separatedLength, List.map_cons, List.sum_cons, List.length_cons] at ih ⊢
    omega

theorem separatedLength_lt (parts : List Text) {more : List Text} (h : more ≠ []) :
    separatedLength parts < separatedLength (parts ++ more) := by
  have hmore := length_le_separatedLength more
  have hpos := List.length_pos_iff.mpr h
  simp only [separatedLength, List.map_append, List.sum_append] at hmore ⊢
  omega

end Tokens

namespace ShorthandValues

open Tokens (separatedLength)

theorem length_joinSpaced (parts : List Text) :
    (joinSpaced parts).length ≤ separatedLength parts - 1 := by
  induction parts with
  | nil => simp [joinSpaced, List.intercalate]
  | cons p ps ih =>
    cases ps with
    | nil => simp [joinSpaced, List.intercalate, separatedLength]
    | cons q qs =>
      have hjoin : joinSpaced (p :: q :: qs) = p ++ ' ' :: joinSpaced (q :: qs) := by
        simp [joinSpaced, List.intercalate]
      rw [hjoin]
      simp only [separatedLength, List.map_cons, List.sum_cons, List.length_append,
        List.length_cons] at ih ⊢
      omega

theorem shortenTwo_isPrefix (parts : List Text) : shortenTwo parts <+: parts := by
  unfold shortenTwo
  split
  · split
    · exact ⟨_, rfl⟩
    · exact List.prefix_rfl
  · exact List.prefix_rfl

theorem shortenThree_isPrefix (parts : List Text) : shortenThree parts <+: parts := by
  unfold shortenThree
  split
  · split
    · exact (shortenTwo_isPrefix _).trans ⟨_, rfl⟩
    · exact List.prefix_rfl
  · exact shortenTwo_isPrefix _

theorem shorten_isPrefix (parts : List Text) : shorten parts <+: parts := by
  unfold shorten
  split
  · split
    · exact (shortenThree_isPrefix _).trans ⟨_, rfl⟩
    · exact List.prefix_rfl
  · exact shortenThree_isPrefix _

/-- Values that fill a text give another text when some of them are dropped. -/
theorem joinSpaced_ne {parts shorter : List Text} {value : Text} (hstarts : shorter <+: parts)
    (hshorter : shorter.length < parts.length) (htwo : 2 ≤ parts.length)
    (hvalue : separatedLength parts ≤ value.length + 1) : joinSpaced shorter ≠ value := by
  rintro rfl
  have hjoined := length_joinSpaced shorter
  have hlength := Tokens.length_le_separatedLength parts
  obtain ⟨dropped, rfl⟩ := hstarts
  have hdropped : dropped ≠ [] := by
    rintro rfl
    simp at hshorter
  have := Tokens.separatedLength_lt shorter hdropped
  omega

theorem fixesApply : Check.FixesApply check := by
  intro source f hf
  obtain ⟨d, hd, hf⟩ := List.mem_flatMap.mp hf
  have hvalue := value_isInfix hd
  unfold declarationFindings at hf
  simp only at hf
  split at hf
  · rename_i htest
    simp only [Bool.and_eq_true, decide_eq_true_eq] at htest
    split at hf
    · rename_i span hspan
      rw [List.mem_singleton.mp hf]
      rintro fix ⟨⟩
      refine Fix.applicable_run hvalue hspan
        (joinSpaced_ne (shorten_isPrefix _) htest.2 htest.1.1.2 ?_)
      exact Tokens.separatedLength_parts fun t ht => Tokens.ne_nil_of_mem_run hvalue ht
    · cases hf
  · cases hf

/-- The fixes of the rule have one edit. -/
theorem exists_edits_eq {sheet : Stylesheet} {fix : Fix} (hf : f ∈ check source sheet)
    (hfix : f.fix = some fix) : ∃ e, fix.edits = [e] := by
  obtain ⟨d, -, hf⟩ := List.mem_flatMap.mp hf
  unfold declarationFindings at hf
  simp only at hf
  split at hf
  · split at hf
    · rw [List.mem_singleton.mp hf] at hfix
      cases hfix
      exact ⟨_, rfl⟩
    · cases hf
  · cases hf

end ShorthandValues

end SheetLint
