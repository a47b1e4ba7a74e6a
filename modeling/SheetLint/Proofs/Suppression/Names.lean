import SheetLint.Proofs.Fixing.Report
import SheetLint.Proofs.Registry.Selection
import SheetLint.Proofs.Suppression.Coverage
import SheetLint.Proofs.Token.LetterCase

/-!
# The names that directives know

The registry resolves a rule by its name, or by its code in any letter case. A directive compares the
words in it with the name and the code as they are. So an id that the registry knows names a rule in a
directive, too, unless it is a code with other letters in lower or upper case: such a directive allows
nothing.

Results:
* `Registry.isPlain_of_resolve?`: which ids are resolved.
* `Directive.ofComment?_comment`: the directive for one id.
* `Suppression.not_reported_iff_of_id`: when it allows what stands on the next line.
-/

namespace SheetLint

open Text

/-! ## Ids -/

/-- The characters that a list of words keeps as they are. -/
def Text.isPlain (c : Char) : Bool := !isBlank c && c != ',' && c != ')'

theorem Text.isPlain_toLower (c : Char) : isPlain c.toLower = isPlain c :=
  Scan.class_toLower (by decide) c

namespace Registry

variable {id : String} {e : RuleEntry}

/-- Names and codes are words. -/
theorem all_isPlain :
    (entries.all fun e => e.info.keys.all fun key => key ≠ [] && key.all isPlain) = true := by
  decide +kernel

/-- **An id that is resolved is one word.** -/
theorem isPlain_of_resolve? (h : resolve? id = some e) :
    id.toList ≠ [] ∧ ∀ c ∈ id.toList, isPlain c = true := by
  have hkeys := List.all_eq_true.mp all_isPlain e (List.mem_of_find?_eq_some h)
  have hkey := List.all_eq_true.mp hkeys _ (lower_mem_keys h)
  rw [Bool.and_eq_true, decide_eq_true_eq, List.all_eq_true] at hkey
  refine ⟨fun hnil => hkey.1 (by rw [hnil]; rfl), fun c hc => ?_⟩
  rw [← isPlain_toLower]
  exact hkey.2 _ (List.mem_map_of_mem hc)

/-- No rule goes by the word for all rules. -/
theorem resolve?_all : resolve? "all" = none := by decide +kernel

end Registry

/-! ## Directives for one id -/

namespace Directive

variable {word : Text}

/-- A word is the only one in a list. -/
theorem words_of_isPlain (hne : word ≠ []) (hplain : ∀ c ∈ word, isPlain c = true) :
    words word = [word] := by
  have hcomma : ',' ∉ word := fun hmem => absurd (hplain _ hmem) (by decide)
  have hblank : ∀ c ∈ word, isBlank c = false := fun c hc => by
    have hc := hplain c hc
    rw [isPlain, Bool.and_eq_true, Bool.and_eq_true, Bool.not_eq_true'] at hc
    exact hc.1.1
  have htrim : trim word = word := by
    simpa using trim_of_blank (List.forall_mem_nil _) (List.forall_mem_nil _) hblank
  simp [words, splitOn_of_notMem hcomma, htrim, hne]

/-- The text of the comment that allows the rule with an id. -/
def comment (id : String) : Text := ("// scss-lint: allow(" ++ id ++ ")").toList

theorem comment_eq (id : String) : ∃ w, comment id = '/' :: '/' :: w := by
  refine ⟨" scss-lint: allow(".toList ++ id.toList ++ [')'], ?_⟩
  rw [comment, String.toList_append, String.toList_append]
  rfl

/-- **What is read in the comment for one word.** -/
theorem ofComment?_comment {id : String} (hne : id.toList ≠ [])
    (hplain : ∀ c ∈ id.toList, isPlain c = true) :
    ofComment? (comment id) = some ⟨[id.toList], none⟩ := by
  have hform : Encloses ([' '] ++ "scss-lint:".toList ++ [' '] ++ "allow(".toList ++ id.toList
      ++ ')' :: []) (comment id) := by
    have htext : comment id = '/' :: '/' :: ([' '] ++ "scss-lint:".toList ++ [' '] ++ "allow(".toList
        ++ id.toList ++ ')' :: []) := by
      rw [comment, String.toList_append, String.toList_append]
      rfl
    rw [htext]
    exact .line
  have hspace : IsPadding [' '] := by simp [IsPadding, isBlank]
  have hparen : ')' ∉ id.toList := fun hmem => absurd (hplain _ hmem) (by decide)
  rw [ofComment?_of_form hspace hspace hparen hform, words_of_isPlain hne hplain]
  rfl

end Directive

namespace Suppression

open Tokens (ofText text)

section

variable {source : Text} {before after : List Token} {k : Token} {id : String} {e : RuleEntry}
  {line : Nat}

/-- What starts with two slashes is a line comment. -/
theorem kind_of_comment (h : ofText source = before ++ k :: after) (htext : k.text = Directive.comment id) :
    k.kind = .lineComment := by
  obtain ⟨c, w, hw, hscan⟩ := Tokens.Legible.readsBefore (h ▸ Tokens.legible_ofText source)
  obtain ⟨w', hcomment⟩ := Directive.comment_eq id
  rw [htext, hcomment, List.cons.injEq] at hw
  obtain ⟨rfl, rfl⟩ := hw
  rw [Scan.kindAndLength_lineComment_eq rfl] at hscan
  exact (Prod.mk.inj hscan).1.symm

/-- **When the comment for an id allows the rule that it is resolved to** on the next line. -/
theorem exists_allows_iff (h : ofText source = before ++ k :: after)
    (htext : k.text = Directive.comment id) (hid : Registry.resolve? id = some e)
    (hline : k.span.start.line + 1 = line) :
    (∃ d, k.Allows (text before) d line e.info.name e.info.code)
      ↔ id = e.info.name ∨ id = e.info.code := by
  obtain ⟨hne, hplain⟩ := Registry.isPlain_of_resolve? hid
  have hread := Directive.ofComment?_comment hne hplain
  rw [← htext] at hread
  constructor
  · rintro ⟨d, hallows⟩
    have hd := Directive.ofComment?_eq_some_iff.mpr hallows.written
    rw [hread, Option.some.injEq] at hd
    subst hd
    rcases hallows.named with hname | hcode | hall
    · exact .inl (String.toList_injective (List.mem_singleton.mp hname)).symm
    · exact .inr (String.toList_injective (List.mem_singleton.mp hcode)).symm
    · have hall : "all" = id := String.toList_injective (List.mem_singleton.mp hall)
      rw [← hall, Registry.resolve?_all] at hid
      cases hid
  · intro hnamed
    have hstart : k.span.start.line = (text before).count '\n' + 1 := by
      rw [Tokens.span_of_ofText h]
      rfl
    refine ⟨_, .inl (kind_of_comment h htext), Directive.ofComment?_eq_some_iff.mp hread, ?_, ?_, ?_⟩
    · rcases hnamed with rfl | rfl <;> simp
    · omega
    · rw [List.count_append]
      omega

/-- What allows a rule on a line is the comment at one place or one at another. -/
theorem isAllowed_iff_or {name code : String} (h : ofText source = before ++ k :: after) :
    IsAllowed source line name code ↔ (∃ d, k.Allows (text before) d line name code)
      ∨ ∃ before' k' after' d, ofText source = before' ++ k' :: after' ∧ before' ≠ before
        ∧ k'.Allows (text before') d line name code := by
  constructor
  · rintro ⟨before', k', after', d, h', hallows⟩
    by_cases hsame : before' = before
    · subst hsame
      obtain ⟨rfl, -⟩ := List.cons.inj (List.append_cancel_left (h'.symm.trans h))
      exact .inl ⟨d, hallows⟩
    · exact .inr ⟨before', k', after', d, h', hsame, hallows⟩
  · rintro (⟨d, hallows⟩ | ⟨before', k', after', d, h', -, hallows⟩)
    · exact ⟨before, k, after, d, h, hallows⟩
    · exact ⟨before', k', after', d, h', hallows⟩

/-- **When a directive for an id allows what stands on the next line.** Let the id be resolved to a rule,
which finds something on the line behind the comment. Then the id is the name of the rule, or its code
in some letter case, and what is found is left out of the report of the text if the id is the name or
the code as it is written, or if another comment allows it. With the code in other letters, the comment
does nothing. -/
theorem not_reported_iff_of_id {a : Analyzer} {r : Rule} {v : Violation}
    (hok : (Parse.ofText source).isOk = true) (h : ofText source = before ++ k :: after)
    (htext : k.text = Directive.comment id) (hid : Registry.resolve? id = some e) (hr : r ∈ a.rules)
    (hinfo : r.info = e.info) (hv : v ∈ a.ruleViolations source (Parse.ofText source).sheet r)
    (hline : k.span.start.line + 1 = v.location.line) (path : String) :
    (id = e.info.name ∨ lower id.toList = lower e.info.code.toList)
      ∧ (v ∉ (a.check path source).violations ↔ (id = e.info.name ∨ id = e.info.code)
        ∨ ∃ before' k' after' d, ofText source = before' ++ k' :: after' ∧ before' ≠ before
          ∧ k'.Allows (text before') d v.location.line v.rule v.code) := by
  have hnamed : v.rule = e.info.name ∧ v.code = e.info.code := by
    rw [Analyzer.ruleViolations_eq_map] at hv
    obtain ⟨f, -, rfl⟩ := List.mem_map.mp hv
    rw [← hinfo]
    exact ⟨rfl, rfl⟩
  refine ⟨?_, ?_⟩
  · have hfound := List.find?_some hid
    rw [Bool.or_eq_true, beq_iff_eq, beq_iff_eq] at hfound
    refine hfound.imp Eq.symm fun hcode => ?_
    have hlower := congrArg String.toList hcode.symm
    rwa [String.toLower, String.toList_map, String.toLower, String.toList_map] at hlower
  · have hreported : v ∈ (a.check path source).violations ↔
        ¬ IsAllowed source v.location.line v.rule v.code := by
      rw [Analyzer.check_of_isOk path hok, Analyzer.mem_lint_iff, isReported_eq, Bool.not_eq_true',
        decide_eq_false_iff_not]
      exact and_iff_right ⟨r, hr, hv⟩
    rw [hreported, not_not, isAllowed_iff_or h, hnamed.1, hnamed.2, exists_allows_iff h htext hid hline]

end

namespace Spelling

/-- A directive for an id in front of a comment that a rule finds. -/
def source (id : String) : Text := Directive.comment id ++ "\n/* a */".toList

/-- The comment with the directive, for an id of five characters. -/
def directive (id : String) : Token :=
  ⟨.lineComment, Directive.comment id, ⟨⟨0, 1, 1⟩, ⟨26, 1, 27⟩⟩⟩

/-- What stands behind it: a line break and the other comment. -/
def behind : List Token :=
  [⟨.whitespace, ['\n'], ⟨⟨26, 1, 27⟩, ⟨27, 2, 1⟩⟩⟩,
    ⟨.blockComment, "/* a */".toList, ⟨⟨27, 2, 1⟩, ⟨34, 2, 8⟩⟩⟩]

/-- The rule about comments. -/
def rule : Rule := ⟨CommentStyle.entry.info, .warning, CommentStyle.check true⟩

/-- What it finds. -/
def found : Violation :=
  { code := "SL016"
    rule := "comment-style"
    severity := .warning
    location := ⟨2, 1, 27, 7⟩
    message := "Use `//` comments instead of `/* */`"
    suggestion := none
    fix := some (.replace "Convert to a line comment" 27 34 "// a".toList) }

/-- The rule by itself. -/
def analyzer : Analyzer := ⟨[rule], .standard⟩

theorem ofText_upper : ofText (source "SL016") = [] ++ directive "SL016" :: behind := by cbv

theorem ofText_lower : ofText (source "sl016") = [] ++ directive "sl016" :: behind := by cbv

theorem isOk_upper : (Parse.ofText (source "SL016")).isOk = true := by cbv

theorem isOk_lower : (Parse.ofText (source "sl016")).isOk = true := by cbv

theorem resolve?_eq {id : String} (hid : Registry.trimId id = id)
    (hlower : lower id.toList = lower "SL016".toList) :
    Registry.resolve? id = some CommentStyle.entry := by
  rw [← hid]
  exact Registry.resolve?_of_namedBy (by simp [Registry.entries])
    ⟨[], id.toList, [], by simp, by simp, .inr hlower⟩

theorem ruleViolations_upper : analyzer.ruleViolations (source "SL016")
    (Parse.ofText (source "SL016")).sheet rule = [found] := by cbv

theorem ruleViolations_lower : analyzer.ruleViolations (source "sl016")
    (Parse.ofText (source "sl016")).sheet rule = [found] := by cbv

end Spelling

/-- The code as it is written. -/
theorem not_reported_of_code : Registry.resolve? "SL016" = some CommentStyle.entry
    ∧ (Parse.ofText (Spelling.source "SL016")).isOk = true
    ∧ Spelling.found ∉
      (Spelling.analyzer.check "a.scss" (Spelling.source "SL016")).violations := by
  have hid : Registry.resolve? "SL016" = some CommentStyle.entry := Spelling.resolve?_eq rfl rfl
  refine ⟨hid, Spelling.isOk_upper, ?_⟩
  exact (not_reported_iff_of_id Spelling.isOk_upper Spelling.ofText_upper rfl hid
    (List.mem_singleton_self Spelling.rule) rfl
    (by rw [Spelling.ruleViolations_upper]; exact List.mem_singleton_self _) rfl "a.scss").2.mpr
    (.inl (.inr rfl))

/-- **The code in other letters** is resolved to the rule, too, but the directive for it does not allow
what stands on the next line. -/
theorem exists_reported_of_id : ¬ ∀ (a : Analyzer) (path : String) (source : Text) (id : String)
    (e : RuleEntry) (r : Rule) (v : Violation), ∀ k ∈ ofText source,
    (Parse.ofText source).isOk = true → k.text = Directive.comment id →
    Registry.resolve? id = some e → r ∈ a.rules → r.info = e.info →
    v ∈ a.ruleViolations source (Parse.ofText source).sheet r →
    k.span.start.line + 1 = v.location.line → v ∉ (a.check path source).violations := by
  intro h
  have hnot := h Spelling.analyzer "a.scss" (Spelling.source "sl016") "sl016" CommentStyle.entry
    Spelling.rule Spelling.found (Spelling.directive "sl016") (by rw [Spelling.ofText_lower]; simp)
    Spelling.isOk_lower rfl (Spelling.resolve?_eq rfl rfl) (List.mem_singleton_self _) rfl
    (by rw [Spelling.ruleViolations_lower]; exact List.mem_singleton_self _) rfl
  rw [Analyzer.check_of_isOk _ Spelling.isOk_lower, Analyzer.mem_lint_iff, not_and] at hnot
  refine hnot ⟨Spelling.rule, List.mem_singleton_self _, ?_⟩ ?_
  · rw [Spelling.ruleViolations_lower]
    exact List.mem_singleton_self _
  rw [Parse.tokens_ofText, Spelling.ofText_lower]
  cbv

end Suppression

end SheetLint
