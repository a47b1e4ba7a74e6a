import SheetLint.Proofs.Rule.FixesApply
import SheetLint.Proofs.Token.Kinds
import SheetLint.Proofs.Tree.Values
import SheetLint.Proofs.Value.Calls
import SheetLint.Rule.ColorLiteral

/-!
# The fixes of the rule about colors

A hex color is replaced by another hex color, and a call of `rgba` by one whose first argument is a
hex color. What is replaced has a number as its first argument, so the two differ behind the
parenthesis, where neither trivia nor a number starts with a number sign.

Results:
* `Call.exists_segment_of_args`: what is inside a call starts with its first argument.
* `ColorLiteral.of_mem_hexFinding`, `ColorLiteral.of_mem_callFinding`: what the rule finds.
* `ColorLiteral.fixesApply`: the fixes of the rule are applicable.
-/

namespace SheetLint

open Parse

variable {source : Text} {f : Finding}

/-! ## Calls -/

namespace Tokens

theorem span?_cons_append_singleton (first : Token) (ts : List Token) (last : Token) :
    span? (first :: (ts ++ [last])) = some ⟨first.span.start, last.span.stop⟩ := by
  rw [← List.cons_append, span?, List.getLast?_concat]
  rfl

/-- A run that is one token between trivia starts with trivia or with that token. -/
theorem head?_of_trim_eq {ts : List Token} {t : Token} (h : trim ts = [t]) :
    ∃ first, ts.head? = some first ∧ (first.isTrivia = true ∨ first = t) := by
  cases ts with
  | nil => cases h
  | cons first rest =>
    refine ⟨first, rfl, ?_⟩
    by_cases hfirst : first.isTrivia = true
    · exact .inl hfirst
    · right
      have hstarts : trim (first :: rest) <+: first :: rest := by
        rw [trim, List.dropWhile_cons_of_neg hfirst]
        exact dropEndWhile_prefix _ _
      rw [h] at hstarts
      exact ((List.cons_prefix_cons.mp hstarts).1).symm

end Tokens

namespace Call

variable {ts : List Token} {call : Call}

/-- What is inside a call with arguments starts with its first argument. -/
theorem exists_segment_of_args {arg : List Token} {more : List (List Token)}
    (h : call.args ts = arg :: more) :
    ∃ segment, segment <+: call.inside ts ∧ Tokens.trim segment = arg := by
  obtain ⟨segment, others, hsegments⟩ := List.exists_cons_of_ne_nil
    (Tokens.segments_ne_nil Tokens.parenDepth (·.isPunct ',') 0 (call.inside ts))
  have hcomma (t : Token) (ht : t.isPunct ',' = true) : Tokens.parenDepth 0 t = 0 :=
    Tokens.parenDepth_of_isPunct ht (by decide) 0
  have hbetween := hsegments
  rw [Tokens.segments_eq_between hcomma] at hbetween
  refine ⟨segment, Tokens.prefix_of_between_eq hbetween, ?_⟩
  rw [args, hsegments, List.map_cons] at h
  split at h
  · cases h
  · exact (List.cons.inj h).1

end Call

/-! ## Colors -/

namespace ColorLiteral

variable {o : Options} {t : Token} {fix : Fix} {tokens arg : List Token} {call : Call}

/-- **What is found at a hash** and what the fix puts in its place. -/
theorem of_mem_hexFinding (hf : f ∈ hexFinding o t) :
    f.span = t.span ∧ ∀ fix, f.fix = some fix →
      t.kind = .hash ∧ (∀ c ∈ t.text.drop 1, isHexDigit c = true)
        ∧ ((t.text.drop 1).length = 3 ∨ (t.text.drop 1).length = 6)
        ∧ canonical o (t.text.drop 1) ≠ t.text
        ∧ ∃ message, fix = .replace message t.start t.stop (canonical o (t.text.drop 1)) := by
  unfold hexFinding at hf
  simp only at hf
  split at hf
  · rename_i htest
    rw [Bool.and_eq_true, beq_iff_eq, List.all_eq_true] at htest
    split at hf
    · rename_i hlength
      split at hf
      · cases hf
      · rename_i hne
        rw [List.mem_singleton.mp hf]
        refine ⟨rfl, ?_⟩
        rintro fix ⟨⟩
        exact ⟨htest.1, htest.2, by simpa using hlength, hne, _, rfl⟩
    · split at hf
      · rw [List.mem_singleton.mp hf]
        refine ⟨rfl, ?_⟩
        rintro fix ⟨⟩
      · cases hf
  · cases hf

/-- **What is found at a call** and what the fix puts in its place. -/
theorem of_mem_callFinding (hf : f ∈ callFinding o tokens call) :
    call.lowerName = "rgba".toList ∧ ∃ close channels alpha,
      call.close.bind (tokens[·]?) = some close
        ∧ channels? (call.args tokens) = some (channels, alpha)
        ∧ f.span = ⟨call.name.span.start, close.span.stop⟩
        ∧ ∃ message, f.fix = some (.replace message f.span.start.offset f.span.stop.offset
          ("rgba(".toList ++ canonical o (channels.flatMap hexPair) ++ ", ".toList ++ alpha
            ++ [')'])) := by
  unfold callFinding at hf
  split at hf
  · rename_i hname
    split at hf
    · rename_i close channels alpha hclose hchannels
      rw [List.mem_singleton.mp hf]
      exact ⟨hname, close, channels, alpha, hclose, hchannels, rfl, _, rfl⟩
    · cases hf
  · cases hf

theorem fixApplies_hex (ht : t ∈ Tokens.ofText source) (hf : f ∈ hexFinding o t) :
    f.FixApplies source := by
  intro fix hfix
  obtain ⟨-, -, -, hne, message, rfl⟩ := (of_mem_hexFinding hf).2 fix hfix
  exact Fix.applicable_token ht hne

/-- Whether an argument is one number without unit, the value of which is this integer. -/
structure IsChannel (arg : List Token) (k : Nat) : Prop where
  lt : k < 256
  number : ∃ t n, arg = [t] ∧ t.kind = .number ∧ Number.ofText? t.text = some n ∧ n.unit = []
    ∧ (n.value == Float.ofNat k) = true

theorem isChannel_of_channel? {k : Nat} (h : channel? arg = some k) : IsChannel arg k := by
  unfold channel? at h
  split at h
  · rename_i t
    split at h
    · rename_i hkind
      obtain ⟨n, hn, hk⟩ := Option.bind_eq_some_iff.mp h
      split at hk
      · rename_i hunit
        have hvalue := List.find?_some hk
        exact ⟨List.mem_range.mp (List.mem_of_find?_eq_some hk), t, n, rfl, by simpa using hkind, hn,
          hunit, hvalue⟩
      · cases hk
    · cases h
  · cases h

/-- The first of the arguments that are integer channels is a number. -/
theorem exists_number_of_channels? {args : List (List Token)} {channels : List Nat} {alpha : Text}
    (h : channels? args = some (channels, alpha)) :
    ∃ t more, args = [t] :: more ∧ t.kind = .number := by
  unfold channels? at h
  split at h
  · rename_i red green blue last
    obtain ⟨channels, hchannels, -⟩ := Option.bind_eq_some_iff.mp h
    rw [List.mapM_cons] at hchannels
    obtain ⟨k, hk, -⟩ := Option.bind_eq_some_iff.mp hchannels
    obtain ⟨t, -, rfl, hkind, -⟩ := (isChannel_of_channel? hk).number
    exact ⟨t, _, rfl, hkind⟩
  · cases h

theorem head?_canonical (o : Options) (digits : Text) :
    (canonical o digits).head? = some '#' := by
  unfold canonical
  simp only
  split
  · split <;> rfl
  · rfl

/-- What is inside a call with a number as first argument does not start with a number sign. -/
theorem exists_head?_inside {more : List (List Token)}
    (hinside : call.inside tokens ⊆ Tokens.ofText source)
    (hargs : call.args tokens = [t] :: more) (hkind : t.kind = .number) :
    ∃ c rest, Tokens.text (call.inside tokens) = c :: rest ∧ c ≠ '#' := by
  obtain ⟨segment, ⟨others, hsegment⟩, htrim⟩ := Call.exists_segment_of_args hargs
  obtain ⟨first, hfirst, htrivia⟩ := Tokens.head?_of_trim_eq htrim
  obtain ⟨rest, rfl⟩ := List.head?_eq_some_iff.mp hfirst
  have hmem : first ∈ Tokens.ofText source := hinside (by simp [← hsegment])
  have hnumber : first.isTrivia = true ∨ first.kind = .number :=
    htrivia.imp_right fun heq => by rw [heq, hkind]
  obtain ⟨c, chars, htext⟩ := List.exists_cons_of_ne_nil (Tokens.ne_nil_of_mem_ofText hmem)
  have hsign := Tokens.head?_text_ne_numberSign hmem hnumber
  rw [htext, List.head?_cons] at hsign
  refine ⟨c, chars ++ Tokens.text rest ++ Tokens.text others, ?_, fun heq => hsign (by rw [heq])⟩
  rw [← hsegment]
  simp [htext]

/-- Colors are looked for in a value or a prelude, or not at all. -/
theorem colorTokens_cases (n : Node) :
    colorTokens n = [] ∨ Stylesheet.valueView.node? n = some (colorTokens n) := by
  have hprelude (keyword : Token) (prelude : List Token) :
      (if selectorAtRules.contains (atRuleName keyword) then [] else prelude) = []
        ∨ some prelude =
          some (if selectorAtRules.contains (atRuleName keyword) then [] else prelude) := by
    split
    · exact .inl rfl
    · exact .inr rfl
  cases n with
  | statement leading level s =>
    cases s with
    | declaration d => exact .inr rfl
    | atRule keyword prelude semicolon => exact hprelude keyword prelude
    | comment | empty | skipped => exact .inl rfl
  | block leading level depth head opening children trailing closing =>
    cases head with
    | ruleSet selectors => exact .inl rfl
    | atRule keyword prelude => exact hprelude keyword prelude

/-- The tokens of a node among which colors may stand, stand side by side. -/
theorem colorTokens_isInfix (n : Node) : colorTokens n <:+: n.tokens := by
  rcases colorTokens_cases n with hnone | hrun
  · rw [hnone]
    exact List.nil_infix
  · exact Stylesheet.isInfix_of_node? hrun

theorem fixApplies_call (htokens : tokens <:+: Tokens.ofText source)
    (hcall : call ∈ Call.find tokens) (hf : f ∈ callFinding o tokens call) :
    f.FixApplies source := by
  intro fix hfix
  obtain ⟨hname, close, channels, alpha, hclose, hchannels, hspan, message, hfound⟩ :=
    of_mem_callFinding hf
  obtain rfl : _ = fix := Option.some.inj (hfound.symm.trans hfix)
  obtain ⟨before, paren, after, hparen, hsplit⟩ := Call.exists_of_closed hcall hclose
  have hrun : call.name :: paren :: (call.inside tokens ++ [close]) <:+: Tokens.ofText source :=
    List.IsInfix.trans ⟨before, after, hsplit.symm⟩ htokens
  obtain ⟨t, more, hargs, hkind⟩ := exists_number_of_channels? hchannels
  have hmem : call.inside tokens ⊆ Tokens.ofText source := fun u hu =>
    hrun.subset (by simp [hu])
  obtain ⟨c, rest, hinside, hsign⟩ := exists_head?_inside hmem hargs hkind
  have hsize : (call.name.text ++ paren.text).length = 5 := by
    have hlower := congrArg List.length hname
    rw [Call.lowerName, Text.lower, List.length_map] at hlower
    rw [List.length_append, hlower, Token.text_of_isPunct hparen]
    rfl
  rw [hspan]
  refine Fix.applicable_run hrun (Tokens.span?_cons_append_singleton _ (paren :: _) _)
    fun hsame => hsign ?_
  -- behind the parenthesis a hex color stands in the one, the first argument in the other
  have hrunText : Tokens.text (call.name :: paren :: (call.inside tokens ++ [close])) =
      (call.name.text ++ paren.text) ++ (c :: (rest ++ close.text)) := by
    simp [hinside]
  rw [hrunText] at hsame
  simp only [List.append_assoc _ (canonical _ _), List.append_assoc "rgba(".toList] at hsame
  have hbehind := congrArg List.head? (List.append_inj hsame (by rw [hsize]; rfl)).2
  simp only [List.head?_append, head?_canonical, List.head?_cons, Option.some_or,
    Option.some.injEq] at hbehind
  exact hbehind.symm

theorem fixesApply (o : Options) : Check.FixesApply (check o) := by
  intro source f hf
  obtain ⟨n, hn, hf⟩ := List.mem_flatMap.mp hf
  have hstands : colorTokens n <:+: Tokens.ofText source :=
    (colorTokens_isInfix n).trans (tokens_isInfix hn)
  rcases List.mem_append.mp hf with hhex | hcalls
  · obtain ⟨t, ht, hf⟩ := List.mem_flatMap.mp hhex
    exact fixApplies_hex (hstands.subset ht) hf
  · obtain ⟨call, hcall, hf⟩ := List.mem_flatMap.mp hcalls
    exact fixApplies_call hstands hcall hf

/-- The fixes of the rule have one edit. -/
theorem exists_edits_eq {sheet : Stylesheet} (hf : f ∈ check o source sheet)
    (hfix : f.fix = some fix) : ∃ e, fix.edits = [e] := by
  obtain ⟨n, -, hf⟩ := List.mem_flatMap.mp hf
  rcases List.mem_append.mp hf with hhex | hcall
  · obtain ⟨t, -, hf⟩ := List.mem_flatMap.mp hhex
    obtain ⟨-, -, -, -, message, rfl⟩ := (of_mem_hexFinding hf).2 fix hfix
    exact ⟨_, rfl⟩
  · obtain ⟨call, -, hf⟩ := List.mem_flatMap.mp hcall
    obtain ⟨-, close, channels, alpha, -, -, -, message, hfound⟩ := of_mem_callFinding hf
    obtain rfl : _ = fix := Option.some.inj (hfound.symm.trans hfix)
    exact ⟨_, rfl⟩

end ColorLiteral

end SheetLint
