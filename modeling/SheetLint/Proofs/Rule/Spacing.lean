import SheetLint.Proofs.Rule.FixesApply
import SheetLint.Rule.DeclarationSemicolon
import SheetLint.Rule.DeclarationSpacing
import SheetLint.Rule.SelectorSpacing

/-!
# The fixes of rules about spaces

The rules about spaces in selectors, around colons and in front of semicolons replace a run of
whitespace, which may be empty, or put a text behind a token. Each does so only where the run is not
yet what it puts there.

Results:
* `SelectorSpacing.sparesComments`, `DeclarationSpacing.sparesComments`,
  `DeclarationSemicolon.sparesComments`: their fixes are applicable and spare comments.
-/

namespace SheetLint

open Parse

variable {source : Text} {f : Finding}

/-! ## Spaces in selectors -/

namespace SelectorSpacing

theorem sparesComments_brace {space : List Token} {brace : Token}
    (h : space ++ [brace] <:+: Tokens.ofText source) (hspace : Tokens.IsSpace space)
    (hf : f ∈ braceFinding space brace) : f.SparesComments source := by
  unfold braceFinding at hf
  split at hf
  · cases hf
  · rename_i hone
    rw [List.mem_singleton.mp hf]
    rintro fix ⟨⟩
    exact Fix.sparesComments_space_before h hspace
      (Tokens.text_ne_space ((List.prefix_append _ _).isInfix.trans h) hone)
      (Text.isMute_of_not_mem (by decide))

theorem sparesComments_before_comma {before : Option Token}
    (hbefore : ∀ t ∈ before, t ∈ Tokens.ofText source) (hf : f ∈ spaceBeforeComma before) :
    f.SparesComments source := by
  unfold spaceBeforeComma at hf
  split at hf
  · rename_i t
    have ht : t ∈ Tokens.ofText source := hbefore t rfl
    split at hf
    · rename_i hspace
      rw [List.mem_singleton.mp hf]
      rintro fix ⟨⟩
      exact Fix.sparesComments_token ht (Token.isComment_of_isWhitespace hspace)
        (Ne.symm (Tokens.ne_nil_of_mem_ofText ht)) (Text.isMute_of_not_mem (by decide))
    · cases hf
  · cases hf

theorem sparesComments_after_comma {comma after : Token} (hcomma : comma ∈ Tokens.ofText source)
    (hafter : after ∈ Tokens.ofText source) (hf : f ∈ spaceAfterComma comma after) :
    f.SparesComments source := by
  unfold spaceAfterComma at hf
  split at hf
  · rename_i hspace
    split at hf
    · cases hf
    · rename_i hone
      rw [List.mem_singleton.mp hf]
      rintro fix ⟨⟩
      refine Fix.sparesComments_token hafter (Token.isComment_of_isWhitespace hspace)
        (fun htext => hone ?_) (Text.isMute_of_not_mem (by decide))
      rw [← htext]
      rfl
  · rw [List.mem_singleton.mp hf]
    rintro fix ⟨⟩
    exact Fix.sparesComments_insert_behind hcomma (List.cons_ne_nil _ _)
      (Text.isMute_of_not_mem (by decide))

theorem sparesComments_comma {depth : Nat} {before : Option Token} {ts : List Token}
    (hbefore : ∀ t ∈ before, t ∈ Tokens.ofText source) (hts : ts ⊆ Tokens.ofText source)
    (hf : f ∈ commaFindings depth before ts) : f.SparesComments source := by
  fun_induction commaFindings depth before ts with
  | case1 | case2 => cases hf
  | case3 depth before t next rest ih =>
    have ht : t ∈ Tokens.ofText source := hts List.mem_cons_self
    have hnext : next ∈ Tokens.ofText source := hts (List.mem_cons_of_mem t List.mem_cons_self)
    rcases List.mem_append.mp hf with hfirst | hlater
    · split at hfirst
      · rcases List.mem_append.mp hfirst with hspace | hspace
        · exact sparesComments_before_comma hbefore hspace
        · exact sparesComments_after_comma ht hnext hspace
      · cases hfirst
    · refine ih (fun u hu => ?_) (fun u hu => hts (List.mem_cons_of_mem t hu)) hlater
      cases hu
      exact ht

/-- A space in front of a pseudo-class is left alone. -/
theorem fix_of_mem_pseudoFindings {ts : List Token} (hf : f ∈ pseudoFindings ts) : f.fix = none := by
  fun_induction pseudoFindings ts with
  | case1 before space colon rest ih =>
    rcases List.mem_append.mp hf with hfirst | hlater
    · split at hfirst
      · rw [List.mem_singleton.mp hfirst]
      · cases hfirst
    · exact ih hlater
  | case2 => cases hf

/-- The whitespace at the end of a run stands in front of what follows the run. -/
theorem takeEndWhile_isInfix {ts : List Token} {next : Token}
    (h : ts ++ [next] <:+: Tokens.ofText source) :
    Tokens.takeEndWhile Token.isWhitespace ts ++ [next] <:+: Tokens.ofText source := by
  refine List.IsInfix.trans ⟨Tokens.dropEndWhile Token.isWhitespace ts, [], ?_⟩ h
  rw [← List.append_assoc, Tokens.dropEndWhile_append_takeEndWhile, List.append_nil]

/-- **The rule about spaces in selectors spares comments.** -/
theorem sparesComments : Check.SparesComments check := by
  intro source f hf
  obtain ⟨n, hn, hf⟩ := List.mem_flatMap.mp hf
  have htokens := tokens_isInfix hn
  cases n with
  | statement => cases hf
  | block leading level depth head opening children trailing closing =>
    have hhead : head.tokens ++ [opening] <:+: Tokens.ofText source :=
      List.IsInfix.trans ⟨leading, Node.tokensOfAll children ++ trailing ++ closing.toList, by
        simp [Node.tokens]⟩ htokens
    cases head with
    | ruleSet selectors =>
      have hselectors : selectors ⊆ Tokens.ofText source :=
        ((List.prefix_append _ _).isInfix.trans hhead).subset
      rcases List.mem_append.mp hf with hspacing | hpseudo
      · rcases List.mem_append.mp hspacing with hbrace | hcomma
        · exact sparesComments_brace (takeEndWhile_isInfix hhead) (Tokens.isSpace_takeEndWhile _) hbrace
        · refine sparesComments_comma (by simp) (fun t ht => hselectors ?_) hcomma
          exact (Tokens.dropEndWhile_prefix _ _).subset ht
      · exact Finding.sparesComments_of_eq_none (fix_of_mem_pseudoFindings hpseudo)
    | atRule keyword prelude =>
      have hprelude : prelude ++ [opening] <:+: Tokens.ofText source :=
        (List.suffix_cons keyword _).isInfix.trans hhead
      exact sparesComments_brace (takeEndWhile_isInfix hprelude) (Tokens.isSpace_takeEndWhile _) hf

end SelectorSpacing

/-! ## Spaces in declarations -/

namespace DeclarationSpacing

/-- **The rule about spaces around colons spares comments**, also where it finds one in front of a
colon. -/
theorem sparesComments : Check.SparesComments check := by
  intro source f hf
  obtain ⟨d, hd, hf⟩ := List.mem_flatMap.mp hf
  rcases List.mem_append.mp hf with hbefore | hafter
  · have hrun := beforeColon_isInfix hd
    unfold beforeFinding at hbefore
    split at hbefore
    · rename_i span hspan
      have hne : d.beforeColon ≠ [] := by
        intro hnil
        rw [hnil] at hspan
        cases hspan
      rw [List.mem_singleton.mp hbefore]
      intro fix hfix
      simp only at hfix
      split at hfix
      · rename_i hspace
        cases hfix
        exact Fix.sparesComments_run hrun (List.all_eq_true.mp hspace) hspan
          (Ne.symm (Tokens.text_ne_nil hrun hne)) (Text.isMute_of_not_mem (by decide))
      · cases hfix
    · cases hbefore
  · have hrun := colon_isInfix hd
    unfold afterFinding at hafter
    split at hafter
    · cases hafter
    · rename_i hspaced
      rw [List.mem_singleton.mp hafter]
      rintro fix ⟨⟩
      refine Fix.sparesComments_space_behind hrun (Stylesheet.isSpace_afterColon hd)
        (fun htext => hspaced ?_) (Text.isMute_of_not_mem (by decide))
      obtain ⟨t, hone, ht⟩ := Tokens.exists_eq_singleton
        ((List.suffix_cons _ _).isInfix.trans hrun) htext.symm
      simp [hone, isWellSpaced, ht]

end DeclarationSpacing

namespace DeclarationSemicolon

/-- What is found behind a declaration is behind one of its tokens. -/
theorem exists_mem_stop (d : Declaration) : ∃ t ∈ d.tokens, stop d = t.span.stop := by
  unfold stop
  split
  · rename_i t ht
    exact ⟨t, by simp [Declaration.tokens, List.mem_of_getLast? ht], rfl⟩
  · rename_i t _ ht
    exact ⟨t, by simp [Declaration.tokens, List.mem_of_getLast? ht], rfl⟩
  · exact ⟨d.colon, by simp [Declaration.tokens], rfl⟩

/-- The semicolon is put where it is found missing. -/
theorem valueStop_eq (d : Declaration) : d.valueStop = (stop d).offset := by
  unfold stop Declaration.valueStop
  cases d.value.getLast? with
  | some t => rfl
  | none => cases d.afterColon.getLast? <;> rfl

/-- **The rule about semicolons spares comments.** -/
theorem sparesComments : Check.SparesComments check := by
  intro source f hf
  obtain ⟨d, hd, hf⟩ := List.mem_flatMap.mp hf
  have htokens := tokens_isInfix_of_declaration hd
  obtain ⟨t, ht, hstop⟩ := exists_mem_stop d
  unfold declarationFindings at hf
  split at hf
  · cases hf
  · rw [List.mem_singleton.mp hf]
    rintro fix ⟨⟩
    rw [valueStop_eq, hstop]
    exact Fix.sparesComments_insert_behind (htokens.subset ht) (List.cons_ne_nil _ _)
      (Text.isMute_of_not_mem (by decide))

end DeclarationSemicolon

end SheetLint
