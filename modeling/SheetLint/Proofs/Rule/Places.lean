import SheetLint.Proofs.Registry.Applicable
import SheetLint.Proofs.Rule.BannedCalls
import SheetLint.Proofs.Token.Spans

/-!
# Where rules find something

A finding has a span. Most rules take that of a token, of a run of tokens that stand side by side or
of the content of a node; a missing semicolon has an empty span behind a token, and an indentation
has one that is counted back from the end of a token.

Results:
* `Indent.inText_of_ofTrivia?`: the span of an indentation lies in the text.
* `Check.Located`: all findings of a check lie in the text.
* `RuleEntry.located_of_mem_entries`: this is so for each rule, for all options that it reads.
-/

namespace SheetLint

open Parse

variable {source : Text} {f : Finding} {ts : List Token} {n : Node} {d : Declaration}

/-- Whether all findings of a check on a text and its tree lie in the text. -/
def Check.Located (check : Check) : Prop :=
  ∀ source, ∀ f ∈ check source (Parse.ofText source).sheet, f.span.InText source

/-! ## Runs of tokens in a text -/

/-- The content of a node stands side by side. -/
theorem Parse.content_isInfix (hn : n ∈ (ofText source).sheet.nodes) :
    n.content <:+: Tokens.ofText source := by
  refine List.IsInfix.trans ?_ (tokens_isInfix hn)
  rw [n.tokens_eq_leading_append_content]
  exact (List.suffix_append _ _).isInfix

theorem Tokens.trim_isInfix (ts : List Token) : trim ts <:+: ts :=
  (Tokens.dropEndWhile_prefix _ _).isInfix.trans (List.dropWhile_suffix _).isInfix

/-! ## Indentation -/

namespace Indent

/-- A place behind a line feed, counted back from a later one in its line. -/
theorem behind_lineFeed (front rest : Text) (hrest : '\n' ∉ rest) :
    let stop := Position.behind (front ++ ['\n'] ++ rest)
    Position.behind (front ++ ['\n']) = ⟨stop.offset - rest.size, stop.line, 1⟩ := by
  simp [Position.behind, lastLine, List.count_eq_zero.mpr hrest]
  omega

/-- **The span of an indentation lies in the text**, though it is counted back from the end of a
token. -/
theorem inText_of_ofTrivia? {indent : Indent} (hts : ts ⊆ Tokens.ofText source)
    (h : ofTrivia? ts = some indent) : indent.span.InText source := by
  obtain ⟨t, hfound, rfl⟩ := Option.map_eq_some_iff.mp h
  have htest := List.find?_some hfound
  rw [Bool.and_eq_true, Text.has, List.contains_iff_mem] at htest
  have ht : t ∈ Tokens.ofText source := hts (List.mem_reverse.mp (List.mem_of_find?_eq_some hfound))
  obtain ⟨before, after, hsplit⟩ := List.append_of_mem ht
  obtain ⟨kept, htext, hlast⟩ := exists_eq_append_lastLine htest.2
  have hsource := Tokens.text_eq_of_ofText hsplit
  have hspan := Tokens.span_of_ofText hsplit
  generalize lastLine t.text = rest at htext hlast
  have hfront : Tokens.text before ++ t.text = Tokens.text before ++ kept ++ ['\n'] ++ rest := by
    simp [htext]
  rw [hfront] at hsource hspan
  refine ⟨Tokens.text before ++ kept ++ ['\n'], rest, Tokens.text after, hsource, ?_⟩
  rw [behind_lineFeed _ _ hlast, Token.stop, hspan]

end Indent

namespace Indentation

theorem located_line {o : Options} {level : Nat} {what : String} (hts : ts ⊆ Tokens.ofText source)
    (hf : f ∈ lineFinding o ts level what) : f.span.InText source := by
  unfold lineFinding at hf
  split at hf
  · cases hf
  · rename_i indent hindent
    simp only at hf
    split at hf
    · cases hf
    · rw [List.mem_singleton.mp hf]
      exact Indent.inText_of_ofTrivia? hts hindent

theorem located (o : Options) : Check.Located (check o) := by
  intro source f hf
  obtain ⟨n, hn, hf⟩ := List.mem_flatMap.mp hf
  have htokens := (tokens_isInfix hn).subset
  cases n with
  | statement leading level s =>
    exact located_line (fun t ht => htokens (List.mem_append_left _ ht)) hf
  | block leading level depth head opening children trailing closing =>
    rw [Node.tokens] at htokens
    rcases List.mem_append.mp hf with hopening | hclosing
    · rcases List.mem_append.mp hopening with hline | hselector
      · exact located_line (fun t ht => htokens (by simp [ht])) hline
      · cases head with
        | atRule => cases hselector
        | ruleSet selectors =>
          obtain ⟨t, ht, hf⟩ := List.mem_flatMap.mp hselector
          have ht : t ∈ selectors :=
            (Tokens.dropEndWhile_prefix _ _).subset (List.mem_of_mem_dropLast ht)
          refine located_line (fun u hu => htokens ?_) hf
          rw [List.mem_singleton.mp hu]
          simp [Head.tokens, ht]
    · split at hclosing
      · exact located_line (fun t ht => htokens (by simp [ht])) hclosing
      · cases hclosing

end Indentation

/-! ## Spaces -/

namespace SelectorSpacing

theorem exists_span_eq_of_comma {depth : Nat} {before : Option Token}
    (hf : f ∈ commaFindings depth before ts) : ∃ t ∈ before.toList ++ ts, f.span = t.span := by
  fun_induction commaFindings depth before ts with
  | case1 | case2 => cases hf
  | case3 depth before t next rest ih =>
    rcases List.mem_append.mp hf with hcomma | hlater
    · split at hcomma
      · rcases List.mem_append.mp hcomma with hbefore | hafter
        · unfold spaceBeforeComma at hbefore
          split at hbefore
          · rename_i space
            split at hbefore
            · exact ⟨space, by simp, by rw [List.mem_singleton.mp hbefore]⟩
            · cases hbefore
          · cases hbefore
        · unfold spaceAfterComma at hafter
          simp only at hafter
          split_ifs at hafter
          · cases hafter
          · exact ⟨next, by simp, by rw [List.mem_singleton.mp hafter]⟩
          · exact ⟨t, by simp, by rw [List.mem_singleton.mp hafter]⟩
      · cases hcomma
    · obtain ⟨u, hu, hspan⟩ := ih hlater
      exact ⟨u, List.mem_append_right _ (by simpa using hu), hspan⟩

theorem exists_span_eq_of_pseudo (hf : f ∈ pseudoFindings ts) : ∃ t ∈ ts, f.span = t.span := by
  fun_induction pseudoFindings ts with
  | case1 before space colon rest ih =>
    rcases List.mem_append.mp hf with hfirst | hlater
    · split at hfirst
      · exact ⟨space, by simp, by rw [List.mem_singleton.mp hfirst]⟩
      · cases hfirst
    · obtain ⟨t, ht, hspan⟩ := ih hlater
      exact ⟨t, List.mem_cons_of_mem _ ht, hspan⟩
  | case2 => cases hf

theorem exists_span_eq_of_head {head : Head} {opening : Token}
    (hf : f ∈ headFindings head opening) : ∃ t ∈ head.tokens ++ [opening], f.span = t.span := by
  have hbrace {space : List Token} (hf : f ∈ braceFinding space opening) :
      f.span = opening.span := by
    unfold braceFinding at hf
    split at hf
    · cases hf
    · rw [List.mem_singleton.mp hf]
  cases head with
  | atRule => exact ⟨opening, by simp, hbrace hf⟩
  | ruleSet selectors =>
    rcases List.mem_append.mp hf with hspacing | hpseudo
    · rcases List.mem_append.mp hspacing with hopening | hcomma
      · exact ⟨opening, by simp, hbrace hopening⟩
      · obtain ⟨t, ht, hspan⟩ := exists_span_eq_of_comma hcomma
        have ht : t ∈ selectors := (Tokens.dropEndWhile_prefix _ _).subset (by simpa using ht)
        exact ⟨t, List.mem_append_left _ ht, hspan⟩
    · obtain ⟨t, ht, hspan⟩ := exists_span_eq_of_pseudo hpseudo
      exact ⟨t, List.mem_append_left _ ht, hspan⟩

theorem located : Check.Located check := by
  intro source f hf
  obtain ⟨n, hn, hf⟩ := List.mem_flatMap.mp hf
  cases n with
  | statement => cases hf
  | block leading level depth head opening children trailing closing =>
    obtain ⟨t, ht, hspan⟩ := exists_span_eq_of_head hf
    rw [hspan]
    refine Span.inText_of_token ((tokens_isInfix hn).subset ?_)
    rw [Node.tokens]
    rcases List.mem_append.mp ht with hhead | hopening
    · simp [hhead]
    · simp [List.mem_singleton.mp hopening]

end SelectorSpacing

namespace DeclarationSpacing

theorem located : Check.Located check := by
  intro source f hf
  obtain ⟨d, hd, hf⟩ := List.mem_flatMap.mp hf
  rcases List.mem_append.mp hf with hbefore | hafter
  · unfold beforeFinding at hbefore
    split at hbefore
    · rename_i span hspan
      rw [List.mem_singleton.mp hbefore]
      exact Span.inText_of_run (beforeColon_isInfix hd) hspan
    · cases hbefore
  · have hrun := colon_isInfix hd
    unfold afterFinding at hafter
    split at hafter
    · cases hafter
    · rw [List.mem_singleton.mp hafter]
      simp only
      cases hspan : Tokens.span? d.afterColon with
      | none => exact Span.inText_of_token (hrun.subset List.mem_cons_self)
      | some span => exact Span.inText_of_run ((List.suffix_cons _ _).isInfix.trans hrun) hspan

end DeclarationSpacing

namespace DeclarationSemicolon

theorem located : Check.Located check := by
  intro source f hf
  obtain ⟨d, hd, hf⟩ := List.mem_flatMap.mp hf
  obtain ⟨t, ht, hstop⟩ := exists_mem_stop d
  unfold declarationFindings at hf
  split at hf
  · cases hf
  · rw [List.mem_singleton.mp hf, hstop]
    exact Span.inText_behind ((tokens_isInfix_of_declaration hd).subset ht)

end DeclarationSemicolon

/-! ## Lines -/

namespace DeclarationGrouping

variable {children : List Node} {trailing : List Token} {closing : Token}

theorem located_line {before : Option Node}
    (hchildren : ∀ n ∈ children, n ∈ (ofText source).sheet.nodes)
    (hf : f ∈ lineFindings before children) : f.span.InText source := by
  induction children generalizing before with
  | nil => cases hf
  | cons n ns ih =>
    rw [List.forall_mem_cons] at hchildren
    rcases List.mem_append.mp hf with hfirst | hlater
    · split at hfirst
      · rename_i span hspan
        split at hfirst
        · cases hfirst
        · rw [List.mem_singleton.mp hfirst]
          exact Span.inText_of_run (content_isInfix hchildren.1) hspan
      · cases hfirst
    · exact ih hchildren.2 hlater

theorem located_ruleSet {singleLine : Bool}
    (hchildren : ∀ n ∈ children, n ∈ (ofText source).sheet.nodes)
    (hclosing : closing ∈ Tokens.ofText source)
    (hf : f ∈ ruleSetFindings singleLine children trailing closing) : f.span.InText source := by
  unfold ruleSetFindings at hf
  split at hf
  · rename_i child honly
    split at honly
    · have hchild := hchildren child (mem_of_onlyDeclaration? honly)
      rcases List.mem_append.mp hf with hfirst | hlast
      · split at hfirst
        · rename_i span hspan
          split at hfirst
          · cases hfirst
          · rw [List.mem_singleton.mp hfirst]
            exact Span.inText_of_run (content_isInfix hchild) hspan
        · cases hfirst
      · split at hlast
        · cases hlast
        · rw [List.mem_singleton.mp hlast]
          exact Span.inText_of_token hclosing
    · cases honly
  · unfold multiLineFindings at hf
    split at hf
    · cases hf
    · rcases List.mem_append.mp hf with hlines | hlast
      · exact located_line hchildren hlines
      · split at hlast
        · cases hlast
        · rw [List.mem_singleton.mp hlast]
          exact Span.inText_of_token hclosing

theorem located (singleLine : Bool) : Check.Located (check singleLine) := by
  intro source f hf
  obtain ⟨n, hn, hf⟩ := List.mem_flatMap.mp hf
  split at hf
  · rename_i leading level depth selectors opening children trailing closing
    refine located_ruleSet (fun child hchild => ?_) ((tokens_isInfix hn).subset ?_) hf
    · exact Node.mem_nodesOfAll_of_mem_children hn rfl hchild
    · simp [Node.tokens]
  · cases hf

end DeclarationGrouping

namespace EmptyLineBetweenRules

theorem located_siblings {ns : List Node} (hns : ∀ n ∈ ns, n ∈ (ofText source).sheet.nodes)
    (hf : f ∈ siblingFindings ns) : f.span.InText source := by
  fun_induction siblingFindings ns with
  | case1 before n rest ih =>
    rw [List.forall_mem_cons] at hns
    rcases List.mem_append.mp hf with hpair | hlater
    · unfold pairFinding at hpair
      simp only at hpair
      split at hpair
      · cases hpair
      · split at hpair
        · rename_i span hspan
          rw [List.mem_singleton.mp hpair]
          exact Span.inText_of_run (content_isInfix (hns.2 n List.mem_cons_self)) hspan
        · cases hpair
    · exact ih hns.2 hlater
  | case2 => cases hf

theorem located : Check.Located check := by
  intro source f hf
  obtain ⟨ns, hns, hf⟩ := List.mem_flatMap.mp hf
  refine located_siblings (fun n hn => ?_) hf
  rcases List.mem_cons.mp hns with rfl | hinside
  · exact Node.mem_nodesOfAll_of_mem hn
  · obtain ⟨m, hm, hbody⟩ := List.mem_filterMap.mp hinside
    obtain ⟨body, hsome, rfl⟩ := Option.map_eq_some_iff.mp hbody
    exact Node.mem_nodesOfAll_of_mem_children hm hsome hn

end EmptyLineBetweenRules

/-! ## Tokens and runs of them -/

theorem QuoteStyle.located (preferred : Quote) : Check.Located (check preferred) := by
  intro source f hf
  obtain ⟨t, ht, hf⟩ := List.mem_flatMap.mp hf
  have ht : t ∈ Tokens.ofText source := Stylesheet.tokens_ofTokens (Tokens.ofText source) ▸ ht
  unfold stringFinding at hf
  simp only at hf
  split at hf
  · rw [List.mem_singleton.mp hf]
    exact Span.inText_of_token ht
  · cases hf

theorem CommentStyle.located (allowHeadings : Bool) : Check.Located (check allowHeadings) := by
  intro source f hf
  obtain ⟨n, hn, hf⟩ := List.mem_flatMap.mp hf
  split at hf
  · rename_i leading level t
    unfold commentFindings at hf
    split at hf
    · cases hf
    · rw [List.mem_singleton.mp hf]
      refine Span.inText_of_token ((tokens_isInfix hn).subset ?_)
      simp [Node.tokens, Statement.tokens]
  · cases hf

theorem MaxNestingDepth.located (most : Nat) : Check.Located (check most) := by
  intro source f hf
  obtain ⟨n, hn, hf⟩ := List.mem_flatMap.mp hf
  unfold nodeFindings at hf
  split at hf
  · rename_i leading level depth selectors opening children trailing closing
    have hselectors : Tokens.trim selectors <:+: Tokens.ofText source :=
      (Tokens.trim_isInfix _).trans (List.IsInfix.trans ⟨leading, [opening]
        ++ Node.tokensOfAll children ++ trailing ++ closing.toList, by
          simp [Node.tokens, Head.tokens]⟩ (tokens_isInfix hn))
    simp only at hf
    split at hf
    · split at hf
      · rename_i span hspan
        rw [List.mem_singleton.mp hf]
        exact Span.inText_of_run hselectors hspan
      · cases hf
    · cases hf
  · cases hf

theorem PropertyOrder.located (o : Options) : Check.Located (check o) := by
  intro source f hf
  obtain ⟨n, hn, body, hbody, run, hrun, ⟨move, hmove, hspan⟩, -⟩ := exists_of_mem_check hf
  obtain ⟨i, j, target, moved, htarget, -, -, -, rfl⟩ := mem_moves_iff.mp hmove
  have hnodes := ((runOf_of_mem_runs o body.children).1 run hrun).nodes
  have hchild : target.1 ∈ body.children :=
    hnodes.subset (List.mem_map_of_mem (List.mem_of_getElem? htarget))
  exact Span.inText_of_run
    (content_isInfix (Node.mem_nodesOfAll_of_mem_children hn hbody hchild)) hspan

theorem ShorthandValues.located : Check.Located check := by
  intro source f hf
  obtain ⟨d, hd, hf⟩ := List.mem_flatMap.mp hf
  unfold declarationFindings at hf
  simp only at hf
  split at hf
  · split at hf
    · rename_i span hspan
      rw [List.mem_singleton.mp hf]
      exact Span.inText_of_run (value_isInfix hd) hspan
    · cases hf
  · cases hf

theorem ZeroUnit.located : Check.Located check := by
  intro source f hf
  obtain ⟨d, hd, hf⟩ := List.mem_flatMap.mp hf
  unfold declarationFindings at hf
  split at hf
  · cases hf
  · obtain ⟨⟨t, i⟩, ht, hf⟩ := List.mem_flatMap.mp hf
    have ht : t ∈ Tokens.ofText source := (value_isInfix hd).subset (List.fst_mem_of_mem_zipIdx ht)
    change f ∈ numberFinding _ i t at hf
    unfold numberFinding at hf
    split at hf
    · split at hf
      · rw [List.mem_singleton.mp hf]
        exact Span.inText_of_token ht
      · cases hf
    · cases hf

/-- The mark of a value stands in it, from `!` to the word. -/
theorem Tokens.exists_of_important? {span : Span} (h : important? ts = some span) :
    ∃ (mark : Token) (space : List Token) (word : Token),
      mark :: (space ++ [word]) <:+: ts ∧ span = ⟨mark.span.start, word.span.stop⟩ := by
  fun_induction important? ts with
  | case1 | case2 => cases h
  | case3 t ts _ word hword _ =>
    cases h
    obtain ⟨rest, hrest⟩ := List.head?_eq_some_iff.mp hword
    refine ⟨t, ts.takeWhile Token.isWhitespace, word, ⟨[], rest, ?_⟩, rfl⟩
    have hcut := List.takeWhile_append_dropWhile (p := Token.isWhitespace) (l := ts)
    rw [hrest] at hcut
    simp [hcut]
  | case4 t ts _ _ _ _ ih | case5 t ts _ ih =>
    obtain ⟨mark, space, word, hrun, hspan⟩ := ih h
    exact ⟨mark, space, word, hrun.trans (List.suffix_cons t ts).isInfix, hspan⟩

theorem NoImportant.located : Check.Located check := by
  intro source f hf
  obtain ⟨d, hd, hf⟩ := List.mem_flatMap.mp hf
  unfold declarationFindings at hf
  split at hf
  · rename_i span hspan
    obtain ⟨mark, space, word, hrun, rfl⟩ := Tokens.exists_of_important? hspan
    rw [List.mem_singleton.mp hf]
    exact Span.inText_between _ (hrun.trans (value_isInfix hd))
  · cases hf

theorem SelectorNaming.located (accepts : Text → Bool) : Check.Located (check accepts) := by
  intro source f hf
  obtain ⟨n, hn, hf⟩ := List.mem_flatMap.mp hf
  split at hf
  · rename_i leading level depth selectors opening children trailing closing
    have hselectors : selectors <:+: Tokens.ofText source :=
      List.IsInfix.trans ⟨leading, [opening] ++ Node.tokensOfAll children ++ trailing
        ++ closing.toList, by simp [Node.tokens, Head.tokens]⟩ (tokens_isInfix hn)
    clear hn
    fun_induction selectorFindings accepts selectors with
    | case1 dot name rest ih =>
      rcases List.mem_append.mp hf with hfirst | hlater
      · split at hfirst
        · unfold nameFinding at hfirst
          simp only at hfirst
          split at hfirst
          · cases hfirst
          · rw [List.mem_singleton.mp hfirst]
            refine Span.inText_between [] (List.IsInfix.trans ⟨[], rest, ?_⟩ hselectors)
            simp
        · cases hfirst
      · exact ih hlater ((List.suffix_cons _ _).isInfix.trans hselectors)
    | case2 => cases hf
  · cases hf

/-! ## Calls and colors -/

/-- The tokens of a node among which calls may stand are tokens of the node. -/
theorem BannedFunctions.callTokens_subset (n : Node) : callTokens n ⊆ n.tokens := by
  rw [callTokens_eq]
  cases hrun : Stylesheet.valueView.node? n with
  | none => exact List.nil_subset _
  | some run => exact (Stylesheet.isInfix_of_node? hrun).subset

theorem BannedFunctions.located (functions : List String) : Check.Located (check functions) := by
  intro source f hf
  obtain ⟨n, hn, hf⟩ := List.mem_flatMap.mp hf
  obtain ⟨call, hcall, rfl⟩ := List.mem_map.mp hf
  obtain ⟨before, paren, rest, hsplit, -⟩ :=
    Call.exists_of_mem_findFrom (List.mem_filter.mp hcall).1
  have hname : call.name ∈ callTokens n := by simp [hsplit]
  exact Span.inText_of_token ((tokens_isInfix hn).subset (callTokens_subset n hname))

theorem ColorLiteral.located (o : Options) : Check.Located (check o) := by
  intro source f hf
  obtain ⟨n, hn, hf⟩ := List.mem_flatMap.mp hf
  have hrun : colorTokens n <:+: Tokens.ofText source :=
    (colorTokens_isInfix n).trans (tokens_isInfix hn)
  rcases List.mem_append.mp hf with hhex | hcall
  · obtain ⟨t, ht, hf⟩ := List.mem_flatMap.mp hhex
    rw [(of_mem_hexFinding hf).1]
    exact Span.inText_of_token (hrun.subset ht)
  · obtain ⟨call, hcall, hf⟩ := List.mem_flatMap.mp hcall
    obtain ⟨-, close, -, -, hclose, -, hspan, -⟩ := of_mem_callFinding hf
    obtain ⟨before, paren, after, -, hsplit⟩ := Call.exists_of_closed hcall hclose
    rw [hspan]
    exact Span.inText_between (paren :: call.inside (colorTokens n))
      (List.IsInfix.trans ⟨before, after, hsplit.symm⟩ hrun)

/-! ## All rules -/

/-- **The findings of each rule lie in the text**, for all options that it reads. -/
theorem RuleEntry.located_of_mem_entries : ∀ e ∈ Registry.entries, e.Always Check.Located := by
  simp only [Registry.entries, List.forall_mem_cons, List.not_mem_nil, false_implies,
    implies_true, and_true]
  exact ⟨always_indentation Indentation.located,
    always_of_no_options (fun _ => rfl) SelectorSpacing.located,
    always_colorLiteral ColorLiteral.located,
    always_of_read (fun _ => rfl) QuoteStyle.located,
    always_of_read (fun _ => rfl) DeclarationGrouping.located,
    always_of_read (fun _ => rfl) MaxNestingDepth.located,
    always_propertyOrder PropertyOrder.located,
    always_selectorNaming SelectorNaming.located,
    always_of_no_options (fun _ => rfl) ZeroUnit.located,
    always_of_no_options (fun _ => rfl) NoImportant.located,
    always_of_read (fun _ => rfl) fun functions => BannedFunctions.located _,
    always_of_no_options (fun _ => rfl) DeclarationSpacing.located,
    always_of_no_options (fun _ => rfl) DeclarationSemicolon.located,
    always_of_no_options (fun _ => rfl) ShorthandValues.located,
    always_of_no_options (fun _ => rfl) EmptyLineBetweenRules.located,
    always_of_read (fun _ => rfl) CommentStyle.located⟩

end SheetLint
