import SheetLint.Proofs.Rule.FixesApply
import SheetLint.Rule.DeclarationGrouping
import SheetLint.Rule.EmptyLineBetweenRules
import SheetLint.Rule.Indentation

/-!
# The fixes of rules about lines

The rules about the lines of a rule set, indentation and blank lines replace the whitespace in front
of a node or of a closing brace, or a part of it. What stands there tells them the number of line
breaks and the indentation, and they put other whitespace there only where these are not as wanted.

Results:
* `Indent.stands_of_ofTrivia?`: the indentation is what stands behind the last line feed.
* `DeclarationGrouping.sparesComments`, `Indentation.sparesComments`,
  `EmptyLineBetweenRules.sparesComments`: their fixes are applicable and spare comments.
-/

namespace SheetLint

open Parse

variable {source : Text} {f : Finding}

/-! ## Lines of rule sets -/

namespace DeclarationGrouping

/-- A finding about the whitespace in front of a token, which is not yet as wanted. -/
theorem sparesComments_spacing {span : Span} {m m' : String} {space : List Token} {next : Token}
    {wanted : Text} (h : space ++ [next] <:+: Tokens.ofText source) (hspace : Tokens.IsSpace space)
    (hstart : span.start.offset = next.start) (hne : wanted ≠ Tokens.text space)
    (hwanted : '/' ∉ wanted) : (spacingFinding span m m' space wanted).SparesComments source := by
  rintro fix ⟨⟩
  rw [hstart]
  exact Fix.sparesComments_space_before h hspace hne (Text.isMute_of_not_mem hwanted)

/-- Whitespace without line break is not a line break. -/
theorem lineBreak_ne_text {space : List Token} (hspace : Tokens.IsSpace space)
    (hbreak : ¬ Tokens.hasLineBreak space = true) : ['\n'] ≠ Tokens.text space := by
  intro htext
  refine Tokens.not_mem_text_of_not_hasLineBreak hspace hbreak ?_
  rw [← htext]
  exact List.mem_singleton.mpr rfl

variable {children : List Node} {trailing : List Token} {closing : Token}

theorem mem_of_onlyDeclaration? {child : Node} (h : onlyDeclaration? children = some child) :
    child ∈ children := by
  unfold onlyDeclaration? at h
  split at h
  · split at h
    · cases h
      exact List.mem_singleton.mpr rfl
    · cases h
  · cases h

theorem sparesComments_singleLine {child : Node} (hchild : child ∈ (ofText source).sheet.nodes)
    (htrailing : trailing ++ [closing] <:+: Tokens.ofText source) (hspace : Tokens.IsSpace trailing)
    (hf : f ∈ singleLineFindings child trailing closing) : f.SparesComments source := by
  rcases List.mem_append.mp hf with hfirst | hlast
  · split at hfirst
    · rename_i span hspan
      split at hfirst
      · cases hfirst
      · rename_i hone
        obtain ⟨first, hstart, hrun⟩ := leading_isInfix hchild hspan
        rw [List.mem_singleton.mp hfirst]
        exact sparesComments_spacing hrun (isSpace_leading hchild) hstart
          (Tokens.text_ne_space ((List.prefix_append _ _).isInfix.trans hrun) hone) (by decide)
    · cases hfirst
  · split at hlast
    · cases hlast
    · rename_i hone
      rw [List.mem_singleton.mp hlast]
      exact sparesComments_spacing htrailing hspace rfl
        (Tokens.text_ne_space ((List.prefix_append _ _).isInfix.trans htrailing) hone) (by decide)

theorem sparesComments_line {before : Option Node}
    (hchildren : ∀ n ∈ children, n ∈ (ofText source).sheet.nodes)
    (hf : f ∈ lineFindings before children) : f.SparesComments source := by
  induction children generalizing before with
  | nil => cases hf
  | cons n ns ih =>
    rw [List.forall_mem_cons] at hchildren
    obtain ⟨hn, hns⟩ := hchildren
    rcases List.mem_append.mp hf with hfirst | hlater
    · split at hfirst
      · rename_i span hspan
        split at hfirst
        · cases hfirst
        · rename_i hline
          obtain ⟨first, hstart, hrun⟩ := leading_isInfix hn hspan
          rw [List.mem_singleton.mp hfirst]
          refine sparesComments_spacing hrun (isSpace_leading hn) hstart
            (lineBreak_ne_text (isSpace_leading hn) ?_) (by decide)
          intro hbreak
          exact hline (by simp [Node.startsLine, hbreak])
      · cases hfirst
    · exact ih hns hlater

/-- **The rule about the lines of rule sets spares comments.** -/
theorem sparesComments (singleLine : Bool) : Check.SparesComments (check singleLine) := by
  intro source f hf
  obtain ⟨n, hn, hf⟩ := List.mem_flatMap.mp hf
  have htokens := tokens_isInfix hn
  have hmade := Stylesheet.madeOfPieces_of_mem_nodes hn
  split at hf
  · rename_i leading level depth selectors opening children trailing closing
    have htrailing : trailing ++ [closing] <:+: Tokens.ofText source :=
      List.IsInfix.trans ⟨leading ++ selectors ++ [opening] ++ Node.tokensOfAll children, [], by
        simp [Node.tokens, Head.tokens]⟩ htokens
    have hchildren : ∀ child ∈ children, child ∈ (ofText source).sheet.nodes := fun child hchild =>
      Node.mem_nodesOfAll_of_mem_children hn rfl hchild
    unfold ruleSetFindings at hf
    split at hf
    · rename_i child honly
      split at honly
      · exact sparesComments_singleLine (hchildren child (mem_of_onlyDeclaration? honly)) htrailing
          hmade.2 hf
      · cases honly
    · unfold multiLineFindings at hf
      split at hf
      · cases hf
      · rcases List.mem_append.mp hf with hlines | hlast
        · exact sparesComments_line hchildren hlines
        · split at hlast
          · cases hlast
          · rename_i hbreak
            rw [List.mem_singleton.mp hlast]
            exact sparesComments_spacing htrailing hmade.2 rfl (lineBreak_ne_text hmade.2 hbreak)
              (by decide)
  · cases hf

end DeclarationGrouping

/-! ## Indentation -/

namespace Indent

theorem not_mem_lastLine (t : Text) : '\n' ∉ lastLine t := by
  intro h
  have hne := List.mem_takeWhile_imp (List.mem_reverse.mp h)
  simp at hne

theorem lastLine_append {front back : Text} (h : '\n' ∉ back) :
    lastLine (front ++ '\n' :: back) = back := by
  have hback : ∀ c ∈ back.reverse, (c != '\n') = true := fun c hc => by
    simpa using fun heq : c = '\n' => h (heq ▸ List.mem_reverse.mp hc)
  rw [lastLine, List.reverse_append, List.reverse_cons, List.append_assoc,
    List.takeWhile_append_of_pos hback]
  simp

/-- A text with a line feed is cut behind its last one. -/
theorem exists_eq_append_lastLine {t : Text} (h : '\n' ∈ t) :
    ∃ front, t = front ++ '\n' :: lastLine t ∧ '\n' ∉ lastLine t := by
  obtain ⟨front, back, hsplit, hback⟩ := List.eq_append_cons_of_mem (List.mem_reverse.mpr h)
  have hlast : lastLine t = front.reverse := by
    have hstop : t.reverse.takeWhile (· != '\n') = front := by
      rw [hsplit, List.takeWhile_append_of_pos fun c hc => by
        simpa using fun heq : c = '\n' => hback (heq ▸ hc)]
      simp
    rw [lastLine, hstop]
  refine ⟨back.reverse, ?_, by simpa [hlast] using hback⟩
  rw [hlast]
  simpa using congrArg List.reverse hsplit

/-- Where the indentation of a run stands: at the end of its token `t`, behind the text `kept` and a
line feed. No other line feed follows, in `t` or in the tokens `back` behind it. -/
structure Stands (indent : Indent) (t : Token) (kept : Text) (back : List Token) : Prop where
  space : t.isWhitespace = true
  text_eq : t.text = kept ++ '\n' :: indent.text
  not_mem : '\n' ∉ indent.text
  no_break : ¬ Tokens.hasLineBreak back = true
  start_eq : indent.span.start.offset = t.stop - indent.text.size
  stop_eq : indent.span.stop.offset = t.stop

variable {trivia back before after : List Token} {indent : Indent} {t : Token} {kept : Text}

/-- The indentation of a run is the end of a token, the last one with a line feed. -/
theorem stands_of_ofTrivia? (h : ofTrivia? trivia = some indent) :
    ∃ front t kept back, trivia = front ++ t :: back ∧ indent.Stands t kept back := by
  obtain ⟨t, ht, rfl⟩ := Option.map_eq_some_iff.mp h
  obtain ⟨htest, back, front, hsplit, hback⟩ := List.find?_eq_some_iff_append.mp ht
  rw [Bool.and_eq_true, Text.has, List.contains_iff_mem] at htest
  obtain ⟨kept, htext, hlast⟩ := exists_eq_append_lastLine htest.2
  refine ⟨front.reverse, t, kept, back.reverse, by simpa using congrArg List.reverse hsplit,
    htest.1, htext, hlast, ?_, rfl, rfl⟩
  rw [Tokens.hasLineBreak, Bool.not_eq_true, List.any_eq_false]
  intro u hu
  simpa [imp_iff_not_or] using hback u (List.mem_reverse.mp hu)

/-- The text around an indentation, and the offsets where it starts and stops. -/
theorem Stands.placed (h : indent.Stands t kept back)
    (hsplit : Tokens.ofText source = before ++ t :: after) :
    source = (Tokens.text before ++ (kept ++ ['\n'])) ++ indent.text ++ Tokens.text after
      ∧ indent.span.start.offset = (Tokens.text before ++ (kept ++ ['\n'])).size
      ∧ indent.span.stop.offset
        = (Tokens.text before ++ (kept ++ ['\n'])).size + indent.text.size := by
  have htext : t.text = (kept ++ ['\n']) ++ indent.text := by simpa using h.text_eq
  have hstop : t.stop = (Tokens.text before ++ (kept ++ ['\n'])).size + indent.text.size := by
    rw [Tokens.stop_of_ofText hsplit, htext, ← Text.size_append, ← Text.size_append]
    simp only [List.append_assoc]
  refine ⟨?_, ?_, h.stop_eq.trans hstop⟩
  · rw [Tokens.text_eq_of_ofText hsplit, htext]
    simp
  · rw [h.start_eq, hstop, Nat.add_sub_cancel]

/-- No word reaches across the ends of an indentation. -/
theorem Stands.isEdge (h : indent.Stands t kept back)
    (hsplit : Tokens.ofText source = before ++ t :: after) :
    Tokens.IsEdge (Tokens.ofText source) indent.span.start.offset
      ∧ Tokens.IsEdge (Tokens.ofText source) indent.span.stop.offset := by
  have htext : t.text = (kept ++ ['\n']) ++ indent.text := by simpa using h.text_eq
  obtain ⟨-, hstart, hstop⟩ := h.placed hsplit
  constructor
  · rw [hstart, Text.size_append]
    refine Tokens.isEdge_of_isWhitespace hsplit h.space ?_
    rw [htext, Text.size_append (kept ++ ['\n'])]
    exact Nat.le_add_right _ _
  · rw [hstop, Text.size_append, Nat.add_assoc, ← Text.size_append, ← htext]
    exact Tokens.isEdge_of_isWhitespace hsplit h.space (Nat.le_refl _)

/-- Whitespace with a line feed ends with an indentation. -/
theorem exists_ofTrivia? (hspace : Tokens.IsSpace trivia) (h : '\n' ∈ Tokens.text trivia) :
    ∃ indent, ofTrivia? trivia = some indent := by
  obtain ⟨t, ht, hfeed⟩ := List.mem_flatMap.mp h
  rw [← Option.isSome_iff_exists, ofTrivia?, Option.isSome_map, List.find?_isSome]
  exact ⟨t, List.mem_reverse.mpr ht, by simpa [hspace t ht, Text.has] using hfeed⟩

/-- An indentation is whitespace. -/
theorem Stands.isBlank (h : indent.Stands t kept back)
    (hsplit : Tokens.ofText source = before ++ t :: after) : indent.text.IsBlank := by
  have hblank := Tokens.isBlank_text hsplit h.space
  rw [h.text_eq] at hblank
  exact fun c hc => hblank c (List.mem_append_right _ (List.mem_cons_of_mem _ hc))

/-- A fix that replaces the indentation at the end of a run of whitespace. -/
theorem sparesComments_of_ofTrivia? {wanted : Text} {message : String}
    (htrivia : trivia ⊆ Tokens.ofText source) (h : ofTrivia? trivia = some indent)
    (hne : wanted ≠ indent.text) (hwanted : '/' ∉ wanted) :
    Fix.SparesComments source
      (.replace message indent.span.start.offset indent.span.stop.offset wanted) := by
  obtain ⟨front, t, kept, back, rfl, hstands⟩ := stands_of_ofTrivia? h
  obtain ⟨before, after, hsplit⟩ := List.append_of_mem (htrivia (by simp : t ∈ front ++ t :: back))
  exact Fix.sparesComments_of_one ⟨_, _, hstands.placed hsplit⟩ (hstands.isEdge hsplit) hne
    (Text.unmarked_of_isBlank (hstands.isBlank hsplit)) (Text.isMute_of_not_mem hwanted)

end Indent

namespace Indentation

theorem not_mem_expected (o : Options) (level : Nat) : '/' ∉ expected o level := by
  unfold expected
  split <;> simp [List.mem_replicate]

theorem sparesComments_line {o : Options} {trivia : List Token} {level : Nat} {what : String}
    (htrivia : trivia ⊆ Tokens.ofText source) (hf : f ∈ lineFinding o trivia level what) :
    f.SparesComments source := by
  unfold lineFinding at hf
  split at hf
  · cases hf
  · rename_i indent hindent
    simp only at hf
    split at hf
    · cases hf
    · rename_i hne
      rw [List.mem_singleton.mp hf]
      rintro fix ⟨⟩
      exact Indent.sparesComments_of_ofTrivia? htrivia hindent (Ne.symm hne)
        (not_mem_expected o level)

theorem sparesComments_selector {o : Options} {level : Nat} {selectors : List Token}
    (hselectors : selectors ⊆ Tokens.ofText source)
    (hf : f ∈ selectorFindings o level selectors) : f.SparesComments source := by
  obtain ⟨t, ht, hf⟩ := List.mem_flatMap.mp hf
  refine sparesComments_line (List.cons_subset.mpr ⟨hselectors ?_, List.nil_subset _⟩) hf
  exact (Tokens.dropEndWhile_prefix _ _).subset (List.mem_of_mem_dropLast ht)

/-- **The rule about indentation spares comments.** -/
theorem sparesComments (o : Options) : Check.SparesComments (check o) := by
  intro source f hf
  obtain ⟨n, hn, hf⟩ := List.mem_flatMap.mp hf
  have htokens := (tokens_isInfix hn).subset
  cases n with
  | statement leading level s =>
    exact sparesComments_line (fun t ht => htokens (List.mem_append_left _ ht)) hf
  | block leading level depth head opening children trailing closing =>
    rw [Node.tokens] at htokens
    rcases List.mem_append.mp hf with hopening | hclosing
    · rcases List.mem_append.mp hopening with hline | hselector
      · exact sparesComments_line (fun t ht => htokens (by simp [ht])) hline
      · cases head with
        | ruleSet selectors =>
          exact sparesComments_selector (fun t ht => htokens (by simp [Head.tokens, ht])) hselector
        | atRule => cases hselector
    · split at hclosing
      · exact sparesComments_line (fun t ht => htokens (by simp [ht])) hclosing
      · cases hclosing

end Indentation

/-! ## Blank lines -/

namespace EmptyLineBetweenRules

variable {leading : List Token}

/-- Line breaks in whitespace are line feeds in its text. -/
theorem lineBreaks_eq_count (hspace : Tokens.IsSpace leading) :
    Tokens.lineBreaks leading = (Tokens.text leading).count '\n' := by
  rw [Tokens.lineBreaks, List.filter_eq_self.mpr hspace, Tokens.text]

/-- Whitespace with other than two line breaks is made a blank line by a change. -/
theorem sparesComments_separate {first : Token} {message : String}
    (h : leading ++ [first] <:+: Tokens.ofText source) (hspace : Tokens.IsSpace leading)
    (hbreaks : Tokens.lineBreaks leading ≠ 2) :
    Fix.SparesComments source ⟨message, [separate leading first.start]⟩ := by
  rw [lineBreaks_eq_count hspace] at hbreaks
  unfold separate
  split
  · rename_i head indent hhead hindent
    obtain ⟨front, t, kept, back, hleading, hstands⟩ := Indent.stands_of_ofTrivia? hindent
    obtain ⟨before, after, hsplit⟩ := h
    have hhere : Tokens.ofText source = before ++ leading ++ (first :: after) := by
      simpa using hsplit.symm
    have htoken : Tokens.ofText source = (before ++ front) ++ t :: (back ++ first :: after) := by
      rw [hhere, hleading]
      simp
    obtain ⟨hsource, hstart, -⟩ := hstands.placed htoken
    have hhead := (Tokens.ends_of_ofText hhere).1 head hhead
    have hreplaced : source = Tokens.text before ++ (Tokens.text front ++ (kept ++ ['\n']))
        ++ (indent.text ++ Tokens.text (back ++ first :: after)) := by
      simpa using hsource
    have hedges : Tokens.IsEdge (Tokens.ofText source) head.start
        ∧ Tokens.IsEdge (Tokens.ofText source) indent.span.start.offset := by
      refine ⟨?_, (hstands.isEdge htoken).1⟩
      rw [hhead]
      exact Tokens.isEdge_of_append (hhere.trans (List.append_assoc _ _ _))
    refine Fix.sparesComments_of_one ⟨_, _, hreplaced, hhead, ?_⟩ hedges (fun hsame => hbreaks ?_) ?_
      (Text.isMute_of_not_mem (by simp))
    · simp only [hstart, Tokens.text_append, Text.size_append]
      omega
    · have hbackFeeds : '\n' ∉ Tokens.text back := by
        refine Tokens.not_mem_text_of_not_hasLineBreak (fun u hu => hspace u ?_) hstands.no_break
        simp [hleading, hu]
      -- All line feeds stand in what is replaced, and the new text holds two.
      have hcount : (Tokens.text front ++ (kept ++ ['\n'])).count '\n' = 2 := by
        rw [← hsame]
        rfl
      rw [hleading, Tokens.text_append, Tokens.text_cons, hstands.text_eq]
      simp only [List.count_append, List.count_cons_self, List.count_eq_zero.mpr hstands.not_mem,
        List.count_eq_zero.mpr hbackFeeds, List.count_nil] at hcount ⊢
      omega
    · have hblank : (Tokens.text leading).IsBlank :=
        Tokens.isBlank_text_of_isSpace (hhere.trans (List.append_assoc _ _ _)) hspace
      refine Text.unmarked_of_isBlank fun c hc => hblank c ?_
      rw [hleading, Tokens.text_append, Tokens.text_cons, hstands.text_eq]
      simp only [List.mem_append, List.mem_cons, List.not_mem_nil, or_false] at hc ⊢
      tauto
  · rename_i hnone
    refine Fix.sparesComments_space_before h hspace (fun hsame => ?_)
      (Text.isMute_of_not_mem (by decide))
    have hfeed : '\n' ∈ Tokens.text leading := by
      rw [← hsame]
      exact List.mem_cons_self
    obtain ⟨head, rest, rfl⟩ : ∃ head rest, leading = head :: rest :=
      List.exists_cons_of_ne_nil (by rintro rfl; cases hsame)
    obtain ⟨indent, hindent⟩ := Indent.exists_ofTrivia? hspace hfeed
    exact hnone head indent rfl hindent

theorem sparesComments_pair {before n : Node} (hn : n ∈ (ofText source).sheet.nodes)
    (hf : f ∈ pairFinding before n) : f.SparesComments source := by
  unfold pairFinding at hf
  simp only at hf
  split at hf
  · cases hf
  · rename_i htest
    split at hf
    · rename_i span hspan
      obtain ⟨first, hstart, hrun⟩ := leading_isInfix hn hspan
      rw [List.mem_singleton.mp hf]
      rintro fix ⟨⟩
      rw [hstart]
      refine sparesComments_separate hrun (isSpace_leading hn) fun hbreaks => htest ?_
      simp [hbreaks]
    · cases hf

theorem sparesComments_siblings {ns : List Node} (hns : ∀ n ∈ ns, n ∈ (ofText source).sheet.nodes)
    (hf : f ∈ siblingFindings ns) : f.SparesComments source := by
  fun_induction siblingFindings ns with
  | case1 before n rest ih =>
    rw [List.forall_mem_cons] at hns
    rcases List.mem_append.mp hf with hpair | hlater
    · exact sparesComments_pair (hns.2 n List.mem_cons_self) hpair
    · exact ih hns.2 hlater
  | case2 => cases hf

/-- **The rule about blank lines spares comments.** -/
theorem sparesComments : Check.SparesComments check := by
  intro source f hf
  obtain ⟨ns, hns, hf⟩ := List.mem_flatMap.mp hf
  refine sparesComments_siblings (fun n hn => ?_) hf
  rcases List.mem_cons.mp hns with rfl | hinside
  · exact Node.mem_nodesOfAll_of_mem hn
  · obtain ⟨m, hm, hbody⟩ := List.mem_filterMap.mp hinside
    obtain ⟨body, hsome, rfl⟩ := Option.map_eq_some_iff.mp hbody
    exact Node.mem_nodesOfAll_of_mem_children hm hsome hn

end EmptyLineBetweenRules

end SheetLint
