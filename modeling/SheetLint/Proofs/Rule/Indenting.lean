import SheetLint.Proofs.Edit.Tokens
import SheetLint.Proofs.Rule.Lines
import SheetLint.Proofs.Rule.Selectors
import SheetLint.Proofs.Tree.Closed
import SheetLint.Proofs.Tree.Defects

/-!
# What indenting does to a text

The rule about indentation looks at the whitespace in front of nodes, in front of closing braces and
inside selectors. Where such whitespace holds a line break, a line starts behind it, and its fix replaces
what stands behind the last line break. Each whitespace token is looked at once, so the fixes do not
conflict. They leave a line break in the token, so the same tokens are read, and the same tree is made of
them. In that tree the levels are the old ones, so nothing more is found.

Results:
* `Scan.StartsLike.of_lineFeed`: another indentation in front of a text.
* `Indentation.subperm_starts`: no token is looked at twice.
* `Indentation.legible_indented`: the new tokens are read.
* `Indentation.lines_indented`: what all fixes of the rule make of a text.
-/

namespace SheetLint

open Scan Tokens

/-! ## Another indentation in front of a text -/

/-- **Whitespace behind a line feed** may be exchanged for other whitespace. -/
theorem Scan.StartsLike.of_lineFeed {indent indent' s s' : Text} (hindent : indent.IsBlank)
    (hindent' : indent'.IsBlank) (h : StartsLike s s') :
    StartsLike ('\n' :: (indent ++ s)) ('\n' :: (indent' ++ s')) := by
  have hquote : startsWith isQuote (('\n' :: (indent' ++ s')).dropWhile isSpace) =
      startsWith isQuote (('\n' :: (indent ++ s)).dropWhile isSpace) := by
    rw [List.dropWhile_cons_of_pos rfl, List.dropWhile_cons_of_pos rfl,
      List.dropWhile_append_of_pos hindent, List.dropWhile_append_of_pos hindent']
    exact h.offers.quote
  exact ⟨.of_isBar (by simp) rfl hquote, .of_isBar rfl _ _, ⟨Bool.noConfusion, Bool.noConfusion⟩, rfl⟩

namespace Indent

/-- A text up to and with its last line feed. -/
def keptLines (t : Text) : Text := (t.reverse.dropWhile (· != '\n')).reverse

theorem keptLines_append_lastLine (t : Text) : keptLines t ++ lastLine t = t := by
  rw [keptLines, lastLine, ← List.reverse_append, List.takeWhile_append_dropWhile, List.reverse_reverse]

/-- What is kept of a text with a line feed ends with one. -/
theorem exists_keptLines {t : Text} (h : '\n' ∈ t) : ∃ front, keptLines t = front ++ ['\n'] := by
  obtain ⟨front, hsplit, -⟩ := exists_eq_append_lastLine h
  have hjoin : keptLines t ++ lastLine t = (front ++ ['\n']) ++ lastLine t := by
    rw [keptLines_append_lastLine, List.append_assoc]
    exact hsplit
  exact ⟨front, List.append_cancel_right hjoin⟩

end Indent

namespace Indentation

variable {o : Options} {level : Nat} {t : Token} {ts : List Token} {f : Token → Token}
  {g : Span → Span}

/-! ## Where lines may start -/

/-- A place where a line may start: the whitespace in front of it, the level of what starts there and
what that is called. -/
structure Start where
  trivia : List Token
  level : Nat
  what : String

/-- The start with other tokens. -/
def Start.relabel (f : Token → Token) (s : Start) : Start := { s with trivia := s.trivia.map f }

/-- The lines of a selector behind its first. -/
def selectorStarts (level : Nat) (selectors : List Token) : List Start :=
  (dropEndWhile Token.isWhitespace selectors).dropLast.map fun t => ⟨[t], level, "selector"⟩

/-- Where the lines of a head start, behind its first. -/
def headStarts (level : Nat) : Head → List Start
  | .ruleSet selectors => selectorStarts level selectors
  | .atRule _ _ => []

/-- Where the lines of a node itself may start: its first, those of its selector and that of its closing
brace. -/
def starts : Node → List Start
  | .statement leading level _ => [⟨leading, level, "line"⟩]
  | .block leading level _ head _ _ trailing closing =>
    ⟨leading, level, "line"⟩ ::
      (headStarts level head ++ if closing.isSome then [⟨trailing, level, "`\x7d`"⟩] else [])

/-- Where the lines of a sheet may start. -/
def allStarts (sheet : Stylesheet) : List Start := sheet.nodes.flatMap starts

/-- The findings at a start. -/
def startFindings (o : Options) (s : Start) : List Finding := lineFinding o s.trivia s.level s.what

theorem nodeFindings_eq (o : Options) (n : Node) :
    nodeFindings o n = (starts n).flatMap (startFindings o) := by
  cases n with
  | statement leading level s => exact (List.append_nil _).symm
  | block leading level depth head opening children trailing closing =>
    have hclosing : (if closing.isSome then lineFinding o trailing level "`\x7d`" else []) =
        (if closing.isSome then [(⟨trailing, level, "`\x7d`"⟩ : Start)] else []).flatMap
          (startFindings o) := by
      split <;> simp [startFindings]
    simp only [nodeFindings, starts, List.flatMap_cons, List.flatMap_append, hclosing,
      List.append_assoc]
    cases head with
    | ruleSet selectors =>
      rw [headStarts, selectorStarts, List.flatMap_map]
      rfl
    | atRule => rfl

/-- **What the rule finds stands where lines start.** -/
theorem check_eq (o : Options) (source : Text) (sheet : Stylesheet) :
    check o source sheet = (allStarts sheet).flatMap (startFindings o) := by
  rw [check, allStarts, List.flatMap_assoc]
  exact congrArg (List.flatMap · sheet.nodes) (funext (nodeFindings_eq o))

theorem sublist_headStarts (level : Nat) (head : Head) :
    ((headStarts level head).flatMap Start.trivia).Sublist head.tokens := by
  cases head with
  | ruleSet selectors =>
    rw [headStarts, selectorStarts, List.flatMap_map, List.flatMap_singleton']
    exact (List.dropLast_sublist _).trans (Tokens.dropEndWhile_prefix _ _).sublist
  | atRule => exact List.nil_sublist _

mutual

/-- **No token is looked at twice**: the whitespace in front of lines is among the tokens, in another
order. -/
theorem subperm_starts : (n : Node) →
    ((n.nodes.flatMap starts).flatMap Start.trivia).Subperm n.tokens
  | .statement leading level s => by
    simp only [Node.nodes, starts, List.flatMap_cons, List.flatMap_nil, List.append_nil, Node.tokens]
    exact (List.sublist_append_left leading s.tokens).subperm
  | .block leading level depth head opening children trailing closing => by
    have hinside := subperm_startsOfAll children
    have hhead := sublist_headStarts level head
    have hclosing : ((if closing.isSome then [(⟨trailing, level, "`\x7d`"⟩ : Start)]
        else []).flatMap Start.trivia).Sublist trailing := by
      split
      · simp
      · exact List.nil_sublist _
    simp only [Node.nodes, List.flatMap_cons, List.flatMap_append, starts, Node.tokens,
      List.append_assoc]
    refine (List.subperm_append_left leading).mpr ?_
    refine hhead.subperm.append (List.Subperm.cons_right opening ?_)
    -- the whitespace in front of the brace comes before the inner nodes here, and behind them in the text
    refine (List.perm_append_comm.subperm).trans (hinside.append ?_)
    exact hclosing.subperm.trans (List.sublist_append_left _ _).subperm

@[inherit_doc subperm_starts]
theorem subperm_startsOfAll : (ns : List Node) →
    (((Node.nodesOfAll ns).flatMap starts).flatMap Start.trivia).Subperm (Node.tokensOfAll ns)
  | [] => List.Subperm.refl []
  | n :: ns => by
    rw [Node.nodesOfAll, List.flatMap_append, List.flatMap_append, Node.tokensOfAll]
    exact (subperm_starts n).append (subperm_startsOfAll ns)

end

/-! ## Starts of relabelled nodes -/

theorem headStarts_relabel (hf : Token.KeepsRole f g) (level : Nat) (head : Head) :
    headStarts level (head.relabel f) = (headStarts level head).map (Start.relabel f) := by
  cases head with
  | ruleSet selectors =>
    rw [Head.relabel, headStarts, headStarts, selectorStarts, selectorStarts,
      dropEndWhile_map hf.isWhitespace, ← List.map_dropLast, List.map_map, List.map_map]
    rfl
  | atRule => rfl

theorem starts_relabel (hf : Token.KeepsRole f g) (n : Node) :
    starts (n.relabel f g) = (starts n).map (Start.relabel f) := by
  cases n with
  | statement => rfl
  | block leading level depth head opening children trailing closing =>
    simp only [Node.relabel, starts, List.map_cons, List.map_append, headStarts_relabel hf,
      Option.isSome_map]
    split <;> rfl

/-- **Lines start in the same places** of a relabelled tree. -/
theorem allStarts_ofTokens_map (hf : Token.KeepsRole f g) (ts : List Token) :
    allStarts (Stylesheet.ofTokens (ts.map f)) =
      (allStarts (Stylesheet.ofTokens ts)).map (Start.relabel f) := by
  rw [Stylesheet.ofTokens_map hf, allStarts, Stylesheet.nodes, Stylesheet.relabel,
    Node.nodesOfAll_relabelAll, List.flatMap_map, allStarts, List.map_flatMap]
  exact List.flatMap_congr fun n _ => starts_relabel hf n

/-! ## New indentations -/

/-- Whether a line starts behind a token. -/
def endsLine (t : Token) : Bool := t.isWhitespace && t.text.has '\n'

/-- The token with the indentation of a level, if a line starts behind it. -/
def reindented (o : Options) (level : Nat) (t : Token) : Token :=
  if endsLine t then ⟨.whitespace, Indent.keptLines t.text ++ expected o level, default⟩ else t.bare

/-- The level of the start that a token stands in front of. -/
def levelOf? (ss : List Start) (t : Token) : Option Nat :=
  (ss.find? fun s => decide (t ∈ s.trivia)).map Start.level

/-- The token with the indentation of the level that it has among some starts. -/
def indented (o : Options) (ss : List Start) (t : Token) : Token :=
  match levelOf? ss t with
  | some level => reindented o level t
  | none => t.bare

theorem kind_reindented (o : Options) (level : Nat) (t : Token) : (reindented o level t).kind = t.kind := by
  unfold reindented
  split
  · rename_i hline
    exact (beq_iff_eq.mp (Bool.and_eq_true_iff.mp hline).1).symm
  · rfl

/-- A token with another indentation, or itself without its place. -/
theorem indented_cases (o : Options) (ss : List Start) (t : Token) :
    (∃ level, endsLine t = true ∧ indented o ss t = reindented o level t) ∨ indented o ss t = t.bare := by
  unfold indented
  split
  · rename_i level _
    by_cases hline : endsLine t = true
    · exact .inl ⟨level, hline, rfl⟩
    · exact .inr (if_neg hline)
  · exact .inr rfl

theorem reindented_of_endsLine (hline : endsLine t = true) (o : Options) (level : Nat) :
    reindented o level t = ⟨.whitespace, Indent.keptLines t.text ++ expected o level, default⟩ :=
  if_pos hline

/-- **Another indentation is no other role.** -/
theorem keepsRole_indented (o : Options) (ss : List Start) :
    Token.KeepsRole (indented o ss) fun _ => default where
  kind t := by
    rcases indented_cases o ss t with ⟨level, -, h⟩ | h <;> rw [h]
    · exact kind_reindented o level t
    · rfl
  punct t c := by
    rcases indented_cases o ss t with ⟨level, hline, h⟩ | h <;> rw [h]
    · have hkind : t.kind = .whitespace := beq_iff_eq.mp (Bool.and_eq_true_iff.mp hline).1
      rw [reindented_of_endsLine hline, Token.isPunct, Token.isPunct, hkind]
      rfl
    · rfl
  span t := by
    rcases indented_cases o ss t with ⟨level, hline, h⟩ | h <;> rw [h]
    · rw [reindented_of_endsLine hline]
    · rfl
  between _ _ := rfl

theorem map_bare_indented (o : Options) (ss : List Start) (ts : List Token) :
    (ts.map (indented o ss)).map Token.bare = ts.map (indented o ss) := by
  rw [List.map_map]
  refine List.map_congr_left fun t _ => ?_
  rw [Function.comp_apply]
  rcases indented_cases o ss t with ⟨level, hline, h⟩ | h <;> rw [h]
  · rw [reindented_of_endsLine hline]
    rfl
  · rfl

theorem isBlank_expected (o : Options) (level : Nat) : (expected o level).IsBlank := by
  unfold expected
  intro c hc
  split at hc <;> rw [List.eq_of_mem_replicate hc] <;> rfl

theorem lineFeed_not_mem_expected (o : Options) (level : Nat) : '\n' ∉ expected o level := by
  unfold expected
  split <;> simp [List.mem_replicate]

/-- **The new tokens are read**, and their text starts like the old one. -/
theorem legible_indented (h : Legible ts) (herror : ∀ t ∈ ts, t.kind ≠ .error) (o : Options)
    (ss : List Start) :
    Legible (ts.map (indented o ss)) ∧ StartsLike (text ts) (text (ts.map (indented o ss))) := by
  induction ts with
  | nil => exact ⟨trivial, .refl []⟩
  | cons t ts ih =>
    rw [List.forall_mem_cons] at herror
    obtain ⟨hlegible, hlike⟩ := ih h.2 herror.2
    rw [List.map_cons, text_cons, text_cons]
    rcases indented_cases o ss t with ⟨level, hline, hnew⟩ | hnew
    · have hspace : t.isWhitespace = true := (Bool.and_eq_true_iff.mp hline).1
      have hfeed : '\n' ∈ t.text := List.contains_iff_mem.mp (Bool.and_eq_true_iff.mp hline).2
      have hblank := h.1.isBlank hspace
      obtain ⟨front, hfront⟩ := Indent.exists_keptLines hfeed
      have hcut : t.text = front ++ '\n' :: Indent.lastLine t.text := by
        conv_lhs => rw [← Indent.keptLines_append_lastLine t.text, hfront]
        simp
      have hlast : (Indent.lastLine t.text).IsBlank := fun c hc => hblank c (by rw [hcut]; simp [hc])
      have hput : (Indent.keptLines t.text ++ expected o level).IsBlank := by
        refine .append (fun c hc => hblank c ?_) (isBlank_expected o level)
        rw [← Indent.keptLines_append_lastLine t.text]
        exact List.mem_append_left _ hc
      rw [hnew, reindented_of_endsLine hline]
      refine ⟨⟨Token.readsBefore_blank (by simp [hfront]) hput ?_ default, hlegible⟩, ?_⟩
      · rw [startsWith_eq_of_head? hlike.head]
        exact h.1.space (beq_iff_eq.mp hspace)
      · have hstarts := (StartsLike.of_lineFeed hlast (isBlank_expected o level) hlike).append front
        have hold : t.text ++ text ts = front ++ '\n' :: (Indent.lastLine t.text ++ text ts) := by
          conv_lhs => rw [hcut]
          simp
        rw [hold, hfront]
        simpa using hstarts
    · rw [hnew]
      exact ⟨⟨(h.1.of_startsLike herror.1 hlike).congr rfl rfl, hlegible⟩, hlike.append t.text⟩

theorem words_indented (o : Options) (ss : List Start) (ts : List Token) :
    words (ts.map (indented o ss)) = words ts := by
  have hspace : (fun t : Token => !t.isWhitespace) ∘ indented o ss = fun t => !t.isWhitespace :=
    funext fun t => by rw [Function.comp_apply, (keepsRole_indented o ss).isWhitespace]
  rw [words, List.filter_map, hspace, List.map_map, words]
  refine List.map_congr_left fun t ht => ?_
  have hword : t.isWhitespace = false := by simpa using (List.mem_filter.mp ht).2
  rw [Function.comp_apply]
  rcases indented_cases o ss t with ⟨level, hline, -⟩ | hnew
  · rw [endsLine, hword] at hline
    cases hline
  · rw [hnew]
    rfl

theorem count_lineFeed_indented (o : Options) (ss : List Start) (ts : List Token) :
    (text (ts.map (indented o ss))).count '\n' = (text ts).count '\n' := by
  induction ts with
  | nil => rfl
  | cons t ts ih =>
    rw [List.map_cons, text_cons, text_cons, List.count_append, List.count_append, ih,
      Nat.add_right_cancel_iff]
    rcases indented_cases o ss t with ⟨level, hline, hnew⟩ | hnew
    · have hkept := congrArg (List.count '\n') (Indent.keptLines_append_lastLine t.text)
      rw [List.count_append, List.count_eq_zero.mpr (Indent.not_mem_lastLine _)] at hkept
      rw [hnew, reindented_of_endsLine hline, List.count_append, ← hkept,
        List.count_eq_zero.mpr (lineFeed_not_mem_expected o level)]
    · rw [hnew]
      rfl

/-! ## The edits -/

theorem levelOf?_of_mem {ss : List Start} (hnodup : (ss.flatMap Start.trivia).Nodup) {s : Start}
    (hs : s ∈ ss) (ht : t ∈ s.trivia) : levelOf? ss t = some s.level := by
  induction ss with
  | nil => cases hs
  | cons a ss ih =>
    obtain ⟨-, hlater, hdisjoint⟩ := List.nodup_append.mp hnodup
    have hother {b : Start} (hb : b ∈ ss) (htb : t ∈ b.trivia) : t ∉ a.trivia := fun hta =>
      hdisjoint t hta t (List.mem_flatMap.mpr ⟨b, hb, htb⟩) rfl
    rcases List.mem_cons.mp hs with rfl | hs
    · simp [levelOf?, ht]
    · have hskip := hother hs ht
      rw [← ih hlater hs]
      simp [levelOf?, hskip]

theorem mem_of_levelOf? {ss : List Start} (h : levelOf? ss t = some level) :
    t ∈ ss.flatMap Start.trivia := by
  obtain ⟨s, hfind, -⟩ := Option.map_eq_some_iff.mp h
  exact List.mem_flatMap.mpr ⟨s, List.mem_of_find?_eq_some hfind, by simpa using List.find?_some hfind⟩

/-- The edit of a token behind which a line of a level starts. -/
def lineEdit? (o : Options) (level : Nat) (t : Token) : Option Edit :=
  if endsLine t ∧ Indent.lastLine t.text ≠ expected o level then
    some ⟨t.stop - (Indent.lastLine t.text).size, t.stop, expected o level⟩
  else none

/-- The edit of a token, if a line starts behind it. -/
def edit? (o : Options) (ss : List Start) (t : Token) : Option Edit :=
  (levelOf? ss t).bind fun level => lineEdit? o level t

theorem edits_lineFinding (o : Options) (t : Token) (level : Nat) (what : String) :
    ((lineFinding o [t] level what).filterMap Finding.fix).flatMap Fix.edits =
      (lineEdit? o level t).toList := by
  unfold lineFinding Indent.ofTrivia?
  rw [List.reverse_singleton, List.find?_singleton]
  by_cases hline : (t.isWhitespace && t.text.has '\n') = true
  · rw [if_pos hline, lineEdit?]
    by_cases hwanted : Indent.lastLine t.text = expected o level
    · simp [hwanted]
    · simp [endsLine, hline, hwanted, Fix.replace, Token.stop]
  · rw [if_neg hline, lineEdit?, if_neg fun h => hline h.1]
    rfl

theorem edits_startFindings (o : Options) {s : Start} (h : s.trivia.length ≤ 1) :
    ((startFindings o s).filterMap Finding.fix).flatMap Fix.edits =
      s.trivia.filterMap (lineEdit? o s.level) := by
  obtain ⟨trivia, level, what⟩ := s
  match trivia, h with
  | [], _ => rfl
  | [t], _ =>
    rw [List.filterMap_cons, List.filterMap_nil]
    refine (edits_lineFinding o t level what).trans ?_
    cases lineEdit? o level t <;> rfl

/-- The edits at the starts, as a choice of the tokens in front of them. -/
theorem edits_flatMap_startFindings (o : Options) {ss : List Start}
    (hlength : ∀ s ∈ ss, s.trivia.length ≤ 1) (hnodup : (ss.flatMap Start.trivia).Nodup) :
    ((ss.flatMap (startFindings o)).filterMap Finding.fix).flatMap Fix.edits =
      (ss.flatMap Start.trivia).filterMap (edit? o ss) := by
  rw [List.filterMap_flatMap, List.flatMap_assoc, List.filterMap_flatMap]
  refine List.flatMap_congr fun s hs => ?_
  rw [edits_startFindings o (hlength s hs)]
  refine List.filterMap_congr fun t ht => ?_
  rw [edit?, levelOf?_of_mem hnodup hs ht, Option.bind_some]

theorem text_indented_of_none {ss : List Start} (h : edit? o ss t = none) :
    (indented o ss t).text = t.text := by
  unfold edit? at h
  unfold indented
  cases hlevel : levelOf? ss t with
  | none => rfl
  | some level =>
    rw [hlevel, Option.bind_some] at h
    unfold lineEdit? at h
    simp only
    by_cases hline : endsLine t = true
    · have hwanted : Indent.lastLine t.text = expected o level := by
        by_contra hne
        rw [if_pos ⟨hline, hne⟩] at h
        cases h
      rw [reindented_of_endsLine hline, ← hwanted, Indent.keptLines_append_lastLine]
    · rw [reindented, if_neg hline]
      rfl

theorem rewrites_of_edit? {source : Text} {ss : List Start} {e : Edit} (ht : t ∈ ofText source)
    (h : edit? o ss t = some e) : e.Rewrites t (indented o ss t).text := by
  obtain ⟨level, hlevel, hedit⟩ := Option.bind_eq_some_iff.mp h
  unfold lineEdit? at hedit
  split at hedit
  · rename_i htest
    cases hedit
    have hcut := Indent.keptLines_append_lastLine t.text
    have hstop := stop_eq ht
    rw [← hcut, Text.size_append] at hstop
    refine ⟨Indent.keptLines t.text, Indent.lastLine t.text, hcut.symm, ?_, rfl, ?_⟩
    · simp only
      omega
    · rw [indented, hlevel]
      exact congrArg Token.text (reindented_of_endsLine htest.1 o level)
  · cases hedit

/-! ## The starts of a text -/

/-- What stands in front of a node is at most one token, and so is what stands in front of its brace. -/
theorem length_leading_le_one {source : Text} {n : Node} (hn : n ∈ (Parse.ofText source).sheet.nodes) :
    n.leading.length ≤ 1 := by
  have htokens := Parse.tokens_isInfix hn
  rw [n.tokens_eq_leading_append_content] at htokens
  exact length_le_one_of_isInfix ((List.prefix_append _ _).isInfix.trans htokens)
    (Parse.isSpace_leading hn)

@[inherit_doc length_leading_le_one]
theorem length_trailing_le_one {source : Text} {n : Node} (hn : n ∈ (Parse.ofText source).sheet.nodes)
    {b : Body} (hb : n.body? = some b) : IsSpace b.trailing ∧ b.trailing.length ≤ 1 := by
  have htokens := Parse.tokens_isInfix hn
  have hmade := Stylesheet.madeOfPieces_of_mem_nodes hn
  cases n with
  | statement => cases hb
  | block leading level depth head opening children trailing closing =>
    cases hb
    refine ⟨hmade.2, length_le_one_of_isInfix (List.IsInfix.trans ⟨leading ++ head.tokens ++ [opening]
      ++ Node.tokensOfAll children, closing.toList, ?_⟩ htokens) hmade.2⟩
    simp [Node.tokens]

theorem length_trivia_le_one {source : Text} {s : Start}
    (hs : s ∈ allStarts (Parse.ofText source).sheet) : s.trivia.length ≤ 1 := by
  obtain ⟨n, hn, hs⟩ := List.mem_flatMap.mp hs
  have hleading := length_leading_le_one hn
  cases n with
  | statement leading level body =>
    rw [List.mem_singleton.mp hs]
    exact hleading
  | block leading level depth head opening children trailing closing =>
    have htrailing := (length_trailing_le_one hn rfl).2
    simp only [starts, List.mem_cons, List.mem_append] at hs
    rcases hs with rfl | hselector | hclosing
    · exact hleading
    · cases head with
      | ruleSet selectors =>
        obtain ⟨t, -, rfl⟩ := List.mem_map.mp hselector
        exact Nat.le_refl 1
      | atRule => cases hselector
    · split at hclosing
      · rw [List.mem_singleton.mp hclosing]
        exact htrailing
      · cases hclosing

theorem nodup_allStarts (source : Text) :
    ((allStarts (Parse.ofText source).sheet).flatMap Start.trivia).Nodup := by
  have hsub := subperm_startsOfAll (Parse.ofText source).sheet.children
  have hprefix := Stylesheet.tokensOfAll_children_isPrefix (ofText source)
  obtain ⟨listed, hperm, hlisted⟩ := hsub
  exact hperm.nodup_iff.mp ((nodup_ofText source).sublist (hlisted.trans hprefix.sublist))

/-! ## Indented nodes -/

/-- Whether whitespace that holds a line break ends with the indentation of a level. -/
def EndsIndented (o : Options) (level : Nat) (space : Text) : Prop :=
  '\n' ∈ space → ∃ front, space = front ++ '\n' :: expected o level

/-- Whether a node, its closing brace and the lines of its selector are indented as their level asks
where they start a line, which is behind a line break. -/
def IsIndented (o : Options) : Node → Prop
  | .statement leading level _ => EndsIndented o level (text leading)
  | .block leading level _ head _ _ trailing closing =>
    EndsIndented o level (text leading)
      ∧ (∀ selectors, head = .ruleSet selectors → ∀ front t back, selectors = front ++ t :: back →
        t.isWhitespace = true → (∃ k ∈ back, k.isWhitespace = false) → EndsIndented o level t.text)
      ∧ (closing.isSome = true → EndsIndented o level (text trailing))

theorem endsIndented_text {run : List Token} (hlength : run.length ≤ 1) (hspace : IsSpace run)
    (h : ∀ t ∈ run, t.isWhitespace = true → EndsIndented o level t.text) :
    EndsIndented o level (text run) := by
  match run, hlength with
  | [], _ => exact fun hfeed => absurd hfeed List.not_mem_nil
  | [t], _ =>
    have ht := h t List.mem_cons_self (hspace t List.mem_cons_self)
    rwa [text_cons, text_nil, List.append_nil]

/-- A token of a selector with a word behind it is looked at. -/
theorem mem_selectorStarts {selectors front back : List Token}
    (hsplit : selectors = front ++ t :: back) (hback : ∃ k ∈ back, k.isWhitespace = false) :
    ⟨[t], level, "selector"⟩ ∈ selectorStarts level selectors := by
  obtain ⟨k, hk, hword⟩ := hback
  have hmem : k ∈ dropEndWhile Token.isWhitespace back := mem_dropEndWhile hk hword
  have hne : dropEndWhile Token.isWhitespace back ≠ [] := List.ne_nil_of_mem hmem
  refine List.mem_map.mpr ⟨t, ?_, rfl⟩
  have hdrop : dropEndWhile Token.isWhitespace selectors =
      (front ++ [t]) ++ dropEndWhile Token.isWhitespace back := by
    have hbehind : back.reverse.dropWhile Token.isWhitespace ≠ [] := fun hnil => hne (by
      rw [dropEndWhile, hnil, List.reverse_nil])
    rw [hsplit, dropEndWhile, List.reverse_append, List.reverse_cons, List.append_assoc,
      List.dropWhile_append, if_neg (by simpa using hbehind), dropEndWhile]
    simp
  rw [hdrop, List.dropLast_append_of_ne_nil hne]
  simp

/-- **Nodes with indented starts are indented.** -/
theorem isIndented_of_starts {source : Text}
    (h : ∀ s ∈ allStarts (Parse.ofText source).sheet, ∀ t ∈ s.trivia, t.isWhitespace = true →
      EndsIndented o s.level t.text) :
    ∀ n ∈ (Parse.ofText source).sheet.nodes, IsIndented o n := by
  intro n hn
  have hstarts : ∀ s ∈ starts n, ∀ t ∈ s.trivia, t.isWhitespace = true →
      EndsIndented o s.level t.text := fun s hs => h s (List.mem_flatMap.mpr ⟨n, hn, hs⟩)
  have hspace := Parse.isSpace_leading hn
  have hlength := length_leading_le_one hn
  cases n with
  | statement leading level body =>
    exact endsIndented_text hlength hspace (hstarts _ List.mem_cons_self)
  | block leading level depth head opening children trailing closing =>
    obtain ⟨htrailing, hone⟩ := length_trailing_le_one hn rfl
    refine ⟨endsIndented_text hlength hspace (hstarts _ List.mem_cons_self), ?_, fun hclosing => ?_⟩
    · rintro selectors rfl front t back hsplit ht hback
      refine hstarts ⟨[t], level, "selector"⟩ ?_ t List.mem_cons_self ht
      simp [starts, headStarts, mem_selectorStarts hsplit hback]
    · refine endsIndented_text hone htrailing (hstarts ⟨trailing, level, "`\x7d`"⟩ ?_)
      simp [starts, hclosing]

/-- Nothing is found where the indentation is the one of the level. -/
theorem startFindings_eq_nil {s : Start}
    (h : ∀ t ∈ s.trivia, t.isWhitespace = true → EndsIndented o s.level t.text) :
    startFindings o s = [] := by
  unfold startFindings lineFinding
  split
  · rfl
  · rename_i indent hindent
    obtain ⟨t, hfind, rfl⟩ := Option.map_eq_some_iff.mp hindent
    have htest : t.isWhitespace = true ∧ t.text.has '\n' = true := by
      simpa using List.find?_some hfind
    have hmem : t ∈ s.trivia := List.mem_reverse.mp (List.mem_of_find?_eq_some hfind)
    obtain ⟨front, htext⟩ := h t hmem htest.1 (List.contains_iff_mem.mp htest.2)
    refine if_pos ?_
    simp only
    rw [htext, Indent.lastLine_append (lineFeed_not_mem_expected o s.level)]

/-! ## What the fixes do -/

/-- The starts of a text that is read as the indented tokens of another one. -/
theorem endsIndented_of_indented {source out : Text} {s : Start}
    (hout : (ofText out).map Token.bare =
      (ofText source).map (indented o (allStarts (Parse.ofText source).sheet)))
    (hs : s ∈ allStarts (Parse.ofText out).sheet) (ht : t ∈ s.trivia) (hspace : t.isWhitespace = true) :
    EndsIndented o s.level t.text := by
  have hsame := allStarts_ofTokens_map Token.keepsRole_bare (ofText out)
  rw [hout, allStarts_ofTokens_map (keepsRole_indented o _)] at hsame
  have hmem := List.mem_map_of_mem (f := Start.relabel Token.bare) hs
  rw [show allStarts (Parse.ofText out).sheet = allStarts (Stylesheet.ofTokens (ofText out)) from rfl,
    ← hsame] at hmem
  obtain ⟨old, hold, heq⟩ := List.mem_map.mp hmem
  have hlevel : (Start.relabel _ old).level = (Start.relabel _ s).level := congrArg Start.level heq
  have htrivia := congrArg Start.trivia heq
  have hbare : t.bare ∈ (Start.relabel Token.bare s).trivia := List.mem_map_of_mem ht
  rw [← htrivia] at hbare
  obtain ⟨u, hu, hnew⟩ := List.mem_map.mp hbare
  have htext : t.text = (indented o (allStarts (Parse.ofText source).sheet) u).text :=
    (congrArg Token.text hnew).symm
  have hfind : levelOf? (allStarts (Parse.ofText source).sheet) u = some old.level :=
    levelOf?_of_mem (nodup_allStarts source) hold hu
  have hreindented : indented o (allStarts (Parse.ofText source).sheet) u =
      reindented o s.level u := by
    rw [indented, hfind]
    exact congrArg (reindented o · u) hlevel
  have hword : u.isWhitespace = true := by
    rw [← (keepsRole_indented o (allStarts (Parse.ofText source).sheet)).isWhitespace u, hnew]
    exact hspace
  intro hfeed
  by_cases hline : endsLine u = true
  · have hold : '\n' ∈ u.text := List.contains_iff_mem.mp (Bool.and_eq_true_iff.mp hline).2
    obtain ⟨front, hfront⟩ := Indent.exists_keptLines hold
    refine ⟨front, ?_⟩
    rw [htext, hreindented, reindented_of_endsLine hline, hfront]
    simp
  · -- the token would be as it was, and without a line break
    rw [htext, hreindented, reindented, if_neg hline] at hfeed
    have hold : '\n' ∈ u.text := hfeed
    exact absurd (by simpa [endsLine, hword, Text.has] using hold) hline

/-- **The edits of the rule are those of the tokens behind which lines start**, in another order. -/
theorem edits_check_perm (o : Options) (source : Text) :
    (((check o source (Parse.ofText source).sheet).filterMap Finding.fix).flatMap Fix.edits).Perm
      ((ofText source).filterMap (edit? o (allStarts (Parse.ofText source).sheet))) := by
  have hnodup := nodup_allStarts source
  obtain ⟨listed, hlisted, hsub⟩ := subperm_startsOfAll (Parse.ofText source).sheet.children
  have hprefix := Stylesheet.tokensOfAll_children_isPrefix (ofText source)
  rw [check_eq, edits_flatMap_startFindings o (fun s hs => length_trivia_le_one hs) hnodup,
    filterMap_eq_of_sublist (hsub.trans hprefix.sublist) (nodup_ofText source)]
  · exact (hlisted.filterMap _).symm
  · intro t _ hnot
    refine Option.bind_eq_none_iff.mpr fun level hlevel => ?_
    exact absurd (hlisted.mem_iff.mpr (mem_of_levelOf? hlevel)) hnot

/-- **What all fixes of the rule make of a text.** No two of them conflict. Applied together they give a
text without defects, with the same words and as many line feeds. In it whatever starts a line is indented
by the units of its level, and nothing is found. -/
theorem lines_indented (o : Options) (source : Text) (hok : (Parse.ofText source).isOk = true) :
    let fixes := (check o source (Parse.ofText source).sheet).filterMap Finding.fix
    (fixes.Pairwise fun a b => a.conflicts b = false)
      ∧ ∃ out, Edit.applyAll? source (fixes.flatMap Fix.edits) = some out
        ∧ (Parse.ofText out).isOk = true
        ∧ words (ofText out) = words (ofText source)
        ∧ out.count '\n' = source.count '\n'
        ∧ (∀ n ∈ (Parse.ofText out).sheet.nodes, IsIndented o n)
        ∧ check o out (Parse.ofText out).sheet = [] := by
  intro fixes
  let ss := allStarts (Parse.ofText source).sheet
  have hperm := edits_check_perm o source
  have hrewrites : ∀ t ∈ ofText source, ∀ e, edit? o ss t = some e →
      e.Rewrites t (indented o ss t).text := fun t ht e he => rewrites_of_edit? ht he
  have hconflict := Edit.pairwise_conflicts_ofText hrewrites
  obtain ⟨hlegible, -⟩ := legible_indented (legible_ofText source) (Parse.kind_ne_error hok) o ss
  have htext : (ofText source).flatMap (fun t => (indented o ss t).text) =
      text ((ofText source).map (indented o ss)) := by
    rw [text, List.flatMap_map]
  have happly := Edit.applyAll?_ofText (fun t _ ht => text_indented_of_none ht) hrewrites
  have hout := (legible_iff .start).mp hlegible
  rw [htext] at happly
  generalize hnew : text ((ofText source).map (indented o ss)) = out at happly hout
  have htokens : (ofText out).map Token.bare = (ofText source).map (indented o ss) :=
    hout.trans (map_bare_indented o ss _)
  have hstarts : ∀ s ∈ allStarts (Parse.ofText out).sheet,
      ∀ t ∈ s.trivia, t.isWhitespace = true → EndsIndented o s.level t.text :=
    fun s hs t ht => endsIndented_of_indented htokens hs ht
  refine ⟨Edit.pairwise_conflicts_of_edits (Edit.pairwise_conflicts_perm hperm hconflict), out,
    Edit.applyAll?_of_perm happly hperm hconflict, ?_, ?_, ?_, isIndented_of_starts hstarts, ?_⟩
  · have hsame := Parse.isOk_map (keepsRole_indented o ss) (ofText source)
    exact (Parse.isOk_eq_of_map_bare hout).trans (hsame.trans hok)
  · exact (words_eq_of_map_bare hout).trans (words_indented o ss _)
  · rw [← hnew, count_lineFeed_indented, text_ofText]
  · rw [check_eq, List.flatMap_eq_nil_iff]
    exact fun s hs => startFindings_eq_nil (hstarts s hs)

namespace Nested

/-- A declaration that is not indented, and a closing brace that is. -/
def skewed : Text := "a\x7b\nb:c\n \x7d".toList

theorem isOk_skewed : (Parse.ofText skewed).isOk = true := by cbv

theorem edits_skewed :
    ((check {} skewed (Parse.ofText skewed).sheet).filterMap Finding.fix).flatMap Fix.edits =
      [⟨7, 8, []⟩, ⟨3, 3, [' ', ' ']⟩] := by cbv

end Nested

/-- A declaration gets the indentation that the closing brace behind it has to lose. -/
theorem lines_indented_nested :
    let edits : List Edit := [⟨7, 8, []⟩, ⟨3, 3, [' ', ' ']⟩]
    (Parse.ofText Nested.skewed).isOk = true
      ∧ ∃ out, Edit.applyAll? Nested.skewed edits = some out ∧ (Parse.ofText out).isOk = true
        ∧ words (ofText out) = words (ofText Nested.skewed)
        ∧ out.count '\n' = 2
        ∧ check {} out (Parse.ofText out).sheet = [] := by
  intro edits
  obtain ⟨-, out, happly, hok, hwords, hcount, -, hnone⟩ :=
    lines_indented {} Nested.skewed Nested.isOk_skewed
  rw [Nested.edits_skewed] at happly
  exact ⟨Nested.isOk_skewed, out, happly, hok, hwords, hcount, hnone⟩

end Indentation

end SheetLint
