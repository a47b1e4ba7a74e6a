import SheetLint.Proofs.Edit.Tokens
import SheetLint.Proofs.Rule.SeparatedTrees
import SheetLint.Proofs.Tree.Defects

/-!
# What the rule about blank lines makes of a text

All fixes of the rule together give the text of the tree with blank lines between its blocks. An edit
replaces what stands in front of the indentation of a block, and never the line break behind a comment:
a block behind a comment stays with it. The new text is read as the new tree, so nothing more is found.

Results:
* `exists_separate`: what the edit in front of a block replaces.
* `Fits.substituted`, `substituted_spacedTokens`: what the edits make of a text, slot by slot.
* `ofTokens_spacedTokens`: the tokens with blank lines give the tree with blank lines.
* `blocks_separated`: what all fixes of the rule make of a text.
-/

namespace SheetLint.EmptyLineBetweenRules

open Node Tokens

variable {source : Text} {front leading back trailing : List Token} {first : Token}
  {slot : SpaceSlot} {slots : List SpaceSlot}

/-! ## Nodes without places -/

theorem leading_bare (n : Node) : n.bare.leading = n.leading.map Token.bare := by cases n <;> rfl

theorem spacing_bare {n m : Node} : Spacing n m.bare.leading ↔ Spacing n m.leading := by
  have htext : text m.bare.leading = text m.leading := by
    rw [leading_bare, text, List.flatMap_map]
    rfl
  have hindent : indentation? m.bare.leading = indentation? m.leading := by
    rw [leading_bare, indentation?_map_bare]
  exact ⟨fun h => ⟨hindent ▸ h.indentation, htext ▸ h.text⟩,
    fun h => ⟨hindent ▸ h.indentation, htext ▸ h.text⟩⟩

theorem separated_bare {before n : Node} : Separated before.bare n.bare ↔ Separated before n := by
  have hcomment : before.bare.isComment = before.isComment := by
    cases before with
    | statement leading level s => cases s <;> rfl
    | block => rfl
  have hneeds : needsSeparation n.bare = needsSeparation n := by
    cases n with
    | statement => rfl
    | block leading level depth head => cases head <;> rfl
  rw [Separated, Separated, hcomment, hneeds, leading_bare, lineBreaks_map_bare]

/-! ## The edits in a text -/

theorem indentation_subset (ts : List Token) : (indentation? ts).getD [] ⊆ text ts := by
  intro c hc
  cases hfind : Indent.ofTrivia? ts with
  | none => simp [indentation?, hfind] at hc
  | some indent =>
    obtain ⟨before, t, kept, after, rfl, hstands⟩ := Indent.stands_of_ofTrivia? hfind
    rw [indentation?, hfind] at hc
    rw [text_append, text_cons, hstands.text_eq]
    have hc : c ∈ indent.text := hc
    simp [hc]

/-- **What the edit in front of a block replaces**: all of the whitespace but the indentation. -/
theorem exists_separate (h : ofText source = front ++ (leading ++ first :: back))
    (hspace : IsSpace leading) :
    ∃ old, text leading = old ++ (indentation? leading).getD [] ∧ separate leading first.start =
      ⟨(text front).size, (text front).size + old.size, ['\n', '\n']⟩ := by
  have hsplit : ofText source = front ++ leading ++ first :: back := by rw [h, List.append_assoc]
  unfold separate
  cases hindent : Indent.ofTrivia? leading with
  | none =>
    have hstart : leading = [] → first.start = (text front).size := fun hnil => by
      rw [start_of_ofText hsplit, hnil, List.append_nil]
    refine ⟨text leading, by simp [indentation?, hindent], ?_⟩
    rw [← Fix.replaceRun_eq hsplit hstart]
    cases leading.head? <;> rfl
  | some indent =>
    obtain ⟨before, t, kept, after, rfl, hstands⟩ := Indent.stands_of_ofTrivia? hindent
    have hone := length_le_one_of_isInfix ⟨front, first :: back, hsplit.symm⟩ hspace
    obtain ⟨rfl, rfl⟩ : before = [] ∧ after = [] := by
      rw [List.length_append, List.length_cons] at hone
      exact ⟨List.eq_nil_of_length_eq_zero (by omega), List.eq_nil_of_length_eq_zero (by omega)⟩
    rw [List.nil_append] at hindent
    have htoken : ofText source = front ++ t :: (first :: back) := h
    obtain ⟨-, hstart, -⟩ := hstands.placed htoken
    refine ⟨kept ++ ['\n'], by simp [indentation?, hindent, hstands.text_eq], ?_⟩
    change (⟨t.start, indent.span.start.offset, ['\n', '\n']⟩ : Edit) = _
    rw [hstart, start_of_ofText htoken, Text.size_append (text front)]

/-- A slot of a text: a piece behind whitespace, and the blank line that takes its place, if one does. -/
structure Fits (slot : SpaceSlot) : Prop where
  space : IsSpace slot.piece.leading
  word : StartsWithWord slot.piece.body.tokens
  put : ∀ t ∈ slot.put?, t = blankLine slot.piece.leading

/-- **What the edit of a slot makes of its piece**, in front of what others make of the text behind it. -/
theorem Fits.substituted {later : List Token} {out : Text} {es : List Edit} (h : Fits slot)
    (hsource : ofText source = front ++ (slot.piece.tokens ++ later))
    (hwalk : Edit.Substituted (text (front ++ slot.piece.tokens)).size (text later) es out) :
    Edit.Substituted (text front).size (text (slot.piece.tokens ++ later))
        ((slotEdit? slot).toList ++ es) (text slot.spaced.tokens ++ out)
      ∧ ∀ e ∈ slotEdit? slot, ∀ e' ∈ es, e.stop ≤ e'.start ∧ e.start < e'.stop := by
  obtain ⟨hspace, ⟨first, hfirst, -⟩, hput⟩ := h
  obtain ⟨tail, hbody⟩ := List.head?_eq_some_iff.mp hfirst
  have hlater := hwalk.le_start
  have hround := hwalk.start_le_stop
  rw [text_append, Text.size_append] at hwalk hlater
  rw [text_append]
  cases hnew : slot.put? with
  | none =>
    have hnone : slotEdit? slot = none := by
      rw [slotEdit?, hnew]
      rfl
    rw [hnone, SpaceSlot.spaced_of_none hnew]
    exact ⟨hwalk.keep, by simp⟩
  | some t =>
    obtain rfl := hput t hnew
    rw [Piece.tokens, hbody, List.append_assoc, List.cons_append] at hsource
    obtain ⟨old, hold, hedit⟩ := exists_separate hsource hspace
    have hmade : slotEdit? slot =
        some ⟨(text front).size, (text front).size + old.size, ['\n', '\n']⟩ := by
      have hstart : startOf slot.piece.body.tokens = first.start := by
        rw [hbody]
        rfl
      rw [slotEdit?, hnew, hstart, ← hedit]
      rfl
    -- the indentation and the piece stand behind the edit
    have hpiece : text slot.piece.tokens =
        old ++ ((indentation? slot.piece.leading).getD [] ++ text slot.piece.body.tokens) := by
      rw [Piece.tokens, text_append, hold, List.append_assoc]
    have hnewText : text slot.spaced.tokens = ['\n', '\n']
        ++ ((indentation? slot.piece.leading).getD [] ++ text slot.piece.body.tokens) := by
      rw [Piece.tokens, SpaceSlot.leading_of_some hnew]
      simp [blankLine, SpaceSlot.spaced]
    rw [hmade, hnewText, hpiece]
    rw [hpiece, Text.size_append, ← Nat.add_assoc] at hwalk hlater
    refine ⟨?_, ?_⟩
    · rw [List.append_assoc old, List.append_assoc ['\n', '\n']]
      exact hwalk.keep.replace ['\n', '\n']
    · rintro e ⟨⟩ e' he'
      have hle := hlater e' he'
      have hround := hround e' he'
      have hne : first.text ≠ [] := ne_nil_of_mem_ofText (t := source) (by rw [hsource]; simp)
      have hsize := Text.size_pos_of_ne_nil hne
      rw [hbody, text_cons, Text.size_append, Text.size_append] at hle
      simp only
      omega

/-- **What the edits make of a text, slot by slot.** They stand apart. -/
theorem substituted_spacedTokens (hslots : ∀ slot ∈ slots, Fits slot)
    (hsource : ofText source = front ++ (slots.flatMap (fun slot => slot.piece.tokens) ++ trailing)) :
    Edit.Substituted (text front).size (text (slots.flatMap (fun slot => slot.piece.tokens) ++ trailing))
        (slots.filterMap slotEdit?) (text (SpaceSlot.spacedTokens slots trailing))
      ∧ (slots.filterMap slotEdit?).Pairwise fun a b => a.stop ≤ b.start ∧ a.start < b.stop := by
  induction slots generalizing front with
  | nil => exact ⟨.nil _ _, .nil⟩
  | cons slot slots ih =>
    obtain ⟨hslot, hslots⟩ := List.forall_mem_cons.mp hslots
    rw [List.flatMap_cons, List.append_assoc] at hsource ⊢
    obtain ⟨hwalk, hapart⟩ := ih hslots (hsource.trans (List.append_assoc _ _ _).symm)
    obtain ⟨hstep, hfirst⟩ := hslot.substituted hsource hwalk
    have hedits : (slot :: slots).filterMap slotEdit? =
        (slotEdit? slot).toList ++ slots.filterMap slotEdit? := by
      rw [List.filterMap_cons]
      cases slotEdit? slot <;> rfl
    have hnew : text (SpaceSlot.spacedTokens (slot :: slots) trailing) =
        text slot.spaced.tokens ++ text (SpaceSlot.spacedTokens slots trailing) := by
      rw [SpaceSlot.spacedTokens, List.flatMap_cons, List.append_assoc, text_append]
      rfl
    rw [hedits, hnew]
    refine ⟨hstep, List.pairwise_append.mpr ⟨?_, hapart, fun e he => hfirst e (by simpa using he)⟩⟩
    cases slotEdit? slot <;> simp

/-! ## The text with blank lines -/

section

variable {before : Option Node} {ns : List Node}

theorem mem_split_of_mem_slots
    (hsplit : Piece.split (ofText source) = ((slotsBehind before ns).map SpaceSlot.piece, trailing))
    (hslot : slot ∈ slotsBehind before ns) : slot.piece ∈ (Piece.split (ofText source)).1 := by
  rw [hsplit]
  exact List.mem_map_of_mem hslot

/-- The slots of a text fit it. -/
theorem fits_of_mem_slots
    (hsplit : Piece.split (ofText source) = ((slotsBehind before ns).map SpaceSlot.piece, trailing))
    (hslot : slot ∈ slotsBehind before ns) : Fits slot :=
  have hpiece := mem_split_of_mem_slots hsplit hslot
  ⟨((Piece.sound_split _).1 _ hpiece).leading, (Piece.delimited_split _ _ hpiece).head,
    fun t ht => (opening_of_slotsBehind before ns slot hslot t ht).1⟩

/-- A blank line may come in the slots of a text: it is put in front of blocks. -/
theorem sound_of_mem_slots
    (hsplit : Piece.split (ofText source) = ((slotsBehind before ns).map SpaceSlot.piece, trailing))
    (hslot : slot ∈ slotsBehind before ns) : slot.Sound := by
  have hpiece := mem_split_of_mem_slots hsplit hslot
  have hput := opening_of_slotsBehind before ns slot hslot
  have hblank : (text slot.piece.leading).IsBlank := fun c hc => by
    obtain ⟨t, ht, hc⟩ := List.mem_flatMap.mp hc
    have hmem : t ∈ ofText source := by
      rw [← Piece.tokens_split (ofText source)]
      exact List.mem_append_left _ (List.mem_flatMap.mpr ⟨_, hpiece, List.mem_append_left _ ht⟩)
    obtain ⟨front, back, hread⟩ := List.append_of_mem hmem
    exact isBlank_text hread (((Piece.sound_split _).1 _ hpiece).leading t ht) c hc
  refine ⟨fun t ht => ?_, fun t ht => ?_, fun brace hclosing => ?_⟩
  · rw [(hput t ht).1]
    refine ⟨rfl, .append (by simp [Text.IsBlank, Scan.isSpace]) fun c hc => hblank c ?_⟩
    exact indentation_subset slot.piece.leading hc
  · rw [(hput t ht).1]
    rfl
  · -- a piece that gets a blank line opens a block
    refine Option.eq_none_iff_forall_not_mem.mpr fun t ht => ?_
    obtain ⟨-, head, brace', hopening⟩ := hput t ht
    rw [hopening] at hclosing
    cases hclosing

end

/-- What becomes of a node: the whitespace in it and in front of it is all that changes, and in front of
it stands the old whitespace or a blank line. -/
structure Respaced (n n' : Node) : Prop where
  skeleton : n'.skeleton = n.skeleton
  spacing : Spacing n n'.leading

/-- The tree with blank lines between its blocks. -/
def separatedSheet (sheet : Stylesheet) : Stylesheet :=
  ⟨separatedBehind none sheet.children, sheet.trailing⟩

theorem isChain_siblings (sheet : Stylesheet) :
    ∀ ns ∈ (separatedSheet sheet).siblings, ns.IsChain Separated := by
  rw [Stylesheet.siblings, List.forall_mem_cons]
  refine ⟨isChain_separatedBehind none sheet.children, fun ns hns => ?_⟩
  obtain ⟨n, hn, hns⟩ := List.mem_filterMap.mp hns
  obtain ⟨body, hbody, rfl⟩ := Option.map_eq_some_iff.mp hns
  exact isChain_children_separatedBehind none sheet.children n hn body hbody

/-- The same of a tree that differs from it in places only. -/
theorem isChain_siblings_of_bare {sheet sheet' : Stylesheet}
    (h : sheet'.bare = (separatedSheet sheet).bare) :
    ∀ ns ∈ sheet'.siblings, ns.IsChain Separated := by
  have hchain (ns : List Node) : (ns.map Node.bare).IsChain Separated ↔ ns.IsChain Separated := by
    rw [List.isChain_map]
    simp only [separated_bare]
  intro ns hns
  have hmem := List.mem_map_of_mem (f := List.map Node.bare) hns
  rw [← Stylesheet.siblings_bare, h, Stylesheet.siblings_bare] at hmem
  obtain ⟨ns', hns', hsame⟩ := List.mem_map.mp hmem
  rw [← hchain, ← hsame, hchain]
  exact isChain_siblings sheet ns' hns'

/-- The nodes of such a tree, if it has the same words. -/
theorem respaced_of_bare {sheet sheet' : Stylesheet} (h : sheet'.bare = (separatedSheet sheet).bare)
    (hskeleton : List.Forall₂ (fun n n' : Node => n'.skeleton = n.skeleton) sheet.nodes sheet'.nodes) :
    List.Forall₂ Respaced sheet.nodes sheet'.nodes := by
  have hspacing := spacing_separatedBehind none sheet.children
  have hnodes : (separatedSheet sheet).nodes.map Node.bare = sheet'.nodes.map Node.bare := by
    rw [← Stylesheet.nodes_bare, ← Stylesheet.nodes_bare, h]
  have hbare (ns ms : List Node) :
      List.Forall₂ (fun n m => Spacing n m.leading) ns (ms.map Node.bare)
        ↔ List.Forall₂ (fun n m => Spacing n m.leading) ns ms := by
    rw [List.forall₂_map_right_iff]
    simp only [spacing_bare]
  have hspacing' : List.Forall₂ (fun n m => Spacing n m.leading) sheet.nodes sheet'.nodes := by
    rw [← hbare, ← hnodes, hbare]
    exact hspacing
  rw [List.forall₂_iff_zip] at hskeleton hspacing' ⊢
  exact ⟨hskeleton.1, fun hmem => ⟨hskeleton.2 hmem, hspacing'.2 hmem⟩⟩

/-- **The tokens with blank lines are read as they are, and their tree is the tree with blank lines.** -/
theorem ofTokens_spacedTokens (hok : (Parse.ofText source).isOk = true) :
    let sheet := (Parse.ofText source).sheet
    let ts := SpaceSlot.spacedTokens (slotsBehind none sheet.children) sheet.trailing
    Stylesheet.ofTokens ts = separatedSheet sheet ∧ Legible ts ∧ words ts = words (ofText source)
      ∧ Edit.applyAll? source ((slotsBehind none sheet.children).filterMap slotEdit?) = some (text ts)
      ∧ ((slotsBehind none sheet.children).filterMap slotEdit?).Pairwise
        (fun a b => a.conflicts b = false) := by
  intro sheet ts
  obtain ⟨-, herrors⟩ := (Parse.isOk_iff (ofText source)).mp hok
  have hsplit : Piece.split (ofText source) =
      ((slotsBehind none sheet.children).map SpaceSlot.piece, sheet.trailing) := by
    rw [pieces_slotsBehind]
    exact Stylesheet.split_of_errors herrors
  have hfits : ∀ slot ∈ slotsBehind none sheet.children, Fits slot :=
    fun slot hslot => fits_of_mem_slots hsplit hslot
  have hsound : ∀ slot ∈ slotsBehind none sheet.children, slot.Sound :=
    fun slot hslot => sound_of_mem_slots hsplit hslot
  have htokens : (slotsBehind none sheet.children).flatMap (fun slot => slot.piece.tokens)
      ++ sheet.trailing = ofText source := by
    have hpieces := Piece.tokens_split (ofText source)
    rwa [hsplit, List.flatMap_map] at hpieces
  have hnumbered : ∀ n ∈ sheet.children, n.Numbered 0 0 := Stylesheet.numbered_build trivial (by simp)
  obtain ⟨hwalk, hapart⟩ := substituted_spacedTokens hfits (htokens.symm.trans (List.nil_append _).symm)
  rw [htokens, text_ofText] at hwalk
  have happly := Edit.applyAll?_of_substituted hwalk hapart
  refine ⟨?_, legible_spacedTokens hsound hsplit (legible_ofText source) (Parse.kind_ne_error hok), ?_,
    happly, Edit.pairwise_conflicts_of_apart hwalk.start_le_stop hapart⟩
  · refine Stylesheet.ofTokens_of_split ?_ ((errors_separatedBehind none sheet.children).trans herrors) ?_
    · exact numberedOfAll_iff.mp
        (numbered_separatedBehind none sheet.children (numberedOfAll_iff.mpr hnumbered))
    · rw [separatedSheet, ← pieces_separatedBehind]
      exact Piece.split_spacedTokens hsound hsplit
  · rw [words_spacedTokens hsound (fun slot hslot => (hfits slot hslot).space), htokens]

/-- **All fixes of the rule together** set every block off from what stands in front of it by one blank
line, unless that is a comment or the block an `@else`. They do not conflict, the new text has no defects
and the same words, whitespace changes only in front of blocks that lack the blank line, and blocks that
start a line keep their indentation. Nothing is found then. -/
theorem blocks_separated (source : Text) (hok : (Parse.ofText source).isOk = true) :
    let sheet := (Parse.ofText source).sheet
    let fixes := (check source sheet).filterMap Finding.fix
    (fixes.Pairwise fun a b => a.conflicts b = false)
      ∧ ∃ out, Edit.applyAll? source (fixes.flatMap Fix.edits) = some out
        ∧ (Parse.ofText out).isOk = true
        ∧ words (ofText out) = words (ofText source)
        ∧ List.Forall₂ Respaced sheet.nodes (Parse.ofText out).sheet.nodes
        ∧ (∀ ns ∈ (Parse.ofText out).sheet.siblings, ns.IsChain Separated)
        ∧ check out (Parse.ofText out).sheet = [] := by
  intro sheet fixes
  obtain ⟨htree, hlegible, hwords, happly, hconflict⟩ := ofTokens_spacedTokens hok
  have hperm := (List.Perm.of_eq (edits_check source)).trans
    (edits_slotsBehind_perm none sheet.children).symm
  generalize SpaceSlot.spacedTokens (slotsBehind none sheet.children) sheet.trailing = ts
    at htree hlegible hwords happly
  have hout : (ofText (text ts)).map Token.bare = ts.map Token.bare := (legible_iff .start).mp hlegible
  have hbare : (Parse.ofText (text ts)).sheet.bare = (separatedSheet sheet).bare := by
    rw [← htree]
    exact Stylesheet.bare_eq_of_map_bare hout
  have hsame : words (ofText (text ts)) = words (ofText source) :=
    (words_eq_of_map_bare hout).trans hwords
  have hchain := isChain_siblings_of_bare hbare
  refine ⟨Edit.pairwise_conflicts_of_edits (Edit.pairwise_conflicts_perm hperm hconflict), text ts,
    Edit.applyAll?_of_perm happly hperm hconflict, ?_, hsame,
    respaced_of_bare hbare (Stylesheet.forall₂_skeleton hsame), hchain, ?_⟩
  · obtain ⟨hclean, herrors⟩ := (Parse.isOk_iff (ofText source)).mp hok
    refine (Parse.isOk_eq_of_map_bare hout).trans ((Parse.isOk_iff ts).mpr ⟨?_, ?_⟩)
    · rw [Parse.tokenErrors_eq_nil_iff] at hclean ⊢
      exact Tokens.kind_ne_error_of_words_eq hwords hclean
    · rw [htree]
      exact (errors_separatedBehind none sheet.children).trans herrors
  · exact List.flatMap_eq_nil_iff.mpr fun ns hns => siblingFindings_eq_nil (hchain ns hns)

namespace Nested

/-- A block right behind a declaration, one on the next line, and one behind a comment. -/
def dense : Text := "a\x7bx:y;b\x7b\x7d\n  c\x7b\x7d\x7d// d\ne\x7b\x7d".toList

/-- The blocks set off; the one behind the comment stays with it. -/
def spread : Text := "a\x7bx:y;\n\nb\x7b\x7d\n\n  c\x7b\x7d\x7d// d\ne\x7b\x7d".toList

theorem isOk_dense : (Parse.ofText dense).isOk = true := by cbv

theorem edits_dense :
    ((check dense (Parse.ofText dense).sheet).filterMap Finding.fix).flatMap Fix.edits =
      [⟨6, 6, ['\n', '\n']⟩, ⟨9, 10, ['\n', '\n']⟩] := by cbv

theorem applyAll?_dense :
    Edit.applyAll? dense [⟨6, 6, ['\n', '\n']⟩, ⟨9, 10, ['\n', '\n']⟩] = some spread := by cbv

end Nested

/-- A blank line is put in, and another one above an indentation. -/
theorem blocks_separated_nested :
    let sheet := (Parse.ofText Nested.dense).sheet
    let sheet' := (Parse.ofText Nested.spread).sheet
    (Parse.ofText Nested.dense).isOk = true ∧ (Parse.ofText Nested.spread).isOk = true
      ∧ words (ofText Nested.spread) = words (ofText Nested.dense)
      ∧ List.Forall₂ Respaced sheet.nodes sheet'.nodes
      ∧ (∀ ns ∈ sheet'.siblings, ns.IsChain Separated) ∧ check Nested.spread sheet' = [] := by
  intro sheet sheet'
  obtain ⟨-, out, happly, hok, hwords, hnodes, hchain, hnone⟩ :=
    blocks_separated Nested.dense Nested.isOk_dense
  rw [Nested.edits_dense, Nested.applyAll?_dense, Option.some.injEq] at happly
  subst happly
  exact ⟨Nested.isOk_dense, hok, hwords, hnodes, hchain, hnone⟩

end SheetLint.EmptyLineBetweenRules
