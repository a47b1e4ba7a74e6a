import SheetLint.Proofs.Edit.Slots
import SheetLint.Proofs.Rule.Reordering
import SheetLint.Proofs.Token.Cuts
import SheetLint.Proofs.Tree.Siblings

/-!
# Statements that change places keep their words

Each statement of a run takes the place of another and ends with a semicolon there, so it is read as
before, whatever comes behind it. In front of the run stands a closed token, or a line comment with
its line break. So a fix of the rule about the order of declarations puts the words of a text in
another order, and neither adds nor drops one.

Results:
* `Tokens.exists_ofTextAt_endsClosed`: what ends with a closed token or a line comment is read alike
  in front of another text.
* `PropertyOrder.substituted_slots`: what the edits of a run give.
* `PropertyOrder.words_perm`: the words are the same, up to their order.
-/

namespace SheetLint

/-! ## Behind a line comment -/

namespace Tokens

variable {front after : List Token} {s s' : Text} {place : Position}

/-- **What ends with a closed token, or with a line comment and a line break behind it, is read
alike in front of another text.** -/
theorem exists_ofTextAt_endsClosed (h : ofTextAt place (text front ++ s) = front ++ after)
    (hclosed : EndsClosed front)
    (hbreak : (∃ last ∈ front.getLast?, last.kind = .lineComment) →
      Scan.startsWith Scan.isLineBreak s' = true) (place' : Position) :
    ∃ front' place'', ofTextAt place' (text front ++ s') = front' ++ ofTextAt place'' s'
      ∧ front'.map Token.bare = front.map Token.bare := by
  obtain ⟨last, hlast, hends⟩ := hclosed
  obtain ⟨before, rfl⟩ := List.getLast?_eq_some_iff.mp hlast
  have hread : ofTextAt place (text before ++ (last.text ++ s)) = before ++ last :: after := by
    simpa using h
  rw [text_append, text_cons, text_nil, List.append_nil, List.append_assoc]
  rcases hends with hend | hline
  · exact exists_ofTextAt_closed hend hread place' s'
  · obtain ⟨d, t, rfl, hd⟩ := Scan.exists_eq_cons_of_startsWith (hbreak ⟨last, hlast, hline⟩)
    obtain ⟨c, w, htext, hscan⟩ := exists_scan_of_ofTextAt hread
    rw [hline] at hscan
    have hcomment := Scan.kindAndLength_lineComment_stop (t := t) hscan hd
    obtain ⟨rfl, -, -⟩ := Scan.kindAndLength_commentMark (.inl (by rw [hscan]))
    rw [htext, List.cons_append] at hread ⊢
    obtain ⟨front', place'', hfront, hbare⟩ :=
      exists_ofTextAt_of_head rfl rfl hread place' (w ++ d :: t)
    rw [ofTextAt_eq_cons place'' hcomment] at hfront
    refine ⟨front' ++ [⟨.lineComment, '/' :: w, ⟨place'', place''.advance ('/' :: w)⟩⟩],
      place''.advance ('/' :: w), ?_, ?_⟩
    · rw [hfront, List.append_assoc]
      rfl
    · rw [List.map_append, List.map_append, hbare, List.map_singleton, List.map_singleton,
        Token.bare, Token.bare, htext, hline]

end Tokens

namespace PropertyOrder

open Tokens Edit Node

variable {source out : Text} {o : Options} {n : Node} {run : List Ranked} {front back : List Token}

/-! ## Statements read behind each other -/

/-- The whitespace in front of a node. -/
theorem isBlank_leading (hn : n ∈ (Parse.ofText source).sheet.nodes) : (text n.leading).IsBlank := by
  obtain ⟨before, after, h⟩ := Parse.tokens_isInfix hn
  rw [n.tokens_eq_leading_append_content] at h
  have hread : ofTextAt .start source = before ++ (n.leading ++ (n.content ++ after)) := by
    rw [← Tokens.ofText, ← h]
    simp
  exact isBlank_text_of_isSpace hread (Parse.isSpace_leading hn)

/-- A statement with semicolon is read as before, whatever stands behind it. -/
theorem words_content_append (hn : n ∈ (Parse.ofText source).sheet.nodes) (hs : hasSemicolon n = true)
    (s : Text) (place place' : Position) :
    words (ofTextAt place (text n.content ++ s)) = words n.content ++ words (ofTextAt place' s) := by
  obtain ⟨leading, level, statement, first, tail, semicolon, rfl, hread, hclosed⟩ :=
    exists_closed hn hs
  obtain ⟨place'', after, hstands⟩ := hclosed.stands
  rw [text_append, text_cons (t := semicolon)] at hstands
  have hlast := isClosed_of_isPunct (.inr (.inr rfl)) hclosed.isPunct
  obtain ⟨front', behind, hfront, hbare⟩ := exists_ofTextAt_closed hlast hstands place s
  simp only [Node.content, hread.tokens_eq]
  rw [text_append, text_cons (t := semicolon), text_nil, List.append_nil, List.append_assoc, hfront,
    words_append, words_eq_of_map_bare hbare, words_ofTextAt place' behind]

/-- A statement with semicolon does not start with a closing brace. -/
theorem not_isPunct_of_hasSemicolon (hn : n ∈ (Parse.ofText source).sheet.nodes)
    (hs : hasSemicolon n = true) : ¬ ∃ brace ∈ n.content.head?, brace.isPunct '\x7d' = true := by
  obtain ⟨leading, level, statement, first, tail, semicolon, rfl, hread, -⟩ := exists_closed hn hs
  rintro ⟨brace, hbrace, hpunct⟩
  simp only [Node.content, hread.tokens_eq] at hbrace
  cases hbrace
  exact Bool.false_ne_true (hread.isPunct_first.symm.trans hpunct)

/-! ## Slots -/

/-- The slots of a run: each node with the node that takes its place, if another does. -/
def slots (run : List Ranked) : List (Node × Option Node) :=
  (run.zip (sortedOrder (run.map Prod.snd))).zipIdx.map fun ((target, source), slot) =>
    (target.1, if source = slot then none else run[source]?.map Prod.fst)

/-- The node that stands in a slot after the moves. -/
def settled (slot : Node × Option Node) : Node := slot.2.getD slot.1

/-- The edit for a slot, if another node takes it. -/
def slotEdit? (slot : Node × Option Node) : Option Edit := slot.2.bind (moveEdit slot.1)

theorem edits_eq (run : List Ranked) : edits run = (slots run).filterMap slotEdit? := by
  rw [edits, moves, slots, List.filterMap_map, List.filterMap_filterMap]
  refine List.filterMap_congr fun slot _ => ?_
  obtain ⟨⟨target, source⟩, i⟩ := slot
  simp only [Function.comp_apply, slotEdit?]
  split
  · rfl
  · cases run[source]? <;> rfl

theorem map_fst_slots (run : List Ranked) : (slots run).map Prod.fst = run.map Prod.fst := by
  have hzip : (run.zip (sortedOrder (run.map Prod.snd))).zipIdx.map (fun slot => slot.1.1) = run := by
    have hfirst := List.map_fst_zip (Nat.le_of_eq (length_sortedOrder run).symm)
    rw [← List.zipIdx_map_fst 0 (run.zip _), List.map_map] at hfirst
    exact hfirst
  conv_rhs => rw [← hzip]
  rw [slots, List.map_map, List.map_map]
  rfl

/-- In each slot stands the node that the order puts there. -/
theorem map_settled_slots (run : List Ranked) : ((slots run).map settled).map some =
    (sortedOrder (run.map Prod.snd)).map fun j => run[j]?.map Prod.fst := by
  refine List.ext_getElem? fun i => ?_
  simp only [slots, List.getElem?_map, List.getElem?_zipIdx, Nat.zero_add]
  cases hi : run[i]? with
  | none =>
    have hlong := List.getElem?_eq_none_iff.mp hi
    have horder : (sortedOrder (run.map Prod.snd))[i]? = none :=
      List.getElem?_eq_none_iff.mpr (by rwa [length_sortedOrder])
    have hzip : (run.zip (sortedOrder (run.map Prod.snd)))[i]? = none :=
      List.getElem?_eq_none_iff.mpr (by rw [List.length_zip]; omega)
    rw [hzip, horder]
    rfl
  | some target =>
    obtain ⟨j, moved, horder, hj⟩ := exists_moved hi
    have hzip : (run.zip (sortedOrder (run.map Prod.snd)))[i]? = some (target, j) :=
      List.getElem?_zip_eq_some.mpr ⟨hi, horder⟩
    rw [hzip, horder]
    simp only [Option.map_some, hj, settled]
    split
    · rename_i hsame
      rw [hsame, hi] at hj
      cases hj
      rfl
    · rfl

/-- **After the moves the nodes of a run stand in its slots.** -/
theorem settled_perm (run : List Ranked) :
    ((slots run).map settled).Perm (run.map Prod.fst) := by
  have hrange : (List.range (run.map Prod.snd).length).map (fun j => run[j]?.map Prod.fst) =
      (run.map Prod.fst).map some := by
    refine List.ext_getElem? fun i => ?_
    simp only [List.getElem?_map, List.length_map]
    by_cases hi : i < run.length
    · simp [hi]
    · simp [hi]
  refine (List.map_perm_map_iff (Option.some_injective _)).mp ?_
  rw [map_settled_slots, ← hrange]
  exact (sortedOrder_perm _).map _

/-! ## The text after the moves -/

/-- The text of the slots after the moves. -/
def settledText (slots : List (Node × Option Node)) : Text :=
  slots.flatMap fun slot => text slot.1.leading ++ text (settled slot).content

/-- The tokens of a slot. -/
def tokenSlot (slot : Node × Option Node) : TokenSlot :=
  ⟨slot.1.leading, slot.1.content, slot.2.map Node.content⟩

theorem edit?_tokenSlot (slot : Node × Option Node) : (tokenSlot slot).edit? = slotEdit? slot := by
  rw [tokenSlot, TokenSlot.edit?, slotEdit?, Option.bind_map]
  rfl

theorem tokens_tokenSlot (slot : Node × Option Node) : (tokenSlot slot).tokens = slot.1.tokens :=
  slot.1.tokens_eq_leading_append_content.symm

theorem text_filled_tokenSlot (slot : Node × Option Node) :
    text (tokenSlot slot).filled = text slot.1.leading ++ text (settled slot).content := by
  rw [TokenSlot.filled, text_append, tokenSlot, settled]
  cases slot.2 <;> rfl

/-- **What the edits of a run give**: each slot holds the text of its new node. -/
theorem substituted_slots {slots : List (Node × Option Node)}
    (hsplit : ofText source = front ++ (tokensOfAll (slots.map Prod.fst) ++ back))
    (hne : ∀ slot ∈ slots, slot.1.content ≠ []) :
    Substituted (text front).size (text (tokensOfAll (slots.map Prod.fst) ++ back))
      (slots.filterMap slotEdit?) (settledText slots ++ text back) := by
  have htokens :
      (slots.map tokenSlot).flatMap TokenSlot.tokens = tokensOfAll (slots.map Prod.fst) := by
    rw [tokensOfAll_eq_flatMap, List.flatMap_map, List.flatMap_map]
    exact List.flatMap_congr fun slot _ => tokens_tokenSlot slot
  have hedits : (slots.map tokenSlot).filterMap TokenSlot.edit? = slots.filterMap slotEdit? := by
    rw [List.filterMap_map]
    exact List.filterMap_congr fun slot _ => edit?_tokenSlot slot
  have hfilled : text ((slots.map tokenSlot).flatMap TokenSlot.filled ++ back) =
      settledText slots ++ text back := by
    rw [text_append, settledText, text, List.flatMap_assoc, List.flatMap_map]
    exact congrArg (· ++ text back) (List.flatMap_congr fun slot _ => text_filled_tokenSlot slot)
  rw [← htokens] at hsplit ⊢
  have hgiven := substituted_filled hsplit (List.forall_mem_map.mpr hne)
  rwa [hedits, hfilled] at hgiven

/-- The words of the slots after the moves. -/
theorem words_settledText {slots : List (Node × Option Node)}
    (hleading : ∀ slot ∈ slots, (text slot.1.leading).IsBlank)
    (hmem : ∀ slot ∈ slots, settled slot ∈ (Parse.ofText source).sheet.nodes
      ∧ hasSemicolon (settled slot) = true) (s : Text) (place place' : Position) :
    words (ofTextAt place (settledText slots ++ s)) =
      (slots.map settled).flatMap (fun n => words n.content) ++ words (ofTextAt place' s) := by
  induction slots generalizing place with
  | nil => exact words_ofTextAt place' place s
  | cons slot slots ih =>
    rw [List.forall_mem_cons] at hleading hmem
    rw [settledText, List.flatMap_cons, List.append_assoc, List.append_assoc,
      words_blank_append hleading.1 place place, words_content_append hmem.1.1 hmem.1.2 _ place place,
      List.map_cons, List.flatMap_cons, List.append_assoc]
    exact congrArg _ (ih hleading.2 hmem.2 place)

/-- What is known of the slots of a run whose statements end with semicolons. -/
theorem Movable.settled_mem (h : Movable source o run) {slot : Node × Option Node}
    (hslot : slot ∈ slots run) : settled slot ∈ (Parse.ofText source).sheet.nodes
      ∧ hasSemicolon (settled slot) = true := by
  obtain ⟨x, hx, hsettled⟩ := List.mem_map.mp
    ((settled_perm run).subset (List.mem_map_of_mem hslot))
  rw [← hsettled]
  exact ⟨h.nodes x hx, h.closed x hx⟩

theorem Movable.slot_mem (h : Movable source o run) {slot : Node × Option Node}
    (hslot : slot ∈ slots run) : slot.1 ∈ (Parse.ofText source).sheet.nodes
      ∧ slot.1.content ≠ [] := by
  have hfirst : slot.1 ∈ run.map Prod.fst := by
    rw [← map_fst_slots]
    exact List.mem_map_of_mem hslot
  obtain ⟨x, hx, heq⟩ := List.mem_map.mp hfirst
  rw [← heq]
  exact ⟨h.nodes x hx, h.content_ne_nil hx⟩

/-! ## Words in another order -/

/-- Behind a line comment the whitespace in front of a node starts with a line break. -/
theorem startsWith_leading {ns : List Node} (h : Placed source front (n :: ns) back)
    (hline : ∃ last ∈ front.getLast?, last.kind = .lineComment) :
    Scan.startsWith Scan.isLineBreak (text n.leading) = true := by
  obtain ⟨last, hlast, hkind⟩ := hline
  obtain ⟨before, rfl⟩ := List.getLast?_eq_some_iff.mp hlast
  obtain ⟨first, hfirst, hword⟩ :=
    (Stylesheet.delimited_of_mem_nodes (h.mem n List.mem_cons_self)).head
  obtain ⟨more, hcontent⟩ := List.head?_eq_some_iff.mp hfirst
  have hread : ofTextAt .start source =
      before ++ last :: (n.leading ++ (first :: (more ++ (tokensOfAll ns ++ back)))) := by
    rw [← ofText, h.split, tokensOfAll, n.tokens_eq_leading_append_content, hcontent]
    simp
  have hbreak := isLineBreak_of_lineComment hread hkind (by simp)
  have hnext : ofTextAt .start source =
      (before ++ last :: n.leading) ++ first :: (more ++ (tokensOfAll ns ++ back)) := by
    rw [hread]
    simp
  rw [text_append] at hbreak
  by_cases hnil : text n.leading = []
  · -- the first word would start with the line break
    rw [hnil, List.nil_append, text_cons, Scan.startsWith_append
      (ne_nil_of_mem_ofTextAt (by rw [hnext]; simp))] at hbreak
    have hblank := (isSpace_head_iff hnext).mp (Scan.isSpace_of_isLineBreak hbreak)
    rw [hword] at hblank
    cases hblank
  · rwa [Scan.startsWith_append hnil] at hbreak

theorem words_tokensOfAll {ns : List Node} (h : ∀ n ∈ ns, IsSpace n.leading) :
    words (tokensOfAll ns) = ns.flatMap fun n => words n.content := by
  induction ns with
  | nil => rfl
  | cons n ns ih =>
    rw [List.forall_mem_cons] at h
    rw [tokensOfAll, words_append, n.tokens_eq_leading_append_content, words_append,
      words_of_isSpace h.1, List.nil_append, ih h.2, List.flatMap_cons]

/-- The text that the fix of a run gives. -/
theorem Movable.eq_of_applyAll? (h : Movable source o run)
    (hplaced : Placed source front (run.map Prod.fst) back) (hmoves : moves run ≠ [])
    (happly : applyAll? source (edits run) = some out) :
    out = text front ++ (settledText (slots run) ++ text back) := by
  have happlicable : Fix.Applicable source ⟨"", edits run⟩ := h.applicable hmoves
  have hle : ∀ e ∈ edits run, e.start ≤ e.stop := fun e he => (happlicable.inText e he).1
  have hsorted : (edits run).Pairwise fun a b => walksBefore a b = true := by
    refine h.pairwise_edits.imp_of_mem fun {a b} ha hb hab => ?_
    have ha := hle a ha
    have hb := hle b hb
    rw [walksBefore_eq_true_iff]
    omega
  have hwalk := substituted_of_applyAll? happly happlicable.apart
  rw [← eq_inOrder happlicable.apart hle (List.Perm.refl _) hsorted, edits_eq] at hwalk
  have hsplit := hplaced.split
  rw [← map_fst_slots] at hsplit
  have hslots := substituted_slots hsplit fun slot hslot => (h.slot_mem hslot).2
  rw [← Nat.zero_add (text front).size] at hslots
  have hmade := hslots.keep
  rw [← text_append, ← hsplit, text_ofText] at hmade
  exact hwalk.unique hmade

/-- **Statements that change places keep their words**, which stand in another order then. -/
theorem Movable.words_perm (h : Movable source o run)
    (hplaced : Placed source front (run.map Prod.fst) back) (hmoves : moves run ≠ [])
    (happly : applyAll? source (edits run) = some out) :
    (words (ofText out)).Perm (words (ofText source)) := by
  obtain ⟨x, xs, rfl⟩ : ∃ x xs, run = x :: xs :=
    List.exists_cons_of_ne_nil fun hnil => hmoves (by rw [hnil]; rfl)
  obtain rfl := h.eq_of_applyAll? hplaced hmoves happly
  have hx := List.mem_cons_self (a := x) (l := xs)
  have hclosed : EndsClosed front := (hplaced.apart x.1 rfl).resolve_right
    (not_isPunct_of_hasSemicolon (h.nodes x hx) (h.closed x hx))
  have hbreak (hline : ∃ last ∈ front.getLast?, last.kind = .lineComment) :
      Scan.startsWith Scan.isLineBreak (settledText (slots (x :: xs)) ++ text back) = true := by
    obtain ⟨d, t, hd, hbreak⟩ := Scan.exists_eq_cons_of_startsWith (startsWith_leading hplaced hline)
    obtain ⟨slot, slots', hslots⟩ : ∃ slot slots', slots (x :: xs) = slot :: slots' :=
      List.exists_cons_of_ne_nil fun hnil => by
        have hlength := congrArg List.length (map_fst_slots (x :: xs))
        rw [hnil] at hlength
        cases hlength
    have hfirst := map_fst_slots (x :: xs)
    rw [hslots, List.map_cons, List.map_cons, List.cons.injEq] at hfirst
    rw [hslots, settledText, List.flatMap_cons, hfirst.1, hd]
    exact hbreak
  have hread : ofTextAt .start (text front ++ text (tokensOfAll ((x :: xs).map Prod.fst) ++ back)) =
      front ++ (tokensOfAll ((x :: xs).map Prod.fst) ++ back) := by
    rw [← text_append, ← hplaced.split, text_ofText]
    rfl
  obtain ⟨front', place, hfront, hbare⟩ := exists_ofTextAt_endsClosed hread hclosed hbreak .start
  have hback : words (ofTextAt place (text back)) = words back := by
    have hend : ofTextAt .start source =
        (front ++ tokensOfAll ((x :: xs).map Prod.fst)) ++ back := by
      rw [← ofText, hplaced.split, List.append_assoc]
    obtain ⟨place', hplace⟩ := exists_ofTextAt_of_append hend
    rw [words_ofTextAt place' place, hplace]
  rw [ofText, hfront, words_append, words_eq_of_map_bare hbare, words_settledText
    (fun slot hslot => isBlank_leading (h.slot_mem hslot).1) (fun slot => h.settled_mem) _ place
    place, hback, hplaced.split, words_append, words_append, words_tokensOfAll
    fun n hn => Parse.isSpace_leading (hplaced.mem n hn)]
  exact List.Perm.append_left _ (((settled_perm _).flatMap_right _).append_right _)

/-- The nodes of a run stand side by side in the text. -/
theorem exists_placed_run {body : Body} (hn : n ∈ (Parse.ofText source).sheet.nodes)
    (hbody : n.body? = some body) (hrun : run ∈ runs o body.children) :
    ∃ front back, Placed source front (run.map Prod.fst) back := by
  cases n with
  | statement => cases hbody
  | block =>
    cases hbody
    obtain ⟨front, back, hplaced⟩ := exists_placed hn
    obtain ⟨before, after, hnodes⟩ := ((runOf_of_mem_runs o _).1 run hrun).nodes
    simp only at hnodes
    rw [← hnodes, List.append_assoc] at hplaced
    exact ⟨_, _, hplaced.drop.take⟩

/-- **The fixes of the rule keep the words of the text**, up to their order. -/
theorem words_perm {f : Finding} {fix : Fix}
    (hf : f ∈ check o source (Parse.ofText source).sheet) (hfix : f.fix = some fix)
    (happly : applyAll? source fix.edits = some out) :
    (words (ofText out)).Perm (words (ofText source)) := by
  obtain ⟨n, hn, body, hbody, run, hrun, ⟨move, hmove, -⟩, hedits⟩ := exists_of_mem_check hf
  obtain ⟨hclosed, rfl⟩ := hedits fix hfix
  obtain ⟨front, back, hplaced⟩ := exists_placed_run hn hbody hrun
  exact Movable.words_perm (o := o) (.of_mem_runs hn hbody hrun hclosed) hplaced
    (List.ne_nil_of_mem hmove) happly

/-- Among the words are the comments. -/
theorem comments_perm {f : Finding} {fix : Fix}
    (hf : f ∈ check o source (Parse.ofText source).sheet) (hfix : f.fix = some fix)
    (happly : applyAll? source fix.edits = some out) :
    (comments (ofText out)).Perm (comments (ofText source)) := by
  rw [← comments_words, ← comments_words (ofText source)]
  exact ((words_perm hf hfix happly).filter _).map _

end PropertyOrder

end SheetLint
