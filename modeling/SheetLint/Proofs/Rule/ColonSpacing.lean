import SheetLint.Proofs.Edit.Respacing
import SheetLint.Proofs.Edit.Tokens
import SheetLint.Proofs.Token.Colons
import SheetLint.Proofs.Tree.Colons
import SheetLint.Rule.DeclarationSpacing

/-!
# What spacing the colons of declarations does to a text

The rule about colons drops the whitespace in front of one and puts a single space behind it, by an edit
of one token each. Any of its fixes may be applied together. The words of the text stay exactly when no
whitespace is dropped behind a backslash, which would escape the colon; and then the declarations are the
old ones with other whitespace around their colons. With all fixes only comments in front of a colon
are left to report.

Results:
* `DeclarationSpacing.fixes_check`: the fixes are one for each mark.
* `DeclarationSpacing.flatMap_tidied`: tidied tokens, as tokens with other declarations.
* `DeclarationSpacing.words_spaced_iff`: what any of the fixes make of a text.
* `DeclarationSpacing.colon_joins_backslash`: a colon that becomes a part of a name.
-/

namespace SheetLint.DeclarationSpacing

open Tokens

variable {source : Text} {sheet : Stylesheet} {ts : List Token} {t : Token} {d : Declaration}

/-! ## Marks -/

/-- A token that the rule has dropped, or else one that a single space takes the place of or is put
behind. -/
structure Mark where
  token : Token
  dropped : Bool
deriving DecidableEq

/-- The edit of the token. -/
def Mark.edit (m : Mark) : Edit :=
  if m.dropped then ⟨m.token.start, m.token.stop, []⟩
  else if m.token.isWhitespace then ⟨m.token.start, m.token.stop, [' ']⟩
  else .insert m.token.stop [' ']

/-- The fix by this edit. -/
def Mark.fix (m : Mark) : Fix :=
  ⟨if m.dropped then "Remove whitespace before `:`" else "Put one space after `:`", [m.edit]⟩

/-- The whitespace in front of the colon, if nothing else stands there. -/
def dropsOf (d : Declaration) : List Token :=
  if d.beforeColon.all Token.isWhitespace then d.beforeColon else []

/-- The whitespace behind the colon, or the colon, if a single space belongs there. -/
def spacesOf (d : Declaration) : List Token :=
  if d.value.isEmpty || isWellSpaced d.afterColon then []
  else if d.afterColon.isEmpty then [d.colon] else d.afterColon

/-- The marks of a declaration. -/
def marksOf (d : Declaration) : List Mark :=
  (dropsOf d).map (Mark.mk · true) ++ (spacesOf d).map (Mark.mk · false)

/-- The marks of all declarations. -/
def marks (sheet : Stylesheet) : List Mark := sheet.declarations.flatMap marksOf

theorem mem_marksOf_iff {m : Mark} : m ∈ marksOf d ↔
    m.dropped = true ∧ m.token ∈ dropsOf d ∨ m.dropped = false ∧ m.token ∈ spacesOf d := by
  obtain ⟨t, dropped⟩ := m
  cases dropped <;> simp [marksOf]

theorem mem_dropsOf_iff : t ∈ dropsOf d ↔ t ∈ d.beforeColon ∧ IsSpace d.beforeColon := by
  unfold dropsOf
  split
  · rename_i hall
    exact (and_iff_left (List.all_eq_true.mp hall)).symm
  · rename_i hall
    have hnot : ¬ IsSpace d.beforeColon := fun h => hall (List.all_eq_true.mpr h)
    simp [hnot]

theorem mem_spacesOf_iff : t ∈ spacesOf d ↔ d.value ≠ [] ∧ isWellSpaced d.afterColon = false
    ∧ (d.afterColon = [] ∧ t = d.colon ∨ t ∈ d.afterColon) := by
  unfold spacesOf
  cases hvalue : d.value with
  | nil => simp
  | cons u value =>
    cases hspaced : isWellSpaced d.afterColon with
    | true => simp
    | false => cases hafter : d.afterColon <;> simp

/-- The tokens of the marks of a declaration stand around its colon. -/
theorem mem_of_mem_marksOf {m : Mark} (h : m ∈ marksOf d) :
    m.token ∈ d.beforeColon ++ d.colon :: d.afterColon := by
  rcases mem_marksOf_iff.mp h with ⟨-, hdrop⟩ | ⟨-, hspace⟩
  · exact List.mem_append_left _ (mem_dropsOf_iff.mp hdrop).1
  · refine List.mem_append_right _ ?_
    rcases (mem_spacesOf_iff.mp hspace).2.2 with ⟨-, hcolon⟩ | hafter
    · exact List.mem_cons.mpr (.inl hcolon)
    · exact List.mem_cons_of_mem _ hafter

theorem tokens_marksOf_sublist (d : Declaration) : ((marksOf d).map Mark.token).Sublist d.tokens := by
  have hdrops : (dropsOf d).Sublist d.beforeColon := by
    unfold dropsOf
    split
    · exact .refl _
    · exact List.nil_sublist _
  have hspaces : (spacesOf d).Sublist (d.colon :: d.afterColon) := by
    unfold spacesOf
    split
    · exact List.nil_sublist _
    · split
      · exact List.singleton_sublist.mpr List.mem_cons_self
      · exact List.sublist_cons_self _ _
  have hmap : (marksOf d).map Mark.token = dropsOf d ++ spacesOf d := by
    simp [marksOf, Function.comp_def]
  rw [hmap]
  refine (hdrops.append hspaces).trans (List.IsInfix.sublist ⟨d.property,
    d.value ++ d.beforeSemicolon ++ d.semicolon.toList, ?_⟩)
  simp [Declaration.tokens]

theorem tokens_marks_sublist (ts : List Token) :
    ((marks (Stylesheet.ofTokens ts)).map Mark.token).Sublist ts := by
  refine List.Sublist.trans ?_ (Stylesheet.declarations_sublist ts)
  rw [marks]
  induction (Stylesheet.ofTokens ts).declarations with
  | nil => exact .slnil
  | cons d ds ih =>
    rw [List.flatMap_cons, List.map_append, List.flatMap_cons]
    exact (tokens_marksOf_sublist d).append ih

/-! ## Marks in a text -/

theorem eq_singleton_of_mem (ht : t ∈ ts) (hone : ts.length ≤ 1) : ts = [t] := by
  match ts with
  | [u] => rw [List.mem_singleton.mp ht]
  | _ :: _ :: _ => simp at hone

/-- How a declaration of a text stands in it. -/
theorem exists_cutInto (hd : d ∈ (Parse.ofText source).sheet.declarations) :
    ∃ before semicolon rest more, Piece.CutInto d semicolon rest
      ∧ ofText source = before ++ (d.property ++ d.beforeColon ++ d.colon :: (d.afterColon ++ rest))
          ++ more := by
  obtain ⟨before, first, tail, later, hsplit, -, hread⟩ := Stylesheet.exists_read_of_mem hd
  rw [(Piece.exists_of_read_declaration hread).2.1] at hread
  obtain ⟨ts, semicolon, more, hrun, -, hstatement⟩ := Piece.ofStatement_eq_iff.mp hread
  obtain ⟨rest, rfl, hcut⟩ := Piece.statementOf_eq_declaration_iff.mp hstatement
  refine ⟨before, semicolon, rest, semicolon.toList ++ more, hcut, ?_⟩
  rw [hsplit, hrun]
  exact (List.append_assoc _ _ _).symm

/-- Around the colon of a declaration stands at most one token of whitespace on each side. -/
theorem length_le_one (hd : d ∈ (Parse.ofText source).sheet.declarations) :
    (IsSpace d.beforeColon → d.beforeColon.length ≤ 1) ∧ d.afterColon.length ≤ 1 := by
  obtain ⟨before, semicolon, rest, more, hcut, hsource⟩ := exists_cutInto hd
  have hfront : d.beforeColon <:+: ofText source :=
    ⟨before ++ d.property, d.colon :: (d.afterColon ++ rest) ++ more, by rw [hsource]; simp⟩
  have hback : d.afterColon <:+: ofText source :=
    ⟨before ++ d.property ++ d.beforeColon ++ [d.colon], rest ++ more, by rw [hsource]; simp⟩
  exact ⟨length_le_one_of_isInfix hfront, length_le_one_of_isInfix hback hcut.afterColon⟩

theorem isPunct_colon (hd : d ∈ (Parse.ofText source).sheet.declarations) :
    d.colon.isPunct ':' = true := by
  obtain ⟨before, semicolon, rest, more, hcut, hsource⟩ := exists_cutInto hd
  exact Piece.isPunct_of_cutAtColon? hcut.cut

/-- The fixes for a declaration are one for each of its marks. -/
theorem fixes_declaration (hd : d ∈ (Parse.ofText source).sheet.declarations) :
    (beforeFinding d ++ afterFinding d).filterMap Finding.fix = (marksOf d).map Mark.fix := by
  obtain ⟨hbefore, hafter⟩ := length_le_one hd
  have hspace : IsSpace d.afterColon := Stylesheet.isSpace_afterColon hd
  have hfront : (beforeFinding d).filterMap Finding.fix =
      ((dropsOf d).map (Mark.mk · true)).map Mark.fix := by
    unfold beforeFinding dropsOf
    cases hall : d.beforeColon.all Token.isWhitespace with
    | false => cases span? d.beforeColon <;> simp
    | true =>
      have hone := hbefore (List.all_eq_true.mp hall)
      match hcolon : d.beforeColon with
      | [] => rfl
      | [t] => rfl
      | _ :: _ :: _ => simp [hcolon] at hone
  have hback : (afterFinding d).filterMap Finding.fix =
      ((spacesOf d).map (Mark.mk · false)).map Mark.fix := by
    unfold afterFinding spacesOf
    split
    · rfl
    · match hcolon : d.afterColon with
      | [] =>
        have hword := (Token.isWord_of_colon (isPunct_colon hd)).1
        simp [Mark.fix, Mark.edit, hword, Edit.replaceRun]
      | [t] =>
        have hblank := hspace t (by simp [hcolon])
        simp [Mark.fix, Mark.edit, hblank, Edit.replaceRun]
      | _ :: _ :: _ => simp [hcolon] at hafter
  rw [List.filterMap_append, hfront, hback, marksOf, List.map_append]

/-- **The fixes are one for each mark.** -/
theorem fixes_check (source : Text) :
    (check source (Parse.ofText source).sheet).filterMap Finding.fix =
      (marks (Parse.ofText source).sheet).map Mark.fix := by
  have hall : ∀ d ∈ (Parse.ofText source).sheet.declarations,
      (beforeFinding d ++ afterFinding d).filterMap Finding.fix = (marksOf d).map Mark.fix :=
    fun d => fixes_declaration
  rw [check, marks]
  generalize (Parse.ofText source).sheet.declarations = ds at hall
  induction ds with
  | nil => rfl
  | cons d ds ih =>
    rw [List.forall_mem_cons] at hall
    rw [List.flatMap_cons, List.filterMap_append, hall.1, ih hall.2, List.flatMap_cons, List.map_append]

/-- How the token of a mark stands in a text. -/
structure Mark.Placed (source : Text) (m : Mark) (front : List Token) (next : Token)
    (back : List Token) : Prop where
  split : ofText source = front ++ m.token :: next :: back
  word : next.isWhitespace = false
  dropped : m.dropped = true → m.token.isWhitespace = true ∧ next.isPunct ':' = true
  spaced : m.dropped = false → m.token.isPunct ':' = true
    ∨ m.token.isWhitespace = true ∧ ∃ colon ∈ front.getLast?, colon.isPunct ':' = true

theorem exists_placed {m : Mark} (hm : m ∈ marks (Parse.ofText source).sheet) :
    ∃ front next back, m.Placed source front next back := by
  obtain ⟨d, hd, hm⟩ := List.mem_flatMap.mp hm
  have hcolon := isPunct_colon hd
  obtain ⟨hbefore, hafter⟩ := length_le_one hd
  obtain ⟨before, semicolon, rest, more, hcut, hsource⟩ := exists_cutInto hd
  rcases mem_marksOf_iff.mp hm with ⟨hdropped, hdrop⟩ | ⟨hspaced, hspace⟩
  · obtain ⟨hmem, hblank⟩ := mem_dropsOf_iff.mp hdrop
    have hone := eq_singleton_of_mem hmem (hbefore hblank)
    refine ⟨before ++ d.property, d.colon, d.afterColon ++ rest ++ more, ?_,
      (Token.isWord_of_colon hcolon).1, fun _ => ⟨hblank m.token hmem, hcolon⟩, ?_⟩
    · rw [hsource, hone]
      simp
    · rw [hdropped]
      exact Bool.noConfusion
  · obtain ⟨hvalue, -, hplace⟩ := mem_spacesOf_iff.mp hspace
    obtain ⟨next, back, hrest⟩ : ∃ next back, rest = next :: back :=
      List.exists_cons_of_ne_nil fun hnil => hvalue (by rw [hcut.value, hnil]; rfl)
    have hword := hcut.head next (by rw [hrest]; rfl)
    rcases hplace with ⟨hnil, htoken⟩ | hmem
    · refine ⟨before ++ d.property ++ d.beforeColon, next, back ++ more, ?_, hword, ?_, fun _ => .inl ?_⟩
      · rw [hsource, hnil, hrest, htoken]
        simp
      · rw [hspaced]
        exact Bool.noConfusion
      · rw [htoken]
        exact hcolon
    · have hone := eq_singleton_of_mem hmem hafter
      refine ⟨before ++ d.property ++ d.beforeColon ++ [d.colon], next, back ++ more, ?_, hword, ?_,
        fun _ => .inr ⟨hcut.afterColon m.token hmem, d.colon, by simp, hcolon⟩⟩
      · rw [hsource, hone, hrest]
        simp
      · rw [hspaced]
        exact Bool.noConfusion

/-! ## Some of the marks -/

section

variable {ks : List Mark}

/-- Whether a token is one that is dropped. -/
def isDropped (ks : List Mark) (t : Token) : Bool := decide (Mark.mk t true ∈ ks)

/-- Whether a token is one that a space takes the place of or is put behind. -/
def isSpaced (ks : List Mark) (t : Token) : Bool := decide (Mark.mk t false ∈ ks)

theorem unmarked_of_not_mem {ks : List Mark} (h : ∀ dropped, Mark.mk t dropped ∉ ks) :
    isDropped ks t = false ∧ isSpaced ks t = false :=
  ⟨decide_eq_false (h true), decide_eq_false (h false)⟩

/-- The tokens of a text, tidied where some of the marks are. -/
def tidy (ks : List Mark) (source : Text) : List Token :=
  (ofText source).flatMap (Token.tidied (isDropped ks) (isSpaced ks))

/-- Marks of one token are the same. -/
theorem eq_of_token_eq (hks : ks.Sublist (marks (Parse.ofText source).sheet)) {m n : Mark} (hm : m ∈ ks)
    (hn : n ∈ ks) (htoken : m.token = n.token) : m = n := by
  have hsub := (hks.map Mark.token).trans (tokens_marks_sublist (ofText source))
  exact List.inj_on_of_nodup_map (hsub.nodup (nodup_ofText source)) hm hn htoken

theorem isDropped_token (hks : ks.Sublist (marks (Parse.ofText source).sheet)) {m : Mark} (hm : m ∈ ks) :
    isDropped ks m.token = m.dropped ∧ isSpaced ks m.token = !m.dropped := by
  have hiff (dropped : Bool) : Mark.mk m.token dropped ∈ ks ↔ dropped = m.dropped := by
    constructor
    · exact fun h => congrArg Mark.dropped (eq_of_token_eq hks h hm rfl)
    · rintro rfl
      exact hm
  simp only [isDropped, isSpaced, hiff]
  cases m.dropped <;> decide

/-- **Marks are where tokens may be tidied.** -/
theorem tidies (hks : ks.Sublist (marks (Parse.ofText source).sheet)) :
    Tidies (isDropped ks) (isSpaced ks) (ofText source) := by
  have hplaced {t : Token} {dropped : Bool} (h : Mark.mk t dropped ∈ ks) :
      ∃ front next back, (Mark.mk t dropped).Placed source front next back :=
    exists_placed (hks.subset h)
  refine ⟨fun t _ ht => ?_, fun t _ ht => ?_, fun t ht => ?_, ?_⟩
  · obtain ⟨front, next, back, h⟩ := hplaced (decide_eq_true_iff.mp ht)
    exact (h.dropped rfl).1
  · obtain ⟨front, next, back, h⟩ := hplaced (decide_eq_true_iff.mp ht)
    exact (h.spaced rfl).symm.imp_left And.left
  · -- behind a mark stands another token
    obtain ⟨init, hinit⟩ := List.getLast?_eq_some_iff.mp ht
    refine unmarked_of_not_mem fun dropped hmem => ?_
    obtain ⟨front, next, back, h⟩ := hplaced hmem
    cases (split_unique hinit h.split).2
  · refine List.isChain_iff_forall_rel_of_append_cons_cons.mpr ?_
    intro t next front back hsplit
    have hsplit' : ofText source = (front ++ [t]) ++ next :: back := by rw [hsplit]; simp
    refine ⟨fun ht => ?_, fun ht => ?_, fun hnext => ?_, fun hnext hblank => ?_⟩
    · obtain ⟨_, _, _, h⟩ := hplaced (decide_eq_true_iff.mp ht)
      cases (split_unique hsplit h.split).2
      exact (h.dropped rfl).2
    · obtain ⟨_, _, _, h⟩ := hplaced (decide_eq_true_iff.mp ht)
      cases (split_unique hsplit h.split).2
      exact h.word
    · obtain ⟨_, _, _, h⟩ := hplaced (decide_eq_true_iff.mp hnext)
      refine Bool.eq_false_iff.mpr fun ht => ?_
      have hword := (hsplit ▸ legible_ofText source).of_append.isWhitespace_of_space ht
      rw [(h.dropped rfl).1] at hword
      cases hword
    · obtain ⟨_, _, _, h⟩ := hplaced (decide_eq_true_iff.mp hnext)
      obtain ⟨rfl, -⟩ := split_unique hsplit' h.split
      rcases h.spaced rfl with hcolon | ⟨-, colon, hlast, hcolon⟩
      · rw [(Token.isWord_of_colon hcolon).1] at hblank
        cases hblank
      · rw [List.getLast?_concat, Option.mem_some_iff] at hlast
        rwa [hlast]

/-- No word is dropped. -/
theorem isDropped_of_word (hks : ks.Sublist (marks (Parse.ofText source).sheet)) (ht : t ∈ ofText source)
    (hword : t.isWhitespace = false) : isDropped ks t = false := by
  refine Bool.eq_false_iff.mpr fun hdropped => ?_
  rw [(tidies hks).blank t ht hdropped] at hword
  cases hword

/-- **What the edits of some marks give.** -/
theorem applyAll?_edits (hks : ks.Sublist (marks (Parse.ofText source).sheet)) :
    Edit.applyAll? source (ks.map Mark.edit) = some (text (tidy ks source)) := by
  have hsub := (hks.map Mark.token).trans (tokens_marks_sublist (ofText source))
  have hedits : ks.map Mark.edit =
      (ks.map Mark.token).map fun t => (Mark.mk t (isDropped ks t)).edit := by
    rw [List.map_map]
    refine List.map_congr_left fun m hm => ?_
    rw [Function.comp_apply, (isDropped_token hks hm).1]
  rw [hedits]
  refine Edit.applyAll?_map hsub (fun t _ hnot => ?_) fun t ht => ?_
  · obtain ⟨hdropped, hspaced⟩ := unmarked_of_not_mem fun dropped (h : Mark.mk t dropped ∈ ks) =>
      hnot (List.mem_map.mpr ⟨_, h, rfl⟩)
    rw [Token.tidied_of_kept hdropped hspaced]
    exact List.append_nil _
  · obtain ⟨m, hm, rfl⟩ := List.mem_map.mp ht
    obtain ⟨hdropped, hspaced⟩ := isDropped_token hks hm
    rw [hdropped, Token.tidied, hdropped, hspaced, Mark.edit]
    cases m.dropped with
    | true => exact ⟨[], m.token.text, rfl, rfl, rfl, rfl⟩
    | false =>
      cases m.token.isWhitespace with
      | true => exact ⟨[], m.token.text, rfl, rfl, rfl, rfl⟩
      | false => exact ⟨m.token.text, [], (List.append_nil _).symm, stop_eq (hsub.mem ht), rfl, rfl⟩

/-- Whitespace is dropped behind a word that goes on exactly where an edit is swallowed. -/
theorem dropsFreely_iff (hks : ks.Sublist (marks (Parse.ofText source).sheet)) :
    DropsFreely (isDropped ks) (ofText source) ↔ ∀ m ∈ ks, ¬ m.edit.IsSwallowed source := by
  rw [DropsFreely, List.isChain_iff_forall_rel_of_append_cons_cons]
  constructor
  · rintro hfree m hm ⟨-, t, ht, hstop, hends⟩
    obtain ⟨front, next, back, h⟩ := exists_placed (hks.subset hm)
    have hmem : m.token ∈ ofText source := by simp [h.split]
    have hnext : next ∈ ofText source := by simp [h.split]
    have hword (hcolon : t.isPunct ':' = true) : False := by
      rw [(Token.isWord_of_colon hcolon).2] at hends
      cases hends
    cases hdropped : m.dropped with
    | true =>
      rw [Mark.edit, hdropped] at hstop
      obtain ⟨before, after, hsplit⟩ := exists_split_of_stop_eq ht hmem hstop
      have hgone : isDropped ks m.token = true := by rw [(isDropped_token hks hm).1, hdropped]
      rw [hfree hsplit hgone] at hends
      cases hends
    | false =>
      cases hblank : m.token.isWhitespace with
      | true =>
        rw [Mark.edit, hdropped, hblank] at hstop
        obtain ⟨before, after, hsplit⟩ := exists_split_of_stop_eq ht hmem hstop
        rw [List.append_cons] at hsplit
        obtain ⟨rfl, -⟩ := split_unique hsplit h.split
        rcases h.spaced hdropped with hcolon | ⟨-, colon, hlast, hcolon⟩
        · rw [(Token.isWord_of_colon hcolon).1] at hblank
          cases hblank
        · rw [List.getLast?_concat, Option.mem_some_iff] at hlast
          exact hword (hlast ▸ hcolon)
      | false =>
        rw [Mark.edit, hdropped, hblank] at hstop
        have hsplit := h.split
        have hstart : t.stop = next.start := hstop.trans (start_eq_stop hsplit).symm
        obtain ⟨before, after, hsplit'⟩ := exists_split_of_stop_eq ht hnext hstart
        rw [List.append_cons] at hsplit hsplit'
        have hsame := (split_unique hsplit' hsplit).1
        have htoken : t = m.token := (List.append_inj' hsame rfl).2 |> List.singleton_inj.mp
        rcases h.spaced hdropped with hcolon | ⟨hspace, -⟩
        · exact hword (htoken ▸ hcolon)
        · rw [hspace] at hblank
          cases hblank
  · intro hfree t next front back hsplit hdropped
    have hmem : Mark.mk next true ∈ ks := decide_eq_true_iff.mp hdropped
    refine Bool.eq_false_iff.mpr fun hends => hfree _ hmem ⟨by simp [Mark.edit], t, by simp [hsplit], ?_, hends⟩
    exact (start_eq_stop hsplit).symm

/-! ## The declarations, tidied -/

/-- The declaration with its colon spaced where some of the marks are. -/
def tidied (ks : List Mark) (d : Declaration) : Declaration :=
  { d with
    beforeColon := d.beforeColon.flatMap (Token.tidied (isDropped ks) (isSpaced ks))
    afterColon := (if isSpaced ks d.colon then [Token.space] else [])
      ++ d.afterColon.flatMap (Token.tidied (isDropped ks) (isSpaced ks)) }

theorem mem_tidied {dropped spaced : Token → Bool} {t u : Token}
    (h : u ∈ t.tidied dropped spaced) : u = t ∨ u = Token.space := by
  unfold Token.tidied at h
  split at h
  · cases h
  · split at h
    · split at h
      · exact .inr (List.mem_singleton.mp h)
      · simpa using h
    · exact .inl (List.mem_singleton.mp h)

theorem respaces_tidied (ks : List Mark) (d : Declaration) : d.Respaces (tidied ks d) where
  eq := rfl
  beforeColon h u hu := by
    obtain ⟨t, ht, hu⟩ := List.mem_flatMap.mp hu
    rcases mem_tidied hu with rfl | rfl
    · exact h u ht
    · rfl
  afterColon h u hu := by
    rcases List.mem_append.mp hu with hspace | hafter
    · split at hspace
      · rw [List.mem_singleton.mp hspace]
        rfl
      · cases hspace
    · obtain ⟨t, ht, hu⟩ := List.mem_flatMap.mp hafter
      rcases mem_tidied hu with rfl | rfl
      · exact h u ht
      · rfl

theorem flatMap_tidied_of_not {dropped spaced : Token → Bool}
    (h : ∀ t ∈ ts, dropped t = false ∧ spaced t = false) :
    ts.flatMap (Token.tidied dropped spaced) = ts := by
  induction ts with
  | nil => rfl
  | cons t ts ih =>
    rw [List.forall_mem_cons] at h
    rw [List.flatMap_cons, ih h.2, Token.tidied_of_kept h.1.1 h.1.2]
    rfl

theorem nodup_pieces (source : Text) :
    ((Piece.split (ofText source)).1.flatMap Piece.tokens ++ (Piece.split (ofText source)).2).Nodup := by
  rw [Piece.tokens_split]
  exact nodup_ofText source

theorem mem_of_mem_piece {p : Piece} (hp : p ∈ (Piece.split (ofText source)).1) (ht : t ∈ p.tokens) :
    t ∈ ofText source := by
  rw [← Piece.tokens_split (ofText source)]
  exact List.mem_append_left _ (List.mem_flatMap.mpr ⟨p, hp, ht⟩)

theorem exists_piece (hd : d ∈ (Parse.ofText source).sheet.declarations) :
    ∃ p ∈ (Piece.split (ofText source)).1, p.body = .statement (.declaration d)
      ∧ d.tokens ⊆ p.tokens := by
  have hpiece : d ∈ (Piece.split (ofText source)).1.filterMap (·.body.declaration?) :=
    Stylesheet.declarations_split (ofText source) ▸ hd
  obtain ⟨p, hp, hbody⟩ := List.mem_filterMap.mp hpiece
  have hbody := PieceBody.declaration?_eq_some_iff.mp hbody
  refine ⟨p, hp, hbody, ?_⟩
  rw [Piece.tokens, hbody]
  exact List.subset_append_right _ _

theorem mem_declarations_of_mem_piece {p : Piece} (hp : p ∈ (Piece.split (ofText source)).1)
    (hbody : p.body = .statement (.declaration d)) : d ∈ (Parse.ofText source).sheet.declarations := by
  have hpiece : d ∈ (Piece.split (ofText source)).1.filterMap (·.body.declaration?) :=
    List.mem_filterMap.mpr ⟨p, hp, PieceBody.declaration?_eq_some_iff.mpr hbody⟩
  exact Stylesheet.declarations_split (ofText source) ▸ hpiece

/-- **The token of a mark belongs to the piece of its declaration alone.** -/
theorem body_of_mem_marks {p : Piece} (hp : p ∈ (Piece.split (ofText source)).1) {m : Mark}
    (hm : m ∈ marks (Parse.ofText source).sheet) (ht : m.token ∈ p.tokens) :
    ∃ d ∈ (Parse.ofText source).sheet.declarations,
      p.body = .statement (.declaration d) ∧ m ∈ marksOf d := by
  obtain ⟨d, hd, hmd⟩ := List.mem_flatMap.mp hm
  obtain ⟨q, hq, hbody, htokens⟩ := exists_piece hd
  have hqt : m.token ∈ q.tokens :=
    htokens ((tokens_marksOf_sublist d).mem (List.mem_map_of_mem hmd))
  have hapart := (List.nodup_flatMap.mp (List.nodup_append.mp (nodup_pieces source)).1).2
  have hsame : p = q := by
    by_contra hne
    have hsymm : Std.Symm (Function.onFun List.Disjoint Piece.tokens) := ⟨fun _ _ h => h.symm⟩
    exact hapart.forall hp hq hne ht hqt
  exact ⟨d, hd, hsame ▸ hbody, hmd⟩

/-- A mark of a token of a declaration is one of its marks. -/
theorem mem_marksOf_of_mem (hd : d ∈ (Parse.ofText source).sheet.declarations) {m : Mark}
    (hm : m ∈ marks (Parse.ofText source).sheet) (ht : m.token ∈ d.tokens) : m ∈ marksOf d := by
  obtain ⟨p, hp, hbody, htokens⟩ := exists_piece hd
  obtain ⟨d', -, hbody', hmd⟩ := body_of_mem_marks hp hm (htokens ht)
  rw [hbody] at hbody'
  cases hbody'
  exact hmd

/-- Tokens of a piece stay that do not stand around its colon. -/
theorem flatMap_tidied_of_disjoint {p : Piece} (hks : ks.Sublist (marks (Parse.ofText source).sheet))
    (hp : p ∈ (Piece.split (ofText source)).1) (hts : ts ⊆ p.tokens)
    (hapart : ∀ d, p.body = .statement (.declaration d) →
      List.Disjoint ts (d.beforeColon ++ d.colon :: d.afterColon)) :
    ts.flatMap (Token.tidied (isDropped ks) (isSpaced ks)) = ts := by
  refine flatMap_tidied_of_not fun t ht => unmarked_of_not_mem fun dropped h => ?_
  obtain ⟨d, -, hbody, hm⟩ := body_of_mem_marks hp (hks.subset h) (hts ht)
  exact hapart d hbody ht (mem_of_mem_marksOf hm)

/-- The tokens of a piece, tidied. -/
theorem tokens_tidied {p : Piece} (hks : ks.Sublist (marks (Parse.ofText source).sheet))
    (hp : p ∈ (Piece.split (ofText source)).1) :
    (p.mapDeclaration (tidied ks)).tokens =
      p.tokens.flatMap (Token.tidied (isDropped ks) (isSpaced ks)) := by
  rcases Piece.mapDeclaration_eq p.body with ⟨d, hbody⟩ | ⟨hnone, hstays⟩
  · have htokens : p.tokens = (p.leading ++ d.property) ++ ((d.beforeColon ++ d.colon :: d.afterColon)
        ++ (d.value ++ d.beforeSemicolon ++ d.semicolon.toList)) := by
      rw [Piece.tokens, hbody]
      simp [PieceBody.tokens, Statement.tokens, Declaration.tokens]
    have hnodup := (List.nodup_flatMap.mp (List.nodup_append.mp (nodup_pieces source)).1).1 p hp
    rw [htokens] at hnodup
    obtain ⟨-, hrest, hbefore⟩ := List.nodup_append'.mp hnodup
    obtain ⟨-, -, hbehind⟩ := List.nodup_append'.mp hrest
    -- the marked tokens stand around the colon
    have hfront : (p.leading ++ d.property).flatMap (Token.tidied (isDropped ks) (isSpaced ks)) =
        p.leading ++ d.property := by
      refine flatMap_tidied_of_disjoint hks hp (htokens ▸ List.subset_append_left _ _) fun d' hbody' => ?_
      rw [hbody] at hbody'
      cases hbody'
      exact List.disjoint_of_subset_right (List.subset_append_left _ _) hbefore
    have hback : (d.value ++ d.beforeSemicolon ++ d.semicolon.toList).flatMap
          (Token.tidied (isDropped ks) (isSpaced ks)) =
        d.value ++ d.beforeSemicolon ++ d.semicolon.toList := by
      have hmem : d.value ++ d.beforeSemicolon ++ d.semicolon.toList ⊆ p.tokens :=
        htokens ▸ List.subset_append_of_subset_right _ (List.subset_append_right _ _)
      refine flatMap_tidied_of_disjoint hks hp hmem fun d' hbody' => ?_
      rw [hbody] at hbody'
      cases hbody'
      exact hbehind.symm
    have hword := (Token.isWord_of_colon (isPunct_colon (mem_declarations_of_mem_piece hp hbody))).1
    have hstays := isDropped_of_word hks (mem_of_mem_piece hp (by simp [htokens])) hword
    rw [htokens, List.flatMap_append, hfront, List.flatMap_append, hback, List.flatMap_append,
      List.flatMap_cons, Token.tidied_of_word hstays hword, Piece.mapDeclaration, Piece.tokens, hbody]
    simp [PieceBody.mapDeclaration, PieceBody.tokens, Statement.tokens, Declaration.tokens, tidied]
  · rw [Piece.tokens, Piece.mapDeclaration, hstays, ← Piece.tokens]
    refine (flatMap_tidied_of_disjoint hks hp (List.Subset.refl _) fun d hbody => ?_).symm
    rw [hbody] at hnone
    cases hnone

/-- **Tidied tokens are the tokens with tidied declarations.** -/
theorem flatMap_tidied (hks : ks.Sublist (marks (Parse.ofText source).sheet)) :
    Piece.tokensWithDeclarations (tidied ks) (ofText source) = tidy ks source := by
  have hpieces : (Piece.split (ofText source)).1.flatMap
        (fun p => (p.mapDeclaration (tidied ks)).tokens) =
      ((Piece.split (ofText source)).1.flatMap Piece.tokens).flatMap
        (Token.tidied (isDropped ks) (isSpaced ks)) := by
    rw [List.flatMap_assoc]
    exact List.flatMap_congr fun p hp => tokens_tidied hks hp
  have htrailing : (Piece.split (ofText source)).2.flatMap
      (Token.tidied (isDropped ks) (isSpaced ks)) = (Piece.split (ofText source)).2 := by
    refine flatMap_tidied_of_not fun t ht => unmarked_of_not_mem fun dropped h => ?_
    obtain ⟨d, hd, hmd⟩ := List.mem_flatMap.mp (hks.subset h)
    obtain ⟨p, hp, -, htokens⟩ := exists_piece hd
    have htp : t ∈ p.tokens :=
      htokens ((tokens_marksOf_sublist d).mem (List.mem_map_of_mem hmd))
    exact (List.nodup_append.mp (nodup_pieces source)).2.2 t (List.mem_flatMap.mpr ⟨p, hp, htp⟩) t ht rfl
  have hcut := Piece.tokens_split (ofText source)
  conv_rhs => rw [tidy, ← hcut]
  rw [List.flatMap_append, htrailing, ← hpieces, Piece.tokensWithDeclarations]

end

/-! ## Declarations that are spaced well -/

/-- Whether the colon of a declaration is spaced well, but for comments in front of it. -/
structure WellSpaced (d : Declaration) : Prop where
  front : d.beforeColon = [] ∨ ∃ t ∈ d.beforeColon, t.isComment = true
  back : d.value = [] ∨ isWellSpaced d.afterColon = true

theorem isWellSpaced_map_bare (ts : List Token) : isWellSpaced (ts.map Token.bare) = isWellSpaced ts := by
  match ts with
  | [] | [_] | _ :: _ :: _ => rfl

theorem wellSpaced_of_bare (h : WellSpaced d.bare) : WellSpaced d := by
  constructor
  · refine h.front.imp List.map_eq_nil_iff.mp fun ⟨t, ht, hcomment⟩ => ?_
    obtain ⟨u, hu, rfl⟩ := List.mem_map.mp ht
    exact ⟨u, hu, hcomment⟩
  · rw [← isWellSpaced_map_bare]
    exact h.back.imp_left List.map_eq_nil_iff.mp

theorem WellSpaced.bare (h : WellSpaced d) : WellSpaced d.bare := by
  constructor
  · refine h.front.imp List.map_eq_nil_iff.mpr fun ⟨t, ht, hcomment⟩ => ?_
    exact ⟨t.bare, List.mem_map_of_mem ht, hcomment⟩
  · rw [Declaration.bare, isWellSpaced_map_bare]
    exact h.back.imp_left List.map_eq_nil_iff.mpr

/-- What the rule finds about a declaration that is spaced well. -/
theorem WellSpaced.findings (h : WellSpaced d) {f : Finding} (hf : f ∈ beforeFinding d ++ afterFinding d) :
    f ∈ beforeFinding d ∧ ∃ t ∈ d.beforeColon, t.isComment = true := by
  have hafter : afterFinding d = [] := by
    rcases h.back with hnil | hspaced
    · rw [afterFinding, hnil]
      rfl
    · rw [afterFinding, hspaced, Bool.or_true, if_pos rfl]
  rw [hafter, List.append_nil] at hf
  rcases h.front with hnil | hcomment
  · rw [beforeFinding, hnil] at hf
    cases hf
  · exact ⟨hf, hcomment⟩

section

variable (hd : d ∈ (Parse.ofText source).sheet.declarations)

include hd

theorem not_mem_beforeColon (ht : t ∈ d.afterColon) : t ∉ d.beforeColon := by
  intro hfront
  obtain ⟨before, semicolon, rest, more, -, hsource⟩ := exists_cutInto hd
  have hnodup := nodup_ofText source
  rw [hsource] at hnodup
  have hrun := (List.nodup_append.mp (List.nodup_append.mp hnodup).1).2.1
  exact (List.nodup_append.mp hrun).2.2 t (List.mem_append_right _ hfront) t
    (List.mem_cons_of_mem _ (List.mem_append_left _ ht)) rfl

/-- The marks of a declaration are marks of its tree. -/
theorem marked_of_mem {m : Mark} (hm : m ∈ marksOf d) :
    isDropped (marks (Parse.ofText source).sheet) m.token = m.dropped
      ∧ isSpaced (marks (Parse.ofText source).sheet) m.token = !m.dropped :=
  isDropped_token (.refl _) (List.mem_flatMap.mpr ⟨d, hd, hm⟩)

/-- Only the tokens that a single space is wanted at are marked so. -/
theorem isSpaced_eq_false (ht : t ∈ d.tokens) (hnot : t ∉ spacesOf d) :
    isSpaced (marks (Parse.ofText source).sheet) t = false := by
  refine decide_eq_false fun hmark => hnot ?_
  rcases mem_marksOf_iff.mp (mem_marksOf_of_mem hd hmark ht) with ⟨hdropped, -⟩ | ⟨-, hspace⟩
  · cases hdropped
  · exact hspace

theorem isDropped_eq_false (ht : t ∈ d.afterColon) :
    isDropped (marks (Parse.ofText source).sheet) t = false := by
  have htokens : t ∈ d.tokens := by simp [Declaration.tokens, ht]
  refine decide_eq_false fun hmark => not_mem_beforeColon hd ht ?_
  rcases mem_marksOf_iff.mp (mem_marksOf_of_mem hd hmark htokens) with ⟨-, hdrop⟩ | ⟨hspaced, -⟩
  · exact (mem_dropsOf_iff.mp hdrop).1
  · cases hspaced

/-- With all marks tidied nothing stands in front of the colon, or a comment does. -/
theorem beforeColon_tidied :
    let d' := tidied (marks (Parse.ofText source).sheet) d
    d'.beforeColon = [] ∨ ∃ t ∈ d'.beforeColon, t.isComment = true := by
  intro d'
  obtain ⟨before, semicolon, rest, more, hcut, hsource⟩ := exists_cutInto hd
  by_cases hspace : IsSpace d.beforeColon
  · refine .inl (List.flatMap_eq_nil_iff.mpr fun t ht => ?_)
    have hdrop : Mark.mk t true ∈ marksOf d :=
      mem_marksOf_iff.mpr (.inl ⟨rfl, mem_dropsOf_iff.mpr ⟨ht, hspace⟩⟩)
    exact Token.tidied_of_dropped (marked_of_mem hd hdrop).1
  · obtain ⟨t, ht, hword⟩ : ∃ t ∈ d.beforeColon, t.isWhitespace = false := by
      by_contra hnone
      exact hspace fun t ht => by_contra fun hword => hnone ⟨t, ht, Bool.eq_false_iff.mpr hword⟩
    have hcomment : t.isComment = true := by
      simpa [Token.isTrivia, hword] using hcut.beforeColon t ht
    have hstays := isDropped_of_word (.refl _) (by rw [hsource]; simp [ht]) hword
    refine .inr ⟨t, List.mem_flatMap.mpr ⟨t, ht, ?_⟩, hcomment⟩
    rw [Token.tidied_of_word hstays hword]
    exact List.mem_cons_self

/-- With all marks tidied a value stands behind one space or a line break. -/
theorem afterColon_tidied (hvalue : d.value ≠ []) :
    isWellSpaced (tidied (marks (Parse.ofText source).sheet) d).afterColon = true := by
  have hcolon : d.colon ∈ d.tokens := by simp [Declaration.tokens]
  have hword := (Token.isWord_of_colon (isPunct_colon hd)).1
  have hspace : IsSpace d.afterColon := Stylesheet.isSpace_afterColon hd
  have hone := (length_le_one hd).2
  have hmarked (t : Token) (hspaced : isWellSpaced d.afterColon = false)
      (ht : d.afterColon = [] ∧ t = d.colon ∨ t ∈ d.afterColon) : Mark.mk t false ∈ marksOf d :=
    mem_marksOf_iff.mpr (.inr ⟨rfl, mem_spacesOf_iff.mpr ⟨hvalue, hspaced, ht⟩⟩)
  rw [tidied]
  cases hafter : d.afterColon with
  | nil =>
    have hspaced := (marked_of_mem hd (hmarked d.colon (by rw [hafter]; rfl) (.inl ⟨hafter, rfl⟩))).2
    simp only [hspaced]
    rfl
  | cons t more =>
    have ht : t ∈ d.afterColon := by simp [hafter]
    obtain rfl : more = [] := (List.cons.inj (hafter.symm.trans (eq_singleton_of_mem ht hone))).2
    have halone : isSpaced (marks (Parse.ofText source).sheet) d.colon = false := by
      refine isSpaced_eq_false hd hcolon fun hmem => ?_
      rcases (mem_spacesOf_iff.mp hmem).2.2 with ⟨hnil, -⟩ | hmem
      · rw [hafter] at hnil
        cases hnil
      · rw [hspace _ hmem] at hword
        cases hword
    have htidied : t.tidied (isDropped (marks (Parse.ofText source).sheet))
        (isSpaced (marks (Parse.ofText source).sheet)) =
          if isWellSpaced d.afterColon then [t] else [Token.space] := by
      have hstays := isDropped_eq_false hd ht
      cases hspaced : isWellSpaced d.afterColon with
      | true =>
        have htokens : t ∈ d.tokens := by simp [Declaration.tokens, ht]
        have hunspaced := isSpaced_eq_false hd htokens fun hmem => by
          rw [(mem_spacesOf_iff.mp hmem).2.1] at hspaced
          cases hspaced
        exact Token.tidied_of_kept hstays hunspaced
      | false =>
        have hmark := (marked_of_mem hd (hmarked t hspaced (.inr ht))).2
        exact Token.tidied_of_blank hstays hmark (hspace t ht)
    simp only [halone, List.flatMap_singleton, htidied]
    cases hspaced : isWellSpaced d.afterColon with
    | true => rwa [hafter] at hspaced
    | false => rfl

/-- **With all marks tidied** the colon of each declaration is spaced well. -/
theorem wellSpaced_tidied : WellSpaced (tidied (marks (Parse.ofText source).sheet) d) where
  front := beforeColon_tidied hd
  back := by
    by_cases hvalue : d.value = []
    · exact .inl hvalue
    · exact .inr (afterColon_tidied hd hvalue)

end

/-! ## What the fixes do -/

/-- **What any of the fixes make of a text.** Applied together they give a text. It has the old words
exactly when none of them drops the whitespace behind a backslash alone. When that holds of all fixes,
and all are applied, the rule finds nothing then but comments in front of a colon. -/
theorem words_spaced_iff (source : Text) (hok : (Parse.ofText source).isOk = true) {chosen : List Fix}
    (h : chosen.Sublist ((check source (Parse.ofText source).sheet).filterMap Finding.fix)) :
    ∃ out, Edit.applyAll? source (chosen.flatMap Fix.edits) = some out
      ∧ (words (ofText out) = words (ofText source)
          ↔ ∀ e ∈ chosen.flatMap Fix.edits, ¬ e.IsSwallowed source)
      ∧ (chosen = (check source (Parse.ofText source).sheet).filterMap Finding.fix →
          (∀ e ∈ chosen.flatMap Fix.edits, ¬ e.IsSwallowed source) →
            ∀ f ∈ check out (Parse.ofText out).sheet, ∃ d ∈ (Parse.ofText out).sheet.declarations,
              f ∈ beforeFinding d ∧ ∃ t ∈ d.beforeColon, t.isComment = true) := by
  rw [fixes_check] at h ⊢
  obtain ⟨ks, hks, rfl⟩ := List.sublist_map_iff.mp h
  have hedits : (ks.map Mark.fix).flatMap Fix.edits = ks.map Mark.edit := by
    rw [List.flatMap_map, List.map_eq_flatMap]
    rfl
  have hread := legible_ofText source
  have hwords := words_tidied_iff hread (Parse.kind_ne_error hok) (tidies hks)
  rw [dropsFreely_iff hks] at hwords
  rw [hedits, applyAll?_edits hks, List.forall_mem_map]
  refine ⟨_, rfl, hwords, fun hall hfree f hf => ?_⟩
  have hlength : ks.length = (marks (Parse.ofText source).sheet).length := by
    simpa using congrArg List.length hall
  obtain rfl := hks.eq_of_length hlength
  -- the text is read as the tidied tokens, and these have the tidied declarations
  have hbare : (ofText (text (tidy (marks (Parse.ofText source).sheet) source))).map Token.bare =
      (tidy (marks (Parse.ofText source).sheet) source).map Token.bare :=
    (legible_iff .start).mp (legible_tidied hread (Parse.kind_ne_error hok) (tidies hks)
      ((dropsFreely_iff hks).mpr hfree)).1
  have hdeclarations := Stylesheet.declarations_respaced
    (respaces_tidied (marks (Parse.ofText source).sheet)) (ofText source)
  rw [flatMap_tidied hks] at hdeclarations
  have htree := congrArg Stylesheet.declarations (Stylesheet.bare_eq_of_map_bare hbare)
  rw [Stylesheet.declarations_bare, Stylesheet.declarations_bare, hdeclarations, List.map_map] at htree
  obtain ⟨d, hd, hfound⟩ := List.mem_flatMap.mp hf
  have hmem : d.bare ∈ (Stylesheet.ofTokens
      (ofText (text (tidy (marks (Parse.ofText source).sheet) source)))).declarations.map
        Declaration.bare := List.mem_map_of_mem hd
  rw [htree] at hmem
  obtain ⟨d', hd', hsame⟩ := List.mem_map.mp hmem
  have hspaced : WellSpaced d := wellSpaced_of_bare (hsame ▸ (wellSpaced_tidied hd').bare)
  exact ⟨d, hd, hspaced.findings hfound⟩

/-! ## A colon behind a name, and one behind a backslash -/

namespace Spaced

/-- A declaration with a space in front of its colon. -/
def plain : Text := "a :b".toList

theorem isOk_plain : (Parse.ofText plain).isOk = true := by cbv

theorem ofText_plain : ofText plain =
    [⟨.ident, ['a'], ⟨⟨0, 1, 1⟩, ⟨1, 1, 2⟩⟩⟩, ⟨.whitespace, [' '], ⟨⟨1, 1, 2⟩, ⟨2, 1, 3⟩⟩⟩,
      ⟨.punct, [':'], ⟨⟨2, 1, 3⟩, ⟨3, 1, 4⟩⟩⟩, ⟨.ident, ['b'], ⟨⟨3, 1, 4⟩, ⟨4, 1, 5⟩⟩⟩] := by
  cbv

theorem fixes_plain : (check plain (Parse.ofText plain).sheet).filterMap Finding.fix =
    [⟨"Remove whitespace before `:`", [⟨1, 2, []⟩]⟩,
      ⟨"Put one space after `:`", [.insert 3 [' ']]⟩] := by
  cbv

/-- A declaration with a backslash and a line break in front of its colon. -/
def escaping : Text := "a\\\n: b:c".toList

/-- The declaration without the line break. -/
def escaped : Text := "a\\: b:c".toList

theorem isOk_escaping : (Parse.ofText escaping).isOk = true := by cbv

theorem fixes_escaping : (check escaping (Parse.ofText escaping).sheet).filterMap Finding.fix =
    [⟨"Remove whitespace before `:`", [⟨2, 3, []⟩]⟩] := by
  cbv

theorem words_escaping : (words (ofText escaping)).map Token.text =
    [['a'], ['\\'], [':'], ['b'], [':'], ['c']] := by
  cbv

theorem words_escaped : (words (ofText escaped)).map Token.text =
    [['a', '\\', ':'], ['b'], [':'], ['c']] := by
  cbv

theorem messages_escaped : (check escaped (Parse.ofText escaped).sheet).map Finding.message =
    ["Expected one space after `:`"] := by
  cbv

end Spaced

/-- **A colon behind a name** is spaced by both fixes. -/
theorem words_spaced_iff_plain :
    let source := Spaced.plain
    let chosen := (check source (Parse.ofText source).sheet).filterMap Finding.fix
    (Parse.ofText source).isOk = true ∧ chosen.length = 2
      ∧ (∀ e ∈ chosen.flatMap Fix.edits, ¬ e.IsSwallowed source)
      ∧ ∃ out, Edit.applyAll? source (chosen.flatMap Fix.edits) = some out
        ∧ words (ofText out) = words (ofText source)
        ∧ ∀ f ∈ check out (Parse.ofText out).sheet, ∃ d ∈ (Parse.ofText out).sheet.declarations,
            f ∈ beforeFinding d ∧ ∃ t ∈ d.beforeColon, t.isComment = true := by
  intro source chosen
  have hfree : ∀ e ∈ chosen.flatMap Fix.edits, ¬ e.IsSwallowed source := by
    rw [show chosen = _ from Spaced.fixes_plain]
    unfold Edit.IsSwallowed
    rw [show ofText source = _ from Spaced.ofText_plain]
    decide
  obtain ⟨out, happly, hwords, hleft⟩ :=
    words_spaced_iff source Spaced.isOk_plain (List.Sublist.refl chosen)
  refine ⟨Spaced.isOk_plain, congrArg List.length Spaced.fixes_plain, hfree, out, happly,
    hwords.mpr hfree, hleft rfl hfree⟩

/-- **A colon that becomes a part of a name.** With the only fix there is, the colon is escaped and another
one takes its place, behind which the rule misses a space. -/
theorem colon_joins_backslash :
    let source := Spaced.escaping
    let chosen := (check source (Parse.ofText source).sheet).filterMap Finding.fix
    (Parse.ofText source).isOk = true
      ∧ Edit.applyAll? source (chosen.flatMap Fix.edits) = some Spaced.escaped
      ∧ words (ofText Spaced.escaped) ≠ words (ofText source)
      ∧ ∃ f ∈ check Spaced.escaped (Parse.ofText Spaced.escaped).sheet,
          f.message = "Expected one space after `:`" := by
  intro source chosen
  refine ⟨Spaced.isOk_escaping, ?_, fun hsame => ?_, ?_⟩
  · rw [show chosen = _ from Spaced.fixes_escaping]
    have hwalk : Edit.Substituted 0 ("a\\".toList ++ "\n".toList ++ ": b:c".toList) [⟨2, 3, []⟩]
        ("a\\".toList ++ [] ++ ": b:c".toList) := .cons rfl rfl (.nil 3 _)
    exact Edit.applyAll?_of_substituted hwalk (List.pairwise_singleton _ _)
  · have htexts := congrArg (List.map Token.text) hsame
    rw [Spaced.words_escaped, show source = Spaced.escaping from rfl, Spaced.words_escaping] at htexts
    cases htexts
  · obtain ⟨f, hf, hmessage⟩ := List.mem_map.mp
      (Spaced.messages_escaped ▸ List.mem_singleton_self "Expected one space after `:`")
    exact ⟨f, hf, hmessage⟩

end SheetLint.DeclarationSpacing
