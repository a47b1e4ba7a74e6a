import SheetLint.Proofs.Tree.ErrorSpans
import SheetLint.Proofs.Tree.Values

/-!
# Declarations with other trivia around their colon

A declaration is the run of tokens up to its semicolon, or up to the closing brace behind it, cut at
its colon. What whitespace and comments stand around the colon ends no such run and moves no colon. So
with other trivia in front of the colon and other whitespace behind it, the declaration is read with
these, and no other piece changes.

Results:
* `Piece.ofStatement_eq_iff`: how the tokens of a statement are found.
* `Piece.read_respaced`: one declaration with other trivia around its colon.
* `Piece.split_respaced`: many of them among the pieces of a text.
* `Stylesheet.declarations_respaced`: the declarations then.
-/

namespace SheetLint

open Tokens

/-- Whether all tokens of a run are whitespace or comments. -/
def Tokens.IsTrivia (ts : List Token) : Prop := ∀ t ∈ ts, t.isTrivia = true

theorem Tokens.IsSpace.isTrivia {ts : List Token} (h : IsSpace ts) : IsTrivia ts := fun t ht => by
  rw [Token.isTrivia, h t ht, Bool.true_or]

/-- Whether a declaration is another one with other trivia around its colon. -/
structure Declaration.Respaces (d d' : Declaration) : Prop where
  eq : d' = { d with beforeColon := d'.beforeColon, afterColon := d'.afterColon }
  beforeColon : IsTrivia d.beforeColon → IsTrivia d'.beforeColon
  afterColon : IsSpace d.afterColon → IsSpace d'.afterColon

/-- The piece with another declaration, if it is one. -/
def PieceBody.mapDeclaration (f : Declaration → Declaration) : PieceBody → PieceBody
  | .statement (.declaration d) => .statement (.declaration (f d))
  | b => b

@[inherit_doc PieceBody.mapDeclaration]
def Piece.mapDeclaration (f : Declaration → Declaration) (p : Piece) : Piece :=
  ⟨p.leading, p.body.mapDeclaration f⟩

namespace Piece

variable {ts front property before before' back rest tail later later' more : List Token}
  {first colon t : Token} {semicolon : Option Token} {depth : Nat} {d d' : Declaration}

/-! ## Trivia inside a run -/

theorem isPunct_of_isTrivia (h : t.isTrivia = true) (c : Char) : t.isPunct c = false := by
  refine Bool.eq_false_iff.mpr fun hpunct => ?_
  rw [Token.isPunct, Bool.and_eq_true, beq_iff_eq] at hpunct
  simp [Token.isTrivia, Token.isWhitespace, Token.isComment, hpunct.1] at h

theorem bracketDepth_of_isTrivia (h : t.isTrivia = true) (depth : Nat) : bracketDepth depth t = depth := by
  simp [bracketDepth, Token.isOpener, Token.isCloser, isPunct_of_isTrivia h]

theorem isTerminator_of_isTrivia (h : t.isTrivia = true) : isTerminator t = false := by
  simp [isTerminator, isPunct_of_isTrivia h]

theorem foldl_bracketDepth_of_isTrivia (h : IsTrivia ts) (depth : Nat) :
    ts.foldl bracketDepth depth = depth := by
  induction ts with
  | nil => rfl
  | cons t ts ih =>
    rw [IsTrivia, List.forall_mem_cons] at h
    rw [List.foldl_cons, bracketDepth_of_isTrivia h.1, ih h.2]

/-- Whether no terminator stands in a run outside brackets. -/
def Unstopped (depth : Nat) (ts : List Token) : Prop := lengthToTerminator depth ts = ts.length

theorem unstopped_of_isTrivia (h : IsTrivia ts) (depth : Nat) : Unstopped depth ts := by
  induction ts with
  | nil => rfl
  | cons t ts ih =>
    rw [IsTrivia, List.forall_mem_cons] at h
    rw [Unstopped, lengthToTerminator, isTerminator_of_isTrivia h.1, bracketDepth_of_isTrivia h.1,
      ih h.2, Bool.and_false]
    rfl

/-- Behind a run without terminator the search goes on. -/
theorem Unstopped.lengthToTerminator_append (h : Unstopped depth ts) (more : List Token) :
    lengthToTerminator depth (ts ++ more) =
      ts.length + lengthToTerminator (ts.foldl bracketDepth depth) more := by
  have hle : ts.length ≤ lengthToTerminator depth (ts ++ []) := by rw [List.append_nil, h]
  exact lengthToTerminator_append_of_le hle more

theorem unstopped_append_iff :
    Unstopped depth (ts ++ more) ↔
      Unstopped depth ts ∧ Unstopped (ts.foldl bracketDepth depth) more := by
  constructor
  · intro h
    have hle : ts.length ≤ lengthToTerminator depth (ts ++ more) := by
      rw [h, List.length_append]
      exact Nat.le_add_right _ _
    have hts : Unstopped depth ts := by
      have hlength := lengthToTerminator_append_of_le hle []
      rwa [List.append_nil] at hlength
    refine ⟨hts, ?_⟩
    rw [Unstopped, hts.lengthToTerminator_append, List.length_append] at h
    exact Nat.add_left_cancel h
  · rintro ⟨hts, hmore⟩
    rw [Unstopped, hts.lengthToTerminator_append, hmore, List.length_append]

/-! ## Where a statement ends -/

/-- How the tokens of a statement are found in front of others: up to a semicolon, or up to a closing
brace or the end, where no bracket is open. -/
structure RunsUpTo (ts : List Token) (semicolon : Option Token) (more : List Token) : Prop where
  unstopped : Unstopped 0 ts
  ends : ∀ s ∈ semicolon, s.isPunct ';' = true
  closing : semicolon = none → ∀ t ∈ more.head?, t.isPunct '\x7d' = true
  depth : semicolon.toList ++ more ≠ [] → ts.foldl bracketDepth 0 = 0

/-- What a run ends in front of. -/
theorem RunsUpTo.exists_head (h : RunsUpTo ts semicolon more) :
    semicolon.toList ++ more = [] ∨ ∃ t back, semicolon.toList ++ more = t :: back
      ∧ isTerminator t = true ∧ t.isPunct '\x7b' = false
      ∧ (semicolon = if t.isPunct ';' then some t else none) := by
  cases hsemicolon : semicolon with
  | some s =>
    have hpunct := h.ends s hsemicolon
    refine .inr ⟨s, more, rfl, by simp [isTerminator, hpunct], isPunct_openBrace_of_semicolon hpunct, ?_⟩
    rw [if_pos hpunct]
  | none =>
    cases hmore : more with
    | nil => exact .inl rfl
    | cons t back =>
      have hclosing := h.closing hsemicolon t (by rw [hmore]; rfl)
      have hother (c : Char) (hc : c ≠ '\x7d') : t.isPunct c = false := by
        rw [Token.isPunct, Token.text_of_isPunct hclosing]
        simp [hc.symm]
      refine .inr ⟨t, back, rfl, by simp [isTerminator, hclosing], hother _ (by decide), ?_⟩
      rw [hother _ (by decide)]
      rfl

/-- The run is what the search finds. -/
theorem RunsUpTo.lengthToTerminator_eq (h : RunsUpTo ts semicolon more) :
    lengthToTerminator 0 (ts ++ (semicolon.toList ++ more)) = ts.length := by
  rw [h.unstopped.lengthToTerminator_append]
  rcases h.exists_head with hnil | ⟨t, back, hcons, hstop, -, -⟩
  · rw [hnil]
    rfl
  · rw [h.depth (by rw [hcons]; exact List.cons_ne_nil t back), hcons,
      lengthToTerminator_cons_of_terminator hstop]
    rfl

/-- The tokens in front of the first terminator hold none, and it stands outside brackets. -/
theorem unstopped_take (ts : List Token) :
    Unstopped 0 (ts.take (lengthToTerminator 0 ts))
      ∧ ∀ t ∈ ts[lengthToTerminator 0 ts]?, isTerminator t = true
        ∧ (ts.take (lengthToTerminator 0 ts)).foldl bracketDepth 0 = 0 := by
  have hcut := List.take_append_drop (lengthToTerminator 0 ts) ts
  have hlength := length_take_lengthToTerminator 0 ts
  have hle : (ts.take (lengthToTerminator 0 ts)).length ≤
      lengthToTerminator 0 (ts.take (lengthToTerminator 0 ts) ++ ts.drop (lengthToTerminator 0 ts)) := by
    rw [hcut, hlength]
  have hunstopped : Unstopped 0 (ts.take (lengthToTerminator 0 ts)) := by
    have hnil := lengthToTerminator_append_of_le hle []
    rwa [List.append_nil] at hnil
  refine ⟨hunstopped, fun t ht => ⟨isTerminator_of_getElem? ht, ?_⟩⟩
  have hstop := hunstopped.lengthToTerminator_append (ts.drop (lengthToTerminator 0 ts))
  obtain ⟨hn, rfl⟩ := List.getElem?_eq_some_iff.mp ht
  rw [hcut, hlength, List.drop_eq_getElem_cons hn, lengthToTerminator] at hstop
  split at hstop
  · rename_i hdepth
    rw [Bool.and_eq_true, decide_eq_true_eq] at hdepth
    exact hdepth.1
  · omega

/-- **How the tokens of a statement are found.** -/
theorem ofStatement_eq_iff {s : Statement} :
    ofStatement first rest = .statement s ↔ ∃ ts semicolon more,
      first :: rest = ts ++ (semicolon.toList ++ more) ∧ RunsUpTo ts semicolon more
        ∧ statementOf ts semicolon = s := by
  constructor
  · intro h
    have hcut := (List.take_append_drop (lengthToTerminator 0 (first :: rest)) (first :: rest)).symm
    obtain ⟨hunstopped, hbehind⟩ := unstopped_take (first :: rest)
    unfold ofStatement at h
    simp only at h
    split at h
    · rename_i t ht
      obtain ⟨hstop, hdepth⟩ := hbehind t ht
      obtain ⟨hn, hget⟩ := List.getElem?_eq_some_iff.mp ht
      rw [List.drop_eq_getElem_cons hn, hget] at hcut
      split at h
      · cases h
      · rename_i hbrace
        split at h
        · rename_i hsemicolon
          refine ⟨_, some t, _, hcut, ⟨hunstopped, ?_, by simp, fun _ => hdepth⟩,
            PieceBody.statement.inj h⟩
          rintro _ ⟨⟩
          exact hsemicolon
        · rename_i hsemicolon
          refine ⟨_, none, _, hcut, ⟨hunstopped, by simp, fun _ => ?_, fun _ => hdepth⟩,
            PieceBody.statement.inj h⟩
          rintro _ ⟨⟩
          exact isPunct_closeBrace_of_isTerminator hstop (Bool.eq_false_iff.mpr hbrace)
            (Bool.eq_false_iff.mpr hsemicolon)
    · rename_i hnone
      have hdrop := List.drop_eq_nil_of_le (List.getElem?_eq_none_iff.mp hnone)
      rw [hdrop] at hcut
      exact ⟨_, none, [], hcut, ⟨hunstopped, by simp, by simp, by simp⟩, PieceBody.statement.inj h⟩
  · rintro ⟨ts, semicolon, more, hsplit, hruns, rfl⟩
    have hlength := hruns.lengthToTerminator_eq
    unfold ofStatement
    simp only
    rw [hsplit, hlength, List.take_left, List.getElem?_append_right (Nat.le_refl _), Nat.sub_self]
    rcases hruns.exists_head with hnil | ⟨t, back, hcons, -, hbrace, hsemicolon⟩
    · rw [hnil]
      have hnone : semicolon = none := by
        cases semicolon with
        | none => rfl
        | some => cases hnil
      rw [hnone]
      rfl
    · rw [hcons]
      simp only [List.getElem?_cons_zero, hbrace]
      rw [hsemicolon]
      cases t.isPunct ';' <;> rfl

/-! ## Where a statement is cut -/

theorem dropEndWhile_append {p : Token → Bool} (hlast : ∀ t ∈ ts.getLast?, p t = false)
    (hmore : ∀ t ∈ more, p t = true) :
    dropEndWhile p (ts ++ more) = ts ∧ takeEndWhile p (ts ++ more) = more := by
  have hdrop : dropEndWhile p (ts ++ more) = ts := by
    have hreverse : ∀ t ∈ more.reverse, p t = true := fun t ht => hmore t (List.mem_reverse.mp ht)
    rw [dropEndWhile, List.reverse_append, List.dropWhile_append_of_pos hreverse]
    cases hts : ts.reverse with
    | nil => rw [List.dropWhile_nil, ← hts, List.reverse_reverse]
    | cons t front =>
      have ht := hlast t (by rw [← List.head?_reverse, hts]; rfl)
      rw [List.dropWhile_cons_of_neg (by simp [ht]), ← hts, List.reverse_reverse]
  have hwhole := dropEndWhile_append_takeEndWhile p (ts ++ more)
  rw [hdrop] at hwhole
  exact ⟨hdrop, List.append_cancel_left hwhole⟩

/-- How a declaration is cut from a run of tokens, of which `rest` comes behind the colon and the
whitespace there. -/
structure CutInto (d : Declaration) (semicolon : Option Token) (rest : List Token) : Prop where
  cut : cutAtColon? 0 (d.property ++ d.beforeColon ++ d.colon :: (d.afterColon ++ rest)) =
    some (d.property ++ d.beforeColon, d.colon, d.afterColon ++ rest)
  property : d.property ≠ [] ∧ ∀ t ∈ d.property.getLast?, t.isTrivia = false
  beforeColon : IsTrivia d.beforeColon
  afterColon : IsSpace d.afterColon
  head : ∀ t ∈ rest.head?, t.isWhitespace = false
  value : d.value = dropEndWhile Token.isWhitespace rest
  beforeSemicolon : d.beforeSemicolon =
    if semicolon.isSome then takeEndWhile Token.isWhitespace rest else []
  semicolon : d.semicolon = semicolon

/-- **How a declaration is cut from its tokens.** -/
theorem statementOf_eq_declaration_iff :
    statementOf ts semicolon = .declaration d ↔ ∃ rest,
      ts = d.property ++ d.beforeColon ++ d.colon :: (d.afterColon ++ rest)
        ∧ CutInto d semicolon rest := by
  constructor
  · intro h
    obtain ⟨front, colon, back, hcut, hproperty, rfl⟩ := exists_cut_of_statementOf h
    have hts := eq_append_of_cutAtColon? hcut
    have hfront := dropEndWhile_append_takeEndWhile Token.isTrivia front
    have hback := List.takeWhile_append_dropWhile (p := Token.isWhitespace) (l := back)
    refine ⟨back.dropWhile Token.isWhitespace, by rw [hfront, hback]; exact hts, ?_, ?_, ?_, ?_,
      ?_, rfl, rfl, rfl⟩
    · rw [hfront, hback, ← hts]
      exact hcut
    · exact ⟨hproperty, fun t ht => of_mem_getLast?_dropEndWhile ht⟩
    · exact fun t ht => of_mem_takeEndWhile ht
    · exact fun t ht => List.mem_takeWhile_imp ht
    · intro t ht
      obtain ⟨more, hmore⟩ := List.head?_eq_some_iff.mp ht
      exact isWhitespace_of_dropWhile_eq_cons hmore
  · rintro ⟨rest, rfl, h⟩
    obtain ⟨hproperty, hbefore⟩ := dropEndWhile_append h.property.2 h.beforeColon
    have hafter : (d.afterColon ++ rest).takeWhile Token.isWhitespace = d.afterColon
        ∧ (d.afterColon ++ rest).dropWhile Token.isWhitespace = rest := by
      rw [List.takeWhile_append_of_pos h.afterColon, List.dropWhile_append_of_pos h.afterColon]
      cases rest with
      | nil => simp
      | cons t rest =>
        have ht : ¬ t.isWhitespace = true := Bool.eq_false_iff.mp (h.head t rfl)
        rw [List.takeWhile_cons_of_neg ht, List.dropWhile_cons_of_neg ht, List.append_nil]
        exact ⟨rfl, rfl⟩
    rw [statementOf, h.cut]
    simp only [hproperty, hbefore, hafter, if_neg h.property.1]
    rw [← h.value, ← h.beforeSemicolon, ← h.semicolon]

/-- Trivia in front of the colon does not move it. -/
theorem cutAtColon?_respaced {back' : List Token} (hbefore : IsTrivia before)
    (hbefore' : IsTrivia before')
    (h : cutAtColon? depth (property ++ before ++ colon :: back) = some (property ++ before, colon, back)) :
    cutAtColon? depth (property ++ before' ++ colon :: back') =
      some (property ++ before', colon, back') := by
  induction property generalizing depth with
  | nil =>
    have hcolon := isPunct_of_cutAtColon? h
    have hzero := (foldl_of_cutAtColon? h).1
    rw [List.nil_append, foldl_bracketDepth_of_isTrivia hbefore] at hzero
    clear h
    subst hzero
    simp only [List.nil_append]
    induction before' with
    | nil => simp [cutAtColon?, hcolon]
    | cons t before' ih =>
      rw [IsTrivia, List.forall_mem_cons] at hbefore'
      rw [List.cons_append, cutAtColon?, isPunct_of_isTrivia hbefore'.1,
        bracketDepth_of_isTrivia hbefore'.1, Bool.and_false, if_neg Bool.false_ne_true,
        ih hbefore'.2]
      rfl
  | cons t property ih =>
    rw [List.cons_append, List.cons_append, cutAtColon?] at h ⊢
    split at h
    · cases h
    · rename_i hgo
      obtain ⟨⟨front, cut⟩, hcut, heq⟩ := Option.map_eq_some_iff.mp h
      cases heq
      rw [if_neg hgo, ih hcut]
      rfl

/-- With other trivia around its colon a declaration is cut into the same parts. -/
theorem CutInto.respaced (h : CutInto d semicolon rest) (hd : d.Respaces d') :
    CutInto d' semicolon rest := by
  have hbefore := hd.beforeColon h.beforeColon
  have hafter := hd.afterColon h.afterColon
  obtain ⟨property, before', colon, after', value, beforeSemicolon, last⟩ := d'
  cases hd.eq
  exact ⟨cutAtColon?_respaced h.beforeColon hbefore h.cut, h.property, hbefore, hafter, h.head,
    h.value, h.beforeSemicolon, h.semicolon⟩

/-- What is written of a declaration, and the whitespace behind it that its run ends with. -/
theorem CutInto.tokens_append (h : CutInto d semicolon rest) :
    d.tokens ++ (if semicolon.isSome then [] else takeEndWhile Token.isWhitespace rest) =
      d.property ++ d.beforeColon ++ d.colon :: (d.afterColon ++ rest) ++ semicolon.toList := by
  have hrest := dropEndWhile_append_takeEndWhile Token.isWhitespace rest
  rw [← h.value] at hrest
  rw [Declaration.tokens, h.beforeSemicolon, h.semicolon]
  cases semicolon <;> simp [hrest]

/-- Trivia ends no run. -/
theorem unstopped_respaced (hbefore : IsTrivia before) (hbefore' : IsTrivia before')
    {after after' : List Token} (hafter : IsSpace after) (hafter' : IsSpace after')
    (h : Unstopped 0 (property ++ before ++ colon :: (after ++ rest))) :
    Unstopped 0 (property ++ before' ++ colon :: (after' ++ rest))
      ∧ (property ++ before' ++ colon :: (after' ++ rest)).foldl bracketDepth 0 =
        (property ++ before ++ colon :: (after ++ rest)).foldl bracketDepth 0 := by
  have hsingle (a r : List Token) : colon :: (a ++ r) = [colon] ++ (a ++ r) := rfl
  rw [hsingle] at h ⊢
  rw [hsingle]
  simp only [unstopped_append_iff, List.foldl_append, foldl_bracketDepth_of_isTrivia hbefore,
    foldl_bracketDepth_of_isTrivia hbefore', foldl_bracketDepth_of_isSpace hafter,
    foldl_bracketDepth_of_isSpace hafter'] at h ⊢
  obtain ⟨⟨hproperty, -⟩, hcolon, -, hrest⟩ := h
  exact ⟨⟨⟨hproperty, unstopped_of_isTrivia hbefore' _⟩, hcolon,
    unstopped_of_isTrivia hafter'.isTrivia _, hrest⟩, trivial⟩

/-- A run ends in front of other tokens that leave its end as it is. -/
theorem RunsUpTo.of_keepsEnd {space : List Token} (h : RunsUpTo ts semicolon more)
    (hspace : IsSpace space) (hnil : semicolon.isSome = true → space = [])
    (hkeeps : KeepsEnd (space ++ more) later') :
    ∃ more', later' = space ++ more' ∧ RunsUpTo ts semicolon more' := by
  cases hsemicolon : semicolon with
  | some s =>
    rw [hnil (by rw [hsemicolon]; rfl)]
    rw [hsemicolon] at h
    exact ⟨later', rfl, h.unstopped, h.ends, by simp, fun _ => h.depth (by simp)⟩
  | none =>
    rw [hsemicolon] at h
    cases hmore : more with
    | nil =>
      rw [hmore] at h hkeeps
      rw [List.append_nil] at hkeeps
      exact ⟨[], by rw [hkeeps.space hspace, List.append_nil], h⟩
    | cons brace back =>
      rw [hmore] at h hkeeps
      have hbrace := h.closing rfl brace rfl
      obtain ⟨back', hlater⟩ := hkeeps.brace space brace back rfl hspace hbrace
      refine ⟨brace :: back', hlater, h.unstopped, h.ends, fun _ => ?_, fun _ => h.depth (by simp)⟩
      rintro _ ⟨⟩
      exact hbrace

/-- **A declaration with other trivia around its colon** is read from its tokens. -/
theorem read_respaced (h : read first (tail ++ later) = .statement (.declaration d))
    (htokens : d.tokens = first :: tail) (hd : d.Respaces d') (hkeeps : KeepsEnd later later') :
    ∃ tail', d'.tokens = first :: tail'
      ∧ read first (tail' ++ later') = .statement (.declaration d') := by
  obtain ⟨-, hread, -⟩ := exists_of_read_declaration h
  rw [hread] at h
  obtain ⟨ts, semicolon, more, hsplit, hruns, hstatement⟩ := ofStatement_eq_iff.mp h
  obtain ⟨rest, rfl, hcut⟩ := statementOf_eq_declaration_iff.mp hstatement
  have hcut' := hcut.respaced hd
  -- the whitespace behind the declaration belongs to the run without semicolon
  obtain ⟨space, hspaceEq⟩ : ∃ space : List Token, space =
    if semicolon.isSome then [] else takeEndWhile Token.isWhitespace rest := ⟨_, rfl⟩
  have hspace : IsSpace space := by
    intro t ht
    rw [hspaceEq] at ht
    split at ht
    · cases ht
    · exact of_mem_takeEndWhile ht
  have hwhole := hcut.tokens_append
  have hwhole' := hcut'.tokens_append
  rw [← hspaceEq] at hwhole hwhole'
  rw [← List.append_assoc, ← hwhole, htokens, ← List.cons_append, List.append_assoc,
    List.append_cancel_left_eq] at hsplit
  rw [hsplit] at hkeeps
  obtain ⟨more', rfl, hruns'⟩ := hruns.of_keepsEnd hspace
    (fun hsome => by rw [hspaceEq, if_pos hsome]) hkeeps
  obtain ⟨hproperty, hcolon⟩ : d'.property = d.property ∧ d'.colon = d.colon := by
    constructor <;> rw [hd.eq]
  have hnew := unstopped_respaced hcut.beforeColon hcut'.beforeColon hcut.afterColon hcut'.afterColon
    hruns'.unstopped
  rw [← hproperty, ← hcolon] at hnew
  obtain ⟨tail', htail⟩ : ∃ tail', d'.tokens = first :: tail' := by
    obtain ⟨t, property, ht⟩ := List.exists_cons_of_ne_nil hcut.property.1
    rw [Declaration.tokens, ht] at htokens
    rw [Declaration.tokens, hproperty, ht, (List.cons.inj htokens).1]
    exact ⟨_, rfl⟩
  refine ⟨tail', htail, ?_⟩
  rw [hread]
  refine ofStatement_eq_iff.mpr ⟨_, semicolon, more', ?_,
    ⟨hnew.1, hruns'.ends, hruns'.closing, fun hne => ?_⟩,
    statementOf_eq_declaration_iff.mpr ⟨rest, rfl, hcut'⟩⟩
  · rw [← List.append_assoc, ← List.append_assoc, ← hwhole', htail, List.cons_append, List.cons_append]
  · rw [hnew.2, hproperty, hcolon]
    exact hruns'.depth hne

/-! ## All pieces -/

/-- The tokens of the pieces of a run, with other declarations. -/
def tokensWithDeclarations (f : Declaration → Declaration) (ts : List Token) : List Token :=
  (split ts).1.flatMap (fun p => (p.mapDeclaration f).tokens) ++ (split ts).2

variable {f : Declaration → Declaration}

/-- A piece is a declaration, or it stays. -/
theorem mapDeclaration_eq (b : PieceBody) :
    (∃ d, b = .statement (.declaration d))
      ∨ b.declaration? = none ∧ ∀ f : Declaration → Declaration, b.mapDeclaration f = b := by
  cases b with
  | opening | closing => exact .inr ⟨rfl, fun _ => rfl⟩
  | statement s =>
    cases s with
    | declaration d => exact .inl ⟨d, rfl⟩
    | atRule | comment | empty | skipped => exact .inr ⟨rfl, fun _ => rfl⟩

/-- **A declaration with other trivia around its colon** takes its place. -/
theorem takesPlaceOf_mapDeclaration (hf : ∀ d : Declaration, d.Respaces (f d)) (p : Piece) :
    (p.mapDeclaration f).TakesPlaceOf p := by
  obtain ⟨leading, body⟩ := p
  rcases mapDeclaration_eq body with ⟨d, rfl⟩ | ⟨-, hstays⟩
  · refine ⟨fun brace hbrace => (nomatch hbrace),
      fun first tail later later' hleading hfirst htokens hread hkeeps => ?_⟩
    obtain ⟨tail', htail, hnew⟩ := read_respaced hread htokens (hf d) hkeeps
    have hsplit := split_cons hleading hfirst hnew htail
    have hbody : ((PieceBody.statement (.declaration d)).mapDeclaration f).tokens = _ := htail
    rw [mapDeclaration, tokens, hbody, List.append_assoc]
    exact hsplit
  · rw [mapDeclaration, hstays f]
    exact .refl _

/-- **With other trivia around the colons of declarations** no other piece changes. -/
theorem split_respaced (hf : ∀ d : Declaration, d.Respaces (f d)) (ts : List Token) :
    split (tokensWithDeclarations f ts) = ((split ts).1.map (mapDeclaration f), (split ts).2) := by
  have hsame : split ts = ((split ts).1.map fun p => p, (split ts).2) := by rw [List.map_id']
  exact split_of_takesPlace (fun p _ => takesPlaceOf_mapDeclaration hf p) hsame

end Piece

/-- **The declarations with other trivia around their colons.** -/
theorem Stylesheet.declarations_respaced {f : Declaration → Declaration}
    (hf : ∀ d : Declaration, d.Respaces (f d)) (ts : List Token) :
    (ofTokens (Piece.tokensWithDeclarations f ts)).declarations = (ofTokens ts).declarations.map f := by
  rw [declarations_split, declarations_split, Piece.split_respaced hf, List.filterMap_map,
    List.map_filterMap]
  refine List.filterMap_congr fun p _ => ?_
  rw [Function.comp_apply, Piece.mapDeclaration]
  cases p.body with
  | opening | closing => rfl
  | statement s => cases s <;> rfl

end SheetLint
