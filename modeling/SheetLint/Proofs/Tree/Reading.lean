import SheetLint.Proofs.Tree.Constructs

/-!
# What a tree holds, read off its tokens

A reader that walks over the tokens once finds all rule sets, declarations and at-rules. It keeps
no more than the depth of brackets and whether a name stands in front of a colon. It looks at the
role that a token plays, not at its text, and skips whitespace and comments.

Results:
* `Reading.find_atRule`, `Reading.find_statement`: a reader up to the end of a piece.
* `Piece.find_read`: what a reader finds in one piece.
* `Stylesheet.constructs_ofTokens`: what a reader finds is what the tree holds, in the same order.
-/

namespace SheetLint

/-! ## Roles of tokens -/

/-- The part that a token other than whitespace and comments plays for the tree. -/
inductive Role where
  | openBrace
  | closeBrace
  | semicolon
  | colon
  | openBracket
  | closeBracket
  | keyword
  | word
deriving DecidableEq, Repr

/-- The role of a punctuation character. -/
def Role.ofPunct : Text → Role
  | ['\x7b'] => .openBrace
  | ['\x7d'] => .closeBrace
  | [';'] => .semicolon
  | [':'] => .colon
  | ['('] => .openBracket
  | ['['] => .openBracket
  | [')'] => .closeBracket
  | [']'] => .closeBracket
  | _ => .word

/-- The role of a token; none for whitespace and comments. -/
def Token.role? (t : Token) : Option Role :=
  match t.kind with
  | .whitespace => none
  | .lineComment => none
  | .blockComment => none
  | .punct => some (.ofPunct t.text)
  | .atKeyword => some .keyword
  | _ => some .word

/-- The roles of the tokens of a run. -/
def Tokens.roles (ts : List Token) : List Role := ts.filterMap Token.role?

namespace Role

/-- Whether a token of the role ends a statement outside brackets. -/
def isTerminator : Role → Bool
  | openBrace => true
  | closeBrace => true
  | semicolon => true
  | _ => false

/-- The depth of brackets behind a token of the role. -/
def depthAfter (depth : Nat) : Role → Nat
  | openBracket => depth + 1
  | closeBracket => depth - 1
  | _ => depth

end Role

namespace Token

theorem role?_eq_none_iff {t : Token} : t.role? = none ↔ t.isTrivia = true := by
  obtain ⟨kind, text, span⟩ := t
  cases kind <;> simp [role?, isTrivia, isWhitespace, isComment]

theorem isTerminator_eq (t : Token) : Piece.isTerminator t = t.role?.any Role.isTerminator := by
  obtain ⟨kind, text, span⟩ := t
  cases kind
  case punct =>
    simp only [role?, Piece.isTerminator, isPunct]
    fun_cases Role.ofPunct text <;> simp_all [Role.isTerminator]
  all_goals rfl

theorem bracketDepth_eq (depth : Nat) (t : Token) :
    Tokens.bracketDepth depth t = (t.role?.map (Role.depthAfter depth)).getD depth := by
  obtain ⟨kind, text, span⟩ := t
  cases kind
  case punct =>
    simp only [role?, Tokens.bracketDepth, isOpener, isCloser, isPunct]
    fun_cases Role.ofPunct text <;> simp_all [Role.depthAfter]
  all_goals rfl

theorem isPunct_colon_eq (t : Token) : t.isPunct ':' = decide (t.role? = some .colon) := by
  obtain ⟨kind, text, span⟩ := t
  cases kind
  case punct =>
    simp only [role?, Role.ofPunct, isPunct]
    split <;> simp_all
  all_goals rfl

theorem role?_eq_some_keyword_iff {t : Token} :
    t.role? = some .keyword ↔ t.kind = .atKeyword := by
  obtain ⟨kind, text, span⟩ := t
  cases kind
  case punct =>
    simp only [role?, Role.ofPunct]
    split <;> simp
  all_goals simp [role?]

theorem role?_of_isPunct {t : Token} {c : Char} (h : t.isPunct c = true) :
    t.role? = some (.ofPunct [c]) := by
  obtain ⟨hkind, htext⟩ := Bool.and_eq_true_iff.mp h
  rw [role?, eq_of_beq hkind, eq_of_beq htext]

theorem isPunct_openBrace_eq (t : Token) :
    t.isPunct '\x7b' = decide (t.role? = some .openBrace) := by
  obtain ⟨kind, text, span⟩ := t
  cases kind
  case punct =>
    simp only [role?, Role.ofPunct, isPunct]
    split <;> simp_all
  all_goals rfl

end Token

/-! ## Reading roles one by one -/

/-- How far a reader is. -/
inductive Reading where
  /-- Between two pieces. -/
  | between
  /-- Behind an at-keyword. -/
  | atRule (depth : Nat)
  /-- Behind the first token of another statement; and behind its first colon outside brackets,
  whether something stands in front of that colon. -/
  | statement (depth : Nat) (named : Option Bool)
deriving DecidableEq, Repr

namespace Reading

/-- Reads one role, and tells what is complete with it. -/
def step : Reading → Role → Reading × Option Construct
  | between, .openBrace => (between, some .ruleSet)
  | between, .closeBrace => (between, none)
  | between, .semicolon => (between, none)
  | between, .keyword => (atRule 0, none)
  | between, .colon => (statement 0 (some false), none)
  | between, r => (statement (r.depthAfter 0) none, none)
  | atRule depth, r =>
    if depth = 0 && r.isTerminator then (between, some .atRule)
    else (atRule (r.depthAfter depth), none)
  | statement depth named, r =>
    if depth = 0 && r.isTerminator then
      (between, if r = .openBrace then some .ruleSet
        else if named = some true then some .declaration else none)
    else
      (statement (r.depthAfter depth)
        (if depth = 0 && r = .colon then named.or (some true) else named), none)

/-- What is complete at the end of the source. -/
def finish : Reading → Option Construct
  | between => none
  | atRule _ => some .atRule
  | statement _ named => if named = some true then some .declaration else none

/-- The constructs that a reader finds from here on. -/
def constructs : Reading → List Role → List Construct
  | reading, [] => reading.finish.toList
  | reading, r :: rs => (reading.step r).2.toList ++ (reading.step r).1.constructs rs

/-- The constructs that a reader finds in tokens. -/
def find (reading : Reading) (ts : List Token) : List Construct :=
  reading.constructs (Tokens.roles ts)

variable {reading : Reading} {t : Token} {ts : List Token}

@[simp] theorem find_nil : reading.find [] = reading.finish.toList := rfl

theorem find_cons_of_none (h : t.role? = none) : reading.find (t :: ts) = reading.find ts := by
  simp [find, Tokens.roles, h]

theorem find_cons_of_some {r : Role} (h : t.role? = some r) :
    reading.find (t :: ts) = (reading.step r).2.toList ++ (reading.step r).1.find ts := by
  simp [find, Tokens.roles, h, constructs]

/-- Whitespace says nothing. -/
theorem find_append_of_isWhitespace {space : List Token}
    (hspace : ∀ t ∈ space, t.isWhitespace = true) : reading.find (space ++ ts) = reading.find ts := by
  induction space with
  | nil => rfl
  | cons t space ih =>
    have ht : t.role? = none := by
      rw [Token.role?_eq_none_iff, Token.isTrivia, hspace t List.mem_cons_self, Bool.true_or]
    rw [List.cons_append, find_cons_of_none ht]
    exact ih fun u hu => hspace u (List.mem_cons_of_mem t hu)

/-! ## Reading up to a terminator -/

open Piece in
/-- **Reading an at-rule**: it is complete with the first terminator outside brackets, or at the
end of the source. -/
theorem find_atRule (depth : Nat) (ts : List Token) :
    (atRule depth).find ts =
      .atRule :: between.find (ts.drop (lengthToTerminator depth ts + 1)) := by
  induction ts generalizing depth with
  | nil => rfl
  | cons t ts ih =>
    rw [lengthToTerminator, Token.isTerminator_eq, Token.bracketDepth_eq]
    cases hrole : t.role? with
    | none =>
      simp only [Option.any_none, Bool.and_false, Bool.false_eq_true, if_false, Option.map_none,
        Option.getD_none, List.drop_succ_cons]
      rw [find_cons_of_none hrole, ih]
    | some r =>
      rw [find_cons_of_some hrole]
      by_cases hend : (depth = 0 && r.isTerminator) = true
      · simp [hend, step]
      · simp [hend, step, ih]

/-- What is known of a name in front of the first colon, behind more tokens. -/
def namedBehind (depth : Nat) (named : Option Bool) (ts : List Token) : Option Bool :=
  named.or ((Piece.cutAtColon? depth ts).map fun _ => true)

/-- What a statement is complete as, in front of a terminator or of the end of the source. -/
def complete (named : Option Bool) (terminator : Option Token) : Option Construct :=
  if terminator.any (·.isPunct '\x7b') then some .ruleSet
  else if named = some true then some .declaration else none

theorem namedBehind_cons_of_none {depth : Nat} {named : Option Bool} (h : t.role? = none) :
    namedBehind depth named (t :: ts) = namedBehind depth named ts := by
  unfold namedBehind
  rw [Piece.cutAtColon?, Token.isPunct_colon_eq, Token.bracketDepth_eq, h]
  simp [Function.comp_def]

theorem namedBehind_cons_of_some {depth : Nat} {named : Option Bool} {r : Role}
    (h : t.role? = some r) :
    namedBehind depth named (t :: ts) =
      namedBehind (r.depthAfter depth)
        (if depth = 0 && r = .colon then named.or (some true) else named) ts := by
  unfold namedBehind
  rw [Piece.cutAtColon?, Token.isPunct_colon_eq, Token.bracketDepth_eq, h]
  by_cases hcolon : depth = 0 ∧ r = .colon
  · cases named <;> simp [hcolon]
  · simp [hcolon, Function.comp_def]

open Piece in
/-- **Reading another statement**: it is complete with the first terminator outside brackets, or at
the end of the source. -/
theorem find_statement (depth : Nat) (named : Option Bool) (ts : List Token) :
    (statement depth named).find ts =
      (complete (namedBehind depth named (ts.take (lengthToTerminator depth ts)))
          ts[lengthToTerminator depth ts]?).toList
        ++ between.find (ts.drop (lengthToTerminator depth ts + 1)) := by
  induction ts generalizing depth named with
  | nil => simp [lengthToTerminator, namedBehind, cutAtColon?, finish, complete]
  | cons t ts ih =>
    rw [lengthToTerminator, Token.isTerminator_eq, Token.bracketDepth_eq]
    cases hrole : t.role? with
    | none =>
      simp only [Option.any_none, Bool.and_false, Bool.false_eq_true, if_false, Option.map_none,
        Option.getD_none, List.drop_succ_cons, List.getElem?_cons_succ, List.take_succ_cons]
      rw [find_cons_of_none hrole, ih, namedBehind_cons_of_none hrole]
    | some r =>
      rw [find_cons_of_some hrole]
      by_cases hend : (depth = 0 && r.isTerminator) = true
      · have hbrace := Token.isPunct_openBrace_eq t
        rw [hrole] at hbrace
        simp [hend, step, complete, hbrace, namedBehind, cutAtColon?]
      · simp only [Option.any_some, hend, step, Bool.false_eq_true, if_false, Option.map_some,
          Option.getD_some, List.drop_succ_cons, List.getElem?_cons_succ, List.take_succ_cons]
        rw [ih, namedBehind_cons_of_some hrole]
        rfl

end Reading

/-! ## Pieces -/

namespace Piece

variable {first : Token} {rest ts : List Token}

open Reading Tokens

/-- Where a statement ends there is a terminator. -/
theorem isTerminator_of_getElem? {depth : Nat} {t : Token}
    (h : ts[lengthToTerminator depth ts]? = some t) : isTerminator t = true := by
  induction ts generalizing depth with
  | nil => cases h
  | cons u us ih =>
    rw [lengthToTerminator] at h
    split at h
    · rename_i hend
      cases h
      exact (Bool.and_eq_true_iff.mp hend).2
    · exact ih h

/-- A statement is a declaration when something stands in front of its first colon. -/
theorem construct?_statementOf (hfirst : first.isTrivia = false) (semicolon : Option Token) :
    (statementOf (first :: ts) semicolon).construct? =
      if namedBehind (bracketDepth 0 first) (if first.isPunct ':' then some false else none) ts
          = some true then some .declaration else none := by
  unfold statementOf namedBehind
  rw [cutAtColon?]
  by_cases hcolon : first.isPunct ':' = true
  · cases semicolon <;> simp [hcolon, dropEndWhile, Statement.construct?]
  · cases hcut : cutAtColon? (bracketDepth 0 first) ts with
    | none =>
      simp only [hcolon, Bool.and_false, Bool.false_eq_true, if_false, Option.map_none,
        Option.or_none]
      cases semicolon <;> split <;> rfl
    | some cut => simp [hcolon, dropEndWhile_cons_ne_nil hfirst, Statement.construct?]

/-- Behind a piece stands what it leaves of its cut, and what is behind the cut. -/
theorem drop_of_append {body space : List Token} {n : Nat} (hbody : body ≠ [])
    (happend : body ++ space = first :: rest.take n) :
    rest.drop (body.length - 1) = space ++ rest.drop n := by
  obtain ⟨t, ts, rfl⟩ := List.exists_cons_of_ne_nil hbody
  rw [List.cons_append] at happend
  obtain ⟨-, htake⟩ := List.cons.inj happend
  have hrest : rest = ts ++ (space ++ rest.drop n) := by
    rw [← List.append_assoc, htake, List.take_append_drop]
  rw [List.length_cons, Nat.add_sub_cancel]
  exact (congrArg (List.drop ts.length) hrest).trans List.drop_left

/-- Behind a piece that leaves whitespace in front of its end, reading goes on at that end. -/
theorem find_drop_of_append {body space : List Token} {n : Nat} (hbody : body ≠ [])
    (hspace : ∀ t ∈ space, t.isWhitespace = true) (happend : body ++ space = first :: rest.take n)
    (hend : ∀ t, rest[n]? = some t → t.isPunct '\x7d' = true) :
    between.find (rest.drop (body.length - 1)) = between.find (rest.drop (n + 1)) := by
  rw [drop_of_append hbody happend, find_append_of_isWhitespace hspace]
  cases hget : rest[n]? with
  | none =>
    have hlength : rest.length ≤ n := List.getElem?_eq_none_iff.mp hget
    rw [List.drop_of_length_le hlength, List.drop_of_length_le (Nat.le_succ_of_le hlength)]
  | some u =>
    have hrole : u.role? = some .closeBrace := Token.role?_of_isPunct (hend u hget)
    rw [List.drop_eq_getElem?_toList_append, hget, Option.toList_some, List.singleton_append,
      find_cons_of_some hrole]
    rfl

theorem length_take_of_getElem? {α : Type} {l : List α} {n : Nat} {x : α} (h : l[n]? = some x) :
    (l.take n).length = n := by
  obtain ⟨hlt, -⟩ := List.getElem?_eq_some_iff.mp h
  rw [List.length_take, Nat.min_eq_left (Nat.le_of_lt hlt)]

/-- A terminator that is neither brace nor semicolon closes a block. -/
theorem isPunct_closeBrace_of_isTerminator {t : Token} (h : isTerminator t = true)
    (hopen : t.isPunct '\x7b' = false) (hsemi : t.isPunct ';' = false) :
    t.isPunct '\x7d' = true := by
  rw [isTerminator, hopen, hsemi] at h
  exact h

theorem find_ofAtRule (keyword : Token) (rest : List Token) :
    (atRule 0).find rest =
      (ofAtRule keyword rest).construct?.toList
        ++ between.find (rest.drop ((ofAtRule keyword rest).tokens.length - 1)) := by
  have hspace : ∀ us : List Token, ∀ t ∈ takeEndWhile Token.isWhitespace us,
      t.isWhitespace = true := fun us t ht => of_mem_takeEndWhile ht
  have hopen : ∀ prelude : List Token, keyword :: dropEndWhile Token.isWhitespace prelude
      ++ takeEndWhile Token.isWhitespace prelude = keyword :: prelude := fun prelude => by
    rw [List.cons_append, dropEndWhile_append_takeEndWhile]
  rw [find_atRule]
  unfold ofAtRule
  simp only
  cases hget : rest[lengthToTerminator 0 rest]? with
  | none =>
    have hleft := find_drop_of_append (List.cons_ne_nil keyword _) (hspace _)
      (hopen (rest.take (lengthToTerminator 0 rest))) (fun t ht => by rw [hget] at ht; cases ht)
    simp only [PieceBody.tokens, Statement.tokens, Option.toList_none, List.append_nil, hleft]
    rfl
  | some t =>
    have hlength := length_take_of_getElem? hget
    simp only
    split
    · simp [PieceBody.tokens, Head.tokens, PieceBody.construct?, Head.construct, hlength]
    · rename_i hnobrace
      split
      · simp [PieceBody.tokens, Statement.tokens, PieceBody.construct?, Statement.construct?,
          hlength]
      · rename_i hnosemi
        have hclose := isPunct_closeBrace_of_isTerminator (isTerminator_of_getElem? hget)
          (by simpa using hnobrace) (by simpa using hnosemi)
        have hleft := find_drop_of_append (List.cons_ne_nil keyword _) (hspace _)
          (hopen (rest.take (lengthToTerminator 0 rest)))
          (fun u hu => by rw [hget] at hu; cases hu; exact hclose)
        simp only [PieceBody.tokens, Statement.tokens, Option.toList_none, List.append_nil, hleft]
        rfl

theorem find_ofStatement (hfirst : first.isTrivia = false) (hend : isTerminator first = false)
    (rest : List Token) :
    (statement (bracketDepth 0 first) (if first.isPunct ':' then some false else none)).find rest =
      (ofStatement first rest).construct?.toList
        ++ between.find (rest.drop ((ofStatement first rest).tokens.length - 1)) := by
  have hlength : lengthToTerminator 0 (first :: rest) =
      lengthToTerminator (bracketDepth 0 first) rest + 1 := by
    rw [lengthToTerminator, hend]
    simp
  have hwhite : first.isWhitespace = false := (Bool.or_eq_false_iff.mp hfirst).1
  rw [find_statement]
  unfold ofStatement
  simp only [hlength, List.take_succ_cons, List.getElem?_cons_succ]
  cases hget : rest[lengthToTerminator (bracketDepth 0 first) rest]? with
  | none =>
    obtain ⟨space, hspace, happend⟩ := statementOf_none_append
      (first :: rest.take (lengthToTerminator (bracketDepth 0 first) rest))
    have hleft := find_drop_of_append (tokens_statementOf_none_ne_nil hwhite _) hspace happend
      (fun t ht => by rw [hget] at ht; cases ht)
    simp only [PieceBody.tokens, PieceBody.construct?, hleft, construct?_statementOf hfirst]
    rfl
  | some t =>
    have htake := length_take_of_getElem? hget
    by_cases hbrace : t.isPunct '\x7b' = true
    · simp [PieceBody.tokens, Head.tokens, PieceBody.construct?, Head.construct, htake, complete,
        hbrace]
    · by_cases hsemi : t.isPunct ';' = true
      · simp [PieceBody.tokens, tokens_statementOf_some, PieceBody.construct?,
          construct?_statementOf hfirst, htake, complete, hbrace, hsemi]
      · have hclose := isPunct_closeBrace_of_isTerminator (isTerminator_of_getElem? hget)
          (Bool.eq_false_iff.mpr hbrace) (Bool.eq_false_iff.mpr hsemi)
        obtain ⟨space, hspace, happend⟩ := statementOf_none_append
          (first :: rest.take (lengthToTerminator (bracketDepth 0 first) rest))
        have hleft := find_drop_of_append (tokens_statementOf_none_ne_nil hwhite _) hspace happend
          (fun u hu => by rw [hget] at hu; cases hu; exact hclose)
        simp [PieceBody.tokens, PieceBody.construct?, hleft, construct?_statementOf hfirst, complete,
          hbrace, hsemi]

/-- A token with no say in the kind of its piece starts a statement. -/
theorem find_cons_of_isWord (htrivia : first.isTrivia = false) (hend : isTerminator first = false)
    (hkeyword : first.kind ≠ .atKeyword) (rest : List Token) :
    between.find (first :: rest) =
      (statement (bracketDepth 0 first)
        (if first.isPunct ':' then some false else none)).find rest := by
  cases hrole : first.role? with
  | none =>
    rw [Token.role?_eq_none_iff.mp hrole] at htrivia
    cases htrivia
  | some r =>
    rw [Token.isTerminator_eq, hrole] at hend
    rw [find_cons_of_some hrole, Token.bracketDepth_eq, Token.isPunct_colon_eq, hrole]
    cases r with
    | keyword => exact absurd (Token.role?_eq_some_keyword_iff.mp hrole) hkeyword
    | openBrace => cases hend
    | closeBrace => cases hend
    | semicolon => cases hend
    | colon => rfl
    | openBracket => rfl
    | closeBracket => rfl
    | word => rfl

/-- **One piece**: a reader between pieces finds what the piece counts as, and goes on behind it. -/
theorem find_read (hfirst : first.isWhitespace = false) (rest : List Token) :
    between.find (first :: rest) =
      (read first rest).construct?.toList
        ++ between.find (rest.drop ((read first rest).tokens.length - 1)) := by
  fun_cases read first rest with
  | case1 hclose =>
    rw [find_cons_of_some (Token.role?_of_isPunct hclose)]
    rfl
  | case2 hnoclose hcomment =>
    rw [find_cons_of_none (Token.role?_eq_none_iff.mpr (by simp [Token.isTrivia, hcomment]))]
    rfl
  | case3 hnoclose hnocomment hsemi =>
    rw [find_cons_of_some (Token.role?_of_isPunct hsemi)]
    rfl
  | case4 hnoclose hnocomment hnosemi hkeyword =>
    have hrole : first.role? = some .keyword := by
      rw [Token.role?, eq_of_beq hkeyword]
    rw [find_cons_of_some hrole, ← find_ofAtRule]
    rfl
  | case5 hnoclose hnocomment hnosemi hnokeyword =>
    have htrivia : first.isTrivia = false := by
      simp [Token.isTrivia, hfirst, hnocomment]
    by_cases hopen : first.isPunct '\x7b' = true
    · rw [find_cons_of_some (Token.role?_of_isPunct hopen)]
      have hend : isTerminator first = true := by simp [isTerminator, hopen]
      simp [ofStatement, lengthToTerminator, hend, hopen, PieceBody.tokens, Head.tokens,
        PieceBody.construct?, Head.construct, step, Role.ofPunct]
    · have hend : isTerminator first = false := by
        simp [isTerminator, hopen, hnosemi, hnoclose]
      rw [← find_ofStatement htrivia hend]
      exact find_cons_of_isWord htrivia hend (by simpa using hnokeyword) rest

/-- **The constructs of the pieces are those that a reader finds.** -/
theorem constructs_split (ts : List Token) :
    (split ts).1.filterMap (·.body.construct?) = between.find ts := by
  fun_induction split ts with
  | case1 ts _ hnil =>
    have hall : ∀ t ∈ ts, t.isWhitespace = true := by
      simpa using List.dropWhile_eq_nil_iff.mp hnil
    have hread : between.find (ts ++ []) = between.find [] := find_append_of_isWhitespace hall
    rw [List.append_nil] at hread
    rw [hread]
    rfl
  | case2 ts _ first rest hcons body more ih =>
    have hfirst : first.isWhitespace = false := by
      have := List.head_dropWhile_not Token.isWhitespace (l := ts) (by rw [hcons]; simp)
      simpa [hcons] using this
    have hspace : ∀ t ∈ ts.takeWhile Token.isWhitespace, t.isWhitespace = true := fun t ht =>
      List.mem_takeWhile_imp ht
    rw [← List.takeWhile_append_dropWhile (p := Token.isWhitespace) (l := ts), hcons,
      find_append_of_isWhitespace hspace, find_read hfirst, ← ih]
    rw [List.filterMap_cons]
    cases h : body.construct? <;> rfl

end Piece

/-- **A flat reading finds what the tree holds.** -/
theorem Stylesheet.constructs_ofTokens (ts : List Token) :
    (ofTokens ts).constructs = Reading.between.find ts := by
  rw [constructs_split, Piece.constructs_split]

end SheetLint
