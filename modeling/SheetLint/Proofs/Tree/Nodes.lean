import SheetLint.Proofs.Tree.Constructs

/-!
# The nodes of a tree and their tokens

The tokens of a node stand side by side in the source, those of the nodes inside it among them.
What a node is made of comes from single pieces: the whitespace in front of it and in front of its
closing brace, and its statement, which was read off a run of tokens.

Results:
* `Node.tokens_isInfix_of_mem`: the tokens of a node stand side by side.
* `Node.mem_nodesOfAll_of_mem_children`: the nodes in a block are nodes of the tree.
* `Stylesheet.madeOfPieces_of_mem_nodes`: every node of a tree is made of pieces.
-/

namespace SheetLint

namespace Node

/-! ## Nodes inside nodes -/

theorem mem_nodesOfAll_iff {n : Node} {ns : List Node} :
    n ∈ nodesOfAll ns ↔ ∃ m ∈ ns, n ∈ m.nodes := by
  induction ns with
  | nil => simp [nodesOfAll]
  | cons m ms ih => simp [nodesOfAll, ih]

theorem mem_nodes_self (n : Node) : n ∈ n.nodes := by
  cases n <;> simp [nodes]

theorem mem_nodesOfAll_of_mem {n : Node} {ns : List Node} (h : n ∈ ns) : n ∈ nodesOfAll ns :=
  mem_nodesOfAll_iff.mpr ⟨n, h, n.mem_nodes_self⟩

mutual

/-- The tokens of a node inside another stand side by side among the tokens of that. -/
theorem tokens_isInfix_of_mem_nodes : (m : Node) → ∀ n ∈ m.nodes, n.tokens <:+: m.tokens
  | .statement leading level s => by
    intro n hn
    cases List.mem_singleton.mp hn
    exact List.infix_rfl
  | .block leading level depth head opening children trailing closing => by
    intro n hn
    rcases List.mem_cons.mp hn with rfl | hinside
    · exact List.infix_rfl
    · refine (tokens_isInfix_of_mem children n hinside).trans
        ⟨leading ++ head.tokens ++ [opening], trailing ++ closing.toList, ?_⟩
      simp [tokens]

/-- **The tokens of a node stand side by side.** -/
theorem tokens_isInfix_of_mem :
    (ns : List Node) → ∀ n ∈ nodesOfAll ns, n.tokens <:+: tokensOfAll ns
  | [] => by
    intro n hn
    cases hn
  | m :: ms => by
    intro n hn
    rcases List.mem_append.mp hn with hfirst | hlater
    · exact (tokens_isInfix_of_mem_nodes m n hfirst).trans (List.infix_append' [] _ _)
    · exact (tokens_isInfix_of_mem ms n hlater).trans (List.suffix_append _ _).isInfix

/-- The nodes in a node inside another are in that. -/
theorem nodes_subset_of_mem_nodes : (m : Node) → ∀ n ∈ m.nodes, n.nodes ⊆ m.nodes
  | .statement leading level s => by
    intro n hn
    rw [List.mem_singleton.mp hn]
    exact List.Subset.refl _
  | .block leading level depth head opening children trailing closing => by
    intro n hn
    rcases List.mem_cons.mp hn with rfl | hinside
    · exact List.Subset.refl _
    · exact List.Subset.trans (nodes_subset_of_mem children n hinside) (List.subset_cons_self _ _)

theorem nodes_subset_of_mem : (ns : List Node) → ∀ n ∈ nodesOfAll ns, n.nodes ⊆ nodesOfAll ns
  | [] => by
    intro n hn
    cases hn
  | m :: ms => by
    intro n hn
    rcases List.mem_append.mp hn with hfirst | hlater
    · exact List.Subset.trans (nodes_subset_of_mem_nodes m n hfirst) (List.subset_append_left _ _)
    · exact List.Subset.trans (nodes_subset_of_mem ms n hlater) (List.subset_append_right _ _)

end

/-- **The nodes in a block are nodes of the tree.** -/
theorem mem_nodesOfAll_of_mem_children {n m : Node} {ns : List Node} {body : Body}
    (hm : m ∈ nodesOfAll ns) (hbody : m.body? = some body) (hn : n ∈ body.children) :
    n ∈ nodesOfAll ns := by
  refine nodes_subset_of_mem ns m hm ?_
  cases m with
  | statement => cases hbody
  | block =>
    cases hbody
    exact List.mem_cons_of_mem _ (mem_nodesOfAll_of_mem hn)

theorem tokensOfAll_isInfix {ns ms : List Node} (h : ns <:+: ms) :
    tokensOfAll ns <:+: tokensOfAll ms := by
  obtain ⟨front, back, rfl⟩ := h
  rw [tokensOfAll_append, tokensOfAll_append]
  exact ⟨_, _, rfl⟩

/-- The tokens of the nodes in a block stand side by side. -/
theorem tokensOfAll_children_isInfix {m : Node} {ns : List Node} {body : Body}
    (hm : m ∈ nodesOfAll ns) (hbody : m.body? = some body) :
    tokensOfAll body.children <:+: tokensOfAll ns := by
  refine List.IsInfix.trans ?_ (tokens_isInfix_of_mem ns m hm)
  cases m with
  | statement => cases hbody
  | block leading level depth head opening children trailing closing =>
    cases hbody
    refine ⟨leading ++ head.tokens ++ [opening], trailing ++ closing.toList, ?_⟩
    simp [tokens]

end Node

/-! ## What nodes are made of -/

/-- What a statement of a tree is: read off a run of tokens, or a stray closing brace. -/
inductive Statement.OfPiece : Statement → Prop
  | read {first : Token} {rest : List Token} {s : Statement}
      (not_space : first.isWhitespace = false) (read_eq : Piece.read first rest = .statement s) :
      OfPiece s
  | stray (brace : Token) : OfPiece (.skipped [brace] (some ⟨.unexpectedBrace, brace.span⟩))

/-- Whether all tokens of a run are whitespace. -/
def Tokens.IsSpace (ts : List Token) : Prop := ∀ t ∈ ts, t.isWhitespace = true

theorem Tokens.isSpace_takeEndWhile (ts : List Token) : IsSpace (takeEndWhile Token.isWhitespace ts) :=
  fun _ ht => of_mem_takeEndWhile ht

namespace Piece

/-- Whether a piece was read behind whitespace. -/
structure Sound (p : Piece) : Prop where
  leading : Tokens.IsSpace p.leading
  statement : ∀ s, p.body = .statement s → s.OfPiece

theorem sound_split (ts : List Token) :
    (∀ p ∈ (split ts).1, p.Sound) ∧ Tokens.IsSpace (split ts).2 := by
  have hspace (ts : List Token) : Tokens.IsSpace (ts.takeWhile Token.isWhitespace) :=
    fun t ht => List.mem_takeWhile_imp ht
  fun_induction split ts with
  | case1 ts leading hnil => exact ⟨by simp, hspace ts⟩
  | case2 ts leading first rest hcons body more ih =>
    refine ⟨?_, ih.2⟩
    rw [List.forall_mem_cons]
    refine ⟨⟨hspace ts, fun s hs => ?_⟩, ih.1⟩
    have hfirst : first.isWhitespace = false := by
      have := List.head_dropWhile_not Token.isWhitespace (l := ts) (by rw [hcons]; simp)
      simpa [hcons] using this
    exact .read hfirst hs

end Piece

namespace Piece

theorem isSpace_afterColon_statementOf {ts : List Token} {semicolon : Option Token}
    {d : Declaration} (h : statementOf ts semicolon = .declaration d) :
    Tokens.IsSpace d.afterColon := by
  obtain ⟨front, colon, back, -, -, rfl⟩ := exists_cut_of_statementOf h
  exact fun t ht => List.mem_takeWhile_imp ht

/-- A declaration is read as a statement. -/
theorem exists_statementOf_of_read {first : Token} {rest : List Token} {d : Declaration}
    (h : read first rest = .statement (.declaration d)) :
    ∃ ts semicolon, statementOf ts semicolon = .declaration d := by
  unfold read at h
  split_ifs at h
  · cases h
  · cases h
  · unfold ofAtRule at h
    simp only at h
    split at h
    · split_ifs at h <;> cases h
    · cases h
  · unfold ofStatement at h
    simp only at h
    split at h
    · split_ifs at h
      · exact ⟨_, _, PieceBody.statement.inj h⟩
      · exact ⟨_, _, PieceBody.statement.inj h⟩
    · exact ⟨_, _, PieceBody.statement.inj h⟩

/-- A declaration has whitespace behind its colon. -/
theorem isSpace_afterColon {first : Token} {rest : List Token} {d : Declaration}
    (h : read first rest = .statement (.declaration d)) : Tokens.IsSpace d.afterColon := by
  obtain ⟨ts, semicolon, hstatement⟩ := exists_statementOf_of_read h
  exact isSpace_afterColon_statementOf hstatement

end Piece

namespace Node

/-- Whether a node is made of pieces, whatever the nodes inside it are. -/
def MadeOfPieces : Node → Prop
  | .statement leading _ s => Tokens.IsSpace leading ∧ s.OfPiece
  | .block leading _ _ _ _ _ trailing _ => Tokens.IsSpace leading ∧ Tokens.IsSpace trailing

/-- Whether a node and all nodes inside it are made of pieces. -/
def AllMade (n : Node) : Prop := ∀ m ∈ n.nodes, m.MadeOfPieces

theorem allMade_statement {leading : List Token} {level : Nat} {s : Statement}
    (hleading : Tokens.IsSpace leading) (hs : s.OfPiece) : AllMade (.statement leading level s) := by
  intro m hm
  rw [List.mem_singleton.mp hm]
  exact ⟨hleading, hs⟩

end Node

namespace Stylesheet

open Node

theorem allMade_close {b : OpenBlock} {outer : List OpenBlock} {done : List Node}
    {trailing : List Token} (closing : Option Token) (hleading : Tokens.IsSpace b.leading)
    (hdone : ∀ n ∈ done, n.AllMade) (htrailing : Tokens.IsSpace trailing) :
    (b.close outer done.reverse trailing closing).AllMade := by
  intro m hm
  rcases List.mem_cons.mp hm with rfl | hinside
  · exact ⟨hleading, htrailing⟩
  · obtain ⟨n, hn, hmn⟩ := mem_nodesOfAll_iff.mp hinside
    exact hdone n (List.mem_reverse.mp hn) m hmn

/-- What is known of an open block: the whitespace in front of it, and the nodes before it. -/
structure OpenBlock.Sound (b : OpenBlock) : Prop where
  leading : Tokens.IsSpace b.leading
  before : ∀ n ∈ b.before, n.AllMade

theorem allMade_closeAll {blocks : List OpenBlock} {done : List Node} {trailing : List Token}
    (hblocks : ∀ b ∈ blocks, b.Sound) (hdone : ∀ n ∈ done, n.AllMade)
    (htrailing : Tokens.IsSpace trailing) :
    ∀ n ∈ (closeAll blocks done trailing).children, n.AllMade := by
  induction blocks generalizing done trailing with
  | nil => simpa [closeAll] using hdone
  | cons b outer ih =>
    rw [List.forall_mem_cons] at hblocks
    obtain ⟨hb, houter⟩ := hblocks
    refine ih houter (List.forall_mem_cons.mpr ⟨?_, hb.before⟩) (by simp [Tokens.IsSpace])
    exact allMade_close none hb.leading hdone htrailing

/-- **Pieces make the nodes**, also of the blocks that are still open. -/
theorem allMade_build {blocks : List OpenBlock} {done : List Node} {pieces : List Piece}
    {trailing : List Token} (hblocks : ∀ b ∈ blocks, b.Sound) (hdone : ∀ n ∈ done, n.AllMade)
    (hpieces : ∀ p ∈ pieces, p.Sound) (htrailing : Tokens.IsSpace trailing) :
    ∀ n ∈ (build blocks done pieces trailing).children, n.AllMade := by
  induction pieces generalizing blocks done with
  | nil => exact allMade_closeAll hblocks hdone htrailing
  | cons p pieces ih =>
    rw [List.forall_mem_cons] at hpieces
    obtain ⟨hp, hlater⟩ := hpieces
    rw [build]
    split
    · rename_i s hs
      exact ih hblocks
        (List.forall_mem_cons.mpr ⟨allMade_statement hp.leading (hp.statement s hs), hdone⟩) hlater
    · rename_i head brace hbody
      exact ih (List.forall_mem_cons.mpr ⟨⟨hp.leading, hdone⟩, hblocks⟩) (by simp)
        hlater
    · rename_i brace hbody
      split
      · exact ih (by simp)
          (List.forall_mem_cons.mpr ⟨allMade_statement hp.leading (.stray _), hdone⟩) hlater
      · rename_i block outer
        rw [List.forall_mem_cons] at hblocks
        obtain ⟨hb, houter⟩ := hblocks
        exact ih houter
          (List.forall_mem_cons.mpr ⟨allMade_close _ hb.leading hdone hp.leading, hb.before⟩) hlater

/-- **Every node of a tree is made of pieces.** -/
theorem madeOfPieces_of_mem_nodes {ts : List Token} {n : Node} (h : n ∈ (ofTokens ts).nodes) :
    n.MadeOfPieces := by
  obtain ⟨m, hm, hn⟩ := mem_nodesOfAll_iff.mp h
  obtain ⟨hpieces, htrailing⟩ := Piece.sound_split ts
  exact allMade_build (by simp) (by simp) hpieces htrailing m hm n hn

/-- The tokens of the nodes at the top are those in front of the whitespace at the end. -/
theorem tokensOfAll_children_isPrefix (ts : List Token) :
    tokensOfAll (ofTokens ts).children <+: ts :=
  ⟨(ofTokens ts).trailing, tokens_ofTokens ts⟩

/-- **The tokens of a node stand side by side in the source.** -/
theorem tokens_isInfix_of_mem_nodes {ts : List Token} {n : Node} (h : n ∈ (ofTokens ts).nodes) :
    n.tokens <:+: ts :=
  (Node.tokens_isInfix_of_mem _ n h).trans (tokensOfAll_children_isPrefix ts).isInfix

theorem tokens_isInfix_of_mem_declarations {ts : List Token} {d : Declaration}
    (h : d ∈ (ofTokens ts).declarations) : d.tokens <:+: ts := by
  obtain ⟨n, hn, hd⟩ := List.mem_filterMap.mp h
  refine List.IsInfix.trans ?_ (tokens_isInfix_of_mem_nodes hn)
  cases n with
  | block => cases hd
  | statement leading level s =>
    cases s with
    | declaration =>
      cases hd
      exact (List.suffix_append _ _).isInfix
    | atRule | comment | empty | skipped => cases hd

/-- Between the colon of a declaration and its value stands whitespace. -/
theorem isSpace_afterColon {ts : List Token} {d : Declaration}
    (h : d ∈ (ofTokens ts).declarations) : Tokens.IsSpace d.afterColon := by
  obtain ⟨n, hn, hd⟩ := List.mem_filterMap.mp h
  have hmade := madeOfPieces_of_mem_nodes hn
  cases n with
  | block => cases hd
  | statement leading level s =>
    cases s with
    | declaration =>
      cases hd
      cases hmade.2 with
      | read not_space read_eq => exact Piece.isSpace_afterColon read_eq
    | atRule | comment | empty | skipped => cases hd

end Stylesheet

end SheetLint
