import SheetLint.Proofs.Token.Stability
import SheetLint.Proofs.Tree.Nodes
import SheetLint.Proofs.Tree.Reading

/-!
# Nodes side by side

A piece ends with a token that is closed by its last character, or with a line comment, or a closing
brace comes next. So of two nodes side by side the first ends so, or the second starts with a
closing brace: whatever whitespace is put between them, they do not grow together.

Results:
* `Piece.isChain_split`: neighbouring pieces stand apart.
* `Stylesheet.delimited_of_mem_nodes`: blocks stand between braces, and the nodes in them stand
  apart.
* `Node.exists_placed`: where the nodes in a block stand in the text.
-/

namespace SheetLint

namespace Tokens

/-- Whether a run of tokens ends with a closed token or a line comment. -/
def EndsClosed (ts : List Token) : Prop :=
  ∃ last ∈ ts.getLast?, last.isClosed = true ∨ last.kind = .lineComment

/-- Whether a run of tokens may stand in front of another whatever whitespace is between them. -/
def Apart (ts ts' : List Token) : Prop :=
  EndsClosed ts ∨ ∃ brace ∈ ts'.head?, brace.isPunct '\x7d' = true

/-- Whether a run of tokens starts with a word. -/
def StartsWithWord (ts : List Token) : Prop := ∃ first ∈ ts.head?, first.isWhitespace = false

variable {ts : List Token} {t : Token}

theorem isClosed_of_isPunct {c : Char} (hc : c = '\x7b' ∨ c = '\x7d' ∨ c = ';')
    (h : t.isPunct c = true) : t.isClosed = true := by
  unfold Token.isClosed
  rcases hc with rfl | rfl | rfl <;> simp [h]

theorem endsClosed_of_isPunct {c : Char} (hc : c = '\x7b' ∨ c = '\x7d' ∨ c = ';')
    (h : t.isPunct c = true) : EndsClosed (ts ++ [t]) :=
  ⟨t, by simp, .inl (isClosed_of_isPunct hc h)⟩

theorem Apart.append {ts' : List Token} (h : Apart ts ts') (more : List Token) :
    Apart ts (ts' ++ more) := by
  refine h.imp_right fun ⟨brace, hbrace, hpunct⟩ => ⟨brace, ?_, hpunct⟩
  rw [List.head?_append, hbrace]
  rfl

theorem Apart.append_left {ts' : List Token} (h : Apart ts ts') (front : List Token) :
    Apart (front ++ ts) ts' := by
  refine h.imp_left fun ⟨last, hlast, hclosed⟩ => ⟨last, ?_, hclosed⟩
  rw [List.getLast?_append, hlast]
  rfl

theorem StartsWithWord.append (h : StartsWithWord ts) (ts' : List Token) :
    StartsWithWord (ts ++ ts') := by
  obtain ⟨first, hfirst, hword⟩ := h
  exact ⟨first, by rw [List.head?_append, hfirst]; rfl, hword⟩

end Tokens

open Tokens

/-! ## Pieces -/

namespace Piece

variable {first keyword t : Token} {rest ts : List Token} {n : Nat}

/-- What comes behind a piece that is not closed: whitespace, and a closing brace if anything. -/
def BraceBehind (body : PieceBody) (rest : List Token) : Prop :=
  ∀ t ∈ ((rest.drop (body.tokens.length - 1)).dropWhile Token.isWhitespace).head?,
    t.isPunct '\x7d' = true

theorem isWhitespace_of_isPunct {c : Char} (h : t.isPunct c = true) : t.isWhitespace = false := by
  rw [Token.isPunct, Bool.and_eq_true, beq_iff_eq] at h
  rw [Token.isWhitespace, h.1]
  rfl

/-- A statement that is all of its cut but whitespace has behind it what comes behind the cut. -/
theorem braceBehind_of_append {s : Statement} {space : List Token} (hs : s.tokens ≠ [])
    (hspace : IsSpace space) (happend : s.tokens ++ space = first :: rest.take n)
    (hbrace : ∀ t ∈ rest[n]?, t.isPunct '\x7d' = true) : BraceBehind (.statement s) rest := by
  intro t ht
  rw [PieceBody.tokens, drop_of_append hs happend, List.dropWhile_append_of_pos hspace] at ht
  cases hget : rest[n]? with
  | none =>
    rw [List.drop_of_length_le (List.getElem?_eq_none_iff.mp hget)] at ht
    cases ht
  | some u =>
    have hu := hbrace u hget
    rw [List.drop_eq_getElem?_toList_append, hget, Option.toList_some, List.singleton_append,
      List.dropWhile_cons_of_neg (by simp [isWhitespace_of_isPunct hu])] at ht
    cases ht
    exact hu

theorem endsClosed_ofAtRule (keyword : Token) (rest : List Token) :
    EndsClosed (ofAtRule keyword rest).tokens ∨ BraceBehind (ofAtRule keyword rest) rest := by
  have hopen (hbrace : ∀ t ∈ rest[lengthToTerminator 0 rest]?, t.isPunct '\x7d' = true) :
      BraceBehind (.statement (.atRule keyword
        (dropEndWhile Token.isWhitespace (rest.take (lengthToTerminator 0 rest))) none)) rest := by
    have happend := dropEndWhile_append_takeEndWhile Token.isWhitespace
      (rest.take (lengthToTerminator 0 rest))
    rw [← List.append_nil (dropEndWhile _ _)] at happend
    exact braceBehind_of_append (List.cons_ne_nil _ _) (fun _ => of_mem_takeEndWhile)
      (congrArg (keyword :: ·) happend) hbrace
  unfold ofAtRule
  simp only
  split
  · rename_i t ht
    split
    · rename_i hbrace
      exact .inl (endsClosed_of_isPunct (.inl rfl) hbrace)
    · rename_i hnobrace
      split
      · rename_i hsemicolon
        rw [PieceBody.tokens, Statement.tokens, Option.toList_some, ← List.cons_append]
        exact .inl (endsClosed_of_isPunct (.inr (.inr rfl)) hsemicolon)
      · rename_i hnosemicolon
        refine .inr (hopen fun u hu => ?_)
        rw [ht] at hu
        cases hu
        exact isPunct_closeBrace_of_isTerminator (isTerminator_of_getElem? ht)
          (Bool.eq_false_iff.mpr hnobrace) (Bool.eq_false_iff.mpr hnosemicolon)
  · rename_i hnone
    exact .inr (hopen (by simp [hnone]))

theorem endsClosed_ofStatement (hfirst : first.isWhitespace = false)
    (hend : first.isPunct '\x7d' = false) (rest : List Token) :
    EndsClosed (ofStatement first rest).tokens ∨ BraceBehind (ofStatement first rest) rest := by
  have hopen (hbrace : ∀ t ∈ (first :: rest)[lengthToTerminator 0 (first :: rest)]?,
      t.isPunct '\x7d' = true) :
      BraceBehind (.statement (statementOf
        ((first :: rest).take (lengthToTerminator 0 (first :: rest))) none)) rest := by
    cases hn : lengthToTerminator 0 (first :: rest) with
    | zero =>
      rw [hn] at hbrace
      rw [hbrace first rfl] at hend
      cases hend
    | succ n =>
      rw [hn] at hbrace
      rw [List.take_succ_cons]
      obtain ⟨space, hspace, happend⟩ := statementOf_none_append (first :: rest.take n)
      exact braceBehind_of_append (tokens_statementOf_none_ne_nil hfirst _) hspace happend hbrace
  unfold ofStatement
  simp only
  split
  · rename_i t ht
    split
    · rename_i hbrace
      exact .inl (endsClosed_of_isPunct (.inl rfl) hbrace)
    · rename_i hnobrace
      split
      · rename_i hsemicolon
        rw [PieceBody.tokens, tokens_statementOf_some]
        exact .inl (endsClosed_of_isPunct (.inr (.inr rfl)) hsemicolon)
      · rename_i hnosemicolon
        refine .inr (hopen fun u hu => ?_)
        rw [ht] at hu
        cases hu
        exact isPunct_closeBrace_of_isTerminator (isTerminator_of_getElem? ht)
          (Bool.eq_false_iff.mpr hnobrace) (Bool.eq_false_iff.mpr hnosemicolon)
  · rename_i hnone
    exact .inr (hopen (by simp [hnone]))

/-- **A piece is closed, or a closing brace comes behind it.** -/
theorem endsClosed_read (hfirst : first.isWhitespace = false) (rest : List Token) :
    EndsClosed (read first rest).tokens ∨ BraceBehind (read first rest) rest := by
  fun_cases read first rest with
  | case1 hclose =>
    exact .inl ⟨first, rfl, .inl (isClosed_of_isPunct (.inr (.inl rfl)) hclose)⟩
  | case2 _ hcomment =>
    refine .inl ⟨first, rfl, ?_⟩
    rcases Bool.or_eq_true_iff.mp hcomment with hline | hblock
    · exact .inr (beq_iff_eq.mp hline)
    · exact .inl (by rw [Token.isClosed, hblock, Bool.or_true])
  | case3 _ _ hsemicolon =>
    exact .inl ⟨first, rfl, .inl (isClosed_of_isPunct (.inr (.inr rfl)) hsemicolon)⟩
  | case4 => exact endsClosed_ofAtRule first rest
  | case5 hclose => exact endsClosed_ofStatement hfirst (Bool.eq_false_iff.mpr hclose) rest

/-- Whether a piece has braces where it opens or closes a block. -/
def Braced : PieceBody → Prop
  | .statement _ => True
  | .opening _ brace => brace.isPunct '\x7b' = true
  | .closing brace => brace.isPunct '\x7d' = true

theorem braced_ofAtRule (keyword : Token) (rest : List Token) : Braced (ofAtRule keyword rest) := by
  unfold ofAtRule
  simp only
  split
  · split
    · rename_i hbrace
      exact hbrace
    · split <;> trivial
  · trivial

theorem braced_ofStatement (first : Token) (rest : List Token) :
    Braced (ofStatement first rest) := by
  unfold ofStatement
  simp only
  split
  · split
    · rename_i hbrace
      exact hbrace
    · split <;> trivial
  · trivial

theorem braced_read (first : Token) (rest : List Token) : Braced (read first rest) := by
  fun_cases read first rest with
  | case1 hclose => exact hclose
  | case2 | case3 => trivial
  | case4 => exact braced_ofAtRule first rest
  | case5 => exact braced_ofStatement first rest

/-- What is known of a piece: it starts with a word, and has braces. -/
structure Delimited (p : Piece) : Prop where
  head : StartsWithWord p.body.tokens
  braced : Braced p.body

theorem head?_tokens_read (hfirst : first.isWhitespace = false) (rest : List Token) :
    (read first rest).tokens.head? = some first := by
  have happend := read_append_drop hfirst rest
  obtain ⟨t, ts, htokens⟩ := List.exists_cons_of_ne_nil (read_ne_nil hfirst rest)
  rw [htokens, List.cons_append, List.cons.injEq] at happend
  rw [htokens, happend.1, List.head?_cons]

theorem isWhitespace_of_dropWhile_eq_cons (h : ts.dropWhile Token.isWhitespace = first :: rest) :
    first.isWhitespace = false := by
  have := List.head_dropWhile_not Token.isWhitespace (l := ts) (by rw [h]; simp)
  simpa [h] using this

theorem delimited_split (ts : List Token) : ∀ p ∈ (split ts).1, p.Delimited := by
  fun_induction split ts with
  | case1 => simp
  | case2 ts leading first rest hcons body more ih =>
    have hfirst := isWhitespace_of_dropWhile_eq_cons hcons
    rw [List.forall_mem_cons]
    exact ⟨⟨⟨first, head?_tokens_read hfirst rest, hfirst⟩, braced_read first rest⟩, ih⟩

/-- The first piece starts with the first word. -/
theorem head?_split {p : Piece} (h : p ∈ (split ts).1.head?) :
    p.body.tokens.head? = (ts.dropWhile Token.isWhitespace).head? := by
  revert h
  fun_cases split ts with
  | case1 => intro h; cases h
  | case2 leading first rest hcons =>
    intro h
    cases h
    rw [head?_tokens_read (isWhitespace_of_dropWhile_eq_cons hcons), hcons, List.head?_cons]

/-- **Neighbouring pieces stand apart.** -/
theorem isChain_split (ts : List Token) :
    (split ts).1.IsChain fun p q => Apart p.body.tokens q.body.tokens := by
  fun_induction split ts with
  | case1 => exact List.isChain_nil
  | case2 ts leading first rest hcons body more ih =>
    have hfirst := isWhitespace_of_dropWhile_eq_cons hcons
    rw [List.isChain_cons]
    refine ⟨fun q hq => ?_, ih⟩
    rcases endsClosed_read hfirst rest with hclosed | hbrace
    · exact .inl hclosed
    · obtain ⟨first', hfirst', -⟩ := (delimited_split _ q (List.mem_of_mem_head? hq)).head
      exact .inr ⟨first', hfirst', hbrace first' (by rwa [← head?_split hq])⟩

end Piece

/-! ## Nodes -/

/-- Whether a block stands between braces, and the nodes in it stand apart. -/
structure Body.Delimited (b : Body) : Prop where
  opening : b.opening.isPunct '\x7b' = true
  closing : ∀ brace ∈ b.closing, brace.isPunct '\x7d' = true
  apart : b.children.IsChain fun n m => Apart n.content m.content

namespace Node

/-- Whether a node starts with a word, and is delimited where it is a block. -/
structure Delimited (n : Node) : Prop where
  head : StartsWithWord n.content
  body : ∀ b ∈ n.body?, b.Delimited

/-- Whether a node and all nodes inside it are delimited. -/
def AllDelimited (n : Node) : Prop := ∀ m ∈ n.nodes, m.Delimited

theorem allDelimited_statement {leading : List Token} {level : Nat} {s : Statement}
    (h : StartsWithWord s.tokens) : AllDelimited (.statement leading level s) := by
  intro m hm
  rw [List.mem_singleton.mp hm]
  exact ⟨h, by simp [body?]⟩

end Node

namespace Stylesheet

open Node

variable {blocks outer : List OpenBlock} {b : OpenBlock} {done : List Node} {n : Node}
  {trailing : List Token}

/-- What is known of the nodes of an open block, of which the last one comes first. -/
structure Siblings (done : List Node) : Prop where
  delimited : ∀ n ∈ done, n.AllDelimited
  apart : done.IsChain fun n m => Apart m.content n.content

theorem Siblings.cons (h : Siblings done) (hn : n.AllDelimited)
    (hapart : ∀ m ∈ done.head?, Apart m.content n.content) : Siblings (n :: done) :=
  ⟨List.forall_mem_cons.mpr ⟨hn, h.delimited⟩, List.isChain_cons.mpr ⟨hapart, h.apart⟩⟩

/-- What is known of an open block, of which the head and the brace are read. -/
structure OpenBlock.Delimited (b : OpenBlock) : Prop where
  head : StartsWithWord (b.head.tokens ++ [b.opening])
  opening : b.opening.isPunct '\x7b' = true
  before : Siblings b.before
  apart : ∀ n ∈ b.before.head?, Apart n.content (b.head.tokens ++ [b.opening])

theorem content_close (b : OpenBlock) (outer : List OpenBlock) (children : List Node)
    (trailing : List Token) (closing : Option Token) :
    (b.close outer children trailing closing).content =
      (b.head.tokens ++ [b.opening]) ++ (tokensOfAll children ++ trailing ++ closing.toList) := by
  simp [OpenBlock.close, content]

theorem allDelimited_close (hb : b.Delimited) (hdone : Siblings done) (trailing : List Token)
    {closing : Option Token} (hclosing : ∀ brace ∈ closing, brace.isPunct '\x7d' = true) :
    (b.close outer done.reverse trailing closing).AllDelimited := by
  intro m hm
  rcases List.mem_cons.mp hm with rfl | hinside
  · refine ⟨?_, ?_⟩
    · have hhead := hb.head.append (tokensOfAll done.reverse ++ trailing ++ closing.toList)
      rw [← content_close b outer] at hhead
      exact hhead
    · rintro _ ⟨⟩
      exact ⟨hb.opening, hclosing, List.isChain_reverse.mpr hdone.apart⟩
  · obtain ⟨n, hn, hmn⟩ := mem_nodesOfAll_iff.mp hinside
    exact hdone.delimited n (List.mem_reverse.mp hn) m hmn

theorem siblings_close (hb : b.Delimited) (hdone : Siblings done) (trailing : List Token)
    {closing : Option Token} (hclosing : ∀ brace ∈ closing, brace.isPunct '\x7d' = true) :
    Siblings (b.close outer done.reverse trailing closing :: b.before) := by
  refine hb.before.cons (allDelimited_close hb hdone trailing hclosing) fun m hm => ?_
  rw [content_close]
  exact (hb.apart m hm).append _

theorem allDelimited_closeAll (hblocks : ∀ b ∈ blocks, b.Delimited) (hdone : Siblings done) :
    ∀ n ∈ (closeAll blocks done trailing).children, n.AllDelimited := by
  induction blocks generalizing done trailing with
  | nil => simpa [closeAll] using hdone.delimited
  | cons b outer ih =>
    rw [List.forall_mem_cons] at hblocks
    exact ih hblocks.2 (siblings_close hblocks.1 hdone trailing (by simp))

/-- **Pieces that stand apart make nodes that stand apart.** -/
theorem allDelimited_build {pieces : List Piece} (hblocks : ∀ b ∈ blocks, b.Delimited)
    (hdone : Siblings done)
    (hnext : ∀ n ∈ done.head?, ∀ p ∈ pieces.head?, Apart n.content p.body.tokens)
    (hpieces : ∀ p ∈ pieces, p.Delimited)
    (hapart : pieces.IsChain fun p q => Apart p.body.tokens q.body.tokens) :
    ∀ n ∈ (build blocks done pieces trailing).children, n.AllDelimited := by
  induction pieces generalizing blocks done with
  | nil => exact allDelimited_closeAll hblocks hdone
  | cons p pieces ih =>
    rw [List.forall_mem_cons] at hpieces
    obtain ⟨hp, hlater⟩ := hpieces
    rw [List.isChain_cons] at hapart
    obtain ⟨hbehind, hapart⟩ := hapart
    rw [build]
    split
    · rename_i s hs
      have hhead := hp.head
      have hfront : ∀ n ∈ done.head?, Apart n.content p.body.tokens := fun n hn => hnext n hn p rfl
      rw [hs] at hbehind hhead hfront
      refine ih hblocks (hdone.cons (allDelimited_statement hhead) hfront) ?_ hlater hapart
      rintro _ ⟨⟩
      exact hbehind
    · rename_i head brace hbody
      have hhead := hp.head
      have hbrace := hp.braced
      have hfront : ∀ n ∈ done.head?, Apart n.content p.body.tokens := fun n hn => hnext n hn p rfl
      rw [hbody] at hhead hbrace hfront
      exact ih (List.forall_mem_cons.mpr ⟨⟨hhead, hbrace, hdone, hfront⟩, hblocks⟩)
        ⟨by simp, List.isChain_nil⟩ (by simp) hlater hapart
    · rename_i brace hbody
      have hbrace := hp.braced
      rw [hbody] at hbrace
      split
      · refine ih (by simp) (hdone.cons (allDelimited_statement ?_) ?_) ?_ hlater hapart
        · exact ⟨brace, rfl, Piece.isWhitespace_of_isPunct hbrace⟩
        · exact fun _ _ => .inr ⟨brace, rfl, hbrace⟩
        · rintro _ ⟨⟩ q -
          exact .inl ⟨brace, rfl, .inl (isClosed_of_isPunct (.inr (.inl rfl)) hbrace)⟩
      · rename_i block outer
        rw [List.forall_mem_cons] at hblocks
        refine ih hblocks.2 (siblings_close hblocks.1 hdone p.leading ?_) ?_ hlater hapart
        · rintro _ ⟨⟩
          exact hbrace
        · rintro _ ⟨⟩ q -
          exact .inl (endsClosed_of_isPunct (.inr (.inl rfl)) hbrace)

/-- **Blocks stand between braces, and the nodes in them stand apart.** -/
theorem delimited_of_mem_nodes {ts : List Token} (h : n ∈ (ofTokens ts).nodes) : n.Delimited := by
  obtain ⟨m, hm, hn⟩ := mem_nodesOfAll_iff.mp h
  exact allDelimited_build (by simp) ⟨by simp, List.isChain_nil⟩ (by simp)
    (Piece.delimited_split ts) (Piece.isChain_split ts) m hm n hn

end Stylesheet

/-! ## Nodes side by side in a text -/

namespace Node

variable {source : Text} {front back trailing : List Token} {n : Node} {ns ms : List Node}

/-- Nodes side by side in a text, behind some of its words. -/
structure Placed (source : Text) (front : List Token) (ns : List Node) (back : List Token) :
    Prop where
  split : ofText source = front ++ (tokensOfAll ns ++ back)
  word : ∃ t ∈ front, t.isWhitespace = false
  mem : ∀ n ∈ ns, n ∈ (Parse.ofText source).sheet.nodes
  apart : ∀ n ∈ ns.head?, Apart front n.content
  chain : ns.IsChain fun n m => Apart n.content m.content

namespace Placed

/-- The other nodes, behind the first. -/
theorem tail (h : Placed source front (n :: ns) back) :
    Placed source (front ++ n.tokens) ns back := by
  obtain ⟨hbehind, hchain⟩ := List.isChain_cons.mp h.chain
  refine ⟨?_, ?_, fun m hm => h.mem m (List.mem_cons_of_mem n hm), fun m hm => ?_, hchain⟩
  · rw [h.split, tokensOfAll]
    simp only [List.append_assoc]
  · obtain ⟨t, ht, hword⟩ := h.word
    exact ⟨t, List.mem_append_left _ ht, hword⟩
  · rw [n.tokens_eq_leading_append_content, ← List.append_assoc]
    exact (hbehind m hm).append_left _

/-- The nodes behind some of them. -/
theorem drop (h : Placed source front (ms ++ ns) back) :
    Placed source (front ++ tokensOfAll ms) ns back := by
  induction ms generalizing front with
  | nil => simpa [tokensOfAll] using h
  | cons m ms ih => simpa [tokensOfAll] using ih h.tail

/-- The nodes in front of some of them. -/
theorem take (h : Placed source front (ns ++ ms) back) :
    Placed source front ns (tokensOfAll ms ++ back) := by
  refine ⟨?_, h.word, fun n hn => h.mem n (List.mem_append_left ms hn), fun n hn => ?_,
    (List.isChain_append.mp h.chain).1⟩
  · rw [h.split, tokensOfAll_append, List.append_assoc]
  · exact h.apart n (by rw [List.head?_append, hn]; rfl)

/-- The place behind all nodes. -/
theorem behind (h : Placed source front ns back) :
    Placed source (front ++ tokensOfAll ns) [] back := by
  rw [← List.append_nil ns] at h
  exact h.drop

end Placed

/-- The nodes in a block stand behind its opening brace. -/
theorem exists_placed {leading : List Token} {level depth : Nat} {head : Head} {opening : Token}
    {closing? : Option Token}
    (h : .block leading level depth head opening ns trailing closing? ∈
      (Parse.ofText source).sheet.nodes) :
    ∃ front back, Placed source (front ++ [opening]) ns (trailing ++ (closing?.toList ++ back)) := by
  obtain ⟨before, after, hsplit⟩ := Stylesheet.tokens_isInfix_of_mem_nodes h
  obtain ⟨hopening, -, hchain⟩ := (Stylesheet.delimited_of_mem_nodes h).body _ rfl
  refine ⟨before ++ leading ++ head.tokens, after, ?_, ⟨opening, by simp, ?_⟩, ?_, ?_, hchain⟩
  · rw [← hsplit, Node.tokens]
    simp only [List.append_assoc]
  · exact Piece.isWhitespace_of_isPunct hopening
  · exact fun n hn => mem_nodesOfAll_of_mem_children h rfl hn
  · exact fun n hn => .inl (endsClosed_of_isPunct (.inl rfl) hopening)

end Node

end SheetLint
