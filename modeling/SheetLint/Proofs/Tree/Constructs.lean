import SheetLint.Proofs.Tree.Lossless

/-!
# What a tree holds

A stylesheet holds rule sets, declarations and at-rules, at any level. Each comes from one piece,
and how pieces nest does not matter for how many there are.

Results:
* `Stylesheet.seen_build`: what is seen of the nodes of a tree is what is seen of its pieces.
* `Stylesheet.constructs_split`, `Stylesheet.declarations_split`: so the constructs and declarations
  of a tree are those of its pieces.
* `Stylesheet.seen_sublist`, `Stylesheet.declarations_sublist`: no token is seen twice, and none
  belongs to two declarations.
-/

namespace SheetLint

/-! ## Constructs of a tree -/

/-- What is counted in a stylesheet. -/
inductive Construct where
  | ruleSet
  | declaration
  | atRule
deriving DecidableEq, Repr

/-- What a statement counts as. -/
def Statement.construct? : Statement → Option Construct
  | declaration _ => some .declaration
  | atRule _ _ _ => some .atRule
  | _ => none

/-- What a block with this head counts as. -/
def Head.construct : Head → Construct
  | ruleSet _ => .ruleSet
  | atRule _ _ => .atRule

/-- What a node counts as. -/
def Node.construct? : Node → Option Construct
  | statement _ _ s => s.construct?
  | block _ _ _ head _ _ _ _ => some head.construct

/-- The constructs of a tree at every level, outer before inner and in source order. -/
def Stylesheet.constructs (s : Stylesheet) : List Construct := s.nodes.filterMap Node.construct?

/-- What a piece counts as. -/
def PieceBody.construct? : PieceBody → Option Construct
  | statement s => s.construct?
  | opening head _ => some head.construct
  | closing _ => none

/-! ## A look at a tree -/

/-- What is seen of a tree: something of a statement, something of the head of a block, and nothing of
skipped tokens. -/
structure View (α : Type) where
  statement : Statement → Option α
  head : Head → Option α
  skipped (ts : List Token) (error : Option SyntaxError) : statement (.skipped ts error) = none

namespace View

variable {α : Type} (v : View α)

/-- What is seen of a node, those inside it apart. -/
def node? : Node → Option α
  | .statement _ _ s => v.statement s
  | .block _ _ _ head _ _ _ _ => v.head head

/-- What is seen of a piece. -/
def piece? : PieceBody → Option α
  | .statement s => v.statement s
  | .opening head _ => v.head head
  | .closing _ => none

/-- What is seen of a list of nodes and of all nodes inside them. -/
def seen (ns : List Node) : List α := (Node.nodesOfAll ns).filterMap v.node?

end View

namespace Node

@[simp] theorem nodesOfAll_append (a b : List Node) :
    nodesOfAll (a ++ b) = nodesOfAll a ++ nodesOfAll b := by
  induction a with
  | nil => rfl
  | cons n ns ih => simp [nodesOfAll, ih]

end Node

namespace View

variable {α : Type} (v : View α)

@[simp] theorem seen_nil : v.seen [] = [] := rfl

@[simp] theorem seen_append (a b : List Node) : v.seen (a ++ b) = v.seen a ++ v.seen b := by
  simp [seen]

@[simp] theorem seen_statement (leading : List Token) (level : Nat) (s : Statement) :
    v.seen [.statement leading level s] = (v.statement s).toList := by
  cases h : v.statement s <;> simp [seen, Node.nodesOfAll, Node.nodes, node?, h]

@[simp] theorem seen_block (leading : List Token) (level depth : Nat) (head : Head)
    (opening : Token) (children : List Node) (trailing : List Token) (closing : Option Token) :
    v.seen [.block leading level depth head opening children trailing closing] =
      (v.head head).toList ++ v.seen children := by
  cases h : v.head head <;> simp [seen, Node.nodesOfAll, Node.nodes, node?, h]

end View

namespace Stylesheet

variable {α : Type} (v : View α)

/-- What is seen of open blocks that are read already, the innermost block being the first. -/
def openSeen (blocks : List OpenBlock) : List α :=
  blocks.reverse.flatMap fun b => v.seen b.before.reverse ++ (v.head b.head).toList

@[simp] theorem openSeen_nil : openSeen v [] = [] := rfl

@[simp] theorem openSeen_cons (b : OpenBlock) (outer : List OpenBlock) :
    openSeen v (b :: outer) =
      openSeen v outer ++ v.seen b.before.reverse ++ (v.head b.head).toList := by
  simp [openSeen]

/-- A block that is closed shows its head and its nodes behind what was in front of it. -/
theorem seen_close (b : OpenBlock) (outer : List OpenBlock) (children : List Node)
    (trailing : List Token) (closing : Option Token) :
    v.seen (b.close outer children trailing closing :: b.before).reverse =
      v.seen b.before.reverse ++ ((v.head b.head).toList ++ v.seen children) := by
  simp [OpenBlock.close]

theorem seen_closeAll (blocks : List OpenBlock) (done : List Node) (trailing : List Token) :
    v.seen (closeAll blocks done trailing).children = openSeen v blocks ++ v.seen done.reverse := by
  induction blocks generalizing done trailing with
  | nil => rfl
  | cons b outer ih =>
    rw [closeAll, ih, seen_close]
    simp

/-- **How pieces nest does not matter**: what is seen of the nodes of a tree is what is seen of its
pieces. -/
theorem seen_build (blocks : List OpenBlock) (done : List Node) (pieces : List Piece)
    (trailing : List Token) :
    v.seen (build blocks done pieces trailing).children =
      openSeen v blocks ++ v.seen done.reverse ++ pieces.filterMap (v.piece? ·.body) := by
  induction pieces generalizing blocks done with
  | nil => simp [build, seen_closeAll]
  | cons p pieces ih =>
    obtain ⟨leading, body⟩ := p
    rw [build]
    cases body with
    | statement s =>
      rw [ih]
      cases h : v.statement s <;> simp [View.piece?, h]
    | opening head brace =>
      rw [ih]
      cases h : v.head head <;> simp [View.piece?, h]
    | closing brace =>
      cases blocks with
      | nil => simp [ih, View.piece?, v.skipped]
      | cons b outer =>
        simp only
        rw [ih, seen_close]
        simp [View.piece?]

theorem seen_split (ts : List Token) :
    (ofTokens ts).nodes.filterMap v.node? = (Piece.split ts).1.filterMap (v.piece? ·.body) := by
  have hbuild := seen_build v [] [] (Piece.split ts).1 (Piece.split ts).2
  rwa [openSeen_nil, List.reverse_nil, v.seen_nil, List.nil_append, List.nil_append] at hbuild

/-- **No token is seen twice.** What is seen of the nodes of a tree, each with some tokens of its own, is
part of the tree. -/
theorem seen_sublist {f : α → List Token}
    (hf : ∀ b a, v.piece? b = some a → (f a).Sublist b.tokens) (ts : List Token) :
    (((ofTokens ts).nodes.filterMap v.node?).flatMap f).Sublist ts := by
  have hpieces : ((Piece.split ts).1.flatMap Piece.tokens).Sublist ts :=
    List.IsPrefix.sublist ⟨_, Piece.tokens_split ts⟩
  refine List.Sublist.trans ?_ hpieces
  rw [seen_split]
  induction (Piece.split ts).1 with
  | nil => exact .slnil
  | cons p pieces ih =>
    rw [List.flatMap_cons, List.filterMap_cons]
    cases h : v.piece? p.body with
    | none => exact ih.trans (List.sublist_append_right _ _)
    | some a =>
      rw [List.flatMap_cons, Piece.tokens]
      exact ((hf p.body a h).trans (List.sublist_append_right _ _)).append ih

/-! ## Constructs and declarations -/

/-- **The constructs of a tree are those of its pieces.** -/
theorem constructs_split (ts : List Token) :
    (ofTokens ts).constructs = (Piece.split ts).1.filterMap (·.body.construct?) := by
  let v : View Construct := ⟨Statement.construct?, fun head => some head.construct, fun _ _ => rfl⟩
  have hnode : v.node? = Node.construct? := by
    funext n
    cases n <;> rfl
  have hpiece : v.piece? = PieceBody.construct? := by
    funext b
    cases b <;> rfl
  have hseen := seen_split v ts
  rwa [hnode, hpiece] at hseen

end Stylesheet

/-- The declaration, if the piece is one. -/
def PieceBody.declaration? : PieceBody → Option Declaration
  | statement (.declaration d) => some d
  | _ => none

theorem PieceBody.declaration?_eq_some_iff {b : PieceBody} {d : Declaration} :
    b.declaration? = some d ↔ b = .statement (.declaration d) := by
  constructor
  · intro h
    cases b with
    | opening | closing => cases h
    | statement s =>
      cases s with
      | declaration =>
        cases h
        rfl
      | atRule | comment | empty | skipped => cases h
  · rintro rfl
    rfl

namespace Stylesheet

/-- The declarations of a tree. -/
def declarationView : View Declaration where
  statement s := (Node.statement [] 0 s).declaration?
  head _ := none
  skipped _ _ := rfl

theorem node?_declarationView : declarationView.node? = Node.declaration? := by
  funext n
  cases n with
  | block => rfl
  | statement leading level s => cases s <;> rfl

theorem piece?_declarationView : declarationView.piece? = PieceBody.declaration? := by
  funext b
  cases b with
  | statement s => cases s <;> rfl
  | opening | closing => rfl

/-- **The declarations of a tree are those of its pieces.** -/
theorem declarations_split (ts : List Token) :
    (ofTokens ts).declarations = (Piece.split ts).1.filterMap (·.body.declaration?) := by
  have hseen := seen_split declarationView ts
  rwa [node?_declarationView, piece?_declarationView] at hseen

/-- **No token belongs to two declarations.** -/
theorem declarations_sublist (ts : List Token) :
    ((ofTokens ts).declarations.flatMap Declaration.tokens).Sublist ts := by
  rw [declarations, ← node?_declarationView]
  refine seen_sublist declarationView (fun b d h => ?_) ts
  rw [piece?_declarationView] at h
  rw [PieceBody.declaration?_eq_some_iff.mp h]
  exact List.Sublist.refl _

end Stylesheet

end SheetLint
