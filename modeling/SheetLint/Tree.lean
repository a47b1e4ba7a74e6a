import SheetLint.Text.Split
import SheetLint.Token.Split

/-!
# The tree of a stylesheet

A stylesheet is a list of nodes. A node is a statement that stands by itself (a declaration, an
at-rule ended by a semicolon, a comment, a stray semicolon, or tokens skipped because they are no
statement) or a block: a head, an opening brace, inner nodes and a closing brace. Every token of
the source belongs to one node, so the tree gives its source back (`Stylesheet.tokens`).

`Stylesheet.nodes` lists all nodes, outer before inner and in source order; rules look at the tree
through it and through `Stylesheet.siblings`, the lists of nodes that stand side by side.
-/

namespace SheetLint

/-! ## Defects -/

/-- What can be wrong with a stylesheet. -/
inductive Defect where
  | malformed (reason : Malformed)
  | unexpectedBrace
  | missingProperty
  | expectedDeclaration
  | missingSelector
  | unclosedBlock
deriving DecidableEq, Repr

namespace Defect

/-- The wording of a defect. -/
def message : Defect → String
  | malformed reason => reason.message
  | unexpectedBrace => "unexpected `\x7d`"
  | missingProperty => "missing property before `:`"
  | expectedDeclaration => "expected declaration"
  | missingSelector => "missing selector before `\x7b`"
  | unclosedBlock => "unclosed block"

end Defect

/-- A defect and its place. -/
structure SyntaxError where
  defect : Defect
  span : Span
deriving DecidableEq, Repr

/-! ## Statements -/

/-- `property: value;`, also with a `$variable` as property. -/
structure Declaration where
  property : List Token
  beforeColon : List Token
  colon : Token
  afterColon : List Token
  value : List Token
  beforeSemicolon : List Token
  semicolon : Option Token
deriving DecidableEq, Repr

namespace Declaration

/-- The tokens in source order. -/
def tokens (d : Declaration) : List Token :=
  d.property ++ d.beforeColon ++ [d.colon] ++ d.afterColon ++ d.value ++ d.beforeSemicolon
    ++ d.semicolon.toList

/-- The property as written. -/
def name (d : Declaration) : Text := Tokens.text d.property

/-- The marks that vendors put in front of a property. -/
def vendorMarks : List String := ["-webkit-", "-moz-", "-ms-", "-o-"]

/-- The property in lower case and without a vendor mark. -/
def normalizedName (d : Declaration) : Text :=
  let name := d.name.lower
  (vendorMarks.findSome? fun mark => Text.stripStart? mark.toList name).getD name

/-- Whether the property is a single `$variable`. -/
def isVariable (d : Declaration) : Bool :=
  match d.property with
  | [t] => t.kind == .variable
  | _ => false

/-- Byte offset where the value ends; an empty value ends with the space behind the colon. -/
def valueStop (d : Declaration) : Nat :=
  match d.value.getLast?, d.afterColon.getLast? with
  | some t, _ => t.stop
  | none, some t => t.stop
  | none, none => d.colon.stop

end Declaration

/-- A node without inner nodes. -/
inductive Statement where
  | declaration (d : Declaration)
  | atRule (keyword : Token) (prelude : List Token) (semicolon : Option Token)
  | comment (token : Token)
  | empty (semicolon : Token)
  /-- Tokens that form no statement, and the defect they show unless an error token among them
  already does. -/
  | skipped (tokens : List Token) (error : Option SyntaxError)
deriving DecidableEq, Repr

namespace Statement

/-- The tokens in source order. -/
def tokens : Statement → List Token
  | declaration d => d.tokens
  | atRule keyword prelude semicolon => keyword :: (prelude ++ semicolon.toList)
  | comment t => [t]
  | empty t => [t]
  | skipped ts _ => ts

/-- The defect a statement shows. -/
def errors : Statement → List SyntaxError
  | skipped _ error => error.toList
  | _ => []

end Statement

/-! ## Blocks -/

/-- What stands in front of a brace. -/
inductive Head where
  | ruleSet (selectors : List Token)
  | atRule (keyword : Token) (prelude : List Token)
deriving DecidableEq, Repr

namespace Head

/-- The tokens in source order. -/
def tokens : Head → List Token
  | ruleSet selectors => selectors
  | atRule keyword prelude => keyword :: prelude

/-- Whether the block is a rule set. -/
def isRuleSet : Head → Bool
  | ruleSet _ => true
  | atRule _ _ => false

end Head

/-- The selectors of a list: what stands between its top-level commas, without the trivia around
it. A comma with nothing in front of it separates nothing. -/
def selectorsOf (tokens : List Token) : List (List Token) :=
  ((Tokens.segments Tokens.bracketDepth (·.isPunct ',') 0 tokens).map Tokens.trim).filter
    (· ≠ [])

namespace Head

/-- A rule set without any selector is a defect of its opening brace. -/
def errors (opening : Token) : Head → List SyntaxError
  | ruleSet selectors =>
    if selectorsOf selectors = [] then [⟨.missingSelector, opening.span⟩] else []
  | atRule _ _ => []

end Head

/-- The name of an at-keyword, in lower case and without the `@`. -/
def atRuleName (keyword : Token) : Text := Text.lower (keyword.text.drop 1)

/-! ## Nodes -/

/-- A statement or a block. The level is the number of blocks around the node. The depth of a
block is the number of rule sets among the block itself and those around it. -/
inductive Node where
  | statement (leading : List Token) (level : Nat) (body : Statement)
  | block (leading : List Token) (level depth : Nat) (head : Head) (opening : Token)
      (children : List Node) (trailing : List Token) (closing : Option Token)
deriving Repr

/-- The braces of a block and what is between them. -/
structure Body where
  opening : Token
  children : List Node
  trailing : List Token
  closing : Option Token

namespace Node

/-- The whitespace in front of the node. -/
def leading : Node → List Token
  | statement leading _ _ => leading
  | block leading _ _ _ _ _ _ _ => leading

/-- The number of blocks around the node. -/
def level : Node → Nat
  | statement _ level _ => level
  | block _ level _ _ _ _ _ _ => level

/-- What is between the braces of a block. -/
def body? : Node → Option Body
  | statement _ _ _ => none
  | block _ _ _ _ opening children trailing closing => some ⟨opening, children, trailing, closing⟩

/-- The declaration, if the node is one. -/
def declaration? : Node → Option Declaration
  | statement _ _ (.declaration d) => some d
  | _ => none

/-- Keyword and prelude, if the node is an at-rule with or without a block. -/
def atRule? : Node → Option (Token × List Token)
  | statement _ _ (.atRule keyword prelude _) => some (keyword, prelude)
  | block _ _ _ (.atRule keyword prelude) _ _ _ _ => some (keyword, prelude)
  | _ => none

/-- Whether the node is a comment. -/
def isComment : Node → Bool
  | statement _ _ (.comment _) => true
  | _ => false

mutual
/-- The tokens of a node in source order, from its leading whitespace on. -/
def tokens : Node → List Token
  | statement leading _ body => leading ++ body.tokens
  | block leading _ _ head opening children trailing closing =>
    leading ++ head.tokens ++ [opening] ++ tokensOfAll children ++ trailing ++ closing.toList

/-- The tokens of a list of nodes in source order. -/
def tokensOfAll : List Node → List Token
  | [] => []
  | n :: ns => tokens n ++ tokensOfAll ns
end

/-- The tokens of a node without its leading whitespace. -/
def content : Node → List Token
  | statement _ _ body => body.tokens
  | block _ _ _ head opening children trailing closing =>
    head.tokens ++ [opening] ++ tokensOfAll children ++ trailing ++ closing.toList

mutual
/-- A node and all nodes inside it, outer before inner and in source order. -/
def nodes : Node → List Node
  | statement leading level body => [statement leading level body]
  | block leading level depth head opening children trailing closing =>
    block leading level depth head opening children trailing closing :: nodesOfAll children

/-- A list of nodes with all nodes inside them. -/
def nodesOfAll : List Node → List Node
  | [] => []
  | n :: ns => nodes n ++ nodesOfAll ns
end

mutual
/-- The defects of a node. A missing selector comes before, an open block after the defects
inside. -/
def errors : Node → List SyntaxError
  | statement _ _ body => body.errors
  | block _ _ _ head opening children _ closing =>
    head.errors opening ++ errorsOfAll children
      ++ (if closing.isNone then [⟨.unclosedBlock, opening.span⟩] else [])

/-- The defects of a list of nodes. -/
def errorsOfAll : List Node → List SyntaxError
  | [] => []
  | n :: ns => errors n ++ errorsOfAll ns
end

theorem tokens_eq_leading_append_content (n : Node) : n.tokens = n.leading ++ n.content := by
  cases n <;> simp [tokens, leading, content]

end Node

/-! ## Stylesheets -/

/-- A parsed source: its nodes and the whitespace behind the last one. -/
structure Stylesheet where
  children : List Node
  trailing : List Token
deriving Repr

namespace Stylesheet

/-- All tokens in source order. -/
def tokens (s : Stylesheet) : List Token := Node.tokensOfAll s.children ++ s.trailing

/-- The source text. -/
def text (s : Stylesheet) : Text := Tokens.text s.tokens

/-- All nodes, outer before inner and in source order. -/
def nodes (s : Stylesheet) : List Node := Node.nodesOfAll s.children

/-- The lists of nodes that stand side by side: at the top, and in each block. -/
def siblings (s : Stylesheet) : List (List Node) :=
  s.children :: s.nodes.filterMap fun n => n.body?.map Body.children

/-- All declarations in source order. -/
def declarations (s : Stylesheet) : List Declaration := s.nodes.filterMap Node.declaration?

/-- The defects of the tree, not counting those of single tokens. -/
def errors (s : Stylesheet) : List SyntaxError := Node.errorsOfAll s.children

end Stylesheet

end SheetLint
