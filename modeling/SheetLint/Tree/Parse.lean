import SheetLint.Tree.Piece
import SheetLint.Token.Scan

/-!
# From tokens to the tree

Pieces are put into a tree with a stack of open blocks. A closing brace ends the innermost open
block, or is skipped as a defect when none is open; blocks still open at the end stay without a
closing brace. The tree is complete whatever the tokens are, and the defects are read off it.
-/

namespace SheetLint

namespace Stylesheet

/-- A block whose closing brace has not come yet, with the nodes in front of it in reverse. -/
structure OpenBlock where
  leading : List Token
  head : Head
  opening : Token
  before : List Node

/-- The number of rule sets among open blocks. -/
def ruleSetDepth (blocks : List OpenBlock) : Nat := blocks.countP (·.head.isRuleSet)

/-- The node that the innermost of the open blocks becomes. -/
def OpenBlock.close (block : OpenBlock) (outer : List OpenBlock) (children : List Node)
    (trailing : List Token) (closing : Option Token) : Node :=
  .block block.leading outer.length (ruleSetDepth (block :: outer)) block.head block.opening
    children trailing closing

/-- Ends all open blocks at the end of the source. -/
def closeAll : List OpenBlock → List Node → List Token → Stylesheet
  | [], done, trailing => ⟨done.reverse, trailing⟩
  | block :: outer, done, trailing =>
    closeAll outer (block.close outer done.reverse trailing none :: block.before) []

/-- Puts pieces into the innermost open block, whose nodes so far are `done`, in reverse. -/
def build : List OpenBlock → List Node → List Piece → List Token → Stylesheet
  | blocks, done, [], trailing => closeAll blocks done trailing
  | blocks, done, piece :: pieces, trailing =>
    match piece.body with
    | .statement s => build blocks (.statement piece.leading blocks.length s :: done) pieces trailing
    | .opening head brace =>
      build (⟨piece.leading, head, brace, done⟩ :: blocks) [] pieces trailing
    | .closing brace =>
      match blocks with
      | [] =>
        let stray := .skipped [brace] (some ⟨.unexpectedBrace, brace.span⟩)
        build [] (.statement piece.leading 0 stray :: done) pieces trailing
      | block :: outer =>
        build outer (block.close outer done.reverse piece.leading (some brace) :: block.before)
          pieces trailing

/-- The tree of a run of tokens. -/
def ofTokens (tokens : List Token) : Stylesheet :=
  let cut := Piece.split tokens
  build [] [] cut.1 cut.2

end Stylesheet

/-! ## Parsing -/

/-- Order of errors: by start, then by end. -/
def SyntaxError.le (a b : SyntaxError) : Bool :=
  a.span.start.offset < b.span.start.offset
    || (a.span.start.offset == b.span.start.offset && a.span.stop.offset ≤ b.span.stop.offset)

/-- A tree and all that is wrong with it, in source order. -/
structure Parse where
  sheet : Stylesheet
  errors : List SyntaxError

namespace Parse

/-- The defects of single tokens. -/
def tokenErrors (tokens : List Token) : List SyntaxError :=
  (tokens.filter (·.kind == .error)).map fun t => ⟨.malformed t.malformed, t.span⟩

/-- Parses a run of tokens. -/
def ofTokens (tokens : List Token) : Parse :=
  let sheet := Stylesheet.ofTokens tokens
  ⟨sheet, (tokenErrors tokens ++ sheet.errors).mergeSort SyntaxError.le⟩

/-- Parses a source text. -/
def ofText (t : Text) : Parse := ofTokens (Tokens.ofText t)

/-- Whether nothing is wrong. -/
def isOk (p : Parse) : Bool := p.errors.isEmpty

end Parse

end SheetLint
