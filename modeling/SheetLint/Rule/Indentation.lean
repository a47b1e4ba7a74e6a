import SheetLint.Rule
import SheetLint.Tree.Layout

/-!
# Indentation by block level

A statement, a selector or a closing brace that starts a line is indented by one unit for each
block around it. Lines inside values are free.
-/

namespace SheetLint.Indentation

/-- What a level of indentation is made of. -/
inductive Style where
  | space
  | tab
deriving DecidableEq, Repr

/-- The options of the rule. The width counts for spaces only. -/
structure Options where
  width : Nat := 2
  style : Style := .space

/-- The indentation of a level. -/
def expected (o : Options) (level : Nat) : Text :=
  match o.style with
  | .space => List.replicate (o.width * level) ' '
  | .tab => List.replicate level '\t'

/-- A number of things, with the word for one of them. -/
def counted (n : Nat) (word : String) : String :=
  if n = 1 then s!"1 {word}" else s!"{n} {word}s"

/-- How a message names an indentation. -/
def describe (t : Text) : String :=
  match t.count ' ', t.count '\t' with
  | 0, 0 => "nothing"
  | spaces, 0 => counted spaces "space"
  | 0, tabs => counted tabs "tab"
  | spaces, tabs => counted spaces "space" ++ " and " ++ counted tabs "tab"

/-- The finding for a line that starts behind the trivia and is not indented as its level asks. -/
def lineFinding (o : Options) (trivia : List Token) (level : Nat) (what : String) : List Finding :=
  match Indent.ofTrivia? trivia with
  | none => []
  | some indent =>
    let wanted := expected o level
    if indent.text = wanted then []
    else
      [{ span := indent.span
         message := "Expected " ++ what ++ " to be indented by " ++ describe wanted ++ ", found "
           ++ describe indent.text
         fix := some (.replace ("Indent by " ++ describe wanted) indent.span.start.offset
           indent.span.stop.offset wanted) }]

/-- The findings for the lines of a selector behind its first. -/
def selectorFindings (o : Options) (level : Nat) (selectors : List Token) : List Finding :=
  (Tokens.dropEndWhile Token.isWhitespace selectors).dropLast.flatMap fun t =>
    lineFinding o [t] level "selector"

/-- The findings for a node itself: its first line, its selector and its closing brace. -/
def nodeFindings (o : Options) : Node → List Finding
  | .statement leading level _ => lineFinding o leading level "line"
  | .block leading level _ head _ _ trailing closing =>
    lineFinding o leading level "line"
      ++ (match head with
          | .ruleSet selectors => selectorFindings o level selectors
          | .atRule _ _ => [])
      ++ (if closing.isSome then lineFinding o trailing level "`\x7d`" else [])

/-- Finds lines that are not indented as their level asks. -/
def check (o : Options) : Check := fun _ sheet => sheet.nodes.flatMap (nodeFindings o)

/-- The rule and its options. -/
def entry : RuleEntry where
  info := ⟨"SL001", "indentation", "Indents nested lines by a fixed unit per block level", .warning,
    true⟩
  options := ["width", "style"]
  read o := do
    let width ← o.natural "width" 2 1 8
    let style ← o.choice "style" .space [("space", Style.space), ("tab", .tab)]
    return check ⟨width, style⟩

end SheetLint.Indentation
