import SheetLint.Rule
import SheetLint.Tree.Layout

/-!
# The lines of a rule set

A rule set with a single declaration stands on one line. In any other, each statement and the
closing brace start a line; a comment may stand behind a statement, and `@else` behind the block
of its `@if`.
-/

namespace SheetLint.DeclarationGrouping

/-- The children of a rule set that may stand on one line: a declaration without line break. -/
def onlyDeclaration? (children : List Node) : Option Node :=
  match children with
  | [child] =>
    if child.declaration?.isSome && !(Tokens.text child.content).has '\n' then some child else none
  | _ => none

/-- A finding that is fixed by other whitespace in front of a place. -/
def spacingFinding (span : Span) (message fixMessage : String) (space : List Token)
    (wanted : Text) : Finding :=
  { span, message, fix := some ⟨fixMessage, [.replaceRun space span.start.offset wanted]⟩ }

/-- The findings for a rule set that belongs on one line. -/
def singleLineFindings (child : Node) (trailing : List Token) (closing : Token) : List Finding :=
  (match Tokens.span? child.content with
    | some span =>
      if Tokens.isOneSpace child.leading then []
      else
        [spacingFinding span "Expected a single-declaration rule on one line"
          "Put the declaration on the rule's line" child.leading [' ']]
    | none => [])
  ++ (if Tokens.isOneSpace trailing then []
      else
        [spacingFinding closing.span "Expected `\x7d` on the same line as the declaration"
          "Put `\x7d` on the declaration's line" trailing [' ']])

/-- Whether a node is a block with an at-rule in front of it. -/
def isAtRuleBlock : Node → Bool
  | .block _ _ _ (.atRule _ _) _ _ _ _ => true
  | _ => false

/-- Whether a node may stand on a line behind the node in front of it. -/
def mayShareLine (before : Option Node) (n : Node) : Bool :=
  match n with
  | .statement _ _ (.comment _) => before.isSome
  | .statement _ _ (.empty _) => true
  | _ =>
    match n.atRule? with
    | some (keyword, _) => atRuleName keyword = "else".toList && before.any isAtRuleBlock
    | none => false

/-- The findings for nodes that should start a line. -/
def lineFindings (before : Option Node) : List Node → List Finding
  | [] => []
  | n :: ns =>
    (match Tokens.span? n.content with
      | some span =>
        if n.startsLine || mayShareLine before n then []
        else
          [spacingFinding span "Expected statement on its own line" "Start a new line" n.leading
            ['\n']]
      | none => [])
    ++ lineFindings (some n) ns

/-- The findings for a rule set that belongs on several lines. -/
def multiLineFindings (children : List Node) (trailing : List Token) (closing : Token) :
    List Finding :=
  if children.isEmpty then []
  else
    lineFindings none children
      ++ (if Tokens.hasLineBreak trailing then []
          else
            [spacingFinding closing.span "Expected `\x7d` on its own line" "Move `\x7d` to its own line"
              trailing ['\n']])

/-- The findings for a rule set with its closing brace. -/
def ruleSetFindings (singleLine : Bool) (children : List Node) (trailing : List Token)
    (closing : Token) : List Finding :=
  match if singleLine then onlyDeclaration? children else none with
  | some child => singleLineFindings child trailing closing
  | none => multiLineFindings children trailing closing

/-- Finds rule sets whose lines are laid out otherwise. -/
def check (singleLine : Bool) : Check := fun _ sheet =>
  sheet.nodes.flatMap fun
    | .block _ _ _ (.ruleSet _) _ children trailing (some closing) =>
      ruleSetFindings singleLine children trailing closing
    | _ => []

/-- The rule and its options. -/
def entry : RuleEntry where
  info := ⟨"SL005", "declaration-grouping",
    "Puts single-declaration rules on one line and other statements on their own lines", .warning,
    true⟩
  options := ["single_line"]
  read o := do
    let singleLine ← o.boolean "single_line" true
    return check singleLine

end SheetLint.DeclarationGrouping
