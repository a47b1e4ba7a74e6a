import SheetLint.Rule
import SheetLint.Tree.Layout

/-!
# A blank line in front of blocks

A block that follows another node has exactly one blank line in front of it. A block behind a
comment stays with the comment, and `@else` stays with its `@if`.
-/

namespace SheetLint.EmptyLineBetweenRules

/-- Whether a node has to be set off from the node in front of it. -/
def needsSeparation : Node → Bool
  | .block _ _ _ (.ruleSet _) _ _ _ _ => true
  | .block _ _ _ (.atRule keyword _) _ _ _ _ => atRuleName keyword != "else".toList
  | .statement _ _ _ => false

/-- Replaces the whitespace in front of a node by a blank line; the indentation stays. -/
def separate (leading : List Token) (offset : Nat) : Edit :=
  match leading.head?, Indent.ofTrivia? leading with
  | some first, some indent => ⟨first.start, indent.span.start.offset, ['\n', '\n']⟩
  | _, _ => .replaceRun leading offset ['\n', '\n']

/-- The finding for a node behind another one. -/
def pairFinding (before n : Node) : List Finding :=
  let breaks := Tokens.lineBreaks n.leading
  if before.isComment || !needsSeparation n || breaks = 2 then []
  else
    match Tokens.span? n.content with
    | some span =>
      [{ span
         message :=
           if 2 < breaks then "Expected exactly one blank line before rule"
           else "Expected a blank line before rule"
         fix := some ⟨"Separate rules with one blank line", [separate n.leading span.start.offset]⟩ }]
    | none => []

/-- The findings for nodes that stand side by side. -/
def siblingFindings : List Node → List Finding
  | before :: n :: rest => pairFinding before n ++ siblingFindings (n :: rest)
  | _ => []

/-- Finds blocks without exactly one blank line in front of them. -/
def check : Check := fun _ sheet => sheet.siblings.flatMap siblingFindings

/-- The rule, which has no options. -/
def entry : RuleEntry where
  info := ⟨"SL015", "empty-line-between-rules",
    "Requires one blank line before a rule that follows another statement", .warning, true⟩
  options := []
  read _ := .ok check

end SheetLint.EmptyLineBetweenRules
