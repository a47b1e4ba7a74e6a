import SheetLint.Comment
import SheetLint.Token

/-!
# Allowing findings from a comment

A comment such as `// scss-lint: allow(zero-unit, SL010) reason="vendor code"` allows the named
rules, by name or by code, on the lines it covers and on the line behind it. `all` names every
rule.
-/

namespace SheetLint

/-- The rules that a comment allows, and why. -/
structure Directive where
  rules : List Text
  reason : Option Text
deriving DecidableEq, Repr

namespace Directive

/-- What stands between the marks of a comment; a block comment has to be closed. -/
def content? : Text → Option Text
  | '/' :: '/' :: rest => some rest
  | '/' :: '*' :: rest => Text.stripEnd? ['*', '/'] rest
  | _ => none

/-- The quoted reason behind the list of rules. -/
def reason? (t : Text) : Option Text := do
  let value ← Text.stripStart? "reason=".toList (Text.trim t)
  let quoted ← Text.stripStart? ['"'] (Text.trim value)
  let parts ← Text.cutAt? '"' quoted
  return parts.1

/-- The directive in a comment; `none` when the comment is no directive or names no rule. -/
def ofComment? (t : Text) : Option Directive := do
  let content ← content? t
  let directive ← Text.stripStart? "scss-lint:".toList (Text.trim content)
  let list ← Text.stripStart? "allow(".toList (Text.trim directive)
  let (inside, rest) ← Text.cutAt? ')' (Text.trim list)
  match ((Text.splitOn ',' inside).map Text.trim).filter (· ≠ []) with
  | [] => none
  | rules => return ⟨rules, reason? rest⟩

/-- Whether the directive allows the rule with this name and code. -/
def allows (d : Directive) (name code : String) : Bool :=
  d.rules.contains name.toList || d.rules.contains code.toList || d.rules.contains "all".toList

end Directive

/-- A directive and the lines it covers, both ends included. -/
structure Suppression where
  first : Nat
  last : Nat
  directive : Directive
deriving DecidableEq, Repr

namespace Suppression

/-- The suppressions among the tokens, in source order. -/
def ofTokens (ts : List Token) : List Suppression :=
  ts.filterMap fun t =>
    if t.isComment then
      (Directive.ofComment? t.text).map fun d => ⟨t.span.start.line, t.span.stop.line + 1, d⟩
    else none

/-- Whether the suppression allows the rule on the line. -/
def covers (s : Suppression) (line : Nat) (name code : String) : Bool :=
  s.first ≤ line && line ≤ s.last && s.directive.allows name code

/-- The first of the suppressions that allows the rule on the line. -/
def find? (all : List Suppression) (line : Nat) (name code : String) : Option Suppression :=
  all.find? (·.covers line name code)

end Suppression

end SheetLint
