import SheetLint.Comment
import SheetLint.Rule

/-!
# Line comments instead of block comments

Block comments end up in the output of the preprocessor, line comments do not. Headings and
comments that start with `/*!` are meant to. A comment on one line that ends its line can be
converted.
-/

namespace SheetLint.CommentStyle

/-- Whether only spaces and tabs stand between an offset and the end of its line. -/
def endsLine (source : Text) (offset : Nat) : Bool :=
  match source.cut? offset with
  | some (_, rest) =>
    match rest.dropWhile fun c => c == ' ' || c == '\t' with
    | [] => true
    | '\n' :: _ => true
    | '\r' :: '\n' :: _ => true
    | _ => false
  | none => true

/-- The line comment with the same body. -/
def lineComment (t : Text) : Text :=
  match Text.trim (Comment.body t) with
  | [] => ['/', '/']
  | body => '/' :: '/' :: ' ' :: body

/-- The finding for a comment that stands by itself. -/
def commentFindings (allowHeadings : Bool) (source : Text) (t : Token) : List Finding :=
  if t.kind != .blockComment || t.text.take 3 = "/*!".toList
      || (allowHeadings && Comment.isHeading t.text) then []
  else
    [{ span := t.span
       message := "Use `//` comments instead of `/* */`"
       fix :=
         if !t.text.has '\n' && endsLine source t.stop then
           some (.replace "Convert to a line comment" t.start t.stop (lineComment t.text))
         else none }]

/-- Finds block comments. -/
def check (allowHeadings : Bool) : Check := fun source sheet =>
  sheet.nodes.flatMap fun
    | .statement _ _ (.comment t) => commentFindings allowHeadings source t
    | _ => []

/-- The rule and its options. -/
def entry : RuleEntry where
  info := ⟨"SL016", "comment-style", "Prefers `//` comments over `/* */`, except headings", .warning,
    true⟩
  options := ["allow_headings"]
  read o := do
    let allowHeadings ← o.boolean "allow_headings" true
    return check allowHeadings

end SheetLint.CommentStyle
