import SheetLint.Regex.Parse
import SheetLint.Rule

/-!
# The names of classes

The name of a class matches a pattern. A name that does not is renamed when its kebab-case form
does. Names built with interpolation are left alone.
-/

namespace SheetLint.SelectorNaming

/-- The pattern for blocks, elements and modifiers in kebab case. -/
def standardPattern : String :=
  "^[a-z][a-z0-9]*(-[a-z0-9]+)*(__[a-z0-9]+(-[a-z0-9]+)*)?(--[a-z0-9]+(-[a-z0-9]+)*)?$"

/-! ## Kebab case -/

/-- Cuts a text at each pair of the same two characters, from the left. -/
def splitAtPair (c : Char) : Text → List Text
  | x :: y :: r =>
    if x = c ∧ y = c then [] :: splitAtPair c r
    else
      match splitAtPair c (y :: r) with
      | [] => [[x]]
      | part :: parts => (x :: part) :: parts
  | t => [t]

/-- The word, in reverse, with a dash behind it unless it is empty or has one. -/
def pushDash (word : Text) : Text :=
  match word with
  | [] => []
  | '-' :: _ => word
  | _ => '-' :: word

/-- Whether a capital starts a new part of a word: behind a small letter or a digit, or as the last
capital of an acronym. -/
def startsPart (before after : Option Char) : Bool :=
  before.any (fun c => c.isLower || c.isDigit)
    || (before.any Char.isUpper && after.any Char.isLower)

/-- Reads a word from left to right; `done` is the kebab-case form of what is read, in reverse. -/
def kebabFrom (before : Option Char) (done : Text) : Text → Text
  | [] => done
  | c :: r =>
    let next :=
      if c = '_' || c = '-' then pushDash done
      else if c.isUpper then
        c.toLower :: (if startsPart before r.head? then pushDash done else done)
      else c :: done
    kebabFrom (some c) next r

/-- The kebab-case form of a word without doubled separators. -/
def kebabWord (word : Text) : Text :=
  ((kebabFrom none [] word).dropWhile (· == '-')).reverse

/-- The kebab-case form of a name. Doubled underscores and dashes stay. -/
def kebab (name : Text) : Text :=
  let element (t : Text) : Text :=
    List.intercalate ['-', '-'] ((splitAtPair '-' t).map kebabWord)
  List.intercalate ['_', '_'] ((splitAtPair '_' name).map element)

/-! ## Findings -/

/-- The finding for a class name behind its dot. -/
def nameFinding (accepts : Text → Bool) (dot name : Token) : List Finding :=
  if accepts name.text then []
  else
    let renamed := kebab name.text
    let isBetter := renamed != name.text && accepts renamed
    [{ span := ⟨dot.span.start, name.span.stop⟩
       message := "Class `." ++ String.ofList name.text ++ "` does not match the naming pattern"
       suggestion :=
         if isBetter then none
         else some "Use kebab-case blocks with `__element` and `--modifier` suffixes"
       fix :=
         if isBetter then
           some (.replace ("Rename to `." ++ String.ofList renamed ++ "`") name.start name.stop renamed)
         else none }]

/-- Whether an interpolation goes on where a name ends. -/
def isContinued (name : Token) (rest : List Token) : Bool :=
  rest.head?.any fun t => t.kind == .interpolation && t.start == name.stop

/-- The findings for the class names of a selector list. -/
def selectorFindings (accepts : Text → Bool) : List Token → List Finding
  | dot :: name :: rest =>
    (if dot.isPunct '.' && name.kind == .ident && name.start == dot.stop && !isContinued name rest then
      nameFinding accepts dot name
    else [])
      ++ selectorFindings accepts (name :: rest)
  | _ => []

/-- Finds class names that the pattern does not accept. -/
def check (accepts : Text → Bool) : Check := fun _ sheet =>
  sheet.nodes.flatMap fun
    | .block _ _ _ (.ruleSet selectors) _ _ _ _ => selectorFindings accepts selectors
    | _ => []

/-- The names that a pattern accepts. -/
def acceptsOf? (pattern : String) : Option (Text → Bool) :=
  (Regex.ofText? pattern.toList).map Regex.isMatch

/-- The rule and its options. -/
def entry : RuleEntry where
  info := ⟨"SL008", "selector-naming", "Requires class selectors to follow the naming convention",
    .error, true⟩
  options := ["pattern"]
  read o := do
    let pattern ← o.text? "pattern"
    match acceptsOf? (pattern.getD standardPattern) with
    | some accepts => return check accepts
    | none => o.fail "pattern" .invalidPattern

end SheetLint.SelectorNaming
