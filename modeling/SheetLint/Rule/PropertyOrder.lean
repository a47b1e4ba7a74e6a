import SheetLint.Rule
import SheetLint.Rule.PropertyOrder.Category

/-!
# The order of declarations in a block

Declarations are ordered by group; `@extend` and `@include` may have to come first. Within a group
the written order is kept, but the members of a family take the places of the family in their own
order. Comments, variables, blocks and other at-rules cut a block into runs that are ordered each
by itself.
-/

namespace SheetLint.PropertyOrder

/-- The options of the rule. -/
structure Options where
  groups : List (List String) := standardGroups
  includeFirst : Bool := true

/-- Where a statement belongs: its group, and its family with its place there if it has one. -/
structure Rank where
  group : Nat
  family : Option (Nat × Nat)
deriving DecidableEq, Repr

/-! ## Ranks -/

/-- The rank of a property. The groups follow those of `@extend` and `@include`; a property in no
group comes last. -/
def propertyRank (o : Options) (property : String) : Rank :=
  ⟨2 + (o.groups.findIdx fun group => group.contains property), familyOf? property⟩

/-- The rank of a node; none for a node that nothing moves across. -/
def rank? (o : Options) : Node → Option Rank
  | .statement _ _ (.declaration d) =>
    if d.isVariable then none else some (propertyRank o (String.ofList d.normalizedName))
  | .statement _ _ (.atRule keyword _ _) =>
    if o.includeFirst then
      let name := atRuleName keyword
      if name = "extend".toList then some ⟨0, none⟩
      else if name = "include".toList then some ⟨1, none⟩
      else none
    else none
  | _ => none

/-! ## Sorting -/

/-- Whether a rank is in a family of a group. -/
def inFamily (key : Nat × Nat) (r : Rank) : Bool :=
  r.group = key.1 && r.family.any fun f => f.1 = key.2

/-- The families of groups that occur, in the order of their first members. -/
def familyKeys (ranks : List Rank) : List (Nat × Nat) :=
  (ranks.filterMap fun r => r.family.map fun f => (r.group, f.1)).eraseDups

/-- Puts the members, in turn, into the places where the test holds. -/
def refill {α : Type} (test : α → Bool) : List α → List α → List α
  | [], _ => []
  | x :: xs, [] => x :: xs
  | x :: xs, m :: ms => if test x then m :: refill test xs ms else x :: refill test xs (m :: ms)

/-- Sorts the members of one family of a group among the places that they hold. -/
def sortFamily (order : List (Rank × Nat)) (key : Nat × Nat) : List (Rank × Nat) :=
  let isMember (x : Rank × Nat) : Bool := inFamily key x.1
  let place (x : Rank × Nat) : Nat := (x.1.family.map Prod.snd).getD 0
  refill isMember order ((order.filter isMember).mergeSort fun a b => place a ≤ place b)

/-- For each slot the index of the rank that belongs there. -/
def sortedOrder (ranks : List Rank) : List Nat :=
  let byGroup := ranks.zipIdx.mergeSort fun a b => a.1.group ≤ b.1.group
  ((familyKeys ranks).foldl sortFamily byGroup).map Prod.snd

/-! ## Findings -/

/-- A node with its rank. -/
abbrev Ranked := Node × Rank

/-- Cuts nodes into runs of those that have a rank. -/
def runs (o : Options) : List Node → List (List Ranked)
  | [] => [[]]
  | n :: ns =>
    match rank? o n, runs o ns with
    | some r, run :: more => ((n, r) :: run) :: more
    | some r, [] => [[(n, r)]]
    | none, more => [] :: more

/-- How a message names a statement. -/
def label : Node → Text
  | .statement _ _ (.declaration d) => d.name
  | .statement _ _ (.atRule keyword prelude _) =>
    match Tokens.text (Tokens.trim prelude) with
    | [] => keyword.text
    | target => keyword.text ++ ' ' :: target
  | _ => []

/-- Whether a statement ends with a semicolon. -/
def hasSemicolon : Node → Bool
  | .statement _ _ (.declaration d) => d.semicolon.isSome
  | .statement _ _ (.atRule _ _ semicolon) => semicolon.isSome
  | _ => false

/-- The statements of a run that take another's slot, each after the one whose slot it takes. -/
def moves (run : List Ranked) : List (Node × Node) :=
  let order := sortedOrder (run.map Prod.snd)
  (run.zip order).zipIdx.filterMap fun ((target, source), slot) =>
    if source = slot then none else run[source]?.map fun moved => (target.1, moved.1)

/-- The edit that puts the text of one statement in the place of another. -/
def moveEdit (target moved : Node) : Option Edit :=
  (Tokens.span? target.content).map fun span =>
    ⟨span.start.offset, span.stop.offset, Tokens.text moved.content⟩

/-- The finding for a run that is not in order, at its first misplaced statement. Statements are
moved only if each of them ends with a semicolon. -/
def runFindings (run : List Ranked) : List Finding :=
  match moves run with
  | [] => []
  | (misplaced, wanted) :: more =>
    match Tokens.span? misplaced.content with
    | some span =>
      [{ span
         message := "Expected " ++ Text.quoted (label wanted) ++ " before "
           ++ Text.quoted (label misplaced)
         fix :=
           if run.all fun n => hasSemicolon n.1 then
             some ⟨"Reorder declarations",
               ((misplaced, wanted) :: more).filterMap fun (target, moved) => moveEdit target moved⟩
           else none }]
    | none => []

/-- Finds blocks whose statements are not in order. -/
def check (o : Options) : Check := fun _ sheet =>
  (sheet.nodes.filterMap Node.body?).flatMap fun body => (runs o body.children).flatMap runFindings

/-- Reads the groups, of which there must be one at least. -/
def readGroups (o : RuleOptions) : Except ConfigError (List (List String)) := do
  match ← o.groups? "groups" with
  | none => return standardGroups
  | some [] => o.fail "groups" .noGroups
  | some groups => return groups.map fun group => group.map String.toLower

/-- The rule and its options. -/
def entry : RuleEntry where
  info := ⟨"SL007", "property-order", "Orders declarations by category, with includes first",
    .warning, true⟩
  options := ["include_first", "groups"]
  read o := do
    let includeFirst ← o.boolean "include_first" true
    let groups ← readGroups o
    return check ⟨groups, includeFirst⟩

end SheetLint.PropertyOrder
