import SheetLint.Proofs.Tree.Nodes

/-!
# The blocks around a node

A node stands at the top of a sheet or in a block, which stands somewhere itself. So each node has a
list of blocks around it, and the tree keeps two numbers of that list: its length, which is the level
of the node, and the number of rule sets in it, which a rule set exceeds by one with its depth.

The tree is built with a stack of open blocks. What is put into the innermost of them is numbered by
the stack, and the stack is what will be around it once all blocks are closed.

Results:
* `Node.mem_placedOfAll_iff`: the list of all nodes with the blocks around them.
* `Stylesheet.numbered_build`: the stack of open blocks numbers the nodes that are put into it.
* `Stylesheet.level_depth_of_mem_placed`: level and depth count the blocks around a node.
* `Stylesheet.mem_nodes_iff`, `Stylesheet.mem_declarations_iff`: where the nodes and declarations of a
  sheet stand.
-/

namespace SheetLint

namespace Node

/-- The nodes that stand directly in a node. -/
def children : Node → List Node
  | statement _ _ _ => []
  | block _ _ _ _ _ children _ _ => children

/-- The selectors and the depth, if the node is a rule set. -/
def ruleSet? : Node → Option (List Token × Nat)
  | block _ _ depth (.ruleSet selectors) _ _ _ _ => some (selectors, depth)
  | _ => none

/-- Whether the node is a rule set. -/
def isRuleSet (n : Node) : Bool := n.ruleSet?.isSome

theorem declaration?_eq_some_iff {n : Node} {d : Declaration} : n.declaration? = some d ↔
    ∃ leading level, n = statement leading level (.declaration d) := by
  constructor
  · intro h
    unfold declaration? at h
    split at h
    · cases h
      exact ⟨_, _, rfl⟩
    · cases h
  · rintro ⟨leading, level, rfl⟩
    rfl

@[simp] theorem isRuleSet_statement (leading : List Token) (level : Nat) (s : Statement) :
    (statement leading level s).isRuleSet = false := rfl

@[simp] theorem isRuleSet_block (leading : List Token) (level depth : Nat) (head : Head)
    (opening : Token) (children : List Node) (trailing : List Token) (closing : Option Token) :
    (block leading level depth head opening children trailing closing).isRuleSet =
      head.isRuleSet := by
  cases head <;> rfl

/-! ## Where nodes stand -/

/-- How a node stands among the nodes at the top and those inside them: at the top itself, or in a
block that stands there. The blocks around the node are listed from the innermost outwards. -/
inductive Enclosed (top : List Node) : List Node → Node → Prop
  | top {n : Node} (mem : n ∈ top) : Enclosed top [] n
  | inside {n outer : Node} {around : List Node} (outer_enclosed : Enclosed top around outer)
      (mem : n ∈ outer.children) : Enclosed top (outer :: around) n

mutual
/-- A node and all nodes inside it, in the order of `nodes`, each behind the blocks around it. -/
def placed (around : List Node) : Node → List (List Node × Node)
  | statement leading level body => [(around, statement leading level body)]
  | block leading level depth head opening children trailing closing =>
    (around, block leading level depth head opening children trailing closing)
      :: placedOfAll (block leading level depth head opening children trailing closing :: around)
        children

/-- A list of nodes with all nodes inside them, each behind the blocks around it. -/
def placedOfAll (around : List Node) : List Node → List (List Node × Node)
  | [] => []
  | n :: ns => placed around n ++ placedOfAll around ns
end

theorem mem_placedOfAll {around : List Node} {ns : List Node} {p : List Node × Node} :
    p ∈ placedOfAll around ns ↔ ∃ m ∈ ns, p ∈ m.placed around := by
  induction ns with
  | nil => simp [placedOfAll]
  | cons m ms ih => simp [placedOfAll, ih]

theorem mem_placed_self (around : List Node) (n : Node) : (around, n) ∈ n.placed around := by
  cases n <;> simp [placed]

mutual

theorem map_snd_placed (around : List Node) : (n : Node) → (n.placed around).map Prod.snd = n.nodes
  | .statement _ _ _ => rfl
  | .block _ _ _ _ _ children _ _ => by
    rw [placed, List.map_cons, map_snd_placedOfAll _ children, nodes]

/-- Each node is placed, in its turn. -/
theorem map_snd_placedOfAll (around : List Node) :
    (ns : List Node) → (placedOfAll around ns).map Prod.snd = nodesOfAll ns
  | [] => rfl
  | n :: ns => by
    rw [placedOfAll, List.map_append, map_snd_placed around n, map_snd_placedOfAll around ns,
      nodesOfAll]

end

mutual

theorem enclosed_of_mem_placed {top around : List Node} :
    (m : Node) → Enclosed top around m → ∀ p ∈ m.placed around, Enclosed top p.1 p.2
  | .statement _ _ _, hm => by
    intro p hp
    rw [List.mem_singleton.mp hp]
    exact hm
  | .block _ _ _ _ _ children _ _, hm => by
    intro p hp
    rcases List.mem_cons.mp hp with rfl | hinside
    · exact hm
    · exact enclosed_of_mem_placedOfAll children (fun _ hn => .inside hm hn) p hinside

theorem enclosed_of_mem_placedOfAll {top around : List Node} :
    (ns : List Node) → (∀ n ∈ ns, Enclosed top around n) →
      ∀ p ∈ placedOfAll around ns, Enclosed top p.1 p.2
  | [], _ => by
    intro p hp
    cases hp
  | n :: ns, hns => by
    rw [List.forall_mem_cons] at hns
    intro p hp
    rcases List.mem_append.mp hp with hfirst | hlater
    · exact enclosed_of_mem_placed n hns.1 p hfirst
    · exact enclosed_of_mem_placedOfAll ns hns.2 p hlater

end

mutual

theorem mem_placed_of_mem_children {n outer : Node} {around path : List Node}
    (hn : n ∈ outer.children) :
    (m : Node) → (path, outer) ∈ m.placed around → (outer :: path, n) ∈ m.placed around
  | .statement _ _ _, houter => by
    cases List.mem_singleton.mp houter
    cases hn
  | .block _ _ _ _ _ children _ _, houter => by
    refine List.mem_cons_of_mem _ ?_
    rcases List.mem_cons.mp houter with heq | hinside
    · cases heq
      exact mem_placedOfAll.mpr ⟨n, hn, mem_placed_self _ n⟩
    · exact mem_placedOfAll_of_mem_children hn children hinside

/-- What stands in a block that is placed has this block around it, and those around the block. -/
theorem mem_placedOfAll_of_mem_children {n outer : Node} {around path : List Node}
    (hn : n ∈ outer.children) :
    (ns : List Node) → (path, outer) ∈ placedOfAll around ns →
      (outer :: path, n) ∈ placedOfAll around ns
  | [], houter => by cases houter
  | m :: ms, houter => by
    rcases List.mem_append.mp houter with hfirst | hlater
    · exact List.mem_append_left _ (mem_placed_of_mem_children hn m hfirst)
    · exact List.mem_append_right _ (mem_placedOfAll_of_mem_children hn ms hlater)

end

/-- **The list of placed nodes** holds a node behind some blocks exactly when these are the blocks
around it. -/
theorem mem_placedOfAll_iff {top around : List Node} {n : Node} :
    (around, n) ∈ placedOfAll [] top ↔ Enclosed top around n := by
  constructor
  · exact enclosed_of_mem_placedOfAll top (fun _ hm => .top hm) (around, n)
  · intro h
    induction h with
    | top hn => exact mem_placedOfAll.mpr ⟨_, hn, mem_placed_self [] _⟩
    | inside _ hn ih => exact mem_placedOfAll_of_mem_children hn top ih

/-! ## Numbers of blocks and rule sets -/

mutual
/-- Whether a node with this many blocks and rule sets around it has them as its numbers, and so
all nodes inside it. The depth of a block counts the block itself if it is a rule set. -/
def Numbered (blocks ruleSets : Nat) : Node → Prop
  | statement _ level _ => level = blocks
  | block _ level depth head _ children _ _ =>
    level = blocks ∧ depth = ruleSets + head.isRuleSet.toNat
      ∧ NumberedOfAll (blocks + 1) depth children

/-- Whether all nodes of a list are numbered. -/
def NumberedOfAll (blocks ruleSets : Nat) : List Node → Prop
  | [] => True
  | n :: ns => Numbered blocks ruleSets n ∧ NumberedOfAll blocks ruleSets ns
end

theorem numberedOfAll_iff {blocks ruleSets : Nat} {ns : List Node} :
    NumberedOfAll blocks ruleSets ns ↔ ∀ n ∈ ns, n.Numbered blocks ruleSets := by
  induction ns with
  | nil => simp [NumberedOfAll]
  | cons n ns ih => simp [NumberedOfAll, ih]

/-- Whether the level of a node is the number of blocks around it, and its depth, if it is a rule
set, one more than the number of rule sets around it. -/
structure CountsAround (around : List Node) (n : Node) : Prop where
  level_eq : n.level = around.length
  depth_eq : ∀ selectors depth, n.ruleSet? = some (selectors, depth) →
    depth = around.countP isRuleSet + 1

mutual

theorem countsAround_of_numbered {around : List Node} :
    (m : Node) → m.Numbered around.length (around.countP isRuleSet) →
      ∀ p ∈ m.placed around, CountsAround p.1 p.2
  | .statement _ _ _, hm => by
    intro p hp
    rw [List.mem_singleton.mp hp]
    exact ⟨hm, fun _ _ h => by cases h⟩
  | .block leading level depth head opening children trailing closing, hm => by
    obtain ⟨hlevel, hdepth, hchildren⟩ := hm
    intro p hp
    rcases List.mem_cons.mp hp with rfl | hinside
    · refine ⟨hlevel, fun selectors d h => ?_⟩
      cases head with
      | atRule => cases h
      | ruleSet =>
        cases h
        exact hdepth
    · refine countsAround_of_numberedOfAll children ?_ p hinside
      rw [List.length_cons, List.countP_cons, isRuleSet_block]
      rw [hdepth] at hchildren
      cases hset : head.isRuleSet <;> rw [hset] at hchildren <;> exact hchildren

/-- Numbers that are right for a list of nodes count what is around each node inside. -/
theorem countsAround_of_numberedOfAll {around : List Node} :
    (ns : List Node) → NumberedOfAll around.length (around.countP isRuleSet) ns →
      ∀ p ∈ placedOfAll around ns, CountsAround p.1 p.2
  | [], _ => by
    intro p hp
    cases hp
  | n :: ns, hns => by
    intro p hp
    rcases List.mem_append.mp hp with hfirst | hlater
    · exact countsAround_of_numbered n hns.1 p hfirst
    · exact countsAround_of_numberedOfAll ns hns.2 p hlater

end

end Node

/-! ## The stack of open blocks -/

namespace Stylesheet

open Node

variable {blocks outer : List OpenBlock} {b : OpenBlock} {done : List Node} {n : Node}
  {trailing : List Token}

/-- All nodes in source order, each behind the blocks around it. -/
def placed (s : Stylesheet) : List (List Node × Node) := placedOfAll [] s.children

/-- Whether the nodes that wait in front of the open blocks are numbered by the blocks further
out. -/
def WaitingNumbered : List OpenBlock → Prop
  | [] => True
  | b :: outer =>
    (∀ n ∈ b.before, n.Numbered outer.length (ruleSetDepth outer)) ∧ WaitingNumbered outer

theorem ruleSetDepth_cons (b : OpenBlock) (outer : List OpenBlock) :
    ruleSetDepth (b :: outer) = ruleSetDepth outer + b.head.isRuleSet.toNat := by
  rw [ruleSetDepth, List.countP_cons]
  cases b.head.isRuleSet <;> rfl

/-- A block that is closed is numbered by the blocks around it. -/
theorem numbered_close
    (hdone : ∀ n ∈ done, n.Numbered (b :: outer).length (ruleSetDepth (b :: outer))) (trailing : List Token) (closing : Option Token) :
    (b.close outer done.reverse trailing closing).Numbered outer.length (ruleSetDepth outer) :=
  ⟨rfl, ruleSetDepth_cons b outer,
    numberedOfAll_iff.mpr fun n hn => hdone n (List.mem_reverse.mp hn)⟩

theorem numbered_closeAll (hblocks : WaitingNumbered blocks)
    (hdone : ∀ n ∈ done, n.Numbered blocks.length (ruleSetDepth blocks)) :
    ∀ n ∈ (closeAll blocks done trailing).children, n.Numbered 0 0 := by
  induction blocks generalizing done trailing with
  | nil =>
    intro n hn
    exact hdone n (List.mem_reverse.mp hn)
  | cons b outer ih =>
    exact ih hblocks.2
      (List.forall_mem_cons.mpr ⟨numbered_close hdone trailing none, hblocks.1⟩)

/-- **The stack numbers the nodes.** What is put into the innermost open block is numbered by all
open blocks, and keeps these numbers when they are closed. -/
theorem numbered_build {pieces : List Piece} (hblocks : WaitingNumbered blocks)
    (hdone : ∀ n ∈ done, n.Numbered blocks.length (ruleSetDepth blocks)) :
    ∀ n ∈ (build blocks done pieces trailing).children, n.Numbered 0 0 := by
  induction pieces generalizing blocks done with
  | nil => exact numbered_closeAll hblocks hdone
  | cons p pieces ih =>
    rw [build]
    split
    · exact ih hblocks (List.forall_mem_cons.mpr ⟨rfl, hdone⟩)
    · exact ih ⟨hdone, hblocks⟩ (by simp)
    · split
      · exact ih trivial (List.forall_mem_cons.mpr ⟨rfl, hdone⟩)
      · exact ih hblocks.2
          (List.forall_mem_cons.mpr ⟨numbered_close hdone p.leading _, hblocks.1⟩)

/-- **Level and depth count the blocks around a node**, whatever the tokens are. -/
theorem level_depth_of_mem_placed (ts : List Token) :
    ∀ p ∈ (ofTokens ts).placed, CountsAround p.1 p.2 :=
  countsAround_of_numberedOfAll _ (numberedOfAll_iff.mpr (numbered_build trivial (by simp)))

theorem map_snd_placed (s : Stylesheet) : s.placed.map Prod.snd = s.nodes :=
  map_snd_placedOfAll [] s.children

/-- **The nodes of a sheet** are those that stand at its top or in any block. -/
theorem mem_nodes_iff {s : Stylesheet} : n ∈ s.nodes ↔ ∃ around, Enclosed s.children around n := by
  simp only [← map_snd_placed, List.mem_map, Prod.exists, exists_eq_right, placed, mem_placedOfAll_iff]

/-- **The declarations of a sheet** are those that stand at its top or in any block. -/
theorem mem_declarations_iff {s : Stylesheet} {d : Declaration} :
    d ∈ s.declarations ↔ ∃ around leading level,
      Enclosed s.children around (.statement leading level (.declaration d)) := by
  rw [declarations, List.mem_filterMap]
  constructor
  · rintro ⟨n, hn, hd⟩
    obtain ⟨around, hplaced⟩ := mem_nodes_iff.mp hn
    obtain ⟨leading, level, rfl⟩ := declaration?_eq_some_iff.mp hd
    exact ⟨around, leading, level, hplaced⟩
  · rintro ⟨around, leading, level, hplaced⟩
    exact ⟨_, mem_nodes_iff.mpr ⟨around, hplaced⟩, rfl⟩

end Stylesheet

end SheetLint
