import SheetLint.Proofs.Rule.SortedRanks

/-!
# The slots of sorted ranks

Ranks are sorted in two steps. A stable sort by group comes first; then the members of each family are
put, by place, into the slots that the family holds in its group. The second step does not disturb what
is the same for all members of a family: the groups, the slots that any family holds, and the slots of
ranks without a family. Two members with one group, family and place are one rank, so they stay in the
order in which they are written.

Results:
* `isStableSort_groupOrder`: the first step is the stable sort by group.
* `map_sorted`: what the second step does not disturb.
* `pairwise_sorted`: the order within groups and families.
* `sortedOrder_exact`: where sorting puts each rank.
-/

namespace SheetLint.PropertyOrder

variable {ranks : List Rank} {l l' : List (Rank × Nat)} {x y : Rank × Nat}

/-! ## What sorting is to do -/

/-- Whether indices are in the order of a stable sort of their ranks by group. -/
structure IsStableSort (ranks : List Rank) (order : List Nat) : Prop where
  perm : order.Perm (List.range ranks.length)
  sorted : order.Pairwise fun i j => ∀ a ∈ ranks[i]?, ∀ b ∈ ranks[j]?,
    a.group < b.group ∨ a.group = b.group ∧ i < j

/-- Whether the rank at an index is in a family of a group. -/
def holds (ranks : List Rank) (key : Nat × Nat) (index : Nat) : Bool := ranks[index]?.any (inFamily key)

/-- Whether an order of indices is another one with the members of each family put in order among the
slots of the family. -/
structure Rearranges (ranks : List Rank) (byGroup order : List Nat) : Prop where
  perm : order.Perm (List.range ranks.length)
  groups : order.Pairwise fun i j => ∀ a ∈ ranks[i]?, ∀ b ∈ ranks[j]?, a.group ≤ b.group
  /-- A rank without a family is where it was. -/
  single : ∀ (slot i : Nat) (r : Rank), ranks[i]? = some r → r.family = none →
    (order[slot]? = some i ↔ byGroup[slot]? = some i)
  /-- A family has the slots that it had. -/
  slots : ∀ (key : Nat × Nat) (slot : Nat),
    order[slot]?.any (holds ranks key) = byGroup[slot]?.any (holds ranks key)
  /-- Members of one family are in order of their places, and of their indices where these are equal. -/
  places : order.Pairwise fun i j => ∀ a ∈ ranks[i]?, ∀ b ∈ ranks[j]?, a.group = b.group →
    ∀ f ∈ a.family, ∀ g ∈ b.family, f.1 = g.1 → f.2 < g.2 ∨ f.2 = g.2 ∧ i < j

/-! ## Ranks and their indices -/

/-- What holds between ranks with their indices, of the indices. -/
theorem pairwise_map_snd {R : Rank × Nat → Rank × Nat → Prop} (h : l.Perm ranks.zipIdx)
    (hl : l.Pairwise R) : (l.map Prod.snd).Pairwise fun i j =>
      ∀ a ∈ ranks[i]?, ∀ b ∈ ranks[j]?, R (a, i) (b, j) := by
  rw [List.pairwise_map]
  refine hl.imp_of_mem fun {x y} hx hy hxy a ha b hb => ?_
  rw [getElem?_of_mem h hx] at ha
  rw [getElem?_of_mem h hy] at hb
  cases ha
  cases hb
  exact hxy

theorem pairwise_zipIdx (ranks : List Rank) : ranks.zipIdx.Pairwise fun x y => x.2 < y.2 := by
  have hindices : (ranks.zipIdx.map Prod.snd).Pairwise (· < ·) := by
    rw [List.zipIdx_map_snd]
    exact List.pairwise_lt_range'
  exact List.pairwise_map.mp hindices

/-- Ranks of a kind that are in the order in which they are written. -/
theorem lt_of_sublist {test : Rank × Nat → Bool} (h : l.filter test = ranks.zipIdx.filter test)
    (hxy : [x, y].Sublist l) (hx : test x = true) (hy : test y = true) : x.2 < y.2 := by
  have hfilter := hxy.filter test
  rw [h, List.filter_cons_of_pos hx, List.filter_cons_of_pos hy, List.filter_nil] at hfilter
  exact List.pairwise_iff_forall_sublist.mp (pairwise_zipIdx ranks)
    (hfilter.trans List.filter_sublist)

/-! ## The first step -/

/-- The ranks with the indices at which they are written, sorted by group. -/
def byGroup (ranks : List Rank) : List (Rank × Nat) :=
  ranks.zipIdx.mergeSort fun a b => a.1.group ≤ b.1.group

/-- The indices of ranks sorted by group. -/
def groupOrder (ranks : List Rank) : List Nat := (byGroup ranks).map Prod.snd

theorem byGroup_perm (ranks : List Rank) : (byGroup ranks).Perm ranks.zipIdx := List.mergeSort_perm _ _

theorem pairwise_byGroup (ranks : List Rank) : (byGroup ranks).Pairwise fun x y =>
    x.1.group < y.1.group ∨ x.1.group = y.1.group ∧ x.2 < y.2 := by
  have hsorted : (byGroup ranks).Pairwise fun a b => decide (a.1.group ≤ b.1.group) = true :=
    List.pairwise_mergeSort (by simp; omega) (by simp; omega) _
  refine List.pairwise_iff_forall_sublist.mpr fun {x y} hxy => ?_
  have hle := of_decide_eq_true (List.pairwise_iff_forall_sublist.mp hsorted hxy)
  refine (Nat.lt_or_eq_of_le hle).imp_right fun hgroup => ⟨hgroup, ?_⟩
  have hkept : (byGroup ranks).filter (fun z => z.1.group = y.1.group) =
      ranks.zipIdx.filter fun z => z.1.group = y.1.group :=
    filter_mergeSort (fun z : Rank × Nat => z.1.group) (fun _ _ hz hz' =>
      (of_decide_eq_true hz).trans (of_decide_eq_true hz').symm) _
  exact lt_of_sublist hkept hxy (decide_eq_true hgroup) (decide_eq_true rfl)

/-- **The first step is the stable sort by group.** -/
theorem isStableSort_groupOrder (ranks : List Rank) : IsStableSort ranks (groupOrder ranks) where
  perm := by
    have hperm := (byGroup_perm ranks).map Prod.snd
    rwa [List.zipIdx_map_snd, ← List.range_eq_range'] at hperm
  sorted := pairwise_map_snd (byGroup_perm ranks) (pairwise_byGroup ranks)

/-! ## The second step -/

/-- **What the second step does not disturb**: what is the same for all members of a family. -/
theorem map_sorted {β : Type} {f : Rank × Nat → β}
    (hf : ∀ key, ∃ b, ∀ x, isMember key x = true → f x = b) (ranks : List Rank) :
    (sorted ranks).map f = (byGroup ranks).map f :=
  map_foldl_sortFamily hf _ _

/-- The index of a rank without a family. -/
def singleIndex? (x : Rank × Nat) : Option Nat := if x.1.family = none then some x.2 else none

theorem singleIndex?_eq_some_iff {i : Nat} : singleIndex? x = some i ↔ x.1.family = none ∧ x.2 = i := by
  rw [singleIndex?, Option.ite_none_right_eq_some, Option.some.injEq]

theorem map_singleIndex?_sorted (ranks : List Rank) :
    (sorted ranks).map singleIndex? = (byGroup ranks).map singleIndex? := by
  refine map_sorted (fun key => ⟨none, fun x hx => ?_⟩) ranks
  obtain ⟨-, f, hf, -⟩ := isMember_iff.mp hx
  rw [singleIndex?, hf, if_neg (Option.some_ne_none f)]

theorem map_isMember_sorted (key : Nat × Nat) (ranks : List Rank) :
    (sorted ranks).map (isMember key) = (byGroup ranks).map (isMember key) := by
  refine map_sorted (fun key' => ⟨decide (key = key'), fun x hx => ?_⟩) ranks
  rw [Bool.eq_iff_iff, decide_eq_true_iff]
  refine ⟨fun hkey => eq_of_isMember hkey hx, ?_⟩
  rintro rfl
  exact hx

/-- A rank without a family is in its slot in any list that has the same such ranks there. -/
theorem slot_of_map_singleIndex? (h : l.Perm ranks.zipIdx)
    (hmap : l.map singleIndex? = l'.map singleIndex?) {slot i : Nat} {r : Rank}
    (hr : ranks[i]? = some r) (hsingle : r.family = none) (hslot : (l.map Prod.snd)[slot]? = some i) :
    (l'.map Prod.snd)[slot]? = some i := by
  rw [List.getElem?_map] at hslot
  obtain ⟨x, hx, rfl⟩ := Option.map_eq_some_iff.mp hslot
  rw [getElem?_of_mem h (List.mem_of_getElem? hx), Option.some.injEq] at hr
  have hsome : singleIndex? x = some x.2 := singleIndex?_eq_some_iff.mpr ⟨by rw [hr, hsingle], rfl⟩
  have hindex := congrArg (·[slot]?) hmap
  simp only [List.getElem?_map, hx, Option.map_some, hsome] at hindex
  obtain ⟨y, hy, heq⟩ := Option.map_eq_some_iff.mp hindex.symm
  rw [List.getElem?_map, hy, Option.map_some, (singleIndex?_eq_some_iff.mp heq).2]

theorem any_holds (h : l.Perm ranks.zipIdx) (key : Nat × Nat) (slot : Nat) :
    (l.map Prod.snd)[slot]?.any (holds ranks key) = (l.map (isMember key))[slot]?.any id := by
  rw [List.getElem?_map, List.getElem?_map]
  cases hx : l[slot]? with
  | none => rfl
  | some x =>
    simp only [Option.map_some, Option.any_some, holds,
      getElem?_of_mem h (List.mem_of_getElem? hx), id_eq]
    rfl

/-- **The order within groups and families.** -/
theorem pairwise_sorted (ranks : List Rank) : (sorted ranks).Pairwise fun x y =>
    x.1.group ≤ y.1.group ∧ (x.1.group = y.1.group → ∀ f ∈ x.1.family, ∀ g ∈ y.1.family, f.1 = g.1 →
      f.2 < g.2 ∨ f.2 = g.2 ∧ x.2 < y.2) := by
  obtain ⟨hgroups, hfamilies⟩ := inOrder_sorted ranks
  rw [List.pairwise_map] at hgroups hfamilies
  refine List.pairwise_iff_forall_sublist.mpr fun {x y} hxy => ?_
  refine ⟨List.pairwise_iff_forall_sublist.mp hgroups hxy, fun hgroup f hf g hg hfamily => ?_⟩
  have hle := List.pairwise_iff_forall_sublist.mp hfamilies hxy hgroup f hf g hg hfamily
  refine (Nat.lt_or_eq_of_le hle).imp_right fun hplace => ⟨hplace, ?_⟩
  -- group, family and place are all that a rank is
  have hrank : x.1 = y.1 := by
    have hsome : x.1.family = y.1.family := by
      rw [Option.mem_def.mp hf, Option.mem_def.mp hg, Prod.ext hfamily hplace]
    cases hx : x.1
    cases hy : y.1
    rw [hx, hy] at hgroup hsome
    exact congrArg₂ Rank.mk hgroup hsome
  exact lt_of_sublist (sameFibers_sorted ranks y.1) hxy (decide_eq_true hrank) (decide_eq_true rfl)

/-- The ranks in the slots that they get. -/
theorem filterMap_sortedOrder (ranks : List Rank) :
    (sortedOrder ranks).filterMap (ranks[·]?) = (sorted ranks).map Prod.fst := by
  rw [sortedOrder_eq, List.filterMap_map, ← List.filterMap_eq_map]
  exact List.filterMap_congr fun x hx => getElem?_of_mem (sameFibers_sorted ranks).perm hx

/-- **Where sorting puts each rank.** It starts from the stable sort by group, leaves ranks without a
family and the slots of each family where they are, and puts the members of a family in order of their
places, equal ones in the order in which they are written. Ranks that are put into the slots that they
get stay there when they are sorted again. -/
theorem sortedOrder_exact (ranks : List Rank) :
    IsStableSort ranks (groupOrder ranks)
      ∧ Rearranges ranks (groupOrder ranks) (sortedOrder ranks)
      ∧ sortedOrder ((sortedOrder ranks).filterMap (ranks[·]?)) = List.range ranks.length := by
  have hsorted : (sorted ranks).Perm ranks.zipIdx := (sameFibers_sorted ranks).perm
  have hpairs := pairwise_sorted ranks
  refine ⟨isStableSort_groupOrder ranks, ⟨sortedOrder_perm ranks, ?_, ?_, ?_, ?_⟩, ?_⟩
  · exact pairwise_map_snd hsorted (hpairs.imp And.left)
  · intro slot i r hr hsingle
    have hmap := map_singleIndex?_sorted ranks
    exact ⟨slot_of_map_singleIndex? hsorted hmap hr hsingle,
      slot_of_map_singleIndex? (byGroup_perm ranks) hmap.symm hr hsingle⟩
  · intro key slot
    rw [sortedOrder_eq, groupOrder, any_holds hsorted, any_holds (byGroup_perm ranks),
      map_isMember_sorted]
  · exact pairwise_map_snd hsorted (hpairs.imp And.right)
  · rw [filterMap_sortedOrder, (inOrder_sorted ranks).sortedOrder_eq, List.length_map,
      hsorted.length_eq, List.length_zipIdx]

end SheetLint.PropertyOrder
