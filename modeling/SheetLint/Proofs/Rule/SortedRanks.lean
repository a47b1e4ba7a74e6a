import SheetLint.Proofs.Rule.Sorting

/-!
# Ranks in order

Ranks are in order when their groups go up and, inside each group, the places of each family do.
Sorting puts ranks in order: the first sort sees to the groups, which no family disturbs, since it
only exchanges ranks of one group; and each family is sorted among its own places, which no other
family shares. Ranks that are in order stay where they are.

Results:
* `inOrder_sorted`: sorted ranks are in order.
* `InOrder.sortedOrder_eq`: ranks in order keep their slots.
-/

namespace SheetLint.PropertyOrder

/-- Ranks in order: by group, and the members of each family in a group by place. -/
structure InOrder (ranks : List Rank) : Prop where
  groups : ranks.Pairwise fun a b => a.group ≤ b.group
  families : ranks.Pairwise fun a b => a.group = b.group →
    ∀ f ∈ a.family, ∀ g ∈ b.family, f.1 = g.1 → f.2 ≤ g.2

/-! ## Refilled places -/

section

variable {α β : Type} {test : α → Bool}

/-- What is the same for all members is not disturbed. -/
theorem map_refill {f : α → β} {b : β} (htest : ∀ x, test x = true → f x = b) {xs ms : List α}
    (hms : ∀ m ∈ ms, test m = true) : (refill test xs ms).map f = xs.map f := by
  fun_induction refill test xs ms with
  | case1 | case2 => rfl
  | case3 x xs m ms hx ih =>
    rw [List.forall_mem_cons] at hms
    rw [List.map_cons, List.map_cons, ih hms.2, htest x hx, htest m hms.1]
  | case4 x xs m ms hx ih => rw [List.map_cons, List.map_cons, ih hms]

/-- Members put into their own places. -/
theorem refill_filter (xs : List α) : refill test xs (xs.filter test) = xs := by
  induction xs with
  | nil => rfl
  | cons x xs ih =>
    cases hx : test x with
    | true => rw [List.filter_cons_of_pos hx, refill, if_pos hx, ih]
    | false =>
      rw [List.filter_cons_of_neg (by simp [hx])]
      cases hms : xs.filter test with
      | nil => rw [refill]
      | cons m ms => rw [refill, if_neg (by simp [hx]), ← hms, ih]

end

/-! ## One family -/

/-- The place of a rank in its family. -/
def place (x : Rank × Nat) : Nat := (x.1.family.map Prod.snd).getD 0

/-- Whether a rank with its index is in a family of a group. -/
def isMember (key : Nat × Nat) (x : Rank × Nat) : Bool := inFamily key x.1

/-- The members of a family, sorted. -/
def members (order : List (Rank × Nat)) (key : Nat × Nat) : List (Rank × Nat) :=
  (order.filter (isMember key)).mergeSort fun a b => place a ≤ place b

variable {order : List (Rank × Nat)} {key key' : Nat × Nat} {ranks : List Rank}

theorem sortFamily_eq (order : List (Rank × Nat)) (key : Nat × Nat) :
    sortFamily order key = refill (isMember key) order (members order key) := rfl

theorem isMember_of_mem_members {x : Rank × Nat} (hx : x ∈ members order key) :
    isMember key x = true :=
  (List.mem_filter.mp (List.mem_mergeSort.mp hx)).2

theorem isMember_iff {x : Rank × Nat} :
    isMember key x = true ↔ x.1.group = key.1 ∧ ∃ f, x.1.family = some f ∧ f.1 = key.2 := by
  simp [isMember, inFamily, Option.any_eq_true]

/-- A rank is in one family. -/
theorem eq_of_isMember {x : Rank × Nat} (h : isMember key x = true) (h' : isMember key' x = true) :
    key = key' := by
  obtain ⟨hgroup, f, hf, hfamily⟩ := isMember_iff.mp h
  obtain ⟨hgroup', g, hg, hfamily'⟩ := isMember_iff.mp h'
  rw [hf, Option.some.injEq] at hg
  subst hg
  exact Prod.ext (hgroup.symm.trans hgroup') (hfamily.symm.trans hfamily')

theorem map_sortFamily {β : Type} {f : Rank × Nat → β} {b : β}
    (hf : ∀ x, isMember key x = true → f x = b) (order : List (Rank × Nat)) :
    (sortFamily order key).map f = order.map f :=
  map_refill hf fun _ => isMember_of_mem_members

theorem filter_sortFamily_self (order : List (Rank × Nat)) (key : Nat × Nat) :
    (sortFamily order key).filter (isMember key) = members order key :=
  filter_refill (fun _ => isMember_of_mem_members) (List.length_mergeSort _)

/-- Another family stays in its places. -/
theorem filter_sortFamily_of_ne (hne : key' ≠ key) :
    (sortFamily order key).filter (isMember key') = order.filter (isMember key') := by
  have houtside (l : List (Rank × Nat)) :
      (l.filter fun x => !isMember key x).filter (isMember key') = l.filter (isMember key') := by
    rw [List.filter_filter]
    refine List.filter_congr fun x _ => ?_
    cases hkey : isMember key x with
    | false => simp
    | true =>
      have hnot : isMember key' x = false :=
        Bool.eq_false_iff.mpr fun hkey' => hne (eq_of_isMember hkey' hkey)
      simp [hnot]
  rw [← houtside, sortFamily_eq, filter_not_refill fun _ => isMember_of_mem_members, houtside]

/-! ## All families -/

/-- Whether the members of a family are sorted. -/
def FamilySorted (key : Nat × Nat) (order : List (Rank × Nat)) : Prop :=
  (order.filter (isMember key)).Pairwise fun a b => place a ≤ place b

theorem pairwise_members (order : List (Rank × Nat)) (key : Nat × Nat) :
    (members order key).Pairwise fun a b => place a ≤ place b := by
  have hsorted : (members order key).Pairwise fun a b => decide (place a ≤ place b) = true :=
    List.pairwise_mergeSort (by simp; omega) (by simp; omega) _
  exact hsorted.imp of_decide_eq_true

/-- A sorted family stays sorted, and the one that is sorted becomes so. -/
theorem familySorted_sortFamily (h : FamilySorted key' order ∨ key' = key) :
    FamilySorted key' (sortFamily order key) := by
  by_cases hkey : key' = key
  · subst hkey
    rw [FamilySorted, filter_sortFamily_self]
    exact pairwise_members order key'
  · rw [FamilySorted, filter_sortFamily_of_ne hkey]
    exact h.resolve_right hkey

theorem familySorted_foldl {keys : List (Nat × Nat)} (h : FamilySorted key order ∨ key ∈ keys) :
    FamilySorted key (keys.foldl sortFamily order) := by
  induction keys generalizing order with
  | nil => exact h.resolve_right List.not_mem_nil
  | cons first keys ih =>
    refine ih ?_
    rw [List.mem_cons, ← or_assoc] at h
    exact h.imp_left familySorted_sortFamily

/-- What is the same for all members of a family is where it was. -/
theorem map_foldl_sortFamily {β : Type} {f : Rank × Nat → β}
    (hf : ∀ key, ∃ b, ∀ x, isMember key x = true → f x = b) (keys : List (Nat × Nat))
    (order : List (Rank × Nat)) : (keys.foldl sortFamily order).map f = order.map f := by
  induction keys generalizing order with
  | nil => rfl
  | cons key keys ih =>
    obtain ⟨b, hb⟩ := hf key
    exact (ih _).trans (map_sortFamily hb order)

theorem mem_familyKeys {r : Rank} {f : Nat × Nat} (hr : r ∈ ranks) (hf : r.family = some f) :
    (r.group, f.1) ∈ familyKeys ranks := by
  rw [familyKeys, List.mem_eraseDups, List.mem_filterMap]
  exact ⟨r, hr, by rw [hf]; rfl⟩

/-- Every family is sorted in the end. -/
theorem familySorted_sorted (ranks : List Rank) (key : Nat × Nat) :
    FamilySorted key (sorted ranks) := by
  by_cases hkey : key ∈ familyKeys ranks
  · exact familySorted_foldl (.inr hkey)
  · have hnone : (sorted ranks).filter (isMember key) = [] := by
      refine List.filter_eq_nil_iff.mpr fun x hx hmember => hkey ?_
      obtain ⟨hgroup, f, hf, hfamily⟩ := isMember_iff.mp hmember
      have hx := (sameFibers_sorted ranks).perm.subset hx
      have hrank := mem_familyKeys (List.fst_mem_of_mem_zipIdx hx) hf
      rwa [hgroup, hfamily] at hrank
    rw [FamilySorted, hnone]
    exact List.Pairwise.nil

/-- **Sorted ranks are in order.** -/
theorem inOrder_sorted (ranks : List Rank) : InOrder ((sorted ranks).map Prod.fst) := by
  constructor
  · have hsorted : (ranks.zipIdx.mergeSort fun a b => a.1.group ≤ b.1.group).Pairwise
        fun a b => decide (a.1.group ≤ b.1.group) = true :=
      List.pairwise_mergeSort (by simp; omega) (by simp; omega) _
    have hgroups : ((sorted ranks).map (·.1.group)).Pairwise (· ≤ ·) := by
      rw [sorted, map_foldl_sortFamily fun key => ⟨key.1, fun _ hx => (isMember_iff.mp hx).1⟩,
        List.pairwise_map]
      exact hsorted.imp of_decide_eq_true
    rw [List.pairwise_map] at hgroups ⊢
    exact hgroups
  · rw [List.pairwise_map, List.pairwise_iff_getElem]
    intro i j hi hj hij hgroup f hf g hg hfamily
    have hsorted := familySorted_sorted ranks ((sorted ranks)[i].1.group, f.1)
    rw [FamilySorted, List.pairwise_filter, List.pairwise_iff_getElem] at hsorted
    have hle := hsorted i j hi hj hij (isMember_iff.mpr ⟨rfl, f, hf, rfl⟩)
      (isMember_iff.mpr ⟨hgroup.symm, g, hg, hfamily.symm⟩)
    rwa [place, place, hf, hg] at hle

/-! ## Ranks that are in order -/

theorem sortFamily_of_familySorted (h : FamilySorted key order) : sortFamily order key = order := by
  have hmembers : members order key = order.filter (isMember key) :=
    List.mergeSort_of_pairwise (h.imp fun hab => decide_eq_true hab)
  rw [sortFamily_eq, hmembers, refill_filter]

theorem InOrder.familySorted (h : InOrder ranks) (key : Nat × Nat) :
    FamilySorted key ranks.zipIdx := by
  have hfamilies : ranks.zipIdx.Pairwise fun a b => a.1.group = b.1.group →
      ∀ f ∈ a.1.family, ∀ g ∈ b.1.family, f.1 = g.1 → f.2 ≤ g.2 := by
    have hmap := h.families
    rw [← List.zipIdx_map_fst 0 ranks, List.pairwise_map] at hmap
    exact hmap
  rw [FamilySorted, List.pairwise_filter]
  refine hfamilies.imp fun {a b} hab ha hb => ?_
  obtain ⟨hgroup, f, hf, hfamily⟩ := isMember_iff.mp ha
  obtain ⟨hgroup', g, hg, hfamily'⟩ := isMember_iff.mp hb
  rw [place, place, hf, hg]
  exact hab (hgroup.trans hgroup'.symm) f hf g hg (hfamily.trans hfamily'.symm)

theorem InOrder.sorted_eq (h : InOrder ranks) : sorted ranks = ranks.zipIdx := by
  have hgroups : ranks.zipIdx.Pairwise fun a b => decide (a.1.group ≤ b.1.group) = true := by
    have hmap := h.groups
    rw [← List.zipIdx_map_fst 0 ranks, List.pairwise_map] at hmap
    exact hmap.imp fun hab => decide_eq_true hab
  have hkeys (keys : List (Nat × Nat)) : keys.foldl sortFamily ranks.zipIdx = ranks.zipIdx := by
    induction keys with
    | nil => rfl
    | cons key keys ih =>
      rw [List.foldl_cons, sortFamily_of_familySorted (h.familySorted key), ih]
  rw [sorted, List.mergeSort_of_pairwise hgroups, hkeys]

/-- **Ranks in order keep their slots.** -/
theorem InOrder.sortedOrder_eq (h : InOrder ranks) :
    sortedOrder ranks = List.range ranks.length := by
  rw [PropertyOrder.sortedOrder_eq, h.sorted_eq, List.zipIdx_map_snd, ← List.range_eq_range']

end SheetLint.PropertyOrder
