import Mathlib.Data.List.Sort
import SheetLint.Rule.PropertyOrder

/-!
# How ranks are sorted

Ranks are sorted by group, and the members of a family among the places that they hold. Both keep
ranks that are the same in the order in which they are written. So no statement moves unless some
slot gets another rank.

Results:
* `sameFibers_sorted`: sorting keeps the order of equal ranks.
* `sortedOrder_perm`: each statement gets one slot.
* `sortedOrder_eq_range`: when each slot keeps its rank, each statement keeps its slot.
-/

namespace SheetLint.PropertyOrder

/-! ## Lists of pairs with the same fibers -/

/-- Whether two lists of pairs hold the same pairs in the same order for each first component. -/
def SameFibers {α β : Type} [DecidableEq α] (l l' : List (α × β)) : Prop :=
  ∀ a, l.filter (fun x => x.1 = a) = l'.filter (fun x => x.1 = a)

section

variable {α β : Type} [DecidableEq α] {l l' : List (α × β)}

theorem SameFibers.trans {l'' : List (α × β)} (h : SameFibers l l') (h' : SameFibers l' l'') :
    SameFibers l l'' := fun a => (h a).trans (h' a)

theorem SameFibers.perm [DecidableEq β] (h : SameFibers l l') : l.Perm l' := by
  refine List.perm_iff_count.mpr fun x => ?_
  have hcount (ys : List (α × β)) : (ys.filter fun y => y.1 = x.1).count x = ys.count x :=
    List.count_filter (by simp)
  rw [← hcount l, ← hcount l', h x.1]

/-- Lists with the same fibers are the same when their first components stand in one order. -/
theorem SameFibers.eq (h : SameFibers l l') (hfst : l.map Prod.fst = l'.map Prod.fst) : l = l' := by
  induction l generalizing l' with
  | nil => exact (List.map_eq_nil_iff.mp hfst.symm).symm
  | cons x l ih =>
    obtain ⟨y, l', rfl⟩ : ∃ y ys, l' = y :: ys := by
      cases l' with
      | nil => cases hfst
      | cons y ys => exact ⟨y, ys, rfl⟩
    rw [List.map_cons, List.map_cons, List.cons.injEq] at hfst
    have hfirst := h x.1
    rw [List.filter_cons_of_pos (by simp), List.filter_cons_of_pos (by simp [hfst.1]),
      List.cons.injEq] at hfirst
    obtain ⟨rfl, -⟩ := hfirst
    have htail : SameFibers l l' := by
      intro a
      have ha := h a
      by_cases hx : x.1 = a
      · rw [List.filter_cons_of_pos (by simp [hx]), List.filter_cons_of_pos (by simp [hx])] at ha
        exact (List.cons.inj ha).2
      · rwa [List.filter_cons_of_neg (by simp [hx]), List.filter_cons_of_neg (by simp [hx])] at ha
    rw [ih htail hfst.2]

/-- A stable sort keeps the order of elements that have one key. -/
theorem filter_mergeSort {γ : Type} (key : γ → Nat) {test : γ → Bool}
    (htest : ∀ x y, test x = true → test y = true → key x = key y) (l : List γ) :
    (l.mergeSort fun x y => key x ≤ key y).filter test = l.filter test := by
  have hsorted : (l.filter test).Pairwise fun x y => decide (key x ≤ key y) = true := by
    refine List.pairwise_of_forall_mem_list fun x hx y hy => decide_eq_true (Nat.le_of_eq ?_)
    exact htest x y (List.mem_filter.mp hx).2 (List.mem_filter.mp hy).2
  have hsub := List.sublist_mergeSort (by simp; omega) (by simp; omega) hsorted List.filter_sublist
  have hkept := hsub.filter test
  rw [List.filter_filter] at hkept
  simp only [Bool.and_self] at hkept
  refine (hkept.eq_of_length ?_).symm
  exact ((List.mergeSort_perm l _).filter _).length_eq.symm

/-- A stable sort by something that the first component decides keeps the fibers. -/
theorem sameFibers_mergeSort (key : α × β → Nat) (hkey : ∀ x y, x.1 = y.1 → key x = key y)
    (l : List (α × β)) : SameFibers (l.mergeSort fun x y => key x ≤ key y) l := fun _ =>
  filter_mergeSort key (fun x y hx hy =>
    hkey x y ((of_decide_eq_true hx).trans (of_decide_eq_true hy).symm)) l

end

/-! ## Putting a family into its places -/

section

variable {α : Type} {test : α → Bool}

/-- Where the test holds stand the members, in turn. -/
theorem filter_refill {xs ms : List α} (hms : ∀ m ∈ ms, test m = true)
    (hlength : ms.length = (xs.filter test).length) : (refill test xs ms).filter test = ms := by
  fun_induction refill test xs ms with
  | case1 ms => exact (List.eq_nil_of_length_eq_zero hlength).symm
  | case2 x xs => exact List.eq_nil_of_length_eq_zero hlength.symm
  | case3 x xs m ms hx ih =>
    rw [List.forall_mem_cons] at hms
    rw [List.filter_cons_of_pos hx, List.length_cons, List.length_cons] at hlength
    rw [List.filter_cons_of_pos hms.1, ih hms.2 (Nat.succ.inj hlength)]
  | case4 x xs m ms hx ih =>
    rw [List.filter_cons_of_neg hx] at hlength ⊢
    exact ih hms hlength

/-- Everywhere else stands what stood there. -/
theorem filter_not_refill {xs ms : List α} (hms : ∀ m ∈ ms, test m = true) :
    (refill test xs ms).filter (fun x => !test x) = xs.filter fun x => !test x := by
  fun_induction refill test xs ms with
  | case1 | case2 => rfl
  | case3 x xs m ms hx ih =>
    rw [List.forall_mem_cons] at hms
    rw [List.filter_cons_of_neg (by simp [hms.1]), List.filter_cons_of_neg (by simp [hx]),
      ih hms.2]
  | case4 x xs m ms hx ih =>
    rw [List.filter_cons_of_pos (by simp [hx]), List.filter_cons_of_pos (by simp [hx]), ih hms]

end

/-- Sorting a family among its places keeps the fibers. -/
theorem sameFibers_sortFamily (order : List (Rank × Nat)) (key : Nat × Nat) :
    SameFibers (sortFamily order key) order := by
  intro r
  let isMember (x : Rank × Nat) : Bool := inFamily key x.1
  let place (x : Rank × Nat) : Nat := (x.1.family.map Prod.snd).getD 0
  let members := (order.filter isMember).mergeSort fun a b => place a ≤ place b
  have hmembers : ∀ m ∈ members, isMember m = true := fun m hm =>
    (List.mem_filter.mp (List.mem_mergeSort.mp hm)).2
  change (refill isMember order members).filter _ = _
  -- the pairs of one rank are all members of the family, or none of them is
  by_cases hr : inFamily key r = true
  · have hinside (l : List (Rank × Nat)) :
        (l.filter isMember).filter (fun x => x.1 = r) = l.filter fun x => x.1 = r := by
      rw [List.filter_filter]
      refine List.filter_congr fun x _ => ?_
      by_cases hx : x.1 = r <;> simp [isMember, hx, hr]
    rw [← hinside, filter_refill hmembers (List.length_mergeSort _), ← hinside order]
    exact sameFibers_mergeSort place (fun x y hxy => by simp [place, hxy]) _ r
  · have houtside (l : List (Rank × Nat)) :
        (l.filter fun x => !isMember x).filter (fun x => x.1 = r) = l.filter fun x => x.1 = r := by
      rw [List.filter_filter]
      refine List.filter_congr fun x _ => ?_
      by_cases hx : x.1 = r <;> simp [isMember, hx, hr]
    rw [← houtside, filter_not_refill hmembers, houtside]

theorem sameFibers_foldl (keys : List (Nat × Nat)) (order : List (Rank × Nat)) :
    SameFibers (keys.foldl sortFamily order) order := by
  induction keys generalizing order with
  | nil => exact fun _ => rfl
  | cons key keys ih => exact (ih _).trans (sameFibers_sortFamily order key)

/-- The ranks with the indices at which they are written, sorted. -/
def sorted (ranks : List Rank) : List (Rank × Nat) :=
  (familyKeys ranks).foldl sortFamily (ranks.zipIdx.mergeSort fun a b => a.1.group ≤ b.1.group)

theorem sortedOrder_eq (ranks : List Rank) : sortedOrder ranks = (sorted ranks).map Prod.snd := rfl

/-- **Sorting keeps the order of equal ranks.** -/
theorem sameFibers_sorted (ranks : List Rank) : SameFibers (sorted ranks) ranks.zipIdx :=
  (sameFibers_foldl _ _).trans
    (sameFibers_mergeSort (fun x => x.1.group) (fun _ _ h => by rw [h]) ranks.zipIdx)

/-- **Each statement gets one slot.** -/
theorem sortedOrder_perm (ranks : List Rank) :
    (sortedOrder ranks).Perm (List.range ranks.length) := by
  have hperm := (sameFibers_sorted ranks).perm.map Prod.snd
  rwa [List.zipIdx_map_snd, ← List.range_eq_range'] at hperm

/-- Ranks that are moved with their indices are found at them. -/
theorem getElem?_of_mem {ranks : List Rank} {l : List (Rank × Nat)} {x : Rank × Nat}
    (h : l.Perm ranks.zipIdx) (hx : x ∈ l) : ranks[x.2]? = some x.1 :=
  List.mk_mem_zipIdx_iff_getElem?.mp (h.subset hx)

/-- **When each slot keeps its rank, each statement keeps its slot.** -/
theorem sortedOrder_eq_range {ranks : List Rank}
    (h : (sortedOrder ranks).map (ranks[·]?) = ranks.map some) :
    sortedOrder ranks = List.range ranks.length := by
  have hfst : (sorted ranks).map Prod.fst = ranks.zipIdx.map Prod.fst := by
    rw [sortedOrder_eq, List.map_map] at h
    rw [List.zipIdx_map_fst]
    refine List.map_injective_iff.mpr (Option.some_injective _) ?_
    rw [← h, List.map_map]
    exact List.map_congr_left fun x hx => (getElem?_of_mem (sameFibers_sorted ranks).perm hx).symm
  rw [sortedOrder_eq, (sameFibers_sorted ranks).eq hfst, List.zipIdx_map_snd,
    ← List.range_eq_range']

end SheetLint.PropertyOrder
