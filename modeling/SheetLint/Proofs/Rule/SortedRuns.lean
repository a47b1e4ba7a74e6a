import SheetLint.Proofs.Rule.Exchange
import SheetLint.Proofs.Rule.SortedRanks

/-!
# Nodes with their runs put in order

A list of nodes is its runs and the nodes between them, woven together. Putting a run in order leaves
the whitespace in front of each slot where it is and moves the statements behind it; a run in which
some statement has no semicolon stays. Runs in order are still runs, between the same nodes.

Results:
* `sorts_sortedRun`: the statements of a run that is put in order are those of the run, statements of
  one rank in the order in which they are written.
* `runs_arranged`, `others_arranged`: the runs of a list whose runs are put in order.
* `runFindings_eq_nil`: nothing is found in a run that is in order.
-/

namespace SheetLint

/-! ## Nodes behind other whitespace -/

namespace Node

/-- The node behind other whitespace. -/
def withLeading (leading : List Token) : Node → Node
  | statement _ level s => statement leading level s
  | block _ level depth head opening children trailing closing =>
    block leading level depth head opening children trailing closing

variable {leading leading' : List Token} {n : Node}

@[simp] theorem leading_withLeading : (n.withLeading leading).leading = leading := by cases n <;> rfl

@[simp] theorem withLeading_withLeading :
    (n.withLeading leading).withLeading leading' = n.withLeading leading' := by cases n <;> rfl

@[simp] theorem withLeading_leading (n : Node) : n.withLeading n.leading = n := by cases n <;> rfl

end Node

namespace PropertyOrder

open Node

variable {o : Options} {n : Node} {ns : List Node} {run : List Ranked}

theorem rank?_withLeading (o : Options) (leading : List Token) (n : Node) :
    rank? o (n.withLeading leading) = rank? o n := by
  cases n with
  | block => rfl
  | statement _ _ s => cases s <;> rfl

/-! ## Runs in order -/

/-- What it means to put a run in order: the whitespace stays in front of the slots, the statements are
the same, those of one rank in the order in which they are written, and the ranks are in order. -/
structure Sorts (run run' : List Ranked) : Prop where
  leading : run'.map (·.1.leading) = run.map (·.1.leading)
  perm : (run'.map (·.1.withLeading [])).Perm (run.map (·.1.withLeading []))
  stable : SameFibers (run'.map fun x => (x.2, x.1.withLeading []))
    (run.map fun x => (x.2, x.1.withLeading []))
  order : InOrder (run'.map Prod.snd)

/-- The statements of a run, in the order of the slots that they belong to. -/
def moved (run : List Ranked) : List Ranked := (sortedOrder (run.map Prod.snd)).filterMap (run[·]?)

/-- A run put in order. -/
def sortedRun (run : List Ranked) : List Ranked :=
  (run.zip (moved run)).map fun slot => (slot.2.1.withLeading slot.1.1.leading, slot.2.2)

theorem SameFibers.filterMap {α β γ : Type} [DecidableEq α] {l l' : List (α × β)}
    (h : SameFibers l l') (f : β → Option γ) :
    SameFibers (l.filterMap fun x => (f x.2).map (x.1, ·))
      (l'.filterMap fun x => (f x.2).map (x.1, ·)) := by
  have hinside (l : List (α × β)) (a : α) :
      (l.filterMap fun x => (f x.2).map (x.1, ·)).filter (fun x => x.1 = a) =
        (l.filter fun x => x.1 = a).filterMap fun x => (f x.2).map (x.1, ·) := by
    rw [List.filter_filterMap, List.filterMap_filter]
    refine List.filterMap_congr fun x _ => ?_
    by_cases hx : x.1 = a <;> cases f x.2 <;> simp [hx]
  intro a
  rw [hinside, hinside, h a]

theorem filterMap_range {α : Type} (l : List α) : (List.range l.length).filterMap (l[·]?) = l := by
  induction l with
  | nil => rfl
  | cons x l ih =>
    rw [List.length_cons, List.range_succ_eq_map, List.filterMap_cons, List.filterMap_map]
    exact congrArg (x :: ·) ih

/-- Statements that are picked out by their indices, with their ranks. -/
theorem map_filterMap_getElem? {α : Type} (f : Node → α) {picked : List (Rank × Nat)}
    (h : ∀ x ∈ picked, (run.map Prod.snd)[x.2]? = some x.1) :
    ((picked.map Prod.snd).filterMap (run[·]?)).map (fun x => (x.2, f x.1)) =
      picked.filterMap fun x => (run[x.2]?.map fun y => f y.1).map (x.1, ·) := by
  rw [List.filterMap_map, List.map_filterMap]
  refine List.filterMap_congr fun x hx => ?_
  have hrank := h x hx
  rw [List.getElem?_map] at hrank
  rw [Function.comp_apply]
  cases hy : run[x.2]? with
  | none => rfl
  | some y =>
    rw [hy, Option.map_some, Option.some.injEq] at hrank
    rw [Option.map_some, Option.map_some, Option.map_some, hrank]

/-- **Statements of one rank stay in the order in which they are written.** -/
theorem sameFibers_moved {α : Type} (f : Node → α) (run : List Ranked) :
    SameFibers ((moved run).map fun x => (x.2, f x.1)) (run.map fun x => (x.2, f x.1)) := by
  have hrun := map_filterMap_getElem? f fun x hx => getElem?_of_mem (.refl (run.map Prod.snd).zipIdx) hx
  rw [List.zipIdx_map_snd, ← List.range_eq_range', List.length_map, filterMap_range] at hrun
  have hsorted := map_filterMap_getElem? f fun x hx =>
    getElem?_of_mem (sameFibers_sorted (run.map Prod.snd)).perm hx
  rw [moved, sortedOrder_eq, hsorted, hrun]
  exact (sameFibers_sorted _).filterMap fun i => run[i]?.map fun y => f y.1

theorem moved_perm (run : List Ranked) : (moved run).Perm run := by
  have hperm := (sortedOrder_perm (run.map Prod.snd)).filterMap (run[·]?)
  rwa [List.length_map, filterMap_range] at hperm

theorem map_snd_moved (run : List Ranked) :
    (moved run).map Prod.snd = (sorted (run.map Prod.snd)).map Prod.fst := by
  rw [moved, sortedOrder_eq, List.filterMap_map, List.map_filterMap,
    ← congrFun (List.filterMap_eq_map (f := Prod.fst)) (sorted _)]
  refine List.filterMap_congr fun x hx => ?_
  have hrank : (run.map Prod.snd)[x.2]? = some x.1 := getElem?_of_mem (sameFibers_sorted _).perm hx
  rwa [List.getElem?_map] at hrank

theorem map_fst_zip_moved (run : List Ranked) : (run.zip (moved run)).map Prod.fst = run :=
  List.map_fst_zip (Nat.le_of_eq (moved_perm run).length_eq.symm)

theorem map_snd_zip_moved (run : List Ranked) : (run.zip (moved run)).map Prod.snd = moved run :=
  List.map_snd_zip (Nat.le_of_eq (moved_perm run).length_eq)

theorem map_snd_sortedRun (run : List Ranked) :
    (sortedRun run).map Prod.snd = (moved run).map Prod.snd := by
  conv_rhs => rw [← map_snd_zip_moved]
  rw [sortedRun, List.map_map, List.map_map]
  rfl

/-- **A run that is put in order** keeps its statements. -/
theorem sorts_sortedRun (run : List Ranked) : Sorts run (sortedRun run) := by
  have hmoved : (sortedRun run).map (fun x => (x.2, x.1.withLeading [])) =
      (moved run).map fun x => (x.2, x.1.withLeading []) := by
    conv_rhs => rw [← map_snd_zip_moved]
    simp [sortedRun]
  constructor
  · conv_rhs => rw [← map_fst_zip_moved run]
    simp [sortedRun]
  · have hperm := (moved_perm run).map fun x => x.1.withLeading []
    have hnodes := congrArg (List.map Prod.snd) hmoved
    simp only [List.map_map, Function.comp_def] at hnodes
    rwa [hnodes]
  · rw [hmoved]
    exact sameFibers_moved _ run
  · rw [map_snd_sortedRun, map_snd_moved]
    exact inOrder_sorted _

/-- What stands in a slot after the moves: the node that takes it, behind the whitespace of the slot. -/
def put (slot : Node × Option Node) : Node := (settled slot).withLeading slot.1.leading

/-- Each slot gets a statement. -/
theorem map_some_moved (run : List Ranked) :
    (moved run).map some = (sortedOrder (run.map Prod.snd)).map (run[·]?) := by
  rw [moved, List.map_filterMap, ← congrFun (List.filterMap_eq_map (f := (run[·]?))) (sortedOrder _)]
  refine List.filterMap_congr fun j hj => ?_
  have hj := (sortedOrder_perm (run.map Prod.snd)).subset hj
  rw [List.mem_range, List.length_map] at hj
  rw [Function.comp_apply, List.getElem?_eq_getElem hj]
  rfl

theorem map_settled_eq (run : List Ranked) : (slots run).map settled = (moved run).map Prod.fst := by
  refine List.map_injective_iff.mpr (Option.some_injective _) ?_
  have hmoved := congrArg (List.map (Option.map Prod.fst)) (map_some_moved run)
  rw [List.map_map, List.map_map] at hmoved
  rw [map_settled_slots, List.map_map]
  exact hmoved.symm

/-- **After the moves the run stands in its slots in order.** -/
theorem map_put_slots (run : List Ranked) : (slots run).map put = (sortedRun run).map Prod.fst := by
  have hzip : (run.map Prod.fst).zip ((moved run).map Prod.fst) =
      (slots run).map fun slot => (slot.1, settled slot) := by
    rw [← map_fst_slots, ← map_settled_eq, List.zip_map']
  rw [sortedRun, List.map_map]
  have hput := congrArg (List.map fun slot : Node × Node => slot.2.withLeading slot.1.leading) hzip
  rw [List.zip_map, List.map_map, List.map_map] at hput
  exact hput.symm

theorem mem_sortedRun {x : Ranked} (hx : x ∈ sortedRun run) :
    ∃ y ∈ run, ∃ leading, x = (y.1.withLeading leading, y.2) := by
  obtain ⟨slot, hslot, rfl⟩ := List.mem_map.mp hx
  exact ⟨slot.2, (moved_perm run).subset (List.of_mem_zip hslot).2, slot.1.1.leading, rfl⟩

/-- **Nothing is found in a run in order.** -/
theorem runFindings_eq_nil (h : InOrder (run.map Prod.snd)) : runFindings run = [] := by
  rw [runFindings, moves_eq_nil_of_range h.sortedOrder_eq]

/-! ## Runs and the nodes between them -/

/-- Lists with single elements between them, one after the other. -/
def weave {α : Type} : List (List α) → List α → List α
  | [], xs => xs
  | r :: rs, [] => r ++ rs.flatten
  | r :: rs, x :: xs => r ++ x :: weave rs xs

section

variable {α β : Type}

theorem weave_cons_cons (x : α) (r : List α) (rs : List (List α)) (xs : List α) :
    weave ((x :: r) :: rs) xs = x :: weave (r :: rs) xs := by
  cases xs <;> rfl

theorem map_weave (f : α → β) (rs : List (List α)) (xs : List α) :
    (weave rs xs).map f = weave (rs.map (List.map f)) (xs.map f) := by
  fun_induction weave rs xs with
  | case1 xs => rfl
  | case2 r rs => simp [weave]
  | case3 r rs x xs ih => simp [weave, ih]

theorem filterMap_weave {f : α → Option β} {xs : List α} (hxs : ∀ x ∈ xs, f x = none)
    (rs : List (List α)) : (weave rs xs).filterMap f = rs.flatMap (List.filterMap f) := by
  fun_induction weave rs xs with
  | case1 xs => exact List.filterMap_eq_nil_iff.mpr hxs
  | case2 r rs => simp [List.filterMap_flatten, List.flatMap]
  | case3 r rs x xs ih =>
    rw [List.forall_mem_cons] at hxs
    rw [List.filterMap_append, List.filterMap_cons_none hxs.1, ih hxs.2, List.flatMap_cons]

theorem filter_weave {p : α → Bool} {rs : List (List α)} {xs : List α}
    (hrs : ∀ r ∈ rs, ∀ x ∈ r, p x = false) (hxs : ∀ x ∈ xs, p x = true) :
    (weave rs xs).filter p = xs := by
  have hnone {r : List α} (hr : ∀ x ∈ r, p x = false) : r.filter p = [] :=
    List.filter_eq_nil_iff.mpr fun x hx => by simp [hr x hx]
  fun_induction weave rs xs with
  | case1 xs => exact List.filter_eq_self.mpr hxs
  | case2 r rs =>
    rw [List.forall_mem_cons] at hrs
    rw [List.filter_append, hnone hrs.1, List.nil_append]
    refine hnone fun x hx => ?_
    obtain ⟨r', hr', hx⟩ := List.mem_flatten.mp hx
    exact hrs.2 r' hr' x hx
  | case3 r rs x xs ih =>
    rw [List.forall_mem_cons] at hrs hxs
    rw [List.filter_append, hnone hrs.1, List.filter_cons_of_pos hxs.1, ih hrs.2 hxs.2,
      List.nil_append]

theorem mem_weave {rs : List (List α)} {xs : List α} {x : α} :
    x ∈ weave rs xs ↔ (∃ r ∈ rs, x ∈ r) ∨ x ∈ xs := by
  fun_induction weave rs xs with
  | case1 xs => simp
  | case2 r rs => simp
  | case3 r rs y xs ih => simp [ih, or_assoc, or_left_comm]

end

/-- The nodes that cut a list into runs. -/
def others (o : Options) (ns : List Node) : List Node := ns.filter fun n => (rank? o n).isNone

theorem runs_of_none (h : rank? o n = none) (ns : List Node) : runs o (n :: ns) = [] :: runs o ns := by
  rw [runs, h]

theorem runs_of_some {r : Rank} {more : List (List Ranked)} (h : rank? o n = some r)
    (hruns : runs o ns = run :: more) : runs o (n :: ns) = ((n, r) :: run) :: more := by
  rw [runs, h, hruns]

theorem exists_runs (o : Options) (ns : List Node) : ∃ run more, runs o ns = run :: more := by
  cases ns with
  | nil => exact ⟨[], [], rfl⟩
  | cons n ns =>
    cases h : rank? o n with
    | none => exact ⟨[], runs o ns, runs_of_none h ns⟩
    | some r =>
      obtain ⟨run, more, hruns⟩ := exists_runs o ns
      exact ⟨_, more, runs_of_some h hruns⟩

/-- **Nodes are their runs and what stands between them.** -/
theorem weave_runs (o : Options) (ns : List Node) :
    weave ((runs o ns).map (List.map Prod.fst)) (others o ns) = ns := by
  induction ns with
  | nil => rfl
  | cons n ns ih =>
    cases h : rank? o n with
    | none => rw [runs_of_none h, others, List.filter_cons_of_pos (by simp [h]), List.map_cons,
        List.map_nil, weave, List.nil_append, ← others, ih]
    | some r =>
      obtain ⟨run, more, hruns⟩ := exists_runs o ns
      rw [hruns, List.map_cons] at ih
      rw [runs_of_some h hruns, others, List.filter_cons_of_neg (by simp [h]), List.map_cons,
        List.map_cons, weave_cons_cons, ← others, ih]

theorem length_runs (o : Options) (ns : List Node) :
    (runs o ns).length = (others o ns).length + 1 := by
  induction ns with
  | nil => rfl
  | cons n ns ih =>
    cases h : rank? o n with
    | none => rw [runs_of_none h, others, List.filter_cons_of_pos (by simp [h]), List.length_cons,
        List.length_cons, ih, others]
    | some r =>
      obtain ⟨run, more, hruns⟩ := exists_runs o ns
      rw [hruns] at ih
      rw [runs_of_some h hruns, others, List.filter_cons_of_neg (by simp [h]), ← others, ← ih]
      rfl

/-- Statements with a rank in front of nodes. -/
theorem runs_append {more : List (List Ranked)} {front : List Ranked}
    (h : ∀ x ∈ front, rank? o x.1 = some x.2) (hruns : runs o ns = run :: more) :
    runs o (front.map Prod.fst ++ ns) = (front ++ run) :: more := by
  induction front with
  | nil => exact hruns
  | cons x front ih =>
    rw [List.forall_mem_cons] at h
    exact runs_of_some h.1 (ih h.2)

/-- **Statements with ranks and nodes without, woven together, have these statements as runs.** -/
theorem runs_weave {rs : List (List Ranked)} {xs : List Node}
    (hrs : ∀ r ∈ rs, ∀ x ∈ r, rank? o x.1 = some x.2) (hxs : ∀ x ∈ xs, rank? o x = none)
    (hlength : rs.length = xs.length + 1) : runs o (weave (rs.map (List.map Prod.fst)) xs) = rs := by
  induction xs generalizing rs with
  | nil =>
    obtain ⟨r, rfl⟩ := List.length_eq_one_iff.mp hlength
    have hrun := runs_append (hrs r List.mem_cons_self) (rfl : runs o [] = [[]])
    rw [List.append_nil, List.append_nil] at hrun
    rwa [List.map_singleton, weave, List.flatten_nil, List.append_nil]
  | cons x xs ih =>
    obtain ⟨r, rs, rfl⟩ := List.exists_cons_of_length_eq_add_one hlength
    rw [List.forall_mem_cons] at hrs hxs
    have hlater := ih hrs.2 hxs.2 (Nat.succ.inj hlength)
    have hrun := runs_append hrs.1 ((runs_of_none hxs.1 _).trans (congrArg ([] :: ·) hlater))
    rwa [List.append_nil] at hrun

theorem others_weave {rs : List (List Ranked)} {xs : List Node}
    (hrs : ∀ r ∈ rs, ∀ x ∈ r, rank? o x.1 = some x.2) (hxs : ∀ x ∈ xs, rank? o x = none) :
    others o (weave (rs.map (List.map Prod.fst)) xs) = xs := by
  refine filter_weave (List.forall_mem_map.mpr fun r hr => List.forall_mem_map.mpr fun x hx => ?_)
    fun x hx => by rw [hxs x hx]; rfl
  rw [hrs r hr x hx]
  rfl

/-! ## Nodes with their runs in order -/

/-- A run as the rule leaves it: put in order when all statements end with semicolons. -/
def sortRun (run : List Ranked) : List Ranked :=
  if run.all fun x => hasSemicolon x.1 then sortedRun run else run

/-- The slots of a run, of which none changes its node unless all statements end with semicolons. -/
def runSlots (run : List Ranked) : List (Node × Option Node) :=
  if run.all fun x => hasSemicolon x.1 then slots run else run.map fun x => (x.1, none)

/-- The slots of a list of nodes. -/
def exchanges (o : Options) (ns : List Node) : List (Node × Option Node) :=
  weave ((runs o ns).map runSlots) ((others o ns).map fun n => (n, none))

/-- The nodes with their runs in order. -/
def arranged (o : Options) (ns : List Node) : List Node := (exchanges o ns).map put

theorem put_none (n : Node) : put (n, none) = n := withLeading_leading n

theorem map_put_runSlots (run : List Ranked) :
    (runSlots run).map put = (sortRun run).map Prod.fst := by
  rw [runSlots, sortRun]
  split
  · exact map_put_slots run
  · rw [List.map_map]
    exact List.map_congr_left fun x _ => put_none x.1

theorem map_fst_runSlots (run : List Ranked) : (runSlots run).map Prod.fst = run.map Prod.fst := by
  rw [runSlots]
  split
  · exact map_fst_slots run
  · rw [List.map_map]
    rfl

theorem map_fst_exchanges (o : Options) (ns : List Node) : (exchanges o ns).map Prod.fst = ns := by
  conv_rhs => rw [← weave_runs o ns]
  rw [exchanges, map_weave, List.map_map, List.map_map]
  exact congrArg₂ weave (List.map_congr_left fun run _ => map_fst_runSlots run) (List.map_id _)

theorem arranged_eq (o : Options) (ns : List Node) :
    arranged o ns = weave (((runs o ns).map sortRun).map (List.map Prod.fst)) (others o ns) := by
  rw [arranged, exchanges, map_weave, List.map_map, List.map_map, List.map_map]
  refine congrArg₂ weave (List.map_congr_left fun run _ => map_put_runSlots run) ?_
  exact (List.map_congr_left fun n _ => put_none n).trans (List.map_id _)

/-- The ranks of a run in order. -/
theorem rank?_sortRun {x : Ranked} (h : ∀ x ∈ run, rank? o x.1 = some x.2) (hx : x ∈ sortRun run) :
    rank? o x.1 = some x.2 := by
  rw [sortRun] at hx
  split at hx
  · obtain ⟨y, hy, leading, rfl⟩ := mem_sortedRun hx
    exact (rank?_withLeading o leading y.1).trans (h y hy)
  · exact h x hx

theorem rank?_of_mem_others (hn : n ∈ others o ns) : rank? o n = none :=
  Option.isNone_iff_eq_none.mp (List.mem_filter.mp hn).2

theorem rank?_of_mem_sortRun {r : List Ranked} (hr : r ∈ (runs o ns).map sortRun) :
    ∀ x ∈ r, rank? o x.1 = some x.2 := by
  obtain ⟨run, hrun, rfl⟩ := List.mem_map.mp hr
  exact fun x hx => rank?_sortRun ((runOf_of_mem_runs o ns).1 run hrun).ranks hx

/-- **Runs in order are runs again.** -/
theorem runs_arranged (o : Options) (ns : List Node) :
    runs o (arranged o ns) = (runs o ns).map sortRun := by
  rw [arranged_eq]
  exact runs_weave (fun _ => rank?_of_mem_sortRun) (fun _ => rank?_of_mem_others)
    (by rw [List.length_map, length_runs])

/-- **The nodes between them stay.** -/
theorem others_arranged (o : Options) (ns : List Node) : others o (arranged o ns) = others o ns := by
  rw [arranged_eq]
  exact others_weave (fun _ => rank?_of_mem_sortRun) fun _ => rank?_of_mem_others

end PropertyOrder

end SheetLint
