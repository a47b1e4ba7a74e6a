import SheetLint.Disk
import SheetLint.Proofs.Text.Trimming

/-!
# Where paths lead

A path is followed name by name. What does not count in a path leads nowhere, so paths with the same
components lead to the same place. Paths with different components may do so too: `a`, `./a`, `b/../a`
and the path of `a` from the root name one file. Only of paths that start alike and never go up do
different components tell different places.

Results:
* `Disk.eq_of_locate`: the place that a path leads to is told by its components.
* `Path.components_join`, `Disk.locate_join`: what is in a folder.
* `Disk.components_eq_of_locate_eq`: paths that start alike and never go up.
-/

namespace SheetLint

/-! ## What is in a folder -/

namespace Path

variable {path folder name : String}

/-- Whether a text may be the name of a file or a folder. -/
structure IsName (name : String) : Prop where
  ne_empty : name ≠ ""
  ne_here : name ≠ "."
  ne_up : name ≠ ".."
  no_slash : '/' ∉ name.toList

instance (name : String) : Decidable (IsName name) :=
  decidable_of_iff (name ≠ "" ∧ name ≠ "." ∧ name ≠ ".." ∧ '/' ∉ name.toList)
    ⟨fun h => ⟨h.1, h.2.1, h.2.2.1, h.2.2.2⟩, fun h => ⟨h.1, h.2, h.3, h.4⟩⟩

/-- A name in a folder is one segment more, but for an empty one at the end of the folder. -/
theorem exists_segments_join (hfolder : folder ≠ "") (hname : '/' ∉ name.toList) :
    ∃ init, init ≠ [] ∧ segments (join folder name) = init ++ [name]
      ∧ (segments folder = init ∨ segments folder = init ++ [""]) := by
  have hlast : segments name = [name] := by
    rw [segments, Text.splitOn_of_notMem hname, List.map_singleton, String.ofList_toList]
  have happend (s : Text) (t : String) : segments (String.ofList (s ++ '/' :: t.toList)) =
      (Text.splitOn '/' s).map String.ofList ++ segments t := by
    rw [segments, String.toList_ofList, Text.splitOn_append_cons, List.map_append, segments]
  have hinit (s : Text) : (Text.splitOn '/' s).map String.ofList ≠ [] := by
    simpa using Text.splitOn_ne_nil '/' s
  unfold join
  split
  · rename_i hends
    rw [Bool.or_eq_true, String.isEmpty_iff] at hends
    have hslash := hends.resolve_left hfolder
    rw [String.endsWith_eq_endsWith_toSlice, String.Slice.endsWith_string_iff] at hslash
    obtain ⟨s, hs⟩ := hslash
    rw [String.copy_toSlice] at hs
    refine ⟨_, hinit s, ?_, .inr ?_⟩
    · have hjoin : folder ++ name = String.ofList (s ++ '/' :: name.toList) := by
        rw [← String.toList_inj, String.toList_ofList, String.toList_append, ← hs, List.append_assoc]
        rfl
      rw [hjoin, happend, hlast]
    · have hend : folder = String.ofList (s ++ '/' :: "".toList) := by
        rw [← String.toList_inj, String.toList_ofList, ← hs]
        rfl
      rw [hend, happend]
      rfl
  · refine ⟨_, hinit folder.toList, ?_, .inl rfl⟩
    have hjoin : folder ++ "/" ++ name = String.ofList (folder.toList ++ '/' :: name.toList) := by
      rw [← String.toList_inj, String.toList_ofList, String.toList_append, String.toList_append,
        List.append_assoc]
      rfl
    rw [hjoin, happend, hlast]

/-- The components that segments stand for. -/
def ofSegments : List String → List Component
  | "" :: rest => .root :: rest.filterMap step?
  | "." :: rest => .here :: rest.filterMap step?
  | all => all.filterMap step?

theorem components_eq (h : segments path ≠ [""]) : components path = ofSegments (segments path) := by
  unfold components ofSegments
  split <;> simp_all

theorem ofSegments_of_ne {first : String} (hroot : first ≠ "") (hhere : first ≠ ".")
    (rest : List String) : ofSegments (first :: rest) = (first :: rest).filterMap step? := by
  simp [ofSegments, hroot, hhere]

theorem ofSegments_append {init : List String} (h : init ≠ []) (more : List String) :
    ofSegments (init ++ more) = ofSegments init ++ more.filterMap step? := by
  obtain ⟨first, rest, rfl⟩ := List.exists_cons_of_ne_nil h
  by_cases hroot : first = ""
  · subst hroot
    exact congrArg (Component.root :: ·) List.filterMap_append
  · by_cases hhere : first = "."
    · subst hhere
      exact congrArg (Component.here :: ·) List.filterMap_append
    · rw [List.cons_append, ofSegments_of_ne hroot hhere, ofSegments_of_ne hroot hhere,
        ← List.cons_append, List.filterMap_append]

theorem IsName.step? (h : IsName name) : Path.step? name = some (.name name) := by
  unfold Path.step?
  split
  · exact absurd rfl h.ne_empty
  · exact absurd rfl h.ne_here
  · exact absurd rfl h.ne_up
  · rfl

theorem ne_empty_of_segments (h : segments path ≠ [""]) : path ≠ "" := by
  rintro rfl
  exact h rfl

/-- **What is in a folder has one component more.** -/
theorem components_join (hfolder : segments folder ≠ [""]) (hname : IsName name) :
    segments (join folder name) ≠ [""]
      ∧ components (join folder name) = components folder ++ [.name name] := by
  obtain ⟨init, hinit, hjoin, hsegments⟩ :=
    exists_segments_join (ne_empty_of_segments hfolder) hname.no_slash
  have hmore : segments (join folder name) ≠ [""] := by
    intro h
    have hlength := congrArg List.length (hjoin.symm.trans h)
    simp [hinit] at hlength
  have hsame : components folder = ofSegments init := by
    rw [components_eq hfolder]
    rcases hsegments with h | h
    · rw [h]
    · rw [h, ofSegments_append hinit]
      exact List.append_nil _
  refine ⟨hmore, ?_⟩
  rw [components_eq hmore, hjoin, ofSegments_append hinit, hsame]
  simp [hname.step?]

/-- **Names in folders in a folder** are components behind those of the folder. -/
theorem components_foldl_join {names : List String} (hfolder : segments folder ≠ [""])
    (hnames : ∀ n ∈ names, IsName n) :
    components (names.foldl join folder) = components folder ++ names.map .name := by
  induction names generalizing folder with
  | nil => simp
  | cons name names ih =>
    rw [List.forall_mem_cons] at hnames
    obtain ⟨hmore, hjoin⟩ := components_join hfolder hnames.1
    rw [List.foldl_cons, ih hmore hnames.2, hjoin]
    simp

/-! ## Paths written alike -/

/-- How components start: at the root, with a point, or with neither. -/
def leadOf : List Component → Option Component
  | .root :: _ => some .root
  | .here :: _ => some .here
  | _ => none

/-- Paths that all start alike, none of which goes up. -/
structure Alike (paths : List String) : Prop where
  lead : ∀ path ∈ paths, ∀ other ∈ paths, leadOf (components path) = leadOf (components other)
  stays : ∀ path ∈ paths, .up ∉ components path

/-- Names behind do not change how components start. -/
theorem leadOf_append_names (cs : List Component) (names : List String) :
    leadOf (cs ++ names.map .name) = leadOf cs := by
  cases cs with
  | nil => cases names <;> rfl
  | cons c cs => cases c <;> rfl

theorem of_step?_eq_some {c : Component} (h : step? name = some c) : c = .up ∨ c = .name c.label := by
  unfold step? at h
  split at h <;> cases h
  · exact .inl rfl
  · exact .inr rfl

theorem exists_names_of_segments {ss : List String} (hup : .up ∉ ss.filterMap step?) :
    ∃ names : List String, ss.filterMap step? = names.map .name := by
  have hself : ∀ c ∈ ss.filterMap step?, (Component.name ∘ Component.label) c = id c := by
    intro c hc
    obtain ⟨s, -, hs⟩ := List.mem_filterMap.mp hc
    have hne : c ≠ .up := fun heq => hup (heq ▸ hc)
    exact ((of_step?_eq_some hs).resolve_left hne).symm
  refine ⟨(ss.filterMap step?).map Component.label, ?_⟩
  rw [List.map_map, List.map_congr_left hself, List.map_id]

/-- A path that never goes up is its start and names. -/
theorem exists_names (hup : .up ∉ components path) :
    ∃ names : List String, components path = (leadOf (components path)).toList ++ names.map .name := by
  unfold components at hup ⊢
  split at hup
  · exact ⟨[], rfl⟩
  · obtain ⟨names, hnames⟩ := exists_names_of_segments (mt (List.mem_cons_of_mem _) hup)
    exact ⟨names, congrArg (Component.root :: ·) hnames⟩
  · obtain ⟨names, hnames⟩ := exists_names_of_segments (mt (List.mem_cons_of_mem _) hup)
    exact ⟨names, congrArg (Component.here :: ·) hnames⟩
  · obtain ⟨names, hnames⟩ := exists_names_of_segments hup
    have hlead : leadOf (names.map .name) = none := leadOf_append_names [] names
    exact ⟨names, by rw [hnames, hlead]; rfl⟩

end Path

/-! ## Places -/

namespace Disk

open SheetLint.Path

variable {d : Disk} {p q r : Place} {path other folder name : String} {ss : List String}

/-- Where a step of a path leads to. -/
def follow (p : Place) : Component → Place
  | .root => []
  | .here => p
  | .up => p.dropLast
  | .name n => p ++ [n]

theorem of_step (h : d.step p name = .ok q) :
    d.isFolderAt p = true ∧ q = (step? name).toList.foldl follow p := by
  unfold step at h
  split at h
  · rename_i hfolder
    refine ⟨hfolder, ?_⟩
    unfold step?
    split at h <;> cases h <;> simp_all [follow]
  · split at h <;> cases h

theorem step_of_isName (hfolder : d.isFolderAt p = true) (hname : IsName name) :
    d.step p name = .ok (p ++ [name]) := by
  unfold step
  rw [if_pos hfolder]
  split
  · exact absurd rfl hname.ne_empty
  · exact absurd rfl hname.ne_here
  · exact absurd rfl hname.ne_up
  · rfl

theorem of_foldlM_step (h : ss.foldlM d.step p = .ok q) : q = (ss.filterMap step?).foldl follow p := by
  induction ss generalizing p with
  | nil =>
    cases h
    rfl
  | cons s ss ih =>
    rw [List.foldlM_cons] at h
    cases hs : d.step p s with
    | error fault =>
      rw [hs] at h
      cases h
    | ok p' =>
      rw [hs] at h
      rw [ih h, (of_step hs).2, List.filterMap_cons]
      cases step? s <;> rfl

/-- Where the segments of a path are followed from. -/
def startOf (d : Disk) (ss : List String) : Place := if ss.head? = some "" then [] else d.current

theorem locate_eq (h : segments path ≠ [""]) :
    d.locate path = (segments path).foldlM d.step (d.startOf (segments path)) := by
  unfold locate
  split
  · rename_i hempty
    exact absurd hempty h
  · rename_i rest hne hroot
    rw [hroot]
    rfl
  · rename_i hempty hroot
    rw [startOf, if_neg]
    intro hhead
    obtain ⟨rest, hrest⟩ := List.head?_eq_some_iff.mp hhead
    exact hroot rest hrest

theorem segments_ne_of_locate (h : d.locate path = .ok p) : segments path ≠ [""] := by
  intro hempty
  unfold locate at h
  rw [hempty] at h
  cases h

theorem foldl_follow_ofSegments (d : Disk) (ss : List String) :
    (ofSegments ss).foldl follow d.current = (ss.filterMap step?).foldl follow (d.startOf ss) := by
  cases ss with
  | nil => rfl
  | cons first rest =>
    by_cases hroot : first = ""
    · subst hroot
      rfl
    · have hstart : d.startOf (first :: rest) = d.current := if_neg (by simp [hroot])
      rw [hstart]
      by_cases hhere : first = "."
      · subst hhere
        rfl
      · rw [ofSegments_of_ne hroot hhere]

/-- **The place that a path leads to is told by its components.** -/
theorem eq_of_locate (h : d.locate path = .ok p) : p = (components path).foldl follow d.current := by
  have hpath := segments_ne_of_locate h
  rw [locate_eq hpath] at h
  rw [of_foldlM_step h, components_eq hpath, foldl_follow_ofSegments]

/-- **Paths with the same components lead to the same place**, if to any. -/
theorem eq_of_components_eq (h : components path = components other) (hp : d.locate path = .ok p)
    (hq : d.locate other = .ok q) : p = q := by
  rw [eq_of_locate hp, eq_of_locate hq, h]

theorem below?_eq_some_iff : below? p q = some r ↔ q = p ++ r ∧ r ≠ [] := by
  induction p generalizing q with
  | nil =>
    cases q with
    | nil => simp [below?]
    | cons b q =>
      simp only [below?, Option.some.injEq, List.nil_append]
      constructor
      · rintro rfl
        exact ⟨rfl, List.cons_ne_nil b q⟩
      · exact fun h => h.1
  | cons a p ih =>
    cases q with
    | nil => simp [below?]
    | cons b q =>
      rw [below?]
      by_cases h : a = b
      · simp [h, ih]
      · simp [h, Ne.symm h]

/-- Above a file are folders. -/
theorem isFolderAt_of_mem {c : Content} (h : (p ++ r, c) ∈ d.files) (hr : r ≠ []) :
    d.isFolderAt p = true := by
  have hbelow : (d.files.any fun f => (below? p f.1).isSome) = true :=
    List.any_eq_true.mpr ⟨_, h, by rw [below?_eq_some_iff.mpr ⟨rfl, hr⟩]; rfl⟩
  rw [isFolderAt, hbelow, Bool.or_true]

/-- **What is in a folder is at a place below it.** -/
theorem locate_join (hq : d.locate folder = .ok q) (hfolder : d.isFolderAt q = true)
    (hname : IsName name) : d.locate (join folder name) = .ok (q ++ [name]) := by
  have hsegments := segments_ne_of_locate hq
  obtain ⟨init, hinit, hjoin, hends⟩ :=
    exists_segments_join (ne_empty_of_segments hsegments) hname.no_slash
  have hstart (more : List String) : d.startOf (init ++ more) = d.startOf init := by
    rw [startOf, List.head?_append_of_ne_nil _ hinit, startOf]
  have hfront : init.foldlM d.step (d.startOf init) = .ok q := by
    rw [locate_eq hsegments] at hq
    rcases hends with hends | hends
    · rwa [hends] at hq
    · rw [hends, hstart, List.foldlM_append] at hq
      cases hfront : init.foldlM d.step (d.startOf init) with
      | error fault =>
        rw [hfront] at hq
        cases hq
      | ok q' =>
        rw [hfront] at hq
        rw [of_foldlM_step (hq : [""].foldlM d.step q' = .ok q)]
        rfl
  rw [locate_eq (components_join hsegments hname).1, hjoin, hstart, List.foldlM_append, hfront]
  exact congrArg (· >>= pure) (step_of_isName hfolder hname)

/-- **Files below a folder are where their names lead from it.** -/
theorem locate_foldl_join {names : List String} {c : Content} (hq : d.locate folder = .ok q)
    (hfile : (q ++ names, c) ∈ d.files) (hnames : ∀ n ∈ names, IsName n) :
    d.locate (names.foldl join folder) = .ok (q ++ names) := by
  induction names generalizing folder q with
  | nil => rw [List.append_nil]; exact hq
  | cons name names ih =>
    rw [List.forall_mem_cons] at hnames
    have hplace : q ++ name :: names = (q ++ [name]) ++ names := by simp
    have hjoin := locate_join hq (isFolderAt_of_mem hfile (List.cons_ne_nil _ _)) hnames.1
    rw [hplace] at hfile ⊢
    exact ih hjoin hfile hnames.2

theorem foldl_follow_names (p : Place) (names : List String) :
    (names.map Component.name).foldl follow p = p ++ names := by
  induction names generalizing p with
  | nil => simp
  | cons name names ih => rw [List.map_cons, List.foldl_cons, ih, follow]; simp

/-- **Of paths that start alike and never go up**, only those with the same components lead to the same
place. -/
theorem components_eq_of_locate_eq (hpath : d.locate path = .ok p) (hother : d.locate other = .ok p)
    (hlead : leadOf (components path) = leadOf (components other)) (hup : .up ∉ components path)
    (hup' : .up ∉ components other) : components path = components other := by
  obtain ⟨names, hnames⟩ := exists_names hup
  obtain ⟨names', hnames'⟩ := exists_names hup'
  have hplace := (eq_of_locate hpath).symm.trans (eq_of_locate hother)
  rw [hnames, hnames', ← hlead, List.foldl_append, List.foldl_append, foldl_follow_names,
    foldl_follow_names, List.append_cancel_left_eq] at hplace
  rw [hnames, hnames', ← hlead, hplace]

end Disk

end SheetLint
