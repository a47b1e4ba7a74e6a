import Mathlib
import SheetLint.Proofs.Registry.Acceptance
import SheetLint.Proofs.Text.Trimming

/-!
# Rules by name and rules by configuration

An id names a rule by its name, or by its code in any letter case, with any blanks around it. No id
names two rules. So a list of ids stands for a set of rules: what is selected by it is that set,
each rule once, in some order. The order of rules shows in no report, and so rules that are
selected do what the same rules do when the configuration turns them on.

Results:
* `Registry.resolve?_of_namedBy`: an id is resolved to the rule that it names.
* `Registry.exists_select`: what a list of ids selects.
* `Registry.buildSelected_of_build`: selecting the rules that a configuration turns on.
-/

namespace SheetLint

namespace Text

/-- A blank is no letter. -/
theorem toLower_of_isBlank {c : Char} (h : isBlank c = true) : c.toLower = c := by
  unfold Char.toLower
  split
  · rename_i hupper
    have hleast : 65 ≤ c.toNat := UInt32.le_iff_toNat_le.mp hupper.1
    have hmost : c.toNat ≤ 90 := UInt32.le_iff_toNat_le.mp hupper.2
    simp only [isBlank, Bool.or_eq_true, Bool.and_eq_true, decide_eq_true_eq, beq_iff_eq] at h
    omega
  · rfl

/-- A text that is one without blanks, but for the case of its letters, has no blanks. -/
theorem isBlank_eq_false_of_lower {t : Text} (h : ∀ c ∈ t.lower, isBlank c = false) :
    ∀ c ∈ t, isBlank c = false := by
  intro c hc
  by_contra hblank
  rw [Bool.not_eq_false] at hblank
  have hlower := h c.toLower (List.mem_map_of_mem hc)
  rw [toLower_of_isBlank hblank, hblank] at hlower
  cases hlower

end Text

/-- Whether an id names the rule: it is the name, or the code in any letter case, with any blanks
around it. -/
def RuleInfo.NamedBy (info : RuleInfo) (id : String) : Prop :=
  ∃ front core back : Text, id.toList = front ++ core ++ back
    ∧ (∀ c ∈ front ++ back, Text.isBlank c = true)
    ∧ (core = info.name.toList ∨ Text.lower core = Text.lower info.code.toList)

/-- What the name and the code of a rule are, whatever the case of their letters. -/
def RuleInfo.keys (info : RuleInfo) : List Text :=
  [Text.lower info.name.toList, Text.lower info.code.toList]

namespace Registry

variable {c : Config} {rules : List Rule} {e e' : RuleEntry} {id : String} {ids : List String}

/-! ## What an id stands for -/

/-- No name and no code has a blank. -/
theorem all_not_isBlank : (entries.all fun e =>
    (e.info.name.toList ++ Text.lower e.info.code.toList).all fun c => !Text.isBlank c) = true := by
  decide +kernel

/-- No two names or codes differ in the case of letters only. -/
theorem nodup_keys : (entries.flatMap fun e => e.info.keys).Nodup := by
  decide +kernel

/-- Only one rule has the name or the code, in any letter case. -/
theorem eq_of_mem_keys (he : e ∈ entries) (he' : e' ∈ entries) {t : Text} (h : t ∈ e.info.keys)
    (h' : t ∈ e'.info.keys) : e' = e := by
  by_contra hne
  have hsymm : Std.Symm (Function.onFun List.Disjoint fun e : RuleEntry => e.info.keys) :=
    ⟨fun _ _ hdisjoint => List.Disjoint.symm hdisjoint⟩
  exact (List.nodup_flatMap.mp nodup_keys).2.forall he' he hne h' h

/-- An id that is resolved is the name or the code, letter case apart. -/
theorem lower_mem_keys (h : resolve? id = some e) : Text.lower id.toList ∈ e.info.keys := by
  have hfound := List.find?_some h
  rw [Bool.or_eq_true, beq_iff_eq, beq_iff_eq] at hfound
  rcases hfound with hname | hcode
  · simp [RuleInfo.keys, hname]
  · have hlower := congrArg String.toList hcode
    rw [String.toLower, String.toList_map, String.toLower, String.toList_map] at hlower
    simp [RuleInfo.keys, Text.lower, hlower]

/-- **An id is resolved to the rule that it names.** -/
theorem resolve?_of_namedBy (he : e ∈ entries) (h : e.info.NamedBy id) :
    resolve? (trimId id) = some e := by
  obtain ⟨front, core, back, hid, hblank, hcore⟩ := h
  obtain ⟨hfront, hback⟩ := List.forall_mem_append.mp hblank
  have hfree := List.all_eq_true.mp (List.all_eq_true.mp all_not_isBlank e he)
  have hcoreFree : ∀ c ∈ core, Text.isBlank c = false := by
    rcases hcore with rfl | hlower
    · exact fun c hc => by simpa using hfree c (List.mem_append_left _ hc)
    · refine Text.isBlank_eq_false_of_lower fun c hc => ?_
      rw [hlower] at hc
      simpa using hfree c (List.mem_append_right _ hc)
  have htrim : (trimId id).toList = core := by
    rw [trimId, String.toList_ofList, hid, Text.trim_of_blank hfront hback hcoreFree]
  have hkey : Text.lower (trimId id).toList ∈ e.info.keys := by
    rw [htrim]
    rcases hcore with rfl | h <;> simp [RuleInfo.keys, *]
  cases hfind : resolve? (trimId id) with
  | none =>
    have hnot := List.find?_eq_none.mp hfind e he
    rw [Bool.or_eq_true, not_or, beq_iff_eq, beq_iff_eq] at hnot
    rcases hcore with rfl | h
    · exact absurd (String.toList_injective htrim).symm hnot.1
    · refine absurd (String.toList_injective ?_) hnot.2
      rw [String.toLower, String.toList_map, String.toLower, String.toList_map, htrim]
      exact h.symm
  | some e' =>
    rw [eq_of_mem_keys he (List.mem_of_find?_eq_some hfind) hkey (lower_mem_keys hfind)]

/-! ## What a list of ids selects -/

theorem eq_of_name (he : e ∈ entries) (he' : e' ∈ entries) (h : e'.info.name = e.info.name) :
    e' = e :=
  eq_of_mem_keys he he' List.mem_cons_self (by simp [RuleInfo.keys, h])

variable {chosen : List RuleEntry}

/-- One more rule is chosen, unless it is among those that were. -/
theorem choose_step (hchosen : ∀ e ∈ chosen, e ∈ entries)
    (hnodup : (chosen.map fun e => e.info.name).Nodup) (he : e ∈ entries) :
    let next := if chosen.any (·.info.name == e.info.name) then chosen else chosen ++ [e]
    (∀ e ∈ next, e ∈ entries) ∧ (next.map fun e => e.info.name).Nodup
      ∧ ∀ e', e' ∈ next ↔ e' ∈ chosen ∨ e' = e := by
  intro next
  by_cases hany : chosen.any (·.info.name == e.info.name) = true
  · have hnext : next = chosen := if_pos hany
    obtain ⟨e', he', hname⟩ := List.any_eq_true.mp hany
    have hsame := eq_of_name he (hchosen e' he') (beq_iff_eq.mp hname)
    rw [hsame] at he'
    rw [hnext]
    refine ⟨hchosen, hnodup, fun e'' => ⟨.inl, ?_⟩⟩
    rintro (h | rfl)
    · exact h
    · exact he'
  · have hnext : next = chosen ++ [e] := if_neg hany
    rw [hnext, List.map_append]
    refine ⟨?_, ?_, by simp⟩
    · exact List.forall_mem_append.mpr ⟨hchosen, List.forall_mem_singleton.mpr he⟩
    · refine hnodup.append (List.nodup_singleton _) fun name hname hlast => hany ?_
      obtain ⟨e', he', rfl⟩ := List.mem_map.mp hname
      exact List.any_eq_true.mpr ⟨e', he', beq_iff_eq.mpr (by simpa using hlast)⟩

/-- **What a list of ids selects**: the rules that the ids are resolved to, each once. -/
theorem exists_select (hchosen : ∀ e ∈ chosen, e ∈ entries)
    (hnodup : (chosen.map fun e => e.info.name).Nodup)
    (hids : ∀ id ∈ ids, ∃ e, resolve? (trimId id) = some e) :
    ∃ result, select chosen ids = .ok result ∧ (result.map fun e => e.info.name).Nodup
      ∧ ∀ e, e ∈ result ↔ e ∈ chosen ∨ ∃ id ∈ ids, resolve? (trimId id) = some e := by
  fun_induction select chosen ids with
  | case1 chosen => exact ⟨chosen, rfl, hnodup, by simp⟩
  | case2 chosen id ids hnone =>
    obtain ⟨e, he⟩ := hids id List.mem_cons_self
    cases hnone.symm.trans he
  | case3 chosen id ids e he ih =>
    obtain ⟨hnextEntries, hnextNodup, hnext⟩ :=
      choose_step hchosen hnodup (List.mem_of_find?_eq_some he)
    obtain ⟨result, hresult, hresultNodup, hmem⟩ :=
      ih hnextEntries hnextNodup (List.forall_mem_cons.mp hids).2
    refine ⟨result, hresult, hresultNodup, fun e' => ?_⟩
    rw [hmem, hnext, List.exists_mem_cons_iff, he, Option.some_inj, or_assoc, eq_comm (a := e)]

/-! ## The rules -/

/-- Whether a list of ids names these rules and no others. -/
def NamesExactly (ids : List String) (rules : List Rule) : Prop :=
  (∀ id ∈ ids, ∃ r ∈ rules, r.info.NamedBy id) ∧ ∀ r ∈ rules, ∃ id ∈ ids, r.info.NamedBy id

theorem nodup_names_of_build (hbuild : build c = .ok rules) :
    (rules.map fun r => r.info.name).Nodup := by
  obtain ⟨p, all, -, -, hall, rfl⟩ := exists_of_build hbuild
  have hnames : (all.map fun r => r.info.name).Nodup := by
    rw [map_name_of_mapM hall]
    decide
  exact hnames.sublist (List.filter_sublist.map _)

/-- Entries with names of their own that give these rules and no others give them in some order. -/
theorem exists_perm_of_chosen {p : Preset} (hnodup : (chosen.map fun e => e.info.name).Nodup)
    (hrules : (rules.map fun r => r.info.name).Nodup)
    (hgiven : ∀ e ∈ chosen, ∃ r ∈ rules, buildEntry c p e = .ok r)
    (hmade : ∀ r ∈ rules, ∃ e ∈ chosen, buildEntry c p e = .ok r) :
    ∃ selected, chosen.mapM (buildEntry c p) = .ok selected ∧ selected.Perm rules := by
  rcases mapM_cases (buildEntry c p) chosen with
    ⟨selected, hselected⟩ | ⟨before, e, after, fault, hsplit, -, he, -⟩
  · refine ⟨selected, hselected, ?_⟩
    have hselectedNodup : (selected.map fun r => r.info.name).Nodup := by
      rwa [map_name_of_mapM hselected]
    refine (List.perm_ext_iff_of_nodup hselectedNodup.of_map hrules.of_map).mpr fun r => ?_
    constructor
    · intro hr
      obtain ⟨e, he, hbuilt⟩ := exists_of_mem_mapM hselected r hr
      obtain ⟨r', hr', hbuilt'⟩ := hgiven e he
      cases hbuilt.symm.trans hbuilt'
      exact hr'
    · intro hr
      obtain ⟨e, he, hbuilt⟩ := hmade r hr
      obtain ⟨r', hr', hbuilt'⟩ := exists_of_mapM_eq_ok hselected e he
      cases hbuilt.symm.trans hbuilt'
      exact hr'
  · obtain ⟨r, -, hbuilt⟩ := hgiven e (by simp [hsplit])
    cases he.symm.trans hbuilt

/-- The ids select the rules that they name, in some order. -/
theorem exists_perm_of_build (hbuild : build c = .ok rules) (hids : NamesExactly ids rules) :
    ∃ selected, buildSelected c ids = .ok selected ∧ selected.Perm rules := by
  have hnodup := nodup_names_of_build hbuild
  obtain ⟨p, all, hpreset, hnames, hall, hrules⟩ := exists_of_build hbuild
  have hresolve : ∀ r ∈ rules, ∃ e, buildEntry c p e = .ok r
      ∧ ∀ id, r.info.NamedBy id → resolve? (trimId id) = some e := by
    intro r hr
    rw [hrules] at hr
    obtain ⟨e, he, hr⟩ := exists_of_mem_mapM hall r (List.mem_filter.mp hr).1
    exact ⟨e, hr, fun id hid => resolve?_of_namedBy he (info_of_buildEntry hr ▸ hid)⟩
  have hresolved : ∀ id ∈ ids, ∃ r ∈ rules, ∃ e, buildEntry c p e = .ok r
      ∧ resolve? (trimId id) = some e := by
    intro id hid
    obtain ⟨r, hr, hnamed⟩ := hids.1 id hid
    obtain ⟨e, hbuilt, he⟩ := hresolve r hr
    exact ⟨r, hr, e, hbuilt, he id hnamed⟩
  obtain ⟨chosen, hchosen, hchosenNodup, hmem⟩ := exists_select (List.forall_mem_nil _)
    List.nodup_nil fun id hid => by
      obtain ⟨_, _, e, _, he⟩ := hresolved id hid
      exact ⟨e, he⟩
  have hgiven : ∀ e ∈ chosen, ∃ r ∈ rules, buildEntry c p e = .ok r := by
    intro e he
    rcases (hmem e).mp he with h | ⟨id, hid, he⟩
    · cases h
    · obtain ⟨r, hr, e', hbuilt, he'⟩ := hresolved id hid
      cases he.symm.trans he'
      exact ⟨r, hr, hbuilt⟩
  have hmade : ∀ r ∈ rules, ∃ e ∈ chosen, buildEntry c p e = .ok r := by
    intro r hr
    obtain ⟨id, hid, hnamed⟩ := hids.2 r hr
    obtain ⟨e, hbuilt, he⟩ := hresolve r hr
    exact ⟨e, (hmem e).mpr (.inr ⟨id, hid, he id hnamed⟩), hbuilt⟩
  obtain ⟨selected, hselected, hperm⟩ := exists_perm_of_chosen hchosenNodup hnodup hgiven hmade
  refine ⟨selected, ?_, hperm⟩
  simp [buildSelected, hpreset, hnames, hchosen, hselected, bind, Except.bind]

/-- **Selecting the rules that a configuration turns on** gives rules that report and fix as those
do. -/
theorem buildSelected_of_build (hbuild : build c = .ok rules) (hids : NamesExactly ids rules) :
    ∃ selected, buildSelected c ids = .ok selected ∧ ∀ path source,
      (⟨selected, c⟩ : Analyzer).check path source = (⟨rules, c⟩ : Analyzer).check path source
        ∧ (⟨selected, c⟩ : Analyzer).fix path source = (⟨rules, c⟩ : Analyzer).fix path source := by
  obtain ⟨selected, hselected, hperm⟩ := exists_perm_of_build hbuild hids
  have hlint := Analyzer.lint_of_perm hperm (nodup_names_of_build hbuild) c
  exact ⟨selected, hselected, Analyzer.check_fix_of_lint hlint rfl⟩

/-- The standard rules, each selected by its name and once more by its code in lower case with a
blank on both sides, the last rule first. -/
theorem buildSelected_of_build_twice :
    let ids := standardRules.reverse.flatMap fun r =>
      [r.info.name, String.ofList ([' '] ++ Text.lower r.info.code.toList ++ ['\n'])]
    build .standard = .ok standardRules ∧ NamesExactly ids standardRules
      ∧ ∃ selected, buildSelected .standard ids = .ok selected ∧ ∀ path source,
        (⟨selected, .standard⟩ : Analyzer).check path source = Analyzer.standard.check path source
          ∧ (⟨selected, .standard⟩ : Analyzer).fix path source =
            Analyzer.standard.fix path source := by
  intro ids
  have hlower : ∀ r ∈ standardRules,
      Text.lower (Text.lower r.info.code.toList) = Text.lower r.info.code.toList := by
    decide +kernel
  have hname (r : Rule) : r.info.NamedBy r.info.name :=
    ⟨[], r.info.name.toList, [], by simp, by simp, .inl rfl⟩
  have hblank : ∀ c ∈ [' '] ++ ['\n'], Text.isBlank c = true :=
    List.forall_mem_cons.mpr ⟨rfl, List.forall_mem_singleton.mpr rfl⟩
  have hcode : ∀ r ∈ standardRules, r.info.NamedBy
      (String.ofList ([' '] ++ Text.lower r.info.code.toList ++ ['\n'])) := fun r hr =>
    ⟨[' '], Text.lower r.info.code.toList, ['\n'], String.toList_ofList, hblank,
      .inr (hlower r hr)⟩
  have hids : NamesExactly ids standardRules := by
    constructor
    · intro id hid
      obtain ⟨r, hr, hid⟩ := List.mem_flatMap.mp hid
      have hr := List.mem_reverse.mp hr
      rcases List.mem_pair.mp hid with rfl | rfl
      · exact ⟨r, hr, hname r⟩
      · exact ⟨r, hr, hcode r hr⟩
    · intro r hr
      exact ⟨r.info.name, List.mem_flatMap.mpr ⟨r, List.mem_reverse.mpr hr, by simp⟩, hname r⟩
  exact ⟨build_standard, hids, buildSelected_of_build build_standard hids⟩

end Registry

end SheetLint
