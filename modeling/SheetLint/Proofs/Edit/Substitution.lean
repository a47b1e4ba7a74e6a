import Mathlib.Data.List.Pairwise
import Mathlib.Tactic.SplitIfs
import SheetLint.Edit

/-!
# Edits as a substitution

What a list of edits means is said by a walk through the text from its start: what stands between
the ranges is kept, each range is replaced. The edits are carried out from the end of the text, one
after the other, each on the result of those before. For edits that do not conflict the two agree,
and the order in which the edits are listed does not matter.

Results:
* `Substituted.unique`: the walk has one result.
* `applyInTurn?_reverse`: carrying the edits out from the end gives the result of the walk.
* `stop_le_start_of_walksBefore`: ranges that do not conflict stand one behind the other.
* `applyAll?_substitutes`: what applying edits gives, when it gives nothing, and that the order of
  the list does not matter.
-/

namespace SheetLint.Edit

/-! ## The walk -/

/-- Order of the walk: by start, then by end. An insertion comes behind a range that ends at its
offset and in front of one that starts there. -/
def walksBefore (a b : Edit) : Bool :=
  a.start < b.start || (a.start == b.start && a.stop ≤ b.stop)

/-- `Substituted pos rest edits out`: from the offset `pos` on the text is `rest`, and with the
ranges of the edits replaced, in their order, it is `out`. -/
inductive Substituted : Nat → Text → List Edit → Text → Prop
  | nil (pos : Nat) (rest : Text) : Substituted pos rest [] rest
  | cons {pos : Nat} {kept old rest out : Text} {e : Edit} {es : List Edit}
      (start_eq : e.start = pos + kept.size) (stop_eq : e.stop = e.start + old.size)
      (more : Substituted e.stop rest es out) :
      Substituted pos (kept ++ old ++ rest) (e :: es) (kept ++ e.replacement ++ out)

/-- Of two ways to cut a text, the one that cuts further right keeps what the other keeps. -/
theorem exists_of_append_eq {front rest a b : Text} (h : front ++ rest = a ++ b)
    (hle : front.size ≤ a.size) : ∃ kept, a = front ++ kept ∧ rest = kept ++ b := by
  rcases List.append_eq_append_iff.mp h with ⟨kept, ha, hrest⟩ | ⟨more, hfront, hb⟩
  · exact ⟨kept, ha, hrest⟩
  · have hmore : more = [] := by
      by_contra hne
      have := Text.size_pos_of_ne_nil hne
      rw [hfront, Text.size_append] at hle
      omega
    subst hmore
    exact ⟨[], by simpa using hfront.symm, by simpa using hb.symm⟩

/-- Two ways to cut a text at one offset are the same. -/
theorem eq_of_append_eq {front rest a b : Text} (h : front ++ rest = a ++ b)
    (hsize : front.size = a.size) : front = a ∧ rest = b := by
  obtain ⟨kept, rfl, hrest⟩ := exists_of_append_eq h (Nat.le_of_eq hsize)
  have hkept : kept = [] := by
    by_contra hne
    have := Text.size_pos_of_ne_nil hne
    rw [Text.size_append] at hsize
    omega
  subst hkept
  exact ⟨(List.append_nil front).symm, hrest⟩

/-- What the walk does at its first edit. -/
theorem Substituted.of_cons {pos : Nat} {t out : Text} {e : Edit} {es : List Edit}
    (h : Substituted pos t (e :: es) out) :
    ∃ kept old rest later, t = kept ++ old ++ rest ∧ out = kept ++ e.replacement ++ later
      ∧ e.start = pos + kept.size ∧ e.stop = e.start + old.size
      ∧ Substituted e.stop rest es later := by
  cases h with
  | cons start_eq stop_eq more => exact ⟨_, _, _, _, rfl, rfl, start_eq, stop_eq, more⟩

/-- What stands in front of the ranges is kept. -/
theorem Substituted.keep {pos : Nat} {kept rest out : Text} {es : List Edit}
    (h : Substituted (pos + kept.size) rest es out) :
    Substituted pos (kept ++ rest) es (kept ++ out) := by
  cases h with
  | nil => exact .nil pos _
  | @cons _ more old rest out e es start_eq stop_eq later =>
    have hstart : e.start = pos + (kept ++ more).size := by
      rw [Text.size_append, ← Nat.add_assoc]
      exact start_eq
    have hwalk := Substituted.cons hstart stop_eq later
    simpa only [List.append_assoc] using hwalk

/-- What stands at the front is replaced. -/
theorem Substituted.replace {pos : Nat} {old rest out : Text} {es : List Edit}
    (h : Substituted (pos + old.size) rest es out) (new : Text) :
    Substituted pos (old ++ rest) (⟨pos, pos + old.size, new⟩ :: es) (new ++ out) := by
  have hstep : Substituted pos ([] ++ old ++ rest) (⟨pos, pos + old.size, new⟩ :: es)
    ([] ++ new ++ out) := .cons rfl rfl h
  exact hstep

/-- Substitution goes forward. -/
theorem Substituted.le_start {pos : Nat} {t out : Text} {es : List Edit}
    (h : Substituted pos t es out) : ∀ e ∈ es, pos ≤ e.start := by
  induction h with
  | nil => simp
  | cons start_eq stop_eq more ih =>
    rw [List.forall_mem_cons]
    exact ⟨by omega, fun e he => by have := ih e he; omega⟩

/-- Ranges are the right way round. -/
theorem Substituted.start_le_stop {pos : Nat} {t out : Text} {es : List Edit}
    (h : Substituted pos t es out) : ∀ e ∈ es, e.start ≤ e.stop := by
  induction h with
  | nil => simp
  | cons start_eq stop_eq more ih =>
    rw [List.forall_mem_cons]
    exact ⟨by omega, ih⟩

/-- What is replaced stands side by side. -/
theorem Substituted.pairwise {pos : Nat} {t out : Text} {es : List Edit}
    (h : Substituted pos t es out) : es.Pairwise fun a b => a.stop ≤ b.start := by
  induction h with
  | nil => exact List.Pairwise.nil
  | cons start_eq stop_eq more ih => exact List.pairwise_cons.mpr ⟨more.le_start, ih⟩

/-- **The walk has one result.** -/
theorem Substituted.unique {pos : Nat} {t out out' : Text} {es : List Edit}
    (h : Substituted pos t es out) (h' : Substituted pos t es out') : out = out' := by
  induction h generalizing out' with
  | nil => cases h'; rfl
  | @cons pos kept old rest out e es start_eq stop_eq more ih =>
    obtain ⟨kept', old', rest', later, ht, rfl, hstart, hstop, hlater⟩ := h'.of_cons
    obtain ⟨hfront, rfl⟩ := eq_of_append_eq ht (by simp only [Text.size_append]; omega)
    obtain ⟨rfl, -⟩ := eq_of_append_eq hfront (by omega)
    rw [ih hlater]

/-! ## From the end of the text -/

theorem applyInTurn?_append (a b : List Edit) (text : Text) :
    applyInTurn? (a ++ b) text = (applyInTurn? a text).bind (applyInTurn? b) := by
  induction a generalizing text with
  | nil => rfl
  | cons e es ih =>
    simp only [List.cons_append, applyInTurn?]
    cases e.replaceIn? text with
    | none => rfl
    | some next => exact ih next

theorem replaceIn?_append {front old back : Text} {e : Edit} (hstart : e.start = front.size)
    (hstop : e.stop = e.start + old.size) :
    e.replaceIn? (front ++ old ++ back) = some (front ++ e.replacement ++ back) := by
  have hlength : e.stop - e.start = old.size := by omega
  unfold replaceIn?
  rw [hlength, hstart, List.append_assoc, Text.cut?_append]
  simp [Text.cut?_append]

/-- **Carried out from the end, the edits give the result of the walk.** The text in front of the
walk stays as it is. -/
theorem applyInTurn?_reverse {front rest out : Text} {es : List Edit}
    (h : Substituted front.size rest es out) :
    applyInTurn? es.reverse (front ++ rest) = some (front ++ out) := by
  generalize hpos : front.size = pos at h
  induction h generalizing front with
  | nil => rfl
  | @cons pos kept old rest out e es start_eq stop_eq more ih =>
    have hback := @ih (front ++ kept ++ old) (by simp; omega)
    have hfirst : e.replaceIn? (front ++ kept ++ old ++ out) =
        some (front ++ kept ++ e.replacement ++ out) :=
      replaceIn?_append (by simp; omega) stop_eq
    rw [List.reverse_cons, applyInTurn?_append]
    simp only [List.append_assoc] at hback hfirst ⊢
    rw [hback, Option.bind_some, applyInTurn?, hfirst]
    rfl

/-! ## Edits that do not conflict -/

variable {a b : Edit} {text : Text} {edits : List Edit}

theorem conflicts_comm (a b : Edit) : a.conflicts b = b.conflicts a := by
  unfold conflicts
  cases a.isInsertion <;> cases b.isInsertion <;> simp [Bool.and_comm, eq_comm]

theorem appliesBefore_eq (a b : Edit) : appliesBefore a b = walksBefore b a := by
  unfold appliesBefore walksBefore
  rw [Bool.eq_iff_iff]
  simp
  omega

theorem walksBefore_total (a b : Edit) : (walksBefore a b || walksBefore b a) = true := by
  unfold walksBefore
  simp
  omega

theorem walksBefore_trans (a b c : Edit) (hab : walksBefore a b = true)
    (hbc : walksBefore b c = true) : walksBefore a c = true := by
  simp [walksBefore] at *
  omega

/-- When two edits do not conflict, said of their offsets. -/
theorem conflicts_eq_false_iff (a b : Edit) :
    a.conflicts b = false ↔
      if a.stop ≤ a.start then
        if b.stop ≤ b.start then a.start ≠ b.start else a.start ≤ b.start ∨ b.stop ≤ a.start
      else if b.stop ≤ b.start then b.start ≤ a.start ∨ a.stop ≤ b.start
      else b.stop ≤ a.start ∨ a.stop ≤ b.start := by
  unfold conflicts isInsertion hasInside
  by_cases ha : a.stop ≤ a.start <;> by_cases hb : b.stop ≤ b.start <;>
    simp [ha, hb] <;> omega

theorem walksBefore_eq_true_iff (a b : Edit) :
    walksBefore a b = true ↔ a.start < b.start ∨ a.start = b.start ∧ a.stop ≤ b.stop := by
  simp [walksBefore]

/-- **Ranges that do not conflict stand one behind the other.** -/
theorem stop_le_start_of_walksBefore (hconflict : a.conflicts b = false)
    (ha : a.start ≤ a.stop) (hb : b.start ≤ b.stop) (hwalk : walksBefore a b = true) :
    a.stop ≤ b.start := by
  rw [conflicts_eq_false_iff] at hconflict
  rw [walksBefore_eq_true_iff] at hwalk
  split_ifs at hconflict <;> omega

/-- Edits that come in front of each other have one range, so they conflict unless they are one
edit. -/
theorem eq_of_walksBefore (hconflict : a ≠ b → a.conflicts b = false)
    (ha : a.start ≤ a.stop) (hab : walksBefore a b = true) (hba : walksBefore b a = true) :
    a = b := by
  by_contra hne
  have h := (conflicts_eq_false_iff a b).mp (hconflict hne)
  rw [walksBefore_eq_true_iff] at hab hba
  split_ifs at h <;> omega

/-- In a list of edits without conflict, two different ones do not conflict. -/
theorem conflicts_of_mem (h : edits.Pairwise fun a b => a.conflicts b = false) (ha : a ∈ edits)
    (hb : b ∈ edits) (hne : a ≠ b) : a.conflicts b = false := by
  have hsymm : Std.Symm fun a b : Edit => a.conflicts b = false :=
    ⟨fun a b hab => (conflicts_comm b a).trans hab⟩
  exact h.forall ha hb hne

/-- Whether the range of an edit lies in a text, the right way round and between characters. -/
def InText (text : Text) (e : Edit) : Prop :=
  e.start ≤ e.stop ∧ e.stop ≤ text.size ∧ text.isBoundary e.start = true
    ∧ text.isBoundary e.stop = true

instance (text : Text) (e : Edit) : Decidable (InText text e) :=
  inferInstanceAs (Decidable (_ ∧ _ ∧ _ ∧ _))

theorem exists_of_isBoundary {n : Nat} (h : text.isBoundary n = true) :
    ∃ front back, text = front ++ back ∧ front.size = n := by
  obtain ⟨⟨front, back⟩, hcut⟩ := Option.isSome_iff_exists.mp h
  exact ⟨front, back, Text.eq_append_of_cut? hcut⟩

theorem isBoundary_size (front back : Text) : (front ++ back).isBoundary front.size = true := by
  rw [Text.isBoundary, Text.cut?_append]
  rfl

theorem fits_iff (text : Text) (e : Edit) : e.fits text = true ↔ InText text e := by
  unfold fits InText
  simp only [Bool.and_eq_true, decide_eq_true_eq]
  constructor
  · rintro ⟨⟨hle, hstart⟩, hstop⟩
    obtain ⟨front, back, rfl, hsize⟩ := exists_of_isBoundary hstop
    exact ⟨hle, by simp; omega, hstart, hstop⟩
  · rintro ⟨hle, -, hstart, hstop⟩
    exact ⟨⟨hle, hstart⟩, hstop⟩

/-- **Ranges that stand one behind the other can be walked through.** -/
theorem exists_substituted {front rest : Text} (hfit : ∀ e ∈ edits, InText (front ++ rest) e)
    (hbehind : ∀ e ∈ edits, front.size ≤ e.start)
    (hapart : edits.Pairwise fun a b => a.stop ≤ b.start) :
    ∃ out, Substituted front.size rest edits out := by
  induction edits generalizing front rest with
  | nil => exact ⟨rest, .nil _ rest⟩
  | cons e es ih =>
    rw [List.forall_mem_cons] at hfit hbehind
    obtain ⟨hfirst, hlater⟩ := List.pairwise_cons.mp hapart
    obtain ⟨⟨hle, -, hstart, hstop⟩, hfits⟩ := hfit
    obtain ⟨a, b, hab, ha⟩ := exists_of_isBoundary hstart
    obtain ⟨kept, rfl, rfl⟩ := exists_of_append_eq hab (by omega)
    obtain ⟨c, d, hcd, hc⟩ := exists_of_isBoundary hstop
    rw [← List.append_assoc] at hcd
    obtain ⟨old, rfl, rfl⟩ := exists_of_append_eq hcd (by omega)
    obtain ⟨out, hout⟩ := @ih (front ++ kept ++ old) d
      (fun x hx => by simpa using hfits x hx) (fun x hx => hc ▸ hfirst x hx) hlater
    rw [hc] at hout
    have hkept : e.start = front.size + kept.size := by rw [← ha, Text.size_append]
    have hold : e.stop = e.start + old.size := by rw [← hc, Text.size_append, ha]
    refine ⟨kept ++ e.replacement ++ out, ?_⟩
    rw [← List.append_assoc]
    exact .cons hkept hold hout

/-! ## Applying edits -/

/-- The edits in the order of the walk. -/
def inOrder (edits : List Edit) : List Edit := edits.mergeSort walksBefore

theorem perm_inOrder (edits : List Edit) : (inOrder edits).Perm edits := List.mergeSort_perm _ _

theorem pairwise_inOrder (edits : List Edit) :
    (inOrder edits).Pairwise fun a b => walksBefore a b = true :=
  List.pairwise_mergeSort walksBefore_trans walksBefore_total edits

/-- Edits without conflict have one order for the walk. -/
theorem eq_inOrder {sorted : List Edit} (hconflict : edits.Pairwise fun a b => a.conflicts b = false)
    (hle : ∀ e ∈ edits, e.start ≤ e.stop) (hperm : sorted.Perm edits)
    (hsorted : sorted.Pairwise fun a b => walksBefore a b = true) : sorted = inOrder edits := by
  refine List.Perm.eq_of_pairwise (fun a b ha hb hab hba => ?_) hsorted (pairwise_inOrder edits)
    (hperm.trans (perm_inOrder edits).symm)
  have ha := hperm.subset ha
  exact eq_of_walksBefore (conflicts_of_mem hconflict ha ((perm_inOrder edits).subset hb))
    (hle a ha) hab hba

/-- **Edits that fit and do not conflict are carried out as the walk says.** -/
theorem applyAll?_eq_some (hconflict : edits.Pairwise fun a b => a.conflicts b = false)
    (hfit : ∀ e ∈ edits, InText text e) :
    ∃ out, applyAll? text edits = some out ∧ Substituted 0 text (inOrder edits) out := by
  have hle : ∀ e ∈ edits, e.start ≤ e.stop := fun e he => (hfit e he).1
  -- The order of application is that of the walk, read from its end.
  have horder : edits.mergeSort appliesBefore = (inOrder edits).reverse := by
    rw [← List.reverse_eq_iff]
    refine eq_inOrder hconflict hle ((List.reverse_perm _).trans (List.mergeSort_perm _ _)) ?_
    rw [List.pairwise_reverse]
    have hsorted : (edits.mergeSort appliesBefore).Pairwise fun a b => appliesBefore a b = true :=
      List.pairwise_mergeSort
        (fun a b c hab hbc => by
          rw [appliesBefore_eq] at *
          exact walksBefore_trans c b a hbc hab)
        (fun a b => by
          rw [appliesBefore_eq, appliesBefore_eq]
          exact walksBefore_total b a) edits
    exact hsorted.imp fun hab => by rwa [appliesBefore_eq] at hab
  have hapart : (inOrder edits).Pairwise fun a b => a.stop ≤ b.start := by
    have hordered : (inOrder edits).Pairwise fun a b => a.conflicts b = false :=
      ((perm_inOrder edits).pairwise_iff fun hab => (conflicts_comm _ _).trans hab).mpr hconflict
    refine (hordered.and (pairwise_inOrder edits)).imp_of_mem fun {a b} ha hb hab => ?_
    exact stop_le_start_of_walksBefore hab.1 (hle a ((perm_inOrder edits).subset ha))
      (hle b ((perm_inOrder edits).subset hb)) hab.2
  have hfit' : ∀ e ∈ inOrder edits, InText ([] ++ text) e := fun e he =>
    hfit e ((perm_inOrder edits).subset he)
  obtain ⟨out, hout⟩ := exists_substituted hfit' (fun e _ => Nat.zero_le e.start) hapart
  refine ⟨out, ?_, hout⟩
  have hall : edits.all (fits text) = true :=
    List.all_eq_true.mpr fun e he => (fits_iff text e).mpr (hfit e he)
  rw [applyAll?, if_pos hall, horder]
  exact applyInTurn?_reverse hout

theorem applyAll?_eq_none (hout : ∃ e ∈ edits, ¬ InText text e) : applyAll? text edits = none := by
  obtain ⟨e, he, hfit⟩ := hout
  rw [applyAll?, if_neg]
  intro hall
  exact hfit ((fits_iff text e).mp (List.all_eq_true.mp hall e he))

theorem inText_of_applyAll? {out : Text} (h : applyAll? text edits = some out) :
    ∀ e ∈ edits, InText text e := by
  by_contra hnot
  rw [applyAll?_eq_none (by simpa using hnot)] at h
  cases h

/-- What edits without conflict give, when they give anything, is the result of the walk. -/
theorem substituted_of_applyAll? {out : Text} (h : applyAll? text edits = some out)
    (hconflict : edits.Pairwise fun a b => a.conflicts b = false) :
    Substituted 0 text (inOrder edits) out := by
  obtain ⟨out', happly, hwalk⟩ := applyAll?_eq_some hconflict (inText_of_applyAll? h)
  obtain rfl : out' = out := Option.some.inj (happly.symm.trans h)
  exact hwalk

theorem pairwise_conflicts_perm {listed : List Edit} (hperm : listed.Perm edits)
    (hconflict : edits.Pairwise fun a b => a.conflicts b = false) :
    listed.Pairwise fun a b => a.conflicts b = false :=
  (hperm.pairwise_iff fun hab => (conflicts_comm _ _).trans hab).mpr hconflict

/-- Fixes without conflict are those whose edits have none. -/
theorem pairwise_conflicts_of_edits {fixes : List Fix}
    (hconflict : (fixes.flatMap Fix.edits).Pairwise fun a b => a.conflicts b = false) :
    fixes.Pairwise fun a b => a.conflicts b = false := by
  rw [List.pairwise_flatMap] at hconflict
  refine hconflict.2.imp fun {a b} hab => ?_
  simpa [Fix.conflicts] using hab

/-- Edits without conflict give the same in any order. -/
theorem applyAll?_of_perm {out : Text} {listed : List Edit} (h : applyAll? text edits = some out)
    (hperm : listed.Perm edits) (hconflict : edits.Pairwise fun a b => a.conflicts b = false) :
    applyAll? text listed = some out := by
  have hfit := inText_of_applyAll? h
  have hwalk := substituted_of_applyAll? h hconflict
  obtain ⟨out', happly, hwalk'⟩ := applyAll?_eq_some (pairwise_conflicts_perm hperm hconflict)
    fun e he => hfit e (hperm.subset he)
  have horder : inOrder listed = inOrder edits :=
    eq_inOrder hconflict (fun e he => (hfit e he).1) ((perm_inOrder listed).trans hperm)
      (pairwise_inOrder listed)
  rw [horder] at hwalk'
  rw [happly, hwalk'.unique hwalk]

/-- **Applying edits is substitution.** Edits without conflict whose ranges lie in the text give
the result of the walk in ascending order; with a range that does not lie in the text there is no
result; and the order in which the edits are listed does not matter. -/
theorem applyAll?_substitutes (text : Text) (edits : List Edit)
    (hconflict : edits.Pairwise fun a b => a.conflicts b = false) :
    ((∀ e ∈ edits, InText text e) →
        ∃ out, applyAll? text edits = some out ∧ Substituted 0 text (inOrder edits) out)
      ∧ ((∃ e ∈ edits, ¬ InText text e) → applyAll? text edits = none)
      ∧ ∀ listed, listed.Perm edits → applyAll? text listed = applyAll? text edits := by
  refine ⟨applyAll?_eq_some hconflict, applyAll?_eq_none, fun listed hperm => ?_⟩
  by_cases hfit : ∀ e ∈ edits, InText text e
  · have hlisted : listed.Pairwise fun a b => a.conflicts b = false :=
      (hperm.pairwise_iff fun hab => (conflicts_comm _ _).trans hab).mpr hconflict
    obtain ⟨out, happly, hwalk⟩ := applyAll?_eq_some hconflict hfit
    obtain ⟨out', happly', hwalk'⟩ :=
      applyAll?_eq_some hlisted fun e he => hfit e (hperm.subset he)
    have horder : inOrder listed = inOrder edits :=
      eq_inOrder hconflict (fun e he => (hfit e he).1) ((perm_inOrder listed).trans hperm)
        (pairwise_inOrder listed)
    rw [horder] at hwalk'
    rw [happly, happly', hwalk'.unique hwalk]
  · obtain ⟨e, he, hout⟩ : ∃ e ∈ edits, ¬ InText text e := by simpa using hfit
    rw [applyAll?_eq_none ⟨e, he, hout⟩, applyAll?_eq_none ⟨e, hperm.symm.subset he, hout⟩]

/-- An insertion at the start of a range, behind a character of two bytes. -/
theorem applyAll?_substitutes_letters :
    let text : Text := ['a', 'b', 'é', 'd', 'e', 'f']
    let edits : List Edit := [⟨0, 1, ['A']⟩, .insert 4 [' '], ⟨4, 5, ['D']⟩, ⟨6, 7, []⟩]
    (edits.Pairwise fun a b => a.conflicts b = false) ∧ (∀ e ∈ edits, InText text e)
      ∧ (∃ out, applyAll? text edits = some out ∧ Substituted 0 text (inOrder edits) out)
      ∧ applyAll? text edits.reverse = applyAll? text edits := by
  intro text edits
  have hconflict : edits.Pairwise fun a b => a.conflicts b = false := by decide
  have hfit : ∀ e ∈ edits, InText text e := by decide
  obtain ⟨hsome, -, horder⟩ := applyAll?_substitutes text edits hconflict
  exact ⟨hconflict, hfit, hsome hfit, horder edits.reverse edits.reverse_perm⟩

end SheetLint.Edit
