import SheetLint.Proofs.Edit.Applicable

/-!
# Edits that fill slots

A slot is a run of tokens that others may take the place of, behind some tokens that stay. What the
edits of slots give that stand side by side is said slot by slot.

Results:
* `Edit.substituted_filled`: each slot holds the text of the tokens that take its place.
-/

namespace SheetLint.Edit

open Tokens

/-- Tokens that stay, the tokens behind them, and the tokens that take the place of these, if others
do. -/
structure TokenSlot where
  kept : List Token
  old : List Token
  new? : Option (List Token)

namespace TokenSlot

/-- The tokens of a slot as they stand. -/
def tokens (slot : TokenSlot) : List Token := slot.kept ++ slot.old

/-- The tokens of a slot with those that take the place of others. -/
def filled (slot : TokenSlot) : List Token := slot.kept ++ slot.new?.getD slot.old

/-- The edit that puts the text of the new tokens in the place of the old ones. -/
def edit? (slot : TokenSlot) : Option Edit :=
  slot.new?.bind fun new =>
    (span? slot.old).map fun span => ⟨span.start.offset, span.stop.offset, text new⟩

end TokenSlot

variable {source : Text} {slots : List TokenSlot} {front back : List Token}

/-- **What the edits of slots give**: each slot holds the text of its new tokens. -/
theorem substituted_filled
    (hsplit : ofText source = front ++ (slots.flatMap TokenSlot.tokens ++ back))
    (hne : ∀ slot ∈ slots, slot.old ≠ []) :
    Substituted (text front).size (text (slots.flatMap TokenSlot.tokens ++ back))
      (slots.filterMap TokenSlot.edit?) (text (slots.flatMap TokenSlot.filled ++ back)) := by
  induction slots generalizing front with
  | nil => exact .nil _ _
  | cons slot slots ih =>
    obtain ⟨kept, old, new?⟩ := slot
    rw [List.forall_mem_cons] at hne
    obtain ⟨hold, hne⟩ := hne
    have hread : ofText source =
        (front ++ kept) ++ old ++ (slots.flatMap TokenSlot.tokens ++ back) := by
      rw [hsplit, List.flatMap_cons, TokenSlot.tokens]
      simp only [List.append_assoc]
    have hlater := ih hread hne
    have htokens : text ((⟨kept, old, new?⟩ :: slots).flatMap TokenSlot.tokens ++ back) =
        text kept ++ text old ++ text (slots.flatMap TokenSlot.tokens ++ back) := by
      rw [List.flatMap_cons, TokenSlot.tokens]
      simp only [text_append, List.append_assoc]
    have hfilled : text ((⟨kept, old, new?⟩ :: slots).flatMap TokenSlot.filled ++ back) =
        text kept ++ text (new?.getD old) ++ text (slots.flatMap TokenSlot.filled ++ back) := by
      rw [List.flatMap_cons, TokenSlot.filled]
      simp only [text_append, List.append_assoc]
    have hsize : (text (front ++ kept ++ old)).size =
        (text front).size + (text kept).size + (text old).size := by
      simp only [text_append, Text.size_append]
    rw [htokens, hfilled]
    cases new? with
    | none =>
      rw [hsize, Nat.add_assoc, ← Text.size_append] at hlater
      exact hlater.keep
    | some new =>
      obtain ⟨span, hspan⟩ := exists_span? hold
      obtain ⟨hstart, hstop⟩ := offsets_of_span? hread hspan
      have hedit : TokenSlot.edit? ⟨kept, old, some new⟩ =
          some ⟨span.start.offset, span.stop.offset, text new⟩ := by
        rw [TokenSlot.edit?, Option.bind_some, hspan]
        rfl
      rw [List.filterMap_cons_some hedit]
      refine .cons ?_ ?_ ?_
      · rw [hstart, text_append, Text.size_append]
      · rw [hstart, hstop]
      · rw [hstop, ← Text.size_append, ← text_append]
        exact hlater

/-- Edits of slots take some text away. -/
theorem TokenSlot.start_lt_stop {slot : TokenSlot} {e : Edit} (hrun : slot.old <:+: ofText source)
    (hne : slot.old ≠ []) (he : slot.edit? = some e) : e.start < e.stop := by
  obtain ⟨new, hnew, he⟩ := Option.bind_eq_some_iff.mp he
  obtain ⟨span, hspan, rfl⟩ := Option.map_eq_some_iff.mp he
  obtain ⟨before, after, hsplit⟩ := hrun
  obtain ⟨hstart, hstop⟩ := offsets_of_span? hsplit.symm hspan
  have hsize := Text.size_pos_of_ne_nil (text_ne_nil ⟨before, after, hsplit⟩ hne)
  change span.start.offset < span.stop.offset
  omega

/-- **Edits of slots may be carried out together.** -/
theorem apart_filled (hsplit : ofText source = slots.flatMap TokenSlot.tokens ++ back)
    (hne : ∀ slot ∈ slots, slot.old ≠ []) :
    (slots.filterMap TokenSlot.edit?).Pairwise fun a b => a.stop ≤ b.start ∧ a.start < b.stop := by
  have hgiven : Substituted (text []).size _ (slots.filterMap TokenSlot.edit?) _ :=
    substituted_filled (hsplit.trans (List.nil_append _).symm) hne
  have hlong : ∀ e ∈ slots.filterMap TokenSlot.edit?, e.start < e.stop := by
    intro e he
    obtain ⟨slot, hslot, he⟩ := List.mem_filterMap.mp he
    have htokens : slot.tokens <:+: slots.flatMap TokenSlot.tokens := by
      rw [List.flatMap_def]
      exact List.infix_of_mem_flatten (List.mem_map_of_mem hslot)
    have hrun : slot.old <:+: ofText source := by
      rw [hsplit]
      exact ((List.suffix_append slot.kept slot.old).isInfix.trans htokens).trans
        (List.prefix_append _ back).isInfix
    exact TokenSlot.start_lt_stop hrun (hne slot hslot) he
  refine hgiven.pairwise.imp_of_mem fun {a b} ha hb hab => ⟨hab, ?_⟩
  have ha := hlong a ha
  have hb := hlong b hb
  omega

end SheetLint.Edit
