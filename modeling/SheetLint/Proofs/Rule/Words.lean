import SheetLint.Proofs.Rule.Lines
import SheetLint.Proofs.Rule.Respacing
import SheetLint.Proofs.Rule.Rewriting
import SheetLint.Proofs.Token.Ink
import SheetLint.Proofs.Tree.Siblings

/-!
# What fixes do to the words of a text

The rule about the lines of rule sets puts other whitespace in front of a node or a closing brace.
What stands in front of that is closed, or a closing brace comes next, so the edit only respaces the
words. The rule about zero lengths takes the unit of a number away, and with it ink.

Results:
* `DeclarationGrouping.respaces`: the rule about lines puts other whitespace between words.
* `ZeroUnit.losesInk`: the rule about zero lengths takes ink away.
-/

namespace SheetLint

open Tokens

/-! ## Whitespace replaced -/

namespace Edit

/-- Whether an edit puts something other than a line feed right behind a line comment or a
backslash. -/
def Swallows (ts : List Token) (e : Edit) : Prop :=
  e.replacement.head? ≠ some '\n'
    ∧ ∃ t ∈ ts, t.stop = e.start ∧ (t.kind = .lineComment ∨ ['\\'] <:+ t.text)

instance (ts : List Token) (e : Edit) : Decidable (e.Swallows ts) :=
  inferInstanceAs (Decidable (_ ∧ _))

theorem IsSwallowed.swallows {source : Text} {e : Edit} (h : e.IsSwallowed source) :
    e.Swallows (ofText source) := by
  obtain ⟨hhead, t, ht, hstop, hends⟩ := h
  refine ⟨hhead, t, ht, hstop, ?_⟩
  rcases Bool.or_eq_true_iff.mp hends with hkind | hlone
  · exact .inl (beq_iff_eq.mp hkind)
  · exact .inr (by rw [beq_iff_eq.mp hlone])

end Edit

variable {source : Text} {front run content : List Token} {c : Char}

/-! ## The lines of rule sets -/

namespace DeclarationGrouping

open Node

variable {f : Finding} {span : Span} {m m' : String} {n : Node} {ns : List Node}
  {back trailing : List Token} {closing : Token} {marks : List Char}

theorem respaces_spacing (h : ofText source = front ++ (run ++ content)) (hrun : IsSpace run)
    (hcontent : StartsWithWord content) (hfront : ∃ t ∈ front, t.isWhitespace = false)
    (hapart : Apart front content) (hoffset : ∀ t ∈ content.head?, span.start.offset = t.start)
    (hmarks : c = '\n' ∨ c = ' ' ∧ ((∀ last ∈ front.getLast?, last.isUnending = false)
      ∨ ∃ t ∈ content.head?, ∃ c ∈ marks, t.isPunct c = true)) :
    (spacingFinding span m m' run [c]).Respaces marks source := by
  rintro fix ⟨⟩ e he
  rw [List.mem_singleton.mp he]
  refine Edit.spacesOut_replaceRun h hrun hcontent (.inl hfront) (hapart.mayPart h hcontent) hoffset
    ?_ (by simp) (hmarks.imp (fun hc => by rw [hc]; rfl) And.right)
  rw [List.forall_mem_singleton]
  exact hmarks.elim .inr fun hspace => .inl hspace.1

theorem start_of_span? {ts : List Token} {first : Token} (h : span? ts = some span)
    (hfirst : first ∈ ts.head?) : span.start.offset = first.start := by
  unfold span? at h
  rw [hfirst] at h
  split at h
  · rename_i hhead _
    cases h
    cases hhead
    rfl
  · cases h

/-- The whitespace in front of the first of some nodes. -/
theorem respaces_head (h : Placed source front (n :: ns) back) (hspan : span? n.content = some span)
    (hc : c = '\n' ∨ c = ' ' ∧ ∀ last ∈ front.getLast?, last.isUnending = false) :
    (spacingFinding span m m' n.leading [c]).Respaces marks source := by
  have hn := h.mem n List.mem_cons_self
  have hsplit : ofText source =
      front ++ (n.leading ++ (n.content ++ (tokensOfAll ns ++ back))) := by
    rw [h.split, tokensOfAll, n.tokens_eq_leading_append_content]
    simp only [List.append_assoc]
  obtain ⟨first, hfirst, hword⟩ := (Stylesheet.delimited_of_mem_nodes hn).head
  refine respaces_spacing hsplit (Parse.isSpace_leading hn) ?_ h.word
    ((h.apart n rfl).append _) ?_ (hc.imp_right (And.imp_right .inl))
  · exact StartsWithWord.append ⟨first, hfirst, hword⟩ _
  · intro t ht
    rw [List.head?_append, hfirst] at ht
    cases ht
    exact start_of_span? hspan hfirst

/-- The whitespace in front of a closing brace. -/
theorem respaces_closing (h : Placed source front ns (trailing ++ closing :: back))
    (htrailing : IsSpace trailing) (hclosing : closing.isPunct '\x7d' = true)
    (hc : c = '\n' ∨ c = ' ' ∧ '\x7d' ∈ marks) :
    (spacingFinding closing.span m m' trailing [c]).Respaces marks source := by
  have hend := h.behind
  refine respaces_spacing hend.split htrailing ⟨closing, rfl, ?_⟩ hend.word
    (.inr ⟨closing, rfl, hclosing⟩) ?_
    (hc.imp_right (And.imp_right fun hmark => .inr ⟨closing, rfl, _, hmark, hclosing⟩))
  · exact Piece.isWhitespace_of_isPunct hclosing
  · rintro _ ⟨⟩
    rfl

theorem respaces_singleLine {opening : Token}
    (h : Placed source (front ++ [opening]) [n] (trailing ++ closing :: back))
    (hopening : opening.isPunct '\x7b' = true) (htrailing : IsSpace trailing)
    (hclosing : closing.isPunct '\x7d' = true) (hf : f ∈ singleLineFindings n trailing closing) :
    f.Respaces ['\x7d'] source := by
  rcases List.mem_append.mp hf with hfirst | hlast
  · split at hfirst
    · rename_i span hspan
      split at hfirst
      · cases hfirst
      · rw [List.mem_singleton.mp hfirst]
        have hends := Token.isUnending_of_isPunct (by decide) hopening
        exact respaces_head h hspan (.inr ⟨rfl, by simpa using hends⟩)
    · cases hfirst
  · split at hlast
    · cases hlast
    · rw [List.mem_singleton.mp hlast]
      exact respaces_closing h htrailing hclosing (.inr ⟨rfl, by simp⟩)

theorem respaces_line {before : Option Node} (h : Placed source front ns back)
    (hf : f ∈ lineFindings before ns) : f.Respaces marks source := by
  induction ns generalizing before front with
  | nil => cases hf
  | cons n ns ih =>
    rcases List.mem_append.mp hf with hfirst | hlater
    · split at hfirst
      · rename_i span hspan
        split at hfirst
        · cases hfirst
        · rw [List.mem_singleton.mp hfirst]
          exact respaces_head h hspan (.inl rfl)
      · cases hfirst
    · exact ih h.tail hlater

theorem respaces_multiLine (h : Placed source front ns (trailing ++ closing :: back))
    (htrailing : IsSpace trailing) (hclosing : closing.isPunct '\x7d' = true)
    (hf : f ∈ multiLineFindings ns trailing closing) : f.Respaces marks source := by
  unfold multiLineFindings at hf
  split at hf
  · cases hf
  · rcases List.mem_append.mp hf with hlines | hlast
    · exact respaces_line h hlines
    · split at hlast
      · cases hlast
      · rw [List.mem_singleton.mp hlast]
        exact respaces_closing h htrailing hclosing (.inl rfl)

theorem eq_singleton_of_onlyDeclaration? (h : onlyDeclaration? ns = some n) : ns = [n] := by
  unfold onlyDeclaration? at h
  split at h
  · split at h
    · cases h
      rfl
    · cases h
  · cases h

/-- **The rule about lines puts other whitespace between words**, and only line breaks where it puts
no rule on one line. -/
theorem respaces (singleLine : Bool) :
    Check.Respaces (if singleLine then ['\x7d'] else []) (check singleLine) := by
  intro source f hf
  obtain ⟨n, hn, hf⟩ := List.mem_flatMap.mp hf
  split at hf
  · rename_i opening children trailing closing
    obtain ⟨front, back, hplaced⟩ := exists_placed hn
    have htrailing : IsSpace trailing := (Stylesheet.madeOfPieces_of_mem_nodes hn).2
    have hdelimited := (Stylesheet.delimited_of_mem_nodes hn).body _ rfl
    have hclosing := hdelimited.closing closing rfl
    unfold ruleSetFindings at hf
    split at hf
    · rename_i child honly
      split at honly
      · rename_i hsingle
        rw [eq_singleton_of_onlyDeclaration? honly] at hplaced
        rw [if_pos hsingle]
        exact respaces_singleLine hplaced hdelimited.opening htrailing hclosing hf
      · cases honly
    · exact respaces_multiLine hplaced htrailing hclosing hf
  · cases hf

end DeclarationGrouping

/-! ## Units that are dropped -/

/-- Whether the fix of a finding takes more ink than it puts, with each of its edits. -/
def Finding.LosesInk (source : Text) (f : Finding) : Prop :=
  ∀ fix, f.fix = some fix → fix.edits ≠ [] ∧ ∀ e ∈ fix.edits, e.LosesInk source

theorem Text.ink_pos {t : Text} (hc : c ∈ t) (hspace : Scan.isSpace c = false) : 0 < ink t :=
  List.countP_pos_iff.mpr ⟨c, hc, by simp [hspace]⟩

/-- No letter is a space character in one case and not in the other. -/
theorem Text.ink_lower_le (t : Text) : ink (lower t) ≤ ink t := by
  rw [ink, lower, List.countP_map]
  refine List.countP_mono_left fun c _ hlower => ?_
  by_contra hc
  have hspace : Scan.isSpace c = true := by simpa using hc
  have hlower' : Scan.isSpace c.toLower = true := by
    simp only [Scan.isSpace, Bool.or_eq_true, beq_iff_eq] at hspace
    rcases hspace with (((rfl | rfl) | rfl) | rfl) | rfl <;> rfl
  simp [hlower'] at hlower

/-- A number has a digit in front of its unit. -/
theorem Number.exists_front {t : Text} {n : Number} (h : ofText? t = some n) :
    ∃ front, t = front ++ n.unit ∧ 0 < Text.ink front := by
  obtain ⟨parts, hparts, rfl⟩ := Option.map_eq_some_iff.mp h
  obtain ⟨sign, hsign⟩ : ∃ sign,
      t = sign ++ if (t.head? == some '-' || t.head? == some '+') = true then t.drop 1 else t := by
    split
    · exact ⟨t.take 1, (List.take_append_drop 1 t).symm⟩
    · exact ⟨[], rfl⟩
  generalize (if (t.head? == some '-' || t.head? == some '+') = true then t.drop 1 else t) =
    unsigned at hparts hsign ⊢
  refine ⟨sign ++ unsigned.takeWhile isMagnitudeChar, ?_, ?_⟩
  · rw [List.append_assoc, List.takeWhile_append_dropWhile]
    exact hsign
  · have hne : unsigned.takeWhile isMagnitudeChar ≠ [] := by
      intro hnil
      rw [hnil] at hparts
      cases hparts
    obtain ⟨c, w, hc⟩ := List.exists_cons_of_ne_nil hne
    have hmem : c ∈ unsigned.takeWhile isMagnitudeChar := by
      rw [hc]
      exact List.mem_cons_self
    refine Text.ink_pos (List.mem_append_right sign hmem) (Bool.eq_false_iff.mpr fun hspace => ?_)
    -- a space character is neither digit nor dot
    have hmagnitude := List.mem_takeWhile_imp hmem
    simp only [Scan.isSpace, Bool.or_eq_true, beq_iff_eq] at hspace
    rcases hspace with (((rfl | rfl) | rfl) | rfl) | rfl <;> cases hmagnitude

namespace ZeroUnit

theorem ink_unit_pos {unit : Text} (h : isOneOf lengthUnits unit.lower = true) : 0 < unit.ink := by
  have hunits : ∀ u ∈ lengthUnits, 0 < Text.ink u.toList := by decide
  have hlower := hunits _ (List.contains_iff_mem.mp h)
  rw [String.toList_ofList] at hlower
  exact Nat.lt_of_lt_of_le hlower (Text.ink_lower_le unit)

theorem losesInk_number {calls : List Call} {i : Nat} {t : Token} {f : Finding}
    (ht : t ∈ ofText source) (hf : f ∈ numberFinding calls i t) : f.LosesInk source := by
  unfold numberFinding at hf
  split at hf
  · rename_i n hn
    split at hf
    · rename_i htest
      rw [List.mem_singleton.mp hf]
      rintro fix ⟨⟩
      refine ⟨by simp [Fix.replace], fun e he old hold => ?_⟩
      rw [List.mem_singleton.mp he] at hold ⊢
      obtain ⟨before, after, hsplit⟩ := List.append_of_mem ht
      have hhere : Edit.Replaces source ⟨t.start, t.stop, ['0']⟩ t.text :=
        ⟨_, _, text_eq_of_ofText hsplit, start_of_ofText hsplit, stop_of_ofText hsplit⟩
      rw [hold.unique hhere]
      split at hn
      · obtain ⟨front, htext, hfront⟩ := Number.exists_front hn
        rw [Bool.and_eq_true] at htest
        have hunit := ink_unit_pos htest.2
        have hzero : Text.ink ['0'] = 1 := rfl
        rw [htext, Text.ink_append, hzero]
        omega
      · cases hn
    · cases hf
  · cases hf

/-- **The rule about zero lengths takes ink away.** -/
theorem losesInk {f : Finding} (hf : f ∈ check source (Parse.ofText source).sheet) :
    f.LosesInk source := by
  obtain ⟨d, hd, hf⟩ := List.mem_flatMap.mp hf
  have htokens := Parse.tokens_isInfix_of_declaration hd
  unfold declarationFindings at hf
  split at hf
  · cases hf
  · obtain ⟨⟨t, i⟩, hti, hf⟩ := List.mem_flatMap.mp hf
    refine losesInk_number (htokens.subset ?_) hf
    simp [Declaration.tokens, List.fst_mem_of_mem_zipIdx hti]

end ZeroUnit

end SheetLint
