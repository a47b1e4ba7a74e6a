import SheetLint.Proofs.Rule.Respacing
import SheetLint.Proofs.Rule.Spacing
import SheetLint.Proofs.Tree.Defects

/-!
# What the rule about spaces in selectors does to the words of a text

Its fixes put one space in front of an opening brace and behind a comma, and take the whitespace in
front of a comma away. A comma ends by itself, and so does what stands in front of a brace or of
whitespace, so the words only get other whitespace.

Results:
* `SelectorSpacing.respaces`: the fixes of the rule put other whitespace between words.
-/

namespace SheetLint

open Tokens

variable {source : Text} {front run content ts back selectors : List Token} {t next : Token}
  {f : Finding}

namespace SelectorSpacing

theorem respaces_brace (h : ofText source = front ++ (run ++ t :: back)) (hrun : IsSpace run)
    (hbrace : t.isPunct '\x7b' = true) (hfront : (∃ t ∈ front, t.isWhitespace = false) ∨ run = [])
    (hf : f ∈ braceFinding run t) : f.Respaces ['\x7b', ','] source := by
  unfold braceFinding at hf
  split at hf
  · cases hf
  · rw [List.mem_singleton.mp hf]
    rintro fix ⟨⟩ e he
    rw [List.mem_singleton.mp he]
    refine Edit.spacesOut_replaceRun h hrun ⟨t, rfl, Piece.isWhitespace_of_isPunct hbrace⟩ hfront
      (.inr ⟨t, rfl, .inl hbrace⟩) ?_ (by simp) (by simp)
      (.inr (.inr ⟨t, rfl, '\x7b', by simp, hbrace⟩))
    rintro _ ⟨⟩
    rfl

/-- The whitespace in front of a comma, behind some word. -/
theorem respaces_before_comma {comma : Token} (h : ofText source = front ++ comma :: back)
    (hcomma : comma.isPunct ',' = true) (hlast : ∀ t ∈ before, t ∈ front.getLast?)
    (hword : ∃ t ∈ front, t.isWhitespace = false) (hf : f ∈ spaceBeforeComma before) :
    f.Respaces ['\x7b', ','] source := by
  unfold spaceBeforeComma at hf
  split at hf
  · rename_i t
    split at hf
    · rename_i hspace
      rw [List.mem_singleton.mp hf]
      rintro fix ⟨⟩ e he
      rw [List.mem_singleton.mp he]
      obtain ⟨words, rfl⟩ := List.getLast?_eq_some_iff.mp (hlast t rfl)
      have hwords : ∃ u ∈ words, u.isWhitespace = false := by
        obtain ⟨u, hu, hu'⟩ := hword
        rcases List.mem_append.mp hu with hu | hu
        · exact ⟨u, hu, hu'⟩
        · rw [List.mem_singleton.mp hu, hspace] at hu'
          cases hu'
      have hsplit : ofText source = words ++ ([t] ++ comma :: back) := by
        rw [h, List.append_assoc]
      change (Edit.replaceRun [t] comma.start []).SpacesOut _ source
      refine Edit.spacesOut_replaceRun hsplit (by simpa [IsSpace] using hspace) ⟨comma, rfl, Piece.isWhitespace_of_isPunct hcomma⟩ (.inl hwords) (.inl ?_) (by simp) (by simp)
        (fun _ => ⟨comma, rfl, hcomma⟩) (.inr (.inr ⟨comma, rfl, ',', by simp, hcomma⟩))
      -- in front of whitespace stands a word
      obtain ⟨u, hu, -⟩ := hwords
      obtain ⟨more, last, rfl⟩ := (List.eq_nil_or_concat' words).resolve_left (List.ne_nil_of_mem hu)
      refine ⟨last, by simp, Bool.eq_false_iff.mpr fun hblank => ?_, by simp⟩
      rw [List.append_assoc] at hsplit
      have hlegible := (legible_of_ofTextAt (s := source) hsplit).of_append
      rw [Legible.isWhitespace_of_space hlegible hblank] at hspace
      cases hspace
    · cases hf
  · cases hf

/-- The whitespace behind a comma that is not the last token. -/
theorem respaces_after_comma {comma after : Token}
    (h : ofText source = front ++ comma :: after :: back) (hcomma : comma.isPunct ',' = true)
    (hback : after.isWhitespace = true → back ≠ []) (hf : f ∈ spaceAfterComma comma after) :
    f.Respaces ['\x7b', ','] source := by
  have hparts (run content : List Token) : MayPart (front ++ [comma]) run content :=
    .inl ⟨comma, by simp, Piece.isWhitespace_of_isPunct hcomma,
      fun _ => by rw [Token.endsAnywhere, hcomma, Bool.or_true]⟩
  have hwords : ∃ t ∈ front ++ [comma], t.isWhitespace = false :=
    ⟨comma, by simp, Piece.isWhitespace_of_isPunct hcomma⟩
  have hends : ∀ last ∈ (front ++ [comma]).getLast?, last.isUnending = false := by
    simpa using Token.isUnending_of_isPunct (by decide) hcomma
  unfold spaceAfterComma at hf
  simp only at hf
  split at hf
  · rename_i hspace
    split at hf
    · cases hf
    · rw [List.mem_singleton.mp hf]
      rintro fix ⟨⟩ e he
      rw [List.mem_singleton.mp he]
      obtain ⟨next, more, rfl⟩ := List.exists_cons_of_ne_nil (hback hspace)
      have hsplit : ofText source = (front ++ [comma]) ++ ([after] ++ next :: more) := by
        rw [h, List.append_assoc]
        rfl
      have hnext : next.isWhitespace = false :=
        Legible.isWhitespace_of_space (legible_of_ofTextAt (s := source) hsplit).of_append hspace
      change (Edit.replaceRun [after] next.start [' ']).SpacesOut _ source
      exact Edit.spacesOut_replaceRun hsplit (by simpa [IsSpace] using hspace) ⟨next, rfl, hnext⟩ (.inl hwords) (hparts _ _) (by simp) (by simp) (by simp)
        (.inr (.inl hends))
  · rename_i hspace
    rw [List.mem_singleton.mp hf]
    rintro fix ⟨⟩ e he
    rw [List.mem_singleton.mp he]
    have hsplit : ofText source = (front ++ [comma]) ++ ([] ++ after :: back) := by
      rw [h, List.append_assoc]
      rfl
    change (Edit.replaceRun [] comma.stop [' ']).SpacesOut _ source
    refine Edit.spacesOut_replaceRun hsplit (by simp [IsSpace]) ⟨after, rfl, Bool.eq_false_iff.mpr hspace⟩ (.inl hwords) (hparts _ _) ?_ (by simp) (by simp)
      (.inr (.inl hends))
    rintro _ ⟨⟩
    rw [start_of_ofText hsplit, stop_of_ofText h]
    simp

theorem respaces_comma {depth : Nat} {before : Option Token}
    (h : ofText source = front ++ (ts ++ back)) (hlast : ∀ t ∈ before, t ∈ front.getLast?)
    (hword : (∃ t ∈ front, t.isWhitespace = false) ∨ before = none ∧ StartsWithWord ts)
    (hend : ∀ t ∈ ts.getLast?, t.isWhitespace = false)
    (hf : f ∈ commaFindings depth before ts) : f.Respaces ['\x7b', ','] source := by
  fun_induction commaFindings depth before ts generalizing front with
  | case1 | case2 => cases hf
  | case3 depth before t next rest ih =>
    rcases List.mem_append.mp hf with hhere | hlater
    · split at hhere
      · rename_i hcomma
        rw [Bool.and_eq_true] at hcomma
        rcases List.mem_append.mp hhere with hspace | hspace
        · cases hbefore : before with
          | none =>
            rw [hbefore] at hspace
            cases hspace
          | some u =>
            have hwords := hword.resolve_right fun hnone => by
              rw [hbefore] at hnone
              cases hnone.1
            exact respaces_before_comma h hcomma.2 hlast hwords hspace
        · refine respaces_after_comma h hcomma.2 (fun hblank hnil => ?_) hspace
          rw [(List.append_eq_nil_iff.mp hnil).1] at hend
          have hnext := hend next (by simp)
          rw [hblank] at hnext
          cases hnext
      · cases hhere
    · have hpassed : ofText source = (front ++ [t]) ++ (next :: rest ++ back) := by
        rw [h]
        simp
      refine ih hpassed (by simp) (.inl ?_) (fun u hu => ?_) hlater
      · rcases hword with ⟨u, hu, hu'⟩ | ⟨-, first, hfirst, hfirst'⟩
        · exact ⟨u, List.mem_append_left _ hu, hu'⟩
        · cases hfirst
          exact ⟨t, by simp, hfirst'⟩
      · exact hend u (by rw [List.getLast?_cons_cons]; exact hu)

/-- The head of a rule set, which starts with a word if there is one in it. -/
theorem respaces_ruleSet {opening : Token} {more : List Token}
    (h : ofText source = front ++ (selectors ++ opening :: back))
    (hhead : StartsWithWord (selectors ++ more)) (hopening : opening.isPunct '\x7b' = true)
    (hf : f ∈ headFindings (.ruleSet selectors) opening) : f.Respaces ['\x7b', ','] source := by
  rcases List.mem_append.mp hf with hspacing | hpseudo
  · rcases List.mem_append.mp hspacing with hbrace | hcomma
    · have hcut := dropEndWhile_append_takeEndWhile Token.isWhitespace selectors
      rw [← hcut, List.append_assoc, ← List.append_assoc front] at h
      refine respaces_brace h (isSpace_takeEndWhile _) hopening ?_ hbrace
      cases selectors with
      | nil => exact .inr rfl
      | cons first rest =>
        obtain ⟨_, ⟨⟩, hword⟩ := hhead
        exact .inl ⟨first, List.mem_append_right _ (mem_dropEndWhile List.mem_cons_self hword), hword⟩
    · have hcut := dropEndWhile_append_takeEndWhile Token.isTrivia selectors
      rw [← hcut, List.append_assoc] at h
      cases hcore : dropEndWhile Token.isTrivia selectors with
      | nil =>
        rw [hcore] at hcomma
        cases hcomma
      | cons first rest =>
        rw [hcore, List.cons_append] at hcut
        rw [← hcut] at hhead
        obtain ⟨_, ⟨⟩, hword⟩ := hhead
        refine respaces_comma h (by simp) (.inr ⟨rfl, ?_⟩) (fun t ht => ?_) hcomma
        · rw [hcore]
          exact ⟨first, rfl, hword⟩
        · have htrivia := of_mem_getLast?_dropEndWhile ht
          rw [Token.isTrivia, Bool.or_eq_false_iff] at htrivia
          exact htrivia.1
  · intro fix hfix
    rw [fix_of_mem_pseudoFindings hpseudo] at hfix
    cases hfix

/-- The head of an at-rule, which starts with its keyword. -/
theorem respaces_atRule {keyword opening : Token} {prelude : List Token}
    (h : ofText source = front ++ (keyword :: prelude ++ opening :: back))
    (hkeyword : keyword.isWhitespace = false) (hopening : opening.isPunct '\x7b' = true)
    (hf : f ∈ headFindings (.atRule keyword prelude) opening) :
    f.Respaces ['\x7b', ','] source := by
  have hcut := dropEndWhile_append_takeEndWhile Token.isWhitespace prelude
  rw [← hcut, ← List.cons_append, List.append_assoc, ← List.append_assoc front] at h
  exact respaces_brace h (isSpace_takeEndWhile _) hopening (.inl ⟨keyword, by simp, hkeyword⟩) hf

/-- **The rule about spaces in selectors puts other whitespace between words.** -/
theorem respaces : Check.Respaces ['\x7b', ','] check := by
  intro source f hf
  obtain ⟨n, hn, hf⟩ := List.mem_flatMap.mp hf
  cases n with
  | statement => cases hf
  | block leading level depth head opening children trailing closing =>
    obtain ⟨before, after, hsplit⟩ := Stylesheet.tokens_isInfix_of_mem_nodes hn
    have hdelimited := Stylesheet.delimited_of_mem_nodes hn
    have hopening := (hdelimited.body _ rfl).opening
    have hhead : StartsWithWord (head.tokens ++ (opening :: (Node.tokensOfAll children ++ trailing
        ++ closing.toList))) := by
      have hcontent := hdelimited.head
      simpa [Node.content] using hcontent
    have hhere : ofText source = (before ++ leading) ++ (head.tokens
        ++ opening :: (Node.tokensOfAll children ++ trailing ++ closing.toList ++ after)) := by
      rw [← hsplit, Node.tokens]
      simp only [List.append_assoc, List.cons_append, List.nil_append]
    cases head with
    | ruleSet selectors => exact respaces_ruleSet hhere hhead hopening hf
    | atRule keyword prelude =>
      obtain ⟨_, ⟨⟩, hword⟩ := hhead
      exact respaces_atRule hhere hword hopening hf

end SelectorSpacing

end SheetLint
