import SheetLint.Proofs.Edit.Respacing
import SheetLint.Proofs.Rule.FixesApply
import SheetLint.Proofs.Tree.Siblings

/-!
# Rules that put other whitespace between words

Some rules only put another text in the place of a run of whitespace, which may be empty. Whether the
words next to it stay apart is told from the last token in front of the run and the first one behind
it. So is whether the new whitespace may be swallowed: each rule does so in front of some characters
only, and in a text in which none of them stands behind a word that goes on, nothing is swallowed.

Results:
* `Edit.isRespacing_replaceRun`: a run of whitespace replaced between words.
* `Edit.spacesOut_replaceRun`: where the new whitespace may be swallowed.
-/

namespace SheetLint

open Tokens

variable {source put : Text} {front run content : List Token} {last next : Token} {offset : Nat}
  {marks : List Char}

/-! ## Whitespace replaced -/

/-- Whether other whitespace may stand in the place of a run: the token in front of it is no
whitespace, and ends by itself if the run is empty, or a brace comes behind the run. -/
def Tokens.MayPart (front run content : List Token) : Prop :=
  (∃ last ∈ front.getLast?, last.isWhitespace = false ∧ (run = [] → last.endsAnywhere = true))
    ∨ ∃ brace ∈ content.head?, brace.isPunct '\x7b' = true ∨ brace.isPunct '\x7d' = true

/-- An insertion in front of the first word of a text. -/
theorem Edit.isRespacing_of_lead (h : ofText source = front ++ next :: content)
    (hfront : ¬ ∃ t ∈ front, t.isWhitespace = false) (hword : next.isWhitespace = false)
    (hoffset : offset = next.start) (hput : ∀ c ∈ put, c = ' ' ∨ c = '\n') :
    (Edit.replaceRun [] offset put).IsRespacing source := by
  refine .inr ⟨front, next, content, h, fun t ht => ?_, hword, hoffset.trans (start_of_ofText h), rfl,
    hput⟩
  by_contra ht'
  exact hfront ⟨t, ht, Bool.eq_false_iff.mpr ht'⟩

/-- In front of a run that other whitespace may stand in the place of, whitespace comes only if a brace
stands behind the run. -/
theorem Tokens.MayPart.space_eq_nil {before space : List Token} {last : Token}
    (h : MayPart (before ++ last :: space) run content) (hspace : IsSpace space)
    (hbrace : ∀ t ∈ content.head?, t.isPunct '\x7b' = false ∧ t.isPunct '\x7d' = false) :
    space = [] := by
  rcases h with ⟨t, ht, hword, -⟩ | ⟨brace, hhead, hpunct⟩
  · rcases List.eq_nil_or_concat' space with hnil | ⟨more, u, rfl⟩
    · exact hnil
    · rw [← List.cons_append, ← List.append_assoc, List.getLast?_concat] at ht
      cases ht
      rw [hspace t (by simp)] at hword
      cases hword
  · rw [(hbrace brace hhead).1, (hbrace brace hhead).2] at hpunct
    simp at hpunct

/-- Words between which nothing stands are kept apart by what they are. -/
theorem Tokens.MayPart.apart {before : List Token} {last : Token}
    (h : MayPart (before ++ [last]) [] (next :: content)) :
    last.endsAnywhere = true ∨ next.isPunct '\x7b' = true ∨ next.isPunct '\x7d' = true := by
  rcases h with ⟨t, ht, -, hends⟩ | ⟨brace, hhead, hbrace⟩
  · obtain rfl : last = t := by simpa using ht
    exact .inl (hends rfl)
  · cases hhead
    exact .inr hbrace

/-- An edit that puts another text in the place of a run of whitespace, behind words that may stand in
front of what follows, or where there is none. -/
theorem Edit.isRespacing_replaceRun (h : ofText source = front ++ (run ++ content))
    (hrun : IsSpace run) (hcontent : StartsWithWord content)
    (hfront : (∃ t ∈ front, t.isWhitespace = false) ∨ run = []) (hparts : MayPart front run content)
    (hoffset : ∀ t ∈ content.head?, offset = t.start) (hput : ∀ c ∈ put, c = ' ' ∨ c = '\n')
    (hcomma : put = [] → ∃ comma ∈ content.head?, comma.isPunct ',' = true) :
    (Edit.replaceRun run offset put).IsRespacing source := by
  obtain ⟨next, hnext, hword⟩ := hcontent
  obtain ⟨back, rfl⟩ := List.head?_eq_some_iff.mp hnext
  by_cases hwords : ∃ t ∈ front, t.isWhitespace = false
  swap
  · obtain rfl := hfront.resolve_left hwords
    exact isRespacing_of_lead h hwords hword (hoffset next rfl) hput
  obtain ⟨before, last, space, rfl, hlast, hspace⟩ := exists_last_word hwords
  have hread : ofText source = before ++ last :: ((space ++ run) ++ next :: back) := by
    rw [h]
    simp
  have hsplit : ofText source = (before ++ last :: space) ++ run ++ (next :: back) := by
    rw [h]
    simp
  have hstart : offset = (text (before ++ last :: space ++ run)).size :=
    (hoffset next rfl).trans (start_of_ofText hsplit)
  rw [Fix.replaceRun_eq hsplit fun hnone => by rw [hstart, hnone, List.append_nil]]
  refine .inl ⟨before, last, space ++ run, next, back, text space, text run,
    ⟨hread, List.forall_mem_append.mpr ⟨hspace, hrun⟩, hlast, hword⟩, text_append _ _, ?_, rfl, hput,
    ?_, fun hpunct => ?_, fun hnone => ?_⟩
  · rw [text_append, text_cons, List.append_assoc]
  · intro hnone
    obtain ⟨comma, hhead, hpunct⟩ := hcomma hnone
    cases hhead
    exact hpunct
  · rw [hparts.space_eq_nil hspace ?_, text_nil]
    rintro _ ⟨⟩
    have htext := Token.text_of_isPunct hpunct
    constructor <;>
      · refine Bool.eq_false_iff.mpr fun hbrace => ?_
        rw [Token.text_of_isPunct hbrace] at htext
        cases htext
  · obtain ⟨rfl, rfl⟩ := List.append_eq_nil_iff.mp hnone
    exact hparts.apart

theorem Token.isWhitespace_of_isClosed {t : Token} (h : t.isClosed = true) : t.isWhitespace = false := by
  refine Bool.eq_false_iff.mpr fun hblank => ?_
  rw [isWhitespace, beq_iff_eq] at hblank
  simp [isClosed, isPunct, hblank] at h

/-- Behind a line comment stands whitespace, so runs that stand apart may have any between them. -/
theorem Tokens.Apart.mayPart (h : ofText source = front ++ (run ++ content))
    (hcontent : StartsWithWord content) (hapart : Apart front content) :
    MayPart front run content := by
  rcases hapart with ⟨last, hlast, hclosed⟩ | ⟨brace, hhead, hbrace⟩
  · obtain ⟨before, rfl⟩ := List.getLast?_eq_some_iff.mp hlast
    obtain ⟨next, hnext, hword⟩ := hcontent
    obtain ⟨back, rfl⟩ := List.head?_eq_some_iff.mp hnext
    have hlegible : Legible (last :: (run ++ next :: back)) := by
      have hsplit : ofText source = before ++ last :: (run ++ next :: back) := by
        rw [h]
        simp
      exact (legible_of_ofTextAt (s := source) hsplit).of_append
    refine .inl ⟨last, hlast, ?_, fun hnil => ?_⟩
    · rcases hclosed with hclosed | hline
      · exact Token.isWhitespace_of_isClosed hclosed
      · rw [Token.isWhitespace, hline]
        rfl
    · rcases hclosed with hclosed | hline
      · rw [Token.endsAnywhere, hclosed, Bool.true_or]
      · rw [hnil] at hlegible
        have hends := Legible.isUnending_of_word hlegible hword
        rw [Token.isUnending, hline] at hends
        cases hends
  · exact .inr ⟨brace, hhead, .inr hbrace⟩

/-! ## Whitespace that is swallowed -/

/-- Whether none of some characters stands behind a word that goes on. -/
def Tokens.Guards (marks : List Char) (ts : List Token) : Prop :=
  (words ts).IsChain fun t next => t.isUnending = true → ∀ c ∈ marks, next.isPunct c = false

/-- Whether an edit puts other whitespace between words, swallowed only where one of some characters
stands behind a word that goes on. -/
structure Edit.SpacesOut (marks : List Char) (source : Text) (e : Edit) : Prop where
  respaces : e.IsRespacing source
  guarded : Guards marks (ofText source) → ¬ e.IsSwallowed source

/-- Whether the fix of a finding puts other whitespace between words. -/
def Finding.Respaces (marks : List Char) (source : Text) (f : Finding) : Prop :=
  ∀ fix, f.fix = some fix → ∀ e ∈ fix.edits, e.SpacesOut marks source

/-- Whether all that a check fixes is the whitespace between words. -/
def Check.Respaces (marks : List Char) (check : Check) : Prop :=
  ∀ source, ∀ f ∈ check source (Parse.ofText source).sheet, f.Respaces marks source

/-- Texts without more characters behind words that go on are among those without fewer. -/
theorem Tokens.Guards.of_subset {marks' : List Char} {ts : List Token} (h : Guards marks' ts)
    (hsub : marks ⊆ marks') : Guards marks ts :=
  List.IsChain.imp (fun _ _ hguard hends c hc => hguard hends c (hsub hc)) h

@[simp] theorem Tokens.guards_nil (ts : List Token) : Guards [] ts :=
  List.isChain_iff_forall_rel_of_append_cons_cons.mpr fun _ _ _ _ _ _ _ hc => nomatch hc

theorem Check.Respaces.of_subset {marks' : List Char} {check : Check} (h : check.Respaces marks)
    (hsub : marks ⊆ marks') : check.Respaces marks' := fun source f hf fix hfix e he =>
  have hspaces := h source f hf fix hfix e he
  ⟨hspaces.respaces, fun hguards => hspaces.guarded (hguards.of_subset hsub)⟩

theorem Token.isUnending_of_isPunct {t : Token} {c : Char} (hc : c ≠ '\\') (h : t.isPunct c = true) :
    t.isUnending = false := by
  have htext := text_of_isPunct h
  rw [isPunct, Bool.and_eq_true, beq_iff_eq] at h
  simp [isUnending, h.1, htext, hc]

/-- An edit of a run is swallowed by the token in front of the run. -/
theorem Edit.exists_last_of_isSwallowed (h : ofText source = front ++ (run ++ next :: content))
    (hoffset : offset = next.start) (hswallowed : (Edit.replaceRun run offset put).IsSwallowed source) :
    put.head? ≠ some '\n' ∧ ∃ last ∈ front.getLast?, last.isUnending = true := by
  have hsplit : ofText source = front ++ run ++ (next :: content) := by rw [h, List.append_assoc]
  have hstart : offset = (text (front ++ run)).size := hoffset.trans (start_of_ofText hsplit)
  rw [Fix.replaceRun_eq hsplit fun hnone => by rw [hstart, hnone, List.append_nil]] at hswallowed
  obtain ⟨hhead, t, ht, hstop, hends⟩ := hswallowed
  simp only at hhead hstop
  refine ⟨hhead, ?_⟩
  have hlt := (start_lt_stop ht).2
  rcases List.eq_nil_or_concat' front with rfl | ⟨more, last, rfl⟩
  · rw [text_nil, Text.size_nil] at hstop
    omega
  · refine ⟨last, by simp, ?_⟩
    have hne : last.text ≠ [] := ne_nil_of_mem_ofText (t := source) (by rw [h]; simp)
    have hsize := Text.size_pos_of_ne_nil hne
    rw [text_append, text_cons, text_nil, List.append_nil, Text.size_append] at hstop
    rw [h, List.mem_append, List.mem_append, List.mem_singleton] at ht
    rcases ht with (hmore | rfl) | hbehind
    · have hle := stop_le_of_mem_front (h.trans (List.append_assoc _ _ _)) hmore
      omega
    · exact hends
    · have hle := le_start_of_mem_back h hbehind
      rw [text_append, text_cons, text_nil, List.append_nil, Text.size_append] at hle
      omega

/-- **Whitespace replaced between words**, swallowed only in front of one of some characters, if it is
no line feed. -/
theorem Edit.spacesOut_replaceRun (h : ofText source = front ++ (run ++ content))
    (hrun : IsSpace run) (hcontent : StartsWithWord content)
    (hfront : (∃ t ∈ front, t.isWhitespace = false) ∨ run = []) (hparts : MayPart front run content)
    (hoffset : ∀ t ∈ content.head?, offset = t.start) (hput : ∀ c ∈ put, c = ' ' ∨ c = '\n')
    (hcomma : put = [] → ∃ comma ∈ content.head?, comma.isPunct ',' = true)
    (hmarks : put.head? = some '\n' ∨ (∀ last ∈ front.getLast?, last.isUnending = false)
      ∨ ∃ t ∈ content.head?, ∃ c ∈ marks, t.isPunct c = true) :
    (Edit.replaceRun run offset put).SpacesOut marks source := by
  refine ⟨isRespacing_replaceRun h hrun hcontent hfront hparts hoffset hput hcomma,
    fun hguards hswallowed => ?_⟩
  obtain ⟨next, hnext, hword⟩ := hcontent
  obtain ⟨back, rfl⟩ := List.head?_eq_some_iff.mp hnext
  obtain ⟨hfeed, last, hlast, hends⟩ := exists_last_of_isSwallowed h (hoffset next rfl) hswallowed
  rcases hmarks with hnew | hnone | ⟨_, ⟨⟩, c, hc, hpunct⟩
  · exact hfeed hnew
  · rw [hnone last hlast] at hends
    cases hends
  · obtain ⟨more, rfl⟩ := List.getLast?_eq_some_iff.mp hlast
    have hlastWord : last.isWhitespace = false := by
      refine Bool.eq_false_iff.mpr fun hblank => ?_
      have hsplit : ofText source = more ++ last :: (run ++ next :: back) := by
        rw [h, List.append_assoc]
        rfl
      have hreads := (legible_of_ofTextAt (s := source) hsplit).readsBefore
      rw [hreads.isUnending_of_isWhitespace hblank] at hends
      cases hends
    have hpair : [last.bare, next.bare] <:+: words (ofText source) := by
      refine ⟨words more, words back, ?_⟩
      rw [h, words_append, words_append, words_append, words_of_isSpace hrun]
      simp [words, hlastWord, hword]
    have hchain := List.IsChain.infix hguards hpair
    have hfree := List.isChain_pair.mp hchain hends c hc
    exact Bool.false_ne_true (hfree.symm.trans hpunct)

end SheetLint
