import SheetLint.Proofs.Token.Comments

/-!
# Edits and the comments of a text

Rules place their edits between words, so an edit changes the comments of a text only by those that
stand in what it takes and in what it puts there, as long as the new words do not grow together with
those around them. Most edits take whitespace, a name, a number or a string, and put such a text in
its place: they leave the comments.

Results:
* `Edit.comments_perm_iff`: what an edit does to the comments.
* `Edit.Mute.comments_perm`: edits that neither take nor put a comment leave the comments.
* `Fix.SparesComments.comments_perm`: fixes of one such edit that can be carried out do, too.
-/

namespace SheetLint

namespace Edit

open Tokens

variable {source out : Text} {e : Edit}

/-- Whether an edit takes no comment, and puts none. -/
structure Mute (source : Text) (e : Edit) : Prop where
  takes : commentsWithin e.start e.stop (ofText source) = []
  puts : e.replacement.IsMute

/-- Whether no word reaches across an end of what an edit has put into a text. -/
def LandsOnEdges (out : Text) (e : Edit) : Prop :=
  IsEdge (ofText out) e.start ∧ IsEdge (ofText out) (e.start + e.replacement.size)

instance (out : Text) (e : Edit) : Decidable (e.LandsOnEdges out) :=
  inferInstanceAs (Decidable (_ ∧ _))

/-- **What an edit does to the comments**: where it takes and puts whole words, the comments stay
exactly when those that it takes are those that it puts. -/
theorem comments_perm_iff (hin : InText source e) (hedges : e.OnEdges source)
    (happly : applyAll? source [e] = some out) (hlands : e.LandsOnEdges out)
    (hok : ∀ t ∈ ofText source, t.kind ≠ .error) (hok' : ∀ t ∈ ofText out, t.kind ≠ .error) :
    (comments (ofText out)).Perm (comments (ofText source))
      ↔ (commentsWithin e.start (e.start + e.replacement.size) (ofText out)).Perm
          (commentsWithin e.start e.stop (ofText source)) := by
  obtain ⟨old, hold⟩ := exists_replaces hin
  obtain ⟨front, back, rfl, hstart, hstop, hresult⟩ := hold.applyAll?_eq
  obtain rfl : out = front ++ e.replacement ++ back := Option.some.inj (happly.symm.trans hresult)
  obtain ⟨hfront, hback⟩ := hedges
  obtain ⟨hfront', hback'⟩ := hlands
  rw [hstart] at hfront hfront' hback' ⊢
  rw [hstop] at hback ⊢
  exact Tokens.comments_perm_iff hfront hback hfront' hback' hok hok'

/-- A mute edit leaves the comments. -/
theorem Mute.comments_perm (h : e.Mute source) (hin : InText source e) (hedges : e.OnEdges source)
    (happly : applyAll? source [e] = some out) (hlands : e.LandsOnEdges out)
    (hok : ∀ t ∈ ofText source, t.kind ≠ .error) (hok' : ∀ t ∈ ofText out, t.kind ≠ .error) :
    (comments (ofText out)).Perm (comments (ofText source)) := by
  have hputs : commentsWithin e.start (e.start + e.replacement.size) (ofText out) = [] := by
    obtain ⟨old, hold⟩ := exists_replaces hin
    obtain ⟨front, back, -, hstart, -, hresult⟩ := hold.applyAll?_eq
    obtain rfl : out = front ++ e.replacement ++ back := Option.some.inj (happly.symm.trans hresult)
    rw [hstart]
    exact h.puts front back (hstart ▸ hlands.1)
  rw [comments_perm_iff hin hedges happly hlands hok hok', hputs, h.takes]

/-- An edit that takes a run of tokens without comment. -/
theorem takes_run {before run after : List Token} (h : ofText source = before ++ run ++ after)
    (hstart : e.start = (text before).size) (hstop : e.stop = (text before).size + (text run).size)
    (hrun : comments run = []) : commentsWithin e.start e.stop (ofText source) = [] := by
  rw [hstart, hstop, commentsWithin_run h, hrun]

/-- An edit that takes a text without mark. -/
theorem takes_unmarked {old : Text} (h : e.Replaces source old) (hold : old.Unmarked) :
    commentsWithin e.start e.stop (ofText source) = [] := by
  obtain ⟨front, back, rfl, hstart, hstop⟩ := h
  rw [hstart, hstop]
  exact commentsWithin_of_unmarked hold

/-- An edit that takes a token other than a comment. -/
theorem takes_token {t : Token} (ht : t ∈ ofText source) (hcomment : t.isComment = false)
    (hstart : e.start = t.start) (hstop : e.stop = t.stop) :
    commentsWithin e.start e.stop (ofText source) = [] := by
  obtain ⟨before, after, h⟩ := List.append_of_mem ht
  have hread : ofText source = before ++ [t] ++ after := by simpa using h
  refine takes_run hread (hstart.trans (start_of_ofText h))
    (hstop.trans (by simpa using stop_of_ofText h)) ?_
  simpa [comments_eq_nil_iff] using hcomment

end Edit

/-! ## Fixes -/

/-- A fix of one edit that can be carried out and neither takes nor puts a comment. -/
structure Fix.SparesComments (source : Text) (f : Fix) : Prop where
  applicable : f.Applicable source
  single : ∃ e, f.edits = [e] ∧ e.Mute source

namespace Fix

open Tokens Edit

variable {source new : Text} {message : String} {before after run : List Token} {t next : Token}

variable {out : Text} {f : Fix}

/-- What a fix of one edit does to the comments. -/
theorem Applicable.comments_perm_iff (h : f.Applicable source) (hsingle : ∃ e, f.edits = [e])
    (happly : applyAll? source f.edits = some out)
    (hlands : ∀ e, f.edits = [e] → e.LandsOnEdges out)
    (hok : ∀ t ∈ ofText source, t.kind ≠ .error) (hok' : ∀ t ∈ ofText out, t.kind ≠ .error) :
    (comments (ofText out)).Perm (comments (ofText source))
      ↔ ∀ e ∈ f.edits,
        (commentsWithin e.start (e.start + e.replacement.size) (ofText out)).Perm
          (commentsWithin e.start e.stop (ofText source)) := by
  obtain ⟨e, hedits⟩ := hsingle
  have he : e ∈ f.edits := by rw [hedits]; exact List.mem_singleton_self e
  have hin := h.inText e he
  have hedges := h.edges e he
  rw [hedits] at happly ⊢
  rw [List.forall_mem_singleton]
  exact Edit.comments_perm_iff hin hedges happly (hlands e hedits) hok hok'

/-- Fixes that spare comments leave them. -/
theorem SparesComments.comments_perm (h : f.SparesComments source)
    (happly : applyAll? source f.edits = some out)
    (hlands : ∀ e, f.edits = [e] → e.LandsOnEdges out)
    (hok : ∀ t ∈ ofText source, t.kind ≠ .error) (hok' : ∀ t ∈ ofText out, t.kind ≠ .error) :
    (comments (ofText out)).Perm (comments (ofText source)) := by
  obtain ⟨e, hedits, hmute⟩ := h.single
  have he : e ∈ f.edits := by rw [hedits]; exact List.mem_singleton_self e
  have hin := h.applicable.inText e he
  have hedges := h.applicable.edges e he
  rw [hedits] at happly
  exact hmute.comments_perm hin hedges happly (hlands e hedits) hok hok'

/-- A fix of one edit that replaces a text without mark. -/
theorem sparesComments_of_one {old : Text} {e : Edit} (h : e.Replaces source old)
    (hedges : e.OnEdges source) (hne : e.replacement ≠ old) (hold : old.Unmarked)
    (hnew : e.replacement.IsMute) : SparesComments source ⟨message, [e]⟩ :=
  ⟨applicable_of_one h hedges hne, e, rfl, takes_unmarked h hold, hnew⟩

/-- A fix of one edit that replaces a run of tokens without comment. -/
theorem sparesComments_of_run {e : Edit} (h : ofText source = before ++ run ++ after)
    (hstart : e.start = (text before).size)
    (hstop : e.stop = (text before).size + (text run).size) (hne : e.replacement ≠ text run)
    (hrun : comments run = []) (hnew : e.replacement.IsMute) :
    SparesComments source ⟨message, [e]⟩ :=
  ⟨applicable_of_run h hstart hstop hne, e, rfl, takes_run h hstart hstop hrun, hnew⟩

/-- A fix that replaces a token other than a comment. -/
theorem sparesComments_token (ht : t ∈ ofText source) (hcomment : t.isComment = false)
    (hne : new ≠ t.text) (hnew : new.IsMute) :
    SparesComments source (.replace message t.start t.stop new) :=
  ⟨applicable_token ht hne, _, rfl, takes_token ht hcomment rfl rfl, hnew⟩

/-- A fix that inserts a text behind a token. -/
theorem sparesComments_insert_behind (ht : t ∈ ofText source) (hne : new ≠ []) (hnew : new.IsMute) :
    SparesComments source (.insert message t.stop new) := by
  obtain ⟨before, after, h⟩ := List.append_of_mem ht
  have hrun : ofText source = (before ++ [t]) ++ [] ++ after := by simpa using h
  have hstop : t.stop = (text (before ++ [t])).size := by simpa using stop_of_ofText h
  exact sparesComments_of_run hrun hstop hstop hne rfl hnew

/-- A fix that replaces a run of whitespace from its first to its last byte. -/
theorem sparesComments_run {span : Span} (hrun : run <:+: ofText source) (hspace : IsSpace run)
    (hspan : Tokens.span? run = some span) (hne : new ≠ text run) (hnew : new.IsMute) :
    SparesComments source (.replace message span.start.offset span.stop.offset new) := by
  obtain ⟨before, after, h⟩ := hrun
  obtain ⟨hstart, hstop⟩ := offsets_of_span? h.symm hspan
  exact sparesComments_of_run h.symm hstart hstop hne (comments_of_isSpace hspace) hnew

/-- A fix of the whitespace in front of a token, which may be empty. -/
theorem sparesComments_space_before (h : run ++ [next] <:+: ofText source) (hspace : IsSpace run)
    (hne : new ≠ text run) (hnew : new.IsMute) :
    SparesComments source ⟨message, [.replaceRun run next.start new]⟩ := by
  obtain ⟨before, after, h⟩ := h
  have hrun : ofText source = before ++ run ++ (next :: after) := by simpa using h.symm
  have hnext : next.start = (text (before ++ run)).size := start_of_ofText hrun
  rw [replaceRun_eq hrun fun hnil => by rw [hnext, hnil, List.append_nil]]
  exact sparesComments_of_run hrun rfl rfl hne (comments_of_isSpace hspace) hnew

/-- A fix of the whitespace behind a token, which may be empty. -/
theorem sparesComments_space_behind (h : t :: run <:+: ofText source) (hspace : IsSpace run)
    (hne : new ≠ text run) (hnew : new.IsMute) :
    SparesComments source ⟨message, [.replaceRun run t.stop new]⟩ := by
  obtain ⟨before, after, h⟩ := h
  have hrun : ofText source = (before ++ [t]) ++ run ++ after := by simpa using h.symm
  have hstop : t.stop = (text (before ++ [t])).size := by
    have htoken : ofText source = before ++ t :: (run ++ after) := by simpa using h.symm
    simpa using stop_of_ofText htoken
  rw [replaceRun_eq hrun fun _ => hstop]
  exact sparesComments_of_run hrun rfl rfl hne (comments_of_isSpace hspace) hnew

end Fix

end SheetLint
