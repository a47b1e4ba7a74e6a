import SheetLint.Proofs.Token.Cuts

/-!
# Comments in a part of a text

Where no word reaches across its ends, a part of a text may be replaced by another: the comments in
front of it and behind it stay, so all comments stay exactly when those in the part do. Whitespace,
names, numbers and strings hold none.

Results:
* `Tokens.commentsWithin_perm`: an edge divides the comments.
* `Tokens.comments_perm_iff`: the comments in a text with another middle.
* `Text.IsMute`: texts that hold no comment between words, such as strings and names.
-/

namespace SheetLint

namespace Tokens

/-! ## Comments between offsets -/

/-- The texts of the comments that stand between two offsets. -/
def commentsWithin (start stop : Nat) (ts : List Token) : List Text :=
  comments (ts.filter fun t => start ≤ t.start && t.stop ≤ stop)

variable {source : Text} {before after ts : List Token} {t : Token} {start offset stop : Nat}

theorem start_lt_stop_of_mem (ht : t ∈ ofText source) : t.start < t.stop := by
  obtain ⟨front, back, h⟩ := List.append_of_mem ht
  have := Text.size_pos_of_ne_nil (ne_nil_of_mem_ofText ht)
  rw [start_of_ofText h, stop_of_ofText h]
  omega

theorem stop_le_size_of_mem (ht : t ∈ ofText source) : t.stop ≤ source.size := by
  have hstop := stop_le_of_mem_front (List.append_nil (ofText source)).symm ht
  rwa [text_ofText] at hstop

theorem comments_filter_of_forall {p : Token → Bool}
    (h : ∀ t ∈ ts, t.isComment = true → p t = true) : comments (ts.filter p) = comments ts := by
  rw [comments, comments, List.filter_filter]
  refine congrArg _ (List.filter_congr fun t ht => ?_)
  cases hcomment : t.isComment with
  | false => rfl
  | true => rw [h t ht hcomment]; rfl

theorem comments_filter_eq_nil {p : Token → Bool}
    (h : ∀ t ∈ ts, t.isComment = true → p t = false) : comments (ts.filter p) = [] := by
  refine comments_eq_nil_iff.mpr fun t ht hcomment => ?_
  obtain ⟨hmem, hp⟩ := List.mem_filter.mp ht
  rw [h t hmem hcomment] at hp
  cases hp

theorem commentsWithin_append (a b : List Token) :
    commentsWithin start stop (a ++ b) = commentsWithin start stop a ++ commentsWithin start stop b := by
  rw [commentsWithin, List.filter_append, comments_append, commentsWithin, commentsWithin]

theorem commentsWithin_all (source : Text) :
    commentsWithin 0 source.size (ofText source) = comments (ofText source) :=
  comments_filter_of_forall fun t ht _ => by simpa using stop_le_size_of_mem ht

/-- **An edge divides the comments**: each stands in front of it or behind it. -/
theorem commentsWithin_perm (hedge : IsEdge (ofText source) offset) (hstart : start ≤ offset)
    (hstop : offset ≤ stop) :
    (commentsWithin start stop (ofText source)).Perm
      (commentsWithin start offset (ofText source) ++ commentsWithin offset stop (ofText source)) := by
  have hcut := List.filter_append_perm (fun t : Token => decide (t.stop ≤ offset))
    ((ofText source).filter fun t => start ≤ t.start && t.stop ≤ stop)
  have hcomments := ((hcut.filter Token.isComment).map Token.text).symm
  rw [List.filter_append, List.map_append] at hcomments
  have hfront : comments (((ofText source).filter fun t => start ≤ t.start && t.stop ≤ stop).filter
      fun t => decide (t.stop ≤ offset)) = commentsWithin start offset (ofText source) := by
    rw [List.filter_filter, commentsWithin]
    refine congrArg comments (List.filter_congr fun t ht => ?_)
    rw [Bool.eq_iff_iff]
    simp only [Bool.and_eq_true, decide_eq_true_eq]
    omega
  have hback : comments (((ofText source).filter fun t => start ≤ t.start && t.stop ≤ stop).filter
      fun t => !decide (t.stop ≤ offset)) = commentsWithin offset stop (ofText source) := by
    rw [List.filter_filter, commentsWithin, comments, comments, List.filter_filter,
      List.filter_filter]
    refine congrArg _ (List.filter_congr fun t ht => ?_)
    cases hcomment : t.isComment with
    | false => rfl
    | true =>
      have hword : t.isWhitespace = false := by
        cases hkind : t.kind <;> simp_all [Token.isComment, Token.isWhitespace]
      have hends := hedge t ht hword
      have hpos := start_lt_stop_of_mem ht
      rw [Bool.eq_iff_iff]
      simp only [Bool.and_eq_true, decide_eq_true_eq, Bool.not_eq_true', decide_eq_false_iff_not,
        true_and]
      omega
  change (commentsWithin start stop (ofText source)).Perm (comments _ ++ comments _) at hcomments
  rwa [hfront, hback] at hcomments

namespace Cut

variable {front back : Text}

/-- The tokens of a text, cut. -/
theorem ofText_eq (cut : Cut .start front back) :
    ofText (front ++ back) = cut.ts ++ cut.blanks ++ ofTextAt cut.behind cut.rest := by
  rw [List.append_assoc]
  exact cut.tokens_eq

theorem size_le (cut : Cut .start front back) :
    (text cut.ts).size ≤ front.size ∧ front.size ≤ (text (cut.ts ++ cut.blanks)).size := by
  have htext := congrArg Text.size (congrArg text cut.ofText_eq)
  have hfront := congrArg Text.size cut.front_eq
  have hback := congrArg Text.size cut.back_eq
  rw [text_ofText, text_append, text_ofTextAt] at htext
  simp only [Text.size_append] at htext hfront hback ⊢
  omega

theorem commentsWithin_front (cut : Cut .start front back) :
    commentsWithin 0 front.size (ofText (front ++ back)) = comments cut.ts := by
  have hfront : commentsWithin 0 front.size cut.ts = comments cut.ts := by
    refine comments_filter_of_forall fun t ht _ => ?_
    have := stop_le_of_mem_front (cut.ofText_eq.trans (List.append_assoc _ _ _)) ht
    have := cut.size_le.1
    simp only [Nat.zero_le, decide_true, Bool.true_and, decide_eq_true_eq]
    omega
  have hblanks : commentsWithin 0 front.size cut.blanks = [] :=
    comments_of_isSpace fun t ht => cut.blanks_space t (List.mem_of_mem_filter ht)
  have hback : commentsWithin 0 front.size (ofTextAt cut.behind cut.rest) = [] := by
    refine comments_filter_eq_nil fun t ht _ => ?_
    have := le_start_of_mem_back cut.ofText_eq ht
    have := start_lt_stop_of_mem (by rw [cut.ofText_eq]; exact List.mem_append_right _ ht)
    have := cut.size_le.2
    simp only [Nat.zero_le, decide_true, Bool.true_and, decide_eq_false_iff_not]
    omega
  rw [cut.ofText_eq, commentsWithin_append, commentsWithin_append, hfront, hblanks, hback,
    List.append_nil, List.append_nil]

theorem commentsWithin_back (cut : Cut .start front back) :
    commentsWithin front.size (front ++ back).size (ofText (front ++ back))
      = comments (ofText back) := by
  have hfront : commentsWithin front.size (front ++ back).size cut.ts = [] := by
    refine comments_filter_eq_nil fun t ht _ => ?_
    have hmem : t ∈ ofText (front ++ back) := by
      rw [cut.ofText_eq]
      exact List.mem_append_left _ (List.mem_append_left _ ht)
    have := stop_le_of_mem_front (cut.ofText_eq.trans (List.append_assoc _ _ _)) ht
    have := start_lt_stop_of_mem hmem
    have := cut.size_le.1
    rw [Bool.and_eq_false_iff, decide_eq_false_iff_not]
    omega
  have hblanks : commentsWithin front.size (front ++ back).size cut.blanks = [] :=
    comments_of_isSpace fun t ht => cut.blanks_space t (List.mem_of_mem_filter ht)
  have hback : commentsWithin front.size (front ++ back).size (ofTextAt cut.behind cut.rest)
      = comments (ofTextAt cut.behind cut.rest) := by
    refine comments_filter_of_forall fun t ht _ => ?_
    have := le_start_of_mem_back cut.ofText_eq ht
    have := stop_le_size_of_mem (by rw [cut.ofText_eq]; exact List.mem_append_right _ ht)
    have := cut.size_le.2
    rw [Bool.and_eq_true, decide_eq_true_iff, decide_eq_true_iff]
    omega
  have hrest : comments (ofText back) = comments (ofTextAt cut.behind cut.rest) := by
    conv_lhs => rw [cut.back_eq]
    exact comments_blank_append cut.space_blank .start cut.behind cut.rest
  rw [hrest, ← hback, cut.ofText_eq, commentsWithin_append, commentsWithin_append, hfront, hblanks,
    List.nil_append, List.nil_append]

end Cut

/-! ## Texts with another middle -/

variable {front back back' old new : Text}

theorem nonempty_cut_of_isEdge (hedge : IsEdge (ofText (front ++ back)) front.size) :
    Nonempty (Cut .start front back) :=
  nonempty_cut (by rwa [Position.start, Nat.zero_add])

/-- What stands behind an edge does not tell the comments in front of it. -/
theorem commentsWithin_front_eq (hedge : IsEdge (ofText (front ++ back)) front.size)
    (hedge' : IsEdge (ofText (front ++ back')) front.size)
    (hok : ∀ t ∈ ofText (front ++ back), t.kind ≠ .error)
    (hok' : ∀ t ∈ ofText (front ++ back'), t.kind ≠ .error) :
    commentsWithin 0 front.size (ofText (front ++ back'))
      = commentsWithin 0 front.size (ofText (front ++ back)) := by
  obtain ⟨cut⟩ := nonempty_cut_of_isEdge hedge
  obtain ⟨cut'⟩ := nonempty_cut_of_isEdge hedge'
  rw [cut.commentsWithin_front, cut'.commentsWithin_front]
  refine cut.comments_ts_eq cut' (fun t ht => hok t ?_) fun t ht => hok' t ?_
  · rw [cut.ofText_eq, List.append_assoc]
    exact List.mem_append_left _ ht
  · rw [cut'.ofText_eq, List.append_assoc]
    exact List.mem_append_left _ ht

/-- The comments of a text with a middle: those in front of it, in it, and of what is behind it. -/
theorem comments_perm (hfront : IsEdge (ofText (front ++ old ++ back)) front.size)
    (hback : IsEdge (ofText (front ++ old ++ back)) (front.size + old.size)) :
    (comments (ofText (front ++ old ++ back))).Perm
      (commentsWithin 0 front.size (ofText (front ++ old ++ back))
        ++ (commentsWithin front.size (front.size + old.size) (ofText (front ++ old ++ back))
          ++ comments (ofText back))) := by
  have hsize : (front ++ old ++ back).size = front.size + old.size + back.size := by
    rw [Text.size_append, Text.size_append]
  have hedge : IsEdge (ofText (front ++ old ++ back)) (front ++ old).size := by
    rwa [Text.size_append]
  have hrest := Cut.commentsWithin_back (nonempty_cut_of_isEdge hedge).some
  rw [Text.size_append front old] at hrest
  rw [← hrest, ← commentsWithin_all]
  refine (commentsWithin_perm hfront (Nat.zero_le _) (by omega)).trans (List.Perm.append_left _ ?_)
  exact commentsWithin_perm hback (Nat.le_add_right _ _) (by omega)

/-- **Comments in a text with another middle.** Where no word reaches across the ends of the middle,
the comments are the same as before exactly when those in the middle are. -/
theorem comments_perm_iff
    (hfront : IsEdge (ofText (front ++ old ++ back)) front.size)
    (hback : IsEdge (ofText (front ++ old ++ back)) (front.size + old.size))
    (hfront' : IsEdge (ofText (front ++ new ++ back)) front.size)
    (hback' : IsEdge (ofText (front ++ new ++ back)) (front.size + new.size))
    (hok : ∀ t ∈ ofText (front ++ old ++ back), t.kind ≠ .error)
    (hok' : ∀ t ∈ ofText (front ++ new ++ back), t.kind ≠ .error) :
    (comments (ofText (front ++ new ++ back))).Perm (comments (ofText (front ++ old ++ back)))
      ↔ (commentsWithin front.size (front.size + new.size) (ofText (front ++ new ++ back))).Perm
          (commentsWithin front.size (front.size + old.size) (ofText (front ++ old ++ back))) := by
  have hsame : commentsWithin 0 front.size (ofText (front ++ new ++ back))
      = commentsWithin 0 front.size (ofText (front ++ old ++ back)) := by
    simp only [List.append_assoc] at hfront hfront' hok hok' ⊢
    exact commentsWithin_front_eq hfront hfront' hok hok'
  rw [(comments_perm hfront hback).congr_right, (comments_perm hfront' hback').congr_left, hsame,
    List.perm_append_left_iff, List.perm_append_right_iff]

/-! ## The comments in the middle -/

/-- Between the ends of a run of tokens stand the comments of the run. -/
theorem commentsWithin_run {run : List Token} (h : ofText source = before ++ run ++ after) :
    commentsWithin (text before).size ((text before).size + (text run).size) (ofText source)
      = comments run := by
  have hmem {t : Token} (ht : t ∈ before ++ run ++ after) : t.start < t.stop :=
    start_lt_stop_of_mem (h ▸ ht)
  have hsize : (text (before ++ run)).size = (text before).size + (text run).size := by
    rw [text_append, Text.size_append]
  have hfront : commentsWithin (text before).size ((text before).size + (text run).size) before
      = [] := by
    refine comments_filter_eq_nil fun t ht _ => ?_
    have := stop_le_of_mem_front (h.trans (List.append_assoc _ _ _)) ht
    have := hmem (List.mem_append_left _ (List.mem_append_left _ ht))
    rw [Bool.and_eq_false_iff, decide_eq_false_iff_not]
    omega
  have hrun : commentsWithin (text before).size ((text before).size + (text run).size) run
      = comments run := by
    refine comments_filter_of_forall fun t ht _ => ?_
    have := le_start_of_mem_back (h.trans (List.append_assoc _ _ _)) (List.mem_append_left after ht)
    have := stop_le_of_mem_front h (List.mem_append_right before ht)
    rw [Bool.and_eq_true, decide_eq_true_iff, decide_eq_true_iff]
    omega
  have hback : commentsWithin (text before).size ((text before).size + (text run).size) after
      = [] := by
    refine comments_filter_eq_nil fun t ht _ => ?_
    have := le_start_of_mem_back h ht
    have := hmem (List.mem_append_right _ ht)
    rw [Bool.and_eq_false_iff, decide_eq_false_iff_not, decide_eq_false_iff_not]
    omega
  conv_lhs => rw [h]
  rw [commentsWithin_append, commentsWithin_append, hfront, hrun, hback, List.append_nil,
    List.nil_append]

end Tokens

/-- Whether no mark of a comment stands in a text. -/
def Text.Unmarked (t : Text) : Prop := t.IsChain fun c d => c = '/' → d ≠ '/' ∧ d ≠ '*'

/-- Whether a text holds no comment wherever it stands behind an edge. -/
def Text.IsMute (t : Text) : Prop :=
  ∀ front back, Tokens.IsEdge (Tokens.ofText (front ++ t ++ back)) front.size →
    Tokens.commentsWithin front.size (front.size + t.size) (Tokens.ofText (front ++ t ++ back)) = []

namespace Tokens

/-- A text without mark holds no comment. -/
theorem commentsWithin_of_unmarked (h : old.Unmarked) : commentsWithin front.size
    (front.size + old.size) (ofText (front ++ old ++ back)) = [] := by
  refine comments_filter_eq_nil fun t ht hcomment => Bool.eq_false_iff.mpr fun hinside => ?_
  rw [Bool.and_eq_true, decide_eq_true_iff, decide_eq_true_iff] at hinside
  obtain ⟨before, after, hsplit⟩ := List.append_of_mem ht
  rw [start_of_ofText hsplit, stop_of_ofText hsplit] at hinside
  -- the comment stands in the text
  have htext := text_eq_of_ofText hsplit
  rw [List.append_assoc, List.append_assoc] at htext
  obtain ⟨kept, hkept, hrest⟩ := Edit.exists_of_append_eq htext hinside.1
  have hends : Text.size (kept ++ t.text) ≤ old.size := by
    have := congrArg Text.size hkept
    simp only [Text.size_append] at this ⊢
    omega
  have hread : kept ++ t.text ++ Tokens.text after = old ++ back := by
    rw [hrest, List.append_assoc]
  obtain ⟨more, hmore, -⟩ := Edit.exists_of_append_eq hread hends
  have hmark : ∃ d w, t.text = '/' :: d :: w ∧ (d = '/' ∨ d = '*') := by
    rcases mark_isPrefix_of_isComment hsplit hcomment with ⟨w, hw⟩ | ⟨w, hw⟩
    · exact ⟨'/', w, hw.symm, .inl rfl⟩
    · exact ⟨'*', w, hw.symm, .inr rfl⟩
  obtain ⟨d, w, hw, hd⟩ := hmark
  rw [hmore, hw, Text.Unmarked, List.append_assoc, List.cons_append, List.cons_append,
    List.isChain_append_cons_cons] at h
  obtain ⟨hslash, hstar⟩ := h.2.1 rfl
  exact hd.elim hslash hstar

/-- Behind an edge a text that starts with a word is read from its start. -/
theorem exists_ofTextAt_of_isEdge (hedge : IsEdge (ofText (front ++ back)) front.size)
    (hword : Scan.startsWith Scan.isSpace back = false) :
    ∃ before place, ofText (front ++ back) = before ++ ofTextAt place back ∧ text before = front := by
  obtain ⟨⟨ts, kept, blanks, space, rest, behind, -, hback, -, hspace, -, hread⟩⟩ :=
    nonempty_cut_of_isEdge hedge
  cases space with
  | nil =>
    obtain rfl : back = rest := hback
    refine ⟨ts ++ blanks, behind, by rw [List.append_assoc]; exact hread, ?_⟩
    have htext := congrArg text hread
    rw [text_ofTextAt, ← List.append_assoc, text_append, text_ofTextAt] at htext
    exact (List.append_cancel_right htext).symm
  | cons x space =>
    rw [hback, List.cons_append] at hword
    exact absurd (hspace x List.mem_cons_self) (Bool.eq_false_iff.mp hword)

/-- A text that is read as one word, which is no comment, holds none. -/
theorem commentsWithin_of_scan {c : Char} {w : Text} {kind : TokenKind}
    (hedge : IsEdge (ofText (front ++ c :: w ++ back)) front.size) (hspace : Scan.isSpace c = false)
    (hscan : Scan.kindAndLength c (w ++ back) = (kind, w.length + 1))
    (hkind : kind ≠ .lineComment ∧ kind ≠ .blockComment) :
    commentsWithin front.size (front.size + Text.size (c :: w)) (ofText (front ++ c :: w ++ back))
      = [] := by
  rw [List.append_assoc] at hedge ⊢
  obtain ⟨before, place, hread, rfl⟩ := exists_ofTextAt_of_isEdge hedge hspace
  rw [List.cons_append, ofTextAt_eq_cons place hscan] at hread
  have hrun := commentsWithin_run (hread.trans (List.append_cons _ _ _))
  rw [text_cons, text_nil, List.append_nil] at hrun
  refine hrun.trans (comments_eq_nil_iff.mpr ?_)
  simp [Token.isComment, hkind]

end Tokens

namespace Text

theorem isMute_of_unmarked {t : Text} (h : t.Unmarked) : t.IsMute :=
  fun _ _ _ => Tokens.commentsWithin_of_unmarked h

theorem isMute_of_scan {c : Char} {w : Text} {kind : TokenKind} (hspace : Scan.isSpace c = false)
    (hscan : ∀ back, Scan.kindAndLength c (w ++ back) = (kind, w.length + 1))
    (hkind : kind ≠ .lineComment ∧ kind ≠ .blockComment) : IsMute (c :: w) :=
  fun _ back hedge => Tokens.commentsWithin_of_scan hedge hspace (hscan back) hkind

theorem unmarked_of_not_mem {t : Text} (h : '/' ∉ t) : t.Unmarked := by
  rw [Unmarked, List.isChain_iff_forall_rel_of_append_cons_cons]
  rintro a b front back rfl rfl
  exact absurd (by simp) h

theorem unmarked_of_isBlank {t : Text} (h : t.IsBlank) : t.Unmarked :=
  unmarked_of_not_mem fun hslash => by cases h _ hslash

theorem isMute_of_not_mem {t : Text} (h : '/' ∉ t) : t.IsMute :=
  isMute_of_unmarked (unmarked_of_not_mem h)

end Text

end SheetLint
