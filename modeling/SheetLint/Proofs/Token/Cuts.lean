import SheetLint.Proofs.Edit.Applicable
import SheetLint.Proofs.Token.Words

/-!
# Texts cut between their words

What a token is may depend on the text behind it. But when the tokens of two texts that start alike
end inside their common front, both read a slash in it as part of the same token, so they find the
same comments there.

Results:
* `Scan.kindAndLength_within`: a token that ends inside the common front of two texts, in both.
* `Tokens.nonempty_cut`: a text can be cut where no word is.
* `Tokens.Cut.comments_ts_eq`: what stands behind a cut does not tell the comments in front of it.
-/

namespace SheetLint

namespace Scan

variable {u s s' : Text} {c d : Char}

/-! ## Scans that end inside the common front of two texts -/

theorem takeWhile_within {p : Char → Bool} (h : ((u ++ s).takeWhile p).length ≤ u.length)
    (h' : ((u ++ s').takeWhile p).length ≤ u.length) :
    (u ++ s').takeWhile p = (u ++ s).takeWhile p := by
  rw [List.takeWhile_append] at h h' ⊢
  rw [List.takeWhile_append]
  split
  · rename_i hall
    rw [if_pos hall, List.length_append] at h h'
    have hnil : s.takeWhile p = [] := List.length_eq_zero_iff.mp (by omega)
    have hnil' : s'.takeWhile p = [] := List.length_eq_zero_iff.mp (by omega)
    rw [hnil, hnil']
  · rfl

theorem nameLength_within (h : nameLength (u ++ s) ≤ u.length)
    (h' : nameLength (u ++ s') ≤ u.length) : nameLength (u ++ s') = nameLength (u ++ s) := by
  fun_induction nameLength u with
  | case1 => simp [nameLength]
  | case2 c cs hc ih =>
    simp only [List.cons_append, nameLength, if_neg hc, List.length_cons] at h h' ⊢
    rw [ih (by omega) (by omega)]
  | case3 c cs _ hname ih =>
    have hc : c ≠ '\\' := by
      rintro rfl
      cases hname
    simp only [List.cons_append, nameLength_cons hc, if_pos hname, List.length_cons] at h h' ⊢
    rw [ih (by omega) (by omega)]
  | case4 c cs hplain hname =>
    by_cases hc : c = '\\'
    · -- an escape at the end would take a character from behind
      cases cs with
      | nil =>
        subst hc
        have hzero {s : Text} (h : nameLength ('\\' :: s) ≤ 1) : nameLength ('\\' :: s) = 0 := by
          cases s with
          | nil => rfl
          | cons x s =>
            rw [nameLength] at h ⊢
            split
            · rfl
            · rename_i hx
              rw [if_neg hx] at h
              omega
        exact (hzero h').trans (hzero h).symm
      | cons x cs => exact absurd rfl (hplain x cs hc)
    · simp only [List.cons_append, nameLength_cons hc, if_neg hname]
  | case5 =>
    rw [List.length_nil, Nat.le_zero] at h h'
    rw [h, h']

theorem unitLength_within (h : unitLength (d :: u ++ s) ≤ (d :: u).length)
    (h' : unitLength (d :: u ++ s') ≤ (d :: u).length) :
    unitLength (d :: u ++ s') = unitLength (d :: u ++ s) := by
  by_cases hd : d = '%'
  · subst hd
    rfl
  · simp only [List.cons_append, unitLength_cons hd] at h h' ⊢
    split_ifs at h h' ⊢ with hname
    · exact nameLength_within (u := d :: u) h h'
    · rfl

/-- The magnitude of a number ends in front of a slash, and its unit starts there at the latest. -/
theorem numberLength_within (hslash : '/' ∈ u) (h : numberLength (u ++ s) ≤ u.length)
    (h' : numberLength (u ++ s') ≤ u.length) : numberLength (u ++ s') = numberLength (u ++ s) := by
  obtain ⟨front, back, rfl⟩ := List.append_of_mem hslash
  have hmagnitude (s : Text) :
      magnitudeLength (front ++ '/' :: back ++ s) = magnitudeLength front := by
    rw [List.append_assoc]
    exact magnitudeLength_stop rfl front _
  have hle := magnitudeLength_le front
  have hdrop (s : Text) : (front ++ '/' :: back ++ s).drop (magnitudeLength front) =
      front.drop (magnitudeLength front) ++ '/' :: back ++ s := by
    rw [List.append_assoc, List.drop_append_of_le_length hle, List.append_assoc]
  have hlength : (front.drop (magnitudeLength front) ++ '/' :: back).length =
      (front ++ '/' :: back).length - magnitudeLength front := by
    rw [List.length_append, List.length_drop, List.length_append]
    omega
  simp only [numberLength, hmagnitude, hdrop] at h h' ⊢
  obtain ⟨d, unit, hunit⟩ := List.exists_cons_of_ne_nil
    (by simp : front.drop (magnitudeLength front) ++ '/' :: back ≠ [])
  rw [hunit] at h h' hlength ⊢
  have hunits : unitLength (d :: unit ++ s) ≤ (d :: unit).length := by omega
  have hunits' : unitLength (d :: unit ++ s') ≤ (d :: unit).length := by omega
  rw [unitLength_within hunits hunits']

theorem stringTail_pos {quote : Char} {t : Text} (h : (stringTail quote t).1 = .string) :
    0 < (stringTail quote t).2 := by
  revert h
  fun_cases stringTail quote t with
  | case1 | case2 | case4 =>
    intro h
    cases h
  | case3 | case5 | case6 => exact fun _ => Nat.succ_pos _

/-- A closed string does not look behind its end. -/
theorem stringTail_within {quote : Char} (h : (stringTail quote (u ++ s)).1 = .string)
    (hn : (stringTail quote (u ++ s)).2 ≤ u.length) (s' : Text) :
    stringTail quote (u ++ s') = stringTail quote (u ++ s) := by
  fun_induction stringTail quote u with
  | case1 => exact absurd hn (Nat.not_le.mpr (stringTail_pos h))
  | case2 =>
    cases s with
    | nil => cases h
    | cons x s => simp [stringTail] at hn
  | case3 c cs tail ih =>
    simp only [List.cons_append, stringTail, List.length_cons] at h hn ⊢
    rw [ih h (by omega)]
  | case4 c cs hone hescape hbreak =>
    have hc : c ≠ '\\' := by
      rintro rfl
      cases hbreak
    simp only [List.cons_append, stringTail_cons hc, if_pos hbreak]
  | case5 cs hone hescape hbreak =>
    have hc : quote ≠ '\\' := ne_backslash_of_not_escape hone hescape
    simp only [List.cons_append, stringTail_cons hc, if_neg hbreak, if_true]
  | case6 c cs hone hescape hbreak hquote tail ih =>
    have hc : c ≠ '\\' := ne_backslash_of_not_escape hone hescape
    simp only [List.cons_append, stringTail_cons hc, if_neg hbreak, if_neg hquote,
      List.length_cons] at h hn ⊢
    rw [ih h (by omega)]

/-- A closed `url(` does not look behind its end. -/
theorem urlTail_within (h : (urlTail (u ++ s)).1 = .url) (hn : (urlTail (u ++ s)).2 ≤ u.length)
    (s' : Text) : urlTail (u ++ s') = urlTail (u ++ s) := by
  induction u with
  | nil =>
    rw [List.nil_append] at h hn
    cases s with
    | nil => cases h
    | cons c s =>
      rw [urlTail] at h hn
      split_ifs at h hn <;> simp at hn
  | cons c u ih =>
    simp only [List.cons_append, urlTail, List.length_cons] at h hn ⊢
    split_ifs at h hn ⊢
    · rfl
    · rw [ih h (by omega)]

/-- A closed `url(` ends with its parenthesis. -/
theorem mem_of_urlTail (h : (urlTail (u ++ s)).1 = .url) (hn : (urlTail (u ++ s)).2 ≤ u.length) :
    ')' ∈ u := by
  induction u with
  | nil =>
    rw [List.nil_append] at h hn
    cases s with
    | nil => cases h
    | cons c s =>
      rw [urlTail] at h hn
      split_ifs at h hn <;> simp at hn
  | cons c u ih =>
    by_cases hc : c = ')'
    · rw [hc]
      exact List.mem_cons_self
    · simp only [List.cons_append, urlTail, if_neg hc, List.length_cons] at h hn
      split_ifs at h hn
      exact List.mem_cons_of_mem c (ih h (by omega))

/-- What stands behind whitespace, in a text that holds more than that, whatever follows the text. -/
theorem startsWith_dropWhile_append {p : Char → Bool} (hd : d ∈ u) (hspace : isSpace d = false)
    (s : Text) : startsWith p ((u ++ s).dropWhile isSpace) = startsWith p (u.dropWhile isSpace) := by
  have hne : u.dropWhile isSpace ≠ [] := by
    intro hnil
    rw [List.dropWhile_eq_nil_iff.mp hnil d hd] at hspace
    cases hspace
  rw [List.dropWhile_append, if_neg (mt List.isEmpty_iff.mp hne)]
  exact startsWith_append hne s

/-- A name, or an `url(` that is closed, does not look behind a text with a slash where it ends
inside that. -/
theorem nameOrUrl_within (hslash : '/' ∈ u) (h : (nameOrUrl (u ++ s)).2 ≤ u.length)
    (h' : (nameOrUrl (u ++ s')).2 ≤ u.length) (herror : (nameOrUrl (u ++ s)).1 ≠ .error) :
    nameOrUrl (u ++ s') = nameOrUrl (u ++ s) := by
  have hname := Nat.le_trans (nameLength_le_nameOrUrl _) h
  have hsame : nameLength (u ++ s') = nameLength (u ++ s) :=
    nameLength_within hname (Nat.le_trans (nameLength_le_nameOrUrl _) h')
  unfold nameOrUrl at h herror ⊢
  simp only [hsame, List.drop_append_of_le_length hname,
    List.take_append_of_le_length hname] at h herror ⊢
  generalize hlength : nameLength (u ++ s) = n at *
  by_cases hurl : Text.eqIgnoreCase (u.take n) "url".toList = true
  · -- the slash stands behind `url`
    have hback : '/' ∈ u.drop n := by
      rw [← List.take_append_drop n u, List.mem_append] at hslash
      refine hslash.resolve_left fun hmem => ?_
      have hlower : '/' ∈ Text.lower (u.take n) := List.mem_map.mpr ⟨'/', hmem, rfl⟩
      rw [beq_iff_eq.mp hurl] at hlower
      revert hlower
      decide
    obtain ⟨x, back, hdrop⟩ := List.exists_cons_of_ne_nil (List.ne_nil_of_mem hback)
    rw [hdrop] at hback h herror ⊢
    by_cases hparen : x = '('
    · subst hparen
      have hmem : '/' ∈ back := by simpa using hback
      have hquote (s : Text) : startsWith isQuote ((back ++ s).dropWhile isSpace) =
          startsWith isQuote (back.dropWhile isSpace) := startsWith_dropWhile_append hmem rfl s
      have hinside : n + 1 + back.length = u.length := by
        have hcut := congrArg List.length hdrop
        rw [List.length_drop, List.length_cons] at hcut
        omega
      unfold isQuote at hquote
      simp only [List.cons_append, hurl, hquote, Bool.true_and] at h herror ⊢
      split_ifs at h herror ⊢
      · have htail := (urlTail_kind (back ++ s)).resolve_right herror
        rw [urlTail_within htail (by simp only at h; omega)]
      · rfl
    · simp [hparen]
  · simp only [Bool.eq_false_iff.mpr hurl, Bool.false_and, Bool.false_eq_true, if_false]
    split <;> split <;> rfl

/-! ## Slashes -/

/-- A slash that starts no comment is a token by itself. -/
theorem kindAndLength_slash (hline : s.head? ≠ some '/') (hblock : s.head? ≠ some '*') :
    kindAndLength '/' s = (.punct, 1) := by
  have hmagnitude : startsMagnitude ('/' :: s) = false := startsMagnitude_of_isEdge rfl s
  have hname : startsName ('/' :: s) = false := startsName_of_isEdge rfl s
  simp [kindAndLength, hmagnitude, hname, hline, hblock, isSpace, isPunctuation]

theorem kindAndLength_lineComment_eq (hline : s.head? = some '/') : kindAndLength '/' s =
    (.lineComment, (('/' :: s).takeWhile (!isLineBreak ·)).length) := by
  simp [kindAndLength, hline, isSpace]

theorem kindAndLength_blockComment_eq (hblock : s.head? = some '*') : kindAndLength '/' s =
    match commentTail? (s.drop 1) with
    | some n => (.blockComment, n + 2)
    | none => (.error, s.length + 1) := by
  have hspace : isSpace '/' = false := rfl
  simp only [kindAndLength, hblock, hspace]
  cases commentTail? (s.drop 1) <;> rfl

/-- A slash is read alike in front of texts with a common front, when the token ends inside that. -/
theorem kindAndLength_slash_within (h : (kindAndLength '/' (u ++ s)).2 ≤ u.length + 1)
    (h' : (kindAndLength '/' (u ++ s')).2 ≤ u.length + 1)
    (herror : (kindAndLength '/' (u ++ s)).1 ≠ .error)
    (herror' : (kindAndLength '/' (u ++ s')).1 ≠ .error) :
    kindAndLength '/' (u ++ s') = kindAndLength '/' (u ++ s) := by
  cases u with
  | nil =>
    -- a comment has two characters
    have halone {s : Text} (h : (kindAndLength '/' s).2 ≤ 1)
        (herror : (kindAndLength '/' s).1 ≠ .error) : kindAndLength '/' s = (.punct, 1) := by
      refine kindAndLength_slash (fun hline => ?_) fun hblock => ?_
      · obtain ⟨rest, rfl⟩ := List.head?_eq_some_iff.mp hline
        rw [kindAndLength_lineComment_eq hline] at h
        simp [isLineBreak] at h
      · rw [kindAndLength_blockComment_eq hblock] at h herror
        split at h
        · simp at h
        · rename_i hnone
          rw [hnone] at herror
          exact herror rfl
    exact (halone h' herror').trans (halone h herror).symm
  | cons x u =>
    by_cases hline : x = '/'
    · subst hline
      rw [kindAndLength_lineComment_eq rfl] at h h' ⊢
      rw [kindAndLength_lineComment_eq rfl]
      refine Prod.ext rfl (congrArg List.length (takeWhile_within (u := '/' :: '/' :: u) h h'))
    · by_cases hblock : x = '*'
      · subst hblock
        rw [kindAndLength_blockComment_eq rfl] at h herror ⊢
        rw [kindAndLength_blockComment_eq rfl]
        simp only [List.cons_append, List.drop_succ_cons, List.drop_zero] at h herror ⊢
        split at h
        · rename_i n htail
          rw [commentTail?_front htail (by simpa using h)]
        · rename_i hnone
          rw [hnone] at herror
          exact absurd rfl herror
      · have hhead (s : Text) : kindAndLength '/' (x :: u ++ s) = (.punct, 1) :=
          kindAndLength_slash (by simpa using hline) (by simpa using hblock)
        rw [hhead, hhead]

/-! ## Tokens that end inside the common front of two texts -/

/-- A text with a slash is not empty, and starts with an edge or goes on behind its first
character. -/
theorem exists_of_slash_mem (hslash : '/' ∈ u) :
    u = ['/'] ∨ ∃ x y rest, u = x :: y :: rest := by
  match u with
  | [x] => exact .inl (by rw [List.mem_singleton.mp hslash])
  | x :: y :: rest => exact .inr ⟨x, y, rest, rfl⟩

theorem startsName_within (hslash : '/' ∈ u) (s s' : Text) :
    startsName (u ++ s') = startsName (u ++ s) := by
  rcases exists_of_slash_mem hslash with rfl | ⟨x, y, rest, rfl⟩
  · exact (startsName_of_isEdge rfl s').trans (startsName_of_isEdge rfl s).symm
  · exact startsName_cons_cons x y _ _

theorem startsMagnitude_within (hslash : '/' ∈ u) (s s' : Text) :
    startsMagnitude (u ++ s') = startsMagnitude (u ++ s) := by
  rcases exists_of_slash_mem hslash with rfl | ⟨x, y, rest, rfl⟩
  · exact (startsMagnitude_of_isEdge rfl s').trans (startsMagnitude_of_isEdge rfl s).symm
  · exact startsMagnitude_cons_cons x y _ _

/-- The tests of the scanner see no more than a front with a slash in it. -/
theorem sameTests_within (hc : c ≠ '/') (hslash : '/' ∈ u) (s s' : Text) :
    SameTests c (u ++ s) (u ++ s') := by
  have hne : u ≠ [] := List.ne_nil_of_mem hslash
  have hhead (d : Char) : (u ++ s').head? = some d ↔ (u ++ s).head? = some d := by
    rw [List.head?_append_of_ne_nil _ hne, List.head?_append_of_ne_nil _ hne]
  have hmem : '/' ∈ c :: u := List.mem_cons_of_mem c hslash
  exact {
    slash := fun hc' => absurd hc' hc
    star := fun hc' => absurd hc' hc
    mark := fun _ => startsName_within hslash s s'
    brace := fun _ => hhead _
    hash := fun _ => by rw [startsWith_append hne, startsWith_append hne]
    magnitude := startsMagnitude_within hmem s s'
    dash := fun _ => startsMagnitude_within hslash s s'
    name := startsName_within hmem s s' }

/-- **A token that ends inside the common front of two texts, in both, is the same in both**, if a
slash is in that front. -/
theorem kindAndLength_within (hslash : '/' ∈ c :: u)
    (h : (kindAndLength c (u ++ s)).2 ≤ u.length + 1)
    (h' : (kindAndLength c (u ++ s')).2 ≤ u.length + 1)
    (herror : (kindAndLength c (u ++ s)).1 ≠ .error)
    (herror' : (kindAndLength c (u ++ s')).1 ≠ .error) :
    kindAndLength c (u ++ s') = kindAndLength c (u ++ s) := by
  by_cases hc : c = '/'
  · subst hc
    exact kindAndLength_slash_within h h' herror herror'
  have hmem : '/' ∈ u := by simpa [Ne.symm hc] using hslash
  obtain ⟨p, q, hp, hq, hread⟩ := (sameTests_within hc hmem s s').exists_readAlike
  rw [hp] at h herror ⊢
  rw [hq] at h' ⊢
  cases hread with
  | whitespace => exact Prod.ext rfl (congrArg List.length (takeWhile_within (u := c :: u) h h'))
  | lineComment hslash | blockComment hslash => exact absurd hslash hc
  | string =>
    have htail := (stringTail_kind c (u ++ s)).resolve_right herror
    rw [stringTail_within htail (by simpa using h)]
  | mark | hash =>
    rw [nameLength_within (Nat.le_of_succ_le_succ h) (Nat.le_of_succ_le_succ h')]
  | interpolation =>
    obtain ⟨x, rest, rfl⟩ := List.exists_cons_of_ne_nil (List.ne_nil_of_mem hmem)
    simp only [List.cons_append, List.drop_succ_cons, List.drop_zero] at h herror ⊢
    cases htail : interpolationTail? 0 none (rest ++ s) with
    | none =>
      rw [htail] at herror
      exact absurd rfl herror
    | some n =>
      rw [htail] at h
      rw [interpolationTail?_front htail (Nat.le_of_add_le_add_right h)]
      rfl
  | number => exact Prod.ext rfl (numberLength_within hslash h h')
  | negative =>
    rw [numberLength_within hmem (Nat.le_of_succ_le_succ h) (Nat.le_of_succ_le_succ h')]
  | name => exact nameOrUrl_within hslash h h' herror
  | single => rfl

/-- A comment starts with its mark. -/
theorem kindAndLength_commentMark {rest : Text} (h : (kindAndLength c rest).1 = .lineComment
      ∨ (kindAndLength c rest).1 = .blockComment) :
    c = '/' ∧ (rest.head? = some '/' ∨ rest.head? = some '*') ∧ 2 ≤ (kindAndLength c rest).2 := by
  rcases h with hline | hblock
  · obtain ⟨n, hscan, hscanned⟩ := exists_scanned hline
    rw [hscan]
    cases hscanned with
    | lineComment hc hhead =>
      obtain ⟨rest, rfl⟩ := List.head?_eq_some_iff.mp hhead
      exact ⟨hc, .inl rfl, by simp [hc, isLineBreak]⟩
  · obtain ⟨hc, hhead, hlength⟩ := kindAndLength_blockComment hblock
    exact ⟨hc, .inr hhead, hlength⟩

theorem takeWhile_eq_of_length {α : Type} {p : α → Bool} {u s : List α}
    (h : ((u ++ s).takeWhile p).length = u.length) : u.takeWhile p = u := by
  rw [List.takeWhile_append] at h
  split at h
  · rename_i hall
    exact (List.takeWhile_prefix p).eq_of_length hall
  · exact (List.takeWhile_prefix p).eq_of_length h

/-- A line comment ends in front of a line break, whatever stands behind that. -/
theorem kindAndLength_lineComment_stop {c d : Char} {w s t : Text}
    (h : kindAndLength c (w ++ s) = (.lineComment, w.length + 1)) (hd : isLineBreak d = true) :
    kindAndLength c (w ++ d :: t) = (.lineComment, w.length + 1) := by
  obtain ⟨rfl, hhead, hlength⟩ := kindAndLength_commentMark (.inl (by rw [h]))
  rw [h] at hlength
  obtain ⟨x, w, rfl⟩ : ∃ x v, w = x :: v := List.exists_cons_of_ne_nil fun hnil => by
    rw [hnil] at hlength
    simp at hlength
  have hslash : x = '/' := by
    rcases hhead with hslash | hstar
    · exact Option.some.inj hslash
    · rw [kindAndLength_blockComment_eq hstar] at h
      split at h <;> cases h
  subst hslash
  rw [kindAndLength_lineComment_eq rfl] at h ⊢
  have hwhole := takeWhile_eq_of_length (u := '/' :: '/' :: w) (Prod.ext_iff.mp h).2
  have hstop : (('/' :: '/' :: w) ++ d :: t).takeWhile (!isLineBreak ·) = '/' :: '/' :: w := by
    rw [List.takeWhile_append, if_pos (by rw [hwhole]), List.takeWhile_cons_of_neg (by simp [hd]),
      List.append_nil]
  exact Prod.ext rfl (congrArg List.length hstop)

end Scan

namespace Tokens

open Scan

/-! ## Comments -/

/-- The texts of the comments among some tokens. -/
def comments (ts : List Token) : List Text := (ts.filter Token.isComment).map Token.text

@[simp] theorem comments_append (a b : List Token) : comments (a ++ b) = comments a ++ comments b := by
  simp [comments]

theorem comments_eq_nil_iff {ts : List Token} : comments ts = [] ↔ ∀ t ∈ ts, ¬ t.isComment = true := by
  rw [comments, List.map_eq_nil_iff, List.filter_eq_nil_iff]

/-- Comments are words. -/
theorem comments_words (ts : List Token) : comments (words ts) = comments ts := by
  have hword (t : Token) : (t.isComment && !t.isWhitespace) = t.isComment := by
    cases hkind : t.kind <;> simp [Token.isComment, Token.isWhitespace, hkind]
  rw [comments, words, List.filter_map, List.filter_filter, List.map_map]
  exact congrArg _ (List.filter_congr fun t _ => hword t)

theorem comments_of_isSpace {ts : List Token} (h : IsSpace ts) : comments ts = [] := by
  rw [← comments_words, words_of_isSpace h]
  rfl

theorem comments_blank_append {space : Text} (hspace : space.IsBlank) (place place' : Position)
    (s : Text) : comments (ofTextAt place (space ++ s)) = comments (ofTextAt place' s) := by
  rw [← comments_words, words_blank_append hspace place place', comments_words]

/-- A comment starts with its mark. -/
theorem mark_isPrefix_of_isComment {place : Position} {s : Text} {before after : List Token}
    {t : Token} (h : ofTextAt place s = before ++ t :: after) (ht : t.isComment = true) :
    ['/', '/'] <+: t.text ∨ ['/', '*'] <+: t.text := by
  obtain ⟨c, w, htext, hscan⟩ := exists_scan_of_ofTextAt h
  have hkind : t.kind = .lineComment ∨ t.kind = .blockComment := by
    simpa [Token.isComment] using ht
  obtain ⟨rfl, hhead, hlength⟩ := kindAndLength_commentMark (by rwa [hscan])
  rw [hscan] at hlength
  cases w with
  | nil => simp at hlength
  | cons d w =>
    rw [htext]
    refine hhead.imp (fun hmark => ?_) fun hmark => ?_ <;>
    · cases hmark
      exact ⟨w, rfl⟩

/-- Tokens without a slash in their text hold no comment. -/
theorem comments_eq_nil_of_no_slash {place : Position} {s : Text} {before ts after : List Token}
    (h : ofTextAt place s = before ++ (ts ++ after)) (hslash : '/' ∉ text ts) : comments ts = [] := by
  refine comments_eq_nil_iff.mpr fun t ht hcomment => hslash ?_
  obtain ⟨front, back, rfl⟩ := List.append_of_mem ht
  have hhere : ofTextAt place s = (before ++ front) ++ t :: (back ++ after) := by
    rw [h]
    simp
  have hmem : '/' ∈ t.text := by
    rcases mark_isPrefix_of_isComment hhere hcomment with hmark | hmark
    · exact hmark.subset List.mem_cons_self
    · exact hmark.subset List.mem_cons_self
  exact List.mem_flatMap.mpr ⟨t, ht, hmem⟩

/-! ## Edges -/

/-- A text cut between two of its words: the tokens in front of the cut and those behind it, and the
whitespace around the cut, which belongs in part to the front of the text and in part to its back. -/
structure Cut (place : Position) (front back : Text) where
  ts : List Token
  kept : Text
  blanks : List Token
  space : Text
  rest : Text
  behind : Position
  front_eq : front = text ts ++ kept
  back_eq : back = space ++ rest
  kept_blank : kept.IsBlank
  space_blank : space.IsBlank
  blanks_space : IsSpace blanks
  tokens_eq : ofTextAt place (front ++ back) = ts ++ (blanks ++ ofTextAt behind rest)

variable {place place' : Position} {front back back' : Text}

theorem IsEdge.of_cons {t : Token} {ts : List Token} {offset : Nat} (h : IsEdge (t :: ts) offset) :
    IsEdge ts offset := fun u hu => h u (List.mem_cons_of_mem t hu)

/-- What reaches across a place where no word is, is whitespace. -/
theorem isWhitespace_of_across {k : Token} {ks : List Token} {extra : Text}
    (h : IsEdge (ofTextAt place (front ++ back)) (place.offset + front.size))
    (htokens : ofTextAt place (front ++ back) = k :: ks) (htext : k.text = front ++ extra)
    (hfront : front ≠ []) (hextra : extra ≠ []) : k.isWhitespace = true := by
  by_contra hword
  have hspan := span_of_ofTextAt place _ [] htokens
  have hstart : k.start = place.offset := by rw [Token.start, hspan]; rfl
  have hstop : k.stop = place.offset + k.text.size := by
    rw [Token.stop, hspan, text_nil, List.nil_append, Position.advance_offset]
  have hends := h k (by rw [htokens]; exact List.mem_cons_self) (by simpa using hword)
  rw [hstart, hstop, htext, Text.size_append] at hends
  have := Text.size_pos_of_ne_nil hextra
  have := Text.size_pos_of_ne_nil hfront
  omega

/-- **A text can be cut where no word is.** -/
theorem nonempty_cut (h : IsEdge (ofTextAt place (front ++ back)) (place.offset + front.size)) :
    Nonempty (Cut place front back) := by
  induction hlength : front.length using Nat.strong_induction_on generalizing place front with
  | _ n ih =>
  by_cases hnil : front = []
  · subst hnil
    exact ⟨⟨[], [], [], [], back, place, rfl, rfl, by simp [Text.IsBlank], by simp [Text.IsBlank],
      by simp [IsSpace], rfl⟩⟩
  have htext := text_ofTextAt place (front ++ back)
  cases htokens : ofTextAt place (front ++ back) with
  | nil =>
    rw [htokens] at htext
    exact absurd (List.append_eq_nil_iff.mp htext.symm).1 hnil
  | cons k ks =>
    rw [htokens, text_cons] at htext
    obtain ⟨c, w, hk, -, hks⟩ := exists_scan_of_ofTextAt_eq_cons htokens
    have hplace : (place.advance k.text).offset = place.offset + k.text.size :=
      Position.advance_offset place k.text
    rcases List.append_eq_append_iff.mp htext with ⟨more, hfront, hmore⟩ | ⟨extra, hextra, hback⟩
    · -- the first token ends in front of the cut
      have hless : more.length < n := by
        rw [← hlength, hfront, List.length_append, hk, List.length_cons]
        omega
      have hedge : IsEdge (ofTextAt (place.advance k.text) (more ++ back))
          ((place.advance k.text).offset + Text.size more) := by
        rw [← hmore, hks, hplace, Nat.add_assoc, ← Text.size_append, ← hfront]
        rw [htokens] at h
        exact h.of_cons
      obtain ⟨cut⟩ := ih _ hless hedge rfl
      refine ⟨⟨k :: cut.ts, cut.kept, cut.blanks, cut.space, cut.rest, cut.behind, ?_, cut.back_eq,
        cut.kept_blank, cut.space_blank, cut.blanks_space, ?_⟩⟩
      · rw [text_cons, List.append_assoc, ← cut.front_eq, hfront]
      · rw [htokens, List.cons_append, ← cut.tokens_eq, ← hmore, hks]
    · by_cases hsame : extra = []
      · -- it ends at the cut
        rw [hsame, List.append_nil] at hextra
        rw [hsame, List.nil_append] at hback
        refine ⟨⟨[k], [], [], [], back, place.advance k.text, ?_, rfl, by simp [Text.IsBlank],
          by simp [Text.IsBlank], by simp [IsSpace], ?_⟩⟩
        · simp [hextra]
        · rw [htokens, hback, hks]
          rfl
      · -- it reaches across the cut, so it is whitespace
        have hspace := isWhitespace_of_across h htokens hextra hnil hsame
        have hblank := isBlank_text (htokens.trans (List.nil_append _).symm) hspace
        rw [hextra] at hblank
        refine ⟨⟨[], front, [k], extra, text ks, place.advance k.text, rfl, hback,
          fun x hx => hblank x (List.mem_append_left _ hx),
          fun x hx => hblank x (List.mem_append_right _ hx), by simpa [IsSpace] using hspace, ?_⟩⟩
        rw [htokens, hks]
        rfl

namespace Cut

variable {k : Token} {ks : List Token}

/-- How the first token in front of a cut is read, and what is cut behind it. -/
theorem exists_scan (cut : Cut place front back) (h : cut.ts = k :: ks) :
    ∃ c w u, k.text = c :: w ∧ front = c :: (w ++ u)
      ∧ kindAndLength c (w ++ u ++ back) = (k.kind, w.length + 1)
      ∧ ∃ behind : Cut (place.advance k.text) u back, behind.ts = ks := by
  obtain ⟨ts, kept, blanks, space, rest, behind, front_eq, back_eq, kept_blank, space_blank,
    blanks_space, tokens_eq⟩ := cut
  obtain rfl : ts = k :: ks := h
  obtain ⟨c, w, hk, hscan, hks⟩ := exists_scan_of_ofTextAt_eq_cons tokens_eq
  have hbehind : text (ks ++ (blanks ++ ofTextAt behind rest)) = text ks ++ kept ++ back := by
    have htext := congrArg text tokens_eq
    rw [text_ofTextAt, List.cons_append, text_cons, front_eq, text_cons, List.append_assoc,
      List.append_assoc] at htext
    rw [List.append_assoc]
    exact (List.append_cancel_left htext).symm
  change kindAndLength c (w ++ text (ks ++ (blanks ++ ofTextAt behind rest))) = _ at hscan
  change ofTextAt _ (text (ks ++ (blanks ++ ofTextAt behind rest))) = _ at hks
  rw [hbehind] at hscan hks
  refine ⟨c, w, text ks ++ kept, hk, ?_, ?_, ⟨ks, kept, blanks, space, rest, behind, rfl, back_eq,
    kept_blank, space_blank, blanks_space, hks⟩, rfl⟩
  · rw [front_eq, text_cons, hk, List.append_assoc]
    rfl
  · rw [List.append_assoc]
    exact hscan

/-- **What stands behind a cut does not tell the comments in front of it.** -/
theorem comments_ts_eq (cut : Cut place front back) (cut' : Cut place' front back')
    (hok : ∀ t ∈ cut.ts, t.kind ≠ .error) (hok' : ∀ t ∈ cut'.ts, t.kind ≠ .error) :
    comments cut'.ts = comments cut.ts := by
  have hnone {place : Position} {front back : Text} (cut : Cut place front back)
      (hslash : '/' ∉ front) : comments cut.ts = [] := by
    have hread := cut.tokens_eq.trans (List.nil_append _).symm
    refine comments_eq_nil_of_no_slash hread fun hmem => hslash ?_
    rw [cut.front_eq]
    exact List.mem_append_left _ hmem
  have hcons {place : Position} {front back : Text} (cut : Cut place front back)
      (hslash : '/' ∈ front) : ∃ k ks, cut.ts = k :: ks := by
    refine List.exists_cons_of_ne_nil fun hnil => ?_
    rw [cut.front_eq, hnil] at hslash
    cases cut.kept_blank _ hslash
  induction hn : front.length using Nat.strong_induction_on generalizing place place' front with
  | _ n ih =>
  by_cases hslash : '/' ∈ front
  · obtain ⟨k, ks, hk⟩ := hcons cut hslash
    obtain ⟨k', ks', hk'⟩ := hcons cut' hslash
    obtain ⟨c, w, u, htext, rfl, hscan, behind, hbehind⟩ := cut.exists_scan hk
    obtain ⟨c', w', u', htext', hfront, hscan', behind', hbehind'⟩ := cut'.exists_scan hk'
    obtain ⟨rfl, hrest⟩ := List.cons.inj hfront
    rw [← hrest] at hscan'
    -- the first tokens are the same
    have hsame := kindAndLength_within hslash (by rw [hscan]; simp) (by rw [hscan', hrest]; simp)
      (by rw [hscan]; exact hok k (by rw [hk]; exact List.mem_cons_self))
      (by rw [hscan']; exact hok' k' (by rw [hk']; exact List.mem_cons_self))
    rw [hscan, hscan', Prod.mk.injEq, Nat.succ_inj] at hsame
    obtain ⟨hkind, hsize⟩ := hsame
    obtain ⟨rfl, rfl⟩ := List.append_inj hrest hsize.symm
    have hless : u.length < n := by
      rw [← hn, List.length_cons, List.length_append]
      omega
    have hmore := ih _ hless behind behind'
      (fun t ht => hok t (by rw [hk, ← hbehind]; exact List.mem_cons_of_mem _ ht))
      (fun t ht => hok' t (by rw [hk', ← hbehind']; exact List.mem_cons_of_mem _ ht)) rfl
    have hfirst : comments [k'] = comments [k] := by
      have hcomment : k'.isComment = k.isComment := by rw [Token.isComment, Token.isComment, hkind]
      rw [comments, comments, List.filter_cons, List.filter_cons, hcomment]
      split <;> simp [htext, htext']
    have hcut (t : Token) (ts : List Token) : comments (t :: ts) = comments [t] ++ comments ts :=
      comments_append [t] ts
    rw [hk, hk', ← hbehind, ← hbehind', hcut k', hcut k, hfirst, hmore]
  · rw [hnone cut hslash, hnone cut' hslash]

end Cut

end Tokens

end SheetLint
