import Mathlib
import SheetLint.Token.Scan
import SheetLint.Tree.Layout

/-!
# Where tokens stand

A scan takes at least one character and never more than there are, so tokens tile the text: each
starts where the one before it stops. Their places are kept while reading; they are those that a
reader finds by counting in the text, from its start, the bytes, the line feeds, and the characters
behind the last line feed.

Results:
* `Scan.kindAndLength_pos`, `Scan.kindAndLength_le`: a scan stays within the text.
* `Position.advance_start`: walking over a text gives the place that is counted in it.
* `Tokens.span_of_ofText`: the span of a token, counted in the text in front of it.
* `Tokens.ofText_places`: the tokens of a text and their places, all in all.
-/

namespace SheetLint

/-! ## How far a scan goes -/

namespace Scan

theorem nameLength_le (t : Text) : nameLength t ≤ t.length := by
  fun_induction nameLength t with
  | case1 => exact Nat.zero_le _
  | case2 c cs _ ih => simpa using ih
  | case3 c cs _ _ ih => simpa using ih
  | case4 => exact Nat.zero_le _
  | case5 => exact Nat.zero_le _

theorem digitsLength_le (t : Text) : digitsLength t ≤ t.length :=
  (List.takeWhile_prefix _).length_le

theorem magnitudeLength_le (t : Text) : magnitudeLength t ≤ t.length := by
  have hwhole := digitsLength_le t
  unfold magnitudeLength
  simp only
  split
  · rename_i rest hdrop
    have hlength : (t.drop (digitsLength t)).length = rest.length + 1 := by rw [hdrop]; rfl
    rw [List.length_drop] at hlength
    have hrest := digitsLength_le rest
    split <;> omega
  · exact hwhole

theorem unitLength_le (t : Text) : unitLength t ≤ t.length := by
  unfold unitLength
  split
  · simp
  · split
    · exact nameLength_le t
    · exact Nat.zero_le _

theorem numberLength_le (t : Text) : numberLength t ≤ t.length := by
  have hmagnitude := magnitudeLength_le t
  have hunit := unitLength_le (t.drop (magnitudeLength t))
  rw [List.length_drop] at hunit
  unfold numberLength
  simp only
  omega

theorem stringTail_le (quote : Char) (t : Text) : (stringTail quote t).2 ≤ t.length := by
  fun_induction stringTail quote t with
  | case1 => exact Nat.zero_le _
  | case2 => exact Nat.le_refl _
  | case3 c cs tail ih => simpa [tail] using ih
  | case4 => exact Nat.zero_le _
  | case5 => simp
  | case6 c cs _ _ _ _ tail ih => simpa [tail] using ih

theorem commentTail?_le {t : Text} {n : Nat} (h : commentTail? t = some n) : n ≤ t.length := by
  induction t generalizing n with
  | nil => simp [commentTail?] at h
  | cons c cs ih =>
    unfold commentTail? at h
    split at h
    · cases h
      simp_all
    · rename_i heq
      obtain ⟨m, hm, rfl⟩ := Option.map_eq_some_iff.mp h
      cases heq
      simpa using ih hm
    · cases h

theorem interpolationTail?_le {depth : Nat} {quote : Option Char} {t : Text} {n : Nat}
    (h : interpolationTail? depth quote t = some n) : n ≤ t.length := by
  fun_induction interpolationTail? depth quote t generalizing n with
  | case1 | case2 => cases h
  | case3 _ _ _ _ ih =>
    obtain ⟨m, hm, rfl⟩ := Option.map_eq_some_iff.mp h
    simpa using ih hm
  | case4 _ _ _ _ _ _ ih | case5 _ _ _ _ ih | case6 _ _ _ ih | case8 _ _ _ _ ih
    | case9 _ _ _ _ _ _ ih =>
    obtain ⟨m, hm, rfl⟩ := Option.map_eq_some_iff.mp h
    simpa using ih hm
  | case7 =>
    cases h
    simp

theorem urlTail_le (t : Text) : (urlTail t).2 ≤ t.length := by
  fun_induction urlTail t with
  | case1 => exact Nat.zero_le _
  | case2 => simp
  | case3 => exact Nat.zero_le _
  | case4 c cs _ _ tail ih => simpa [tail] using ih

theorem nameOrUrl_le (t : Text) : (nameOrUrl t).2 ≤ t.length := by
  have hname := nameLength_le t
  unfold nameOrUrl
  simp only
  split
  · rename_i inside hdrop
    have hlength : (t.drop (nameLength t)).length = inside.length + 1 := by rw [hdrop]; rfl
    rw [List.length_drop] at hlength
    have hinside := urlTail_le inside
    split
    · simp only
      omega
    · exact hname
  · exact hname

/-- **A scan stays within the text.** -/
theorem kindAndLength_le (c : Char) (rest : Text) :
    (kindAndLength c rest).2 ≤ rest.length + 1 := by
  fun_cases kindAndLength c rest with
  | case1 | case2 => exact (List.takeWhile_prefix _).length_le
  | case3 _ _ hhead n htail =>
    have hn := commentTail?_le htail
    have : rest ≠ [] := by rintro rfl; simp at hhead
    have := List.length_pos_iff.mpr this
    rw [List.length_drop] at hn
    simp only
    omega
  | case4 | case9 => exact Nat.le_refl _
  | case5 => exact Nat.succ_le_succ (stringTail_le c rest)
  | case6 | case7 | case10 => exact Nat.succ_le_succ (nameLength_le rest)
  | case8 _ _ _ _ _ _ hhead n htail =>
    have hn := interpolationTail?_le htail
    have : rest ≠ [] := by rintro rfl; simp at hhead
    have := List.length_pos_iff.mpr this
    rw [List.length_drop] at hn
    simp only
    omega
  | case11 => exact numberLength_le (c :: rest)
  | case12 => exact Nat.succ_le_succ (numberLength_le rest)
  | case13 => exact nameOrUrl_le (c :: rest)
  | case14 | case15 | case16 => exact Nat.le_add_left _ _

theorem nameLength_pos {t : Text} (h : startsName t = true) : 0 < nameLength t := by
  unfold startsName at h
  split at h
  · simp [nameLength, isNameChar]
  · rename_i c cs
    have hc : c ≠ '\n' := by simpa using h
    simp [nameLength, hc]
  · rename_i c cs _ hescape
    have hc : isNameChar c = true := by simp [isNameChar, h]
    unfold nameLength
    split
    · rename_i heq
      cases heq
      exact absurd rfl (hescape _ _ rfl)
    · rename_i heq
      cases heq
      simp [hc]
    · rename_i heq
      cases heq
  · cases h

theorem magnitudeLength_pos {t : Text} (h : startsMagnitude t = true) :
    0 < magnitudeLength t := by
  unfold startsMagnitude at h
  split at h
  · rename_i c cs
    have hlength : magnitudeLength ('.' :: c :: cs) = 0 + 1 + digitsLength (c :: cs) := by
      simp [magnitudeLength, digitsLength, startsWith, h]
    omega
  · rename_i c cs _
    have hdigits : 0 < digitsLength (c :: cs) := by simp [digitsLength, h]
    unfold magnitudeLength
    simp only
    split
    · split <;> omega
    · exact hdigits
  · cases h

theorem numberLength_pos {t : Text} (h : startsMagnitude t = true) : 0 < numberLength t :=
  Nat.lt_of_lt_of_le (magnitudeLength_pos h) (Nat.le_add_right _ _)

theorem nameOrUrl_pos {t : Text} (h : startsName t = true) : 0 < (nameOrUrl t).2 := by
  have hname := nameLength_pos h
  unfold nameOrUrl
  simp only
  split
  · split
    · simp only
      omega
    · exact hname
  · exact hname

/-- **A scan takes something.** -/
theorem kindAndLength_pos (c : Char) (rest : Text) : 0 < (kindAndLength c rest).2 := by
  fun_cases kindAndLength c rest with
  | case1 hspace => simp [hspace]
  | case2 _ hslash =>
    have hc : c = '/' := by simp_all
    simp [hc, isLineBreak]
  | case11 _ _ _ _ _ _ _ _ hmagnitude => exact numberLength_pos hmagnitude
  | case13 _ _ _ _ _ _ _ _ _ _ hname => exact nameOrUrl_pos hname
  | case3 | case4 | case5 | case6 | case7 | case8 | case9 | case10 | case12 | case14 | case15
    | case16 => exact Nat.succ_pos _

end Scan

/-! ## Bytes of a text -/

namespace Text

/-- The size of a text is the number of bytes of its UTF-8 form. -/
theorem size_eq_utf8ByteSize (t : Text) : size t = (String.ofList t).utf8ByteSize := by
  induction t with
  | nil => rfl
  | cons c cs ih =>
    rw [size_cons, ih, String.utf8ByteSize_ofList, String.utf8ByteSize_ofList, String.utf8Len_cons,
      Nat.add_comm]

/-- The bytes of a text between two of its parts are those of the part between them. -/
theorem extract_toUTF8 (a b c : Text) :
    (String.ofList (a ++ b ++ c)).toUTF8.extract a.size (a ++ b).size =
      (String.ofList b).toUTF8 := by
  change (String.ofList (a ++ b ++ c)).toByteArray.extract (a.size + 0) _ =
    (String.ofList b).toByteArray
  rw [List.append_assoc, String.ofList_append, String.toByteArray_append, size_append,
    ByteArray.extract_append_size_add' (size_eq_utf8ByteSize a), String.ofList_append,
    String.toByteArray_append]
  exact ByteArray.extract_append_eq_left (size_eq_utf8ByteSize b)

end Text

/-! ## Places counted in the text -/

namespace Position

/-- The place behind a text: the bytes and the line feeds in it, and the characters behind the last
of these. Lines and columns count from 1. -/
def behind (t : Text) : Position := ⟨t.size, t.count '\n' + 1, (Indent.lastLine t).length + 1⟩

theorem step_behind (t : Text) (c : Char) : (behind t).step c = behind (t ++ [c]) := by
  unfold step behind Indent.lastLine
  by_cases hc : c = '\n'
  · simp [hc]
  · simp [hc]

/-- **Walking over a text gives the place that is counted in it.** -/
theorem advance_start (t : Text) : start.advance t = behind t := by
  induction t using List.reverseRecOn with
  | nil => rfl
  | append_singleton t c ih => rw [advance_append, ih, ← step_behind]; rfl

end Position

/-! ## The places of tokens -/

namespace Tokens

variable {t : Text} {before after : List Token} {k : Token}

/-- The span of a token is where its text stands. -/
theorem span_of_ofTextAt (place : Position) (t : Text) :
    ∀ before, ofTextAt place t = before ++ k :: after →
      k.span = ⟨place.advance (text before), place.advance (text before ++ k.text)⟩ := by
  fun_induction ofTextAt place t with
  | case1 => simp
  | case2 place c rest scanned more taken stop ih =>
    intro before h
    cases before with
    | nil =>
      obtain ⟨rfl, -⟩ := List.cons.inj h
      simp [stop]
    | cons first before =>
      obtain ⟨rfl, hmore⟩ := List.cons.inj h
      rw [ih before hmore]
      simp [stop]

/-- **The scanner says how long a token is.** It never asks for more than there is. -/
theorem scan_of_ofTextAt (place : Position) (t : Text) :
    ∀ before, ofTextAt place t = before ++ k :: after →
      ∃ c rest, k.text ++ text after = c :: rest
        ∧ Scan.kindAndLength c rest = (k.kind, k.text.length) := by
  fun_induction ofTextAt place t with
  | case1 => simp
  | case2 place c rest scanned more taken stop ih =>
    intro before h
    cases before with
    | nil =>
      obtain ⟨rfl, hafter⟩ := List.cons.inj h
      refine ⟨c, rest, ?_, ?_⟩
      · rw [← hafter, text_ofTextAt]
        simp [taken]
      · have hle := Scan.kindAndLength_le c rest
        have hpos := Scan.kindAndLength_pos c rest
        have hlength : taken.length = scanned.2 := by
          simp only [taken, more, scanned, List.length_cons, List.length_take]
          omega
        rw [hlength]
    | cons first before =>
      obtain ⟨rfl, hmore⟩ := List.cons.inj h
      exact ih before hmore

/-- The span of a token, counted in the text. -/
theorem span_of_ofText (h : ofText t = before ++ k :: after) :
    k.span = ⟨.behind (text before), .behind (text before ++ k.text)⟩ := by
  rw [← Position.advance_start, ← Position.advance_start]
  exact span_of_ofTextAt .start t before h

theorem text_eq_of_ofText (h : ofText t = before ++ k :: after) :
    t = text before ++ k.text ++ text after := by
  rw [← text_ofText t, h]
  simp

theorem head?_ofTextAt (place : Position) (t : Text) :
    ∀ k ∈ (ofTextAt place t).head?, k.span.start = place := by
  cases t with
  | nil => simp [ofTextAt]
  | cons c rest => simp [ofTextAt]

/-- Each token starts where the one in front of it stops. -/
theorem isChain_ofTextAt (place : Position) (t : Text) :
    (ofTextAt place t).IsChain fun k next => next.span.start = k.span.stop := by
  fun_induction ofTextAt place t with
  | case1 => exact List.IsChain.nil
  | case2 place c rest scanned more taken stop ih =>
    exact List.IsChain.cons ih (head?_ofTextAt stop _)

theorem length_ofTextAt_le (place : Position) (t : Text) :
    (ofTextAt place t).length ≤ t.length := by
  fun_induction ofTextAt place t with
  | case1 => exact Nat.zero_le _
  | case2 place c rest scanned more taken stop ih =>
    rw [List.length_drop] at ih
    simp only [List.length_cons]
    omega

/-- How a token `k` stands in a text, behind the tokens `before` and in front of `after`. -/
structure Stands (t : Text) (before : List Token) (k : Token) (after : List Token) : Prop where
  ne_nil : k.text ≠ []
  start_eq : k.span.start = .behind (text before)
  stop_eq : k.span.stop = .behind (text before ++ k.text)
  /-- The bytes between its offsets are those of its text, no more and no character cut apart. -/
  bytes : (String.ofList t).toUTF8.extract k.start k.stop = (String.ofList k.text).toUTF8
  /-- It has the kind and the length that the scanner finds at its place, cut short nowhere. -/
  scanned : ∃ c rest, k.text ++ text after = c :: rest
    ∧ Scan.kindAndLength c rest = (k.kind, k.text.length)

/-- **Tokens tile the text, and their places are exact.** -/
theorem ofText_places (t : Text) :
    text (ofText t) = t ∧ (ofText t).length ≤ t.length
      ∧ (∀ k ∈ (ofText t).head?, k.span.start = ⟨0, 1, 1⟩)
      ∧ ((ofText t).IsChain fun k next => next.span.start = k.span.stop)
      ∧ ∀ before k after, ofText t = before ++ k :: after → Stands t before k after := by
  refine ⟨text_ofText t, length_ofTextAt_le _ t, head?_ofTextAt .start t, isChain_ofTextAt .start t,
    fun before k after h => ?_⟩
  have hspan := span_of_ofText h
  have hmem : k ∈ ofText t := by simp [h]
  refine ⟨ne_nil_of_mem_ofText hmem, by rw [hspan], by rw [hspan], ?_,
    scan_of_ofTextAt .start t before h⟩
  rw [text_eq_of_ofText h, Token.start, Token.stop, hspan]
  exact Text.extract_toUTF8 (text before) k.text (text after)

/-- Behind a character of two bytes and a line feed, a name starts in the second line. -/
theorem ofText_places_second_line :
    let before : List Token :=
      [⟨.ident, ['é'], ⟨⟨0, 1, 1⟩, ⟨2, 1, 2⟩⟩⟩, ⟨.whitespace, ['\n', ' '], ⟨⟨2, 1, 2⟩, ⟨4, 2, 2⟩⟩⟩]
    let name : Token := ⟨.ident, ['b'], ⟨⟨4, 2, 2⟩, ⟨5, 2, 3⟩⟩⟩
    ofText ['é', '\n', ' ', 'b'] = before ++ name :: [] ∧
      Stands ['é', '\n', ' ', 'b'] before name [] := by
  have htokens : ofText ['é', '\n', ' ', 'b'] =
      [⟨.ident, ['é'], ⟨⟨0, 1, 1⟩, ⟨2, 1, 2⟩⟩⟩,
        ⟨.whitespace, ['\n', ' '], ⟨⟨2, 1, 2⟩, ⟨4, 2, 2⟩⟩⟩] ++
        ⟨.ident, ['b'], ⟨⟨4, 2, 2⟩, ⟨5, 2, 3⟩⟩⟩ :: [] := by cbv
  exact ⟨htokens, (ofText_places _).2.2.2.2 _ _ _ htokens⟩

end Tokens

end SheetLint
