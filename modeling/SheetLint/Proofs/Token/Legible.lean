import SheetLint.Proofs.Token.Endings

/-!
# Tokens that their text is read as

A list of tokens is *legible* when each of them is read in front of the text of the later ones. This
is when the text of the list is read as the list, so a rule that replaces the text of some tokens
changes no other token exactly when the new list is legible. A token stays legible in front of a
text that offers no more than the old one.

Results:
* `Tokens.legible_iff`: the lists that their text is read as.
* `Token.ReadsBefore.of_offers`: a token in front of a text that offers no more.
-/

namespace SheetLint

open Scan

/-! ## What a token is read in front of -/

/-- Whether a token is read off its text in front of another text. -/
def Token.ReadsBefore (t : Token) (s : Text) : Prop :=
  ∃ c w, t.text = c :: w ∧ kindAndLength c (w ++ s) = (t.kind, w.length + 1)

/-- The punctuation that is a token by itself, whatever stands around it. -/
def Scan.marks : List Char := ['%', '(', ')', ',', ';']

theorem Scan.kindAndLength_of_mem_marks {c : Char} (hc : c ∈ marks) (s : Text) :
    kindAndLength c s = (.punct, 1) := by
  simp only [marks, List.mem_cons, List.not_mem_nil, or_false] at hc
  rcases hc with rfl | rfl | rfl | rfl | rfl <;>
    simp [kindAndLength, isSpace, startsMagnitude, startsName, isNameStart, isWide, isPunctuation]

/-- Whether a token goes on with digits. -/
def Token.takesDigits (t : Token) : Bool := Scan.takesDigits t.kind t.text

/-- Whether a token goes on with a character behind it that does not end its line. -/
def Token.isUnending (t : Token) : Bool := t.kind == .lineComment || t.text == ['\\']

namespace Scan

/-- Whether a text starts no name that another one does not start, and offers a backslash no more to
escape. -/
structure OffersNoName (s s' : Text) : Prop where
  name : startsName s' = true → startsName s = true
  escaped : startsName ('\\' :: s') = true → startsName ('\\' :: s) = true

variable {s s' : Text} {c : Char}

theorem OffersNoName.refl (s : Text) : OffersNoName s s := ⟨id, id⟩

/-- A first character in common other than a backslash. -/
theorem OffersNoName.of_cons (h : OffersNoMoreHere s s') (hc : c ≠ '\\') :
    OffersNoName (c :: s) (c :: s') where
  name := by
    by_cases hdash : c = '-'
    · subst hdash
      exact h.dashed
    · simp [startsName, hdash, hc]
  escaped := by simp [startsName]

theorem OffersNoName.cons (h : OffersNoMore s s') (hname : OffersNoName s s') (c : Char) :
    OffersNoName (c :: s) (c :: s') := by
  by_cases hc : c = '\\'
  · subst hc
    exact ⟨hname.escaped, by simp [startsName]⟩
  · exact .of_cons h.toOffersNoMoreHere hc

/-- **Two texts with a common front.** -/
theorem OffersNoName.append (h : OffersNoMore s s') (hname : OffersNoName s s') (u : Text) :
    OffersNoName (u ++ s) (u ++ s') := by
  induction u with
  | nil => exact hname
  | cons c u ih => exact .cons (h.append u) ih c

/-- Whether a text offers no more than another one that starts with the same character. -/
structure StartsLike (s s' : Text) : Prop where
  offers : OffersNoMore s s'
  digits : OffersNoDigits s s'
  name : OffersNoName s s'
  head : s'.head? = s.head?

theorem StartsLike.refl (s : Text) : StartsLike s s :=
  ⟨.refl s, ⟨id, id, id⟩, .refl s, rfl⟩

theorem StartsLike.append (h : StartsLike s s') (u : Text) : StartsLike (u ++ s) (u ++ s') := by
  refine ⟨h.offers.append u, h.digits.append u, .append h.offers h.name u, ?_⟩
  cases u with
  | nil => exact h.head
  | cons => rfl

end Scan

namespace Token

variable {t : Token} {s s' : Text}

theorem ReadsBefore.congr {k : Token} (h : t.ReadsBefore s) (hkind : k.kind = t.kind)
    (htext : k.text = t.text) : k.ReadsBefore s := by
  obtain ⟨c, w, hw, hscan⟩ := h
  exact ⟨c, w, htext.trans hw, by rw [hkind]; exact hscan⟩

theorem ReadsBefore.ne_nil (h : t.ReadsBefore s) : t.text ≠ [] := by
  obtain ⟨c, w, htext, -⟩ := h
  rw [htext]
  exact List.cons_ne_nil c w

/-- Whitespace is what starts with space. -/
theorem ReadsBefore.isSpace_head_iff (h : t.ReadsBefore s) :
    startsWith isSpace t.text = true ↔ t.isWhitespace = true := by
  obtain ⟨c, w, htext, hscan⟩ := h
  have hkind := kindAndLength_whitespace_iff c (w ++ s)
  rw [hscan] at hkind
  rw [htext, isWhitespace, beq_iff_eq]
  exact hkind.symm

theorem readsBefore_mark {c : Char} (hc : c ∈ marks) (span : Span) (s : Text) :
    (⟨.punct, [c], span⟩ : Token).ReadsBefore s := ⟨c, [], rfl, kindAndLength_of_mem_marks hc s⟩

/-- What starts with such punctuation is no more than that. -/
theorem ReadsBefore.isPunct_of_head {c : Char} (h : t.ReadsBefore s) (hc : c ∈ marks)
    (hhead : t.text.head? = some c) : t.isPunct c = true := by
  obtain ⟨d, w, htext, hscan⟩ := h
  rw [htext] at hhead
  obtain rfl : d = c := Option.some.inj hhead
  rw [kindAndLength_of_mem_marks hc, Prod.mk.injEq] at hscan
  obtain rfl : w = [] := List.length_eq_zero_iff.mp (Nat.succ_inj.mp hscan.2).symm
  simp [isPunct, ← hscan.1, htext]

/-- **A token is read in front of a text that offers no more**, unless it goes on there with a name. -/
theorem ReadsBefore.or_goesOn (h : t.ReadsBefore s) (herror : t.kind ≠ .error)
    (hoffers : OffersNoMoreHere s s') (hdigits : t.takesDigits = true → OffersNoDigits s s')
    (hspace : t.kind = .whitespace → startsWith isSpace s' = false)
    (hline : t.kind = .lineComment → s' = [] ∨ startsWith isLineBreak s' = true)
    (hlone : t.text = ['\\'] → startsName ('\\' :: s') = false) :
    t.ReadsBefore s' ∨ ∃ c w, t.text = c :: w
      ∧ GoesOnWithName s s' (w.length + 1) (kindAndLength c (w ++ s')).2 := by
  obtain ⟨c, w, htext, hscan⟩ := h
  rw [htext] at hlone
  have hdigits' : Scan.takesDigits t.kind (c :: w) = true → OffersNoDigits s s' := by
    rw [← htext]
    exact hdigits
  exact (kindAndLength_offers hscan herror hoffers.toOffersNothingNew (fun _ => hoffers.escape) hdigits'
    hspace hline hlone).imp
    (fun hscan' => ⟨c, w, htext, hscan'⟩) fun hgoes => ⟨c, w, htext, hgoes⟩

/-- A lone backslash stands in front of nothing that it escapes. -/
theorem ReadsBefore.lone (h : t.ReadsBefore s) (htext : t.text = ['\\']) :
    startsName ('\\' :: s) = false := by
  obtain ⟨c, w, hw, hscan⟩ := h
  rw [htext, List.cons.injEq] at hw
  obtain ⟨rfl, rfl⟩ := hw
  refine Bool.eq_false_iff.mpr fun hname => ?_
  rw [List.nil_append, kindAndLength_of_startsName hname] at hscan
  cases s with
  | nil => cases hname
  | cons x s =>
    have hx : x ≠ '\n' := by simpa [startsName] using hname
    have hlong : 2 ≤ nameLength ('\\' :: x :: s) := by simp [nameLength, hx]
    have hle := nameLength_le_nameOrUrl ('\\' :: x :: s)
    rw [hscan, List.length_nil] at hle
    omega

/-- What is read where a space stands is the whitespace up to the next character that is none. -/
theorem ReadsBefore.whitespace_of_startsWith (h : t.ReadsBefore s)
    (hspace : startsWith isSpace (t.text ++ s) = true) :
    t.kind = .whitespace ∧ t.text = (t.text ++ s).takeWhile isSpace := by
  obtain ⟨c, w, htext, hscan⟩ := h
  rw [htext] at hspace ⊢
  have hc : isSpace c = true := hspace
  unfold kindAndLength at hscan
  rw [if_pos hc, Prod.mk.injEq] at hscan
  obtain ⟨hkind, hlength⟩ := hscan
  refine ⟨hkind.symm, ?_⟩
  have hprefix := List.prefix_of_prefix_length_le (List.prefix_append (c :: w) s)
    (List.takeWhile_prefix isSpace) (Nat.le_of_eq hlength.symm)
  exact hprefix.eq_of_length hlength.symm

/-- A whitespace token is whitespace. -/
theorem ReadsBefore.isBlank (h : t.ReadsBefore s) (ht : t.isWhitespace = true) : t.text.IsBlank := by
  have hspace : startsWith isSpace (t.text ++ s) = true := by
    rw [startsWith_append h.ne_nil]
    exact h.isSpace_head_iff.mpr ht
  rw [(h.whitespace_of_startsWith hspace).2]
  exact fun c hc => List.mem_takeWhile_imp hc

/-- Whitespace is read in front of what starts with none. -/
theorem readsBefore_blank {blank : Text} (hne : blank ≠ []) (hblank : blank.IsBlank)
    (hs : startsWith isSpace s = false) (span : Span) :
    (⟨.whitespace, blank, span⟩ : Token).ReadsBefore s := by
  obtain ⟨c, u, rfl⟩ := List.exists_cons_of_ne_nil hne
  refine ⟨c, u, rfl, ?_⟩
  have hall : ((c :: u) ++ s).takeWhile isSpace = c :: u := by
    rw [List.takeWhile_append_of_pos hblank]
    cases s with
    | nil => simp
    | cons d rest =>
      have hd : isSpace d = false := hs
      rw [List.takeWhile_cons_of_neg (Bool.eq_false_iff.mp hd), List.append_nil]
  exact kindAndLength_space (hblank c List.mem_cons_self) (congrArg List.length hall) hs

/-- No whitespace goes on with a space. -/
theorem ReadsBefore.space (h : t.ReadsBefore s) (hkind : t.kind = .whitespace) :
    startsWith isSpace s = false := by
  obtain ⟨c, w, -, hscan⟩ := h
  rw [hkind] at hscan
  have hc := (kindAndLength_whitespace_iff c (w ++ s)).mp (by rw [hscan])
  unfold kindAndLength at hscan
  rw [if_pos hc, Prod.mk.injEq] at hscan
  cases s with
  | nil => rfl
  | cons d s => exact of_length_takeWhile (u := c :: w) hscan.2

/-- A line comment ends with its line. -/
theorem ReadsBefore.line (h : t.ReadsBefore s) (hkind : t.kind = .lineComment) :
    s = [] ∨ startsWith isLineBreak s = true := by
  obtain ⟨c, w, -, hscan⟩ := h
  have hlength := kindAndLength_lineComment (by rw [hscan]; exact hkind)
  rw [hscan] at hlength
  cases s with
  | nil => exact .inl rfl
  | cons d s =>
    have hstop : (!isLineBreak d) = false := of_length_takeWhile (u := c :: w) hlength.symm
    exact .inr (by simpa [startsWith] using hstop)

/-- A token is read in front of a text that offers no more, and starts no name. -/
theorem ReadsBefore.of_offers (h : t.ReadsBefore s) (herror : t.kind ≠ .error)
    (hoffers : OffersNoMore s s') (hname : OffersNoName s s')
    (hdigits : t.takesDigits = true → OffersNoDigits s s')
    (hspace : t.kind = .whitespace → startsWith isSpace s' = false)
    (hline : t.kind = .lineComment → s' = [] ∨ startsWith isLineBreak s' = true) :
    t.ReadsBefore s' := by
  refine (h.or_goesOn herror hoffers.toOffersNoMoreHere hdigits hspace hline
    fun htext => ?_).resolve_right ?_
  · refine Bool.eq_false_iff.mpr fun hescaped => ?_
    have hlone := h.lone htext
    rw [hname.escaped hescaped] at hlone
    cases hlone
  · rintro ⟨c, w, -, hnone, hsome, -⟩
    rw [hname.name hsome] at hnone
    cases hnone

/-- A token is read in front of a text that starts like the one behind it. -/
theorem ReadsBefore.of_startsLike (h : t.ReadsBefore s) (herror : t.kind ≠ .error)
    (hlike : StartsLike s s') : t.ReadsBefore s' := by
  refine h.of_offers herror hlike.offers hlike.name (fun _ => hlike.digits) (fun hkind => ?_)
    fun hkind => ?_
  · rw [startsWith_eq_of_head? hlike.head]
    exact h.space hkind
  · rw [startsWith_eq_of_head? hlike.head, ← List.head?_eq_none_iff, hlike.head,
      List.head?_eq_none_iff]
    exact h.line hkind

end Token

/-! ## Lists of tokens -/

namespace Tokens

/-- Whether each token is read in front of the text of the later ones. -/
def Legible : List Token → Prop
  | [] => True
  | t :: ts => t.ReadsBefore (text ts) ∧ Legible ts

variable {ts : List Token}

/-- **The lists of tokens that their text is read as.** -/
theorem legible_iff (place : Position) :
    Legible ts ↔ (ofTextAt place (text ts)).map Token.bare = ts.map Token.bare := by
  induction ts generalizing place with
  | nil => simp [Legible, ofTextAt]
  | cons t ts ih =>
    constructor
    · rintro ⟨⟨c, w, htext, hscan⟩, hlater⟩
      rw [text_cons, htext, List.cons_append, ofTextAt_eq_cons place hscan, List.map_cons,
        List.map_cons, (ih _).mp hlater, Token.bare, Token.bare, htext]
    · intro h
      cases htokens : ofTextAt place (text (t :: ts)) with
      | nil =>
        rw [htokens] at h
        cases h
      | cons k ks =>
        rw [htokens, List.map_cons, List.map_cons, List.cons.injEq] at h
        obtain ⟨hbare, hlater⟩ := h
        obtain ⟨hkind, hsame, -⟩ := Token.mk.inj hbare
        obtain ⟨c, w, hk, hscan, hmore⟩ := exists_scan_of_ofTextAt_eq_cons htokens
        have hrest : text ks = text ts := by
          have hwhole := text_ofTextAt place (text (t :: ts))
          rw [htokens, text_cons, text_cons, hsame] at hwhole
          exact List.append_cancel_left hwhole
        rw [hrest] at hscan hmore
        refine ⟨⟨c, w, hsame ▸ hk, hkind ▸ hscan⟩, (ih (place.advance k.text)).mpr ?_⟩
        rw [hmore]
        exact hlater

theorem legible_of_ofTextAt {place : Position} {s : Text} (h : ofTextAt place s = ts) :
    Legible ts := by
  rw [legible_iff place, ← h, text_ofTextAt]

theorem legible_ofText (source : Text) : Legible (ofText source) :=
  legible_of_ofTextAt (rfl : ofTextAt .start source = _)

theorem Legible.of_append {front back : List Token} (h : Legible (front ++ back)) :
    Legible back := by
  induction front with
  | nil => exact h
  | cons t front ih => exact ih h.2

/-- What a token in the middle of a legible list is read in front of. -/
theorem Legible.readsBefore {front back : List Token} {t : Token}
    (h : Legible (front ++ t :: back)) : t.ReadsBefore (text back) := h.of_append.1

/-- Each token of a text is read in front of what stands behind it. -/
theorem exists_readsBefore {source : Text} {t : Token} (h : t ∈ ofText source) :
    ∃ s, t.ReadsBefore s := by
  obtain ⟨before, after, hsplit⟩ := List.append_of_mem h
  exact ⟨text after, Legible.readsBefore (hsplit ▸ legible_ofText source)⟩

/-- No whitespace stands behind whitespace. -/
theorem Legible.isWhitespace_of_space {t next : Token} (h : Legible (t :: next :: ts))
    (ht : t.isWhitespace = true) : next.isWhitespace = false := by
  obtain ⟨hreads, ⟨c, w, htext, hscan⟩, -⟩ := h
  have hspace := hreads.space (beq_iff_eq.mp ht)
  rw [text_cons, htext] at hspace
  rw [Token.isWhitespace, beq_eq_false_iff_ne]
  intro hkind
  have hc := (Scan.kindAndLength_whitespace_iff c (w ++ text ts)).mp (by rw [hscan, hkind])
  simp [Scan.startsWith, hc] at hspace

/-- A run of whitespace in a text is at most one token. -/
theorem length_le_one_of_isInfix {source : Text} {run : List Token} (h : run <:+: ofText source)
    (hrun : IsSpace run) : run.length ≤ 1 := by
  obtain ⟨front, back, hsource⟩ := h
  rw [List.append_assoc] at hsource
  have hlegible := (hsource ▸ legible_ofText source).of_append
  match run with
  | [] => exact Nat.zero_le _
  | [t] => exact Nat.le_refl _
  | t :: next :: run =>
    have hword := hlegible.isWhitespace_of_space (hrun t List.mem_cons_self)
    rw [hrun next (by simp)] at hword
    cases hword

end Tokens

end SheetLint
