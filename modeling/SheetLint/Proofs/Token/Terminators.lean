import Mathlib.Data.List.DropRight
import SheetLint.Proofs.Token.LetterCase

/-!
# Where delimited tokens end

A string, a comment, an interpolation and an unquoted `url(` go on to what closes them: the quote
they start with, `*/`, the brace that leaves as many closed as opened, a parenthesis. What counts as
such a *terminator* is said here without the scans. A quote closes a string where no backslash
escapes it, and a backslash escapes where it is not escaped itself, which the number of backslashes
in a row tells. Braces count outside of quoted strings only. Each scan stops at the first terminator,
and fails only where there is none: in front of a line break for strings and `url(`, in the whole
rest of the text for the other two.

Results:
* `Scan.exists_inside_of_stringTail`, `Scan.stringTail_of_closed`: strings.
* `Scan.commentTail?_take`, `Scan.not_infix_of_commentTail?`: comments.
* `Scan.closes_of_interpolationTail?`, `Scan.interpolationTail?_of_closes`: interpolations.
* `Tokens.endsAtTerminator_of_ofText`: the tokens of a text.
-/

namespace SheetLint

namespace Scan

variable {q c : Char} {depth n : Nat} {quote : Option Char} {p : Char → Prop}
  {s t u inside : Text}

/-! ## Escapes -/

/-- Whether a text ends with a backslash that escapes what stands behind it: one that is not escaped
itself, so the last of an odd number of them. -/
def EndsEscaping (t : Text) : Prop := (t.rtakeWhile (· == '\\')).length % 2 = 1

instance (t : Text) : Decidable (EndsEscaping t) := inferInstanceAs (Decidable (_ = _))

/-- Whether the characters of a class stand in a text only where they are escaped. -/
def OnlyEscaped (p : Char → Prop) (t : Text) : Prop :=
  ∀ front c back, t = front ++ c :: back → p c → EndsEscaping front

theorem not_endsEscaping_nil : ¬ EndsEscaping [] := by decide

theorem endsEscaping_concat : EndsEscaping (t ++ [c]) ↔ c = '\\' ∧ ¬ EndsEscaping t := by
  unfold EndsEscaping
  rw [List.rtakeWhile_concat]
  by_cases hc : c = '\\'
  · simp only [hc, beq_self_eq_true, if_true, List.length_append, List.length_singleton, true_and]
    omega
  · simp [hc]

/-- What stands in front of a text has no say in it, unless it escapes the first character. -/
theorem endsEscaping_append (hu : ¬ EndsEscaping u) (t : Text) :
    EndsEscaping (u ++ t) ↔ EndsEscaping t := by
  induction t using List.reverseRecOn with
  | nil => simpa using iff_of_false hu not_endsEscaping_nil
  | append_singleton t c ih =>
    rw [← List.append_assoc, endsEscaping_concat, endsEscaping_concat, ih]

theorem not_endsEscaping_singleton (hc : c ≠ '\\') : ¬ EndsEscaping [c] := by
  rw [← List.nil_append [c], endsEscaping_concat]
  exact fun h => hc h.1

/-- What is escaped escapes nothing. -/
theorem not_endsEscaping_escape (c : Char) : ¬ EndsEscaping ['\\', c] := by
  rw [← List.singleton_append, endsEscaping_concat]
  exact fun h => h.2 (by decide)

theorem onlyEscaped_nil : OnlyEscaped p [] := fun front c back h =>
  absurd h.symm (List.append_ne_nil_of_right_ne_nil front (List.cons_ne_nil c back))

theorem onlyEscaped_append (hu : ¬ EndsEscaping u) :
    OnlyEscaped p (u ++ t) ↔ OnlyEscaped p u ∧ OnlyEscaped p t := by
  constructor
  · refine fun h => ⟨fun a c b hcut hc => h a c (b ++ t) (by simp [hcut]) hc, fun a c b hcut hc => ?_⟩
    exact (endsEscaping_append hu a).mp (h (u ++ a) c b (by simp [hcut]) hc)
  · rintro ⟨hin, hbehind⟩ a c b hcut hc
    rcases List.append_eq_append_iff.mp hcut with ⟨a', rfl, ht⟩ | ⟨b', hu', hb⟩
    · exact (endsEscaping_append hu a').mpr (hbehind a' c b ht hc)
    · cases b' with
      | nil =>
        rw [List.append_nil] at hu'
        subst hu'
        exact absurd (hbehind [] c b hb.symm hc) not_endsEscaping_nil
      | cons x b' =>
        obtain ⟨rfl, -⟩ := List.cons.inj hb
        exact hin a c b' hu' hc

theorem onlyEscaped_singleton : OnlyEscaped p [c] ↔ ¬ p c := by
  refine ⟨fun h hc => not_endsEscaping_nil (h [] c [] rfl hc), fun hc a d b hcut hd => ?_⟩
  obtain ⟨rfl, h⟩ | ⟨a', rfl, h⟩ := List.cons_eq_append_iff.mp hcut
  · exact absurd ((List.cons.inj h).1 ▸ hd) hc
  · simp at h

/-- An escape shows nothing of a class that backslashes are not in. -/
theorem onlyEscaped_escape (hp : ¬ p '\\') (c : Char) : OnlyEscaped p ['\\', c] := by
  rintro a d b hcut hd
  match a with
  | [] => exact absurd ((List.cons.inj hcut).1 ▸ hd) hp
  | ['\\'] => decide
  | x :: y :: a => simp at hcut

theorem OnlyEscaped.mono {p' : Char → Prop} (h : OnlyEscaped p t) (hp : ∀ c ∈ t, p' c → p c) :
    OnlyEscaped p' t := fun front c back hcut hc =>
  h front c back hcut (hp c (by simp [hcut]) hc)

/-! ## Strings -/

/-- What must not stand bare between two quotes. -/
def Closing (q c : Char) : Prop := c = q ∨ isLineBreak c = true

/-- **What stands between the quotes of a string**: the quote and line breaks only where they are
escaped, and at the end nothing that would escape the closing quote. -/
structure IsInside (q : Char) (inside : Text) : Prop where
  escaped : OnlyEscaped (Closing q) inside
  closed : ¬ EndsEscaping inside

/-- What stands between two quotes may stand between others that do not occur in it. -/
theorem IsInside.requoted {q' : Char} (h : IsInside q inside) (hfree : q' ∉ inside) :
    IsInside q' inside where
  escaped := h.escaped.mono fun _ hc hclosing =>
    .inr (hclosing.resolve_left fun heq => hfree (heq ▸ hc))
  closed := h.closed

theorem not_closing_backslash (hq : isQuote q = true) : ¬ Closing q '\\' := by
  rintro (rfl | h)
  · cases hq
  · cases h

/-- **A string goes on to its first bare quote**, and there is no bare line break in front of that. -/
theorem exists_inside_of_stringTail (hq : isQuote q = true) (h : (stringTail q t).1 = .string) :
    ∃ inside more, t = inside ++ q :: more ∧ (stringTail q t).2 = inside.length + 1
      ∧ IsInside q inside := by
  fun_induction stringTail q t with
  | case1 | case2 | case4 => cases h
  | case3 c cs tail ih =>
    obtain ⟨inside, more, rfl, hlength, hinside⟩ := ih h
    have hesc := not_endsEscaping_escape c
    refine ⟨['\\', c] ++ inside, more, rfl, congrArg (· + 2) hlength, ?_,
      mt (endsEscaping_append hesc inside).mp hinside.closed⟩
    exact (onlyEscaped_append hesc).mpr
      ⟨onlyEscaped_escape (not_closing_backslash hq) c, hinside.escaped⟩
  | case5 => exact ⟨[], _, rfl, rfl, onlyEscaped_nil, not_endsEscaping_nil⟩
  | case6 c cs hone hescape hbreak hquote tail ih =>
    obtain ⟨inside, more, rfl, hlength, hinside⟩ := ih h
    have hc := not_endsEscaping_singleton (ne_backslash_of_not_escape hone hescape)
    refine ⟨[c] ++ inside, more, rfl, congrArg (· + 1) hlength, ?_,
      mt (endsEscaping_append hc inside).mp hinside.closed⟩
    exact (onlyEscaped_append hc).mpr
      ⟨onlyEscaped_singleton.mpr (not_or.mpr ⟨hquote, hbreak⟩), hinside.escaped⟩

/-- A quote that is not escaped closes the string in front of it, there or before, if no bare line
break ends it. -/
theorem stringTail_of_closed (hq : isQuote q = true) (hclosed : ¬ EndsEscaping inside)
    (hline : OnlyEscaped (isLineBreak · = true) inside) (more : Text) :
    (stringTail q (inside ++ q :: more)).1 = .string
      ∧ (stringTail q (inside ++ q :: more)).2 ≤ inside.length + 1 := by
  have hq' : q ≠ '\\' := by
    rintro rfl
    cases hq
  have hbreak : ¬ isLineBreak q = true := by
    rcases Bool.or_eq_true_iff.mp hq with hc | hc <;> rw [beq_iff_eq.mp hc] <;> decide
  fun_induction stringTail q inside with
  | case1 => simp [stringTail_cons hq', hbreak]
  | case2 => exact absurd (by decide) hclosed
  | case3 c cs tail ih =>
    have hesc := not_endsEscaping_escape c
    have hbehind := ih (mt (endsEscaping_append hesc cs).mpr hclosed)
      ((onlyEscaped_append hesc).mp hline).2
    simp only [List.cons_append, stringTail, List.length_cons]
    exact ⟨hbehind.1, by omega⟩
  | case4 c cs hone hescape hc =>
    have hesc := not_endsEscaping_singleton (ne_backslash_of_not_escape hone hescape)
    exact absurd hc (onlyEscaped_singleton.mp ((onlyEscaped_append (u := [c]) hesc).mp hline).1)
  | case5 cs => simp [stringTail_cons hq', hbreak]
  | case6 c cs hone hescape hc hquote tail ih =>
    have hplain := ne_backslash_of_not_escape hone hescape
    have hesc := not_endsEscaping_singleton hplain
    have hbehind := ih (mt (endsEscaping_append hesc cs).mpr hclosed)
      ((onlyEscaped_append (u := [c]) hesc).mp hline).2
    rw [List.cons_append, stringTail_cons hplain, if_neg hc, if_neg hquote]
    exact ⟨hbehind.1, Nat.succ_le_succ hbehind.2⟩

/-- What may stand inside a string is read as that, whatever stands behind it. -/
theorem IsInside.stringTail_eq (hq : isQuote q = true) (h : IsInside q inside) (more : Text) :
    stringTail q (inside ++ q :: more) = (.string, inside.length + 1) := by
  obtain ⟨hkind, hle⟩ := stringTail_of_closed hq h.closed (h.escaped.mono fun c _ => .inr) more
  obtain ⟨inside', more', hcut, hlength, hinside⟩ := exists_inside_of_stringTail hq hkind
  refine Prod.ext hkind (hlength.trans (congrArg (· + 1) (Nat.le_antisymm (by omega) ?_)))
  by_contra hless
  -- the string would have ended with a quote inside
  obtain ⟨rest, hrest⟩ : inside' ++ [q] <+: inside :=
    List.prefix_of_prefix_length_le ⟨more', by rw [hcut]; simp⟩ (List.prefix_append inside _)
      (by rw [List.length_append, List.length_singleton]; omega)
  exact hinside.closed (h.escaped inside' q rest (by rw [← hrest]; simp) (.inl rfl))

/-! ## Comments -/

/-- **A comment goes on to its first `*/`.** -/
theorem commentTail?_take (h : commentTail? t = some n) :
    (∃ inner, t.take n = inner ++ ['*', '/']) ∧
      ∀ back, '*' :: '/' :: back <:+ t.take n → back = [] := by
  fun_induction commentTail? t generalizing n with
  | case1 =>
    cases h
    refine ⟨⟨[], rfl⟩, fun back hback => List.length_eq_zero_iff.mp ?_⟩
    have hle := hback.length_le
    simp only [List.take_succ_cons, List.take_zero, List.length_cons, List.length_nil] at hle
    omega
  | case2 c cs hopen ih =>
    obtain ⟨m, hm, rfl⟩ := Option.map_eq_some_iff.mp h
    obtain ⟨⟨inner, hinner⟩, hfirst⟩ := ih hm
    refine ⟨⟨c :: inner, by rw [List.take_succ_cons, hinner]; rfl⟩, fun back hback => ?_⟩
    rcases List.suffix_cons_iff.mp hback with hwhole | hbehind
    · obtain ⟨rfl, hslash⟩ := List.cons.inj hwhole
      exact absurd (List.take_append_drop m cs).symm (hslash ▸ hopen _ rfl)
    · exact hfirst back hbehind
  | case3 => cases h

/-- A comment without an end holds no `*/`. -/
theorem not_infix_of_commentTail? (h : commentTail? t = none) : ¬ ['*', '/'] <:+: t := by
  fun_induction commentTail? t with
  | case1 => cases h
  | case2 c cs hopen ih =>
    rw [List.infix_cons_iff, not_or]
    refine ⟨?_, ih (Option.map_eq_none_iff.mp h)⟩
    rintro ⟨rest, hrest⟩
    obtain ⟨rfl, hslash⟩ := List.cons.inj hrest
    exact hopen rest rfl hslash.symm
  | case3 => simp

/-! ## Interpolations -/

/-- The text outside of quoted strings, which may go over line breaks here. The quote of the one that
is open at the front, if any, is given. -/
def unquoted : Option Char → Text → Text
  | _, [] => []
  | some _, ['\\'] => []
  | some q, '\\' :: _ :: t => unquoted (some q) t
  | some q, c :: t => unquoted (if c = q then none else some q) t
  | none, c :: t => if c = '"' ∨ c = '\'' then unquoted (some c) t else c :: unquoted none t

/-- Whether as many braces are opened as closed, outside of quoted strings. -/
def IsBalanced (t : Text) : Prop :=
  (unquoted none t).count '\x7b' = (unquoted none t).count '\x7d'

instance (t : Text) : Decidable (IsBalanced t) := inferInstanceAs (Decidable (_ = _))

/-- Whether a text closes the braces opened in front of it and one more than that. -/
def Closes (depth : Nat) (quote : Option Char) (t : Text) : Prop :=
  (unquoted quote t).count '\x7d' = (unquoted quote t).count '\x7b' + depth + 1

theorem unquoted_quoted (hc : c ≠ '\\') (t : Text) :
    unquoted (some q) (c :: t) = unquoted (if c = q then none else some q) t := by
  cases t <;> simp [unquoted, hc]

theorem unquoted_bare (c : Char) (t : Text) : unquoted none (c :: t) =
    if c = '"' ∨ c = '\'' then unquoted (some c) t else c :: unquoted none t := by
  cases t <;> simp [unquoted]

/-- An interpolation is balanced when its last brace closes the first one. -/
theorem isBalanced_interpolation_iff (t : Text) :
    IsBalanced ('#' :: '\x7b' :: t) ↔ Closes 0 none t := by
  simp only [IsBalanced, Closes, unquoted_bare, Char.reduceEq, or_self, if_false, ne_eq,
    not_false_eq_true, List.count_cons_of_ne, List.count_cons_self]
  omega

theorem closes_quoted (hc : c ≠ '\\') (t : Text) : Closes depth (some q) (c :: t) ↔
    Closes depth (if c = q then none else some q) t := by
  rw [Closes, unquoted_quoted hc, Closes]

theorem closes_escape (q c : Char) (t : Text) :
    Closes depth (some q) ('\\' :: c :: t) ↔ Closes depth (some q) t := Iff.rfl

theorem closes_quote (hc : c = '"' ∨ c = '\'') (t : Text) :
    Closes depth none (c :: t) ↔ Closes depth (some c) t := by
  rw [Closes, unquoted_bare, if_pos hc, Closes]

theorem closes_open (t : Text) : Closes depth none ('\x7b' :: t) ↔ Closes (depth + 1) none t := by
  have hquote : ¬ (('\x7b' : Char) = '"' ∨ ('\x7b' : Char) = '\'') := by decide
  rw [Closes, unquoted_bare, if_neg hquote, List.count_cons_of_ne (by decide), List.count_cons_self,
    Closes]
  omega

theorem closes_close (t : Text) : Closes (depth + 1) none ('\x7d' :: t) ↔ Closes depth none t := by
  have hquote : ¬ (('\x7d' : Char) = '"' ∨ ('\x7d' : Char) = '\'') := by decide
  rw [Closes, unquoted_bare, if_neg hquote, List.count_cons_self, List.count_cons_of_ne (by decide),
    Closes]
  omega

theorem closes_other (hquote : ¬ (c = '"' ∨ c = '\'')) (hopen : c ≠ '\x7b') (hclose : c ≠ '\x7d')
    (t : Text) : Closes depth none (c :: t) ↔ Closes depth none t := by
  rw [Closes, unquoted_bare, if_neg hquote, List.count_cons_of_ne hclose, List.count_cons_of_ne hopen,
    Closes]

theorem not_closes_nil : ¬ Closes depth quote [] := by simp [Closes, unquoted]

/-- **The brace that an interpolation goes on to closes it.** -/
theorem closes_of_interpolationTail? (h : interpolationTail? depth quote t = some n) :
    (∃ inner, t.take n = inner ++ ['\x7d']) ∧ Closes depth quote (t.take n) := by
  fun_induction interpolationTail? depth quote t generalizing n with
  | case1 | case2 => cases h
  | case3 depth q c cs ih =>
    obtain ⟨m, hm, rfl⟩ := Option.map_eq_some_iff.mp h
    obtain ⟨⟨inner, hinner⟩, hcloses⟩ := ih hm
    exact ⟨⟨'\\' :: c :: inner, congrArg ('\\' :: c :: ·) hinner⟩, (closes_escape q c _).mpr hcloses⟩
  | case4 depth q c cs hone hescape ih =>
    obtain ⟨m, hm, rfl⟩ := Option.map_eq_some_iff.mp h
    obtain ⟨⟨inner, hinner⟩, hcloses⟩ := ih hm
    exact ⟨⟨c :: inner, congrArg (c :: ·) hinner⟩,
      (closes_quoted (ne_backslash_of_not_escape hone hescape) _).mpr hcloses⟩
  | case5 depth c cs hquote ih =>
    obtain ⟨m, hm, rfl⟩ := Option.map_eq_some_iff.mp h
    obtain ⟨⟨inner, hinner⟩, hcloses⟩ := ih hm
    exact ⟨⟨c :: inner, congrArg (c :: ·) hinner⟩, (closes_quote hquote _).mpr hcloses⟩
  | case6 depth cs hquote ih =>
    obtain ⟨m, hm, rfl⟩ := Option.map_eq_some_iff.mp h
    obtain ⟨⟨inner, hinner⟩, hcloses⟩ := ih hm
    exact ⟨⟨'\x7b' :: inner, congrArg ('\x7b' :: ·) hinner⟩, (closes_open _).mpr hcloses⟩
  | case7 cs hquote hopen =>
    cases h
    exact ⟨⟨[], rfl⟩, by simp [Closes, unquoted]⟩
  | case8 cs d hquote hopen ih =>
    obtain ⟨m, hm, rfl⟩ := Option.map_eq_some_iff.mp h
    obtain ⟨⟨inner, hinner⟩, hcloses⟩ := ih hm
    exact ⟨⟨'\x7d' :: inner, congrArg ('\x7d' :: ·) hinner⟩, (closes_close _).mpr hcloses⟩
  | case9 depth c cs hquote hopen hclose ih =>
    obtain ⟨m, hm, rfl⟩ := Option.map_eq_some_iff.mp h
    obtain ⟨⟨inner, hinner⟩, hcloses⟩ := ih hm
    exact ⟨⟨c :: inner, congrArg (c :: ·) hinner⟩, (closes_other hquote hopen hclose _).mpr hcloses⟩

/-- **No brace in front of it does**: a text that closes the interpolation holds the brace that it goes
on to. -/
theorem interpolationTail?_of_closes (h : Closes depth quote u) (s : Text) :
    ∃ n ≤ u.length, interpolationTail? depth quote (u ++ s) = some n := by
  fun_induction interpolationTail? depth quote u with
  | case1 => exact absurd h not_closes_nil
  | case2 => simp [Closes, unquoted] at h
  | case3 depth q c cs ih =>
    obtain ⟨n, hn, htail⟩ := ih ((closes_escape q c cs).mp h)
    exact ⟨n + 2, Nat.add_le_add_right hn 2, congrArg (Option.map (· + 2)) htail⟩
  | case4 depth q c cs hone hescape ih =>
    have hc := ne_backslash_of_not_escape hone hescape
    obtain ⟨n, hn, htail⟩ := ih ((closes_quoted hc cs).mp h)
    refine ⟨n + 1, Nat.succ_le_succ hn, ?_⟩
    rw [List.cons_append, interpolationTail?_quoted depth hc, htail]
    rfl
  | case5 depth c cs hquote ih =>
    obtain ⟨n, hn, htail⟩ := ih ((closes_quote hquote cs).mp h)
    refine ⟨n + 1, Nat.succ_le_succ hn, ?_⟩
    rw [List.cons_append, interpolationTail?_bare, if_pos hquote, htail]
    rfl
  | case6 depth cs hquote ih =>
    obtain ⟨n, hn, htail⟩ := ih ((closes_open cs).mp h)
    refine ⟨n + 1, Nat.succ_le_succ hn, ?_⟩
    rw [List.cons_append, interpolationTail?_bare, if_neg hquote, if_pos rfl, htail]
    rfl
  | case7 cs hquote hopen =>
    exact ⟨1, Nat.succ_le_succ (Nat.zero_le _), by
      rw [List.cons_append, interpolationTail?_bare, if_neg hquote, if_neg hopen, if_pos rfl]⟩
  | case8 cs d hquote hopen ih =>
    obtain ⟨n, hn, htail⟩ := ih ((closes_close cs).mp h)
    refine ⟨n + 1, Nat.succ_le_succ hn, ?_⟩
    rw [List.cons_append, interpolationTail?_bare, if_neg hquote, if_neg hopen, if_pos rfl]
    simp only [htail, Option.map_some]
  | case9 depth c cs hquote hopen hclose ih =>
    obtain ⟨n, hn, htail⟩ := ih ((closes_other hquote hopen hclose cs).mp h)
    refine ⟨n + 1, Nat.succ_le_succ hn, ?_⟩
    rw [List.cons_append, interpolationTail?_bare, if_neg hquote, if_neg hopen, if_neg hclose, htail]
    rfl

/-! ## Unquoted `url(` -/

/-- **An `url(` goes on to its first parenthesis**, and there is no line break in front of that. -/
theorem exists_inside_of_urlTail (h : (urlTail t).1 = .url) :
    ∃ inside more, t = inside ++ ')' :: more ∧ (urlTail t).2 = inside.length + 1
      ∧ ∀ c ∈ inside, c ≠ ')' ∧ isLineBreak c = false := by
  fun_induction urlTail t with
  | case1 | case3 => cases h
  | case2 cs => exact ⟨[], cs, rfl, rfl, by simp⟩
  | case4 c cs hclose hline tail ih =>
    obtain ⟨inside, more, rfl, hlength, hinside⟩ := ih h
    refine ⟨c :: inside, more, rfl, congrArg (· + 1) hlength, ?_⟩
    exact List.forall_mem_cons.mpr ⟨⟨hclose, Bool.not_eq_true _ ▸ hline⟩, hinside⟩

/-- A parenthesis in front of the first line break closes the `url(`. -/
theorem urlTail_of_closed (hinside : ∀ c ∈ inside, isLineBreak c = false) (more : Text) :
    (urlTail (inside ++ ')' :: more)).1 = .url := by
  induction inside with
  | nil => rfl
  | cons c inside ih =>
    obtain ⟨hc, hinside⟩ := List.forall_mem_cons.mp hinside
    rw [List.cons_append, urlTail, hc]
    split
    · rfl
    · exact ih hinside

/-! ## What starts a delimited token -/

/-- What is open behind a mark of two characters goes on to its end, or is an error. -/
theorem closed_or_open {tail : Option Nat} {k kind : TokenKind} {m : Nat} {body : Text}
    (h : (match tail with
      | some n => (k, n + 2)
      | none => (.error, m)) = (kind, body.length + 1 + 1)) :
    kind = k ∧ tail = some body.length ∨ kind = .error ∧ tail = none := by
  cases tail with
  | some n =>
    obtain ⟨hkind, hlength⟩ := Prod.mk.inj h
    exact .inl ⟨hkind.symm, congrArg some (Nat.add_right_cancel hlength)⟩
  | none => exact .inr ⟨(Prod.mk.inj h).1.symm, rfl⟩

/-- An interpolation starts with its mark. -/
theorem numberSign_of_kindAndLength (h : (kindAndLength c t).1 = .interpolation) :
    c = '#' ∧ t.head? = some '\x7b' := by
  obtain ⟨n, -, hscanned⟩ := exists_scanned h
  cases hscanned with
  | interpolation hc hhead _ => exact ⟨hc, hhead⟩

/-- The letters of `url`, in any case, are letters of a name. -/
theorem isNameStart_of_url {name : Text} (h : Text.eqIgnoreCase name "url".toList = true)
    (hc : c ∈ name) : isNameStart c = true := by
  have hlower : c.toLower ∈ Text.lower "url".toList := by
    rw [← beq_iff_eq.mp h]
    exact List.mem_map_of_mem hc
  have hletters : (Text.lower "url".toList).all isNameStart = true := rfl
  rw [← isNameStart_toLower]
  exact List.all_eq_true.mp hletters _ hlower

theorem startsName_of_url {name : Text} (h : Text.eqIgnoreCase name "url".toList = true) (t : Text) :
    startsName (name ++ t) = true := by
  cases name with
  | nil => cases h
  | cons c name =>
    have hstart := isNameStart_of_url h List.mem_cons_self
    have hdash := ne_of_isNameStart hstart (d := '-') rfl
    have hescape := ne_of_isNameStart hstart (d := '\\') rfl
    simp [startsName, hdash, hescape, hstart]

end Scan

/-! ## The tokens of a text -/

open Scan

namespace Token

/-- **Whether a token ends with the first terminator** of its kind. An error that starts like one of
these kinds has none in its text and what stands behind it, or not on its line. -/
structure EndsAtTerminator (t : Token) (back : Text) : Prop where
  string : t.kind = .string → ∃ q inside, isQuote q = true ∧ t.text = q :: (inside ++ [q])
    ∧ IsInside q inside
  comment : t.kind = .blockComment → ∃ body, t.text = '/' :: '*' :: body
    ∧ ∀ rest, '*' :: '/' :: rest <:+ body ↔ rest = []
  interpolation : t.kind = .interpolation → (∃ inner, t.text = '#' :: '\x7b' :: (inner ++ ['\x7d']))
    ∧ ∀ front, ['#', '\x7b'] <+: front → front <+: t.text → (IsBalanced front ↔ front = t.text)
  url : t.kind = .url → ∃ name inside, Text.eqIgnoreCase name "url".toList = true
    ∧ t.text = name ++ '(' :: (inside ++ [')'])
    ∧ ∀ c ∈ name ++ '(' :: inside, c ≠ ')' ∧ isLineBreak c = false
  openString : t.kind = .error → ∀ q body, isQuote q = true → t.text = q :: body →
    ∀ inside more, body ++ back = inside ++ q :: more → ¬ EndsEscaping inside →
      ¬ OnlyEscaped (isLineBreak · = true) inside
  openComment : t.kind = .error → ∀ body, t.text = '/' :: '*' :: body →
    ¬ ['*', '/'] <:+: body ++ back
  openInterpolation : t.kind = .error → ['#', '\x7b'] <+: t.text →
    ∀ front, ['#', '\x7b'] <+: front → front <+: t.text ++ back → ¬ IsBalanced front
  openUrl : t.kind = .error → ∀ name body, Text.eqIgnoreCase name "url".toList = true →
    t.text = name ++ '(' :: body →
    ∀ inside more, body ++ back = inside ++ ')' :: more → ∃ c ∈ inside, isLineBreak c = true

variable {t : Token} {s : Text}

theorem ReadsBefore.exists_inside_of_string (h : t.ReadsBefore s) (hkind : t.kind = .string) :
    ∃ q inside, isQuote q = true ∧ t.text = q :: (inside ++ [q]) ∧ IsInside q inside := by
  obtain ⟨q, w, htext, hscan⟩ := h
  rw [hkind] at hscan
  cases scanned_of_kindAndLength hscan with
  | string hc htail =>
    have hq : isQuote q = true := by simpa [isQuote] using hc
    obtain ⟨inside, more, hcut, hlength, hinside⟩ :=
      exists_inside_of_stringTail hq (congrArg Prod.fst htail)
    obtain ⟨rfl, -⟩ : w = inside ++ [q] ∧ s = more := by
      refine List.append_inj (by rw [hcut, List.append_assoc]; rfl) ?_
      rw [htail] at hlength
      rw [List.length_append, List.length_singleton, ← hlength]
    exact ⟨q, inside, hq, htext, hinside⟩

/-- How a block comment and an error that starts like one are read. -/
theorem ReadsBefore.commentTail? {body : Text} (h : t.ReadsBefore s)
    (htext : t.text = '/' :: '*' :: body) :
    t.kind = .blockComment ∧ Scan.commentTail? (body ++ s) = some body.length
      ∨ t.kind = .error ∧ Scan.commentTail? (body ++ s) = none := by
  obtain ⟨c, w, hw, hscan⟩ := h
  rw [htext, List.cons.injEq] at hw
  obtain ⟨rfl, rfl⟩ := hw
  rw [kindAndLength_blockComment_eq rfl, List.cons_append, List.drop_succ_cons, List.drop_zero] at hscan
  exact closed_or_open hscan

theorem ReadsBefore.exists_body_of_comment (h : t.ReadsBefore s) (hkind : t.kind = .blockComment) :
    ∃ body, t.text = '/' :: '*' :: body ∧ (∃ inner, body = inner ++ ['*', '/'])
      ∧ ∀ rest, '*' :: '/' :: rest <:+ body → rest = [] := by
  obtain ⟨c, w, hw, hscan⟩ := id h
  rw [hkind] at hscan
  obtain ⟨rfl, hstar, hlong⟩ := kindAndLength_blockComment (congrArg Prod.fst hscan)
  rw [hscan] at hlong
  obtain ⟨d, body, rfl⟩ := List.exists_cons_of_ne_nil
    (fun hnil : w = [] => by rw [hnil] at hlong; exact absurd hlong (by decide))
  obtain rfl : d = '*' := Option.some.inj hstar
  refine ⟨body, hw, ?_⟩
  rcases h.commentTail? hw with ⟨-, htail⟩ | ⟨herror, -⟩
  · simpa using commentTail?_take htail
  · rw [hkind] at herror
    cases herror

/-- How an interpolation and an error that starts like one are read. -/
theorem ReadsBefore.interpolationTail? {body : Text} (h : t.ReadsBefore s)
    (htext : t.text = '#' :: '\x7b' :: body) :
    t.kind = .interpolation ∧ Scan.interpolationTail? 0 none (body ++ s) = some body.length
      ∨ t.kind = .error ∧ Scan.interpolationTail? 0 none (body ++ s) = none := by
  obtain ⟨c, w, hw, hscan⟩ := h
  rw [htext, List.cons.injEq] at hw
  obtain ⟨rfl, rfl⟩ := hw
  rw [kindAndLength_brace rfl, List.cons_append, List.drop_succ_cons, List.drop_zero] at hscan
  exact closed_or_open hscan

theorem ReadsBefore.exists_body_of_interpolation (h : t.ReadsBefore s)
    (hkind : t.kind = .interpolation) : ∃ body, t.text = '#' :: '\x7b' :: body
      ∧ (∃ inner, body = inner ++ ['\x7d'])
      ∧ ∀ front, front <+: body → (Closes 0 none front ↔ front = body) := by
  obtain ⟨c, w, hw, hscan⟩ := id h
  rw [hkind] at hscan
  obtain ⟨rfl, hbrace⟩ := numberSign_of_kindAndLength (congrArg Prod.fst hscan)
  obtain ⟨body, rfl⟩ : ∃ body, w = '\x7b' :: body := by
    cases w with
    | nil =>
      rw [kindAndLength_brace hbrace] at hscan
      split at hscan
      · exact absurd (Prod.mk.inj hscan).2 (by simp)
      · cases hscan
    | cons d body => exact ⟨body, by rw [Option.some.inj hbrace]⟩
  rcases h.interpolationTail? hw with ⟨-, htail⟩ | ⟨herror, -⟩
  · obtain ⟨hlast, hcloses⟩ := closes_of_interpolationTail? htail
    rw [List.take_left] at hlast hcloses
    refine ⟨body, hw, hlast, ?_⟩
    rintro front ⟨more, rfl⟩
    refine ⟨fun hfront => ?_, fun heq => heq ▸ hcloses⟩
    obtain ⟨n, hn, hfirst⟩ := interpolationTail?_of_closes hfront (more ++ s)
    rw [← List.append_assoc, htail, Option.some.injEq, List.length_append] at hfirst
    have hmore : more = [] := List.length_eq_zero_iff.mp (by omega)
    rw [hmore, List.append_nil]
  · rw [hkind] at herror
    cases herror

theorem ReadsBefore.exists_inside_of_url (h : t.ReadsBefore s) (hkind : t.kind = .url) :
    ∃ name inside, Text.eqIgnoreCase name "url".toList = true
      ∧ t.text = name ++ '(' :: (inside ++ [')'])
      ∧ ∀ c ∈ inside, c ≠ ')' ∧ isLineBreak c = false := by
  obtain ⟨c, w, hw, hscan⟩ := h
  rw [hkind] at hscan
  cases scanned_of_kindAndLength hscan with
  | url _ hread =>
    obtain ⟨name, rest, hcut, hurl, -, -, heq⟩ := exists_url_of_nameOrUrl (by rw [hread]; simp)
    rw [hread, Prod.mk.injEq] at heq
    obtain ⟨inside, more, rfl, hlength, hinside⟩ := exists_inside_of_urlTail heq.1.symm
    refine ⟨name, inside, hurl, ?_, hinside⟩
    have hsplit : t.text ++ s = (name ++ '(' :: (inside ++ [')'])) ++ more := by
      rw [hw, List.cons_append, hcut]
      simp
    refine (List.append_inj hsplit ?_).1
    rw [hw, List.length_cons, heq.2, hlength]
    simp only [List.length_append, List.length_cons, List.length_nil]
    omega

/-- How what starts like an `url(` is read. -/
theorem ReadsBefore.nameOrUrl {name body : Text} (h : t.ReadsBefore s)
    (hurl : Text.eqIgnoreCase name "url".toList = true) (htext : t.text = name ++ '(' :: body)
    (hkind : t.kind ≠ .ident) : (urlTail (body ++ s)).1 = t.kind := by
  have hlength {u : Text} (hu : Text.eqIgnoreCase u "url".toList = true) : u.length = 3 := by
    simpa [Text.lower] using congrArg List.length (beq_iff_eq.mp hu)
  obtain ⟨c, w, hw, hscan⟩ := h
  have hsame : c :: (w ++ s) = name ++ '(' :: (body ++ s) := by
    rw [← List.cons_append, ← hw, htext]
    simp
  rw [kindAndLength_of_startsName (hsame ▸ startsName_of_url hurl _)] at hscan
  obtain ⟨name', inside, hcut, hurl', -, -, heq⟩ :=
    exists_url_of_nameOrUrl (t := c :: (w ++ s)) (by rw [hscan]; exact hkind)
  rw [hscan, Prod.mk.injEq] at heq
  obtain ⟨-, hbody⟩ := List.append_inj (hsame.symm.trans hcut) (by rw [hlength hurl, hlength hurl'])
  rw [(List.cons.inj hbody).2]
  exact heq.1.symm

/-- **How far a token goes** in front of a text. -/
theorem ReadsBefore.endsAtTerminator (h : t.ReadsBefore s) : t.EndsAtTerminator s where
  string := h.exists_inside_of_string
  comment hkind := by
    obtain ⟨body, htext, ⟨inner, rfl⟩, hfirst⟩ := h.exists_body_of_comment hkind
    refine ⟨_, htext, fun rest => ⟨hfirst rest, ?_⟩⟩
    rintro rfl
    exact List.suffix_append inner _
  interpolation hkind := by
    obtain ⟨body, htext, ⟨inner, rfl⟩, hfirst⟩ := h.exists_body_of_interpolation hkind
    refine ⟨⟨inner, htext⟩, ?_⟩
    rintro _ ⟨front, rfl⟩ hprefix
    rw [htext] at hprefix ⊢
    simp only [List.cons_append, List.nil_append, List.cons_prefix_cons, true_and] at hprefix ⊢
    rw [isBalanced_interpolation_iff, hfirst front hprefix]
    simp
  url hkind := by
    obtain ⟨name, inside, hurl, htext, hinside⟩ := h.exists_inside_of_url hkind
    refine ⟨name, inside, hurl, htext, List.forall_mem_append.mpr ⟨fun c hc => ?_, ?_⟩⟩
    · have hstart := isNameStart_of_url hurl hc
      refine ⟨ne_of_isNameStart hstart (d := ')') rfl, Bool.eq_false_iff.mpr fun hbreak => ?_⟩
      have hspace : isSpace c = true := isSpace_of_isLineBreak (t := [c]) hbreak
      rw [isSpace_of_isNameStart hstart] at hspace
      cases hspace
    · exact List.forall_mem_cons.mpr ⟨by decide, hinside⟩
  openString hkind q body hq htext inside more hcut hclosed hline := by
    obtain ⟨c, w, hw, hscan⟩ := h
    rw [htext, List.cons.injEq] at hw
    obtain ⟨rfl, rfl⟩ := hw
    rw [kindAndLength_quote hq, hcut, hkind, Prod.mk.injEq,
      (stringTail_of_closed hq hclosed hline more).1] at hscan
    cases hscan.1
  openComment hkind body htext := by
    rcases h.commentTail? htext with ⟨hcomment, -⟩ | ⟨-, htail⟩
    · rw [hkind] at hcomment
      cases hcomment
    · exact not_infix_of_commentTail? htail
  openInterpolation hkind hstart front hfront hprefix hbalanced := by
    obtain ⟨body, hbody⟩ := hstart
    have htext : t.text = '#' :: '\x7b' :: body := hbody.symm
    obtain ⟨front, rfl⟩ := hfront
    obtain ⟨more, hmore⟩ := hprefix
    rw [htext] at hmore
    simp only [List.cons_append, List.nil_append, List.cons.injEq, true_and] at hmore hbalanced
    rcases h.interpolationTail? htext with ⟨hclosed, -⟩ | ⟨-, htail⟩
    · rw [hkind] at hclosed
      cases hclosed
    · obtain ⟨n, -, hsome⟩ :=
        interpolationTail?_of_closes ((isBalanced_interpolation_iff front).mp hbalanced) more
      rw [hmore, htail] at hsome
      cases hsome
  openUrl hkind name body hurl htext inside more hcut := by
    by_contra hline
    have htail := h.nameOrUrl hurl htext (by rw [hkind]; decide)
    rw [hcut, hkind, urlTail_of_closed (fun c hc => ?_) more] at htail
    · cases htail
    · exact Bool.eq_false_iff.mpr fun hbreak => hline ⟨c, hc, hbreak⟩

end Token

namespace Tokens

/-- **Delimited tokens end with the first terminator of their kind**, and where there is none they are
errors. -/
theorem endsAtTerminator_of_ofText {source : Text} {before after : List Token} {k : Token}
    (h : ofText source = before ++ k :: after) : k.EndsAtTerminator (text after) :=
  (Legible.readsBefore (h ▸ legible_ofText source)).endsAtTerminator

namespace Openings

/-- A string that ends with an escaped backslash, a brace in quotes, and an `url(` that its line ends. -/
def source : Text := "'\\\\'#\x7b'\x7d'\x7durl(\n)".toList

/-- The string. -/
def string : Token := ⟨.string, "'\\\\'".toList, ⟨⟨0, 1, 1⟩, ⟨4, 1, 5⟩⟩⟩

/-- The interpolation, with the brace that does not end it. -/
def interpolation : Token := ⟨.interpolation, "#\x7b'\x7d'\x7d".toList, ⟨⟨4, 1, 5⟩, ⟨10, 1, 11⟩⟩⟩

/-- The `url(` without an end. -/
def url : Token := ⟨.error, "url(".toList, ⟨⟨10, 1, 11⟩, ⟨14, 1, 15⟩⟩⟩

/-- The line break behind it, and the parenthesis that is too late. -/
def behind : List Token :=
  [⟨.whitespace, ['\n'], ⟨⟨14, 1, 15⟩, ⟨15, 2, 1⟩⟩⟩, ⟨.punct, [')'], ⟨⟨15, 2, 1⟩, ⟨16, 2, 2⟩⟩⟩]

theorem ofText_source : ofText source = string :: interpolation :: url :: behind := by cbv

end Openings

theorem endsAtTerminator_openings :
    ofText Openings.source =
        Openings.string :: Openings.interpolation :: Openings.url :: Openings.behind
      ∧ Openings.string.EndsAtTerminator (text (Openings.interpolation :: Openings.url :: Openings.behind))
      ∧ Openings.interpolation.EndsAtTerminator (text (Openings.url :: Openings.behind))
      ∧ Openings.url.EndsAtTerminator (text Openings.behind) := by
  have hstring : ofText Openings.source =
      [] ++ Openings.string :: (Openings.interpolation :: Openings.url :: Openings.behind) :=
    Openings.ofText_source
  have hinterpolation : ofText Openings.source =
      [Openings.string] ++ Openings.interpolation :: (Openings.url :: Openings.behind) :=
    Openings.ofText_source
  have hurl : ofText Openings.source =
      [Openings.string, Openings.interpolation] ++ Openings.url :: Openings.behind :=
    Openings.ofText_source
  exact ⟨hstring, endsAtTerminator_of_ofText hstring, endsAtTerminator_of_ofText hinterpolation,
    endsAtTerminator_of_ofText hurl⟩

end Tokens

end SheetLint
