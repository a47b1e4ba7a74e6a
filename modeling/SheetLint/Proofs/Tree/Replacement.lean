import SheetLint.Proofs.Tree.Composition
import SheetLint.Proofs.Tree.Skeleton

/-!
# Pieces in the place of others

Where a piece ends is told by its own tokens, or by the whitespace and the closing brace behind it. So a
piece may take the place of another one, if it is read there whatever comes behind, and if a closing brace
stays where it is: then no other piece changes.

Results:
* `Piece.read_of_keepsEnd`: how a piece ends is all that it takes from the tokens behind it.
* `Piece.TakesPlaceOf.of_leading`: a piece behind other whitespace takes the place of its own.
* `Piece.split_of_takesPlace`: tokens fall into pieces that take the place of others.
-/

namespace SheetLint.Piece

open Tokens

variable {ts ts' rest tail later later' : List Token} {first keyword t : Token} {depth : Nat}

/-! ## What stands in front of the end of a piece -/

/-- Behind tokens that hold no terminator outside brackets, the search goes on. -/
theorem lengthToTerminator_append_of_le (h : ts.length ≤ lengthToTerminator depth (ts ++ rest))
    (more : List Token) : lengthToTerminator depth (ts ++ more) =
      ts.length + lengthToTerminator (ts.foldl bracketDepth depth) more := by
  induction ts generalizing depth with
  | nil => simp
  | cons t ts ih =>
    rw [List.cons_append, lengthToTerminator] at h ⊢
    split at h
    · cases h
    · rename_i hgo
      rw [if_neg hgo, ih (Nat.le_of_succ_le_succ h), List.length_cons, List.foldl_cons]
      omega

theorem foldl_bracketDepth_of_isSpace (hts : IsSpace ts) (depth : Nat) :
    ts.foldl bracketDepth depth = depth := by
  induction ts with
  | nil => rfl
  | cons t ts ih =>
    rw [IsSpace, List.forall_mem_cons] at hts
    rw [List.foldl_cons, bracketDepth_of_isWhitespace hts.1, ih hts.2]

theorem lengthToTerminator_of_isSpace (hts : IsSpace ts) (depth : Nat) :
    lengthToTerminator depth ts = ts.length := by
  induction ts with
  | nil => rfl
  | cons t ts ih =>
    rw [IsSpace, List.forall_mem_cons] at hts
    rw [lengthToTerminator_cons_of_space hts.1, ih hts.2, List.length_cons]

theorem length_take_lengthToTerminator (depth : Nat) (ts : List Token) :
    (ts.take (lengthToTerminator depth ts)).length = lengthToTerminator depth ts := by
  rw [List.length_take, Nat.min_eq_left (lengthToTerminator_le depth ts)]

/-- A terminator that neither opens a block nor ends a statement closes a block. -/
theorem isPunct_of_head?_drop
    (hopen : ∀ t, ts[lengthToTerminator depth ts]? = some t → t.isPunct '\x7b' = false)
    (hsemicolon : ∀ t, ts[lengthToTerminator depth ts]? = some t → t.isPunct ';' = false) :
    ∀ t ∈ (ts.drop (lengthToTerminator depth ts)).head?, t.isPunct '\x7d' = true := by
  intro t ht
  rw [List.head?_drop] at ht
  exact isPunct_closeBrace_of_isTerminator (isTerminator_of_getElem? ht) (hopen t ht) (hsemicolon t ht)

/-- Tokens that end with their terminator show their end. -/
theorem ends_of_take (h : first :: tail =
      (first :: rest).take (lengthToTerminator 0 (first :: rest)) ++ [t])
    (ht : (first :: rest)[lengthToTerminator 0 (first :: rest)]? = some t) : Ends first tail := by
  refine .inr ?_
  rw [h, lengthToTerminator_take rfl ht, List.length_append, length_take_lengthToTerminator]
  exact Nat.lt_succ_self _

/-- **How a piece ends**: with a terminator or by itself, or behind whitespace in front of a closing
brace or of nothing. -/
def EndsAt (first : Token) (tail later : List Token) : Prop :=
  Ends first tail ∨ ∃ space back, later = space ++ back ∧ IsSpace space
    ∧ (∀ t ∈ back.head?, t.isPunct '\x7d' = true)
    ∧ lengthToTerminator 0 (first :: (tail ++ later)) = (first :: (tail ++ space)).length

theorem endsAt_ofStatement (hrest : rest = tail ++ later)
    (h : (ofStatement first rest).tokens = first :: tail) : EndsAt first tail later := by
  have hcut := List.take_append_drop (lengthToTerminator 0 (first :: rest)) (first :: rest)
  have hopen (hno : (ofStatement first rest).tokens =
        (statementOf ((first :: rest).take (lengthToTerminator 0 (first :: rest))) none).tokens)
      (hbrace : ∀ t, (first :: rest)[lengthToTerminator 0 (first :: rest)]? = some t →
        t.isPunct '\x7b' = false)
      (hsemicolon : ∀ t, (first :: rest)[lengthToTerminator 0 (first :: rest)]? = some t →
        t.isPunct ';' = false) : EndsAt first tail later := by
    obtain ⟨space, hspace, happend⟩ := statementOf_none_append
      ((first :: rest).take (lengthToTerminator 0 (first :: rest)))
    rw [← hno, h] at happend
    refine .inr ⟨space, _, ?_, hspace, isPunct_of_head?_drop hbrace hsemicolon, ?_⟩
    · rw [← happend, hrest, List.append_assoc, ← List.cons_append,
        List.append_cancel_left_eq] at hcut
      rw [hrest]
      exact hcut.symm
    · rw [← hrest, ← List.cons_append, happend, length_take_lengthToTerminator]
  unfold ofStatement at h hopen
  simp only at h hopen
  split at h
  · rename_i t ht
    rw [ht] at hopen
    simp only [Option.some.injEq, forall_eq'] at hopen
    split at h
    · rename_i hbrace
      exact .inl (ends_of_take h.symm ht)
    · rename_i hbrace
      split at h
      · rename_i hsemicolon
        refine .inl (ends_of_take ?_ ht)
        rw [← h]
        exact tokens_statementOf_some _ t
      · rename_i hsemicolon
        rw [if_neg hbrace, if_neg hsemicolon] at hopen
        exact hopen rfl (Bool.eq_false_iff.mpr hbrace) (Bool.eq_false_iff.mpr hsemicolon)
  · rename_i hnone
    rw [hnone] at hopen
    exact hopen rfl (by simp) (by simp)

theorem endsAt_ofAtRule (hkind : keyword.kind = .atKeyword) (hrest : rest = tail ++ later)
    (h : (ofAtRule keyword rest).tokens = keyword :: tail) : EndsAt keyword tail later := by
  have hcut := List.take_append_drop (lengthToTerminator 0 rest) rest
  have hlength (ts : List Token) : lengthToTerminator 0 (keyword :: ts) = lengthToTerminator 0 ts + 1 :=
    lengthToTerminator_cons_of_keyword hkind ts
  have hends {t : Token} (ht : rest[lengthToTerminator 0 rest]? = some t)
      (htail : keyword :: tail = keyword :: (rest.take (lengthToTerminator 0 rest) ++ [t])) :
      EndsAt keyword tail later := by
    refine .inl (ends_of_take ?_ (?_ : (keyword :: rest)[lengthToTerminator 0 (keyword :: rest)]? = some t))
    · rw [hlength, List.take_succ_cons, htail]
      rfl
    · rw [hlength, List.getElem?_cons_succ]
      exact ht
  have hopen (htail : keyword :: tail =
        keyword :: dropEndWhile Token.isWhitespace (rest.take (lengthToTerminator 0 rest)))
      (hbrace : ∀ t, rest[lengthToTerminator 0 rest]? = some t → t.isPunct '\x7b' = false)
      (hsemicolon : ∀ t, rest[lengthToTerminator 0 rest]? = some t → t.isPunct ';' = false) :
      EndsAt keyword tail later := by
    have happend := dropEndWhile_append_takeEndWhile Token.isWhitespace
      (rest.take (lengthToTerminator 0 rest))
    rw [← (List.cons.inj htail).2] at happend
    refine .inr ⟨takeEndWhile Token.isWhitespace (rest.take (lengthToTerminator 0 rest)), _, ?_,
      fun t => of_mem_takeEndWhile, isPunct_of_head?_drop hbrace hsemicolon, ?_⟩
    · have hwhole := hcut.trans hrest
      rw [← happend, List.append_assoc, List.append_cancel_left_eq] at hwhole
      exact hwhole.symm
    · rw [← hrest, hlength, List.length_cons, happend, length_take_lengthToTerminator]
  unfold ofAtRule at h
  simp only at h
  split at h
  · rename_i t ht
    rw [ht] at hopen
    simp only [Option.some.injEq, forall_eq'] at hopen
    split at h
    · exact hends ht h.symm
    · rename_i hbrace
      split at h
      · exact hends ht h.symm
      · rename_i hsemicolon
        refine hopen (h.symm.trans ?_) (Bool.eq_false_iff.mpr hbrace)
          (Bool.eq_false_iff.mpr hsemicolon)
        simp [PieceBody.tokens, Statement.tokens]
  · rename_i hnone
    rw [hnone] at hopen
    refine hopen (h.symm.trans ?_) (by simp) (by simp)
    simp [PieceBody.tokens, Statement.tokens]

theorem endsAt_read (h : (read first (tail ++ later)).tokens = first :: tail) :
    EndsAt first tail later := by
  have hself (hstop : isTerminator first = true) : EndsAt first tail later :=
    .inl (.inr (by rw [lengthToTerminator_cons_of_terminator hstop]; exact Nat.succ_pos _))
  unfold read at h
  split at h
  · rename_i hbrace
    exact hself (by simp [isTerminator, hbrace])
  · split at h
    · rename_i hcomment
      exact .inl (.inl hcomment)
    · split at h
      · rename_i hsemicolon
        exact hself (by simp [isTerminator, hsemicolon])
      · split at h
        · rename_i hkind
          exact endsAt_ofAtRule (beq_iff_eq.mp hkind) rfl h
        · exact endsAt_ofStatement rfl h

/-- Whether tokens that go on elsewhere leave the end of what stands in front of them as it is. -/
structure KeepsEnd (later later' : List Token) : Prop where
  space : IsSpace later → later' = later
  brace : ∀ space brace more, later = space ++ brace :: more → IsSpace space →
    brace.isPunct '\x7d' = true → ∃ more', later' = space ++ brace :: more'

/-- **How a piece ends is all that it takes from the tokens behind it.** -/
theorem read_of_keepsEnd (h : (read first (tail ++ later)).tokens = first :: tail)
    (hkeeps : KeepsEnd later later') :
    read first (tail ++ later') = read first (tail ++ later) := by
  rcases endsAt_read h with hends | ⟨space, back, rfl, hspace, hback, hlength⟩
  · rw [read_append hends, read_append hends]
  · cases back with
    | nil =>
      rw [List.append_nil] at hkeeps ⊢
      rw [hkeeps.space hspace]
    | cons brace more =>
      obtain ⟨more', rfl⟩ := hkeeps.brace space brace more rfl hspace (hback brace rfl)
      have hends : Ends first (tail ++ space ++ [brace]) := by
        refine .inr ?_
        rw [← List.append_assoc, ← List.cons_append] at hlength
        rw [← List.cons_append, lengthToTerminator_append hlength []]
        simp
      have hcut (more : List Token) :
          tail ++ (space ++ brace :: more) = tail ++ space ++ [brace] ++ more := by simp
      rw [hcut, hcut, read_append hends, read_append hends]

/-! ## The pieces of tokens -/

/-- The tokens of the piece at the front, and those behind it. -/
theorem exists_tail (hfirst : first.isWhitespace = false) (rest : List Token) :
    ∃ tail, (read first rest).tokens = first :: tail
      ∧ tail ++ rest.drop ((read first rest).tokens.length - 1) = rest := by
  have hcut := read_append_drop hfirst rest
  cases htokens : (read first rest).tokens with
  | nil => exact absurd htokens (read_ne_nil hfirst rest)
  | cons x tail =>
    rw [htokens, List.cons_append, List.cons.injEq] at hcut
    exact ⟨tail, by rw [hcut.1], hcut.2⟩

/-- The piece at the front of some tokens. -/
theorem split_cons {leading : List Token} {body : PieceBody} (hleading : IsSpace leading)
    (hfirst : first.isWhitespace = false) (hread : read first (tail ++ later) = body)
    (htokens : body.tokens = first :: tail) :
    split (leading ++ first :: (tail ++ later)) =
      (⟨leading, body⟩ :: (split later).1, (split later).2) := by
  have hdrop : (leading ++ first :: (tail ++ later)).dropWhile Token.isWhitespace =
      first :: (tail ++ later) := by
    rw [List.dropWhile_append_of_pos hleading, List.dropWhile_cons_of_neg (by simp [hfirst])]
  have htake : (leading ++ first :: (tail ++ later)).takeWhile Token.isWhitespace = leading := by
    rw [List.takeWhile_append_of_pos hleading, List.takeWhile_cons_of_neg (by simp [hfirst]),
      List.append_nil]
  rw [split_of_dropWhile_eq_cons hdrop, htake, hread, htokens, List.length_cons, Nat.add_sub_cancel,
    List.drop_left]

/-- Where a piece of a run stands in it. -/
theorem exists_of_mem_split {p : Piece} (h : p ∈ (split ts).1) :
    ∃ before first tail later, ts = before ++ first :: (tail ++ later)
      ∧ p.body.tokens = first :: tail ∧ read first (tail ++ later) = p.body := by
  fun_induction split ts with
  | case1 => cases h
  | case2 ts leading first rest hcons body more ih =>
    have hfirst := isWhitespace_of_dropWhile_eq_cons hcons
    have hts : ts = leading ++ first :: rest := by
      rw [← hcons, List.takeWhile_append_dropWhile]
    obtain ⟨tail, hbody, hrest⟩ := exists_tail hfirst rest
    rcases List.mem_cons.mp h with rfl | hlater
    · exact ⟨leading, first, tail, _, by rw [hrest, hts], hbody, congrArg (read first) hrest⟩
    · obtain ⟨before, first', tail', later', hsplit, hp, hread⟩ := ih hlater
      refine ⟨leading ++ body.tokens ++ before, first', tail', later', ?_, hp, hread⟩
      have htokens : body.tokens = first :: tail := hbody
      rw [hts, ← hrest, hsplit, htokens]
      simp

section

variable {p : Piece} {ps : List Piece} {trailing : List Token}

/-- The first of the pieces that tokens fall into, and the tokens behind it. -/
theorem exists_of_split_eq_cons (h : split ts = (p :: ps, trailing)) :
    ∃ first tail later, ts = p.leading ++ first :: (tail ++ later) ∧ IsSpace p.leading
      ∧ first.isWhitespace = false ∧ p.body.tokens = first :: tail
      ∧ read first (tail ++ later) = p.body ∧ split later = (ps, trailing) := by
  cases hcons : ts.dropWhile Token.isWhitespace with
  | nil =>
    rw [split_of_dropWhile_eq_nil hcons] at h
    cases h
  | cons first rest =>
    have hfirst := isWhitespace_of_dropWhile_eq_cons hcons
    obtain ⟨tail, hbody, hrest⟩ := exists_tail hfirst rest
    rw [split_of_dropWhile_eq_cons hcons] at h
    cases h
    refine ⟨first, tail, _, ?_, fun _ ht => List.mem_takeWhile_imp ht, hfirst, hbody,
      congrArg (read first) hrest, rfl⟩
    rw [hrest, ← hcons, List.takeWhile_append_dropWhile]

/-- Without pieces there is nothing but whitespace. -/
theorem eq_of_split_eq_nil (h : split ts = ([], trailing)) : trailing = ts := by
  have htokens := tokens_split ts
  rw [h] at htokens
  exact htokens

/-- A piece that starts with a closing brace is one. -/
theorem eq_closing_of_isPunct {brace : Token} (h : split ts = (p :: ps, trailing))
    (hhead : brace ∈ p.body.tokens.head?) (hbrace : brace.isPunct '\x7d' = true) :
    p.body = .closing brace := by
  obtain ⟨first, tail, later, -, -, -, htokens, hread, -⟩ := exists_of_split_eq_cons h
  rw [htokens] at hhead
  cases hhead
  rw [← hread, read_closing hbrace]

/-- Tokens that start with the closing brace of others leave the end of what stands in front of them as it
is. -/
theorem KeepsEnd.of_split (h : split ts = (p :: ps, trailing))
    (hclosing : ∀ brace, p.body = .closing brace → ∃ more, ts' = p.leading ++ brace :: more) :
    KeepsEnd ts ts' := by
  obtain ⟨first, tail, later, rfl, hleading, hfirst, htokens, hread, -⟩ := exists_of_split_eq_cons h
  constructor
  · intro hspace
    rw [hspace first (by simp)] at hfirst
    cases hfirst
  · intro space brace more hts hspace hbrace
    -- the whitespace ends at the first word
    have hbrace' := isWhitespace_of_isPunct hbrace
    have hdrop := congrArg (List.dropWhile Token.isWhitespace) hts
    rw [List.dropWhile_append_of_pos hleading, List.dropWhile_append_of_pos hspace,
      List.dropWhile_cons_of_neg (by simp [hfirst]), List.dropWhile_cons_of_neg (by simp [hbrace']),
      List.cons.injEq] at hdrop
    obtain ⟨rfl, hmore⟩ := hdrop
    rw [← hmore] at hts
    rw [← List.append_cancel_right hts]
    exact hclosing first (by rw [← hread, read_closing hbrace])

end

/-! ## Other pieces -/

/-- Whether a piece may stand where another one does: a closing brace stays, and the piece is read in
front of whatever leaves the end of the other as it is. -/
structure TakesPlaceOf (q p : Piece) : Prop where
  closing : ∀ brace, p.body = .closing brace → q = p
  split_eq : ∀ (first : Token) (tail later later' : List Token), IsSpace p.leading →
    first.isWhitespace = false → p.body.tokens = first :: tail → read first (tail ++ later) = p.body →
    KeepsEnd later later' → split (q.tokens ++ later') = (q :: (split later').1, (split later').2)

/-- A piece behind other whitespace. -/
theorem TakesPlaceOf.of_leading {p : Piece} {leading : List Token}
    (hclosing : ∀ brace, p.body = .closing brace → leading = p.leading)
    (hspace : IsSpace p.leading → IsSpace leading) : TakesPlaceOf ⟨leading, p.body⟩ p where
  closing brace hbrace := by rw [hclosing brace hbrace]
  split_eq first tail later later' hleading hfirst htokens hread hkeeps := by
    have hsame := read_of_keepsEnd (by rw [hread, htokens]) hkeeps
    have hsplit := split_cons (hspace hleading) hfirst (hsame.trans hread) htokens
    rw [tokens, htokens, List.append_assoc]
    exact hsplit

theorem TakesPlaceOf.refl (p : Piece) : p.TakesPlaceOf p := .of_leading (fun _ _ => rfl) id

section

variable {α : Type} {old new : α → Piece} {slots : List α} {trailing : List Token}

/-- Behind a piece come the whitespace and the brace of the old ones, or nothing but whitespace. -/
theorem keepsEnd_of_takesPlace (hslots : ∀ slot ∈ slots, (new slot).TakesPlaceOf (old slot))
    (h : split ts = (slots.map old, trailing)) :
    KeepsEnd ts (slots.flatMap (fun slot => (new slot).tokens) ++ trailing) := by
  cases slots with
  | nil =>
    have hsame : trailing = ts := eq_of_split_eq_nil h
    exact ⟨fun _ => hsame, fun space brace more hts _ _ => ⟨more, hsame.trans hts⟩⟩
  | cons slot slots =>
    refine .of_split h fun brace hbrace => ?_
    rw [List.flatMap_cons, (hslots slot List.mem_cons_self).closing brace hbrace, tokens, hbrace]
    exact ⟨slots.flatMap (fun slot => (new slot).tokens) ++ trailing, by simp [PieceBody.tokens]⟩

/-- **Tokens fall into pieces that take the place of others.** -/
theorem split_of_takesPlace (hslots : ∀ slot ∈ slots, (new slot).TakesPlaceOf (old slot))
    (h : split ts = (slots.map old, trailing)) :
    split (slots.flatMap (fun slot => (new slot).tokens) ++ trailing) = (slots.map new, trailing) := by
  induction slots generalizing ts with
  | nil =>
    have hsame : trailing = ts := eq_of_split_eq_nil h
    rw [List.flatMap_nil, List.nil_append, hsame, h]
    exact congrArg (Prod.mk []) hsame
  | cons slot slots ih =>
    obtain ⟨hslot, hslots⟩ := List.forall_mem_cons.mp hslots
    obtain ⟨first, tail, later, -, hleading, hfirst, htokens, hread, hlater⟩ :=
      exists_of_split_eq_cons h
    have hstep := hslot.split_eq first tail later _ hleading hfirst htokens hread
      (keepsEnd_of_takesPlace hslots hlater)
    rw [ih hslots hlater] at hstep
    rw [List.flatMap_cons, List.append_assoc, hstep, List.map_cons]

end

end SheetLint.Piece
