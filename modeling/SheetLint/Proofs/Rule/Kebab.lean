import SheetLint.Proofs.Token.LetterCase
import SheetLint.Rule.SelectorNaming

/-!
# Kebab case

The kebab-case form of a name changes the case of its letters and what stands between them, and
nothing else. A name is cut at doubled underscores, each element at doubled dashes, and each word is
read by itself. A word that is read has no capital and no underscore, and its dashes stand alone
between other characters. So the elements and words are found again in the form, each as it is, and
the form is its own.

Results:
* `splitAtPair_intercalate`, `intercalate_splitAtPair`: cutting at doubled characters and joining.
* `isKebab_kebabWord`, `kebabWord_of_isKebab`: what words are in kebab case.
* `letters_kebab`: what the form keeps.
* `kebab_settled`: the form of a name.
-/

namespace SheetLint.SelectorNaming

variable {c x : Char} {t p r done word : Text} {parts : List Text} {before : Option Char}

/-! ## Cutting at pairs -/

/-- Whether a character does not stand beside itself in a text. -/
def Unpaired (c : Char) (t : Text) : Prop := t.IsChain fun x y => x = c → y ≠ c

theorem unpaired_of_not_mem (h : c ∉ t) : Unpaired c t := by
  induction t with
  | nil => exact List.isChain_nil
  | cons x t ih =>
    rw [List.mem_cons, not_or] at h
    exact List.isChain_cons.mpr ⟨fun _ _ hx => absurd hx.symm h.1, ih h.2⟩

theorem splitAtPair_ne_nil (c : Char) (t : Text) : splitAtPair c t ≠ [] := by
  fun_cases splitAtPair c t <;> simp

/-- A character with no pair at the front belongs to the first part. -/
theorem splitAtPair_cons (h : x = c → t.head? ≠ some c) (hparts : splitAtPair c t = p :: parts) :
    splitAtPair c (x :: t) = (x :: p) :: parts := by
  cases t with
  | nil =>
    cases hparts
    rfl
  | cons y t =>
    have hpair : ¬ (x = c ∧ y = c) := fun ⟨hx, hy⟩ => h hx (by rw [hy]; rfl)
    rw [splitAtPair, if_neg hpair, hparts]

theorem splitAtPair_of_unpaired (h : Unpaired c t) : splitAtPair c t = [t] := by
  induction t with
  | nil => rfl
  | cons x t ih =>
    obtain ⟨hx, hlater⟩ := List.isChain_cons.mp h
    exact splitAtPair_cons (fun heq hhead => hx c hhead heq rfl) (ih hlater)

/-- A pair ends the part in front of it. -/
theorem splitAtPair_append (h : Unpaired c (p ++ [c])) (r : Text) :
    splitAtPair c (p ++ c :: c :: r) = p :: splitAtPair c r := by
  induction p with
  | nil => rw [List.nil_append, splitAtPair, if_pos ⟨rfl, rfl⟩]
  | cons x p ih =>
    obtain ⟨hx, hlater⟩ := List.isChain_cons.mp h
    refine splitAtPair_cons (fun heq hhead => ?_) (ih hlater)
    -- the part and the pair start like the part and one of the two
    refine hx c ?_ heq rfl
    cases p <;> exact hhead

/-- **Parts are found again** when they are joined by pairs, none of which goes on in a part. -/
theorem splitAtPair_intercalate (hne : parts ≠ []) (h : ∀ p ∈ parts, Unpaired c (p ++ [c])) :
    splitAtPair c (List.intercalate [c, c] parts) = parts := by
  induction parts with
  | nil => exact absurd rfl hne
  | cons p parts ih =>
    rw [List.forall_mem_cons] at h
    cases parts with
    | nil =>
      rw [List.intercalate_singleton]
      exact splitAtPair_of_unpaired h.1.left_of_append
    | cons q parts =>
      rw [List.intercalate_cons_cons, List.append_assoc, List.cons_append, List.singleton_append,
        splitAtPair_append h.1, ih (List.cons_ne_nil _ _) h.2]

/-- **Parts joined by pairs** are the text that they were cut from. -/
theorem intercalate_splitAtPair (c : Char) (t : Text) :
    List.intercalate [c, c] (splitAtPair c t) = t := by
  fun_induction splitAtPair c t with
  | case1 x y r hpair ih =>
    obtain ⟨q, parts, hparts⟩ := List.exists_cons_of_ne_nil (splitAtPair_ne_nil c r)
    rw [hparts] at ih
    rw [hparts, List.intercalate_cons_cons, ih, hpair.1, hpair.2]
    rfl
  | case2 x y r _ hnil => exact absurd hnil (splitAtPair_ne_nil c _)
  | case3 x y r _ part parts hparts ih =>
    rw [hparts] at ih
    rw [← ih]
    cases parts with
    | nil => rw [List.intercalate_singleton, List.intercalate_singleton]
    | cons q parts => rw [List.intercalate_cons_cons, List.intercalate_cons_cons]; rfl
  | case4 t => exact List.intercalate_singleton

/-- A part stands among the joined parts. -/
theorem isInfix_intercalate {sep : Text} (h : p ∈ parts) : p <:+: List.intercalate sep parts := by
  induction parts with
  | nil => cases h
  | cons q parts ih =>
    cases parts with
    | nil => rw [List.mem_singleton.mp h, List.intercalate_singleton]
    | cons q' parts =>
      rw [List.intercalate_cons_cons]
      rcases List.mem_cons.mp h with rfl | hlater
      · rw [List.append_assoc]
        exact (List.prefix_append _ _).isInfix
      · exact (ih hlater).trans (List.suffix_append _ _).isInfix

theorem isInfix_of_mem_splitAtPair (h : p ∈ splitAtPair c t) : p <:+: t := by
  rw [← intercalate_splitAtPair c t]
  exact isInfix_intercalate h

/-- A character of joined parts is in a separator or in a part. -/
theorem mem_of_mem_intercalate {sep : Text} (h : x ∈ List.intercalate sep parts) :
    x ∈ sep ∨ ∃ p ∈ parts, x ∈ p := by
  induction parts with
  | nil => cases h
  | cons p parts ih =>
    cases parts with
    | nil =>
      rw [List.intercalate_singleton] at h
      exact .inr ⟨p, List.mem_cons_self, h⟩
    | cons q parts =>
      rw [List.intercalate_cons_cons, List.mem_append, List.mem_append] at h
      rcases h with (hp | hsep) | hlater
      · exact .inr ⟨p, List.mem_cons_self, hp⟩
      · exact .inl hsep
      · exact (ih hlater).imp_right fun ⟨p', hp', hx⟩ => ⟨p', List.mem_cons_of_mem p hp', hx⟩

/-! ## Words -/

/-- What is known of a word that is read, in reverse: there is no capital and no underscore in it, it
does not start with a dash, and no dash stands beside another. -/
structure IsRead (done : Text) : Prop where
  plain : ∀ c ∈ done, c.isUpper = false ∧ c ≠ '_'
  first : done.getLast? ≠ some '-'
  single : Unpaired '-' done

theorem isRead_nil : IsRead [] := ⟨by simp, by simp, List.isChain_nil⟩

theorem IsRead.cons (h : IsRead done) (hplain : c.isUpper = false ∧ c ≠ '_')
    (hdash : c = '-' → done ≠ [] ∧ done.head? ≠ some '-') : IsRead (c :: done) := by
  refine ⟨List.forall_mem_cons.mpr ⟨hplain, h.plain⟩, ?_, List.isChain_cons.mpr ⟨?_, h.single⟩⟩
  · cases done with
    | nil =>
      intro heq
      exact (hdash (Option.some.inj heq)).1 rfl
    | cons d done => exact h.first
  · rintro d hd rfl rfl
    exact (hdash rfl).2 hd

theorem IsRead.tail (h : IsRead (c :: done)) : IsRead done := by
  refine ⟨(List.forall_mem_cons.mp h.plain).2, fun hlast => h.first ?_, (List.isChain_cons.mp h.single).2⟩
  rw [List.getLast?_cons, hlast]
  rfl

theorem IsRead.of_append {front : Text} (h : IsRead (front ++ done)) : IsRead done := by
  induction front with
  | nil => exact h
  | cons c front ih => exact ih h.tail

theorem pushDash_of_head? (h : done.head? = some '-') : pushDash done = done := by
  obtain ⟨more, rfl⟩ := List.head?_eq_some_iff.mp h
  rfl

theorem pushDash_of_ne (hne : done ≠ []) (h : done.head? ≠ some '-') : pushDash done = '-' :: done := by
  unfold pushDash
  split
  · exact absurd rfl hne
  · exact absurd rfl h
  · rfl

/-- A dash is pushed unless there is nothing or a dash in front of it. -/
theorem pushDash_cases (done : Text) : pushDash done = done
    ∨ done ≠ [] ∧ done.head? ≠ some '-' ∧ pushDash done = '-' :: done := by
  by_cases hne : done = []
  · exact .inl (by rw [hne]; rfl)
  · by_cases hhead : done.head? = some '-'
    · exact .inl (pushDash_of_head? hhead)
    · exact .inr ⟨hne, hhead, pushDash_of_ne hne hhead⟩

theorem IsRead.pushDash (h : IsRead done) : IsRead (pushDash done) := by
  rcases pushDash_cases done with heq | ⟨hne, hhead, heq⟩
  · rwa [heq]
  · rw [heq]
    exact h.cons (by decide) fun _ => ⟨hne, hhead⟩

/-- What a separator is not. -/
theorem not_separator (h : ¬ (c = '_' || c = '-') = true) : c ≠ '_' ∧ c ≠ '-' := by
  simpa using h

theorem toLower_ne (h : c ≠ '_' ∧ c ≠ '-') : c.toLower ≠ '_' ∧ c.toLower ≠ '-' :=
  ⟨mt (Scan.toLower_eq_iff rfl).mp h.1, mt (Scan.toLower_eq_iff rfl).mp h.2⟩

/-- **One character after the other**, a word stays as a read word is. -/
theorem isRead_kebabFrom (h : IsRead done) (before : Option Char) (rest : Text) :
    IsRead (kebabFrom before done rest) := by
  induction rest generalizing done before with
  | nil => exact h
  | cons c rest ih =>
    rw [kebabFrom]
    refine ih ?_ _
    split
    · exact h.pushDash
    · rename_i hword
      have hword := not_separator hword
      split
      · have hlower := toLower_ne hword
        refine IsRead.cons ?_ ⟨c.isUpper_toLower_eq_false, hlower.1⟩ fun heq => absurd heq hlower.2
        split
        · exact h.pushDash
        · exact h
      · rename_i hupper
        exact h.cons ⟨Bool.eq_false_iff.mpr hupper, hword.1⟩ fun heq => absurd heq hword.2

/-- **A word that could have been read stays as it is.** -/
theorem kebabFrom_of_isRead (h : IsRead (t.reverse ++ done)) (before : Option Char) :
    kebabFrom before done t = t.reverse ++ done := by
  induction t generalizing done before with
  | nil => rfl
  | cons c t ih =>
    rw [List.reverse_cons, List.append_assoc, List.singleton_append] at h ⊢
    have hread : IsRead (c :: done) := h.of_append
    obtain ⟨hupper, hline⟩ := hread.plain c List.mem_cons_self
    rw [kebabFrom]
    by_cases hdash : c = '-'
    · have hne : done ≠ [] := by
        rintro rfl
        exact hread.first (by rw [hdash]; rfl)
      have hhead : done.head? ≠ some '-' := fun hhead =>
        (List.isChain_cons.mp hread.single).1 '-' hhead hdash rfl
      simp only [hdash, decide_true, Bool.or_true, if_true, pushDash_of_ne hne hhead]
      exact ih (hdash ▸ h) _
    · simp only [hline, hdash, decide_false, Bool.or_self, Bool.false_eq_true, if_false, hupper]
      exact ih h _

/-- Whether a word is in kebab case: it is as a read word is, and does not end with a dash. -/
structure IsKebab (word : Text) : Prop where
  read : IsRead word.reverse
  last : word.getLast? ≠ some '-'

theorem isKebab_kebabWord (word : Text) : IsKebab (kebabWord word) := by
  refine ⟨?_, ?_⟩
  · have hread := isRead_kebabFrom isRead_nil none word
    rw [← List.takeWhile_append_dropWhile (p := (· == '-')) (l := kebabFrom none [] word)] at hread
    rw [kebabWord, List.reverse_reverse]
    exact hread.of_append
  · rw [kebabWord, List.getLast?_reverse]
    intro hdash
    have hhead := List.head?_dropWhile_not (· == '-') (kebabFrom none [] word)
    rw [hdash] at hhead
    cases hhead

theorem kebabWord_of_isKebab (h : IsKebab word) : kebabWord word = word := by
  have hread : IsRead (word.reverse ++ []) := by rw [List.append_nil]; exact h.read
  rw [kebabWord, kebabFrom_of_isRead hread, List.append_nil]
  have hlast : word.reverse.dropWhile (· == '-') = word.reverse := by
    cases hword : word.reverse with
    | nil => rfl
    | cons c rest =>
      refine List.dropWhile_cons_of_neg fun hc => h.last ?_
      rw [← List.head?_reverse, hword, beq_iff_eq.mp hc]
      rfl
  rw [hlast, List.reverse_reverse]

theorem IsKebab.underscore_not_mem (h : IsKebab word) : '_' ∉ word := fun hmem =>
  (h.read.plain '_' (List.mem_reverse.mpr hmem)).2 rfl

/-- A word in kebab case does not go on with a pair of dashes behind it. -/
theorem IsKebab.unpaired (h : IsKebab word) : Unpaired '-' (word ++ ['-']) := by
  have hword : Unpaired '-' word := by
    have hreverse := List.isChain_reverse.mpr h.read.single
    rw [List.reverse_reverse] at hreverse
    exact hreverse.imp fun x y hxy hx hy => hxy hy hx
  refine hword.append (List.isChain_singleton _) fun x hx y _ heq _ => ?_
  exact h.last (heq ▸ hx)

/-! ## Elements and names -/

/-- The kebab-case form of a name without doubled underscores. -/
def kebabElement (t : Text) : Text := List.intercalate ['-', '-'] ((splitAtPair '-' t).map kebabWord)

theorem kebab_eq (name : Text) :
    kebab name = List.intercalate ['_', '_'] ((splitAtPair '_' name).map kebabElement) := rfl

theorem underscore_not_mem_kebabElement (t : Text) : '_' ∉ kebabElement t := by
  intro hmem
  rcases mem_of_mem_intercalate hmem with hsep | ⟨p, hp, hline⟩
  · simp at hsep
  · obtain ⟨word, -, rfl⟩ := List.mem_map.mp hp
    exact (isKebab_kebabWord word).underscore_not_mem hline

theorem map_kebabWord_kebabWord (words : List Text) :
    (words.map kebabWord).map kebabWord = words.map kebabWord := by
  rw [List.map_map]
  exact List.map_congr_left fun word _ => kebabWord_of_isKebab (isKebab_kebabWord word)

theorem kebabElement_kebabElement (t : Text) : kebabElement (kebabElement t) = kebabElement t := by
  have hwords : splitAtPair '-' (kebabElement t) = (splitAtPair '-' t).map kebabWord := by
    refine splitAtPair_intercalate (mt List.map_eq_nil_iff.mp (splitAtPair_ne_nil _ _)) fun p hp => ?_
    obtain ⟨word, -, rfl⟩ := List.mem_map.mp hp
    exact (isKebab_kebabWord word).unpaired
  rw [kebabElement, hwords, map_kebabWord_kebabWord, ← kebabElement]

/-- **The form is its own.** -/
theorem kebab_kebab (name : Text) : kebab (kebab name) = kebab name := by
  have helements : splitAtPair '_' (kebab name) = (splitAtPair '_' name).map kebabElement := by
    refine splitAtPair_intercalate (mt List.map_eq_nil_iff.mp (splitAtPair_ne_nil _ _)) fun p hp => ?_
    obtain ⟨t, -, rfl⟩ := List.mem_map.mp hp
    refine (unpaired_of_not_mem (underscore_not_mem_kebabElement t)).append
      (List.isChain_singleton _) fun x hx y _ heq _ => ?_
    exact underscore_not_mem_kebabElement t (heq ▸ List.mem_of_getLast? hx)
  rw [kebab_eq (kebab name), helements, List.map_map, kebab_eq]
  exact congrArg _ (List.map_congr_left fun t _ => kebabElement_kebabElement t)

/-! ## What the form keeps -/

/-- A name without its separators. -/
def letters (t : Text) : Text := t.filter fun c => c != '-' && c != '_'

theorem letters_append (a b : Text) : letters (a ++ b) = letters a ++ letters b := List.filter_append a b

theorem letters_singleton (h : c ≠ '_' ∧ c ≠ '-') : letters [c] = [c] := by
  simp [letters, h]

theorem letters_pushDash (done : Text) : letters (pushDash done).reverse = letters done.reverse := by
  rcases pushDash_cases done with heq | ⟨-, -, heq⟩
  · rw [heq]
  · rw [heq, List.reverse_cons, letters_append]
    simp [letters]

/-- One character after the other, letters are put into lower case and nothing else is kept. -/
theorem letters_kebabFrom (before : Option Char) (done rest : Text) :
    letters (kebabFrom before done rest).reverse = letters done.reverse ++ (letters rest).lower := by
  induction rest generalizing before done with
  | nil => simp [kebabFrom, letters, Text.lower]
  | cons c rest ih =>
    have hfirst : (letters (c :: rest)).lower = (letters [c]).lower ++ (letters rest).lower := by
      rw [← List.singleton_append, letters_append, Scan.lower_append]
    rw [kebabFrom, ih, hfirst, ← List.append_assoc]
    refine congrArg (· ++ (letters rest).lower) ?_
    split
    · rename_i hseparator
      have hnone : letters [c] = [] := by
        rw [Bool.or_eq_true, decide_eq_true_iff, decide_eq_true_iff] at hseparator
        rcases hseparator with rfl | rfl <;> rfl
      rw [letters_pushDash, hnone, Text.lower, List.map_nil, List.append_nil]
    · rename_i hword
      have hword := not_separator hword
      rw [letters_singleton hword, Text.lower, List.map_singleton]
      split
      · rw [List.reverse_cons, letters_append, letters_singleton (toLower_ne hword)]
        split
        · rw [letters_pushDash]
        · rfl
      · rename_i hupper
        rw [List.reverse_cons, letters_append, letters_singleton hword,
          Char.toLower_eq_of_not_isUpper hupper]

theorem letters_kebabWord (word : Text) : letters (kebabWord word) = (letters word).lower := by
  have hdrop (done : Text) :
      letters (done.dropWhile (· == '-')).reverse = letters done.reverse := by
    induction done with
    | nil => rfl
    | cons c done ih =>
      rw [List.dropWhile_cons]
      split
      · rename_i hc
        rw [ih, List.reverse_cons, letters_append, beq_iff_eq.mp hc]
        simp [letters]
      · rfl
  rw [kebabWord, hdrop, letters_kebabFrom]
  rfl

theorem letters_intercalate {sep : Text} (hsep : letters sep = []) (parts : List Text) :
    letters (List.intercalate sep parts) = parts.flatMap letters := by
  induction parts with
  | nil => rfl
  | cons p parts ih =>
    cases parts with
    | nil => simp
    | cons q parts =>
      rw [List.intercalate_cons_cons, letters_append, letters_append, hsep, List.append_nil, ih]
      rfl

/-- What each part keeps, the whole keeps. -/
theorem letters_joined {f : Text → Text} (hf : ∀ t, letters (f t) = (letters t).lower)
    (hc : letters [c, c] = []) (t : Text) :
    letters (List.intercalate [c, c] ((splitAtPair c t).map f)) = (letters t).lower := by
  rw [letters_intercalate hc, List.flatMap_map, ← intercalate_splitAtPair c t,
    letters_intercalate hc, intercalate_splitAtPair]
  simp only [hf, Text.lower, List.map_flatMap]

/-- **The form keeps all but case and separators.** -/
theorem letters_kebab (name : Text) : letters (kebab name) = (letters name).lower :=
  letters_joined (letters_joined letters_kebabWord rfl) rfl name

/-- **The kebab-case form of a name** is its own form. Without its dashes and underscores it is the
name without them and in lower case. It is joined by doubled underscores from as many elements as the
name is cut into, and no element has an underscore, so no underscore stands by itself. -/
theorem kebab_settled (name : Text) :
    kebab (kebab name) = kebab name
      ∧ letters (kebab name) = (letters name).lower
      ∧ ∃ elements, kebab name = List.intercalate ['_', '_'] elements
          ∧ elements.length = (splitAtPair '_' name).length ∧ ∀ e ∈ elements, '_' ∉ e := by
  refine ⟨kebab_kebab name, letters_kebab name, _, kebab_eq name, List.length_map _, fun e he => ?_⟩
  obtain ⟨t, -, rfl⟩ := List.mem_map.mp he
  exact underscore_not_mem_kebabElement t

example : kebab "_HTMLBox---a_b__-C__".toList = "html-box--a-b__c__".toList := by decide

end SheetLint.SelectorNaming
