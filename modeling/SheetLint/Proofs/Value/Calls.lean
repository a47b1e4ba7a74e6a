import SheetLint.Proofs.Edit.Tokens
import SheetLint.Proofs.Token.Gaps
import SheetLint.Proofs.Token.Kinds
import SheetLint.Value.Call

/-!
# Where calls stand

A call is a name with a parenthesis right behind it. It is closed where as many parentheses have been
closed as were opened since its own; in front of that, and to the end of a call that is not closed,
more are opened than closed. So calls lie inside each other or apart, and the depth that is kept while
arguments are cut, which never goes below zero, is the number of parentheses opened inside the call
less those closed.

Results:
* `Call.exists_of_mem_findFrom`, `Call.exists_of_closed`: where a call stands in its run.
* `Call.mem_map_name_findFrom`, `Call.pair_isInfix_iff`: which names are called in a run of a text.
* `Call.level_pos`, `Call.level_close`: how many parentheses are open behind each token of a call.
* `Call.range_nested`: two calls lie inside each other or apart.
* `Call.args_eq`: arguments are what stands between the commas at depth zero.
* `Call.calls_located`: the calls of a run, all in all.
-/

namespace SheetLint

open Tokens

/-! ## Open parentheses -/

namespace Tokens

/-- The number of parentheses that a run opens, less those that it closes. -/
def excess (ts : List Token) : Int := (ts.countP (·.isPunct '(') : Int) - ts.countP (·.isPunct ')')

variable {t : Token} {ts : List Token} {depth : Nat}

@[simp] theorem excess_nil : excess [] = 0 := rfl

@[simp] theorem excess_append (a b : List Token) : excess (a ++ b) = excess a + excess b := by
  simp only [excess, List.countP_append, Nat.cast_add]
  omega

theorem excess_cons (t : Token) (ts : List Token) : excess (t :: ts) = excess [t] + excess ts :=
  excess_append [t] ts

theorem excess_open (h : t.isPunct '(' = true) : excess [t] = 1 := by
  simp [excess, h, Token.isPunct_of_ne h]

theorem excess_close (hopen : ¬ t.isPunct '(' = true) (h : t.isPunct ')' = true) : excess [t] = -1 := by
  simp [excess, h, hopen]

theorem excess_other (hopen : ¬ t.isPunct '(' = true) (h : ¬ t.isPunct ')' = true) :
    excess [t] = 0 := by
  simp [excess, h, hopen]

theorem excess_take_succ_cons (t : Token) (ts : List Token) (k : Nat) :
    excess ((t :: ts).take (k + 1)) = excess [t] + excess (ts.take k) := by
  rw [List.take_succ_cons, excess_cons]

/-- **The depth of parentheses is the excess**, as long as no more are closed than are open. -/
theorem cast_foldl_parenDepth (depth : Nat) (ts : List Token) (h : ∀ k, 0 ≤ depth + excess (ts.take k)) :
    ((ts.foldl parenDepth depth : Nat) : Int) = depth + excess ts := by
  induction ts generalizing depth with
  | nil => simp
  | cons t ts ih =>
    have hlater (k : Nat) : 0 ≤ depth + (excess [t] + excess (ts.take k)) := by
      have hk := h (k + 1)
      rwa [excess_take_succ_cons] at hk
    have hhere : 0 ≤ depth + excess [t] := by simpa using hlater 0
    have hdepth : ((parenDepth depth t : Nat) : Int) = depth + excess [t] := by
      unfold parenDepth
      by_cases hopen : t.isPunct '(' = true
      · rw [if_pos hopen, excess_open hopen, Nat.cast_add, Nat.cast_one]
      · by_cases hclose : t.isPunct ')' = true
        · rw [excess_close hopen hclose] at hhere
          rw [if_neg hopen, if_pos hclose, excess_close hopen hclose]
          omega
        · rw [if_neg hopen, if_neg hclose, excess_other hopen hclose, Int.add_zero]
    rw [List.foldl_cons, ih _ fun k => by rw [hdepth, Int.add_assoc]; exact hlater k, hdepth,
      excess_cons t ts, Int.add_assoc]

end Tokens

namespace Call

variable {ts : List Token} {c d : Call} {t : Token} {i j k n depth : Nat}

/-! ## Names and parentheses -/

/-- Whether two tokens side by side are the name of a call and its parenthesis. -/
def opens (name paren : Token) : Bool :=
  name.kind == .ident && paren.isPunct '(' && paren.start == name.stop

theorem opens_iff {name paren : Token} : opens name paren = true ↔
    name.kind = .ident ∧ paren.isPunct '(' = true ∧ paren.start = name.stop := by
  simp [opens, and_assoc]

/-- **Where a call stands in its run.** -/
theorem exists_of_mem_findFrom (h : c ∈ findFrom i ts) :
    ∃ before paren rest, ts = before ++ c.name :: paren :: rest
      ∧ c.index = i + before.length ∧ opens c.name paren = true
      ∧ c.close = (lengthToClose? 0 rest).map (c.index + 2 + ·) := by
  fun_induction findFrom i ts with
  | case1 | case2 => cases h
  | case3 i name paren rest later htest ih =>
    rcases List.mem_cons.mp h with rfl | hlater
    · exact ⟨[], paren, rest, rfl, rfl, htest, rfl⟩
    · obtain ⟨before, paren', rest', hsplit, hindex, hopens, hclose⟩ := ih hlater
      refine ⟨name :: before, paren', rest', by rw [hsplit]; rfl, ?_, hopens, hclose⟩
      rw [hindex, List.length_cons]
      omega
  | case4 i name paren rest later htest ih =>
    obtain ⟨before, paren', rest', hsplit, hindex, hopens, hclose⟩ := ih h
    refine ⟨name :: before, paren', rest', by rw [hsplit]; rfl, ?_, hopens, hclose⟩
    rw [hindex, List.length_cons]
    omega

/-- The name of a call is an identifier. -/
theorem kind_name (h : c ∈ find ts) : c.name.kind = .ident := by
  obtain ⟨_, _, _, _, _, hopens, _⟩ := exists_of_mem_findFrom h
  exact (opens_iff.mp hopens).1

/-- Whether the token at an index is the name of a call. -/
def isCallAt (ts : List Token) (i : Nat) : Bool :=
  match ts[i]?, ts[i + 1]? with
  | some name, some paren => opens name paren
  | _, _ => false

theorem isCallAt_iff : isCallAt ts i = true ↔
    ∃ name paren, ts[i]? = some name ∧ ts[i + 1]? = some paren ∧ opens name paren = true := by
  unfold isCallAt
  constructor
  · intro h
    split at h
    · rename_i name paren hname hparen
      exact ⟨name, paren, hname, hparen, h⟩
    · cases h
  · rintro ⟨name, paren, hname, hparen, h⟩
    rw [hname, hparen]
    exact h

theorem filter_isCallAt_cons (t : Token) (ts : List Token) :
    (List.range (t :: ts).length).filter (isCallAt (t :: ts)) =
      (if isCallAt (t :: ts) 0 then [0] else [])
        ++ ((List.range ts.length).filter (isCallAt ts)).map (· + 1) := by
  rw [List.length_cons, List.range_succ_eq_map, List.filter_cons, List.filter_map]
  have hlater : isCallAt (t :: ts) ∘ Nat.succ = isCallAt ts := rfl
  rw [hlater]
  by_cases h : isCallAt (t :: ts) 0 = true <;> simp [h]

/-- **The names of the calls of a run**, by index. -/
theorem map_index_findFrom (i : Nat) (ts : List Token) :
    (findFrom i ts).map index = ((List.range ts.length).filter (isCallAt ts)).map (i + ·) := by
  fun_induction findFrom i ts with
  | case1 => rfl
  | case2 i t => rfl
  | case3 i name paren rest later htest ih =>
    have hhere : isCallAt (name :: paren :: rest) 0 = true := htest
    rw [filter_isCallAt_cons, if_pos hhere, List.map_cons, ih, List.map_append, List.map_map]
    refine congrArg (i :: ·) (List.map_congr_left fun k _ => ?_)
    simp only [Function.comp_apply]
    omega
  | case4 i name paren rest later htest ih =>
    have hhere : ¬ isCallAt (name :: paren :: rest) 0 = true := htest
    rw [filter_isCallAt_cons, if_neg hhere, ih, List.nil_append, List.map_map]
    refine List.map_congr_left fun k _ => ?_
    simp only [Function.comp_apply]
    omega

theorem pair_isInfix_cons_cons {α : Type} {a b x y : α} {l : List α} :
    [a, b] <:+: x :: y :: l ↔ a = x ∧ b = y ∨ [a, b] <:+: y :: l := by
  rw [List.infix_cons_iff, List.cons_prefix_cons, List.cons_prefix_cons, and_iff_left l.nil_prefix]

/-- **The names of the calls of a run** are the tokens with a parenthesis right behind them. -/
theorem mem_map_name_findFrom :
    t ∈ (findFrom i ts).map Call.name ↔ ∃ paren, [t, paren] <:+: ts ∧ opens t paren = true := by
  fun_induction findFrom i ts with
  | case1 => simp
  | case2 i u => simp [List.infix_cons_iff]
  | case3 i u paren rest later htest ih =>
    have hopens : opens u paren = true := htest
    simp only [pair_isInfix_cons_cons, or_and_right, exists_or, ← ih, List.map_cons, List.mem_cons]
    refine or_congr_left ⟨?_, ?_⟩
    · rintro rfl
      exact ⟨paren, ⟨rfl, rfl⟩, hopens⟩
    · rintro ⟨_, ⟨rfl, rfl⟩, -⟩
      rfl
  | case4 i u paren rest later htest ih =>
    have hnot : ¬ opens u paren = true := htest
    simp only [pair_isInfix_cons_cons, or_and_right, exists_or, ← ih]
    refine (or_iff_right ?_).symm
    rintro ⟨_, ⟨rfl, rfl⟩, hopens⟩
    exact hnot hopens

theorem map_name_findFrom_sublist (i : Nat) (ts : List Token) :
    ((findFrom i ts).map Call.name).Sublist ts := by
  fun_induction findFrom i ts with
  | case1 => exact .slnil
  | case2 => exact List.nil_sublist _
  | case3 i u paren rest later htest ih => exact ih.cons_cons u
  | case4 i u paren rest later htest ih => exact ih.cons u

/-- **A name that is called in a text is called in its run**, unless the run ends in front of a
parenthesis. -/
theorem pair_isInfix_iff {source : Text} {run front back : List Token} {paren : Token}
    (hsource : Tokens.ofText source = front ++ (run ++ back))
    (hback : ∀ t ∈ back.head?, t.isPunct '(' = false) (ht : t ∈ run) (hparen : paren.isPunct '(' = true) :
    [t, paren] <:+: run ↔ [t, paren] <:+: Tokens.ofText source := by
  constructor
  · intro h
    exact h.trans ⟨front, back, by rw [hsource, List.append_assoc]⟩
  · rintro ⟨before, after, hwhole⟩
    obtain ⟨init, tail, rfl⟩ := List.append_of_mem ht
    have hhere : Tokens.ofText source = (front ++ init) ++ t :: (tail ++ back) := by
      rw [hsource]
      simp
    have hthere : Tokens.ofText source = before ++ t :: (paren :: after) := by
      rw [← hwhole]
      simp
    obtain ⟨-, hbehind⟩ := split_unique hhere hthere
    cases tail with
    | nil =>
      rw [List.nil_append] at hbehind
      rw [hback paren (by rw [hbehind]; rfl)] at hparen
      cases hparen
    | cons u tail =>
      cases hbehind
      exact ⟨init, tail, by simp⟩

/-! ## Where a call is closed -/

theorem lengthToClose?_lt (h : lengthToClose? depth ts = some n) : n < ts.length := by
  fun_induction lengthToClose? depth ts generalizing n with
  | case1 => cases h
  | case3 =>
    cases h
    simp
  | case2 _ _ _ _ ih | case4 _ _ _ _ _ ih | case5 _ _ _ _ _ ih =>
    obtain ⟨m, hm, rfl⟩ := Option.map_eq_some_iff.mp h
    simpa using ih hm

/-- **A closed call is its name, a parenthesis, what is inside, and a parenthesis.** -/
theorem exists_of_closed {close : Token} (h : c ∈ find ts)
    (hclose : c.close.bind (ts[·]?) = some close) :
    ∃ before paren after, paren.isPunct '(' = true
      ∧ ts = before ++ (c.name :: paren :: (c.inside ts ++ [close])) ++ after := by
  obtain ⟨before, paren, rest, hsplit, hindex, hopens, hlength⟩ := exists_of_mem_findFrom h
  obtain ⟨index, hindex', hget⟩ := Option.bind_eq_some_iff.mp hclose
  rw [hindex'] at hlength
  obtain ⟨n, hn, rfl⟩ := Option.map_eq_some_iff.mp hlength.symm
  have hlt := lengthToClose?_lt hn
  have hfront : ts = (before ++ [c.name, paren]) ++ rest := by simp [hsplit]
  have hclosed : c.index + 2 + n = (before ++ [c.name, paren]).length + n := by
    rw [hindex, List.length_append, Nat.zero_add]
    rfl
  have hinside : c.inside ts = rest.take n := by
    rw [inside, hindex', Option.getD_some, hclosed, hfront, List.take_length_add_append]
    exact List.drop_left' (by simp [opening, hindex])
  have hbehind : rest[n]? = some close := by
    rw [← hget, hclosed, hfront, List.getElem?_append_right (Nat.le_add_right _ _),
      Nat.add_sub_cancel_left]
  refine ⟨before, paren, rest.drop (n + 1), (opens_iff.mp hopens).2.1, ?_⟩
  rw [hinside, hfront]
  obtain ⟨hlt, rfl⟩ := List.getElem?_eq_some_iff.mp hbehind
  simp

/-- How a run goes on that has one token more in front. -/
theorem excess_pos_cons (depth' : Nat) (hdepth : (depth' : Int) = depth + excess [t])
    (hlater : ∀ m, k = m + 1 → 0 < depth' + 1 + excess (ts.take m)) :
    0 < depth + 1 + excess ((t :: ts).take k) := by
  cases k with
  | zero =>
    rw [List.take_zero, excess_nil]
    omega
  | succ m =>
    have hm := hlater m rfl
    rw [excess_take_succ_cons]
    omega

/-- Up to the parenthesis that closes a call, more are open than closed. `depth` is the number of
those that are open already, the one of the call apart. -/
theorem excess_pos (h : ∀ n, lengthToClose? depth ts = some n → k ≤ n) :
    0 < depth + 1 + excess (ts.take k) := by
  -- one token further, the call is closed one token earlier
  have hearlier {k m : Nat} {found : Option Nat} (hk : k = m + 1)
      (h : ∀ n, found.map (· + 1) = some n → k ≤ n) : ∀ n, found = some n → m ≤ n := fun n hn => by
    have hle := h (n + 1) (by rw [hn]; rfl)
    omega
  fun_induction lengthToClose? depth ts generalizing k with
  | case1 depth =>
    rw [List.take_nil, excess_nil]
    omega
  | case3 t ts hopen hclose =>
    rw [Nat.le_zero.mp (h 0 rfl), List.take_zero, excess_nil]
    decide
  | case2 depth t ts hopen ih =>
    refine excess_pos_cons (depth + 1) ?_ fun m hm => ih (hearlier hm h)
    rw [excess_open hopen, Nat.cast_add, Nat.cast_one]
  | case4 t ts hopen hclose depth ih =>
    refine excess_pos_cons depth ?_ fun m hm => ih (hearlier hm h)
    rw [excess_close hopen hclose]
    omega
  | case5 depth t ts hopen hclose ih =>
    refine excess_pos_cons depth ?_ fun m hm => ih (hearlier hm h)
    rw [excess_other hopen hclose, Int.add_zero]

/-- Behind the parenthesis that closes a call, as many are closed as were opened. -/
theorem excess_eq_zero (h : lengthToClose? depth ts = some n) :
    depth + 1 + excess (ts.take (n + 1)) = 0 := by
  fun_induction lengthToClose? depth ts generalizing n with
  | case1 => cases h
  | case3 t ts hopen hclose =>
    cases h
    rw [excess_take_succ_cons, excess_close hopen hclose, List.take_zero, excess_nil]
    rfl
  | case2 depth t ts hopen ih =>
    obtain ⟨m, hm, rfl⟩ := Option.map_eq_some_iff.mp h
    have hlater := ih hm
    rw [excess_take_succ_cons, excess_open hopen]
    omega
  | case4 t ts hopen hclose depth ih =>
    obtain ⟨m, hm, rfl⟩ := Option.map_eq_some_iff.mp h
    have hlater := ih hm
    rw [excess_take_succ_cons, excess_close hopen hclose]
    omega
  | case5 depth t ts hopen hclose ih =>
    obtain ⟨m, hm, rfl⟩ := Option.map_eq_some_iff.mp h
    have hlater := ih hm
    rw [excess_take_succ_cons, excess_other hopen hclose]
    omega

/-! ## Levels -/

/-- How many parentheses of a call are open behind the token at an index: of those from its own on. -/
def level (c : Call) (ts : List Token) (k : Nat) : Int := excess (slice ts c.opening (k + 1))

/-- The levels of a call, by the tokens behind its parenthesis. -/
theorem exists_level (h : c ∈ find ts) :
    ∃ rest, ts.length = c.opening + 1 + rest.length
      ∧ c.close = (lengthToClose? 0 rest).map (c.opening + 1 + ·)
      ∧ slice ts (c.opening + 1) ts.length = rest
      ∧ ∀ k, c.level ts (c.opening + k) = 1 + excess (rest.take k) := by
  obtain ⟨before, paren, rest, hsplit, hindex, hopens, hclose⟩ := exists_of_mem_findFrom h
  have hfront : c.opening = (before ++ [c.name]).length := by
    rw [opening, hindex, List.length_append, Nat.zero_add]
    rfl
  have hts : ts = (before ++ [c.name]) ++ paren :: rest := by rw [hsplit]; simp
  refine ⟨rest, ?_, hclose, ?_, fun k => ?_⟩
  · rw [hfront, hts, List.length_append, List.length_cons]
    omega
  · rw [slice, List.take_length, hfront, hts, List.drop_length_add_append]
    rfl
  · rw [level, hfront, Nat.add_assoc]
    nth_rewrite 1 [hts]
    rw [slice_append, excess_take_succ_cons, excess_open (opens_iff.mp hopens).2.1]

/-- **Inside a call parentheses are open.** -/
theorem level_pos (h : c ∈ find ts) (hk : c.opening ≤ k) (hclose : ∀ j, c.close = some j → k < j) :
    0 < c.level ts k := by
  obtain ⟨rest, -, hclosed, -, hlevel⟩ := exists_level h
  obtain ⟨m, rfl⟩ := Nat.exists_eq_add_of_le hk
  have hpos : 0 < ((0 : Nat) : Int) + 1 + excess (rest.take m) := by
    refine excess_pos fun n hn => ?_
    have hlt := hclose (c.opening + 1 + n) (by rw [hclosed, hn]; rfl)
    omega
  rw [hlevel]
  omega

/-- **Where a call is closed none is open.** -/
theorem level_close (h : c ∈ find ts) (hj : c.close = some j) :
    c.opening < j ∧ j < ts.length ∧ c.level ts j = 0 := by
  obtain ⟨rest, hlength, hclosed, -, hlevel⟩ := exists_level h
  rw [hclosed] at hj
  obtain ⟨n, hn, rfl⟩ := Option.map_eq_some_iff.mp hj
  have hlt := lengthToClose?_lt hn
  have hzero := excess_eq_zero hn
  refine ⟨by omega, by omega, ?_⟩
  rw [Nat.add_assoc, Nat.add_comm 1 n, hlevel]
  omega

/-- In front of the parenthesis that closes it a call is open. -/
theorem level_pos_of_lt (h : c ∈ find ts) (hclose : c.close = some j) (hk : c.opening ≤ k)
    (hlt : k < j) : 0 < c.level ts k :=
  level_pos h hk fun j' hj' => by
    cases hclose.symm.trans hj'
    exact hlt

/-- A call without a closing parenthesis is open from its own one on. -/
theorem level_pos_of_unclosed (h : c ∈ find ts) (hclose : c.close = none) (hk : c.opening ≤ k) :
    0 < c.level ts k :=
  level_pos h hk fun j hj => by
    rw [hclose] at hj
    cases hj

/-- **A call is closed at the first index where its parentheses are balanced.** -/
theorem close_eq_some_iff (h : c ∈ find ts) : c.close = some j ↔
    IsLeast {k | c.opening ≤ k ∧ k < ts.length ∧ c.level ts k = 0} j := by
  constructor
  · intro hj
    obtain ⟨hlt, hlength, hzero⟩ := level_close h hj
    refine ⟨⟨Nat.le_of_lt hlt, hlength, hzero⟩, fun k hk => ?_⟩
    by_contra hbefore
    exact (level_pos_of_lt h hj hk.1 (Nat.lt_of_not_le hbefore)).ne' hk.2.2
  · rintro ⟨⟨hopening, -, hzero⟩, hleast⟩
    by_contra hother
    refine (level_pos h hopening fun j' hj' => ?_).ne' hzero
    obtain ⟨hlt, hlength, hzero'⟩ := level_close h hj'
    have hle : j ≤ j' := hleast ⟨Nat.le_of_lt hlt, hlength, hzero'⟩
    exact Nat.lt_of_le_of_ne hle fun heq => hother (by rw [hj', heq])

/-- A call is open to the end if its parentheses are balanced nowhere. -/
theorem close_eq_none_iff (h : c ∈ find ts) : c.close = none ↔
    ∀ k, c.opening ≤ k → k < ts.length → c.level ts k ≠ 0 := by
  constructor
  · intro hnone k hk _
    exact (level_pos_of_unclosed h hnone hk).ne'
  · intro hopen
    cases hclose : c.close with
    | none => rfl
    | some j =>
      obtain ⟨hlt, hlength, hzero⟩ := level_close h hclose
      exact absurd hzero (hopen j (Nat.le_of_lt hlt) hlength)

/-! ## Calls inside calls -/

/-- The index behind a call: behind the parenthesis that closes it, or behind all tokens. -/
def stop (c : Call) (ts : List Token) : Nat := (c.close.map (· + 1)).getD ts.length

/-- The indices of a call, from its name on. -/
def range (c : Call) (ts : List Token) : Set Nat := Set.Ico c.index (c.stop ts)

theorem stop_le_length (h : c ∈ find ts) : c.stop ts ≤ ts.length := by
  unfold stop
  cases hclose : c.close with
  | none => exact Nat.le_refl _
  | some j => exact (level_close h hclose).2.1

/-- The index of a call tells where it is closed. -/
theorem stop_eq_of_index_eq (hc : c ∈ find ts) (hd : d ∈ find ts) (hindex : c.index = d.index) :
    c.stop ts = d.stop ts := by
  have hopening : c.opening = d.opening := congrArg (· + 1) hindex
  obtain ⟨rest, -, hclose, hrest, -⟩ := exists_level hc
  obtain ⟨rest', -, hclose', hrest', -⟩ := exists_level hd
  rw [← hopening] at hclose' hrest'
  rw [stop, stop, hclose, hclose', ← hrest, ← hrest']

theorem getElem?_index (h : c ∈ find ts) : ts[c.index]? = some c.name := by
  obtain ⟨before, paren, rest, hsplit, hindex, -⟩ := exists_of_mem_findFrom h
  rw [Nat.zero_add] at hindex
  rw [hsplit, hindex, List.getElem?_append_right (Nat.le_refl _), Nat.sub_self]
  rfl

/-- A word changes no level. -/
theorem level_succ_of_word (hk : c.opening ≤ k + 1) (ht : ts[k + 1]? = some t)
    (hword : excess [t] = 0) : c.level ts (k + 1) = c.level ts k := by
  have hlast : slice ts (k + 1) (k + 1 + 1) = [t] := by
    obtain ⟨hlt, rfl⟩ := List.getElem?_eq_some_iff.mp ht
    rw [slice, List.drop_take, List.drop_eq_getElem_cons hlt, Nat.add_sub_cancel_left]
    rfl
  rw [level, ← slice_append_slice hk (Nat.le_succ _), excess_append, hlast, hword, Int.add_zero]
  rfl

/-- The level of a call counts the parentheses open in front of a later one, and those of that. -/
theorem level_eq_add (hle : c.opening ≤ d.opening) (hj : d.opening ≤ j + 1) :
    c.level ts j = c.level ts d.index + d.level ts j := by
  rw [level, ← slice_append_slice hle hj, excess_append]
  rfl

/-- The name of a call inside another is not the parenthesis that closes that one. -/
theorem index_ne_close (hc : c ∈ find ts) (hd : d ∈ find ts) (hclose : c.close = some j)
    (hlt : c.index < d.index) : d.index ≠ j := by
  rintro rfl
  have hname : excess [d.name] = 0 := by
    have hkind : ∀ mark, d.name.isPunct mark = false := by simp [Token.isPunct, kind_name hd]
    exact excess_other (by simp [hkind]) (by simp [hkind])
  obtain ⟨hopening, -, hzero⟩ := level_close hc hclose
  obtain ⟨k, hk⟩ := Nat.exists_eq_add_of_lt hlt
  have hword := getElem?_index hd
  rw [hk] at hopening hzero hclose hword
  -- a word changes no level, so the call was balanced in front of it already
  rw [level_succ_of_word (Nat.le_of_lt hopening) hword hname] at hzero
  exact (level_pos_of_lt hc hclose (Nat.le_of_lt_succ hopening) (Nat.lt_succ_self _)).ne' hzero

/-- Where a call is closed, one that starts inside it is balanced already, or more than that. -/
theorem level_neg_of_inside (hc : c ∈ find ts) (hclose : c.close = some j)
    (hlt : c.index < d.index) (hin : d.index < j) : d.level ts j < 0 := by
  have hzero := (level_close hc hclose).2.2
  have hadd : c.level ts j = c.level ts d.index + d.level ts j :=
    level_eq_add (Nat.succ_le_succ (Nat.le_of_lt hlt)) (Nat.succ_le_succ (Nat.le_of_lt hin))
  have hpos := level_pos_of_lt hc hclose hlt hin
  omega

/-- **A call that starts inside another is closed inside it.** -/
theorem stop_le_stop (hc : c ∈ find ts) (hd : d ∈ find ts) (hlt : c.index < d.index)
    (hin : d.index < c.stop ts) : d.stop ts ≤ c.stop ts := by
  cases hclose : c.close with
  | none =>
    have hstop : c.stop ts = ts.length := by rw [stop, hclose]; rfl
    rw [hstop]
    exact stop_le_length hd
  | some j =>
    have hstop : c.stop ts = j + 1 := by rw [stop, hclose]; rfl
    rw [hstop] at hin ⊢
    have hbefore : d.index < j :=
      Nat.lt_of_le_of_ne (Nat.le_of_lt_succ hin) (index_ne_close hc hd hclose hlt)
    have hneg := level_neg_of_inside hc hclose hlt hbefore
    cases hclose' : d.close with
    | none => exact absurd (level_pos_of_unclosed hd hclose' hbefore) (Int.not_lt.mpr hneg.le)
    | some j' =>
      have hstop' : d.stop ts = j' + 1 := by rw [stop, hclose']; rfl
      rw [hstop']
      by_contra hlater
      have hle : j ≤ j' := Nat.le_of_lt (Nat.lt_of_succ_lt_succ (Nat.lt_of_not_le hlater))
      rcases Nat.lt_or_eq_of_le hle with hlt' | rfl
      · exact absurd (level_pos_of_lt hd hclose' hbefore hlt') (Int.not_lt.mpr hneg.le)
      · exact hneg.ne (level_close hd hclose').2.2

/-- **Two calls lie inside each other or apart.** -/
theorem range_nested (hc : c ∈ find ts) (hd : d ∈ find ts) :
    c.range ts ⊆ d.range ts ∨ d.range ts ⊆ c.range ts ∨ Disjoint (c.range ts) (d.range ts) := by
  have hlater {c d : Call} (hc : c ∈ find ts) (hd : d ∈ find ts) (hlt : c.index < d.index) :
      d.range ts ⊆ c.range ts ∨ Disjoint (c.range ts) (d.range ts) := by
    by_cases hin : d.index < c.stop ts
    · exact .inl (Set.Ico_subset_Ico (Nat.le_of_lt hlt) (stop_le_stop hc hd hlt hin))
    · refine .inr (Set.disjoint_left.mpr fun k hk hk' => ?_)
      exact hin (Nat.lt_of_le_of_lt hk'.1 hk.2)
  rcases Nat.lt_trichotomy c.index d.index with hlt | heq | hgt
  · exact .inr (hlater hc hd hlt)
  · left
    rw [range, range, heq, stop_eq_of_index_eq hc hd heq]
  · rcases hlater hd hc hgt with hinside | hapart
    · exact .inl hinside
    · exact .inr (.inr hapart.symm)

/-! ## Arguments -/

theorem contains_iff : c.contains i = true ↔
    c.opening < i ∧ ∀ j, c.close = some j → i < j := by
  unfold contains
  cases c.close <;> simp

/-- Inside a call no more parentheses are closed than opened. -/
theorem excess_inside (h : c ∈ find ts) (k : Nat) : 0 ≤ excess ((c.inside ts).take k) := by
  obtain ⟨rest, hlength, hclose, hrest, -⟩ := exists_level h
  have hpos (k : Nat) (hk : ∀ n, lengthToClose? 0 rest = some n → k ≤ n) :
      0 ≤ excess (rest.take k) := by
    have hlater : 0 < ((0 : Nat) : Int) + 1 + excess (rest.take k) := excess_pos hk
    omega
  rw [slice, List.take_length] at hrest
  cases hn : lengthToClose? 0 rest with
  | none =>
    rw [hn] at hclose
    rw [inside, hclose, Option.map_none, Option.getD_none, List.take_length, hrest]
    exact hpos k (by simp [hn])
  | some n =>
    rw [hn] at hclose
    rw [inside, hclose, Option.map_some, Option.getD_some, List.drop_take, Nat.add_sub_cancel_left,
      hrest, List.take_take]
    exact hpos _ fun n' hn' => by
      cases hn.symm.trans hn'
      exact Nat.min_le_right _ _

/-- The indices, inside a call, of the commas outside the parentheses that are opened there. -/
def commas (c : Call) (ts : List Token) : List Nat :=
  indicesWhere (fun front t => excess front = 0 && t.isPunct ',') (c.inside ts)

theorem segments_inside (h : c ∈ find ts) :
    segments parenDepth (·.isPunct ',') 0 (c.inside ts) = between (c.inside ts) (c.commas ts) := by
  have hcomma (t : Token) (ht : t.isPunct ',' = true) : parenDepth 0 t = 0 :=
    parenDepth_of_isPunct ht (by decide) 0
  rw [segments_eq_between hcomma, commas]
  refine congrArg _ (indicesWhere_congr fun i t _ => ?_)
  have hdepth := cast_foldl_parenDepth 0 ((c.inside ts).take i) fun k => by
    rw [List.take_take, Nat.cast_zero, Int.zero_add]
    exact excess_inside h _
  rw [Nat.cast_zero, Int.zero_add] at hdepth
  simp only [separates, ← hdepth, Nat.cast_eq_zero]

/-- **The arguments of a call** are what stands between these commas, without the trivia around it. A
call without commas and with nothing but trivia inside has none. -/
theorem args_eq (h : c ∈ find ts) : c.args ts =
    if c.commas ts = [] ∧ ∀ t ∈ c.inside ts, t.isTrivia = true then []
    else (between (c.inside ts) (c.commas ts)).map trim := by
  unfold args
  rw [segments_inside h]
  by_cases hnone : c.commas ts = [] ∧ ∀ t ∈ c.inside ts, t.isTrivia = true
  · rw [if_pos hnone, hnone.1, between_nil, List.map_singleton, trim_eq_nil_iff.mpr hnone.2]
  · rw [if_neg hnone]
    split
    · rename_i hone
      refine absurd ?_ hnone
      have hlength := congrArg List.length hone
      rw [List.length_map, length_between, List.length_singleton, Nat.add_eq_right] at hlength
      have hcommas := List.length_eq_zero_iff.mp hlength
      rw [hcommas, between_nil, List.map_singleton, List.singleton_inj] at hone
      exact ⟨hcommas, trim_eq_nil_iff.mp hone⟩
    · rfl

/-! ## The calls of a run -/

/-- In a run of tokens of a text nothing is between a name and the token behind it. -/
theorem isCallAt_iff_of_isInfix {source : Text} (h : ts <:+: Tokens.ofText source) :
    isCallAt ts i = true ↔ ∃ name paren, ts[i]? = some name ∧ ts[i + 1]? = some paren
      ∧ name.kind = .ident ∧ paren.isPunct '(' = true := by
  rw [isCallAt_iff]
  constructor
  · rintro ⟨name, paren, hname, hparen, hopens⟩
    obtain ⟨hkind, hpunct, -⟩ := opens_iff.mp hopens
    exact ⟨name, paren, hname, hparen, hkind, hpunct⟩
  · rintro ⟨name, paren, hname, hparen, hkind, hpunct⟩
    refine ⟨name, paren, hname, hparen, opens_iff.mpr ⟨hkind, hpunct, ?_⟩⟩
    obtain ⟨front, back, hsource⟩ := h
    obtain ⟨hi, rfl⟩ := List.getElem?_eq_some_iff.mp hname
    obtain ⟨hi', rfl⟩ := List.getElem?_eq_some_iff.mp hparen
    have hts : ts = ts.take i ++ ts[i] :: ts[i + 1] :: ts.drop (i + 2) := by
      rw [← List.drop_eq_getElem_cons hi', ← List.drop_eq_getElem_cons hi, List.take_append_drop]
    have hsplit : Tokens.ofText source =
        (front ++ ts.take i) ++ ts[i] :: ts[i + 1] :: (ts.drop (i + 2) ++ back) := by
      have happend := congrArg (fun run => front ++ run ++ back) hts
      rw [← hsource]
      refine happend.trans ?_
      simp only [List.append_assoc, List.cons_append]
    exact start_eq_stop hsplit

/-- Whether a call stands where the tokens of a run say. -/
structure IsLocated (ts : List Token) (c : Call) : Prop where
  name : ts[c.index]? = some c.name
  /-- It is closed at the first index at which the parentheses from its own on are balanced. -/
  closed : ∀ j, c.close = some j ↔
    IsLeast {k | c.opening ≤ k ∧ k < ts.length ∧ excess (slice ts c.opening (k + 1)) = 0} j
  unclosed : c.close = none ↔
    ∀ k, c.opening ≤ k → k < ts.length → excess (slice ts c.opening (k + 1)) ≠ 0
  /-- It contains the indices between its parentheses. -/
  contains : ∀ i, c.contains i = true ↔ c.opening < i ∧ ∀ j, c.close = some j → i < j
  inside : c.inside ts = slice ts (c.opening + 1) (c.close.getD ts.length)
  /-- Its arguments are what stands inside between the commas outside further parentheses. -/
  args : ¬ (c.commas ts = [] ∧ ∀ t ∈ c.inside ts, t.isTrivia = true) →
    c.args ts = (between (c.inside ts) (c.commas ts)).map trim
      ∧ (c.args ts).length = (c.commas ts).length + 1
  no_args : (c.commas ts = [] ∧ ∀ t ∈ c.inside ts, t.isTrivia = true) → c.args ts = []

theorem isLocated_of_mem_find (h : c ∈ find ts) : c.IsLocated ts where
  name := getElem?_index h
  closed _ := close_eq_some_iff h
  unclosed := close_eq_none_iff h
  contains _ := contains_iff
  inside := rfl
  args hsome := by
    rw [args_eq h, if_neg hsome, List.length_map, length_between]
    exact ⟨rfl, rfl⟩
  no_args hnone := by rw [args_eq h, if_pos hnone]

/-- **Calls are located exactly.** In any run of tokens there is one call, in order, for each
identifier with a parenthesis right behind it, which in a run of tokens of a text is each identifier
in front of a parenthesis. Each is closed where its parentheses are balanced first, contains what is
between them and has the arguments between its commas, and two of them lie inside each other or
apart. -/
theorem calls_located (ts : List Token) :
    (find ts).map index = (List.range ts.length).filter (isCallAt ts)
      ∧ (∀ c ∈ find ts, c.IsLocated ts)
      ∧ (∀ c ∈ find ts, ∀ d ∈ find ts,
          c.range ts ⊆ d.range ts ∨ d.range ts ⊆ c.range ts ∨ Disjoint (c.range ts) (d.range ts))
      ∧ ∀ source, ts <:+: Tokens.ofText source → ∀ i, isCallAt ts i = true ↔
          ∃ name paren, ts[i]? = some name ∧ ts[i + 1]? = some paren
            ∧ name.kind = .ident ∧ paren.isPunct '(' = true := by
  refine ⟨?_, fun c hc => isLocated_of_mem_find hc, fun c hc d hd => range_nested hc hd,
    fun source hts i => isCallAt_iff_of_isInfix hts⟩
  rw [find, map_index_findFrom]
  simp

/-- A call with another one in the first of its two arguments, and behind it an open one, in a run that
starts behind a blank. -/
theorem calls_located_nested :
    let source : Text := [' ', 'f', '(', 'g', '(', ',', ')', ',', 'b', ')', 'h', '(', 'f', ' ', '(']
    let ts := (Tokens.ofText source).tail
    let f : Call := ⟨0, ⟨.ident, ['f'], ⟨⟨1, 1, 2⟩, ⟨2, 1, 3⟩⟩⟩, some 8⟩
    let g : Call := ⟨2, ⟨.ident, ['g'], ⟨⟨3, 1, 4⟩, ⟨4, 1, 5⟩⟩⟩, some 5⟩
    let h : Call := ⟨9, ⟨.ident, ['h'], ⟨⟨10, 1, 11⟩, ⟨11, 1, 12⟩⟩⟩, none⟩
    find ts = [f, g, h] ∧ ts <:+: Tokens.ofText source
      ∧ [f, g, h].map index = (List.range ts.length).filter (isCallAt ts)
      ∧ IsLeast {k | f.opening ≤ k ∧ k < ts.length ∧ excess (slice ts f.opening (k + 1)) = 0} 8
      ∧ (∀ k, h.opening ≤ k → k < ts.length → excess (slice ts h.opening (k + 1)) ≠ 0)
      ∧ (f.args ts).length = 2
      ∧ (f.range ts ⊆ g.range ts ∨ g.range ts ⊆ f.range ts ∨ Disjoint (f.range ts) (g.range ts))
      ∧ ∃ name paren, ts[9]? = some name ∧ ts[10]? = some paren
          ∧ name.kind = .ident ∧ paren.isPunct '(' = true := by
  intro source ts f g h
  have hfind : find (Tokens.ofText source).tail = [f, g, h] := by cbv
  have hts : ts <:+: Tokens.ofText source := (List.tail_suffix _).isInfix
  obtain ⟨hindices, hlocated, hnested, hnames⟩ := calls_located ts
  have hf : f ∈ find ts := by simp [ts, hfind]
  have hg : g ∈ find ts := by simp [ts, hfind]
  have hh : h ∈ find ts := by simp [ts, hfind]
  have hcommas : f.commas (Tokens.ofText source).tail = [4] := by cbv
  have hname : isCallAt (Tokens.ofText source).tail 9 = true := by cbv
  refine ⟨hfind, hts, by rw [← hfind]; exact hindices, ((hlocated f hf).closed 8).mp rfl,
    (hlocated h hh).unclosed.mp rfl, ?_, hnested f hf g hg, (hnames source hts 9).mp hname⟩
  rw [((hlocated f hf).args (by simp [ts, hcommas])).2, hcommas]
  rfl

end Call

end SheetLint
