import SheetLint.Proofs.Edit.Tokens
import SheetLint.Proofs.Rule.Colors
import SheetLint.Proofs.Token.LetterCase
import SheetLint.Proofs.Token.Replacement
import SheetLint.Proofs.Tree.Closed
import SheetLint.Proofs.Tree.Defects

/-!
# What hex colors denote

A hex color of three digits denotes the one of six in which each of them is doubled. The form that the
rule asks for changes the letter case, and keeps one digit of each pair where both are the same, so it
denotes the color that it did. Channels written as integers become the digits of a literal for the same
three numbers. A literal in that form is not found again.

A hash in the place of a hash is read where it stands, as the text behind still does not go on with a
name. A call that is written anew starts as the old one did, with a character that starts a name, and
behind its literal stands a comma.

Results:
* `Color.ofHex?`: the color that a literal denotes.
* `ColorLiteral.canonical_spec`: the form that is asked for denotes the same color, and stays.
* `ColorLiteral.ofHex?_channels`: a literal for three channels.
* `ColorLiteral.isSettled_of_isCanonical`: nothing is found at a literal in that form.
* `ColorLiteral.legible_hex`, `ColorLiteral.legible_call`: how the new text is read.
* `ColorLiteral.color_kept`: each fix of the rule keeps the color.
-/

namespace SheetLint

open Scan

/-! ## Hexadecimal digits -/

/-- The hexadecimal digits, in order. -/
def hexDigits : Text :=
  ['0', '1', '2', '3', '4', '5', '6', '7', '8', '9', 'a', 'b', 'c', 'd', 'e', 'f']

/-- The value of a hexadecimal digit in either letter case. -/
def hexValue? (c : Char) : Option Nat := hexDigits.idxOf? c.toLower

/-- The hexadecimal digits in both letter cases. -/
def anyHexDigits : Text := hexDigits ++ ['A', 'B', 'C', 'D', 'E', 'F']

theorem mem_of_isHexDigit {c : Char} (hc : isHexDigit c = true) : c ∈ anyHexDigits := by
  have hbelow : ∀ n < 128, isHexDigit (Char.ofNat n) = true → Char.ofNat n ∈ anyHexDigits := by decide
  have hlt : c.toNat < 128 := by
    simp only [isHexDigit, Char.isDigit, Bool.or_eq_true, Bool.and_eq_true, decide_eq_true_eq,
      Char.le_def, UInt32.le_iff_toNat_le, ge_iff_le] at hc
    have hup : c.val.toNat = c.toNat := rfl
    rcases hc with (⟨-, h⟩ | ⟨-, h⟩) | ⟨-, h⟩
    · change c.val.toNat ≤ 57 at h
      omega
    · change c.val.toNat ≤ 102 at h
      omega
    · change c.val.toNat ≤ 70 at h
      omega
  have hc' := hbelow c.toNat hlt
  rw [Char.ofNat_toNat] at hc'
  exact hc' hc

/-- What holds of each hexadecimal digit. -/
theorem of_isHexDigit {p : Char → Prop} [DecidablePred p] (hall : anyHexDigits.all (p ·) = true)
    {c : Char} (hc : isHexDigit c = true) : p c :=
  of_decide_eq_true (List.all_eq_true.mp hall c (mem_of_isHexDigit hc))

theorem exists_hexValue? {c : Char} (hc : isHexDigit c = true) : ∃ v < 16, hexValue? c = some v := by
  have hmem : hexValue? c ∈ (List.range 16).map some := by
    refine of_isHexDigit (p := fun d => hexValue? d ∈ (List.range 16).map some) ?_ hc
    decide
  obtain ⟨v, hv, heq⟩ := List.mem_map.mp hmem
  exact ⟨v, List.mem_range.mp hv, heq.symm⟩

theorem isNameChar_of_isHexDigit {c : Char} (hc : isHexDigit c = true) :
    isNameChar c = true ∧ c ≠ '\\' := by
  refine of_isHexDigit (p := fun d => isNameChar d = true ∧ d ≠ '\\') ?_ hc
  decide

/-- A color by its channels. -/
structure Color where
  red : Nat
  green : Nat
  blue : Nat
deriving DecidableEq, Repr

namespace Color

/-- The number that two hexadecimal digits write. -/
def pair? (high low : Char) : Option Nat := do
  return 16 * (← hexValue? high) + (← hexValue? low)

/-- The color with these digits for its channels. -/
def ofPairs? (r r' g g' b b' : Char) : Option Color := do
  return ⟨← pair? r r', ← pair? g g', ← pair? b b'⟩

/-- The color that a literal denotes: six digits, or three of which each stands for two. -/
def ofHex? : Text → Option Color
  | ['#', r, g, b] => ofPairs? r r g g b b
  | ['#', r, r', g, g', b, b'] => ofPairs? r r' g g' b b'
  | _ => none

/-- Three or six digits denote a color. -/
theorem exists_ofHex? {digits : Text} (hdigits : ∀ c ∈ digits, isHexDigit c = true)
    (hlength : digits.length = 3 ∨ digits.length = 6) :
    ∃ color, ofHex? ('#' :: digits) = some color := by
  have hpair (d d' : Char) (hd : isHexDigit d = true) (hd' : isHexDigit d' = true) :
      ∃ v, pair? d d' = some v := by
    obtain ⟨v, -, hv⟩ := exists_hexValue? hd
    obtain ⟨v', -, hv'⟩ := exists_hexValue? hd'
    exact ⟨16 * v + v', by simp [pair?, hv, hv']⟩
  have hpairs (r r' g g' b b' : Char) (hall : ∀ c ∈ [r, r', g, g', b, b'], isHexDigit c = true) :
      ∃ color, ofPairs? r r' g g' b b' = some color := by
    simp only [List.forall_mem_cons] at hall
    obtain ⟨hr, hr', hg, hg', hb, hb', -⟩ := hall
    obtain ⟨red, hred⟩ := hpair r r' hr hr'
    obtain ⟨green, hgreen⟩ := hpair g g' hg hg'
    obtain ⟨blue, hblue⟩ := hpair b b' hb hb'
    exact ⟨⟨red, green, blue⟩, by simp [ofPairs?, hred, hgreen, hblue]⟩
  match digits with
  | [r, g, b] => exact hpairs r r g g b b (by simpa using hdigits)
  | [r, r', g, g', b, b'] => exact hpairs r r' g g' b b' hdigits

end Color

example : Color.ofHex? "#fA0".toList = some ⟨255, 170, 0⟩ := by decide

namespace ColorLiteral

/-! ## The form of a hex color -/

variable {o : Options} {digits : Text} {c : Char}

/-- A character in a letter case. -/
def HexCase.write : HexCase → Char → Char
  | .lower => Char.toLower
  | .upper => Char.toUpper

theorem HexCase.isHexDigit_write (k : HexCase) (hc : isHexDigit c = true) :
    isHexDigit (k.write c) = true := by
  refine of_isHexDigit (p := fun d => isHexDigit (k.write d) = true) ?_ hc
  cases k <;> decide

theorem HexCase.hexValue?_write (k : HexCase) (hc : isHexDigit c = true) :
    hexValue? (k.write c) = hexValue? c := by
  refine of_isHexDigit (p := fun d => hexValue? (k.write d) = hexValue? d) ?_ hc
  cases k <;> decide

theorem HexCase.write_write (k : HexCase) (hc : isHexDigit c = true) :
    k.write (k.write c) = k.write c := by
  refine of_isHexDigit (p := fun d => k.write (k.write d) = k.write d) ?_ hc
  cases k <;> decide

theorem canonical_three (o : Options) (r g b : Char) :
    canonical o [r, g, b] = ['#', o.case.write r, o.case.write g, o.case.write b] := by
  unfold canonical
  cases o.case <;> rfl

theorem canonical_six (o : Options) (r r' g g' b b' : Char) :
    let k := o.case
    canonical o [r, r', g, g', b, b'] =
      if o.shorthand = true ∧ k.write r = k.write r' ∧ k.write g = k.write g'
          ∧ k.write b = k.write b' then
        ['#', k.write r, k.write g, k.write b]
      else ['#', k.write r, k.write r', k.write g, k.write g', k.write b, k.write b'] := by
  unfold canonical
  cases o.case <;> simp only [HexCase.write, List.map_cons, List.map_nil, Bool.and_eq_true,
    decide_eq_true_eq, and_assoc] <;> congr

/-- A hex color in the form that the options ask for: in their letter case, of three or six digits, and
left as it is. -/
structure IsCanonical (o : Options) (hex : Text) : Prop where
  mark : hex.head? = some '#'
  digits : ∀ c ∈ hex.drop 1, isHexDigit c = true ∧ o.case.write c = c
  length : hex.length = 4 ∨ hex.length = 7
  stays : canonical o (hex.drop 1) = hex

theorem isCanonical_of_write (digits : Text) (hdigits : ∀ c ∈ digits, isHexDigit c = true)
    (hlength : digits.length = 3 ∨ digits.length = 6)
    (hstays : canonical o (digits.map o.case.write) = '#' :: digits.map o.case.write) :
    IsCanonical o ('#' :: digits.map o.case.write) where
  mark := rfl
  digits c hc := by
    obtain ⟨d, hd, rfl⟩ := List.mem_map.mp hc
    exact ⟨o.case.isHexDigit_write (hdigits d hd), o.case.write_write (hdigits d hd)⟩
  length := by simpa using hlength
  stays := hstays

/-- Three digits are left as they are, apart from their case. -/
theorem isCanonical_three {r g b : Char} (hdigits : ∀ c ∈ [r, g, b], isHexDigit c = true) :
    IsCanonical o ['#', o.case.write r, o.case.write g, o.case.write b] := by
  refine isCanonical_of_write [r, g, b] hdigits (.inl rfl) ?_
  simp only [List.forall_mem_cons] at hdigits
  obtain ⟨hr, hg, hb, -⟩ := hdigits
  simp only [List.map_cons, List.map_nil, canonical_three, o.case.write_write hr,
    o.case.write_write hg, o.case.write_write hb]

theorem isHexDigit_hexDigit (n : Nat) : isHexDigit (hexDigit n) = true := by
  have hall : ∀ m < 16, isHexDigit (Nat.digitChar m) = true := by decide
  exact hall _ (Nat.mod_lt n (by decide))

theorem hexValue?_hexDigit (n : Nat) : hexValue? (hexDigit n) = some (n % 16) := by
  have hall : ∀ m < 16, hexValue? (Nat.digitChar m) = some m := by decide
  exact hall _ (Nat.mod_lt n (by decide))

/-- The two digits of a channel write it. -/
theorem pair?_hexDigit {n : Nat} (hn : n < 256) :
    Color.pair? (hexDigit (n / 16)) (hexDigit n) = some n := by
  have hsum : 16 * (n / 16 % 16) + n % 16 = n := by omega
  simp [Color.pair?, hexValue?_hexDigit, hsum]

/-- **The form that is asked for denotes the same color** and is left as it is. -/
theorem canonical_spec (o : Options) (hdigits : ∀ c ∈ digits, isHexDigit c = true)
    (hlength : digits.length = 3 ∨ digits.length = 6) :
    IsCanonical o (canonical o digits)
      ∧ Color.ofHex? (canonical o digits) = Color.ofHex? ('#' :: digits) := by
  match digits with
  | [r, g, b] =>
    rw [canonical_three]
    refine ⟨isCanonical_three hdigits, ?_⟩
    simp only [List.forall_mem_cons] at hdigits
    obtain ⟨hr, hg, hb, -⟩ := hdigits
    simp only [Color.ofHex?, Color.ofPairs?, Color.pair?, o.case.hexValue?_write hr,
      o.case.hexValue?_write hg, o.case.hexValue?_write hb]
  | [r, r', g, g', b, b'] =>
    have hall := hdigits
    simp only [List.forall_mem_cons] at hall
    obtain ⟨hr, hr', hg, hg', hb, hb', -⟩ := hall
    have hvalues (d d' : Char) (hd : isHexDigit d = true) (hd' : isHexDigit d' = true) :
        Color.pair? (o.case.write d) (o.case.write d') = Color.pair? d d' := by
      rw [Color.pair?, o.case.hexValue?_write hd, o.case.hexValue?_write hd', Color.pair?]
    rw [canonical_six]
    split
    · -- both digits of each pair are the one that is kept
      rename_i hpairs
      obtain ⟨-, hsr, hsg, hsb⟩ := hpairs
      refine ⟨isCanonical_three (by simp [hr, hg, hb]), ?_⟩
      have hpair (d d' : Char) (hd : isHexDigit d = true) (hd' : isHexDigit d' = true)
          (hsame : o.case.write d = o.case.write d') :
          Color.pair? (o.case.write d) (o.case.write d) = Color.pair? d d' := by
        rw [← hvalues d d' hd hd', ← hsame]
      simp only [Color.ofHex?, Color.ofPairs?, hpair _ _ hr hr' hsr, hpair _ _ hg hg' hsg,
        hpair _ _ hb hb' hsb]
    · rename_i hapart
      refine ⟨isCanonical_of_write [r, r', g, g', b, b'] hdigits (.inr rfl) ?_, ?_⟩
      · simp only [List.map_cons, List.map_nil]
        rw [canonical_six]
        simp only [o.case.write_write hr, o.case.write_write hr', o.case.write_write hg,
          o.case.write_write hg', o.case.write_write hb, o.case.write_write hb', if_neg hapart]
      · simp only [Color.ofHex?, Color.ofPairs?, hvalues _ _ hr hr', hvalues _ _ hg hg',
          hvalues _ _ hb hb']

/-- A literal for three channels. -/
theorem ofHex?_channels (o : Options) {r g b : Nat} (hr : r < 256) (hg : g < 256) (hb : b < 256) :
    IsCanonical o (canonical o ([r, g, b].flatMap hexPair))
      ∧ Color.ofHex? (canonical o ([r, g, b].flatMap hexPair)) = some ⟨r, g, b⟩ := by
  have hall : ∀ c ∈ [r, g, b].flatMap hexPair, isHexDigit c = true := by
    intro c hc
    obtain ⟨n, -, hc⟩ := List.mem_flatMap.mp hc
    simp only [hexPair, List.mem_cons, List.not_mem_nil, or_false] at hc
    rcases hc with rfl | rfl <;> exact isHexDigit_hexDigit _
  obtain ⟨hcanonical, hcolor⟩ := canonical_spec o hall (.inr rfl)
  refine ⟨hcanonical, hcolor.trans ?_⟩
  simp [hexPair, Color.ofHex?, Color.ofPairs?, pair?_hexDigit, hr, hg, hb]

end ColorLiteral

/-! ## Hash tokens -/

variable {source s w : Text} {t k : Token}

/-- Name characters in front of a text. -/
theorem Scan.nameLength_append (hw : ∀ c ∈ w, isNameChar c = true ∧ c ≠ '\\') (s : Text) :
    nameLength (w ++ s) = w.length + nameLength s := by
  induction w with
  | nil => simp
  | cons c w ih =>
    rw [List.forall_mem_cons] at hw
    rw [List.cons_append, nameLength_cons hw.1.2, if_pos hw.1.1, ih hw.2, List.length_cons]
    omega

/-- What a hash is made of. -/
theorem Scan.kindAndLength_eq_hash {c : Char} (h : (kindAndLength c s).1 = .hash) :
    c = '#' ∧ startsWith isNameChar s = true := by
  obtain ⟨n, -, hscanned⟩ := exists_scanned h
  cases hscanned with
  | hash hc hname => exact ⟨hc, hname⟩

/-- A hash goes up to the end of a name. -/
theorem Token.ReadsBefore.exists_name (h : t.ReadsBefore s) (hkind : t.kind = .hash) :
    ∃ w, t.text = '#' :: w ∧ nameLength (w ++ s) = w.length := by
  obtain ⟨c, w, htext, hscan⟩ := h
  rw [hkind] at hscan
  obtain ⟨rfl, hchar⟩ := kindAndLength_eq_hash (congrArg Prod.fst hscan)
  rw [kindAndLength_hash hchar, Prod.mk.injEq] at hscan
  exact ⟨w, htext, Nat.succ_inj.mp hscan.2⟩

/-- Hexadecimal digits where no name goes on. -/
theorem Token.readsBefore_hash (hw : ∀ c ∈ w, isHexDigit c = true) (hne : w ≠ [])
    (hs : nameLength s = 0) (span : Span) : (⟨.hash, '#' :: w, span⟩ : Token).ReadsBefore s := by
  refine ⟨'#', w, rfl, ?_⟩
  have hchar : startsWith isNameChar (w ++ s) = true := by
    obtain ⟨c, u, rfl⟩ := List.exists_cons_of_ne_nil hne
    exact (isNameChar_of_isHexDigit (hw c List.mem_cons_self)).1
  rw [kindAndLength_hash hchar, nameLength_append fun c hc => isNameChar_of_isHexDigit (hw c hc), hs]

/-- A token of a text, by what its tokens are apart from their places. -/
theorem Tokens.exists_of_map_bare {before after : List Token}
    (h : (ofText source).map Token.bare = (before ++ t :: after).map Token.bare) :
    ∃ k ∈ ofText source, k.kind = t.kind ∧ k.text = t.text ∧ k.start = (text before).size := by
  rw [List.map_append, List.map_cons] at h
  obtain ⟨front, rest, hcut, hfront, hrest⟩ := List.map_eq_append_iff.mp h
  obtain ⟨k, back, rfl, hk, -⟩ := List.map_eq_cons_iff.mp hrest
  obtain ⟨hkind, htext, -⟩ := Token.mk.inj hk
  refine ⟨k, by simp [hcut], hkind, htext, ?_⟩
  rw [start_of_ofText hcut, ← text_map_bare, hfront, text_map_bare]

namespace ColorLiteral

variable {o : Options} {f : Finding} {fix : Fix} {tokens arg : List Token} {call : Call}

/-! ## What is found -/

/-- A hex color in the form that is asked for is not reported. -/
theorem hexFinding_eq_nil (h : IsCanonical o t.text) : hexFinding o t = [] := by
  have hlength : (t.text.drop 1).length = 3 ∨ (t.text.drop 1).length = 6 := by
    rcases h.length with h | h <;> simp [h]
  unfold hexFinding
  simp only
  split
  · rw [if_pos (by simpa using hlength), if_pos h.stays]
  · rfl

theorem exists_channels {args : List (List Token)} {channels : List Nat} {alpha : Text}
    (h : channels? args = some (channels, alpha)) :
    ∃ (r g b last : List Token) (color : Color),
      args = [r, g, b, last] ∧ last ≠ [] ∧ alpha = Tokens.text last
      ∧ channels = [color.red, color.green, color.blue]
      ∧ IsChannel r color.red ∧ IsChannel g color.green ∧ IsChannel b color.blue := by
  unfold channels? at h
  split at h
  · rename_i r g b last
    obtain ⟨ks, hks, hlast⟩ := Option.bind_eq_some_iff.mp h
    simp only [List.mapM_cons, List.mapM_nil, Option.bind_eq_bind, Option.bind_eq_some_iff,
      Option.pure_def, Option.some.injEq] at hks
    obtain ⟨kr, hr, more, ⟨kg, hg, more', ⟨kb, hb, more'', rfl, rfl⟩, rfl⟩, rfl⟩ := hks
    split at hlast
    · cases hlast
    · rename_i hne
      cases hlast
      exact ⟨r, g, b, last, ⟨kr, kg, kb⟩, rfl, hne, rfl, rfl, isChannel_of_channel? hr,
        isChannel_of_channel? hg, isChannel_of_channel? hb⟩
  · cases h

theorem exists_call (hf : f ∈ callFinding o tokens call) (hfix : f.fix = some fix) :
    call.lowerName = "rgba".toList ∧ ∃ close, call.close.bind (tokens[·]?) = some close
      ∧ f.span = ⟨call.name.span.start, close.span.stop⟩
      ∧ ∃ (r g b last : List Token) (color : Color), call.args tokens = [r, g, b, last] ∧ last ≠ []
        ∧ IsChannel r color.red ∧ IsChannel g color.green ∧ IsChannel b color.blue
        ∧ fix.edits = [⟨f.span.start.offset, f.span.stop.offset, "rgba(".toList
          ++ canonical o ([color.red, color.green, color.blue].flatMap hexPair) ++ ", ".toList
          ++ Tokens.text last ++ [')']⟩] := by
  obtain ⟨hname, close, channels, alpha, hclose, hchannels, hspan, message, hfound⟩ :=
    of_mem_callFinding hf
  obtain ⟨r, g, b, last, color, hargs, hne, rfl, rfl, hr, hg, hb⟩ := exists_channels hchannels
  obtain rfl : _ = fix := Option.some.inj (hfound.symm.trans hfix)
  exact ⟨hname, close, hclose, hspan, r, g, b, last, color, hargs, hne, hr, hg, hb, rfl⟩

/-! ## What the fixes do -/

/-- Whether a token of a text is a hex color in the letter case of the options, no longer than one of
six digits, and the rule finds nothing at it. -/
structure IsSettled (o : Options) (out : Text) (literal : Token) : Prop where
  mem : literal ∈ Tokens.ofText out
  kind : literal.kind = .hash
  case : ∀ c ∈ literal.text.drop 1, isHexDigit c = true ∧ o.case.write c = c
  length : literal.text.length ≤ 7
  quiet : ∀ f ∈ check o out (Parse.ofText out).sheet, f.span ≠ literal.span

/-- **A hex color in the form that is asked for stays.** -/
theorem isSettled_of_isCanonical {out : Text} {literal : Token} (hmem : literal ∈ Tokens.ofText out)
    (hkind : literal.kind = .hash) (h : IsCanonical o literal.text) : IsSettled o out literal where
  mem := hmem
  kind := hkind
  case := h.digits
  length := by rcases h.length with h | h <;> omega
  quiet f hf hspan := by
    obtain ⟨n, hn, hf⟩ := List.mem_flatMap.mp hf
    have hstands : colorTokens n ⊆ Tokens.ofText out :=
      ((colorTokens_isInfix n).trans (Parse.tokens_isInfix hn)).subset
    rcases List.mem_append.mp hf with hhex | hcall
    · -- a finding for a token has its span, and that of the color finds nothing
      obtain ⟨k, hk, hf⟩ := List.mem_flatMap.mp hhex
      obtain rfl : k = literal :=
        Tokens.eq_of_span_eq (hstands hk) hmem ((of_mem_hexFinding hf).1.symm.trans hspan)
      rw [hexFinding_eq_nil h] at hf
      cases hf
    · -- a finding for a call starts at its name
      obtain ⟨call, hcall, hf⟩ := List.mem_flatMap.mp hcall
      obtain ⟨before, paren, rest, hsplit, -⟩ := Call.exists_of_mem_findFrom hcall
      have hname : call.name ∈ Tokens.ofText out := hstands (by rw [hsplit]; simp)
      obtain ⟨-, close, -, -, -, -, hcallSpan, -⟩ := of_mem_callFinding hf
      have hstart : call.name.start = literal.start :=
        congrArg (·.start.offset) (hcallSpan.symm.trans hspan)
      have hident := Call.kind_name hcall
      rw [Tokens.eq_of_start_eq hname hmem hstart, hkind] at hident
      cases hident

/-- A hex color. -/
def hexToken (hex : Text) : Token := ⟨.hash, hex, default⟩

/-- A hex color is read as a hash where no name goes on. -/
theorem IsCanonical.readsBefore {hex : Text} (h : IsCanonical o hex) (hs : nameLength s = 0) :
    (hexToken hex).ReadsBefore s := by
  obtain ⟨digits, rfl⟩ := List.head?_eq_some_iff.mp h.mark
  have hne : digits ≠ [] := by
    rintro rfl
    rcases h.length with h | h <;> cases h
  exact Token.readsBefore_hash (fun c hc => (h.digits c hc).1) hne hs default

/-- **A hex color in the place of a hash.** -/
theorem legible_hex {front back : List Token} {hex : Text} (h : Tokens.Legible (front ++ t :: back))
    (herror : ∀ u ∈ front, u.kind ≠ .error) (hkind : t.kind = .hash) (hcanonical : IsCanonical o hex) :
    Tokens.Legible (front ++ hexToken hex :: back) := by
  obtain ⟨w, htext, hend⟩ := h.readsBefore.exists_name hkind
  obtain ⟨digits, hdigits⟩ := List.head?_eq_some_iff.mp hcanonical.mark
  have hs : nameLength (Tokens.text back) = 0 := by
    have := nameLength_append_of_eq hend (Tokens.text back)
    omega
  refine h.replaced herror ⟨hcanonical.readsBefore hs, h.of_append.2⟩ ?_
  rw [Tokens.text_cons, Tokens.text_cons, htext, hexToken, hdigits]
  exact .of_cons (c := '#') rfl (by decide) _ _

/-- The name of the function, as it is written anew. -/
def nameToken : Token := ⟨.ident, ['r', 'g', 'b', 'a'], default⟩

/-- The parenthesis behind it. -/
def parenToken : Token := ⟨.punct, ['('], default⟩

theorem readsBefore_nameToken (s : Text) : nameToken.ReadsBefore ('(' :: s) := by
  refine ⟨'r', ['g', 'b', 'a'], rfl, ?_⟩
  have hend : nameLength (['r', 'g', 'b', 'a'] ++ '(' :: s) = ['r', 'g', 'b', 'a'].length := by
    have hchars : ∀ c ∈ ['r', 'g', 'b', 'a'], isNameChar c = true ∧ c ≠ '\\' := by
      simp [isNameChar, isNameStart]
    rw [nameLength_append hchars, nameLength_paren, Nat.add_zero]
  have hident : nameOrUrl (['r', 'g', 'b', 'a'] ++ '(' :: s) = (.ident, 4) := by
    refine (nameOrUrl_eq_ident_iff hend).mpr fun inside _ hurl => ?_
    exact absurd hurl (by decide)
  rw [kindAndLength_of_startsName (by simp [startsName, isNameStart])]
  exact hident

/-- **A call with a hex color in the place of one without.** -/
theorem legible_call {front rest : List Token} {name : Token} {hex : Text}
    (h : Tokens.Legible (front ++ name :: rest)) (herror : ∀ u ∈ front, u.kind ≠ .error)
    (hname : name.text.lower = "rgba".toList) (hcanonical : IsCanonical o hex) (more : Text) :
    Tokens.Legible
      (front ++ nameToken :: parenToken :: hexToken hex :: Tokens.ofTextAt .start (',' :: more)) := by
  have hhex : (hexToken hex).ReadsBefore (Tokens.text (Tokens.ofTextAt .start (',' :: more))) := by
    refine hcanonical.readsBefore ?_
    rw [Tokens.text_ofTextAt, nameLength_cons (by decide)]
    rfl
  obtain ⟨c, w, hc⟩ := List.exists_cons_of_ne_nil h.readsBefore.ne_nil
  have hstart : isNameStart c = true := by
    rw [hc] at hname
    rw [← isNameStart_toLower, (List.cons.inj hname).1]
    rfl
  refine h.replaced herror ⟨readsBefore_nameToken _, Token.readsBefore_mark (by decide) _ _, hhex,
    Tokens.legible_of_ofTextAt rfl⟩ ?_
  rw [Tokens.text_cons, Tokens.text_cons, hc]
  exact .of_isNameStart hstart (d := 'r') rfl _ _

/-- A text that is read as some tokens, one of them a hex color in the form that is asked for. -/
theorem exists_settled {out hex : Text} {before after : List Token}
    (h : (Tokens.ofText out).map Token.bare = (before ++ hexToken hex :: after).map Token.bare)
    (hcanonical : IsCanonical o hex) : ∃ literal, IsSettled o out literal ∧ literal.text = hex
      ∧ literal.bare = hexToken hex ∧ literal.start = (Tokens.text before).size := by
  obtain ⟨literal, hmem, hkind, htext, hstart⟩ := Tokens.exists_of_map_bare h
  refine ⟨literal, isSettled_of_isCanonical hmem hkind ?_, htext, ?_, hstart⟩
  · rw [htext]
    exact hcanonical
  · rw [Token.bare, hkind, htext, hexToken]

/-- Whether a text is the old one with a hex color in the place of a hash, the one that a finding is at.
Both denote the same color, and all other tokens are as they were. -/
def ReplacesHash (source out : Text) (f : Finding) (literal : Token) (color : Color) : Prop :=
  ∃ front hash back, Tokens.ofText source = front ++ hash :: back ∧ hash.span = f.span
    ∧ hash.kind = .hash ∧ Color.ofHex? hash.text = some color ∧ literal.start = hash.start
    ∧ (Tokens.ofText out).map Token.bare = (front ++ literal :: back).map Token.bare

/-- Whether a text is the old one with another text in the place of a call of `rgba` with four
arguments, the one that a finding is at. The first three of them are the channels of a color, which a
hex color denotes in the new text, and the last one stands there as it was written. -/
def ReplacesCall (source out : Text) (f : Finding) (literal : Token) (color : Color) : Prop :=
  ∃ n ∈ (Parse.ofText source).sheet.nodes, ∃ call ∈ Call.find (colorTokens n),
    ∃ front paren close back r g b alpha,
      Tokens.ofText source =
          front ++ (call.name :: paren :: (call.inside (colorTokens n) ++ [close])) ++ back
        ∧ f.span = ⟨call.name.span.start, close.span.stop⟩ ∧ call.lowerName = "rgba".toList
        ∧ call.args (colorTokens n) = [r, g, b, alpha] ∧ alpha ≠ []
        ∧ IsChannel r color.red ∧ IsChannel g color.green ∧ IsChannel b color.blue
        ∧ literal.start = call.name.start + 5
        ∧ out = Tokens.text front ++ ("rgba(".toList ++ literal.text ++ ", ".toList
          ++ Tokens.text alpha ++ [')']) ++ Tokens.text back

theorem hash_replaced (hok : (Parse.ofText source).isOk = true) (hmem : t ∈ Tokens.ofText source)
    (hf : f ∈ hexFinding o t) (hfix : f.fix = some fix) :
    ∃ out literal color, Edit.applyAll? source fix.edits = some out ∧ IsSettled o out literal
      ∧ Color.ofHex? literal.text = some color ∧ ReplacesHash source out f literal color := by
  obtain ⟨hspan, hfound⟩ := of_mem_hexFinding hf
  obtain ⟨hkind, hdigits, hlength, -, message, rfl⟩ := hfound fix hfix
  obtain ⟨front, back, hsource⟩ := List.append_of_mem hmem
  have hread : Tokens.Legible (front ++ t :: back) :=
    Tokens.legible_of_ofTextAt (hsource : Tokens.ofTextAt .start source = _)
  obtain ⟨w, htext, -⟩ := hread.readsBefore.exists_name hkind
  rw [htext, List.drop_succ_cons, List.drop_zero] at hdigits hlength ⊢
  obtain ⟨hcanonical, hsame⟩ := canonical_spec o hdigits hlength
  obtain ⟨color, hcolor⟩ := Color.exists_ofHex? hdigits hlength
  have hbare := (Tokens.legible_iff .start).mp
    (legible_hex hread (Parse.kind_ne_error_of_append hok hsource) hkind hcanonical)
  rw [Tokens.text_append, Tokens.text_cons, ← List.append_assoc] at hbare
  obtain ⟨literal, hsettled, hnew, hliteral, hstart⟩ := exists_settled hbare hcanonical
  refine ⟨_, literal, color, Edit.applyAll?_token hsource _, hsettled,
    by rw [hnew, hsame, hcolor], front, t, back, hsource, hspan.symm, hkind, by rw [htext, hcolor],
    hstart.trans (Tokens.start_of_ofText hsource).symm, ?_⟩
  rw [List.map_append, List.map_cons, hliteral]
  exact hbare.trans (by rw [List.map_append, List.map_cons]; rfl)

theorem call_replaced (hok : (Parse.ofText source).isOk = true) {n : Node}
    (hn : n ∈ (Parse.ofText source).sheet.nodes) (hcall : call ∈ Call.find (colorTokens n))
    (hf : f ∈ callFinding o (colorTokens n) call) (hfix : f.fix = some fix) :
    ∃ out literal color, Edit.applyAll? source fix.edits = some out ∧ IsSettled o out literal
      ∧ Color.ofHex? literal.text = some color ∧ ReplacesCall source out f literal color := by
  obtain ⟨hname, close, hclose, hspan, r, g, b, alpha, color, hargs, hne, hr, hg, hb, hedits⟩ :=
    exists_call hf hfix
  obtain ⟨before, paren, after, -, hsplit⟩ := Call.exists_of_closed hcall hclose
  obtain ⟨front, back, hsource⟩ := List.IsInfix.trans ⟨before, after, hsplit.symm⟩
    ((colorTokens_isInfix n).trans (Parse.tokens_isInfix hn))
  obtain ⟨hcanonical, hcolor⟩ := ofHex?_channels o hr.lt hg.lt hb.lt
  generalize canonical o ([color.red, color.green, color.blue].flatMap hexPair) = hex at *
  have hfront : Tokens.ofText source = front ++ call.name
      :: (paren :: (call.inside (colorTokens n) ++ [close]) ++ back) := by
    rw [← hsource]
    simp
  have hread : Tokens.Legible (Tokens.ofText source) :=
    Tokens.legible_of_ofTextAt (rfl : Tokens.ofTextAt .start source = _)
  rw [hfront] at hread
  have hbare := (Tokens.legible_iff .start).mp
    (legible_call hread (Parse.kind_ne_error_of_append hok hfront) hname hcanonical
      (' ' :: (Tokens.text alpha ++ ')' :: Tokens.text back)))
  rw [List.append_cons, List.append_cons] at hbare
  have hout : Tokens.text (front ++ [nameToken] ++ [parenToken] ++ hexToken hex
        :: Tokens.ofTextAt .start (',' :: ' ' :: (Tokens.text alpha ++ ')' :: Tokens.text back))) =
      Tokens.text front ++ ("rgba(".toList ++ hex ++ ", ".toList ++ Tokens.text alpha ++ [')'])
        ++ Tokens.text back := by
    simp [hexToken, nameToken, parenToken, Tokens.text_ofTextAt]
  rw [hout] at hbare
  obtain ⟨literal, hsettled, hnew, -, hstart⟩ := exists_settled hbare hcanonical
  have hplace : literal.start = call.name.start + 5 := by
    rw [hstart, Tokens.start_of_ofText hfront]
    simp [nameToken, parenToken, Text.size_append]
    rfl
  refine ⟨_, literal, color, ?_, hsettled, by rw [hnew, hcolor], n, hn, call, hcall, front, paren, close,
    back, r, g, b, alpha, hsource.symm, hspan, hname, hargs, hne, hr, hg, hb, hplace, by rw [hnew]⟩
  rw [hedits, hspan]
  exact Edit.applyAll?_run hsource.symm (Tokens.span?_cons_append_singleton _ (paren :: _) _) _

/-- **Each fix of the rule keeps the color.** A hash, or a call of `rgba` with integer channels, gives
way to a literal for the same red, green and blue, in the letter case of the options and in no more than
six digits, at which the rule finds nothing. -/
theorem color_kept (source : Text) (hok : (Parse.ofText source).isOk = true) (o : Options)
    {f : Finding} (hf : f ∈ check o source (Parse.ofText source).sheet) {fix : Fix}
    (hfix : f.fix = some fix) :
    ∃ out literal color, Edit.applyAll? source fix.edits = some out ∧ IsSettled o out literal
      ∧ Color.ofHex? literal.text = some color
      ∧ (ReplacesHash source out f literal color ∨ ReplacesCall source out f literal color) := by
  obtain ⟨n, hn, hf⟩ := List.mem_flatMap.mp hf
  rcases List.mem_append.mp hf with hhex | hcalls
  · obtain ⟨hash, hmem, hf⟩ := List.mem_flatMap.mp hhex
    have hstands := ((colorTokens_isInfix n).trans (Parse.tokens_isInfix hn)).subset hmem
    obtain ⟨out, literal, color, happly, hsettled, hcolor, hplace⟩ := hash_replaced hok hstands hf hfix
    exact ⟨out, literal, color, happly, hsettled, hcolor, .inl hplace⟩
  · obtain ⟨call, hcall, hf⟩ := List.mem_flatMap.mp hcalls
    obtain ⟨out, literal, color, happly, hsettled, hcolor, hplace⟩ := call_replaced hok hn hcall hf hfix
    exact ⟨out, literal, color, happly, hsettled, hcolor, .inr hplace⟩

namespace Doubled

/-- A variable whose color has both digits of each channel alike. -/
def doubled : Text := "$a:#FFAA00".toList

/-- The variable and its colon. -/
def front : List Token :=
  [⟨.variable, "$a".toList, ⟨⟨0, 1, 1⟩, ⟨2, 1, 3⟩⟩⟩, ⟨.punct, [':'], ⟨⟨2, 1, 3⟩, ⟨3, 1, 4⟩⟩⟩]

/-- The color. -/
def hash : Token := ⟨.hash, "#FFAA00".toList, ⟨⟨3, 1, 4⟩, ⟨10, 1, 11⟩⟩⟩

theorem ofText_doubled : Tokens.ofText doubled = front ++ hash :: [] := by cbv

theorem isOk_doubled : (Parse.ofText doubled).isOk = true := by cbv

theorem colorTokens_doubled : (Parse.ofText doubled).sheet.nodes.map colorTokens = [[hash]] := by cbv

/-- The color with one digit of each pair. -/
def short : Token := ⟨.hash, "#fa0".toList, ⟨⟨3, 1, 4⟩, ⟨7, 1, 8⟩⟩⟩

theorem ofText_shortened : Tokens.ofText "$a:#fa0".toList = front ++ short :: [] := by cbv

theorem hexFinding_hash : ∃ f ∈ hexFinding {} hash, ∃ fix, f.fix = some fix
    ∧ fix.edits = [⟨hash.start, hash.stop, "#fa0".toList⟩] :=
  ⟨_, List.mem_singleton.mpr rfl, _, rfl, rfl⟩

theorem eq_short {literal : Token} (hmem : literal ∈ Tokens.ofText "$a:#fa0".toList)
    (hkind : literal.kind = .hash) : literal = short := by
  rw [ofText_shortened, List.mem_append, List.mem_singleton] at hmem
  rcases hmem with hfront | h
  · have hnone : ∀ t ∈ front, t.kind ≠ .hash := by decide
    exact absurd hkind (hnone literal hfront)
  · exact h

end Doubled

/-- **One digit of each pair is kept.** -/
theorem doubled_digits_kept :
    let source := Doubled.doubled
    ∃ f ∈ check {} source (Parse.ofText source).sheet, ∃ fix,
      (Parse.ofText source).isOk = true ∧ f.fix = some fix
        ∧ Edit.applyAll? source fix.edits = some "$a:#fa0".toList
        ∧ IsSettled {} "$a:#fa0".toList Doubled.short
        ∧ Color.ofHex? Doubled.short.text = some ⟨255, 170, 0⟩ := by
  intro source
  obtain ⟨n, hn, htokens⟩ :
      ∃ n ∈ (Parse.ofText source).sheet.nodes, colorTokens n = [Doubled.hash] := by
    have hmem := List.mem_singleton_self [Doubled.hash]
    rw [← Doubled.colorTokens_doubled] at hmem
    exact List.mem_map.mp hmem
  obtain ⟨f, hfound, fix, hfix, hedits⟩ := Doubled.hexFinding_hash
  have hf : f ∈ check {} source (Parse.ofText source).sheet := by
    refine List.mem_flatMap.mpr ⟨n, hn, List.mem_append_left _ ?_⟩
    rw [htokens]
    exact List.mem_flatMap.mpr ⟨_, List.mem_singleton_self _, hfound⟩
  have happly : Edit.applyAll? source fix.edits = some "$a:#fa0".toList := by
    rw [hedits]
    exact Edit.applyAll?_token Doubled.ofText_doubled _
  obtain ⟨out, literal, color, hout, hsettled, -⟩ := color_kept source Doubled.isOk_doubled {} hf hfix
  obtain rfl : out = _ := Option.some.inj (hout.symm.trans happly)
  obtain rfl := Doubled.eq_short hsettled.mem hsettled.kind
  exact ⟨f, hf, fix, Doubled.isOk_doubled, hfix, happly, hsettled, by decide⟩

end ColorLiteral

end SheetLint
