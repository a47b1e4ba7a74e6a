import SheetLint.Proofs.Token.LineBreaks
import SheetLint.Proofs.Tree.Relabeling

/-!
# Stylesheets and line endings

A text whose line feeds all get a carriage return in front of them is read as before if no line feed
is escaped: its tokens are of the same kinds, have the same texts but for the returns, and nothing
more is wrong. A line feed that is escaped is always read in another way.

Results:
* `Parse.ofText_withReturns_iff`: line endings do not count exactly where no line feed is escaped.
* `Parse.escaped_lineFeed_breaks_string`: a string that goes on behind an escaped line feed is not
  closed where a carriage return is escaped.
-/

namespace SheetLint

open Text Tokens

namespace Scan

/-- Punctuation is a character by itself, and no space. -/
theorem kindAndLength_punct {c : Char} {rest : Text} (h : (kindAndLength c rest).1 = .punct) :
    isSpace c = false ∧ (kindAndLength c rest).2 = 1 := by
  obtain ⟨n, hscan, hscanned⟩ := exists_scanned h
  rw [hscan]
  cases hscanned with
  | punct hspace => exact ⟨hspace, rfl⟩

end Scan

namespace Parse

variable {t : Text}

theorem lineFeed_notMem_punct {k : Token} (hk : k ∈ Tokens.ofText t) (hkind : k.kind = .punct) :
    '\n' ∉ k.text := by
  obtain ⟨before, after, h⟩ := List.append_of_mem hk
  obtain ⟨c, w, htext, hscan⟩ := exists_scan_of_ofTextAt h
  obtain ⟨hspace, hone⟩ := Scan.kindAndLength_punct (by rw [hscan, hkind])
  rw [hscan] at hone
  obtain rfl : w = [] := List.length_eq_zero_iff.mp (Nat.succ.inj hone)
  rw [htext, List.mem_singleton]
  rintro rfl
  cases hspace

/-- Where no line feed is escaped, nothing more and nothing less is wrong with returns. -/
theorem isOk_withReturns (h : escapesLineFeed (Tokens.ofText t) = false) :
    (ofText t.withReturns).isOk = (ofText t).isOk := by
  refine isOk_eq_of_roles ?_
  have htokens := ofTextAt_withReturns .start .start t h
  have hroles := congrArg (List.map fun k : TokenKind × Text =>
    (⟨k.1, if k.1 = .punct then k.2 else [], default⟩ : Token)) htokens
  rw [List.map_map, List.map_map] at hroles
  refine hroles.trans (List.map_congr_left fun k hk => ?_)
  by_cases hkind : k.kind = .punct
  · simp [Token.role, hkind, withReturns_eq_self (lineFeed_notMem_punct hk hkind)]
  · simp [Token.role, hkind]

/-- **Line endings do not count exactly where no line feed is escaped.** Then carriage returns in
front of the line feeds leave the kinds of the tokens, their texts without the returns, and whether
anything is wrong. Where a line feed is escaped, some token is of another kind or has another text. -/
theorem ofText_withReturns_iff (ht : '\r' ∉ t) :
    ((Tokens.ofText t.withReturns).map (fun k => (k.kind, k.text.withoutReturns)) =
          (Tokens.ofText t).map (fun k => (k.kind, k.text))
        ∧ (ofText t.withReturns).isOk = (ofText t).isOk)
      ↔ escapesLineFeed (Tokens.ofText t) = false := by
  constructor
  · exact fun h => escapesLineFeed_eq_false .start .start t ht h.1
  · intro h
    refine ⟨?_, isOk_withReturns h⟩
    have htokens := congrArg (List.map fun k : TokenKind × Text => (k.1, k.2.withoutReturns))
      (ofTextAt_withReturns .start .start t h)
    rw [List.map_map, List.map_map] at htokens
    refine htokens.trans (List.map_congr_left fun k hk => ?_)
    have hkept : '\r' ∉ k.text := fun hmem => ht (by
      rw [← text_ofText t]
      exact List.mem_flatMap.mpr ⟨k, hk, hmem⟩)
    rw [Function.comp_apply, withoutReturns_withReturns hkept]

/-- Line feeds in whitespace, in a string of an interpolation, behind a line comment that ends with
a backslash, and in a block comment. -/
theorem ofText_withReturns_iff_nowhere_escaped :
    let t : Text := "a\x7b\nb:#\x7b'\\\n'\x7d//\\\n/*\n*/\x7d".toList
    '\r' ∉ t ∧ escapesLineFeed (Tokens.ofText t) = false
      ∧ (Tokens.ofText t.withReturns).map (fun k => (k.kind, k.text.withoutReturns)) =
          (Tokens.ofText t).map (fun k => (k.kind, k.text))
      ∧ (ofText t.withReturns).isOk = (ofText t).isOk := by
  have hkept : '\r' ∉ "a\x7b\nb:#\x7b'\\\n'\x7d//\\\n/*\n*/\x7d".toList := by decide +kernel
  have hescape : escapesLineFeed
      (Tokens.ofText "a\x7b\nb:#\x7b'\\\n'\x7d//\\\n/*\n*/\x7d".toList) = false := by cbv
  exact ⟨hkept, hescape, (ofText_withReturns_iff hkept).mpr hescape⟩

/-- **An escaped line break of two characters breaks a string.** Only its carriage return is taken
to be escaped, and the line feed ends the token. -/
theorem escaped_lineFeed_breaks_string :
    let t : Text := "a\x7bb:\"c\\\nd\"\x7d".toList
    '\r' ∉ t ∧ (Tokens.ofText t.withReturns).map (·.kind) ≠ (Tokens.ofText t).map (·.kind)
      ∧ (ofText t).isOk = true ∧ (ofText t.withReturns).isOk = false := by
  have hkept : '\r' ∉ "a\x7bb:\"c\\\nd\"\x7d".toList := by decide +kernel
  have hfeed : (Tokens.ofText "a\x7bb:\"c\\\nd\"\x7d".toList).map (·.kind) =
      [.ident, .punct, .ident, .punct, .string, .punct] := by cbv
  have hreturn : (Tokens.ofText (withReturns "a\x7bb:\"c\\\nd\"\x7d".toList)).map (·.kind) =
      [.ident, .punct, .ident, .punct, .error, .whitespace, .ident, .error] := by cbv
  have hok : (ofText "a\x7bb:\"c\\\nd\"\x7d".toList).isOk = true := by cbv
  have hbroken : (ofText (withReturns "a\x7bb:\"c\\\nd\"\x7d".toList)).isOk = false := by cbv
  refine ⟨hkept, ?_, hok, hbroken⟩
  rw [hreturn, hfeed]
  decide

end Parse

end SheetLint
