import SheetLint.Token

/-!
# Cutting a run of tokens outside brackets

Selector lists, argument lists and values are cut by the same rule: walk over the tokens, keep the
depth of the brackets opened so far, and cut at the separators that stand at depth zero.

Results:
* `segments_ne_nil`: there is always one segment more than there are separators, so at least one.
-/

namespace SheetLint.Tokens

/-- The segments between the separators met at depth zero, empty ones included. `nest` gives the
depth behind a token that does not separate. -/
def segments (nest : Nat → Token → Nat) (isSeparator : Token → Bool) (depth : Nat) :
    List Token → List (List Token)
  | [] => [[]]
  | t :: ts =>
    if depth = 0 && isSeparator t then [] :: segments nest isSeparator 0 ts
    else
      match segments nest isSeparator (nest depth t) ts with
      | [] => [[t]]
      | segment :: more => (t :: segment) :: more

theorem segments_ne_nil (nest : Nat → Token → Nat) (isSeparator : Token → Bool) (depth : Nat)
    (ts : List Token) : segments nest isSeparator depth ts ≠ [] := by
  cases ts with
  | nil => simp [segments]
  | cons t ts =>
    rw [segments]
    split
    · simp
    · split <;> simp

end SheetLint.Tokens
