import SheetLint.Text

/-!
# Positions and spans

A position is a byte offset together with the line and column that a reader sees. Lines and
columns count from 1, a column counts characters, and a line ends with its line feed.

Results:
* `advance_append`: walking over a joined text is walking over its parts in turn.
* `advance_offset`: a walk moves the offset by the size of the text.
-/

namespace SheetLint

/-- A place in a source text. -/
structure Position where
  offset : Nat
  line : Nat
  column : Nat
deriving DecidableEq, Repr, Inhabited

namespace Position

/-- The place in front of the first character. -/
def start : Position := ⟨0, 1, 1⟩

/-- The place behind one more character. -/
def step (p : Position) (c : Char) : Position :=
  if c = '\n' then ⟨p.offset + c.utf8Size, p.line + 1, 1⟩
  else ⟨p.offset + c.utf8Size, p.line, p.column + 1⟩

/-- The place behind a text that starts at `p`. -/
def advance (p : Position) (t : Text) : Position := t.foldl step p

@[simp] theorem advance_nil (p : Position) : p.advance [] = p := rfl

@[simp] theorem advance_append (p : Position) (a b : Text) :
    p.advance (a ++ b) = (p.advance a).advance b := by
  simp [advance]

@[simp] theorem step_offset (p : Position) (c : Char) : (p.step c).offset = p.offset + c.utf8Size := by
  unfold step; split <;> rfl

theorem advance_offset (p : Position) (t : Text) : (p.advance t).offset = p.offset + t.size := by
  induction t generalizing p with
  | nil => rfl
  | cons c cs ih =>
    have : p.advance (c :: cs) = (p.step c).advance cs := rfl
    rw [this, ih]
    simp [Nat.add_assoc]

end Position

/-- A stretch of source text, from its first character to the place behind its last one. -/
structure Span where
  start : Position
  stop : Position
deriving DecidableEq, Repr, Inhabited

namespace Span

/-- Number of bytes covered. -/
def length (s : Span) : Nat := s.stop.offset - s.start.offset

end Span

end SheetLint
