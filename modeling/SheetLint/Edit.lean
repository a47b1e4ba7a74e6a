import SheetLint.Token

/-!
# Edits and fixes

An edit replaces a range of bytes by a text; a range without bytes makes it an insertion. A fix is
a message and the edits that carry it out.

Edits are applied from the end of the text backwards, so that the offsets of those still to come
stay valid. At one offset a replacement is applied before an insertion, which therefore ends up in
front of it.
-/

namespace SheetLint

/-- Replaces the bytes from `start` up to `stop`. -/
structure Edit where
  start : Nat
  stop : Nat
  replacement : Text
deriving DecidableEq, Repr

namespace Edit

/-- Puts a text at an offset. -/
def insert (offset : Nat) (text : Text) : Edit := ⟨offset, offset, text⟩

/-- Replaces a run of tokens, or puts the text at `offset` when the run is empty. -/
def replaceRun (run : List Token) (offset : Nat) (text : Text) : Edit :=
  match run.head?, run.getLast? with
  | some first, some last => ⟨first.start, last.stop, text⟩
  | _, _ => insert offset text

/-- Whether no byte is replaced. -/
def isInsertion (e : Edit) : Bool := e.stop ≤ e.start

/-- Whether an offset lies inside the range and at neither end of it. -/
def hasInside (e : Edit) (offset : Nat) : Bool := e.start < offset && offset < e.stop

/-- Whether two edits cannot be applied together: ranges that overlap, an insertion strictly inside
a range, two insertions at one offset. Ranges that touch are no conflict. -/
def conflicts (a b : Edit) : Bool :=
  match a.isInsertion, b.isInsertion with
  | true, true => a.start == b.start
  | true, false => b.hasInside a.start
  | false, true => a.hasInside b.start
  | false, false => a.start < b.stop && b.start < a.stop

/-- Whether the range lies in the text, the right way round and between characters. -/
def fits (text : Text) (e : Edit) : Bool :=
  e.start ≤ e.stop && text.isBoundary e.start && text.isBoundary e.stop

/-- Order of application: later ranges first, and of those that start together the longer
first. -/
def appliesBefore (a b : Edit) : Bool :=
  b.start < a.start || (a.start == b.start && b.stop ≤ a.stop)

/-- Replaces one range of a text; `none` when the range does not lie in it. -/
def replaceIn? (text : Text) (e : Edit) : Option Text := do
  let (front, back) ← text.cut? e.start
  let (_, rest) ← Text.cut? (e.stop - e.start) back
  return front ++ e.replacement ++ rest

/-- Applies edits to a text, each to the result of those before it. -/
def applyInTurn? : List Edit → Text → Option Text
  | [], text => some text
  | e :: es, text => (e.replaceIn? text).bind (applyInTurn? es)

/-- Applies all edits to a text; `none` when one does not fit the text. -/
def applyAll? (text : Text) (edits : List Edit) : Option Text :=
  if edits.all (fits text) then applyInTurn? (edits.mergeSort appliesBefore) text else none

end Edit

/-- A message and the edits that carry it out. -/
structure Fix where
  message : String
  edits : List Edit
deriving DecidableEq, Repr

namespace Fix

/-- A fix by one replacement. -/
def replace (message : String) (start stop : Nat) (text : Text) : Fix :=
  ⟨message, [⟨start, stop, text⟩]⟩

/-- A fix by one insertion. -/
def insert (message : String) (offset : Nat) (text : Text) : Fix :=
  ⟨message, [.insert offset text]⟩

/-- The least start of the edits, 0 when there is none. -/
def start (f : Fix) : Nat := ((f.edits.map Edit.start).min?).getD 0

/-- The greatest end of the edits, the start when there is none. -/
def stop (f : Fix) : Nat := ((f.edits.map Edit.stop).max?).getD f.start

/-- Number of bytes from start to end. -/
def length (f : Fix) : Nat := f.stop - f.start

/-- Whether an edit of one fix conflicts with an edit of the other. -/
def conflicts (a b : Fix) : Bool := a.edits.any fun x => b.edits.any fun y => x.conflicts y

end Fix

end SheetLint
