import SheetLint.Regex
import SheetLint.Text.Utf8

/-!
# The size of an expression

An expression runs as a program of states over bytes, once from the front and once from the back
of a word. Counts are written out, so short expressions can need large programs. The size of the
program is told without making it; an expression whose program is too large is refused.
-/

namespace SheetLint.Regex

/-! ## Sizes of parts -/

/-- Bytes for a state. -/
def stateSize : Nat := 32

/-- Bytes for a state with one way on for each of some byte ranges. -/
def tableSize (ranges : Nat) : Nat := stateSize + 8 * ranges

/-- Bytes for a state with some ways on that need no byte. -/
def forkSize (ways : Nat) : Nat := stateSize + 4 * ways

/-- Whether a program runs from the front or from the back of a word. -/
inductive Direction where
  | forward
  | backward
deriving DecidableEq, Repr

/-! ## Sets -/

/-- The tails of sequences, those behind the same first range together. -/
def tails (seqs : List (List Utf8.ByteRange)) : List (List (List Utf8.ByteRange)) :=
  (seqs.splitBy fun a b => a.head? == b.head?).map fun same => same.map (·.drop 1)

/-- What is left of sequences at the states that read them, each state with what it still reads.
No sequence has more ranges than `fuel`. -/
def readings : Nat → List (List Utf8.ByteRange) → List (List (List Utf8.ByteRange))
  | 0, _ => []
  | fuel + 1, seqs =>
    if seqs.all List.isEmpty then [] else seqs :: (tails seqs).flatMap (readings fuel)

/-- The size of a set that is read from the front: states that still read the same are one. -/
def sharedSize (seqs : List (List Utf8.ByteRange)) : Nat :=
  ((readings 4 seqs).eraseDups.map fun left => tableSize (tails left).length).foldl (· + ·) stateSize

/-- The size of a set that is read from the back: states that have the same in front are one. -/
def chainedSize (seqs : List (List Utf8.ByteRange)) : Nat :=
  let fronts := seqs.flatMap fun seq => (List.range seq.length).map fun n => seq.take (n + 1)
  forkSize seqs.length + stateSize + stateSize * fronts.eraseDups.length

/-- The size of a set. -/
def setSize (d : Direction) (s : CharSet) : Nat :=
  if s.isAscii then tableSize s.ranges.length + stateSize
  else
    match d with
    | .forward => sharedSize (Utf8.sequences s)
    | .backward => chainedSize (Utf8.sequences s)

/-! ## Choices of literals -/

/-- The bytes of a text in the order in which a program reads them. -/
def bytesRead (d : Direction) (t : Text) : List Nat :=
  let bytes := t.flatMap fun c => Utf8.bytes c.toNat
  match d with
  | .forward => bytes
  | .backward => bytes.reverse

/-- The literals cut at those that end here. -/
def betweenEnds : List (List Nat) → List (List (List Nat))
  | [] => [[]]
  | [] :: rest => [] :: betweenEnds rest
  | word :: rest =>
    match betweenEnds rest with
    | [] => [[word]]
    | first :: later => (word :: first) :: later

/-- The literals cut at those that end here. Several ends in front of all that goes on are one. -/
def parts (words : List (List Nat)) : List (List (List Nat)) :=
  if words.head? = some [] then [] :: betweenEnds (words.dropWhile List.isEmpty)
  else betweenEnds words

/-- The literals that start with a byte, without it. -/
def behind (byte : Nat) (words : List (List Nat)) : List (List Nat) :=
  (words.filter (·.head? == some byte)).map (·.drop 1)

/-- The size of what reads literals that share what was read so far. No literal has more bytes
left than `fuel`. -/
def treeSize : Nat → List (List Nat) → Nat
  | 0, _ => 0
  | fuel + 1, words =>
    let all := parts words
    let full := all.filter fun part => !part.isEmpty
    let sizes := full.map fun part =>
      let firsts := (part.filterMap List.head?).eraseDups
      let later := firsts.map fun byte =>
        let left := behind byte part
        if left.all List.isEmpty then 0 else treeSize fuel left
      later.foldl (· + ·) (if firsts.length = 1 then stateSize else tableSize firsts.length)
    sizes.foldl (· + ·) (forkSize (full.length + (all.length - 1)))

/-- The size of a choice of literals. -/
def literalsSize (d : Direction) (ts : List Text) : Nat :=
  let words := ts.map (bytesRead d)
  stateSize + treeSize ((words.map List.length).foldl max 0 + 1) words

/-- The text of an expression that is a literal. -/
def literal? : Regex → Option Text
  | literal t => some t
  | _ => none

/-! ## Expressions -/

mutual
/-- The fewest characters of a match; `none` when nothing can match. -/
def fewest? : Regex → Option Nat
  | empty => some 0
  | literal t => some t.length
  | oneOf s => if s.ranges.isEmpty then none else some 1
  | wordStart => some 0
  | wordEnd => some 0
  | boundary _ => some 0
  | group r => r.fewest?
  | inTurn rs => fewestInTurn? rs
  | anyOf rs => fewestOfAny? rs
  | repeated r least _ => r.fewest?.map (least * ·)

/-- The fewest characters of a match of expressions in turn. -/
def fewestInTurn? : List Regex → Option Nat
  | [] => some 0
  | r :: rs =>
    match r.fewest?, fewestInTurn? rs with
    | some n, some m => some (n + m)
    | _, _ => none

/-- The fewest characters of a match of any of the expressions, all of which can match. -/
def fewestOfAny? : List Regex → Option Nat
  | [] => none
  | [r] => r.fewest?
  | r :: rs =>
    match r.fewest?, fewestOfAny? rs with
    | some n, some m => some (min n m)
    | _, _ => none
end

mutual
/-- Whether every match starts, or backward ends, at an end of the word. -/
def isHeld (d : Direction) : Regex → Bool
  | empty => false
  | literal _ => false
  | oneOf _ => false
  | wordStart => d == .forward
  | wordEnd => d == .backward
  | boundary _ => false
  | group r => isHeld d r
  | inTurn rs => isHeldInTurn d rs
  | anyOf rs => !rs.isEmpty && areAllHeld d rs
  | repeated r least _ => 0 < least && isHeld d r

/-- Whether the first of expressions in turn holds a match, or backward the last, apart from those
that match nothing but the empty text. -/
def isHeldInTurn (d : Direction) : List Regex → Bool
  | [] => false
  | r :: rs =>
    match d with
    | .forward => isHeld d r || (r.isIdle && isHeldInTurn d rs)
    | .backward => isHeldInTurn d rs || (allIdle rs && isHeld d r)

/-- Whether each of the expressions holds a match. -/
def areAllHeld (d : Direction) : List Regex → Bool
  | [] => true
  | r :: rs => isHeld d r && areAllHeld d rs
end

/-- The size of repetitions of what has the size `one`. What always `advances` needs no guard
against going round without reading anything. -/
def repeatedSize (one : Nat) (advances : Bool) (least : Nat) (most : Option Nat) : Nat :=
  match most with
  | none =>
    if least = 0 then
      if advances then one + forkSize 2 else one + 2 * forkSize 2 + stateSize
    else least * one + forkSize 2
  | some n =>
    if n = least then least * one
    else
      let front := if least != 0 then least * one else if n = 1 then 0 else stateSize
      front + (n - least) * (one + forkSize 2) + stateSize

mutual
/-- The size of an expression. Groups are remembered forward only. -/
def size (d : Direction) : Regex → Nat
  | empty => stateSize
  | literal t => stateSize * t.size
  | oneOf s => setSize d s
  | wordStart => stateSize
  | wordEnd => stateSize
  | boundary _ => stateSize
  | group r => size d r + (if d = .forward then 2 * stateSize else 0)
  | inTurn rs => sizeOfAll d rs
  | anyOf rs =>
    match rs.mapM literal? with
    | some ts => literalsSize d ts
    | none => sizeOfAll d rs + forkSize rs.length + stateSize
  | repeated r least most => repeatedSize (size d r) (r.fewest?.any (0 < ·)) least most

/-- The size of several expressions. -/
def sizeOfAll (d : Direction) : List Regex → Nat
  | [] => 0
  | r :: rs => size d r + sizeOfAll d rs
end

/-! ## Programs -/

/-- The size of the program for an expression: what finds the place to start, the expression, which
forward is a group of its own, and the end. -/
def programSize (d : Direction) (r : Regex) : Nat :=
  let search := if isHeld d r then stateSize else forkSize 2 + tableSize 1 + stateSize
  search + size d (group r) + stateSize

/-- The largest size that a program may have. -/
def sizeLimit : Nat := 0xa00000

/-- Whether the programs for an expression are small enough. -/
def isSmall (r : Regex) : Bool :=
  programSize .forward r ≤ sizeLimit && programSize .backward r ≤ sizeLimit

end SheetLint.Regex
