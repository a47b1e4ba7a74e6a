import SheetLint.Text.Split

/-!
# Patterns for paths

A pattern matches a whole path: `?` stands for one character, `*` for any run of characters,
`[ab-d]` for a character of the set and `[!ab-d]` for one outside it. The slash is a character as
any other. `**` stands for a run of folders and has to fill the space between two slashes.
-/

namespace SheetLint

/-- A part of a pattern. -/
inductive GlobPart where
  | char (c : Char)
  | any
  /-- A character in one of the ranges, ends included. -/
  | within (ranges : List (Char × Char))
  /-- A character in none of the ranges. -/
  | without (ranges : List (Char × Char))
  | run
  | folders
deriving DecidableEq, Repr

/-- A pattern. -/
abbrev Glob := List GlobPart

namespace Glob

/-! ## Reading -/

/-- The ranges that the text in brackets lists; a single character is a range of its own. -/
def ranges : Text → List (Char × Char)
  | first :: '-' :: last :: rest => (first, last) :: ranges rest
  | c :: rest => (c, c) :: ranges rest
  | [] => []

theorem length_lt_of_cutAt? {sep : Char} {t a b : Text} (h : Text.cutAt? sep t = some (a, b)) :
    b.length < t.length := by
  induction t generalizing a b with
  | nil => simp [Text.cutAt?] at h
  | cons c cs ih =>
    rw [Text.cutAt?] at h
    split at h
    · simp only [Option.some.injEq, Prod.mk.injEq] at h
      simp [← h.2]
    · obtain ⟨⟨x, y⟩, hxy, heq⟩ := Option.map_eq_some_iff.1 h
      simp only [Prod.mk.injEq] at heq
      have := ih hxy
      rw [← heq.2]
      simp only [List.length_cons]
      omega

/-- The parts of a pattern; `none` when a bracket is not closed, or `**` does not stand alone
between slashes. `atStart` says whether the text starts the pattern or follows a slash. -/
def parts? (atStart : Bool) (t : Text) : Option Glob :=
  match t with
  | [] => some []
  | '?' :: rest => (parts? false rest).map (.any :: ·)
  | '*' :: '*' :: rest =>
    if atStart then
      match rest with
      | [] => some [.folders]
      | '/' :: rest => (parts? true rest).map (.folders :: ·)
      | _ => none
    else none
  | '*' :: rest => (parts? false rest).map (.run :: ·)
  | '[' :: '!' :: c :: rest =>
    match h : Text.cutAt? ']' rest with
    | some (inside, after) =>
      have := length_lt_of_cutAt? h
      (parts? false after).map (.without (ranges (c :: inside)) :: ·)
    | none => none
  | '[' :: '!' :: [] => none
  | '[' :: c :: rest =>
    match h : Text.cutAt? ']' rest with
    | some (inside, after) =>
      have := length_lt_of_cutAt? h
      (parts? false after).map (.within (ranges (c :: inside)) :: ·)
    | none => none
  | '[' :: [] => none
  | c :: rest => (parts? (c == '/') rest).map (.char c :: ·)
termination_by t.length

/-- The pattern that a text writes, if it is one. -/
def ofText? (t : Text) : Option Glob := parts? true t

/-! ## Matching -/

/-- The texts left when characters are taken from the front, the whole text first. -/
def suffixes : Text → List Text
  | [] => [[]]
  | c :: cs => (c :: cs) :: suffixes cs

/-- The texts left behind each slash. -/
def afterSlashes : Text → List Text
  | [] => []
  | c :: cs => if c = '/' then cs :: afterSlashes cs else afterSlashes cs

/-- Whether a character lies in one of the ranges. -/
def inRanges (ranges : List (Char × Char)) (c : Char) : Bool :=
  ranges.any fun r => r.1 ≤ c && c ≤ r.2

/-- Whether the pattern matches the whole text. A run of folders is empty, ends with a slash, or
is all that is left. -/
def fits : Glob → Text → Bool
  | [], t => t.isEmpty
  | .run :: rest, t => (suffixes t).any (fits rest)
  | .folders :: rest, t => fits rest t || (afterSlashes t).any (fits rest) || fits rest []
  | .char c :: rest, t =>
    match t with
    | [] => false
    | d :: ds => c == d && fits rest ds
  | .any :: rest, t =>
    match t with
    | [] => false
    | _ :: ds => fits rest ds
  | .within ranges :: rest, t =>
    match t with
    | [] => false
    | d :: ds => inRanges ranges d && fits rest ds
  | .without ranges :: rest, t =>
    match t with
    | [] => false
    | d :: ds => !inRanges ranges d && fits rest ds

end Glob

end SheetLint
