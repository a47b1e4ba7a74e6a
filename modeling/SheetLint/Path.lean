import SheetLint.Text.Order
import SheetLint.Text.Split

/-!
# Paths as they are written

A path is a text with slashes. What it names is given by its components: a slash at the end, two
slashes in a row and a `.` inside do not count, but a `.` in front does, so `./a` and `a` are
different paths. Paths are ordered component by component: the root, then `.`, then `..`, then
names.

Results:
* `le_total`, `le_trans`: the order is total and transitive, so sorting by it is meaningful.
* `le_antisymm`: paths that are below each other have the same components.
-/

namespace SheetLint.Path

/-- A step of a path. -/
inductive Component where
  | root
  | here
  | up
  | name (n : String)
deriving DecidableEq, Repr

namespace Component

/-- The kinds of steps in their order. -/
def rank : Component → Nat
  | root => 0
  | here => 1
  | up => 2
  | name _ => 3

/-- The name in a step. -/
def label : Component → String
  | name n => n
  | _ => ""

/-- Order of steps: by kind, then by name. -/
def le (a b : Component) : Bool :=
  if a.rank = b.rank then Text.leString a.label b.label else a.rank < b.rank

end Component

/-- The texts between the slashes. -/
def segments (path : String) : List String :=
  (Text.splitOn '/' path.toList).map String.ofList

/-- The step that a text between slashes is, if it is one. -/
def step? : String → Option Component
  | "" => none
  | "." => none
  | ".." => some .up
  | n => some (.name n)

/-- The steps of a path. -/
def components (path : String) : List Component :=
  match segments path with
  | [""] => []
  | "" :: rest => .root :: rest.filterMap step?
  | "." :: rest => .here :: rest.filterMap step?
  | all => all.filterMap step?

/-- Order of lists of steps: the first difference decides. -/
def leComponents : List Component → List Component → Bool
  | [], _ => true
  | _ :: _, [] => false
  | a :: as, b :: bs => if a = b then leComponents as bs else a.le b

/-- Order of paths. -/
def le (a b : String) : Bool := leComponents (components a) (components b)

/-- Whether two paths have the same components. -/
def same (a b : String) : Bool := components a == components b

/-- The path of something in a folder. -/
def join (folder name : String) : String :=
  if folder.isEmpty || folder.endsWith "/" then folder ++ name else folder ++ "/" ++ name

/-- The segments without those at the end that do not count. The first one always counts. -/
def dropIdle : List String → List String
  | [] => []
  | first :: rest => first :: (rest.reverse.dropWhile fun s => s == "" || s == ".").reverse

/-- The folder that holds what a path names: the path without its last name, `.` for a bare
name. -/
def folder (path : String) : String :=
  match dropIdle (dropIdle (segments path)).dropLast with
  | [] => "."
  | [""] => "/"
  | kept => "/".intercalate kept

/-- The part of a file name behind its last point. A point in front of the name does not count. -/
def extension? (name : String) : Option String :=
  match Text.splitOn '.' name.toList with
  | [[], _] => none
  | _ :: part :: parts => some (String.ofList ((part :: parts).getLast (by simp)))
  | _ => none

/-! ## Laws of the order -/

namespace Component

theorem eq_of_rank_of_label {a b : Component} (hrank : a.rank = b.rank)
    (hlabel : a.label = b.label) : a = b := by
  cases a <;> cases b <;> simp_all [rank, label]

theorem le_total (a b : Component) : (a.le b || b.le a) = true := by
  rw [le, le]
  by_cases h : a.rank = b.rank
  · rw [if_pos h, if_pos h.symm]
    exact Text.le_total _ _
  · rw [if_neg h, if_neg (Ne.symm h), Bool.or_eq_true, decide_eq_true_iff, decide_eq_true_iff]
    omega

theorem le_trans {a b c : Component} (hab : a.le b = true) (hbc : b.le c = true) :
    a.le c = true := by
  rw [le] at hab hbc ⊢
  by_cases h : a.rank = b.rank
  · rw [if_pos h] at hab
    rw [h]
    by_cases h' : b.rank = c.rank
    · rw [if_pos h'] at hbc ⊢
      exact Text.le_trans hab hbc
    · rw [if_neg h'] at hbc ⊢
      exact hbc
  · rw [if_neg h, decide_eq_true_iff] at hab
    by_cases h' : b.rank = c.rank
    · rw [if_neg (by omega), decide_eq_true_iff]
      omega
    · rw [if_neg h', decide_eq_true_iff] at hbc
      rw [if_neg (by omega), decide_eq_true_iff]
      omega

theorem le_antisymm {a b : Component} (hab : a.le b = true) (hba : b.le a = true) : a = b := by
  rw [le] at hab hba
  by_cases h : a.rank = b.rank
  · rw [if_pos h] at hab
    rw [if_pos h.symm] at hba
    exact eq_of_rank_of_label h (Text.leString_antisymm hab hba)
  · rw [if_neg h, decide_eq_true_iff] at hab
    rw [if_neg (Ne.symm h), decide_eq_true_iff] at hba
    omega

end Component

theorem leComponents_total (a b : List Component) :
    (leComponents a b || leComponents b a) = true := by
  induction a generalizing b with
  | nil => rfl
  | cons x xs ih =>
    cases b with
    | nil => rfl
    | cons y ys =>
      rw [leComponents, leComponents]
      by_cases h : x = y
      · rw [if_pos h, if_pos h.symm]
        exact ih ys
      · rw [if_neg h, if_neg (Ne.symm h)]
        exact x.le_total y

theorem leComponents_trans {a b c : List Component} (hab : leComponents a b = true)
    (hbc : leComponents b c = true) : leComponents a c = true := by
  induction a generalizing b c with
  | nil => rfl
  | cons x xs ih =>
    cases b with
    | nil => simp [leComponents] at hab
    | cons y ys =>
      cases c with
      | nil => simp [leComponents] at hbc
      | cons z zs =>
        rw [leComponents] at hab hbc ⊢
        by_cases hxy : x = y
        · subst hxy
          rw [if_pos rfl] at hab
          by_cases hxz : x = z
          · rw [if_pos hxz] at hbc ⊢
            exact ih hab hbc
          · rw [if_neg hxz] at hbc ⊢
            exact hbc
        · rw [if_neg hxy] at hab
          by_cases hyz : y = z
          · subst hyz
            rw [if_neg hxy]
            exact hab
          · rw [if_neg hyz] at hbc
            by_cases hxz : x = z
            · subst hxz
              exact absurd (Component.le_antisymm hab hbc) hxy
            · rw [if_neg hxz]
              exact Component.le_trans hab hbc

theorem leComponents_antisymm {a b : List Component} (hab : leComponents a b = true)
    (hba : leComponents b a = true) : a = b := by
  induction a generalizing b with
  | nil =>
    cases b with
    | nil => rfl
    | cons y ys => simp [leComponents] at hba
  | cons x xs ih =>
    cases b with
    | nil => simp [leComponents] at hab
    | cons y ys =>
      rw [leComponents] at hab hba
      by_cases h : x = y
      · subst h
        rw [if_pos rfl] at hab hba
        rw [ih hab hba]
      · rw [if_neg h] at hab
        rw [if_neg (Ne.symm h)] at hba
        exact absurd (Component.le_antisymm hab hba) h

theorem le_total (a b : String) : (le a b || le b a) = true := leComponents_total _ _

theorem le_trans {a b c : String} (hab : le a b = true) (hbc : le b c = true) : le a c = true :=
  leComponents_trans hab hbc

theorem le_antisymm {a b : String} (hab : le a b = true) (hba : le b a = true) :
    components a = components b := leComponents_antisymm hab hba

end SheetLint.Path
