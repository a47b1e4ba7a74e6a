import SheetLint.Path

/-!
# Files and folders

A disk holds files at places; a place is the list of names that lead to it from the root. Paths
are followed from the current folder, name by name, and every name on the way has to be a folder.
A file holds text, or bytes that are no text.

Results:
* `contentAt?_write`: writing changes what is at one place and nothing else.
-/

namespace SheetLint

/-- The names that lead from the root to a file or a folder. -/
abbrev Place := List String

/-- What a file holds. -/
inductive Content where
  | text (t : Text)
  /-- Bytes that are not the UTF-8 form of a text. -/
  | binary (bytes : List UInt8)
deriving DecidableEq

/-- Why a file cannot be read or written. -/
inductive FileFault where
  | missing
  /-- A file stands where the path needs a folder. -/
  | notFolder
  /-- A folder stands where a file is needed. -/
  | folder
  | notText
  | other (reason : String)
deriving DecidableEq, Repr

namespace FileFault

/-- The wording of a fault. -/
def message : FileFault → String
  | missing => "No such file or directory (os error 2)"
  | notFolder => "Not a directory (os error 20)"
  | folder => "Is a directory (os error 21)"
  | notText => "stream did not contain valid UTF-8"
  | other reason => reason

end FileFault

/-- Files and folders, and the folder where relative paths start. A folder that holds a file
need not be listed. -/
structure Disk where
  files : List (Place × Content)
  folders : List Place
  current : Place

namespace Disk

/-! ## Places -/

/-- What the file at a place holds. -/
def contentAt? (d : Disk) (p : Place) : Option Content := d.files.lookup p

/-- The names that lead from a place to another one below it. -/
def below? : Place → Place → Option Place
  | [], [] => none
  | [], p => some p
  | _ :: _, [] => none
  | a :: as, b :: bs => if a = b then below? as bs else none

/-- Whether there is a folder at a place. -/
def isFolderAt (d : Disk) (p : Place) : Bool :=
  p.isEmpty || d.folders.contains p || d.files.any fun f => (below? p f.1).isSome

/-- Follows one segment of a path. -/
def step (d : Disk) (p : Place) (segment : String) : Except FileFault Place :=
  if d.isFolderAt p then
    match segment with
    | "" => .ok p
    | "." => .ok p
    | ".." => .ok p.dropLast
    | name => .ok (p ++ [name])
  else if (d.contentAt? p).isSome then .error .notFolder
  else .error .missing

/-- The place that a path leads to. There need not be anything. -/
def locate (d : Disk) (path : String) : Except FileFault Place :=
  match Path.segments path with
  | [""] => .error .missing
  | "" :: rest => rest.foldlM d.step []
  | segments => segments.foldlM d.step d.current

/-! ## Files and folders by path -/

/-- Whether a path names a file. -/
def isFile (d : Disk) (path : String) : Bool :=
  match d.locate path with
  | .ok p => (d.contentAt? p).isSome
  | .error _ => false

/-- Whether a path names a folder. -/
def isFolder (d : Disk) (path : String) : Bool :=
  match d.locate path with
  | .ok p => d.isFolderAt p
  | .error _ => false

/-- Whether a path names anything. -/
def isPresent (d : Disk) (path : String) : Bool := d.isFile path || d.isFolder path

/-- The text of a file. -/
def read (d : Disk) (path : String) : Except FileFault Text := do
  let p ← d.locate path
  match d.contentAt? p with
  | some (.text t) => .ok t
  | some (.binary _) => .error .notText
  | none => if d.isFolderAt p then .error .folder else .error .missing

/-- The files with a text at a place, which replaces what was there. -/
def put (p : Place) (t : Text) : List (Place × Content) → List (Place × Content)
  | [] => [(p, .text t)]
  | f :: fs => if f.1 = p then (p, .text t) :: fs else f :: put p t fs

/-- The disk with a text at a place. -/
def putAt (d : Disk) (p : Place) (t : Text) : Disk := { d with files := put p t d.files }

/-- Writes a file, which need not have been there. -/
def write (d : Disk) (path : String) (t : Text) : Except FileFault Disk := do
  let p ← d.locate path
  if d.isFolderAt p then .error .folder else .ok (d.putAt p t)

/-- The names that lead from a folder to each file below it. -/
def filesBelow (d : Disk) (path : String) : List Place :=
  match d.locate path with
  | .ok p => d.files.filterMap fun f => below? p f.1
  | .error _ => []

/-! ## Laws -/

theorem lookup_put (p q : Place) (t : Text) (files : List (Place × Content)) :
    (put p t files).lookup q = if q = p then some (.text t) else files.lookup q := by
  induction files with
  | nil =>
    by_cases h : q = p
    · simp [put, h]
    · simp [put, List.lookup_cons, h, beq_false_of_ne h]
  | cons f fs ih =>
    obtain ⟨a, c⟩ := f
    rw [put]
    by_cases ha : a = p
    · by_cases h : q = p
      · simp [ha, h]
      · simp [ha, h, List.lookup_cons, beq_false_of_ne h]
    · by_cases h : q = a
      · simp [ha, h]
      · simp [ha, ih, List.lookup_cons, beq_false_of_ne h]

theorem contentAt?_write {d d' : Disk} {path : String} {p : Place} {t : Text}
    (hp : d.locate path = .ok p) (h : d.write path t = .ok d') (q : Place) :
    d'.contentAt? q = if q = p then some (.text t) else d.contentAt? q := by
  unfold write at h
  rw [hp] at h
  simp only [bind, Except.bind] at h
  split at h
  · simp at h
  · simp only [Except.ok.injEq] at h
    rw [← h]
    exact lookup_put p q t d.files

end Disk

end SheetLint
