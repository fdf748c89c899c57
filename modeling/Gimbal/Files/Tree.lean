/-
Gimbal/Files/Tree.lean

Folders and texts as a value, and the paths that lead to them.

A path is walked part by part from the folder where it starts, or from the root
if it begins with a slash.  A dot stays, two dots go up, and any other part but
the last must name a folder.  A slash at the end asks for a folder.

What was written is what is read (`read_write_self`), and the other files are
not touched (`textAt?_put_of_ne`).
-/
import Gimbal.Files

namespace Gimbal

/-! ### Paths -/

/-- The names on the way from the root, the last one in front. -/
abbrev Location := List String

/-- A path, taken apart at its slashes. -/
structure Path where
  /-- Whether the path starts from the root. -/
  rooted : Bool
  /-- The parts between slashes. -/
  parts : List String
  /-- Whether a slash stands at the end. -/
  slashed : Bool

namespace Path

/-- No part of a path has more bytes. -/
def partLimit : Nat := 255

/-- Every path has fewer bytes. -/
def limit : Nat := 4096

/-- Takes a path apart. -/
def ofString (text : String) : Except FileError Path :=
  if text.isEmpty then .error .notFound
  else if limit ≤ text.utf8ByteSize then .error .nameTooLong
  else .ok {
    rooted := text.startsWith "/"
    parts := (text.splitOn "/").filter fun part => !part.isEmpty
    slashed := text.endsWith "/" }

end Path

/-- Where a path leads. -/
inductive Destination
  | folder
  /-- Not a folder; there need not be a file yet. -/
  | file (location : Location) (name : String)

/-! ### Trees -/

/-- Folders and texts. -/
structure FileTree where
  /-- The folder that paths start from. -/
  start : Location
  /-- The folders that can be entered. -/
  folders : List Location
  /-- The texts, the latest first. -/
  texts : List (Location × String)

namespace FileTree

/-- The tree with some more files in the folder that paths start from. -/
def withFiles (d : FileTree) (files : List (String × String)) : FileTree :=
  { d with texts := files.map (fun f => (f.1 :: d.start, f.2)) ++ d.texts }

/-- The text at a location. -/
def textAt? (d : FileTree) (l : Location) : Option String := d.texts.lookup l

/-- Puts a text at a location, in the place of another one if there is one. -/
def put (d : FileTree) (l : Location) (text : String) : FileTree :=
  { d with texts := (l, text) :: d.texts }

/-- Why a part of a path does not lead on. -/
def obstacle (d : FileTree) (l : Location) (part : String) : FileError :=
  if Path.partLimit < part.utf8ByteSize then .nameTooLong
  else if (d.textAt? (part :: l)).isSome then .notFolder
  else .notFound

/-- Walks along the parts of a path from a folder. -/
def walk (d : FileTree) (l : Location) :
    List String → Except FileError Destination
  | [] => .ok .folder
  | part :: rest =>
    if part = "." then d.walk l rest
    else if part = ".." then d.walk l.tail rest
    else if d.folders.contains (part :: l) then d.walk (part :: l) rest
    else if rest.isEmpty then .ok (.file l part)
    else .error (d.obstacle l part)

/-- Where a path leads. -/
def find (d : FileTree) (p : Path) : Except FileError Destination :=
  d.walk (if p.rooted then [] else d.start) p.parts

/-- The text of the file that a path leads to. -/
def readAt (d : FileTree) (p : Path) : Destination → Except FileError String
  | .folder => .error .isFolder
  | .file l name =>
    match d.textAt? (name :: l) with
    | some text => if p.slashed then .error .notFolder else .ok text
    | none => .error (d.obstacle l name)

/-- Puts a text into the file that a path leads to. -/
def writeAt (d : FileTree) (p : Path) (text : String) :
    Destination → Except FileError FileTree
  | .folder => .error .isFolder
  | .file l name =>
    if p.slashed then .error .isFolder
    else if Path.partLimit < name.utf8ByteSize then .error .nameTooLong
    else .ok (d.put (name :: l) text)

/-- The text of a file. -/
def read (d : FileTree) (path : String) : Except FileError String := do
  let p ← Path.ofString path
  d.readAt p (← d.find p)

/-- The tree with a text written into a file. -/
def write (d : FileTree) (path text : String) : Except FileError FileTree := do
  let p ← Path.ofString path
  d.writeAt p text (← d.find p)

/-- Access to the files of a tree that changes with every write. -/
def access : Files (StateM FileTree) where
  read path := do return (← get).read path
  write path text := do
    match (← get).write path text with
    | .error e => return .error e
    | .ok d =>
      set d
      return .ok ()

/-! ### Laws of writing -/

@[simp] theorem textAt?_put_self (d : FileTree) (l : Location) (text : String) :
    (d.put l text).textAt? l = some text := by
  simp [put, textAt?]

theorem textAt?_put_of_ne (d : FileTree) {l other : Location} (h : other ≠ l)
    (text : String) :
    (d.put l text).textAt? other = d.textAt? other := by
  have : (other == l) = false := by simpa using h
  simp [put, textAt?, List.lookup_cons, this]

/-- A text does not change where a path leads. -/
theorem walk_put {d : FileTree} {l : Location} {parts : List String}
    {r : Destination} (h : d.walk l parts = .ok r) (there : Location)
    (text : String) :
    (d.put there text).walk l parts = .ok r := by
  induction parts generalizing l with
  | nil => exact h
  | cons part rest ih =>
    unfold walk at h ⊢
    by_cases h1 : part = "."
    · rw [if_pos h1] at h ⊢
      exact ih h
    · rw [if_neg h1] at h ⊢
      by_cases h2 : part = ".."
      · rw [if_pos h2] at h ⊢
        exact ih h
      · rw [if_neg h2] at h ⊢
        by_cases h3 : d.folders.contains (part :: l)
        · rw [if_pos h3] at h
          rw [if_pos
            (show (d.put there text).folders.contains (part :: l) from h3)]
          exact ih h
        · rw [if_neg h3] at h
          rw [if_neg
            (show ¬ (d.put there text).folders.contains (part :: l) from h3)]
          by_cases h4 : rest.isEmpty
          · rw [if_pos h4] at h ⊢
            exact h
          · rw [if_neg h4] at h
            cases h

/-- What was written is what is read. -/
theorem read_write_self {d d' : FileTree} {path text : String}
    (h : d.write path text = .ok d') :
    d'.read path = .ok text := by
  unfold write at h
  unfold read
  cases hp : Path.ofString path with
  | error e => simp [hp, bind, Except.bind] at h
  | ok p =>
    cases hw : d.find p with
    | error e => simp [hp, hw, bind, Except.bind] at h
    | ok r =>
      simp only [hp, hw, bind, Except.bind] at h ⊢
      cases r with
      | folder => cases h
      | file l name =>
        by_cases hs : p.slashed
        · simp [writeAt, hs] at h
        · by_cases hl : Path.partLimit < name.utf8ByteSize
          · simp [writeAt, hs, hl] at h
          · simp only [writeAt, hs, hl, if_false, Bool.false_eq_true,
              Except.ok.injEq] at h
            subst h
            have hf : (d.put (name :: l) text).find p = .ok (.file l name) :=
              walk_put (d := d) hw (name :: l) text
            simp [hf, readAt, hs]

end FileTree

end Gimbal
