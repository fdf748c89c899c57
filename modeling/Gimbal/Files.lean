/-
Gimbal/Files.lean

Access to files.

A command reads texts and writes texts, and what it does with them does not
depend on where they are: `Files m` is all that it is given.  The files may be
those of the machine, or those of a tree that is a value (`FileTree`).
-/
namespace Gimbal

/-- Why a file was not read or written. -/
inductive FileError
  /-- The system refused, with its number for the reason. -/
  | refused (code : Nat) (reason : String)
  /-- The contents are not a text. -/
  | notText
deriving DecidableEq, Repr

namespace FileError

/-- There is nothing of this name. -/
def notFound : FileError := .refused 2 "No such file or directory"

/-- A file stands where a folder is needed. -/
def notFolder : FileError := .refused 20 "Not a directory"

/-- A folder stands where a file is needed. -/
def isFolder : FileError := .refused 21 "Is a directory"

/-- A name, or a whole path, has too many bytes. -/
def nameTooLong : FileError := .refused 36 "File name too long"

/-- The wording of an error. -/
def message : FileError → String
  | .refused code reason => reason ++ " (os error " ++ toString code ++ ")"
  | .notText => "stream did not contain valid UTF-8"

end FileError

/-- How texts are read and written, by the paths of their files. -/
structure Files (m : Type → Type) where
  read : String → m (Except FileError String)
  write : String → String → m (Except FileError Unit)

end Gimbal
