import Rivulet.Text.Blank

/-!
Trees of files and folders, and what reading a path there yields. A path is followed name by name,
from the root if it starts with a slash and from the working folder otherwise; the first name that
leads nowhere decides the error.
-/

namespace Rivulet

/-- Why a file cannot be read. -/
inductive FileError where
  | notFound
  | isDirectory
  | notDirectory
  | nameTooLong
  | permissionDenied
  | notText
  | other (message : String)
deriving DecidableEq, Repr

/-- Why a file cannot be read, in words. -/
def FileError.message : FileError → String
  | notFound => "No such file or directory (os error 2)"
  | isDirectory => "Is a directory (os error 21)"
  | notDirectory => "Not a directory (os error 20)"
  | nameTooLong => "File name too long (os error 36)"
  | permissionDenied => "Permission denied (os error 13)"
  | notText => "stream did not contain valid UTF-8"
  | other message => message

/-- A file with its text, or a folder with what it holds by name. -/
inductive FileTree where
  | file (text : String)
  | folder (entries : List (String × FileTree))
deriving Inhabited

namespace FileTree

/-- How many bytes a name may have. -/
def maxName : Nat := 255

/-- How many bytes a path may have. -/
def maxPath : Nat := 4095

/-- What a list of names leads to, given the folders around the place where it starts, nearest
first. An empty name and `.` stay in a folder, `..` leaves it, and the root lies in itself. -/
def follow : List FileTree → FileTree → List String → Except FileError FileTree
  | _, place, [] => .ok place
  | _, .file _, _ :: _ => .error .notDirectory
  | around, .folder entries, name :: names =>
    if name = "" || name = "." then follow around (.folder entries) names
    else if name = ".." then
      match around with
      | [] => follow [] (.folder entries) names
      | outer :: around => follow around outer names
    else if maxName < name.utf8ByteSize then .error .nameTooLong
    else
      match entries.lookup name with
      | none => .error .notFound
      | some entry => follow (.folder entries :: around) entry names

end FileTree

/-- A working folder with the folders around it, nearest first; the last of them is the root. -/
structure WorkingFolder where
  folder : FileTree
  around : List FileTree
deriving Inhabited

namespace WorkingFolder

/-- The outermost folder. -/
def root (place : WorkingFolder) : FileTree :=
  place.around.getLast?.getD place.folder

/-- The text of the file that a path leads to. -/
def read (place : WorkingFolder) (path : String) : Except FileError String := do
  if path = "" then throw .notFound
  if FileTree.maxPath < path.utf8ByteSize then throw .nameTooLong
  let names := (Text.splitAtEvery (· == '/') path.toList).map String.ofList
  let target ←
    if path.startsWith "/" then FileTree.follow [] place.root names
    else FileTree.follow place.around place.folder names
  match target with
  | .file text => pure text
  | .folder _ => throw .isDirectory

end WorkingFolder

end Rivulet
