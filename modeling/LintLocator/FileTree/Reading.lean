import LintLocator.FileTree
import LintLocator.Text.Split
import LintLocator.Text.Utf8

/-!
# Reading files by their path

A path is a text whose parts are separated by slashes.  It is followed part by part from the root
of the tree: an empty part and `.` stay where they are, `..` goes up, and any other part names an
entry.  All of them need a folder to start from, which is why a slash behind the name of a file
is an error.
-/

namespace LintLocator

/-- Why a file could not be read. -/
inductive ReadError where
  | notFound
  | notAFolder
  | isAFolder
  /-- The bytes are not well-formed text. -/
  | notText
  deriving DecidableEq, Repr, Inhabited

/-- The message for people. -/
def ReadError.message : ReadError → String
  | .notFound => "No such file or directory (os error 2)"
  | .notAFolder => "Not a directory (os error 20)"
  | .isAFolder => "Is a directory (os error 21)"
  | .notText => "stream did not contain valid UTF-8"

namespace FileTree

/-- Follows parts of a path from the folder `here`; `above` are the folders around it, the
nearest first. -/
def follow : (above : List FileTree) → (here : FileTree) → (parts : List String) →
    Except ReadError FileTree
  | _, here, [] => .ok here
  | _, .file _, _ :: _ => .error .notAFolder
  | above, .folder entries, part :: parts =>
    if part == "" || part == "." then follow above (.folder entries) parts
    else if part == ".." then
      match above with
      | [] => follow [] (.folder entries) parts
      | up :: further => follow further up parts
    else
      match child? (.folder entries) part with
      | none => .error .notFound
      | some t => follow (.folder entries :: above) t parts

/-- The parts of a path between its slashes. -/
def pathParts (path : String) : List String :=
  (Text.splitOn ['/'] path.toList).map String.ofList

/-- What a path leads to. -/
def lookup (root : FileTree) (path : String) : Except ReadError FileTree :=
  if path == "" then .error .notFound else follow [] root (pathParts path)

/-- The text of the file that a path leads to. -/
def read (root : FileTree) (path : String) : Except ReadError String :=
  match root.lookup path with
  | .error e => .error e
  | .ok (.folder _) => .error .isAFolder
  | .ok (.file contents) =>
    match Utf8.decode? contents with
    | some text => .ok text
    | none => .error .notText

/-- The path of something that is named relative to a folder.  A name that starts with a slash
stands for itself. -/
def joinPath (folder name : String) : String :=
  if name.toList.head? == some '/' then name
  else if folder == "" || folder.toList.getLast? == some '/' then folder ++ name
  else folder ++ "/" ++ name

end FileTree
end LintLocator
