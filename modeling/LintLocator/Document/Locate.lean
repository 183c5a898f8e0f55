import LintLocator.Document.LocateError
import LintLocator.Document.Stream
import LintLocator.Log
import LintLocator.Path.Lookup
import LintLocator.Path.Reader

/-!
# Locating a node in a file

A file may hold several documents, and an expression does not say which of them it means.  The
documents are tried in order.  A document that settles the matter ends the search: one in which
the expression leads somewhere, one that is not a mapping, or the place where the text stops
being YAML.  The others are noted in the log and passed over: empty documents, and mappings in
which the expression leads nowhere.  If no document settles the matter, the last failed look-up
is the answer.
-/

namespace LintLocator
namespace Document

/-- The position of an expression or the reason why there is none, with what was noted on the
way. -/
abbrev Location := Outcome LocateError Position

/-- A path and the texts under which messages speak of it and of the file. -/
structure Search where
  path : Path
  file : String
  expr : String

namespace Search

/-- The answer when no document is left. -/
def exhausted (s : Search) : Option LookupError → LocateError
  | some e => .unreachable s.file s.expr e
  | none => .nothingThere s.file s.expr

def emptyNote (s : Search) (number : Nat) : LogEntry :=
  .debug ("skipping empty document " ++ toString number ++ " in " ++ s.file)

def failedNote (s : Search) (number : Nat) (e : LookupError) : LogEntry :=
  .debug (s.expr ++ " not found in document " ++ toString number ++ " of " ++ s.file ++ ": " ++
    e.message)

/-- Tries documents in order, where the first of them has the number `number` and `last` is the
error of the last look-up so far. -/
def runFrom (s : Search) : (number : Nat) → (last : Option LookupError) → List Decoded → Location
  | _, last, [] => .failed (s.exhausted last)
  | _, _, .malformed :: _ => .failed (.malformed s.file)
  | number, last, .document t :: later =>
    if t.isNull then (runFrom s (number + 1) last later).after (s.emptyNote number)
    else if t.kind != .mapping then .failed (.notAMapping s.file number t.kind)
    else
      match s.path.lookup t with
      | .ok u => .done u.pos
      | .error e => (runFrom s (number + 1) (some e) later).after (s.failedNote number e)

/-- Tries all documents of a text. -/
def run (s : Search) (decoded : List Decoded) : Location := s.runFrom 0 none decoded

end Search

/-- Reads an expression that has to start at the root of the document. -/
def readAbsolute (expr : String) : Except LocateError Path :=
  if expr.toList.head? == some '$' then
    match Path.read expr with
    | .ok path => .ok path
    | .error e => .error (.badExpression expr e)
  else .error (.notAbsolute expr)

/-- Locates a path in a text.  `file` and `expr` only serve the messages. -/
def locate (source : String) (path : Path) (file expr : String) : Location :=
  Search.run ⟨path, file, expr⟩ (decodeAll source)

/-- Locates a path in a file; messages call it `expr`. -/
def locateIn (files : FileTree) (file : String) (path : Path) (expr : String) : Location :=
  match files.read file with
  | .error e => .failed (.unreadable file e)
  | .ok source => locate source path file expr

/-- Locates a path in a file; messages show the path as it is usually written. -/
def resolvePath (files : FileTree) (file : String) (path : Path) : Location :=
  locateIn files file path path.render

/-- Locates an expression in a file.  The file is not opened if the expression is at fault. -/
def resolve (files : FileTree) (file expr : String) : Location :=
  match readAbsolute expr with
  | .error e => .failed e
  | .ok path => locateIn files file path expr

end Document
end LintLocator
