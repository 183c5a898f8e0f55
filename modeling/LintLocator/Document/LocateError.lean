import LintLocator.FileTree.Reading
import LintLocator.Path.LookupError
import LintLocator.Path.SyntaxError

/-!
# Why a node was not located

An expression can be at fault, the file can be at fault, or the two may just not fit.  Only the
last of these is a failed navigation; it carries the look-up error of the last document tried.
-/

namespace LintLocator

/-- Why an expression has no position in a file. -/
inductive LocateError where
  /-- The expression does not start at the root of the document. -/
  | notAbsolute (expr : String)
  | badExpression (expr : String) (inner : SyntaxError)
  | unreadable (file : String) (inner : ReadError)
  /-- The file is not YAML. -/
  | malformed (file : String)
  /-- The document with the number `document`, counted from 0, is not a mapping. -/
  | notAMapping (file : String) (document : Nat) (found : Kind)
  | unreachable (file expr : String) (inner : LookupError)
  /-- The file has no document that holds anything. -/
  | nothingThere (file expr : String)

namespace LocateError

/-- The message for people. -/
def message : LocateError → String
  | .notAbsolute expr => "expression must start with $, but got: `" ++ expr ++ "`"
  | .badExpression expr inner => "parsing jsonpath `" ++ expr ++ "`: " ++ inner.message
  | .unreadable file inner => "opening file " ++ file ++ ": " ++ inner.message
  | .malformed file => "decoding yaml from " ++ file ++ ": <scan>"
  | .notAMapping file document found =>
    "document " ++ toString document ++ " of " ++ file ++
      ": the top-level node must be a mapping, got " ++ found.name
  | .unreachable file expr inner =>
    "getting line and column numbers from " ++ file ++ ": getting node at " ++ expr ++ ": " ++
      inner.message
  | .nothingThere file expr =>
    "getting line and column numbers from " ++ file ++ ": no value found at " ++ expr

/-- Whether a well-formed expression did not fit the contents of the file. -/
def isNavigation : LocateError → Bool
  | .unreachable .. => true
  | _ => false

end LocateError
end LintLocator
