import LintLocator.Failure
import LintLocator.FileTree.Place
import LintLocator.Glob.Pattern

/-!
# The files that match a pattern

A pattern is given relative to a folder.  It is searched for from the root of the tree: the path
of the folder is escaped and put before the pattern, and it is taken off the paths that are found.

The search goes through the tree along the parts of the pattern.  A part that stands for one name
only is looked up; it may also be `.` or `..` or empty.  Any other part is compared with the
entries of a folder in their order.  With `.` and `..`, which are no entries, it is compared only
if it begins with a dot, and then they come first.
-/

namespace LintLocator
namespace Glob

/-- The special entries of a folder that a part which begins with a dot may match. -/
def dots (tokens : List Token) : List String :=
  if tokens.head? == some (.char '.') then
    ["..", "."].filter fun s => matchName tokens s.toList
  else []

/-- The places one step below `p` that match tokens. -/
def matching (tokens : List Token) (p : Place) : List Place :=
  match literal? tokens with
  | some text => (p.step? (String.ofList text)).toList
  | none =>
    if p.isFolder then
      (dots tokens).filterMap p.step? ++
        (p.children.filter fun c => matchName tokens c.1.toList).map Prod.snd
    else []

/-- The places that the parts of a pattern lead to from `p`.  Behind `**` the next part is
compared with the name of everything below; as the last part it stands for all folders below. -/
def search : List Part → Place → List Place
  | [], p => [p]
  | .name tokens :: parts, p => (matching tokens p).flatMap (search parts)
  | [.folders], p => (p.below.map Prod.snd).filter Place.isFolder
  | .folders :: part :: parts, p =>
    ((p.below.filter fun c => part.accepts c.1).map Prod.snd).flatMap (search parts)

/-- The text without the slashes at its end. -/
def trimSlashes (s : List Char) : List Char := (s.reverse.dropWhile (· == '/')).reverse

/-- The pattern that is searched for from the root of the tree. -/
def fullPattern (base pattern : String) : List Char :=
  trimSlashes (escape base.toList) ++ '/' :: pattern.toList

/-- Where the search for a pattern starts, and the rest of the pattern. -/
def start (root : FileTree) : List Char → Place × List Char
  | '/' :: r => (⟨"/", [], root⟩, r)
  | s => (⟨"", [], root⟩, s)

/-! ## Relative paths -/

/-- Whether a part of a path does not lead anywhere. -/
def isIdle (part : String) : Bool := part == "" || part == "."

/-- What is left of the parts of a path behind those of a folder. -/
def dropBase? : (base parts : List String) → Option (List String)
  | [], parts => some parts
  | _ :: _, [] => none
  | b :: bs, p :: ps =>
    if isIdle p then dropBase? (b :: bs) ps else if p == b then dropBase? bs ps else none

/-- The parts without the idle ones at either end. -/
def trimIdle (parts : List String) : List String :=
  ((parts.dropWhile isIdle).reverse.dropWhile isIdle).reverse

/-- The path relative to a folder; a path that is not in the folder stays as it is. -/
def relativeTo (base path : String) : String :=
  let folder := (FileTree.pathParts base).filter fun p => !isIdle p
  match dropBase? folder (FileTree.pathParts path) with
  | some parts => Text.joinWith "/" (trimIdle parts)
  | none => path

/-- The files and folders that match a pattern relative to the folder `base`.  A pattern that
ends in a slash matches folders only. -/
def expand (root : FileTree) (base pattern : String) : Except Failure (List String) :=
  let full := fullPattern base pattern
  let origin := start root full
  match readParts? origin.2 with
  | none => .error ⟨[.searching pattern], .malformed .glob⟩
  | some parts =>
    let found := search parts origin.1
    let wanted := if full.getLast? == some '/' then found.filter Place.isFolder else found
    .ok (wanted.map fun p => relativeTo base p.path)

end Glob
end LintLocator
