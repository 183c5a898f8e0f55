import LintLocator.FileTree.Reading

/-!
# Places in a tree of files

A place is something in a tree together with the path by which it was reached and the folders
around it.  The path is kept as it was spelled, so that `a/./b` and `a/b` are two places although
they are the same file.
-/

namespace LintLocator

/-- Something in a tree, as reached by a path. -/
structure Place where
  path : String
  /-- The folders around it, the nearest first. -/
  above : List FileTree
  here : FileTree
  deriving Inhabited

namespace Place

def isFolder (p : Place) : Bool := p.here.isFolder

/-- Goes one part of a path further; only folders lead anywhere. -/
def step? (p : Place) (part : String) : Option Place :=
  if !p.isFolder then none
  else if part == "" || part == "." then some ⟨FileTree.joinPath p.path part, p.above, p.here⟩
  else if part == ".." then
    match p.above with
    | [] => some ⟨FileTree.joinPath p.path part, [], p.here⟩
    | up :: further => some ⟨FileTree.joinPath p.path part, further, up⟩
  else
    (p.here.child? part).map fun t => ⟨FileTree.joinPath p.path part, p.here :: p.above, t⟩

/-- The entries of the folder under their names. -/
def children (p : Place) : List (String × Place) :=
  p.here.entries.map fun e => (e.1, ⟨FileTree.joinPath p.path e.1, p.here :: p.above, e.2⟩)

mutual

/-- Everything below a tree that has the path `path`. -/
def belowTree (path : String) (above : List FileTree) : FileTree → List (String × Place)
  | .file _ => []
  | .folder entries => belowEntries path (.folder entries :: above) entries

/-- The entries of the folder with the path `path`, each followed by everything below it. -/
def belowEntries (path : String) (above : List FileTree) :
    List (String × FileTree) → List (String × Place)
  | [] => []
  | (name, t) :: es =>
    let inner := FileTree.joinPath path name
    (name, ⟨inner, above, t⟩) :: belowTree inner above t ++ belowEntries path above es

end

/-- Everything below a place, under its name, each folder before what is in it. -/
def below (p : Place) : List (String × Place) := belowTree p.path p.above p.here

end Place
end LintLocator
