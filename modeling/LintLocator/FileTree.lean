/-!
# Files and folders

The files that a run can see, as a value: a file holds bytes and a folder holds named entries.
The entries of a folder are kept in the order of their names, each name once, so a tree says
nothing about the order in which its files were written.
-/

namespace LintLocator

/-- A file with its bytes, or a folder with its entries. -/
inductive FileTree where
  | file (contents : List UInt8)
  | folder (entries : List (String × FileTree))
  deriving Inhabited

namespace FileTree

/-- A folder without entries. -/
def empty : FileTree := .folder []

/-- The entries of a folder; a file has none. -/
def entries : FileTree → List (String × FileTree)
  | .file _ => []
  | .folder entries => entries

def isFolder : FileTree → Bool
  | .file _ => false
  | .folder _ => true

/-- The entry with a name. -/
def child? (t : FileTree) (name : String) : Option FileTree :=
  (t.entries.find? fun e => e.1 == name).map Prod.snd

/-- Puts an entry in its place among others, instead of an entry with the same name. -/
def insertEntry (name : String) (t : FileTree) :
    List (String × FileTree) → List (String × FileTree)
  | [] => [(name, t)]
  | e :: es =>
    if name < e.1 then (name, t) :: e :: es
    else if name == e.1 then (name, t) :: es
    else e :: insertEntry name t es

/-- Puts something in the place that a list of names leads to; folders on the way are made. -/
def put : (base : FileTree) → (names : List String) → (t : FileTree) → FileTree
  | _, [], t => t
  | base, name :: names, t =>
    .folder (insertEntry name (put ((base.child? name).getD empty) names t) base.entries)

/-- Takes away what a list of names leads to. -/
def remove : (names : List String) → FileTree → FileTree
  | [], t => t
  | [name], t => .folder (t.entries.filter fun e => e.1 != name)
  | name :: next :: names, t =>
    match t.child? name with
    | some u => .folder (insertEntry name (remove (next :: names) u) t.entries)
    | none => t

/-- What a list of names leads to. -/
def find? : (names : List String) → FileTree → Option FileTree
  | [], t => some t
  | name :: names, t => (t.child? name).bind (find? names)

/-- Makes sure that there is a folder; what it holds already is kept. -/
def makeFolder (names : List String) (t : FileTree) : FileTree :=
  t.put names ((t.find? names).getD empty)

end FileTree
end LintLocator
