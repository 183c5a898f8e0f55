import LintLocator.Position

/-!
# Documents as trees

A document that has been read is a tree whose every node remembers where it starts in the text.
Scalars keep their text and nothing else: `true`, `1` and a quoted `"1"` are all just text, since
the linters speak about documents in their written form and a type would have to be guessed.

Mappings keep all their entries in the order in which they are written, repeated keys included,
and a key may be any node.  Looking a key up compares texts, and the first entry wins.
-/

namespace LintLocator

/-- A node of a document with the position at which it starts. -/
inductive Tree where
  | scalar (text : String) (pos : Position)
  | sequence (items : List Tree) (pos : Position)
  | mapping (entries : List (Tree × Tree)) (pos : Position)
  deriving Inhabited

/-- What a node is, apart from what it holds. -/
inductive Kind where
  | scalar
  | sequence
  | mapping
  deriving DecidableEq, Repr, Inhabited

/-- The name under which messages speak of a kind. -/
def Kind.name : Kind → String
  | .scalar => "scalar"
  | .sequence => "sequence"
  | .mapping => "mapping"

namespace Tree

def kind : Tree → Kind
  | .scalar .. => .scalar
  | .sequence .. => .sequence
  | .mapping .. => .mapping

def pos : Tree → Position
  | .scalar _ p => p
  | .sequence _ p => p
  | .mapping _ p => p

/-- The text of a scalar; a container has the empty text. -/
def text : Tree → String
  | .scalar t _ => t
  | _ => ""

/-- The number of items or entries; a scalar has none. -/
def size : Tree → Nat
  | .scalar .. => 0
  | .sequence items _ => items.length
  | .mapping entries _ => entries.length

/-- Whether the node is a scalar that says "nothing here", as the root of an empty document
does. -/
def isNull : Tree → Bool
  | .scalar t _ => t == "~" || t == "null" || t == ""
  | _ => false

/-- The value of the first entry whose key has the text `key`. -/
def entry? (key : String) (entries : List (Tree × Tree)) : Option Tree :=
  (entries.find? fun e => e.1.text == key).map Prod.snd

/-- Looks a key up in a mapping; other nodes have no keys. -/
def get? (t : Tree) (key : String) : Option Tree :=
  match t with
  | .mapping entries _ => entry? key entries
  | _ => none

/-- Looks up one key after the other, each in what the last one led to. -/
def getAll? (t : Tree) : List String → Option Tree
  | [] => some t
  | key :: keys => (t.get? key).bind fun u => u.getAll? keys

@[simp] theorem text_scalar (s : String) (p : Position) : (scalar s p).text = s := rfl

@[simp] theorem text_sequence (items : List Tree) (p : Position) : (sequence items p).text = "" :=
  rfl

@[simp] theorem text_mapping (entries : List (Tree × Tree)) (p : Position) :
    (mapping entries p).text = "" := rfl

end Tree
end LintLocator
