import LintLocator.Settings.Encoding
import LintLocator.Text.Blank
import LintLocator.Yaml.Classic.Node

/-!
# Settings in YAML

Settings are one document in the older form of YAML.  Whatever is left empty counts as a record
without fields, a list without items or a text without characters, but never as a flag.

A short text must not be able to stand for an enormous one, so there is a limit to how many aliases
are followed: a hundred for each node, the end of a collection being counted like a node.
-/

namespace LintLocator
namespace Settings

open Yaml.Classic (Node Document)

/-- Reading nodes takes jumps to the targets of aliases, of which only so many are left. -/
abbrev Reading := StateT Nat Option

namespace FromYaml

/-- Follows an alias. -/
def resolve (d : Document) : Node → Reading Node
  | .alias id => do
    match ← get with
    | 0 => failure
    | left + 1 =>
      set left
      match d.target? id with
      | some n => pure n
      | none => failure
  | n => pure n

/-- Whether a node has been left empty. -/
def isBlank : Node → Bool
  | .scalar _ .plain _ [] => true
  | _ => false

/-- The text of a scalar, however it is written. -/
def text (d : Document) (n : Node) : Reading String := do
  match ← resolve d n with
  | .scalar _ _ _ s => pure (String.ofList s)
  | _ => failure

/-- The truth value that a word stands for. -/
def truth? (word : String) : Option Bool :=
  if ["true", "True", "TRUE"].contains word then some true
  else if ["false", "False", "FALSE"].contains word then some false
  else none

def flagTag : List Char := "tag:yaml.org,2002:bool".toList

def nothingTag : List Char := "tag:yaml.org,2002:null".toList

/-- A flag is a plain scalar or, with the tag of flags, a literal one. -/
def flag (d : Document) (n : Node) : Reading Bool := do
  match ← resolve d n with
  | .scalar _ style tag s =>
    if style == .plain || (style == .literal && tag == flagTag) then
      StateT.lift (truth? (String.ofList s))
    else failure
  | _ => failure

/-- Whether a word stands for nothing. -/
def isNothing (word : String) : Bool := ["null", "Null", "NULL", "~"].contains word

/-- A text is absent if it is plain and untagged and either empty or a word for nothing.  With the
tag of nothing it has to be such a word. -/
def optionalText (d : Document) (n : Node) : Reading (Option String) := do
  match ← resolve d n with
  | .scalar _ style tag s =>
    let word := String.ofList s
    if style != .plain then pure (some word)
    else if tag.isEmpty then pure (if s.isEmpty || isNothing word then none else some word)
    else if tag != nothingTag then pure (some word)
    else if isNothing word then pure none
    else failure
  | _ => failure

/-- The items of a sequence. -/
def list (d : Document) (n : Node) : Reading (List Node) := do
  let m ← resolve d n
  match m with
  | .sequence _ items => pure items
  | _ => if isBlank m then pure [] else failure

/-- The value of a field among the entries of a mapping.  No field may be given twice. -/
def only (entries : List (String × Node)) (name : String) : Reading (Option (String × Node)) :=
  match entries.filter fun e => e.1 == name with
  | [] => pure none
  | [e] => pure (some e)
  | _ => failure

/-- The fields of a mapping, all of whose keys have to be scalars. -/
def fields (d : Document) (names : List String) (n : Node) : Reading (String → Option Node) := do
  let m ← resolve d n
  match m with
  | .mapping _ entries =>
    let keyed ← entries.mapM fun e => do return (← text d e.1, e.2)
    let known ← names.mapM (only keyed)
    pure fun name => (known.filterMap id).lookup name
  | _ => if isBlank m then pure fun _ => none else failure

/-- How settings are written in YAML. -/
def encoding (d : Document) : Encoding Reading Node where
  fields := fields d
  list := list d
  text := text d
  flag := flag d
  optionalText := optionalText d

mutual

/-- The number of nodes in a node, where the end of a collection is counted too. -/
def size : Node → Nat
  | .scalar .. => 1
  | .alias _ => 1
  | .sequence _ items => 2 + sizeAll items
  | .mapping _ entries => 2 + sizeEntries entries

def sizeAll : List Node → Nat
  | [] => 0
  | n :: ns => size n + sizeAll ns

def sizeEntries : List (Node × Node) → Nat
  | [] => 0
  | (k, v) :: es => size k + size v + sizeEntries es

end

end FromYaml

open FromYaml in
/-- Reads settings in YAML.  Settings without content are the default ones. -/
def ofYaml? (source : String) : Option Settings :=
  if (Text.trim source.toList).isEmpty then some {}
  else
    match Document.read? source.toList with
    | none => none
    | some d =>
      match d.root with
      | none => some {}
      | some root => ((encoding d).settings root).run' (100 * size root)

end Settings
end LintLocator
