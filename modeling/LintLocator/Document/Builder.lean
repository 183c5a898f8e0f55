import LintLocator.Document.Dash
import LintLocator.Tree
import LintLocator.Yaml.Event

/-!
# From events to a tree

The events of a document are read by a machine whose stack holds the containers that are still
open.  A container is finished when its end comes; then it becomes a node of the container around
it, or the document itself.

An alias repeats the node that its anchor names, positions included.  Inside the container that is
anchored there is no such node yet, and an alias to it is an empty scalar.

The start event of a block collection does not say where the collection starts: it stands at or
behind the first child.  A flow collection starts at its bracket, before the first child.  This is
how the two are told apart.
-/

namespace LintLocator
namespace Document

open Yaml (Event EventKind Mark)

/-- A container that is still open, with what it holds so far, the last of it first. -/
inductive Frame where
  | sequence (anchor : Option Nat) (pos : Position) (items : List Tree)
  | mapping (anchor : Option Nat) (pos : Position) (entries : List (Tree × Tree))
      (key : Option Tree)
  deriving Inhabited

/-- A document part way through. -/
structure Builder where
  /-- The open containers, the innermost one first. -/
  stack : List Frame
  /-- The finished nodes that have an anchor, the last one first. -/
  anchors : List (Nat × Tree)
  document : Option Tree
  deriving Inhabited

/-- The position of a mark, whose columns count from 0. -/
def positionOf (m : Mark) : Position := ⟨m.line, m.col + 1⟩

/-- Whether the start of a collection precedes its first child, as a bracket does. -/
def isFlow (start : Position) (first : Tree) : Bool := start.before first.pos

namespace Builder

def empty : Builder := ⟨[], [], none⟩

/-- Notes a node under its anchor. -/
def remember (b : Builder) (anchor : Option Nat) (t : Tree) : Builder :=
  match anchor with
  | some id => { b with anchors := (id, t) :: b.anchors }
  | none => b

/-- Adds a finished node to the innermost open container.  In a mapping, keys and values take
turns. -/
def push (b : Builder) (t : Tree) : Builder :=
  match b.stack with
  | [] => { b with document := some t }
  | .sequence anchor pos items :: outer =>
    { b with stack := .sequence anchor pos (t :: items) :: outer }
  | .mapping anchor pos entries none :: outer =>
    { b with stack := .mapping anchor pos entries (some t) :: outer }
  | .mapping anchor pos entries (some key) :: outer =>
    { b with stack := .mapping anchor pos ((key, t) :: entries) none :: outer }

/-- A sequence with its items in order, located at its bracket or at its first dash. -/
def sequenceOf (lines : List (List Char)) (start : Position) (items : List Tree) : Tree :=
  match items with
  | [] => .sequence [] start
  | first :: _ =>
    .sequence items (if isFlow start first then start else dashBefore lines first.pos)

/-- A mapping with its entries in order, located at its bracket or at its first key. -/
def mappingOf (start : Position) (entries : List (Tree × Tree)) : Tree :=
  match entries with
  | [] => .mapping [] start
  | (key, _) :: _ => .mapping entries (if isFlow start key then start else key.pos)

/-- Finishes the innermost open container. -/
def close (lines : List (List Char)) (b : Builder) : Builder :=
  match b.stack with
  | [] => b
  | .sequence anchor pos items :: outer =>
    let t := sequenceOf lines pos items.reverse
    ({ b with stack := outer }.remember anchor t).push t
  | .mapping anchor pos entries _ :: outer =>
    let t := mappingOf pos entries.reverse
    ({ b with stack := outer }.remember anchor t).push t

/-- Takes one event. -/
def step (lines : List (List Char)) (b : Builder) (e : Event) : Builder :=
  let pos := positionOf e.mark
  match e.kind with
  | .scalar _ text _ anchor =>
    let t := Tree.scalar text pos
    (b.remember anchor t).push t
  | .alias id => b.push ((b.anchors.lookup id).getD (.scalar "" pos))
  | .sequenceStart anchor => { b with stack := .sequence anchor pos [] :: b.stack }
  | .mappingStart anchor => { b with stack := .mapping anchor pos [] none :: b.stack }
  | .sequenceEnd => b.close lines
  | .mappingEnd => b.close lines
  | .documentStart => b
  | .documentEnd => b

/-- Takes events one after the other. -/
def run (lines : List (List Char)) (b : Builder) (events : List Event) : Builder :=
  events.foldl (step lines) b

end Builder
end Document
end LintLocator
