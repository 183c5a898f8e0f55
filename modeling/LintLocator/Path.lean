import LintLocator.Text.Split

/-!
# Paths and conditions

A path says how to get from a node to one of its descendants, step by step.  Conditions choose an
item of a sequence by what paths find below it, so the two are defined together: a step may hold a
condition, and a condition compares the texts at the ends of paths.

Both have one written form, given by `render`.  It need not be the text they were read from: a
predicate has two spellings, of which the first is written, and blanks around a clause are lost.
-/

namespace LintLocator

/-- The mark that a path starts with.  Both marks stand for the node that the path is applied to,
so inside a predicate `$` is the item under test and not the whole document. -/
inductive Root where
  | absolute
  | current
  deriving DecidableEq, Repr, Inhabited

/-- The character that marks the start of a path. -/
def Root.mark : Root → Char
  | .absolute => '$'
  | .current => '@'

mutual

/-- One step of a path. -/
inductive Selector where
  /-- The value of a mapping's key, or the item of a sequence when the name is a number. -/
  | property (name : String)
  /-- The item of a sequence at a place counted from 0. -/
  | index (place : Nat)
  /-- The first item of a sequence that meets a condition. -/
  | predicate (condition : Condition)

/-- A condition on a node. -/
inductive Condition where
  /-- Some member holds. -/
  | any (members : List Condition)
  /-- All members hold. -/
  | all (members : List Condition)
  /-- The path leads to a node with the text `literal`; `source` is the clause as written. -/
  | equals (path : Path) (literal source : String)

/-- A chain of steps behind a root mark. -/
structure Path where
  root : Root
  selectors : List Selector

end

mutual

/-- The written form of a condition. -/
def Condition.render : Condition → String
  | .any members => Text.joinWith " || " (Condition.renderAll members)
  | .all members => Text.joinWith " && " (Condition.renderAll members)
  | .equals _ _ source => source

/-- The written forms of several conditions. -/
def Condition.renderAll : List Condition → List String
  | [] => []
  | c :: cs => c.render :: Condition.renderAll cs

end

/-- The written form of a step. -/
def Selector.render : Selector → String
  | .property name => "." ++ name
  | .index place => "[" ++ toString place ++ "]"
  | .predicate condition => "[?(" ++ condition.render ++ ")]"

/-- The written form of a path. -/
def Path.render (p : Path) : String :=
  p.root.mark.toString ++ String.join (p.selectors.map Selector.render)

theorem Condition.renderAll_eq_map (cs : List Condition) :
    Condition.renderAll cs = cs.map Condition.render := by
  induction cs with
  | nil => rfl
  | cons c cs ih => simp [Condition.renderAll, ih]

theorem Condition.render_any (members : List Condition) :
    (Condition.any members).render = Text.joinWith " || " (members.map Condition.render) :=
  congrArg (Text.joinWith " || ") (renderAll_eq_map members)

theorem Condition.render_all (members : List Condition) :
    (Condition.all members).render = Text.joinWith " && " (members.map Condition.render) :=
  congrArg (Text.joinWith " && ") (renderAll_eq_map members)

theorem Condition.render_equals (path : Path) (literal source : String) :
    (Condition.equals path literal source).render = source := rfl

theorem Selector.render_property (name : String) :
    (Selector.property name).render = "." ++ name := rfl

theorem Selector.render_index (place : Nat) :
    (Selector.index place).render = "[" ++ toString place ++ "]" := rfl

theorem Selector.render_predicate (c : Condition) :
    (Selector.predicate c).render = "[?(" ++ c.render ++ ")]" := rfl

end LintLocator
