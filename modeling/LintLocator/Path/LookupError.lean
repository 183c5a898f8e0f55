import LintLocator.Path
import LintLocator.Tree

/-!
# Why a path leads nowhere

A failed look-up names the step that failed, counted from 0, the step as written, the position of
the node it was applied to, and one cause.  A predicate that cannot be decided on an item carries
the look-up error of the condition's own path, so the two types are defined together.
-/

namespace LintLocator

mutual

/-- Why a step could not be applied to a node. -/
inductive LookupError.Cause where
  | noChild (name : String)
  | notAnIndex (name : String)
  | indexOutOfRange (index size : Nat)
  | expectedContainer (found : Kind)
  | expectedSequence (found : Kind)
  /-- The condition failed on the item at the place `element`. -/
  | predicate (element : Nat) (inner : LookupError)
  | noMatch (condition : String)

/-- The step that failed, where, and why. -/
structure LookupError where
  step : Nat
  selector : String
  position : Position
  cause : LookupError.Cause

end

namespace LookupError

mutual

/-- The message for people. -/
def message : LookupError → String
  | ⟨step, selector, position, cause⟩ =>
    "evaluating `" ++ selector ++ "` at step " ++ toString step ++ " (node at " ++
      position.render ++ "): " ++ causeMessage cause

/-- The part of the message that tells the cause. -/
def causeMessage : LookupError.Cause → String
  | .noChild name => "mapping does not have child named `" ++ name ++ "`"
  | .notAnIndex name =>
    "converting `" ++ name ++ "` to a sequence index: not a non-negative integer"
  | .indexOutOfRange index size =>
    "index out of range: index = " ++ toString index ++ ", len = " ++ toString size
  | .expectedContainer found => "expected mapping or sequence node, got " ++ found.name
  | .expectedSequence found => "expected sequence node, got " ++ found.name
  | .predicate element inner =>
    "reading element " ++ toString element ++ " in sequence: " ++ message inner
  | .noMatch condition => "no sequence element matching `" ++ condition ++ "` found"

end

end LookupError
end LintLocator
