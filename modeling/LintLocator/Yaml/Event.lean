import LintLocator.Yaml.Token

/-!
# Events

An event stream is a document in the order of its text: scalars and aliases stand for themselves,
and a collection is what stands between its start and its end.  Anchors have been resolved to
numbers, so an alias names the node it repeats without knowing what it is called.

A node that has been left out is an empty scalar, located where the token stands that showed it to
be missing.
-/

namespace LintLocator
namespace Yaml

/-- What an event says.  An anchored node carries the number of its anchor. -/
inductive EventKind where
  | documentStart
  | documentEnd
  | alias (anchor : Nat)
  | scalar (style : Style) (text : String) (tagged : Bool) (anchor : Option Nat)
  | sequenceStart (anchor : Option Nat)
  | sequenceEnd
  | mappingStart (anchor : Option Nat)
  | mappingEnd
  deriving DecidableEq, Repr, Inhabited

/-- An event and where it stands. -/
structure Event where
  kind : EventKind
  mark : Mark
  deriving DecidableEq, Repr, Inhabited

/-- The events of a text in order.  They are cut off where the text is not YAML. -/
structure EventStream where
  events : List Event
  failed : Bool
  deriving DecidableEq, Repr, Inhabited

end Yaml
end LintLocator
