import LintLocator.Path.LookupError
import LintLocator.Text.Decimal

/-!
# Following a path through a tree

Every step consumes the node that the step before it reached.  A predicate tries the items of a
sequence in order and stops at the first one that meets its condition, or at the first on which
the condition cannot be decided.

Conditions are eager: a group looks at all its members even when the first of them has settled
the outcome, because a member that cannot be decided is an error and no error is to be hidden.
Only an error stops a group early.
-/

namespace LintLocator

namespace Selector

/-- The item at a place, or the cause that there is none. -/
def item (items : List Tree) (place : Nat) : Except LookupError.Cause Tree :=
  match items[place]? with
  | some t => .ok t
  | none => .error (.indexOutOfRange place items.length)

/-- The items of a sequence. -/
def itemsOf : Tree → Except LookupError.Cause (List Tree)
  | .sequence items _ => .ok items
  | t => .error (.expectedSequence t.kind)

/-- The child with a name: a mapping's value, or the item of a sequence that the name counts. -/
def child (name : String) : Tree → Except LookupError.Cause Tree
  | .mapping entries _ =>
    match Tree.entry? name entries with
    | some t => .ok t
    | none => .error (.noChild name)
  | .sequence items _ =>
    match Decimal.index? name.toList with
    | some place => item items place
    | none => .error (.notAnIndex name)
  | .scalar .. => .error (.expectedContainer .scalar)

/-- The first of the items, the first of which has the place `place`, on which `holds` is true.
An item on which `holds` fails ends the search. -/
def firstMatch (condition : String) (holds : Tree → Except LookupError Bool) :
    (place : Nat) → List Tree → Except LookupError.Cause Tree
  | _, [] => .error (.noMatch condition)
  | place, t :: ts =>
    match holds t with
    | .error e => .error (.predicate place e)
    | .ok true => .ok t
    | .ok false => firstMatch condition holds (place + 1) ts

section

variable (condition : String) (holds : Tree → Except LookupError Bool) (place : Nat)

theorem firstMatch_nil : firstMatch condition holds place [] = .error (.noMatch condition) := rfl

theorem firstMatch_cons (t : Tree) (ts : List Tree) :
    firstMatch condition holds place (t :: ts) =
      match holds t with
      | .error e => .error (.predicate place e)
      | .ok true => .ok t
      | .ok false => firstMatch condition holds (place + 1) ts := rfl

end

end Selector

mutual

/-- Applies one step to a node. -/
def Selector.apply : Selector → Tree → Except LookupError.Cause Tree
  | .property name, t => Selector.child name t
  | .index place, t =>
    match Selector.itemsOf t with
    | .error e => .error e
    | .ok items => Selector.item items place
  | .predicate condition, t =>
    match Selector.itemsOf t with
    | .error e => .error e
    | .ok items => Selector.firstMatch condition.render (fun u => condition.holds u) 0 items

/-- Applies steps one after the other, where the first of them has the number `step`. -/
def Selector.applyAll : List Selector → (step : Nat) → Tree → Except LookupError Tree
  | [], _, t => .ok t
  | s :: ss, step, t =>
    match s.apply t with
    | .error cause => .error ⟨step, s.render, t.pos, cause⟩
    | .ok u => Selector.applyAll ss (step + 1) u

/-- Follows a path from a node. -/
def Path.lookup : Path → Tree → Except LookupError Tree
  | ⟨_, selectors⟩, t => Selector.applyAll selectors 0 t

/-- Decides a condition on a node. -/
def Condition.holds : Condition → Tree → Except LookupError Bool
  | .any members, t =>
    match Condition.holdsEach members t with
    | .error e => .error e
    | .ok bs => .ok (bs.any id)
  | .all members, t =>
    match Condition.holdsEach members t with
    | .error e => .error e
    | .ok bs => .ok (bs.all id)
  | .equals path literal _, t =>
    match path.lookup t with
    | .error e => .error e
    | .ok u => .ok (u.text == literal)

/-- Decides several conditions on a node, from the left, until one of them fails. -/
def Condition.holdsEach : List Condition → Tree → Except LookupError (List Bool)
  | [], _ => .ok []
  | c :: cs, t =>
    match c.holds t with
    | .error e => .error e
    | .ok b =>
      match Condition.holdsEach cs t with
      | .error e => .error e
      | .ok bs => .ok (b :: bs)

end

/-! ## The equations

One for each kind of step and of condition. -/

namespace Selector

theorem apply_property (name : String) (t : Tree) : (property name).apply t = child name t := rfl

theorem apply_index (place : Nat) (t : Tree) :
    (index place).apply t =
      match itemsOf t with
      | .error e => .error e
      | .ok items => item items place := rfl

theorem apply_predicate (condition : Condition) (t : Tree) :
    (predicate condition).apply t =
      match itemsOf t with
      | .error e => .error e
      | .ok items => firstMatch condition.render (fun u => condition.holds u) 0 items := rfl

theorem applyAll_nil (step : Nat) (t : Tree) : applyAll [] step t = .ok t := rfl

theorem applyAll_cons (s : Selector) (ss : List Selector) (step : Nat) (t : Tree) :
    applyAll (s :: ss) step t =
      match s.apply t with
      | .error cause => .error ⟨step, s.render, t.pos, cause⟩
      | .ok u => applyAll ss (step + 1) u := rfl

end Selector

theorem Path.lookup_eq (p : Path) (t : Tree) : p.lookup t = Selector.applyAll p.selectors 0 t := by
  cases p
  rfl

namespace Condition

theorem holds_any (members : List Condition) (t : Tree) :
    (any members).holds t =
      match holdsEach members t with
      | .error e => .error e
      | .ok bs => .ok (bs.any id) := rfl

theorem holds_all (members : List Condition) (t : Tree) :
    (all members).holds t =
      match holdsEach members t with
      | .error e => .error e
      | .ok bs => .ok (bs.all id) := rfl

theorem holds_equals (path : Path) (literal source : String) (t : Tree) :
    (equals path literal source).holds t =
      match path.lookup t with
      | .error e => .error e
      | .ok u => .ok (u.text == literal) := rfl

theorem holdsEach_nil (t : Tree) : holdsEach [] t = .ok [] := rfl

theorem holdsEach_cons (c : Condition) (cs : List Condition) (t : Tree) :
    holdsEach (c :: cs) t =
      match c.holds t with
      | .error e => .error e
      | .ok b =>
        match holdsEach cs t with
        | .error e => .error e
        | .ok bs => .ok (b :: bs) := rfl

end Condition

end LintLocator
