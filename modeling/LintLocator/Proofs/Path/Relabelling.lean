import LintLocator.Proofs.Document.Denotation
import LintLocator.Proofs.Path.Rules

/-!
# Look-ups and positions

The nodes of a tree carry positions, and a look-up hands positions on: in the node that it leads to
and in the errors that it ends with.  It never looks at one.  So a look-up commutes with any change
of the positions in a tree, be it one that puts all nodes into one place.

Nodes have no identity but their content, their position and their address in the tree.  As the
positions are arbitrary, every node may have one that no other node has, and then what is said of the
node that a path leads to is said of that node and not of one that looks like it.

* `Tree.relabel`, `LookupError.relabel`: trees and errors with other positions;
* `Selector.firstMatch_relabelItems`, `Selector.applyAll_relabel`, `Condition.holdsEach_relabel`:
  searches, rows of steps and rows of conditions, given that their members ignore positions;
* `Selector.ignorePositions`: all steps and all conditions do;
* `Selector.exists_address_of_applyAll`: steps lead to a node of the tree;
* `Path.lookup_relabel`: look-ups ignore positions.
-/

namespace LintLocator

/-! ## Other positions -/

namespace Tree

mutual

/-- The same tree, in which `f` has been applied to the position of every node. -/
def relabel (f : Position → Position) : Tree → Tree
  | .scalar text p => .scalar text (f p)
  | .sequence items p => .sequence (relabelItems f items) (f p)
  | .mapping entries p => .mapping (relabelEntries f entries) (f p)

/-- The same items with other positions. -/
def relabelItems (f : Position → Position) : List Tree → List Tree
  | [] => []
  | t :: ts => t.relabel f :: relabelItems f ts

/-- The same entries with other positions. -/
def relabelEntries (f : Position → Position) : List (Tree × Tree) → List (Tree × Tree)
  | [] => []
  | (key, value) :: es => (key.relabel f, value.relabel f) :: relabelEntries f es

end

section

variable (f : Position → Position)

@[simp] theorem pos_relabel (t : Tree) : (t.relabel f).pos = f t.pos := by
  cases t <;> rfl

@[simp] theorem text_relabel (t : Tree) : (t.relabel f).text = t.text := by
  cases t <;> rfl

theorem relabelItems_eq_map (items : List Tree) :
    relabelItems f items = items.map (relabel f) := by
  induction items with
  | nil => rfl
  | cons t ts ih => rw [relabelItems, ih, List.map_cons]

theorem relabelEntries_eq_map (entries : List (Tree × Tree)) :
    relabelEntries f entries = entries.map fun e => (e.1.relabel f, e.2.relabel f) := by
  induction entries with
  | nil => rfl
  | cons e es ih => rw [relabelEntries, ih, List.map_cons]

theorem length_relabelItems (items : List Tree) :
    (relabelItems f items).length = items.length := by
  rw [relabelItems_eq_map, List.length_map]

theorem getElem?_relabelItems (items : List Tree) (place : Nat) :
    (relabelItems f items)[place]? = items[place]?.map (relabel f) := by
  rw [relabelItems_eq_map, List.getElem?_map]

/-- The entry with a key is the same one, for keys are compared by their texts. -/
theorem entry?_relabelEntries (name : String) (entries : List (Tree × Tree)) :
    Tree.entry? name (relabelEntries f entries) = (Tree.entry? name entries).map (relabel f) := by
  rw [Tree.entry?, Tree.entry?, relabelEntries_eq_map, List.find?_map, Option.map_map,
    Option.map_map]
  simp only [Function.comp_def, text_relabel]

theorem children_relabel (t : Tree) : (t.relabel f).children = t.children.map (relabel f) := by
  cases t with
  | scalar => rfl
  | sequence items => rw [relabel, children, children, relabelItems_eq_map]
  | mapping entries =>
    rw [relabel, children, children, relabelEntries_eq_map, List.flatMap_map, List.map_flatMap]
    rfl

/-- The same nodes stand at the same addresses. -/
theorem at?_relabel (t : Tree) (address : List Nat) :
    (t.relabel f).at? address = (t.at? address).map (relabel f) := by
  induction address generalizing t with
  | nil => rfl
  | cons i address ih =>
    rw [at?, at?, children_relabel, List.getElem?_map]
    cases t.children[i]? with
    | none => rfl
    | some u => exact ih u

end

end Tree

namespace LookupError

mutual

/-- The same error, in which `f` has been applied to its position and to those of the errors inside
of it. -/
def relabel (f : Position → Position) : LookupError → LookupError
  | ⟨step, selector, position, cause⟩ => ⟨step, selector, f position, relabelCause f cause⟩

/-- The same cause, in which `f` has been applied to the positions of the error inside of it.  Only
a predicate has one. -/
def relabelCause (f : Position → Position) : Cause → Cause
  | .predicate element inner => .predicate element (inner.relabel f)
  | cause => cause

end

end LookupError

open LookupError (relabelCause)

/-! ## What ignores positions -/

/-- With other positions in the tree a step chooses the same child, or it fails for the same
cause. -/
def Selector.IgnoresPositions (s : Selector) : Prop :=
  ∀ (f : Position → Position) (t : Tree),
    s.apply (t.relabel f) = ((s.apply t).map (Tree.relabel f)).mapError (relabelCause f)

/-- With other positions in the tree a condition is the same, or it cannot be decided for the same
reason. -/
def Condition.IgnoresPositions (c : Condition) : Prop :=
  ∀ (f : Position → Position) (t : Tree),
    c.holds (t.relabel f) = (c.holds t).mapError (LookupError.relabel f)

namespace Selector

variable (f : Position → Position)

/-! ## Plain steps -/

theorem item_relabelItems (items : List Tree) (place : Nat) :
    item (Tree.relabelItems f items) place =
      ((item items place).map (Tree.relabel f)).mapError (relabelCause f) := by
  rw [item, item, Tree.getElem?_relabelItems, Tree.length_relabelItems]
  cases items[place]? <;> rfl

theorem itemsOf_relabel (t : Tree) :
    itemsOf (t.relabel f) =
      ((itemsOf t).map (Tree.relabelItems f)).mapError (relabelCause f) := by
  cases t <;> rfl

theorem child_relabel (name : String) (t : Tree) :
    child name (t.relabel f) =
      ((child name t).map (Tree.relabel f)).mapError (relabelCause f) := by
  cases t with
  | scalar => rfl
  | mapping entries =>
    rw [Tree.relabel, child, child, Tree.entry?_relabelEntries]
    cases Tree.entry? name entries <;> rfl
  | sequence items =>
    rw [Tree.relabel, child, child]
    cases Decimal.index? name.toList with
    | none => rfl
    | some place => exact item_relabelItems f items place

/-! ## Searches, rows of steps and rows of conditions -/

variable {f}

/-- A search tries the same items, and stops at the same one. -/
theorem firstMatch_relabelItems {condition : String} {holds : Tree → Except LookupError Bool}
    (h : ∀ t, holds (t.relabel f) = (holds t).mapError (LookupError.relabel f)) (place : Nat)
    (items : List Tree) :
    firstMatch condition holds place (Tree.relabelItems f items) =
      ((firstMatch condition holds place items).map (Tree.relabel f)).mapError
        (relabelCause f) := by
  induction items generalizing place with
  | nil => rfl
  | cons t ts ih =>
    rw [Tree.relabelItems, firstMatch_cons, firstMatch_cons, h]
    cases holds t with
    | error e => rfl
    | ok b =>
      cases b with
      | true => rfl
      | false => exact ih (place + 1)

/-- Steps that ignore positions lead to the same node, or the same one of them fails. -/
theorem applyAll_relabel {ss : List Selector} (hss : ∀ s ∈ ss, s.IgnoresPositions) (step : Nat)
    (t : Tree) :
    applyAll ss step (t.relabel f) =
      ((applyAll ss step t).map (Tree.relabel f)).mapError (LookupError.relabel f) := by
  induction ss generalizing step t with
  | nil => rfl
  | cons s ss ih =>
    obtain ⟨hs, hss⟩ := List.forall_mem_cons.mp hss
    rw [applyAll_cons, applyAll_cons, hs, Tree.pos_relabel]
    cases s.apply t with
    | error cause => rfl
    | ok u => exact ih hss (step + 1) u

end Selector

/-- Conditions that ignore positions come to the same, or the same one of them cannot be
decided. -/
theorem Condition.holdsEach_relabel {f : Position → Position} {cs : List Condition}
    (hcs : ∀ c ∈ cs, c.IgnoresPositions) (t : Tree) :
    holdsEach cs (t.relabel f) = (holdsEach cs t).mapError (LookupError.relabel f) := by
  induction cs with
  | nil => rfl
  | cons c cs ih =>
    obtain ⟨hc, hcs⟩ := List.forall_mem_cons.mp hcs
    rw [holdsEach_cons, holdsEach_cons, hc, ih hcs]
    cases c.holds t with
    | error e => rfl
    | ok b => cases holdsEach cs t <;> rfl

/-! ## All steps and all conditions -/

namespace Selector

theorem property_ignoresPositions (name : String) : (property name).IgnoresPositions := by
  intro f t
  rw [apply_property, apply_property]
  exact child_relabel f name t

theorem index_ignoresPositions (place : Nat) : (index place).IgnoresPositions := by
  intro f t
  rw [apply_index, apply_index, itemsOf_relabel]
  cases itemsOf t with
  | error cause => rfl
  | ok items => exact item_relabelItems f items place

theorem predicate_ignoresPositions {c : Condition} (hc : c.IgnoresPositions) :
    (predicate c).IgnoresPositions := by
  intro f t
  rw [apply_predicate, apply_predicate, itemsOf_relabel]
  cases itemsOf t with
  | error cause => rfl
  | ok items => exact firstMatch_relabelItems (hc f) 0 items

end Selector

namespace Condition

theorem any_ignoresPositions {members : List Condition}
    (h : ∀ c ∈ members, c.IgnoresPositions) : (any members).IgnoresPositions := by
  intro f t
  rw [holds_any, holds_any, holdsEach_relabel h]
  cases holdsEach members t <;> rfl

theorem all_ignoresPositions {members : List Condition}
    (h : ∀ c ∈ members, c.IgnoresPositions) : (all members).IgnoresPositions := by
  intro f t
  rw [holds_all, holds_all, holdsEach_relabel h]
  cases holdsEach members t <;> rfl

/-- A comparison looks at the text of the node that its path leads to. -/
theorem equals_ignoresPositions {path : Path} (literal source : String)
    (h : ∀ s ∈ path.selectors, s.IgnoresPositions) :
    (equals path literal source).IgnoresPositions := by
  intro f t
  rw [holds_equals, holds_equals, Path.lookup_eq, Path.lookup_eq, Selector.applyAll_relabel h]
  cases Selector.applyAll path.selectors 0 t with
  | error e => rfl
  | ok u => exact congrArg (fun text => Except.ok (text == literal)) (Tree.text_relabel f u)

end Condition

/-- Steps and conditions ignore positions, since those inside of them do. -/
theorem Selector.ignorePositions :
    (∀ s : Selector, s.IgnoresPositions) ∧ ∀ c : Condition, c.IgnoresPositions :=
  Selector.induction property_ignoresPositions index_ignoresPositions
    (fun _ => predicate_ignoresPositions) (fun _ => Condition.any_ignoresPositions)
    (fun _ => Condition.all_ignoresPositions)
    fun _ literal source => Condition.equals_ignoresPositions literal source

/-! ## Look-ups -/

/-- A step chooses a child. -/
theorem Selector.mem_children_of_apply {s : Selector} {t u : Tree} (h : s.apply t = .ok u) :
    u ∈ t.children := by
  have hchooses : s.Chooses t u := (s.exact t).ok_iff.mp h
  cases hchooses with
  | value others text => simp [Tree.children]
  | counted counts item => exact List.mem_of_getElem? item
  | item item => exact List.mem_of_getElem? item
  | first missed meets => simp [Tree.children]

/-- Steps lead to a node of the tree. -/
theorem Selector.exists_address_of_applyAll {ss : List Selector} {step : Nat} {t u : Tree}
    (h : applyAll ss step t = .ok u) : ∃ address, t.at? address = some u := by
  induction ss generalizing step t with
  | nil =>
    rw [applyAll_nil] at h
    exact ⟨[], congrArg some (Except.ok.inj h)⟩
  | cons s ss ih =>
    rw [applyAll_cons] at h
    cases hstep : s.apply t with
    | error cause =>
      rw [hstep] at h
      cases h
    | ok v =>
      rw [hstep] at h
      obtain ⟨i, hi⟩ := List.mem_iff_getElem?.mp (mem_children_of_apply hstep)
      obtain ⟨address, haddress⟩ := ih h
      refine ⟨i :: address, ?_⟩
      rw [Tree.at?, hi]
      exact haddress

/-- **Positions never steer a look-up.**  Where the positions in a tree are changed, a path leads to
the same node, which has the changed positions, or it fails at the same step for the same cause, and
the changed positions stand in its error and in the errors inside of that.  The node is the same in
that it stands at one address, however the positions are changed. -/
theorem Path.lookup_relabel (p : Path) (t : Tree) :
    (∀ f : Position → Position, p.lookup (t.relabel f) =
      ((p.lookup t).map (Tree.relabel f)).mapError (LookupError.relabel f)) ∧
    ∀ u, p.lookup t = .ok u → ∃ address, t.at? address = some u ∧
      ∀ f : Position → Position, (t.relabel f).at? address = some (u.relabel f) := by
  constructor
  · intro f
    rw [lookup_eq, lookup_eq]
    exact Selector.applyAll_relabel (fun s _ => Selector.ignorePositions.1 s) 0 t
  · intro u hu
    rw [lookup_eq] at hu
    obtain ⟨address, haddress⟩ := Selector.exists_address_of_applyAll hu
    refine ⟨address, haddress, fun f => ?_⟩
    rw [Tree.at?_relabel, haddress, Option.map_some]

end LintLocator
