import LintLocator.Path.Lookup
import Mathlib.Data.List.Forall2

/-!
# What conditions come to

A group looks at all of its members, whatever the first ones come to.  So how a condition is nested
has no influence on *whether* it can be decided: only its comparisons count, in a row from left to
right, and the first one whose path leads nowhere is the error.  If there is none, the condition is
true or false by the usual rules for groups.

The two halves are proved apart from each other, each by induction over conditions.

* `Selector.induction`: induction over selectors and conditions at once;
* `Condition.comparisons`, `Condition.IsTrue`: the comparisons in a condition, and when it is true;
* `Condition.errorOf?_holds`: the error of a condition is the first error of its comparisons;
* `Condition.eq_true_iff_isTrue`: what a condition comes to if it has no error;
* `Condition.holds_iff_comparisons`: both together.
-/

namespace LintLocator

/-! ## Induction -/

/-- **Induction over selectors and conditions.**  A condition has other conditions in it, or the
selectors of a path, and a selector may have a condition in it. -/
theorem Selector.induction {P : Selector → Prop} {Q : Condition → Prop}
    (property : ∀ name, P (.property name)) (index : ∀ place, P (.index place))
    (predicate : ∀ c, Q c → P (.predicate c))
    (any : ∀ members, (∀ c ∈ members, Q c) → Q (.any members))
    (all : ∀ members, (∀ c ∈ members, Q c) → Q (.all members))
    (equals : ∀ path literal source, (∀ s ∈ path.selectors, P s) →
      Q (.equals path literal source)) :
    (∀ s, P s) ∧ ∀ c, Q c := by
  have hpath : ∀ (root : Root) (selectors : List Selector), (∀ s ∈ selectors, P s) →
      ∀ s ∈ (⟨root, selectors⟩ : Path).selectors, P s := fun _ _ h => h
  have hnil : ∀ {α : Type} {R : α → Prop}, ∀ a ∈ ([] : List α), R a :=
    fun _ h => absurd h List.not_mem_nil
  have hcons : ∀ {α : Type} {R : α → Prop} (a : α) (as : List α), R a → (∀ b ∈ as, R b) →
      ∀ b ∈ a :: as, R b := fun _ _ h hs => List.forall_mem_cons.mpr ⟨h, hs⟩
  exact ⟨@Selector.rec P Q _ _ _ property index predicate any all equals hpath hnil hcons hnil hcons,
    @Condition.rec P Q _ _ _ property index predicate any all equals hpath hnil hcons hnil hcons⟩

/-- Induction over conditions alone. -/
theorem Condition.induction {motive : Condition → Prop}
    (any : ∀ members, (∀ c ∈ members, motive c) → motive (.any members))
    (all : ∀ members, (∀ c ∈ members, motive c) → motive (.all members))
    (equals : ∀ path literal source, motive (.equals path literal source)) (c : Condition) :
    motive c :=
  (Selector.induction (P := fun _ => True) (fun _ => trivial) (fun _ => trivial)
    (fun _ _ => trivial) any all fun path literal source _ => equals path literal source).2 c

/-! ## The comparisons in a condition -/

/-- A path, and the text that is to stand where it leads. -/
structure Comparison where
  path : Path
  literal : String

namespace Condition

mutual

/-- The comparisons in a condition, from left to right. -/
def comparisons : Condition → List Comparison
  | .any members => comparisonsOf members
  | .all members => comparisonsOf members
  | .equals path literal _ => [⟨path, literal⟩]

/-- The comparisons in several conditions. -/
def comparisonsOf : List Condition → List Comparison
  | [] => []
  | c :: cs => c.comparisons ++ comparisonsOf cs

end

/-- When a condition is true, where it is known which comparisons are.  A group without members is
true if it asks for all of them, and false if it asks for some. -/
inductive IsTrue (meets : Comparison → Prop) : Condition → Prop where
  | any {members : List Condition} {c : Condition} (hc : c ∈ members) (h : IsTrue meets c) :
      IsTrue meets (.any members)
  | all {members : List Condition} (h : ∀ c ∈ members, IsTrue meets c) :
      IsTrue meets (.all members)
  | equals {path : Path} {literal source : String} (h : meets ⟨path, literal⟩) :
      IsTrue meets (.equals path literal source)

theorem comparisonsOf_eq_flatMap (cs : List Condition) :
    comparisonsOf cs = cs.flatMap comparisons := by
  induction cs with
  | nil => rfl
  | cons c cs ih => rw [comparisonsOf, List.flatMap_cons, ih]

section

variable {meets : Comparison → Prop} {members : List Condition}

@[simp] theorem isTrue_any : IsTrue meets (.any members) ↔ ∃ c ∈ members, IsTrue meets c := by
  constructor
  · rintro (⟨hc, h⟩ | _ | _)
    exact ⟨_, hc, h⟩
  · rintro ⟨c, hc, h⟩
    exact .any hc h

@[simp] theorem isTrue_all : IsTrue meets (.all members) ↔ ∀ c ∈ members, IsTrue meets c := by
  constructor
  · rintro (_ | h | _)
    exact h
  · exact .all

@[simp] theorem isTrue_equals {path : Path} {literal source : String} :
    IsTrue meets (.equals path literal source) ↔ meets ⟨path, literal⟩ := by
  constructor
  · rintro (_ | _ | h)
    exact h
  · exact .equals

end

/-! ## The first error -/

/-- The error that something ends with, if it does. -/
def errorOf? {ε α : Type} : Except ε α → Option ε
  | .ok _ => none
  | .error e => some e

theorem errorOf?_eq_some_iff {ε α : Type} {x : Except ε α} {e : ε} :
    errorOf? x = some e ↔ x = .error e := by
  cases x <;> simp [errorOf?]

theorem errorOf?_eq_none_iff {ε α : Type} {x : Except ε α} :
    errorOf? x = none ↔ ∃ a, x = .ok a := by
  cases x <;> simp [errorOf?]

/-- A group has the first error of its members. -/
theorem errorOf?_holdsEach (cs : List Condition) (t : Tree) :
    errorOf? (holdsEach cs t) = cs.findSome? fun c => errorOf? (c.holds t) := by
  induction cs with
  | nil => rfl
  | cons c cs ih =>
    rw [holdsEach_cons, List.findSome?_cons, ← ih]
    cases c.holds t with
    | error e => rfl
    | ok b =>
      cases holdsEach cs t with
      | error e => rfl
      | ok bs => rfl

theorem errorOf?_holds_any (members : List Condition) (t : Tree) :
    errorOf? ((Condition.any members).holds t) = errorOf? (holdsEach members t) := by
  rw [holds_any]
  cases holdsEach members t <;> rfl

theorem errorOf?_holds_all (members : List Condition) (t : Tree) :
    errorOf? ((Condition.all members).holds t) = errorOf? (holdsEach members t) := by
  rw [holds_all]
  cases holdsEach members t <;> rfl

/-- The first in a row of rows is the first of the first row that has one. -/
theorem findSome?_flatMap_of_forall {α β γ : Type} {f : α → List β} {g : α → Option γ}
    {h : β → Option γ} {as : List α} (hg : ∀ a ∈ as, g a = (f a).findSome? h) :
    (as.flatMap f).findSome? h = as.findSome? g := by
  induction as with
  | nil => rfl
  | cons a as ih =>
    obtain ⟨ha, has⟩ := List.forall_mem_cons.mp hg
    rw [List.flatMap_cons, List.findSome?_append, ih has, List.findSome?_cons, ha]
    cases (f a).findSome? h <;> rfl

/-- **The error of a condition is the first error of its comparisons.** -/
theorem errorOf?_holds (c : Condition) (t : Tree) :
    errorOf? (c.holds t) = c.comparisons.findSome? fun k => errorOf? (k.path.lookup t) := by
  induction c using Condition.induction with
  | any members ih =>
    rw [errorOf?_holds_any, errorOf?_holdsEach, comparisons, comparisonsOf_eq_flatMap]
    exact (findSome?_flatMap_of_forall ih).symm
  | all members ih =>
    rw [errorOf?_holds_all, errorOf?_holdsEach, comparisons, comparisonsOf_eq_flatMap]
    exact (findSome?_flatMap_of_forall ih).symm
  | equals path literal source =>
    rw [holds_equals, comparisons, List.findSome?_singleton]
    cases path.lookup t <;> rfl

/-! ## True and false -/

/-- The members of a group come to values one by one. -/
theorem holdsEach_eq_ok_iff {cs : List Condition} {t : Tree} {bs : List Bool} :
    holdsEach cs t = .ok bs ↔ List.Forall₂ (fun c b => c.holds t = .ok b) cs bs := by
  induction cs generalizing bs with
  | nil => simp [holdsEach_nil, eq_comm]
  | cons c cs ih =>
    rw [holdsEach_cons, List.forall₂_cons_left_iff]
    cases hc : c.holds t with
    | error e => simp
    | ok b =>
      cases hcs : holdsEach cs t with
      | error e =>
        simp only [← ih, hcs]
        simp
      | ok bs' =>
        simp only [← ih, hcs]
        simp [eq_comm]

theorem holds_any_eq_ok_iff {members : List Condition} {t : Tree} {b : Bool} :
    (any members).holds t = .ok b ↔ ∃ bs, holdsEach members t = .ok bs ∧ bs.any id = b := by
  rw [holds_any]
  cases holdsEach members t <;> simp

theorem holds_all_eq_ok_iff {members : List Condition} {t : Tree} {b : Bool} :
    (all members).holds t = .ok b ↔ ∃ bs, holdsEach members t = .ok bs ∧ bs.all id = b := by
  rw [holds_all]
  cases holdsEach members t <;> simp

theorem holds_equals_eq_ok_iff {path : Path} {literal source : String} {t : Tree} {b : Bool} :
    (equals path literal source).holds t = .ok b ↔
      ∃ u, path.lookup t = .ok u ∧ (u.text == literal) = b := by
  rw [holds_equals]
  cases path.lookup t <;> simp

/-- Whether some member is true, and whether all are, if `P` says which of them are. -/
theorem any_and_all_of_forall₂ {α : Type} {R : α → Bool → Prop} {P : α → Prop} {as : List α}
    {bs : List Bool} (h : List.Forall₂ R as bs)
    (hP : ∀ a ∈ as, ∀ b, R a b → (b = true ↔ P a)) :
    (bs.any id = true ↔ ∃ a ∈ as, P a) ∧ (bs.all id = true ↔ ∀ a ∈ as, P a) := by
  induction h with
  | nil => simp
  | cons hab _ ih =>
    obtain ⟨ha, has⟩ := List.forall_mem_cons.mp hP
    obtain ⟨hany, hall⟩ := ih has
    have hfirst := ha _ hab
    constructor
    · simp [hany, hfirst]
    · simp [hall, hfirst]

/-- The comparison is met: its path leads to a node with its text. -/
def Meets (t : Tree) (k : Comparison) : Prop :=
  ∃ u, k.path.lookup t = .ok u ∧ u.text = k.literal

/-- **A condition that can be decided is true by the rules for groups.** -/
theorem eq_true_iff_isTrue (c : Condition) {t : Tree} {b : Bool} (h : c.holds t = .ok b) :
    b = true ↔ c.IsTrue (Meets t) := by
  induction c using Condition.induction generalizing b with
  | any members ih =>
    obtain ⟨bs, hbs, rfl⟩ := holds_any_eq_ok_iff.mp h
    rw [isTrue_any]
    exact (any_and_all_of_forall₂ (holdsEach_eq_ok_iff.mp hbs) fun c hc b => ih c hc).1
  | all members ih =>
    obtain ⟨bs, hbs, rfl⟩ := holds_all_eq_ok_iff.mp h
    rw [isTrue_all]
    exact (any_and_all_of_forall₂ (holdsEach_eq_ok_iff.mp hbs) fun c hc b => ih c hc).2
  | equals path literal source =>
    obtain ⟨u, hu, rfl⟩ := holds_equals_eq_ok_iff.mp h
    rw [isTrue_equals, Meets, hu]
    simp

/-! ## Both together -/

/-- **Conditions are eager, and the first error ends them.**  A condition fails with the error of the
leftmost comparison whose path leads nowhere, whatever the comparisons around it would come to.  If
all paths lead somewhere, it is decided, and it is true by the rules for groups, where a comparison
is true if the node that its path leads to has its text. -/
theorem holds_iff_comparisons (c : Condition) (t : Tree) :
    (∀ e, c.holds t = .error e ↔ ∃ before k after, c.comparisons = before ++ k :: after ∧
      (∀ j ∈ before, ∃ u, j.path.lookup t = .ok u) ∧ k.path.lookup t = .error e) ∧
    ∀ b, c.holds t = .ok b ↔ (∀ k ∈ c.comparisons, ∃ u, k.path.lookup t = .ok u) ∧
      (b = true ↔ c.IsTrue fun k => ∃ u, k.path.lookup t = .ok u ∧ u.text = k.literal) := by
  have herror : ∀ e, c.holds t = .error e ↔
      c.comparisons.findSome? (fun k => errorOf? (k.path.lookup t)) = some e := by
    intro e
    rw [← errorOf?_eq_some_iff, errorOf?_holds]
  have hok : (∃ b, c.holds t = .ok b) ↔ ∀ k ∈ c.comparisons, ∃ u, k.path.lookup t = .ok u := by
    rw [← errorOf?_eq_none_iff, errorOf?_holds, List.findSome?_eq_none_iff]
    simp only [errorOf?_eq_none_iff]
  refine ⟨fun e => ?_, fun b => ⟨fun h => ⟨hok.mp ⟨b, h⟩, c.eq_true_iff_isTrue h⟩, ?_⟩⟩
  · rw [herror, List.findSome?_eq_some_iff]
    simp only [errorOf?_eq_some_iff, errorOf?_eq_none_iff]
    constructor
    · rintro ⟨before, k, after, hsplit, hk, hbefore⟩
      exact ⟨before, k, after, hsplit, hbefore, hk⟩
    · rintro ⟨before, k, after, hsplit, hbefore, hk⟩
      exact ⟨before, k, after, hsplit, hk, hbefore⟩
  · rintro ⟨hall, hb⟩
    obtain ⟨b', hb'⟩ := hok.mpr hall
    have hsame : b = b' := by
      rw [Bool.eq_iff_iff, hb]
      exact (c.eq_true_iff_isTrue hb').symm
    rw [hsame, hb']

/-- The empty group has settled the outcome, and still the other member is an error. -/
example :
    (any [all [], equals ⟨.current, [.property "a"]⟩ "x" "@.a == 'x'"]).holds (.mapping [] ⟨1, 1⟩) =
      .error ⟨0, ".a", ⟨1, 1⟩, .noChild "a"⟩ := rfl

end Condition
end LintLocator
