import LintLocator.Path.Lookup
import Mathlib.Data.List.Basic
import Mathlib.Logic.ExistsUnique

/-!
# How the search for an item ends

A predicate goes along a sequence and stops at the first item of which its condition is not false:
either the condition is true of it, and the item has been found, or the condition cannot be decided
on it, and that is the error.  A search that stops nowhere has found nothing.  The place at which a
search stops is the only one, so there are three ways to end, of which exactly one is taken.

* `Selector.firstMatch_eq_ok_iff`, `Selector.firstMatch_eq_error_iff`: the search itself, with a row
  of items split where it stops;
* `Condition.Ends`: the three endings, with the place where the search stops;
* `Condition.existsUnique_ending`: exactly one of them is taken;
* `Selector.apply_predicate_iff`: what the step comes to.
-/

namespace LintLocator

namespace Selector

/-! ## The search -/

section Search

variable {condition : String} {holds : Tree → Except LookupError Bool} {items : List Tree}
  {u : Tree} {start : Nat}

/-- Items of which the condition is false are passed over. -/
theorem firstMatch_append_of_missed {before : List Tree} (h : ∀ v ∈ before, holds v = .ok false)
    (start : Nat) (later : List Tree) :
    firstMatch condition holds start (before ++ later) =
      firstMatch condition holds (start + before.length) later := by
  induction before generalizing start with
  | nil => rfl
  | cons v before ih =>
    obtain ⟨hv, hbefore⟩ := List.forall_mem_cons.mp h
    rw [List.cons_append, firstMatch_cons, hv]
    show firstMatch condition holds (start + 1) (before ++ later) = _
    rw [ih hbefore, List.length_cons, Nat.add_assoc, Nat.add_comm 1]

/-- A condition is false of all items, or there is a first one of which it is true or on which it
cannot be decided. -/
theorem missed_or_found_or_undecided (holds : Tree → Except LookupError Bool)
    (items : List Tree) :
    (∀ v ∈ items, holds v = .ok false) ∨
      (∃ before u after, items = before ++ u :: after ∧ (∀ v ∈ before, holds v = .ok false) ∧
        holds u = .ok true) ∨
      ∃ before u after inner, items = before ++ u :: after ∧
        (∀ v ∈ before, holds v = .ok false) ∧ holds u = .error inner := by
  have hnone : ∀ v ∈ ([] : List Tree), holds v = .ok false := fun v hv => absurd hv List.not_mem_nil
  induction items with
  | nil => exact .inl hnone
  | cons v items ih =>
    cases hv : holds v with
    | error inner => exact .inr (.inr ⟨[], v, items, inner, rfl, hnone, hv⟩)
    | ok b =>
      cases b with
      | true => exact .inr (.inl ⟨[], v, items, rfl, hnone, hv⟩)
      | false =>
        obtain hall | ⟨before, u, after, rfl, hbefore, hu⟩ |
          ⟨before, u, after, inner, rfl, hbefore, hu⟩ := ih
        · exact .inl (List.forall_mem_cons.mpr ⟨hv, hall⟩)
        · exact .inr (.inl ⟨v :: before, u, after, rfl,
            List.forall_mem_cons.mpr ⟨hv, hbefore⟩, hu⟩)
        · exact .inr (.inr ⟨v :: before, u, after, inner, rfl,
            List.forall_mem_cons.mpr ⟨hv, hbefore⟩, hu⟩)

theorem firstMatch_of_true {before after : List Tree} (h : ∀ v ∈ before, holds v = .ok false)
    (hu : holds u = .ok true) :
    firstMatch condition holds start (before ++ u :: after) = .ok u := by
  rw [firstMatch_append_of_missed h, firstMatch_cons, hu]

theorem firstMatch_of_error {before after : List Tree} {inner : LookupError}
    (h : ∀ v ∈ before, holds v = .ok false) (hu : holds u = .error inner) :
    firstMatch condition holds start (before ++ u :: after) =
      .error (.predicate (start + before.length) inner) := by
  rw [firstMatch_append_of_missed h, firstMatch_cons, hu]

theorem firstMatch_of_missed (h : ∀ v ∈ items, holds v = .ok false) :
    firstMatch condition holds start items = .error (.noMatch condition) := by
  rw [← List.append_nil items, firstMatch_append_of_missed h, firstMatch_nil]

/-- An item is found just if the condition is true of it and false of those before it. -/
theorem firstMatch_eq_ok_iff :
    firstMatch condition holds start items = .ok u ↔ ∃ before after, items = before ++ u :: after ∧
      (∀ v ∈ before, holds v = .ok false) ∧ holds u = .ok true := by
  constructor
  · intro h
    obtain hall | ⟨before, v, after, rfl, hbefore, hv⟩ |
      ⟨before, v, after, inner, rfl, hbefore, hv⟩ := missed_or_found_or_undecided holds items
    · rw [firstMatch_of_missed hall] at h
      cases h
    · rw [firstMatch_of_true hbefore hv] at h
      obtain rfl := Except.ok.inj h
      exact ⟨before, after, rfl, hbefore, hv⟩
    · rw [firstMatch_of_error hbefore hv] at h
      cases h
  · rintro ⟨before, after, rfl, hbefore, hu⟩
    exact firstMatch_of_true hbefore hu

/-- A search fails at the first item on which the condition cannot be decided, if it is false of the
items before it, and at the end of the row. -/
theorem firstMatch_eq_error_iff {cause : LookupError.Cause} :
    firstMatch condition holds start items = .error cause ↔
      (∃ before u after inner, items = before ++ u :: after ∧ (∀ v ∈ before, holds v = .ok false) ∧
        holds u = .error inner ∧ cause = .predicate (start + before.length) inner) ∨
      (∀ v ∈ items, holds v = .ok false) ∧ cause = .noMatch condition := by
  constructor
  · intro h
    obtain hall | ⟨before, v, after, rfl, hbefore, hv⟩ |
      ⟨before, v, after, inner, rfl, hbefore, hv⟩ := missed_or_found_or_undecided holds items
    · rw [firstMatch_of_missed hall] at h
      exact .inr ⟨hall, (Except.error.inj h).symm⟩
    · rw [firstMatch_of_true hbefore hv] at h
      cases h
    · rw [firstMatch_of_error hbefore hv] at h
      exact .inl ⟨before, v, after, inner, rfl, hbefore, hv, (Except.error.inj h).symm⟩
  · rintro (⟨before, u, after, inner, rfl, hbefore, hu, rfl⟩ | ⟨hall, rfl⟩)
    · exact firstMatch_of_error hbefore hu
    · exact firstMatch_of_missed hall

end Search

end Selector

/-! ## The three endings -/

namespace Condition

/-- How the search for an item can end. -/
inductive Ending where
  /-- With the item at a place. -/
  | found (place : Nat)
  /-- At a place where the condition cannot be decided. -/
  | undecided (place : Nat) (inner : LookupError)
  /-- Behind the last item. -/
  | nothing

/-- How the search with a condition ends in a row of items. -/
inductive Ends (c : Condition) (items : List Tree) : Ending → Prop where
  | found {place : Nat} {u : Tree} (missed : ∀ v ∈ items.take place, c.holds v = .ok false)
      (item : items[place]? = some u) (holds : c.holds u = .ok true) : Ends c items (.found place)
  | undecided {place : Nat} {u : Tree} {inner : LookupError}
      (missed : ∀ v ∈ items.take place, c.holds v = .ok false)
      (item : items[place]? = some u) (fails : c.holds u = .error inner) :
      Ends c items (.undecided place inner)
  | nothing (missed : ∀ v ∈ items, c.holds v = .ok false) : Ends c items .nothing

/-- An item with its place splits a row into those before it and those behind it. -/
theorem exists_split_of_item {items : List Tree} {place : Nat} {u : Tree}
    (h : items[place]? = some u) :
    ∃ before after, items = before ++ u :: after ∧ before.length = place ∧
      items.take place = before := by
  obtain ⟨hlt, rfl⟩ := List.getElem?_eq_some_iff.mp h
  refine ⟨items.take place, items.drop (place + 1), ?_, ?_, rfl⟩
  · rw [List.getElem_cons_drop, List.take_append_drop]
  · rw [List.length_take]
    omega

section Endings

variable {c : Condition} {items : List Tree} {place : Nat} {u : Tree} {inner : LookupError}

theorem Ends.of_found {before after : List Tree} (hbefore : ∀ v ∈ before, c.holds v = .ok false)
    (hu : c.holds u = .ok true) : Ends c (before ++ u :: after) (.found before.length) := by
  refine .found ?_ (by simp) hu
  rwa [List.take_left' rfl]

theorem Ends.of_undecided {before after : List Tree}
    (hbefore : ∀ v ∈ before, c.holds v = .ok false) (hu : c.holds u = .error inner) :
    Ends c (before ++ u :: after) (.undecided before.length inner) := by
  refine .undecided ?_ (by simp) hu
  rwa [List.take_left' rfl]

/-- A search does not get past an item of which the condition is not false. -/
theorem le_of_missed {place' : Nat} (hmissed : ∀ v ∈ items.take place', c.holds v = .ok false)
    (hitem : items[place]? = some u) (hu : c.holds u ≠ .ok false) : place' ≤ place := by
  by_contra hlt
  have hget : (items.take place')[place]? = some u := by
    rw [List.getElem?_take_of_lt (by omega), hitem]
  exact hu (hmissed u (List.mem_of_getElem? hget))

/-- There is no other ending than the one at the item where the search stops. -/
theorem Ends.eq_of_stops {before after : List Tree} (hbefore : ∀ v ∈ before, c.holds v = .ok false)
    (hu : c.holds u ≠ .ok false) {ending : Ending} (h : Ends c (before ++ u :: after) ending) :
    (c.holds u = .ok true ∧ ending = .found before.length) ∨
      ∃ inner, c.holds u = .error inner ∧ ending = .undecided before.length inner := by
  have hitem : (before ++ u :: after)[before.length]? = some u := by simp
  have hmissed : ∀ v ∈ (before ++ u :: after).take before.length, c.holds v = .ok false := by
    rwa [List.take_left' rfl]
  cases h with
  | nothing hall => exact absurd (hall u (List.mem_of_getElem? hitem)) hu
  | @found place' u' missed item holds =>
    have hplace : before.length = place' := Nat.le_antisymm
      (le_of_missed hmissed item (by simp [holds])) (le_of_missed missed hitem hu)
    subst hplace
    obtain rfl := Option.some.inj (hitem.symm.trans item)
    exact .inl ⟨holds, rfl⟩
  | @undecided place' u' inner missed item fails =>
    have hplace : before.length = place' := Nat.le_antisymm
      (le_of_missed hmissed item (by simp [fails])) (le_of_missed missed hitem hu)
    subst hplace
    obtain rfl := Option.some.inj (hitem.symm.trans item)
    exact .inr ⟨inner, fails, rfl⟩

/-- **A search ends in exactly one way.** -/
theorem existsUnique_ending (c : Condition) (items : List Tree) :
    ∃! ending, Ends c items ending := by
  obtain hall | ⟨before, u, after, rfl, hbefore, hu⟩ |
    ⟨before, u, after, inner, rfl, hbefore, hu⟩ :=
      Selector.missed_or_found_or_undecided (fun v => c.holds v) items
  · refine ⟨.nothing, .nothing hall, fun ending h => ?_⟩
    cases h with
    | nothing => rfl
    | found _ item holds =>
      rw [hall _ (List.mem_of_getElem? item)] at holds
      cases holds
    | undecided _ item fails =>
      rw [hall _ (List.mem_of_getElem? item)] at fails
      cases fails
  · refine ⟨_, .of_found hbefore hu, fun ending h => ?_⟩
    obtain ⟨-, rfl⟩ | ⟨inner, hinner, -⟩ := h.eq_of_stops hbefore (by simp [hu])
    · rfl
    · rw [hu] at hinner
      cases hinner
  · refine ⟨_, .of_undecided hbefore hu, fun ending h => ?_⟩
    obtain ⟨htrue, -⟩ | ⟨inner', hinner, rfl⟩ := h.eq_of_stops hbefore (by simp [hu])
    · rw [hu] at htrue
      cases htrue
    · rw [Except.error.inj (hu.symm.trans hinner)]

end Endings

end Condition

/-! ## The step -/

namespace Selector

theorem apply_predicate_eq (c : Condition) (items : List Tree) (pos : Position) :
    (predicate c).apply (.sequence items pos) =
      firstMatch c.render (fun v => c.holds v) 0 items := rfl

open Condition (Ends)

variable {c : Condition} {items : List Tree} {pos : Position}

theorem apply_predicate_eq_ok_iff {u : Tree} :
    (predicate c).apply (.sequence items pos) = .ok u ↔
      ∃ place, Ends c items (.found place) ∧ items[place]? = some u := by
  rw [apply_predicate_eq, firstMatch_eq_ok_iff]
  constructor
  · rintro ⟨before, after, rfl, hbefore, hu⟩
    exact ⟨_, .of_found hbefore hu, by simp⟩
  · rintro ⟨place, ⟨missed, item, holds⟩, hitem⟩
    obtain rfl := Option.some.inj (item.symm.trans hitem)
    obtain ⟨before, after, hsplit, -, rfl⟩ := Condition.exists_split_of_item item
    exact ⟨_, after, hsplit, missed, holds⟩

theorem apply_predicate_eq_undecided_iff {place : Nat} {inner : LookupError} :
    (predicate c).apply (.sequence items pos) = .error (.predicate place inner) ↔
      Ends c items (.undecided place inner) := by
  rw [apply_predicate_eq, firstMatch_eq_error_iff]
  constructor
  · rintro (⟨before, u, after, inner, rfl, hbefore, hu, hcause⟩ | ⟨-, hcause⟩)
    · cases hcause
      rw [Nat.zero_add]
      exact .of_undecided hbefore hu
    · cases hcause
  · rintro (_ | ⟨missed, item, fails⟩ | _)
    obtain ⟨before, after, hsplit, hlength, rfl⟩ := Condition.exists_split_of_item item
    exact .inl ⟨_, _, after, inner, hsplit, missed, fails, by rw [Nat.zero_add, hlength]⟩

theorem apply_predicate_eq_noMatch_iff {condition : String} :
    (predicate c).apply (.sequence items pos) = .error (.noMatch condition) ↔
      Ends c items .nothing ∧ condition = c.render := by
  rw [apply_predicate_eq, firstMatch_eq_error_iff]
  constructor
  · rintro (⟨_, _, _, _, -, -, -, hcause⟩ | ⟨hall, hcause⟩)
    · cases hcause
    · cases hcause
      exact ⟨.nothing hall, rfl⟩
  · rintro ⟨_ | _ | ⟨hall⟩, rfl⟩
    exact .inr ⟨hall, rfl⟩

/-- What stands behind the item at which a predicate stops has no influence. -/
theorem apply_predicate_take_append {place : Nat} {u : Tree} (hitem : items[place]? = some u)
    (hmissed : ∀ v ∈ items.take place, c.holds v = .ok false) (hu : c.holds u ≠ .ok false)
    (later : List Tree) :
    (predicate c).apply (.sequence (items.take (place + 1) ++ later) pos) =
      (predicate c).apply (.sequence items pos) := by
  obtain ⟨before, after, rfl, rfl, hbefore⟩ := Condition.exists_split_of_item hitem
  rw [hbefore] at hmissed
  have htake : (before ++ u :: after).take (before.length + 1) = before ++ [u] := by
    rw [List.take_length_add_append]
    rfl
  rw [apply_predicate_eq, apply_predicate_eq, htake, List.append_assoc, List.singleton_append,
    firstMatch_append_of_missed hmissed, firstMatch_append_of_missed hmissed, firstMatch_cons,
    firstMatch_cons]
  cases hholds : c.holds u with
  | error inner => rfl
  | ok b =>
    cases b with
    | false => exact absurd hholds hu
    | true => rfl

/-- **A predicate stops at the first item of which its condition is not false.**  It comes to the
item if the condition is true of it, fails with its place if the condition cannot be decided on it,
and fails for want of a match if there is no such item.  One of these is the case and no other, and
what stands behind the item at which the predicate stops has no influence. -/
theorem apply_predicate_iff (c : Condition) (items : List Tree) (pos : Position) :
    let outcome := (predicate c).apply (.sequence items pos)
    (∃! ending, Ends c items ending) ∧
    (∀ u, outcome = .ok u ↔ ∃ place, Ends c items (.found place) ∧ items[place]? = some u) ∧
    (∀ place inner, outcome = .error (.predicate place inner) ↔
      Ends c items (.undecided place inner)) ∧
    (∀ condition, outcome = .error (.noMatch condition) ↔
      Ends c items .nothing ∧ condition = c.render) ∧
    ∀ place u, items[place]? = some u → (∀ v ∈ items.take place, c.holds v = .ok false) →
      c.holds u ≠ .ok false → ∀ later,
        (predicate c).apply (.sequence (items.take (place + 1) ++ later) pos) = outcome :=
  ⟨Condition.existsUnique_ending c items, fun _ => apply_predicate_eq_ok_iff,
    fun _ _ => apply_predicate_eq_undecided_iff, fun _ => apply_predicate_eq_noMatch_iff,
    fun _ _ hitem hmissed hu => apply_predicate_take_append hitem hmissed hu⟩

end Selector
end LintLocator
