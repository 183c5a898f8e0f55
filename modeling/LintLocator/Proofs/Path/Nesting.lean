import LintLocator.Path.Lookup
import LintLocator.Proofs.Path.Shape

/-!
# Predicates do not nest

The shapes of the conditions in a path settle how a look-up can fail.  A plain step fails for a
cause of its own, a condition fails with one of its comparisons, and the path of a comparison has
plain steps only.  So behind a predicate that cannot be decided there is never another predicate.

* `Selector.IsPlain.cause`: why plain steps fail;
* `Condition.IsFlat.cause`: why a condition cannot be decided;
* `Path.read_never_nests`: conditions, errors, the depth of the readers and failed look-ups, all of
  which have a bound that no expression exceeds.
-/

namespace LintLocator

/-- A cause other than a predicate. -/
def LookupError.Cause.IsPlain : LookupError.Cause → Prop
  | .predicate _ _ => False
  | .noMatch _ => False
  | _ => True

namespace Selector

theorem item_eq_error {items : List Tree} {place : Nat} {cause : LookupError.Cause}
    (h : item items place = .error cause) : cause.IsPlain := by
  unfold item at h
  split at h
  · cases h
  · cases h
    trivial

theorem itemsOf_eq_error {t : Tree} {cause : LookupError.Cause} (h : itemsOf t = .error cause) :
    cause.IsPlain := by
  unfold itemsOf at h
  split at h
  · cases h
  · cases h
    trivial

theorem child_eq_error {name : String} {t : Tree} {cause : LookupError.Cause}
    (h : child name t = .error cause) : cause.IsPlain := by
  unfold child at h
  split at h
  · split at h
    · cases h
    · cases h
      trivial
  · split at h
    · exact item_eq_error h
    · cases h
      trivial
  · cases h
    trivial

/-- A plain step fails for a plain cause. -/
theorem IsPlain.cause {s : Selector} (hs : s.IsPlain) {t : Tree} {cause : LookupError.Cause}
    (h : s.apply t = .error cause) : cause.IsPlain := by
  cases s with
  | property name =>
    rw [apply_property] at h
    exact child_eq_error h
  | index place =>
    rw [apply_index] at h
    split at h
    · rename_i hitems
      cases h
      exact itemsOf_eq_error hitems
    · exact item_eq_error h
  | predicate => exact hs.elim

/-- A search that an item ends could not decide the condition on it. -/
theorem firstMatch_eq_error {condition : String} {holds : Tree → Except LookupError Bool}
    {place element : Nat} {items : List Tree} {inner : LookupError}
    (h : firstMatch condition holds place items = .error (.predicate element inner)) :
    ∃ t ∈ items, holds t = .error inner := by
  induction items generalizing place with
  | nil => cases h
  | cons t ts ih =>
    rw [firstMatch_cons] at h
    split at h
    · rename_i d hd
      cases h
      exact ⟨t, List.mem_cons_self, hd⟩
    · cases h
    · obtain ⟨u, hu, hfail⟩ := ih h
      exact ⟨u, List.mem_cons_of_mem _ hu, hfail⟩

/-- Only a predicate fails for the sake of an item. -/
theorem apply_eq_error_predicate {s : Selector} {t : Tree} {element : Nat} {inner : LookupError}
    (h : s.apply t = .error (.predicate element inner)) :
    ∃ c u, s = .predicate c ∧ c.holds u = .error inner := by
  cases s with
  | property name => exact (IsPlain.cause (s := .property name) trivial h).elim
  | index place => exact (IsPlain.cause (s := .index place) trivial h).elim
  | predicate c =>
    rw [apply_predicate] at h
    split at h
    · rename_i hitems
      cases h
      exact (itemsOf_eq_error hitems).elim
    · obtain ⟨u, -, hu⟩ := firstMatch_eq_error h
      exact ⟨c, u, rfl, hu⟩

/-- Where steps fail, one of them does. -/
theorem applyAll_eq_error {ss : List Selector} {step : Nat} {t : Tree} {e : LookupError}
    (h : applyAll ss step t = .error e) : ∃ s ∈ ss, ∃ u, s.apply u = .error e.cause := by
  induction ss generalizing step t with
  | nil =>
    rw [applyAll_nil] at h
    cases h
  | cons s ss ih =>
    rw [applyAll_cons] at h
    split at h
    · rename_i cause hcause
      cases h
      exact ⟨s, List.mem_cons_self, t, hcause⟩
    · obtain ⟨r, hr, hfail⟩ := ih h
      exact ⟨r, List.mem_cons_of_mem _ hr, hfail⟩

end Selector

namespace Condition

/-- A comparison that cannot be decided failed at a plain step. -/
theorem IsComparison.cause {c : Condition} (hc : c.IsComparison) {t : Tree} {e : LookupError}
    (h : c.holds t = .error e) : e.cause.IsPlain := by
  cases c with
  | any => exact hc.elim
  | all => exact hc.elim
  | equals path literal source =>
    rw [holds_equals] at h
    split at h
    · rename_i d hd
      cases h
      rw [Path.lookup_eq] at hd
      obtain ⟨s, hs, u, hu⟩ := Selector.applyAll_eq_error hd
      exact (hc.1 s hs).cause hu
    · cases h

/-- A group that cannot be decided has a member that cannot. -/
theorem holdsEach_eq_error {cs : List Condition} {t : Tree} {e : LookupError}
    (h : holdsEach cs t = .error e) : ∃ c ∈ cs, c.holds t = .error e := by
  induction cs with
  | nil =>
    rw [holdsEach_nil] at h
    cases h
  | cons c cs ih =>
    rw [holdsEach_cons] at h
    split at h
    · rename_i d hd
      cases h
      exact ⟨c, List.mem_cons_self, hd⟩
    · split at h
      · rename_i d hd
        cases h
        obtain ⟨c', hc', hfail⟩ := ih hd
        exact ⟨c', List.mem_cons_of_mem _ hc', hfail⟩
      · cases h

theorem IsConjunction.cause {c : Condition} (hc : c.IsConjunction) {t : Tree} {e : LookupError}
    (h : c.holds t = .error e) : e.cause.IsPlain := by
  cases c with
  | any => exact hc.elim
  | equals => exact hc.elim
  | all members =>
    rw [holds_all] at h
    split at h
    · rename_i d hd
      cases h
      obtain ⟨c', hc', hfail⟩ := holdsEach_eq_error hd
      exact (hc.2 c' hc').cause hfail
    · cases h

/-- A condition of one of the shapes that cannot be decided failed at a plain step. -/
theorem IsFlat.cause {c : Condition} (hc : c.IsFlat) {t : Tree} {e : LookupError}
    (h : c.holds t = .error e) : e.cause.IsPlain := by
  rcases hc with hc | hc | hc
  · exact hc.cause h
  · exact hc.cause h
  · cases c with
    | all => exact hc.elim
    | equals => exact hc.elim
    | any members =>
      rw [holds_any] at h
      split at h
      · rename_i d hd
        cases h
        obtain ⟨c', hc', hfail⟩ := holdsEach_eq_error hd
        rcases hc.2 c' hc' with hmember | hmember
        · exact hmember.cause hfail
        · exact hmember.cause hfail
      · cases h

end Condition

namespace Path

open SyntaxError (InPath InCondition IsInvalidClause)

/-- A predicate that cannot be decided is at fault for a plain step. -/
theorem cause_of_lookup {expr : String} {p : Path} (hp : read expr = .ok p) {t : Tree}
    {e inner : LookupError} {element : Nat} (h : p.lookup t = .error e)
    (hcause : e.cause = .predicate element inner) : inner.cause.IsPlain := by
  rw [lookup_eq] at h
  obtain ⟨s, hs, u, hu⟩ := Selector.applyAll_eq_error h
  rw [hcause] at hu
  obtain ⟨c, v, rfl, hv⟩ := Selector.apply_eq_error_predicate hu
  exact (isFlat_of_read hp hs).cause hv

/-- **Predicates never nest.**  The conditions in a path are groups of groups of comparisons with
plain paths, an error is wrapped three times at most, two levels of paths are read at most, and a
predicate that cannot be decided is at fault for a plain step. -/
theorem read_never_nests (expr : String) :
    (∀ p, read expr = .ok p → (∀ c, .predicate c ∈ p.selectors → c.IsFlat) ∧
      ∀ t e element inner, p.lookup t = .error e → e.cause = .predicate element inner →
        inner.cause.IsPlain) ∧
      (∀ e, read expr = .error e → InPath (InCondition (InPath IsInvalidClause)) e) ∧
      read expr = readWithin 2 expr.toList :=
  ⟨fun _ hp => ⟨fun _ hc => isFlat_of_read hp hc,
      fun _ _ _ _ h hcause => cause_of_lookup hp h hcause⟩,
    fun _ h => wrapped_of_read h, read_eq_readWithin_two expr⟩

/-- The bounds are met: an error can be wrapped three times. -/
example : read "$.a[?(@.b[*]?(c) == 1)]" =
    .error (.inPredicate 6 "@.b[*]?(c) == 1"
      (.clausePath "@.b[*]?(c) == 1" "@.b[*]?(c) == 1"
        (.inPredicate 8 "c" (.invalidClause "c" "c")))) := rfl

end Path
end LintLocator
