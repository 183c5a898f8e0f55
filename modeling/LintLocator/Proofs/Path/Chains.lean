import LintLocator.Proofs.Path.Nesting

/-!
# Chains of keys and paths of names

There are two ways to go down a tree by names.  One looks up a key, and then a key in what it has
found, and knows nothing but mappings.  The other one follows a path, and there a name can count an
item of a sequence as well.  A key is looked up by the same rule in both, so they part at sequences
only: a chain of keys finds what the path of the same names leads to, unless a step of the path is
applied to a sequence.

* `Selector.trail`: the nodes that steps are applied to;
* `Tree.get?_eq_some_iff`: one key against one name;
* `Tree.getAll?_eq_some_iff_applyAll`: a chain of keys against a row of names;
* `Path.getAll?_eq_some_iff_lookup`, `Path.getAll?_eq_none_iff_lookup`: what a chain finds, and when
  it finds nothing;
* `Path.getAll?_iff_lookup_ofNames`: both together.
-/

namespace LintLocator

/-- The path whose steps are names. -/
def Path.ofNames (root : Root) (names : List String) : Path := ⟨root, names.map .property⟩

/-- The nodes that steps are applied to.  The last one is the one at which a step fails, or the one
that the last step is applied to. -/
def Selector.trail : List Selector → Tree → List Tree
  | [], _ => []
  | s :: ss, t =>
    t :: match s.apply t with
      | .ok u => Selector.trail ss u
      | .error _ => []

/-- The nodes that the steps of a path are applied to. -/
def Path.trail (p : Path) (t : Tree) : List Tree := Selector.trail p.selectors t

namespace Tree

open Selector (applyAll trail)

/-- A key is found just if the name leads to a node and is not about an item of a sequence. -/
theorem get?_eq_some_iff {t u : Tree} {name : String} :
    t.get? name = some u ↔ Selector.child name t = .ok u ∧ t.kind ≠ .sequence := by
  cases t with
  | scalar => simp [get?, Selector.child]
  | sequence => simp [get?, kind]
  | mapping entries pos =>
    rw [get?, Selector.child]
    cases entry? name entries <;> simp [kind]

/-- **A chain of keys finds what the names lead to,** if none of them is applied to a sequence. -/
theorem getAll?_eq_some_iff_applyAll {t u : Tree} {names : List String} (step : Nat) :
    t.getAll? names = some u ↔
      applyAll (names.map .property) step t = .ok u ∧
        ∀ v ∈ trail (names.map .property) t, v.kind ≠ .sequence := by
  induction names generalizing step t with
  | nil => simp [getAll?, Selector.applyAll_nil, trail]
  | cons name names ih =>
    rw [getAll?, Option.bind_eq_some_iff, List.map_cons, Selector.applyAll_cons, trail,
      Selector.apply_property, List.forall_mem_cons]
    constructor
    · rintro ⟨v, hv, hu⟩
      obtain ⟨hchild, hkind⟩ := get?_eq_some_iff.mp hv
      obtain ⟨hlead, htrail⟩ := (ih (step + 1)).mp hu
      rw [hchild]
      exact ⟨hlead, hkind, htrail⟩
    · rintro ⟨hlead, hkind, htrail⟩
      cases hchild : Selector.child name t with
      | error cause =>
        rw [hchild] at hlead
        cases hlead
      | ok v =>
        rw [hchild] at hlead htrail
        exact ⟨v, get?_eq_some_iff.mpr ⟨hchild, hkind⟩, (ih (step + 1)).mpr ⟨hlead, htrail⟩⟩

end Tree

namespace Path

variable (root : Root) (names : List String) (t : Tree)

theorem getAll?_eq_some_iff_lookup {u : Tree} :
    t.getAll? names = some u ↔ (ofNames root names).lookup t = .ok u ∧
      ∀ v ∈ (ofNames root names).trail t, v.kind ≠ .sequence := by
  rw [lookup_eq]
  exact Tree.getAll?_eq_some_iff_applyAll 0

/-- A chain finds nothing if the path fails, and it does not get past a sequence. -/
theorem getAll?_eq_none_iff_lookup :
    t.getAll? names = none ↔ (∃ e, (ofNames root names).lookup t = .error e) ∨
      ∃ v ∈ (ofNames root names).trail t, v.kind = .sequence := by
  rw [Option.eq_none_iff_forall_ne_some]
  simp only [Ne, getAll?_eq_some_iff_lookup root]
  cases (ofNames root names).lookup t with
  | error e => exact iff_of_true (fun u hu => by cases hu.1) (.inl ⟨e, rfl⟩)
  | ok u =>
    constructor
    · intro hnone
      by_contra hoff
      exact hnone u ⟨rfl, fun v hv hkind => hoff (.inr ⟨v, hv, hkind⟩)⟩
    · rintro (⟨e, he⟩ | ⟨v, hv, hkind⟩) w ⟨-, htrail⟩
      · cases he
      · exact htrail v hv hkind

end Path

/-- **Looking up keys and following names agree off sequences.**  A chain of keys finds a node just
if the path of the same names leads to it and none of its steps is applied to a sequence.  It finds
nothing just if the path fails or one of its steps is applied to a sequence. -/
theorem Path.getAll?_iff_lookup_ofNames (root : Root) (names : List String) (t : Tree) :
    let path := Path.ofNames root names
    (∀ u, t.getAll? names = some u ↔
      path.lookup t = .ok u ∧ ∀ v ∈ path.trail t, v.kind ≠ .sequence) ∧
    (t.getAll? names = none ↔
      (∃ e, path.lookup t = .error e) ∨ ∃ v ∈ path.trail t, v.kind = .sequence) :=
  ⟨fun _ => getAll?_eq_some_iff_lookup root names t, getAll?_eq_none_iff_lookup root names t⟩

/-- Digits are a key of a mapping and count an item of a sequence, so the chain parts from the path
in the second half only. -/
example :
    let items : Tree := .sequence [.scalar "x" ⟨1, 9⟩] ⟨1, 8⟩
    let t : Tree := .mapping [(.scalar "0" ⟨1, 1⟩, items)] ⟨1, 1⟩
    t.getAll? ["0"] = some items ∧ (Path.ofNames .absolute ["0"]).lookup t = .ok items ∧
      t.getAll? ["0", "0"] = none ∧
        (Path.ofNames .absolute ["0", "0"]).lookup t = .ok (.scalar "x" ⟨1, 9⟩) :=
  ⟨rfl, rfl, rfl, rfl⟩

end LintLocator
