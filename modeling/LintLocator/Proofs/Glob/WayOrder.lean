import LintLocator.Proofs.Glob.Ways
import Mathlib.Data.List.Lex

/-!
# The order of ways

In a folder a search tries `..` and `.` before the names, which come in their order, and it is done
with one place before it goes to the next.  So ways come in the order of their rows: the first rows
that differ decide, and there the first steps that differ.  This is not the order of the paths they
spell, because how a path falls into rows counts too.

* `Glob.WayBefore`: the order of ways;
* `Glob.pairwise_ways`, `Glob.pairwise_found`: a search finds things in this order, each way once.
-/

namespace LintLocator
namespace Glob

open FileTree (routes lastName IsName)

/-! ## The orders -/

/-- The order in which steps are tried: first up, then nowhere, then the names. -/
inductive StepBefore : String → String → Prop where
  | up_dot : StepBefore ".." "."
  | up_name {b : String} (hb : IsName b) : StepBefore ".." b
  | dot_name {b : String} (hb : IsName b) : StepBefore "." b
  | names {a b : String} (ha : IsName a) (hb : IsName b) (hlt : a < b) : StepBefore a b

/-- The order of rows: the first steps that differ decide. -/
abbrev RowBefore : List String → List String → Prop := List.Lex StepBefore

/-- The order of ways: the first rows that differ decide. -/
abbrev WayBefore : Way → Way → Prop := List.Lex RowBefore

theorem StepBefore.ne {a b : String} (h : StepBefore a b) : a ≠ b := by
  cases h with
  | up_dot => decide
  | up_name hb => exact hb.ne_up.symm
  | dot_name hb => exact hb.ne_dot.symm
  | names _ _ hlt => exact String.ne_of_lt hlt

theorem RowBefore.ne {r u : List String} (h : RowBefore r u) : r ≠ u :=
  (List.Lex.imp (fun _ _ => StepBefore.ne) r u h).to_ne

theorem WayBefore.ne {w v : Way} (h : WayBefore w v) : w ≠ v :=
  (List.Lex.imp (fun _ _ => RowBefore.ne) w v h).to_ne

/-- Rows of names are compared name by name. -/
theorem rowBefore_of_lex {r u : List String} (hr : ∀ s ∈ r, IsName s) (hu : ∀ s ∈ u, IsName s)
    (h : List.Lex (· < ·) r u) : RowBefore r u := by
  induction h with
  | nil => exact .nil
  | cons _ ih =>
    exact .cons (ih (List.forall_mem_cons.mp hr).2 (List.forall_mem_cons.mp hu).2)
  | rel hlt =>
    exact .rel (.names (List.forall_mem_cons.mp hr).1 (List.forall_mem_cons.mp hu).1 hlt)

/-! ## The order of a search -/

variable {p : Place} {tokens : List Token}

theorem pairwise_dots (tokens : List Token) : (dots tokens).Pairwise StepBefore := by
  have hboth : ["..", "."].Pairwise StepBefore := by simpa using StepBefore.up_dot
  rw [dots]
  split
  · exact hboth.sublist List.filter_sublist
  · exact .nil

theorem pairwise_stepNames {t : FileTree} (ht : t.WellFormed) (tokens : List Token) :
    (stepNames tokens t).Pairwise StepBefore := by
  rw [stepNames]
  cases literal? tokens with
  | some text => exact List.pairwise_singleton _ _
  | none =>
    have hnamed : ∀ s ∈ t.entries.map Prod.fst, IsName s := by
      intro s hs
      obtain ⟨e, he, rfl⟩ := List.mem_map.mp hs
      exact (ht.named e he).toIsName
    have hnames : (t.entries.map Prod.fst).Pairwise StepBefore :=
      ht.ascending.imp_of_mem fun ha hb hlt => .names (hnamed _ ha) (hnamed _ hb) hlt
    refine List.pairwise_append.mpr
      ⟨pairwise_dots tokens, hnames.sublist List.filter_sublist, fun a ha b hb => ?_⟩
    have hb' := hnamed b (List.mem_of_mem_filter hb)
    rcases mem_dots ha with rfl | rfl
    · exact .up_name hb'
    · exact .dot_name hb'

theorem pairwise_routes (hp : p.WellFormed) : (routes p.here).Pairwise RowBefore := by
  refine (FileTree.pairwise_routes hp.here).imp_of_mem fun hr hu hlex => ?_
  obtain ⟨-, hr, -⟩ := (FileTree.mem_routes_iff hp).mp hr
  obtain ⟨-, hu, -⟩ := (FileTree.mem_routes_iff hp).mp hu
  exact rowBefore_of_lex hr hu hlex

/-- A move tries its rows in their order. -/
theorem pairwise_rows (hp : p.WellFormed) (m : Move) : (m.rows p.here).Pairwise RowBefore := by
  cases m with
  | name tokens => exact (pairwise_stepNames hp.here tokens).map _ fun a b => List.Lex.rel
  | folders => exact pairwise_routes hp
  | deep part => exact (pairwise_routes hp).sublist List.filter_sublist

theorem pairwise_reach (hp : p.WellFormed) (m : Move) :
    (m.reach p).Pairwise fun s u => RowBefore s.1 u.1 := by
  rw [Move.reach, List.pairwise_filterMap]
  refine (pairwise_rows hp m).imp fun h s hs u hu => ?_
  rw [(Place.along?_eq_some_iff.mp hs).1, (Place.along?_eq_some_iff.mp hu).1]
  exact h

/-- **A search goes along the ways in their order.** -/
theorem pairwise_ways (hp : p.WellFormed) (ms : List Move) :
    (ways ms p).Pairwise fun w v => WayBefore w.1 v.1 := by
  induction ms generalizing p with
  | nil => exact List.pairwise_singleton _ _
  | cons m ms ih =>
    rw [ways_cons, List.pairwise_flatMap]
    refine ⟨fun s hs => ?_, (pairwise_reach hp m).imp fun hrow w hw v hv => ?_⟩
    · obtain ⟨-, hwalk⟩ := mem_reach_iff.mp hs
      exact (ih (hp.walk? hwalk)).map _ fun w v => List.Lex.cons
    · obtain ⟨w', -, rfl⟩ := List.mem_map.mp hw
      obtain ⟨v', -, rfl⟩ := List.mem_map.mp hv
      exact .rel hrow

theorem pairwise_found {origin : Option Place} (horigin : ∀ p ∈ origin, p.WellFormed)
    (pattern : String) (ms : List Move) :
    (found pattern ms origin).Pairwise fun w v => WayBefore w.1 v.1 := by
  refine List.Pairwise.sublist List.filter_sublist ?_
  cases horigin' : origin with
  | none => exact .nil
  | some p =>
    rw [Option.toList_some, List.flatMap_singleton]
    exact pairwise_ways (horigin p (by simp [horigin'])) ms

end Glob
end LintLocator
