import LintLocator.Proofs.FileTree.Steps

/-!
# Everything below a folder

What is below a folder is reached from it by a row of names, at least one.  The rows are listed in
the order in which a search goes through the folder: each entry is followed by everything below it.

* `FileTree.routes`: the rows of names that lead to what is below a tree;
* `FileTree.mem_routes_iff`: these are all rows of names that lead anywhere;
* `FileTree.pairwise_routes`: they are ascending, compared name by name;
* `Place.below_eq`: they lead to the places below a place.
-/

namespace LintLocator
namespace FileTree

mutual

/-- The rows of names that lead to everything below a tree. -/
def routes : FileTree → List (List String)
  | .file _ => []
  | .folder entries => entryRoutes entries

/-- The rows of names that lead to the entries of a folder, and to everything below them. -/
def entryRoutes : List (String × FileTree) → List (List String)
  | [] => []
  | (name, t) :: es => [name] :: (routes t).map (name :: ·) ++ entryRoutes es

end

variable {p q : Place} {r : List String}

theorem routes_eq (t : FileTree) : routes t = entryRoutes t.entries := by
  cases t <;> rfl

theorem mem_entryRoutes {es : List (String × FileTree)} :
    r ∈ entryRoutes es ↔ ∃ e ∈ es, r = [e.1] ∨ ∃ r' ∈ routes e.2, r = e.1 :: r' := by
  induction es with
  | nil => simp [entryRoutes]
  | cons e es ih =>
    obtain ⟨name, t⟩ := e
    rw [List.exists_mem_cons_iff, ← ih, entryRoutes, List.cons_append, List.mem_cons,
      List.mem_append, List.mem_map, or_assoc]
    simp only [@eq_comm _ (name :: _)]

theorem ne_nil_of_mem_routes {t : FileTree} (h : r ∈ routes t) : r ≠ [] := by
  rw [routes_eq, mem_entryRoutes] at h
  obtain ⟨e, -, rfl | ⟨r', -, rfl⟩⟩ := h <;> exact List.cons_ne_nil _ _

/-- The step to an entry. -/
theorem step?_of_mem {path name : String} {above : List FileTree} {here t : FileTree}
    (hhere : here.WellFormed) (h : (name, t) ∈ here.entries) :
    Place.step? ⟨path, above, here⟩ name = some ⟨joinPath path name, here :: above, t⟩ := by
  rw [Place.step?_of_isName (hhere.named _ h).toIsName, hhere.child?_eq_some_iff.mpr h,
    Option.map_some]

/-- **The rows of names that lead anywhere.** -/
theorem mem_routes_iff (hp : p.WellFormed) :
    r ∈ routes p.here ↔ r ≠ [] ∧ (∀ s ∈ r, IsName s) ∧ ∃ q, Place.walk? r p = some q := by
  induction r generalizing p with
  | nil => exact ⟨fun h => absurd rfl (ne_nil_of_mem_routes h), fun h => absurd rfl h.1⟩
  | cons s r ih =>
    have hnext {t : FileTree} (ht : (s, t) ∈ p.here.entries) :
        p.step? s = some ⟨joinPath p.path s, p.here :: p.above, t⟩ := step?_of_mem hp.here ht
    rw [routes_eq, mem_entryRoutes, List.forall_mem_cons]
    constructor
    · rintro ⟨⟨name, t⟩, he, hr⟩
      obtain rfl : s = name := by rcases hr with hr | ⟨r', -, hr⟩ <;> exact (List.cons.inj hr).1
      have hname := (hp.here.named _ he).toIsName
      rcases hr with hr | ⟨r', hr', hr⟩
      · obtain rfl := (List.cons.inj hr).2
        exact ⟨List.cons_ne_nil _ _, ⟨hname, by simp⟩, _, by rw [Place.walk?_cons, hnext he]; rfl⟩
      · obtain rfl := (List.cons.inj hr).2
        obtain ⟨-, hnames, q, hq⟩ := (ih (hp.step? (hnext he))).mp hr'
        refine ⟨List.cons_ne_nil _ _, ⟨hname, hnames⟩, q, ?_⟩
        rw [Place.walk?_cons, hnext he]
        exact hq
    · rintro ⟨-, ⟨hname, hnames⟩, q, hq⟩
      obtain ⟨next, hstep, hrest⟩ := Option.bind_eq_some_iff.mp hq
      have hwell := hp.step? hstep
      rw [Place.step?_of_isName hname] at hstep
      obtain ⟨t, hchild, rfl⟩ := Option.map_eq_some_iff.mp hstep
      refine ⟨(s, t), hp.here.child?_eq_some_iff.mp hchild, ?_⟩
      by_cases hr : r = []
      · exact .inl (by rw [hr])
      · exact .inr ⟨r, (ih hwell).mpr ⟨hr, hnames, q, hrest⟩, rfl⟩

/-! ## Their order -/

/-- The entries of a folder and all that is below them come in the order of their names. -/
theorem pairwise_entryRoutes {es : List (String × FileTree)}
    (hascending : (es.map Prod.fst).Pairwise (· < ·))
    (hinner : ∀ e ∈ es, (routes e.2).Pairwise (List.Lex (· < ·))) :
    (entryRoutes es).Pairwise (List.Lex (· < ·)) := by
  induction es with
  | nil => exact .nil
  | cons e es ih =>
    obtain ⟨name, t⟩ := e
    obtain ⟨hfirst, hascending⟩ := List.pairwise_cons.mp hascending
    obtain ⟨ht, hinner⟩ := List.forall_mem_cons.mp hinner
    have hlater : ∀ r ∈ entryRoutes es, ∃ s r', r = s :: r' ∧ name < s := by
      intro r hr
      obtain ⟨e, he, rfl | ⟨r', -, rfl⟩⟩ := mem_entryRoutes.mp hr
      · exact ⟨e.1, [], rfl, hfirst _ (List.mem_map_of_mem he)⟩
      · exact ⟨e.1, r', rfl, hfirst _ (List.mem_map_of_mem he)⟩
    have hbelow : ((routes t).map (name :: ·)).Pairwise (List.Lex (· < ·)) :=
      ht.map _ fun r u => List.Lex.cons
    rw [entryRoutes, List.cons_append, List.pairwise_cons, List.pairwise_append]
    refine ⟨fun r hr => ?_, hbelow, ih hascending hinner, fun r hr u hu => ?_⟩
    · rcases List.mem_append.mp hr with hr | hr
      · obtain ⟨r', hr', rfl⟩ := List.mem_map.mp hr
        obtain ⟨s, r'', rfl⟩ := List.exists_cons_of_ne_nil (ne_nil_of_mem_routes hr')
        exact .cons .nil
      · obtain ⟨s, r', rfl, hlt⟩ := hlater r hr
        exact .rel hlt
    · obtain ⟨r', -, rfl⟩ := List.mem_map.mp hr
      obtain ⟨s, u', rfl, hlt⟩ := hlater u hu
      exact .rel hlt

/-- **They are ascending**, where each folder comes before what is below it. -/
theorem pairwise_routes {t : FileTree} (h : t.WellFormed) :
    (routes t).Pairwise (List.Lex (· < ·)) := by
  induction h with
  | file => exact .nil
  | folder ascending _ _ ih => exact pairwise_entryRoutes ascending ih

/-! ## Places -/

/-- The last name of a row, which is the name of what it leads to. -/
def lastName (r : List String) : String := r.getLast?.getD ""

/-- The place that a row of names leads to, under the last of them. -/
def named? (p : Place) (r : List String) : Option (String × Place) :=
  (Place.walk? r p).map fun q => (lastName r, q)

theorem filterMap_routes_cons {path name : String} {above : List FileTree} {here t : FileTree}
    (hhere : here.WellFormed) (h : (name, t) ∈ here.entries) :
    ((routes t).map (name :: ·)).filterMap (named? ⟨path, above, here⟩) =
      (routes t).filterMap (named? ⟨joinPath path name, here :: above, t⟩) := by
  rw [List.filterMap_map]
  refine List.filterMap_congr fun r hr => ?_
  rw [Function.comp_apply, named?, named?, Place.walk?_cons, step?_of_mem hhere h, Option.bind_some,
    lastName, lastName, List.getLast?_cons_of_ne_nil (ne_nil_of_mem_routes hr)]

theorem belowTree_eq {t : FileTree} (h : t.WellFormed) (path : String) (above : List FileTree) :
    Place.belowTree path above t = (routes t).filterMap (named? ⟨path, above, t⟩) := by
  induction h generalizing path above with
  | file => rfl
  | @folder entries ascending named inner ih =>
    have hhere : (FileTree.folder entries).WellFormed := .folder ascending named inner
    have hentries : ∀ es : List (String × FileTree), (∀ e ∈ es, e ∈ entries) →
        Place.belowEntries path (.folder entries :: above) es =
          (entryRoutes es).filterMap (named? ⟨path, above, .folder entries⟩) := by
      intro es hes
      induction es with
      | nil => rfl
      | cons e es ihes =>
        obtain ⟨name, t⟩ := e
        obtain ⟨he, hes⟩ := List.forall_mem_cons.mp hes
        have hfirst : named? ⟨path, above, .folder entries⟩ [name] =
            some (name, ⟨joinPath path name, .folder entries :: above, t⟩) := by
          rw [named?, Place.walk?_cons, step?_of_mem hhere he]
          rfl
        rw [Place.belowEntries, entryRoutes, ih _ he, ihes hes, List.cons_append, List.cons_append,
          List.filterMap_cons_some hfirst, List.filterMap_append, filterMap_routes_cons hhere he]
    exact hentries entries fun _ he => he

end FileTree

/-- **What is below a place** is under the last of the names that lead there. -/
theorem Place.below_eq {p : Place} (hp : p.WellFormed) :
    p.below = ((FileTree.routes p.here).filterMap p.along?).map fun s =>
      (FileTree.lastName s.1, s.2) := by
  rw [List.map_filterMap]
  refine (FileTree.belowTree_eq hp.here p.path p.above).trans (List.filterMap_congr fun r _ => ?_)
  rw [FileTree.named?, along?, Option.map_map]
  rfl

end LintLocator
