import LintLocator.Document.Builder
import LintLocator.Proofs.Document.Outline
import Mathlib.Data.List.Infix

/-!
# The tree that an outline stands for

`Outline.denote` says which tree a node stands for, given the anchored nodes that were complete
before it.  Two theorems say what is found at an address of this tree:

* `at?_denote`: at every address of the outline stands what its node there stands for, given the
  anchored nodes that are complete at this point, `tableBefore`;
* `becomes_denote`: this is a node of the same kind with the same text or as many children, unless
  an alias stands there.

What becomes of an alias depends on how it lies to the node that it repeats:

* `lookup_tableBefore_of_precedes`: a node that is complete is found under its anchor as it is in
  the tree;
* `lookup_tableBefore_of_inside`: inside of a node nothing is found under its anchor.

Both need that no anchor is used twice.
-/

namespace LintLocator

namespace Tree

/-- The nodes right below a node, the keys and values of a mapping in turn. -/
def children : Tree → List Tree
  | .scalar .. => []
  | .sequence items _ => items
  | .mapping entries _ => entries.flatMap fun e => [e.1, e.2]

/-- The node at an address. -/
def at? : Tree → List Nat → Option Tree
  | t, [] => some t
  | t, i :: p => t.children[i]?.bind fun u => u.at? p

end Tree

namespace Document

open Yaml (Mark)

/-- The finished nodes that have an anchor, the last one first. -/
abbrev Anchors := List (Nat × Tree)

namespace Outline

/-! ## The tree of an outline -/

/-- The anchored nodes once a node with the given anchor is complete. -/
def noting (anchor : Option Nat) (t : Tree) (table : Anchors) : Anchors :=
  match anchor with
  | some id => (id, t) :: table
  | none => table

theorem lookup_noting {anchor : Option Nat} {id : Nat} (h : anchor ≠ some id) (t : Tree)
    (table : Anchors) : (noting anchor t table).lookup id = table.lookup id := by
  cases anchor with
  | none => rfl
  | some other =>
    have hne : (id == other) = false := by
      rw [beq_eq_false_iff_ne]
      rintro rfl
      exact h rfl
    rw [noting, List.lookup_cons, hne]

@[simp] theorem lookup_noting_self (id : Nat) (t : Tree) (table : Anchors) :
    (noting (some id) t table).lookup id = some t := by
  rw [noting, List.lookup_cons_self]

mutual

/-- The tree of a node, and the anchored nodes that are complete behind it, given those that were
complete before it. -/
def denote (lines : List (List Char)) : Outline → Anchors → Tree × Anchors
  | .scalar _ text _ anchor mark, table =>
    (.scalar text (positionOf mark), noting anchor (.scalar text (positionOf mark)) table)
  | .alias id mark, table => ((table.lookup id).getD (.scalar "" (positionOf mark)), table)
  | .sequence anchor start _ items, table =>
    let inner := denoteItems lines items table
    let t := Builder.sequenceOf lines (positionOf start) inner.1
    (t, noting anchor t inner.2)
  | .mapping anchor start _ entries, table =>
    let inner := denoteEntries lines entries table
    let t := Builder.mappingOf (positionOf start) inner.1
    (t, noting anchor t inner.2)

/-- The trees of the items of a sequence. -/
def denoteItems (lines : List (List Char)) : List Outline → Anchors → List Tree × Anchors
  | [], table => ([], table)
  | o :: os, table =>
    let first := o.denote lines table
    let others := denoteItems lines os first.2
    (first.1 :: others.1, others.2)

/-- The trees of the entries of a mapping. -/
def denoteEntries (lines : List (List Char)) :
    List (Outline × Outline) → Anchors → List (Tree × Tree) × Anchors
  | [], table => ([], table)
  | (key, value) :: es, table =>
    let first := key.denote lines table
    let second := value.denote lines first.2
    let others := denoteEntries lines es second.2
    ((first.1, second.1) :: others.1, others.2)

end

variable {lines : List (List Char)}

theorem denoteItems_cons (o : Outline) (os : List Outline) (table : Anchors) :
    denoteItems lines (o :: os) table =
      ((o.denote lines table).1 :: (denoteItems lines os (o.denote lines table).2).1,
        (denoteItems lines os (o.denote lines table).2).2) := rfl

theorem denoteEntries_cons (key value : Outline) (es : List (Outline × Outline))
    (table : Anchors) :
    denoteEntries lines ((key, value) :: es) table =
      let first := key.denote lines table
      let second := value.denote lines first.2
      let others := denoteEntries lines es second.2
      ((first.1, second.1) :: others.1, others.2) := rfl

/-- Entries are keys and values in turn. -/
theorem denoteItems_flatMap (es : List (Outline × Outline)) (table : Anchors) :
    denoteItems lines (es.flatMap fun e => [e.1, e.2]) table =
      ((denoteEntries lines es table).1.flatMap fun e => [e.1, e.2],
        (denoteEntries lines es table).2) := by
  induction es generalizing table with
  | nil => rfl
  | cons e es ih =>
    obtain ⟨key, value⟩ := e
    simp only [List.flatMap_cons, List.cons_append, List.nil_append, denoteItems_cons,
      denoteEntries_cons, ih]

/-- Items are read one after the other. -/
theorem denoteItems_append_cons (as bs : List Outline) (c : Outline) (table : Anchors) :
    denoteItems lines (as ++ c :: bs) table =
      let before := denoteItems lines as table
      let found := c.denote lines before.2
      let behind := denoteItems lines bs found.2
      (before.1 ++ found.1 :: behind.1, behind.2) := by
  induction as generalizing table with
  | nil => rfl
  | cons a as ih => simp only [List.cons_append, denoteItems_cons, ih]

@[simp] theorem length_denoteItems (os : List Outline) (table : Anchors) :
    (denoteItems lines os table).1.length = os.length := by
  induction os generalizing table with
  | nil => rfl
  | cons o os ih => simp only [denoteItems_cons, List.length_cons, ih]

@[simp] theorem length_denoteEntries (es : List (Outline × Outline)) (table : Anchors) :
    (denoteEntries lines es table).1.length = es.length := by
  induction es generalizing table with
  | nil => rfl
  | cons e es ih =>
    obtain ⟨key, value⟩ := e
    simp only [denoteEntries_cons, List.length_cons, ih]

theorem sequenceOf_eq (lines : List (List Char)) (start : Position) (items : List Tree) :
    ∃ pos, Builder.sequenceOf lines start items = .sequence items pos := by
  cases items with
  | nil => exact ⟨_, rfl⟩
  | cons first others => exact ⟨_, rfl⟩

theorem mappingOf_eq (start : Position) (entries : List (Tree × Tree)) :
    ∃ pos, Builder.mappingOf start entries = .mapping entries pos := by
  cases entries with
  | nil => exact ⟨_, rfl⟩
  | cons first others => exact ⟨_, rfl⟩

/-- The children of a node that has some become those of its tree. -/
theorem children_denote {o : Outline} (h : o.children ≠ []) (table : Anchors) :
    (o.denote lines table).1.children = (denoteItems lines o.children table).1 := by
  cases o with
  | scalar => exact absurd rfl h
  | «alias» => exact absurd rfl h
  | sequence anchor start stop items =>
    obtain ⟨pos, hpos⟩ := sequenceOf_eq lines (positionOf start)
      (denoteItems lines items table).1
    simp only [denote, hpos, Tree.children, children]
  | mapping anchor start stop entries =>
    obtain ⟨pos, hpos⟩ := mappingOf_eq (positionOf start) (denoteEntries lines entries table).1
    simp only [denote, hpos, Tree.children, children, denoteItems_flatMap]

/-- Behind a node, its children and the node itself have been added to the anchored nodes. -/
theorem table_denote (o : Outline) (table : Anchors) :
    (o.denote lines table).2 =
      noting o.anchor? (o.denote lines table).1 (denoteItems lines o.children table).2 := by
  cases o with
  | scalar => rfl
  | «alias» => rfl
  | sequence => rfl
  | mapping => simp only [denote, children, anchor?, denoteItems_flatMap]

/-! ## What stands at an address -/

/-- The anchored nodes that are complete before the node at an address. -/
def tableBefore (lines : List (List Char)) : Outline → List Nat → Anchors → Anchors
  | _, [], table => table
  | o, i :: p, table =>
    match o.children[i]? with
    | some c => c.tableBefore lines p (denoteItems lines (o.children.take i) table).2
    | none => table

@[simp] theorem tableBefore_nil (o : Outline) (table : Anchors) :
    o.tableBefore lines [] table = table := rfl

theorem tableBefore_cons {o c : Outline} {as bs : List Outline}
    (hsplit : o.children = as ++ c :: bs) (p : List Nat) (table : Anchors) :
    o.tableBefore lines (as.length :: p) table =
      c.tableBefore lines p (denoteItems lines as table).2 := by
  rw [tableBefore, hsplit, List.getElem?_append_right (Nat.le_refl _), Nat.sub_self,
    List.getElem?_cons_zero, List.take_left]

/-- **What stands at an address of the tree.**  It is what the node at this address of the outline
stands for, given the anchored nodes that are complete before it. -/
theorem at?_denote {o n : Outline} {p : List Nat} (h : o.at? p = some n) (table : Anchors) :
    (o.denote lines table).1.at? p = some (n.denote lines (o.tableBefore lines p table)).1 := by
  induction p generalizing o table with
  | nil =>
    obtain rfl := Option.some.inj h
    rfl
  | cons i p ih =>
    obtain ⟨as, c, bs, hsplit, rfl, hc⟩ := exists_child_of_at? h
    have hne : o.children ≠ [] := by simp [hsplit]
    have hchild : (o.denote lines table).1.children[as.length]? =
        some (c.denote lines (denoteItems lines as table).2).1 := by
      rw [children_denote hne, hsplit, denoteItems_append_cons,
        List.getElem?_append_right (by simp), length_denoteItems, Nat.sub_self,
        List.getElem?_cons_zero]
    rw [Tree.at?, hchild, tableBefore_cons hsplit]
    exact ih hc _

/-- What a node becomes: a node of the same kind, with the same text and position or with as many
children.  Aliases become copies, of which nothing is said here. -/
def Becomes : Outline → Tree → Prop
  | .scalar _ text _ _ mark, t => t = .scalar text (positionOf mark)
  | .alias .., _ => True
  | .sequence _ _ _ items, t => ∃ ts pos, t = .sequence ts pos ∧ ts.length = items.length
  | .mapping _ _ _ entries, t => ∃ es pos, t = .mapping es pos ∧ es.length = entries.length

theorem becomes_denote (o : Outline) (table : Anchors) :
    o.Becomes (o.denote lines table).1 := by
  cases o with
  | scalar => rfl
  | «alias» => trivial
  | sequence anchor start stop items =>
    obtain ⟨pos, hpos⟩ := sequenceOf_eq lines (positionOf start)
      (denoteItems lines items table).1
    exact ⟨_, pos, hpos, length_denoteItems items table⟩
  | mapping anchor start stop entries =>
    obtain ⟨pos, hpos⟩ := mappingOf_eq (positionOf start) (denoteEntries lines entries table).1
    exact ⟨_, pos, hpos, length_denoteEntries entries table⟩

/-! ## What is found under an anchor -/

/-- Items among which an anchor is not used do not change what is found under it. -/
theorem lookup_denoteItems_of_forall {id : Nat} {os : List Outline}
    (h : ∀ o ∈ os, ∀ table, (o.denote lines table).2.lookup id = table.lookup id)
    (table : Anchors) : (denoteItems lines os table).2.lookup id = table.lookup id := by
  induction os generalizing table with
  | nil => rfl
  | cons o os ih =>
    rw [denoteItems_cons, ih fun a ha => h a (List.mem_cons_of_mem _ ha)]
    exact h o List.mem_cons_self table

/-- A node in which an anchor is not used does not change what is found under it. -/
theorem lookup_denote_of_notMem {id : Nat} (o : Outline) :
    id ∉ o.anchors → ∀ table, (o.denote lines table).2.lookup id = table.lookup id := by
  induction o using Outline.induction with
  | step o ih =>
    intro hid table
    rw [anchors_eq, List.mem_append, not_or, List.mem_flatMap] at hid
    obtain ⟨hchildren, hown⟩ := hid
    rw [table_denote, lookup_noting fun h => hown (by simp [h])]
    exact lookup_denoteItems_of_forall
      (fun c hc => ih c hc fun hmem => hchildren ⟨c, hc, hmem⟩) table

theorem lookup_denoteItems_of_notMem {id : Nat} {os : List Outline}
    (h : ∀ o ∈ os, id ∉ o.anchors) (table : Anchors) :
    (denoteItems lines os table).2.lookup id = table.lookup id :=
  lookup_denoteItems_of_forall (fun o ho => lookup_denote_of_notMem o (h o ho)) table

/-- On the way down a node in which an anchor is not used, the same is found under it. -/
theorem lookup_tableBefore_of_notMem {id : Nat} {o n : Outline} {p : List Nat}
    (h : o.at? p = some n) (hid : id ∉ o.anchors) (table : Anchors) :
    (o.tableBefore lines p table).lookup id = table.lookup id := by
  induction p generalizing o table with
  | nil => rfl
  | cons i p ih =>
    obtain ⟨as, c, bs, hsplit, rfl, hc⟩ := exists_child_of_at? h
    have hchild : ∀ a ∈ o.children, id ∉ a.anchors := fun a ha hmem =>
      hid (anchors_eq o ▸ List.mem_append_left _ (List.mem_flatMap.mpr ⟨a, ha, hmem⟩))
    rw [tableBefore_cons hsplit, ih hc (hchild c (by simp [hsplit]))]
    exact lookup_denoteItems_of_notMem (fun a ha => hchild a (by simp [hsplit, ha])) table

/-- Behind a node, whatever has an anchor in it is found as it is in the tree. -/
theorem lookup_denote_of_at? {id : Nat} {o n : Outline} {p : List Nat} (hnodup : o.anchors.Nodup)
    (h : o.at? p = some n) (hid : n.anchor? = some id) (table : Anchors) :
    (o.denote lines table).2.lookup id =
      some (n.denote lines (o.tableBefore lines p table)).1 := by
  induction p generalizing o table with
  | nil =>
    obtain rfl := Option.some.inj h
    rw [table_denote, hid, lookup_noting_self, tableBefore_nil]
  | cons i p ih =>
    obtain ⟨as, c, bs, hsplit, rfl, hc⟩ := exists_child_of_at? h
    obtain ⟨hcnodup, hothers⟩ := nodup_split hsplit hnodup
    obtain ⟨-, hright, hown⟩ := hothers id (mem_anchors_of_at? hc hid)
    rw [table_denote, lookup_noting hown, hsplit, denoteItems_append_cons,
      lookup_denoteItems_of_notMem hright, tableBefore_cons hsplit]
    exact ih hcnodup hc _

/-- **A node that is complete is found as it is in the tree.** -/
theorem lookup_tableBefore_of_precedes {id : Nat} {o m n : Outline} {p q : List Nat}
    (hpq : Precedes p q) (hnodup : o.anchors.Nodup) (hp : o.at? p = some m)
    (hid : m.anchor? = some id) (hq : o.at? q = some n) (table : Anchors) :
    (o.tableBefore lines q table).lookup id =
      some (m.denote lines (o.tableBefore lines p table)).1 := by
  induction hpq generalizing o table with
  | parted hij p q =>
    obtain ⟨as, c, bs, d, cs, hsplit, rfl, rfl, hc, hd⟩ := exists_children_of_at? hij hp hq
    obtain ⟨hcnodup, hothers⟩ := nodup_split hsplit hnodup
    obtain ⟨-, hright, -⟩ := hothers id (mem_anchors_of_at? hc hid)
    -- the node is found behind `c`, and neither `bs` nor the way down `d` changes that
    have hbs : ∀ b ∈ bs, id ∉ b.anchors := fun b hb => hright b (by simp [hb])
    have hsplit' : o.children = (as ++ c :: bs) ++ d :: cs := by simp [hsplit]
    rw [tableBefore_cons hsplit', lookup_tableBefore_of_notMem hd (hright d (by simp)),
      denoteItems_append_cons, lookup_denoteItems_of_notMem hbs, tableBefore_cons hsplit]
    exact lookup_denote_of_at? hcnodup hc hid _
  | together i hpq ih =>
    obtain ⟨as, c, bs, hsplit, rfl, hc⟩ := exists_child_of_at? hp
    rw [at?_cons hsplit] at hq
    rw [tableBefore_cons hsplit, tableBefore_cons hsplit]
    exact ih (nodup_split hsplit hnodup).1 hc hq _

/-- **Inside of a node nothing is found under its anchor**, unless it was found before the outline
began. -/
theorem lookup_tableBefore_of_inside {id : Nat} {o m n : Outline} {p q : List Nat}
    (hpq : p <+: q) (hnodup : o.anchors.Nodup) (hp : o.at? p = some m)
    (hid : m.anchor? = some id) (hq : o.at? q = some n) (table : Anchors) :
    (o.tableBefore lines q table).lookup id = table.lookup id := by
  obtain ⟨r, rfl⟩ := hpq
  induction p generalizing o table with
  | nil =>
    obtain rfl := Option.some.inj hp
    cases r with
    | nil => rfl
    | cons i r =>
      obtain ⟨as, c, bs, hsplit, rfl, hc⟩ := exists_child_of_at? hq
      have hchild : ∀ a ∈ o.children, id ∉ a.anchors := by
        intro a ha hmem
        rw [anchors_eq, hid] at hnodup
        exact (List.nodup_append.mp hnodup).2.2 id (List.mem_flatMap.mpr ⟨a, ha, hmem⟩) id
          (by simp) rfl
      rw [List.nil_append, tableBefore_cons hsplit,
        lookup_tableBefore_of_notMem hc (hchild c (by simp [hsplit]))]
      exact lookup_denoteItems_of_notMem (fun a ha => hchild a (by simp [hsplit, ha])) table
  | cons i p ih =>
    obtain ⟨as, c, bs, hsplit, rfl, hc⟩ := exists_child_of_at? hp
    obtain ⟨hcnodup, hothers⟩ := nodup_split hsplit hnodup
    obtain ⟨hleft, -, -⟩ := hothers id (mem_anchors_of_at? hc hid)
    rw [List.cons_append, at?_cons hsplit] at hq
    rw [List.cons_append, tableBefore_cons hsplit, ih hcnodup hc _ hq]
    exact lookup_denoteItems_of_notMem hleft table

end Outline
end Document
end LintLocator
