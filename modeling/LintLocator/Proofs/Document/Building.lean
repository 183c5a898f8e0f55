import LintLocator.Proofs.Document.Denotation

/-!
# The builder reads events as they are meant

The builder has no recursion: it keeps the open containers on a stack, their children in reverse
order, the half-filled entry of a mapping and a table of anchored nodes.  What carries it through is
a statement about one node in the middle of everything else, `run_events`: the events of a node
leave the stack as it is, hand the node's tree to the innermost open container, and add its anchored
nodes to the table.  For the children of a container this is repeated with the container on top of
the stack (`run_itemEvents`, `run_entryEvents`).

* `Mirrors`: what it means that a tree loses and invents nothing;
* `run_document`: the events of a document leave the tree that they stand for and nothing else.
-/

namespace LintLocator
namespace Document

open Yaml (Event EventKind Mark)

namespace Builder

variable {lines : List (List Char)}

@[simp] theorem run_cons (b : Builder) (e : Event) (es : List Event) :
    b.run lines (e :: es) = (b.step lines e).run lines es := rfl

theorem run_append (b : Builder) (es fs : List Event) :
    b.run lines (es ++ fs) = (b.run lines es).run lines fs := List.foldl_append

theorem remember_eq (b : Builder) (anchor : Option Nat) (t : Tree) :
    b.remember anchor t = { b with anchors := Outline.noting anchor t b.anchors } := by
  cases anchor with
  | none => rfl
  | some id => rfl

/-- A container begins with its start. -/
theorem step_sequenceStart (b : Builder) (anchor : Option Nat) (mark : Mark) :
    b.step lines ⟨.sequenceStart anchor, mark⟩ =
      ⟨.sequence anchor (positionOf mark) [] :: b.stack, b.anchors, b.document⟩ := rfl

theorem step_mappingStart (b : Builder) (anchor : Option Nat) (mark : Mark) :
    b.step lines ⟨.mappingStart anchor, mark⟩ =
      ⟨.mapping anchor (positionOf mark) [] none :: b.stack, b.anchors, b.document⟩ := rfl

/-- The end of a container makes it a node of the container around it. -/
theorem step_sequenceEnd (anchor : Option Nat) (pos : Position) (items : List Tree)
    (outer : List Frame) (table : Anchors) (document : Option Tree) (mark : Mark) :
    (⟨.sequence anchor pos items :: outer, table, document⟩ : Builder).step lines
        ⟨.sequenceEnd, mark⟩ =
      (⟨outer, Outline.noting anchor (sequenceOf lines pos items.reverse) table,
        document⟩ : Builder).push (sequenceOf lines pos items.reverse) := by
  show (remember _ anchor _).push _ = _
  rw [remember_eq]

theorem step_mappingEnd (anchor : Option Nat) (pos : Position) (entries : List (Tree × Tree))
    (key : Option Tree) (outer : List Frame) (table : Anchors) (document : Option Tree)
    (mark : Mark) :
    (⟨.mapping anchor pos entries key :: outer, table, document⟩ : Builder).step lines
        ⟨.mappingEnd, mark⟩ =
      (⟨outer, Outline.noting anchor (mappingOf pos entries.reverse) table,
        document⟩ : Builder).push (mappingOf pos entries.reverse) := by
  show (remember _ anchor _).push _ = _
  rw [remember_eq]

/-- The builder reads a node as it is meant: wherever the events of the node come, they add its tree
to the innermost open container and its anchored nodes to the table. -/
def Reads (lines : List (List Char)) (o : Outline) : Prop :=
  ∀ b : Builder, b.run lines o.events =
    { b with anchors := (o.denote lines b.anchors).2 }.push (o.denote lines b.anchors).1

/-- The items of a sequence are gathered in reverse order. -/
theorem run_itemEvents {os : List Outline} (h : ∀ o ∈ os, Reads lines o) (anchor : Option Nat)
    (pos : Position) (items : List Tree) (outer : List Frame) (table : Anchors)
    (document : Option Tree) :
    (⟨.sequence anchor pos items :: outer, table, document⟩ : Builder).run lines
        (Outline.itemEvents os) =
      ⟨.sequence anchor pos ((Outline.denoteItems lines os table).1.reverse ++ items) :: outer,
        (Outline.denoteItems lines os table).2, document⟩ := by
  induction os generalizing items table with
  | nil => rfl
  | cons o os ih =>
    rw [Outline.itemEvents_cons, run_append, h o List.mem_cons_self, push,
      ih fun a ha => h a (List.mem_cons_of_mem _ ha)]
    simp only [Outline.denoteItems_cons, List.reverse_cons, List.append_assoc,
      List.singleton_append]

/-- The entries of a mapping are gathered in reverse order.  Between two of them no key waits for
its value. -/
theorem run_entryEvents {es : List (Outline × Outline)}
    (h : ∀ e ∈ es, Reads lines e.1 ∧ Reads lines e.2) (anchor : Option Nat) (pos : Position)
    (entries : List (Tree × Tree)) (outer : List Frame) (table : Anchors)
    (document : Option Tree) :
    (⟨.mapping anchor pos entries none :: outer, table, document⟩ : Builder).run lines
        (Outline.entryEvents es) =
      ⟨.mapping anchor pos ((Outline.denoteEntries lines es table).1.reverse ++ entries) none ::
          outer, (Outline.denoteEntries lines es table).2, document⟩ := by
  induction es generalizing entries table with
  | nil => rfl
  | cons e es ih =>
    obtain ⟨key, value⟩ := e
    obtain ⟨hkey, hvalue⟩ := h (key, value) List.mem_cons_self
    rw [Outline.entryEvents_cons, run_append, hkey, push, run_append, hvalue, push,
      ih fun a ha => h a (List.mem_cons_of_mem _ ha)]
    simp only [Outline.denoteEntries_cons, List.reverse_cons, List.append_assoc,
      List.singleton_append]

/-- **The builder reads every node as it is meant.** -/
theorem run_events (o : Outline) : Reads lines o := by
  induction o using Outline.induction with
  | step o ih =>
    intro b
    obtain ⟨stack, table, document⟩ := b
    cases o with
    | scalar style text tagged anchor mark =>
      show (remember _ anchor _).push _ = _
      rw [remember_eq]
      rfl
    | «alias» id mark => rfl
    -- the children of a container are read with the container on top of the stack
    | sequence anchor start stop items =>
      have hitems : ∀ c ∈ items, Reads lines c := ih
      rw [Outline.events_sequence, run_cons, step_sequenceStart, run_append, run_itemEvents hitems,
        run_cons, step_sequenceEnd, List.append_nil, List.reverse_reverse]
      rfl
    | mapping anchor start stop entries =>
      have hentries : ∀ e ∈ entries, Reads lines e.1 ∧ Reads lines e.2 := fun e he =>
        ⟨ih e.1 (List.mem_flatMap.mpr ⟨e, he, by simp⟩),
          ih e.2 (List.mem_flatMap.mpr ⟨e, he, by simp⟩)⟩
      rw [Outline.events_mapping, run_cons, step_mappingStart, run_append, run_entryEvents hentries,
        run_cons, step_mappingEnd, List.append_nil, List.reverse_reverse]
      rfl

/-- The builder reads a document: its root is left, and no container is open. -/
theorem run_enclosed (o : Outline) (start stop : Mark) :
    Builder.empty.run lines (⟨.documentStart, start⟩ :: (o.events ++ [⟨.documentEnd, stop⟩])) =
      ⟨[], (o.denote lines []).2, some (o.denote lines []).1⟩ := by
  rw [run_cons, run_append, run_events]
  rfl

end Builder

/-- A tree loses and invents nothing of an outline. -/
structure Outline.Mirrors (o : Outline) (t : Tree) : Prop where
  /-- Every node but an alias is found again at its address, of the same kind, with the same text or
  as many children. -/
  nodes : ∀ p n, o.at? p = some n → ∃ u, t.at? p = some u ∧ n.Becomes u
  /-- An alias whose anchored node is complete is a copy of it, positions and all. -/
  copies : ∀ p q n id mark, n.anchor? = some id → o.at? p = some n →
    o.at? q = some (.alias id mark) → Outline.Precedes p q → t.at? q = t.at? p
  /-- An alias inside of its anchored node is an empty scalar at the place of the alias. -/
  loops : ∀ p q n id mark, n.anchor? = some id → o.at? p = some n →
    o.at? q = some (.alias id mark) → p <+: q → t.at? q = some (.scalar "" (positionOf mark))

/-- The tree that an outline stands for loses and invents nothing. -/
theorem Outline.mirrors_denote (lines : List (List Char)) {o : Outline} (h : o.anchors.Nodup) :
    o.Mirrors (o.denote lines []).1 := by
  refine ⟨fun p n hn => ?_, fun p q n id mark hid hp hq hpq => ?_,
    fun p q n id mark hid hp hq hpq => ?_⟩
  · exact ⟨_, at?_denote hn [], becomes_denote n _⟩
  · rw [at?_denote hp, at?_denote hq, denote, lookup_tableBefore_of_precedes hpq h hp hid hq]
    rfl
  · rw [at?_denote hq, denote, lookup_tableBefore_of_inside hpq h hp hid hq]
    rfl

namespace Builder

/-- **The events of a document leave the tree that they stand for.**  Where the events are nested
and no anchor is given twice, they are those of an outline.  Behind them no container is open, the
document is the tree of the outline, and this tree loses and invents nothing. -/
theorem run_document (lines : List (List Char)) {es : List Event} (hnested : Nested 1 es)
    (hanchors : (es.filterMap Outline.anchorOf).Nodup) (start stop : Mark) :
    ∃ b : Builder, Builder.empty.run lines
        (⟨.documentStart, start⟩ :: (es ++ [⟨.documentEnd, stop⟩])) = b ∧
      b.stack = [] ∧ (∃ o : Outline, o.events = es) ∧
      ∀ o : Outline, o.events = es →
        b.document = some (o.denote lines []).1 ∧ o.Mirrors (o.denote lines []).1 := by
  have hrun : ∀ o : Outline, o.events = es →
      Builder.empty.run lines (⟨.documentStart, start⟩ :: (es ++ [⟨.documentEnd, stop⟩])) =
        ⟨[], (o.denote lines []).2, some (o.denote lines []).1⟩ := by
    rintro o rfl
    rw [run_cons, run_append, run_events]
    rfl
  obtain ⟨o, ho⟩ := Outline.nested_iff.mp hnested
  refine ⟨_, hrun o ho, rfl, ⟨o, ho⟩, fun u hu => ⟨?_, u.mirrors_denote lines ?_⟩⟩
  · exact congrArg Builder.document ((hrun o ho).symm.trans (hrun u hu))
  · exact u.anchors_perm.nodup_iff.mpr (hu ▸ hanchors)

/-- The events of `&a {? &b [&c x] : *b, *c : *a}`: a container as a key with its copy as the value,
an alias as a key, and an alias inside of its own container. -/
theorem run_document_of_aliases :
    ∃ es : List Event, Nested 1 es ∧ (es.filterMap Outline.anchorOf).Nodup ∧
      (Builder.empty.run [] (⟨.documentStart, ⟨0, 1, 0⟩⟩ :: (es ++ [⟨.documentEnd, ⟨30, 2, 0⟩⟩]))
        ).document =
        some (.mapping
          [(.sequence [.scalar "x" ⟨1, 14⟩] ⟨1, 10⟩, .sequence [.scalar "x" ⟨1, 14⟩] ⟨1, 10⟩),
            (.scalar "x" ⟨1, 14⟩, .scalar "" ⟨1, 28⟩)] ⟨1, 4⟩) := by
  let o : Outline := .mapping (some 1) ⟨3, 1, 3⟩ ⟨29, 1, 29⟩
    [(.sequence (some 2) ⟨9, 1, 9⟩ ⟨14, 1, 14⟩ [.scalar .plain "x" false (some 3) ⟨13, 1, 13⟩],
        .alias 2 ⟨18, 1, 18⟩),
      (.alias 3 ⟨22, 1, 22⟩, .alias 1 ⟨27, 1, 27⟩)]
  have hnested : Nested 1 o.events := Outline.nested_iff.mpr ⟨o, rfl⟩
  have hanchors : (o.events.filterMap Outline.anchorOf).Nodup := by decide
  obtain ⟨b, hb, -, -, h⟩ := run_document [] hnested hanchors ⟨0, 1, 0⟩ ⟨30, 2, 0⟩
  refine ⟨o.events, hnested, hanchors, ?_⟩
  rw [hb, (h o rfl).1]
  rfl

end Builder
end Document
end LintLocator
