import LintLocator.Yaml.Event
import Mathlib.Algebra.Group.Nat.Even
import Mathlib.Data.List.Basic

/-!
# What the events of a document say

An `Outline` is a document before its aliases are followed: nested nodes, each with the marks and
the anchor of its events.  `Outline.events` writes it down as events; which events come about in
this way is said by `nested_iff`, and that they say which outline it was by `eq_of_events_append`.

Nodes are named by *addresses*: the way down from the root, as places among the children.  The
children of a mapping are its keys and values in turn, so a container can be a key and is found
there.  `Outline.Precedes` orders addresses, and `nodup_split` says what it means for the children
of a node that no anchor of the node is used twice.
-/

namespace LintLocator

namespace Document

open Yaml (Event EventKind Mark Style)

/-- A node as its events describe it. -/
inductive Outline where
  | scalar (style : Style) (text : String) (tagged : Bool) (anchor : Option Nat) (mark : Mark)
  | alias (id : Nat) (mark : Mark)
  | sequence (anchor : Option Nat) (start stop : Mark) (items : List Outline)
  | mapping (anchor : Option Nat) (start stop : Mark) (entries : List (Outline × Outline))

namespace Outline

/-! ## Nodes and addresses -/

/-- The nodes right below a node, the keys and values of a mapping in turn. -/
def children : Outline → List Outline
  | .scalar .. => []
  | .alias .. => []
  | .sequence _ _ _ items => items
  | .mapping _ _ _ entries => entries.flatMap fun e => [e.1, e.2]

/-- The anchor of a node, if it has one. -/
def anchor? : Outline → Option Nat
  | .scalar _ _ _ anchor _ => anchor
  | .alias .. => none
  | .sequence anchor .. => anchor
  | .mapping anchor .. => anchor

/-- The node at an address. -/
def at? : Outline → List Nat → Option Outline
  | o, [] => some o
  | o, i :: p => o.children[i]?.bind fun c => c.at? p

/-- **Induction over outlines.**  What holds of a node whenever it holds of its children holds of
all nodes. -/
theorem induction {motive : Outline → Prop}
    (step : ∀ o : Outline, (∀ c ∈ o.children, motive c) → motive o) (o : Outline) : motive o := by
  refine step o fun c hc => ?_
  have hsize : sizeOf c < sizeOf o := by
    cases o with
    | scalar => exact absurd hc (by simp [children])
    | «alias» => exact absurd hc (by simp [children])
    | sequence anchor start stop items =>
      have hmem : c ∈ items := hc
      have hlt := List.sizeOf_lt_of_mem hmem
      simp only [sequence.sizeOf_spec]
      omega
    | mapping anchor start stop entries =>
      obtain ⟨e, he, hmem⟩ := List.mem_flatMap.mp hc
      have hlt := List.sizeOf_lt_of_mem he
      have hpair : sizeOf e = 1 + sizeOf e.1 + sizeOf e.2 := by cases e; rfl
      simp only [mapping.sizeOf_spec]
      rcases List.mem_cons.mp hmem with rfl | hmem
      · omega
      · obtain rfl := List.mem_singleton.mp hmem
        omega
  exact induction step c
termination_by sizeOf o

/-- The node at `p` is complete before the node at `q` begins: where the two ways part, that to `p`
goes to an earlier child. -/
inductive Precedes : List Nat → List Nat → Prop where
  | parted {i j : Nat} (hij : i < j) (p q : List Nat) : Precedes (i :: p) (j :: q)
  | together (i : Nat) {p q : List Nat} (h : Precedes p q) : Precedes (i :: p) (i :: q)

/-- A way down starts with one of the children. -/
theorem exists_child_of_at? {o n : Outline} {i : Nat} {p : List Nat}
    (h : o.at? (i :: p) = some n) :
    ∃ as c bs, o.children = as ++ c :: bs ∧ as.length = i ∧ c.at? p = some n := by
  rw [at?, Option.bind_eq_some_iff] at h
  obtain ⟨c, hc, hn⟩ := h
  obtain ⟨hi, rfl⟩ := List.getElem?_eq_some_iff.mp hc
  refine ⟨o.children.take i, _, o.children.drop (i + 1), ?_, ?_, hn⟩
  · rw [List.getElem_cons_drop, List.take_append_drop]
  · rw [List.length_take]
    omega

theorem at?_cons {o c : Outline} {as bs : List Outline} (hsplit : o.children = as ++ c :: bs)
    (p : List Nat) : o.at? (as.length :: p) = c.at? p := by
  rw [at?, hsplit, List.getElem?_append_right (Nat.le_refl _), Nat.sub_self,
    List.getElem?_cons_zero, Option.bind_some]

/-- Two ways down that part start with two of the children. -/
theorem exists_children_of_at? {o m n : Outline} {i j : Nat} {p q : List Nat} (hij : i < j)
    (hp : o.at? (i :: p) = some m) (hq : o.at? (j :: q) = some n) :
    ∃ as c bs d cs, o.children = as ++ c :: (bs ++ d :: cs) ∧ as.length = i ∧
      (as ++ c :: bs).length = j ∧ c.at? p = some m ∧ d.at? q = some n := by
  obtain ⟨as, c, es, hsplit, rfl, hc⟩ := exists_child_of_at? hp
  obtain ⟨fs, d, cs, hsplit', rfl, hd⟩ := exists_child_of_at? hq
  rcases List.append_eq_append_iff.mp (hsplit.symm.trans hsplit') with
    ⟨bs, rfl, hbs⟩ | ⟨bs, rfl, hbs⟩
  · cases bs with
    | nil => simp at hij
    | cons b bs =>
      obtain ⟨rfl, rfl⟩ := List.cons.inj hbs
      exact ⟨as, c, bs, d, cs, hsplit, rfl, rfl, hc, hd⟩
  · simp only [List.length_append] at hij
    omega

/-! ## Events -/

mutual

/-- The events of a node. -/
def events : Outline → List Event
  | .scalar style text tagged anchor mark => [⟨.scalar style text tagged anchor, mark⟩]
  | .alias id mark => [⟨.alias id, mark⟩]
  | .sequence anchor start stop items =>
    ⟨.sequenceStart anchor, start⟩ :: (itemEvents items ++ [⟨.sequenceEnd, stop⟩])
  | .mapping anchor start stop entries =>
    ⟨.mappingStart anchor, start⟩ :: (entryEvents entries ++ [⟨.mappingEnd, stop⟩])

/-- The events of the items of a sequence. -/
def itemEvents : List Outline → List Event
  | [] => []
  | o :: os => o.events ++ itemEvents os

/-- The events of the entries of a mapping: each key is followed by its value. -/
def entryEvents : List (Outline × Outline) → List Event
  | [] => []
  | (key, value) :: es => key.events ++ (value.events ++ entryEvents es)

end

theorem events_sequence (anchor : Option Nat) (start stop : Mark) (items : List Outline) :
    (Outline.sequence anchor start stop items).events =
      ⟨.sequenceStart anchor, start⟩ :: (itemEvents items ++ [⟨.sequenceEnd, stop⟩]) := rfl

theorem events_mapping (anchor : Option Nat) (start stop : Mark)
    (entries : List (Outline × Outline)) :
    (Outline.mapping anchor start stop entries).events =
      ⟨.mappingStart anchor, start⟩ :: (entryEvents entries ++ [⟨.mappingEnd, stop⟩]) := rfl

theorem itemEvents_nil : itemEvents [] = [] := rfl

theorem itemEvents_cons (o : Outline) (os : List Outline) :
    itemEvents (o :: os) = o.events ++ itemEvents os := rfl

theorem itemEvents_singleton (o : Outline) : itemEvents [o] = o.events := List.append_nil _

theorem entryEvents_cons (key value : Outline) (es : List (Outline × Outline)) :
    entryEvents ((key, value) :: es) = key.events ++ (value.events ++ entryEvents es) := rfl

mutual

/-- The anchors of a node and of all nodes below it, in the order in which these are complete. -/
def anchors : Outline → List Nat
  | .scalar _ _ _ anchor _ => anchor.toList
  | .alias .. => []
  | .sequence anchor _ _ items => itemAnchors items ++ anchor.toList
  | .mapping anchor _ _ entries => entryAnchors entries ++ anchor.toList

/-- The anchors in the items of a sequence. -/
def itemAnchors : List Outline → List Nat
  | [] => []
  | o :: os => o.anchors ++ itemAnchors os

/-- The anchors in the entries of a mapping. -/
def entryAnchors : List (Outline × Outline) → List Nat
  | [] => []
  | (key, value) :: es => key.anchors ++ (value.anchors ++ entryAnchors es)

end

theorem itemAnchors_eq_flatMap (os : List Outline) : itemAnchors os = os.flatMap anchors := by
  induction os with
  | nil => rfl
  | cons o os ih => rw [itemAnchors, ih, List.flatMap_cons]

theorem entryAnchors_eq_flatMap (es : List (Outline × Outline)) :
    entryAnchors es = (es.flatMap fun e => [e.1, e.2]).flatMap anchors := by
  induction es with
  | nil => rfl
  | cons e es ih =>
    obtain ⟨key, value⟩ := e
    rw [entryAnchors, ih, List.flatMap_cons]
    rfl

/-- The anchors in a node are those in its children and its own. -/
theorem anchors_eq (o : Outline) : o.anchors = o.children.flatMap anchors ++ o.anchor?.toList := by
  cases o with
  | scalar => rfl
  | «alias» => rfl
  | sequence => rw [anchors, itemAnchors_eq_flatMap]; rfl
  | mapping => rw [anchors, entryAnchors_eq_flatMap]; rfl

/-- Where no anchor is used twice, an anchor in one child is in no other child, and it is not that
of the node itself. -/
theorem nodup_split {o c : Outline} {as bs : List Outline} (hsplit : o.children = as ++ c :: bs)
    (h : o.anchors.Nodup) :
    c.anchors.Nodup ∧ ∀ id ∈ c.anchors, (∀ a ∈ as, id ∉ a.anchors) ∧ (∀ b ∈ bs, id ∉ b.anchors) ∧
      o.anchor? ≠ some id := by
  rw [anchors_eq, hsplit, List.flatMap_append, List.flatMap_cons, List.append_assoc,
    List.append_assoc] at h
  obtain ⟨-, h, hleft⟩ := List.nodup_append.mp h
  obtain ⟨hc, -, hright⟩ := List.nodup_append.mp h
  refine ⟨hc, fun id hid => ⟨fun a ha hmem => ?_, fun b hb hmem => ?_, fun hown => ?_⟩⟩
  · exact hleft id (List.mem_flatMap.mpr ⟨a, ha, hmem⟩) id (List.mem_append_left _ hid) rfl
  · exact hright id hid id
      (List.mem_append_left _ (List.mem_flatMap.mpr ⟨b, hb, hmem⟩)) rfl
  · exact hright id hid id (List.mem_append_right _ (by simp [hown])) rfl

/-- The anchor of a node is one of the anchors in every node above it. -/
theorem mem_anchors_of_at? {o n : Outline} {p : List Nat} {id : Nat} (h : o.at? p = some n)
    (hid : n.anchor? = some id) : id ∈ o.anchors := by
  induction p generalizing o with
  | nil =>
    obtain rfl := Option.some.inj h
    rw [anchors_eq, hid]
    exact List.mem_append_right _ (by simp)
  | cons i p ih =>
    obtain ⟨as, c, bs, hsplit, -, hc⟩ := exists_child_of_at? h
    rw [anchors_eq, hsplit]
    exact List.mem_append_left _ (List.mem_flatMap.mpr ⟨c, by simp, ih hc⟩)

/-! ## Which events are those of an outline -/

theorem itemEvents_append (os us : List Outline) :
    itemEvents (os ++ us) = itemEvents os ++ itemEvents us := by
  induction os with
  | nil => rfl
  | cons o os ih => rw [List.cons_append, itemEvents_cons, ih, itemEvents_cons, List.append_assoc]

theorem entryEvents_eq (es : List (Outline × Outline)) :
    entryEvents es = itemEvents (es.flatMap fun e => [e.1, e.2]) := by
  induction es with
  | nil => rfl
  | cons e es ih =>
    obtain ⟨key, value⟩ := e
    rw [entryEvents_cons, ih, List.flatMap_cons, itemEvents_append, itemEvents_cons,
      itemEvents_singleton, List.append_assoc]

/-- The events of a sequence, and what comes behind them. -/
theorem events_sequence_append (anchor : Option Nat) (start stop : Mark) (items : List Outline)
    (es : List Event) :
    (Outline.sequence anchor start stop items).events ++ es =
      ⟨.sequenceStart anchor, start⟩ :: (itemEvents items ++ ⟨.sequenceEnd, stop⟩ :: es) := by
  rw [events_sequence, List.cons_append, List.append_assoc, List.singleton_append]

/-- The events of a mapping, and what comes behind them. -/
theorem events_mapping_append (anchor : Option Nat) (start stop : Mark)
    (entries : List (Outline × Outline)) (es : List Event) :
    (Outline.mapping anchor start stop entries).events ++ es =
      ⟨.mappingStart anchor, start⟩ :: (entryEvents entries ++ ⟨.mappingEnd, stop⟩ :: es) := by
  rw [events_mapping, List.cons_append, List.append_assoc, List.singleton_append]

/-- An even number of nodes are keys and values in turn. -/
theorem exists_entries {os : List Outline} (h : Even os.length) :
    ∃ es : List (Outline × Outline), os = es.flatMap fun e => [e.1, e.2] := by
  obtain ⟨k, hk⟩ := h
  induction k generalizing os with
  | zero =>
    obtain rfl := List.length_eq_zero_iff.mp hk
    exact ⟨[], rfl⟩
  | succ k ih =>
    rcases os with _ | ⟨key, _ | ⟨value, os⟩⟩
    · simp only [List.length_nil] at hk
      omega
    · simp only [List.length_cons, List.length_nil] at hk
      omega
    · have hlength : os.length = k + k := by
        simp only [List.length_cons] at hk
        omega
      obtain ⟨es, rfl⟩ := ih hlength
      exact ⟨(key, value) :: es, rfl⟩

theorem even_length_entries (es : List (Outline × Outline)) :
    Even (es.flatMap fun e => [e.1, e.2]).length := by
  induction es with
  | nil => exact Even.zero
  | cons e es ih =>
    rw [List.flatMap_cons, List.length_append]
    exact Even.add ⟨1, rfl⟩ ih

end Outline

/-- The events are those of `n` nodes: what is opened is closed by an event of its kind, and there
is an even number of nodes in every mapping. -/
inductive Nested : Nat → List Event → Prop where
  | nil : Nested 0 []
  | scalar {n : Nat} {es : List Event} (style : Style) (text : String) (tagged : Bool)
      (anchor : Option Nat) (mark : Mark) (rest : Nested n es) :
      Nested (n + 1) (⟨.scalar style text tagged anchor, mark⟩ :: es)
  | alias {n : Nat} {es : List Event} (id : Nat) (mark : Mark) (rest : Nested n es) :
      Nested (n + 1) (⟨.alias id, mark⟩ :: es)
  | sequence {k n : Nat} {inner es : List Event} (anchor : Option Nat) (start stop : Mark)
      (items : Nested k inner) (rest : Nested n es) :
      Nested (n + 1) (⟨.sequenceStart anchor, start⟩ :: (inner ++ ⟨.sequenceEnd, stop⟩ :: es))
  | mapping {k n : Nat} {inner es : List Event} (anchor : Option Nat) (start stop : Mark)
      (entries : Nested k inner) (even : Even k) (rest : Nested n es) :
      Nested (n + 1) (⟨.mappingStart anchor, start⟩ :: (inner ++ ⟨.mappingEnd, stop⟩ :: es))

namespace Outline

/-- Nested events are those of as many outlines. -/
theorem exists_of_nested {n : Nat} {es : List Event} (h : Nested n es) :
    ∃ os : List Outline, os.length = n ∧ itemEvents os = es := by
  induction h with
  | nil => exact ⟨[], rfl, rfl⟩
  | scalar style text tagged anchor mark _ ih =>
    obtain ⟨os, rfl, rfl⟩ := ih
    exact ⟨.scalar style text tagged anchor mark :: os, rfl, rfl⟩
  | «alias» id mark _ ih =>
    obtain ⟨os, rfl, rfl⟩ := ih
    exact ⟨.alias id mark :: os, rfl, rfl⟩
  | sequence anchor start stop _ _ hitems ih =>
    obtain ⟨items, -, rfl⟩ := hitems
    obtain ⟨os, rfl, rfl⟩ := ih
    refine ⟨.sequence anchor start stop items :: os, rfl, ?_⟩
    rw [itemEvents_cons, events_sequence_append]
  | mapping anchor start stop _ heven _ hentries ih =>
    obtain ⟨inner, rfl, rfl⟩ := hentries
    obtain ⟨entries, rfl⟩ := exists_entries heven
    obtain ⟨os, rfl, rfl⟩ := ih
    refine ⟨.mapping anchor start stop entries :: os, rfl, ?_⟩
    rw [itemEvents_cons, events_mapping_append, entryEvents_eq]

/-- In front of nested events, the events of an outline are those of one more node. -/
theorem nested_append (o : Outline) :
    ∀ {n : Nat} {es : List Event}, Nested n es → Nested (n + 1) (o.events ++ es) := by
  induction o using Outline.induction with
  | step o ih =>
    intro n es hes
    have hchildren : ∀ os : List Outline, (∀ c ∈ os, c ∈ o.children) →
        Nested os.length (itemEvents os) := by
      intro os hos
      induction os with
      | nil => exact .nil
      | cons c os ih' =>
        exact ih c (hos c List.mem_cons_self) (ih' fun a ha => hos a (List.mem_cons_of_mem _ ha))
    have hinner := hchildren o.children fun _ hc => hc
    cases o with
    | scalar style text tagged anchor mark => exact .scalar style text tagged anchor mark hes
    | «alias» id mark => exact .alias id mark hes
    | sequence anchor start stop items =>
      rw [events_sequence_append]
      exact .sequence anchor start stop hinner hes
    | mapping anchor start stop entries =>
      rw [events_mapping_append, entryEvents_eq]
      exact .mapping anchor start stop hinner (even_length_entries entries) hes

/-- **Which events are those of an outline:** those of one node. -/
theorem nested_iff {es : List Event} : Nested 1 es ↔ ∃ o : Outline, o.events = es := by
  constructor
  · intro h
    obtain ⟨os, hlength, rfl⟩ := exists_of_nested h
    obtain ⟨o, rfl⟩ := List.length_eq_one_iff.mp hlength
    exact ⟨o, (List.append_nil _).symm⟩
  · rintro ⟨o, rfl⟩
    have h := o.nested_append .nil
    rwa [List.append_nil] at h

/-- Entries are told apart by their keys and values. -/
theorem entries_inj {es fs : List (Outline × Outline)}
    (h : (es.flatMap fun e => [e.1, e.2]) = fs.flatMap fun e => [e.1, e.2]) : es = fs := by
  induction es generalizing fs with
  | nil =>
    cases fs with
    | nil => rfl
    | cons f fs => exact absurd h (by simp)
  | cons e es ih =>
    cases fs with
    | nil => exact absurd h (by simp)
    | cons f fs =>
      obtain ⟨hkey, hothers⟩ := List.cons.inj h
      obtain ⟨hvalue, hothers⟩ := List.cons.inj hothers
      rw [ih hothers, Prod.ext hkey hvalue]

/-- No node begins with the end of a collection. -/
theorem exists_first (o : Outline) :
    ∃ e es, o.events = e :: es ∧ e.kind ≠ .sequenceEnd ∧ e.kind ≠ .mappingEnd := by
  cases o with
  | scalar => exact ⟨_, _, rfl, EventKind.noConfusion, EventKind.noConfusion⟩
  | «alias» => exact ⟨_, _, rfl, EventKind.noConfusion, EventKind.noConfusion⟩
  | sequence => exact ⟨_, _, rfl, EventKind.noConfusion, EventKind.noConfusion⟩
  | mapping => exact ⟨_, _, rfl, EventKind.noConfusion, EventKind.noConfusion⟩

/-- Up to the end of a collection, events say which nodes they are those of. -/
theorem eq_of_itemEvents_append {os us : List Outline} {d e : Event} {ds es : List Event}
    (hos : ∀ o ∈ os, ∀ {u : Outline} {es fs : List Event},
      o.events ++ es = u.events ++ fs → o = u ∧ es = fs)
    (hd : d.kind = .sequenceEnd ∨ d.kind = .mappingEnd)
    (he : e.kind = .sequenceEnd ∨ e.kind = .mappingEnd)
    (h : itemEvents os ++ d :: ds = itemEvents us ++ e :: es) : os = us ∧ d = e ∧ ds = es := by
  have hends : ∀ {o : Outline} {f : Event} {fs r : List Event},
      f.kind = .sequenceEnd ∨ f.kind = .mappingEnd → f :: fs ≠ o.events ++ r := by
    intro o f fs r hf heq
    obtain ⟨g, gs, hg, hsequence, hmapping⟩ := exists_first o
    rw [hg, List.cons_append] at heq
    obtain rfl := (List.cons.inj heq).1
    exact hf.elim hsequence hmapping
  induction os generalizing us with
  | nil =>
    cases us with
    | nil => exact ⟨rfl, List.cons.inj h⟩
    | cons u us =>
      rw [itemEvents_nil, itemEvents_cons, List.append_assoc] at h
      exact absurd h (hends hd)
  | cons o os ih =>
    cases us with
    | nil =>
      rw [itemEvents_nil, itemEvents_cons, List.append_assoc] at h
      exact absurd h.symm (hends he)
    | cons u us =>
      rw [itemEvents_cons, itemEvents_cons, List.append_assoc, List.append_assoc] at h
      obtain ⟨rfl, hrest⟩ := hos o List.mem_cons_self h
      obtain ⟨rfl, hlast⟩ := ih (fun a ha => hos a (List.mem_cons_of_mem o ha)) hrest
      exact ⟨rfl, hlast⟩

/-- **Events say which node they are those of**, and where this node ends. -/
theorem eq_of_events_append (o : Outline) :
    ∀ {u : Outline} {es fs : List Event}, o.events ++ es = u.events ++ fs → o = u ∧ es = fs := by
  induction o using Outline.induction with
  | step o ih =>
    intro u es fs h
    cases o with
    | scalar =>
      cases u with
      | scalar =>
        obtain ⟨hfirst, hrest⟩ := List.cons.inj h
        obtain ⟨hkind, rfl⟩ := Event.mk.inj hfirst
        obtain ⟨rfl, rfl, rfl, rfl⟩ := EventKind.scalar.inj hkind
        exact ⟨rfl, hrest⟩
      | _ => exact absurd (congrArg Event.kind (List.cons.inj h).1) EventKind.noConfusion
    | «alias» =>
      cases u with
      | «alias» =>
        obtain ⟨hfirst, hrest⟩ := List.cons.inj h
        obtain ⟨hkind, rfl⟩ := Event.mk.inj hfirst
        obtain rfl := EventKind.alias.inj hkind
        exact ⟨rfl, hrest⟩
      | _ => exact absurd (congrArg Event.kind (List.cons.inj h).1) EventKind.noConfusion
    | sequence anchor start stop items =>
      cases u with
      | sequence anchor' start' stop' items' =>
        rw [events_sequence_append, events_sequence_append] at h
        obtain ⟨hfirst, hrest⟩ := List.cons.inj h
        obtain ⟨hkind, rfl⟩ := Event.mk.inj hfirst
        obtain rfl := EventKind.sequenceStart.inj hkind
        obtain ⟨rfl, hstop, rfl⟩ := eq_of_itemEvents_append ih (.inl rfl) (.inl rfl) hrest
        obtain rfl : stop = stop' := congrArg Event.mark hstop
        exact ⟨rfl, rfl⟩
      | _ => exact absurd (congrArg Event.kind (List.cons.inj h).1) EventKind.noConfusion
    | mapping anchor start stop entries =>
      cases u with
      | mapping anchor' start' stop' entries' =>
        rw [events_mapping_append, events_mapping_append, entryEvents_eq, entryEvents_eq] at h
        obtain ⟨hfirst, hrest⟩ := List.cons.inj h
        obtain ⟨hkind, rfl⟩ := Event.mk.inj hfirst
        obtain rfl := EventKind.mappingStart.inj hkind
        obtain ⟨hentries, hstop, rfl⟩ := eq_of_itemEvents_append ih (.inr rfl) (.inr rfl) hrest
        obtain rfl := entries_inj hentries
        obtain rfl : stop = stop' := congrArg Event.mark hstop
        exact ⟨rfl, rfl⟩
      | _ => exact absurd (congrArg Event.kind (List.cons.inj h).1) EventKind.noConfusion

/-- The anchor that an event gives to a node. -/
def anchorOf (e : Event) : Option Nat :=
  match e.kind with
  | .scalar _ _ _ anchor => anchor
  | .sequenceStart anchor => anchor
  | .mappingStart anchor => anchor
  | _ => none

theorem filterMap_anchorOf_enclosed {last : Event} (first : Event) (es : List Event)
    (h : anchorOf last = none) :
    (first :: (es ++ [last])).filterMap anchorOf =
      (anchorOf first).toList ++ es.filterMap anchorOf := by
  rw [List.filterMap_cons, List.filterMap_append, List.filterMap_cons_none h, List.filterMap_nil,
    List.append_nil]
  cases anchorOf first with
  | none => rfl
  | some id => rfl

/-- The anchors of a node are those that its events give, in another order. -/
theorem anchors_perm (o : Outline) : o.anchors.Perm (o.events.filterMap anchorOf) := by
  induction o using Outline.induction with
  | step o ih =>
    have hchildren : ∀ os : List Outline, (∀ c ∈ os, c ∈ o.children) →
        (os.flatMap anchors).Perm ((itemEvents os).filterMap anchorOf) := by
      intro os hos
      induction os with
      | nil => exact .refl _
      | cons c os ih' =>
        rw [List.flatMap_cons, itemEvents_cons, List.filterMap_append]
        exact (ih c (hos c List.mem_cons_self)).append
          (ih' fun a ha => hos a (List.mem_cons_of_mem _ ha))
    have hinner := hchildren o.children fun _ hc => hc
    rw [anchors_eq]
    cases o with
    | scalar style text tagged anchor mark => cases anchor <;> exact .refl _
    | «alias» => exact .refl _
    | sequence anchor start stop items =>
      rw [events_sequence, filterMap_anchorOf_enclosed _ _ rfl]
      exact (hinner.append_right _).trans List.perm_append_comm
    | mapping anchor start stop entries =>
      rw [events_mapping, entryEvents_eq, filterMap_anchorOf_enclosed _ _ rfl]
      exact (hinner.append_right _).trans List.perm_append_comm

end Outline
end Document
end LintLocator
