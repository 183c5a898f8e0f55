import LintLocator.Proofs.Document.Building
import LintLocator.Proofs.Document.Dashes

/-!
# Containers start before what they hold

Positions come from the marks of events, from first children, from the search for a dash and, where
this fails, from a guess.  Aliases repeat them.  Whatever the events are and whatever the lines, the
nodes of the tree are counted from 1 and no container is said to be behind its first child
(`Tree.Leads`).

The builder holds nodes in three places, and `Builder.Bounded` says this of all of them.  One event
keeps it (`Bounded.step`), so a run keeps it (`Bounded.run`).  The only hypothesis is that the marks
count lines from 1.

The same invariant is why nothing is ever taken from less than it is.  `run?` is the builder with
subtractions that are given up in that case, and it never gives up (`run?_eq`).  Where the dash is
guessed, being cut off at the first column is meant, and `usualDash` is left as it is.

* `dashBefore_leads`: the dash of an item is not behind the item;
* `Builder.Bounded.run`: what all runs keep;
* `Builder.nodes_lead`: the nodes of the document.
-/

namespace LintLocator

/-! ## Positions of trees -/

namespace Position

/-- Lines and columns count from 1. -/
def Counts (p : Position) : Prop := 1 ≤ p.line ∧ 1 ≤ p.column

/-- The order in which positions are met, the same position included. -/
def AtOrBefore (p q : Position) : Prop := p = q ∨ p.before q = true

theorem before_iff {p q : Position} :
    p.before q = true ↔ p.line < q.line ∨ p.line = q.line ∧ p.column < q.column := by
  simp only [before, Bool.or_eq_true, Bool.and_eq_true, decide_eq_true_eq, beq_iff_eq]

end Position

namespace Tree

/-- A node does not stand behind its first item or its first key. -/
structure Leads (t : Tree) : Prop where
  counts : t.pos.Counts
  first : ∀ u ∈ t.children.head?, t.pos.AtOrBefore u.pos

/-- Every node in a tree has a property. -/
def AllNodes (G : Tree → Prop) (t : Tree) : Prop := ∀ p u, t.at? p = some u → G u

theorem allNodes_iff {G : Tree → Prop} {t : Tree} :
    t.AllNodes G ↔ G t ∧ ∀ u ∈ t.children, u.AllNodes G := by
  constructor
  · intro h
    refine ⟨h [] t rfl, fun u hu p v hv => ?_⟩
    obtain ⟨i, hi⟩ := List.mem_iff_getElem?.mp hu
    refine h (i :: p) v ?_
    rw [at?, hi]
    exact hv
  · rintro ⟨hown, hchildren⟩ p u hp
    cases p with
    | nil =>
      obtain rfl := Option.some.inj hp
      exact hown
    | cons i p =>
      obtain ⟨v, hv, hp⟩ := Option.bind_eq_some_iff.mp hp
      exact hchildren v (List.mem_of_getElem? hv) p u hp

end Tree

namespace Document

open Yaml (Event EventKind Mark)

variable {lines : List (List Char)}

theorem counts_positionOf {m : Mark} (h : 1 ≤ m.line) : (positionOf m).Counts :=
  ⟨h, Nat.le_add_left 1 m.col⟩

/-! ## The dash of an item -/

/-- A dash is found on the line or above it, and on the line it is before the limit. -/
theorem bounds_of_dashUpTo {line : Nat} {limit : Option Nat} {p : Position}
    (h : dashUpTo lines line limit = some p) :
    p.Counts ∧ p.line ≤ line ∧ (p.line = line → ∀ k ∈ limit, p.column ≤ k) := by
  induction line generalizing limit with
  | zero => cases h
  | succ n ih =>
    rw [dashUpTo_succ] at h
    obtain ⟨whole, -, h⟩ := Option.bind_eq_some_iff.mp h
    rcases Option.or_eq_some_iff.mp h with h | ⟨-, h⟩
    · obtain ⟨i, hi, rfl⟩ := Option.map_eq_some_iff.mp h
      have hlength := (lastDash?_eq_some_iff.mp hi).alone.lt_length
      refine ⟨⟨Nat.le_add_left 1 n, Nat.le_add_left 1 i⟩, Nat.le_refl _, ?_⟩
      rintro - k ⟨⟩
      exact Nat.le_trans hlength (List.length_take_le _ _)
    · split at h
      · obtain ⟨hcounts, hline, -⟩ := ih h
        exact ⟨hcounts, Nat.le_succ_of_le hline, fun heq => by omega⟩
      · cases h

/-- **The dash of an item is not behind the item**, found or guessed. -/
theorem dashBefore_leads {item : Position} (h : item.Counts) :
    (dashBefore lines item).Counts ∧ (dashBefore lines item).AtOrBefore item := by
  obtain ⟨hline, hcolumn⟩ := h
  rw [dashBefore]
  cases hfound : dashUpTo lines item.line (some (item.column - 1)) with
  | some p =>
    obtain ⟨hcounts, hle, hlimit⟩ := bounds_of_dashUpTo hfound
    refine ⟨hcounts, .inr (Position.before_iff.mpr ?_)⟩
    rw [Option.getD_some]
    rcases Nat.lt_or_eq_of_le hle with hlt | heq
    · exact .inl hlt
    · have := hlimit heq _ rfl
      exact .inr ⟨heq, by omega⟩
  | none =>
    rw [Option.getD_none, usualDash]
    refine ⟨⟨hline, Nat.le_max_right _ _⟩, ?_⟩
    obtain ⟨line, column⟩ := item
    have hle : max (column - 2) 1 ≤ column := by
      dsimp only at hcolumn
      omega
    rcases Nat.lt_or_eq_of_le hle with hlt | heq
    · exact .inr (Position.before_iff.mpr (.inr ⟨rfl, hlt⟩))
    · exact .inl (congrArg _ heq)

namespace Builder

/-! ## Containers -/

variable {b : Builder} {t : Tree} {pos : Position}

theorem pos_sequenceOf {first : Tree} {others : List Tree} (hpos : pos.Counts)
    (hfirst : first.pos.Counts) :
    (sequenceOf lines pos (first :: others)).pos.Counts ∧
      (sequenceOf lines pos (first :: others)).pos.AtOrBefore first.pos := by
  show (if isFlow pos first then pos else dashBefore lines first.pos).Counts ∧
    (if isFlow pos first then pos else dashBefore lines first.pos).AtOrBefore first.pos
  split
  · rename_i hflow
    exact ⟨hpos, .inr hflow⟩
  · exact dashBefore_leads hfirst

theorem allNodes_sequenceOf {items : List Tree} (hpos : pos.Counts)
    (hitems : ∀ u ∈ items, u.AllNodes Tree.Leads) :
    (sequenceOf lines pos items).AllNodes Tree.Leads := by
  have hchildren : (sequenceOf lines pos items).children = items := by
    obtain ⟨p, hp⟩ := Outline.sequenceOf_eq lines pos items
    rw [hp, Tree.children]
  refine Tree.allNodes_iff.mpr ⟨?_, by rwa [hchildren]⟩
  cases items with
  | nil => exact ⟨hpos, fun u hu => absurd hu (by simp [hchildren])⟩
  | cons first others =>
    have hfirst := (Tree.allNodes_iff.mp (hitems first List.mem_cons_self)).1
    obtain ⟨hcounts, hbefore⟩ := @pos_sequenceOf lines pos first others hpos hfirst.counts
    refine ⟨hcounts, fun u hu => ?_⟩
    rw [hchildren] at hu
    obtain rfl := Option.some.inj hu
    exact hbefore

theorem allNodes_mappingOf {entries : List (Tree × Tree)} (hpos : pos.Counts)
    (hentries : ∀ e ∈ entries, e.1.AllNodes Tree.Leads ∧ e.2.AllNodes Tree.Leads) :
    (mappingOf pos entries).AllNodes Tree.Leads := by
  have hchildren : (mappingOf pos entries).children = entries.flatMap fun e => [e.1, e.2] := by
    obtain ⟨p, hp⟩ := Outline.mappingOf_eq pos entries
    rw [hp, Tree.children]
  refine Tree.allNodes_iff.mpr ⟨?_, ?_⟩
  · cases entries with
    | nil => exact ⟨hpos, fun u hu => absurd hu (by simp [hchildren])⟩
    | cons entry others =>
      have hkey := (Tree.allNodes_iff.mp (hentries entry List.mem_cons_self).1).1
      have hposition : (mappingOf pos (entry :: others)).pos =
          if isFlow pos entry.1 then pos else entry.1.pos := rfl
      constructor
      · rw [hposition]
        split
        · exact hpos
        · exact hkey.counts
      · intro u hu
        rw [hchildren] at hu
        obtain rfl := Option.some.inj hu
        rw [hposition]
        split
        · rename_i hflow
          exact .inr hflow
        · exact .inl rfl
  · rw [hchildren]
    intro u hu
    obtain ⟨e, he, hu⟩ := List.mem_flatMap.mp hu
    obtain ⟨hkey, hvalue⟩ := hentries e he
    rcases List.mem_pair.mp hu with rfl | rfl
    · exact hkey
    · exact hvalue

/-! ## What a run keeps -/

/-- The nodes in an open container lead, and it starts at a position. -/
def BoundedFrame : Frame → Prop
  | .sequence _ pos items => pos.Counts ∧ ∀ t ∈ items, t.AllNodes Tree.Leads
  | .mapping _ pos entries key =>
    pos.Counts ∧ (∀ e ∈ entries, e.1.AllNodes Tree.Leads ∧ e.2.AllNodes Tree.Leads) ∧
      ∀ t ∈ key, t.AllNodes Tree.Leads

/-- All nodes that the builder holds lead. -/
structure Bounded (b : Builder) : Prop where
  stack : ∀ f ∈ b.stack, BoundedFrame f
  anchors : ∀ v ∈ b.anchors, v.2.AllNodes Tree.Leads
  document : ∀ t ∈ b.document, t.AllNodes Tree.Leads

theorem bounded_empty : Bounded empty :=
  ⟨fun _ h => absurd h List.not_mem_nil, fun _ h => absurd h List.not_mem_nil, fun _ h => nomatch h⟩

theorem Bounded.remember (hb : b.Bounded) (anchor : Option Nat) (ht : t.AllNodes Tree.Leads) :
    (b.remember anchor t).Bounded := by
  cases anchor with
  | none => exact hb
  | some id => exact ⟨hb.stack, List.forall_mem_cons.mpr ⟨ht, hb.anchors⟩, hb.document⟩

/-- What stays open if the innermost container is taken away. -/
theorem Bounded.outer (hb : b.Bounded) {f : Frame} {outer : List Frame} (h : b.stack = f :: outer) :
    BoundedFrame f ∧ Bounded { b with stack := outer } := by
  obtain ⟨hframe, houter⟩ := List.forall_mem_cons.mp (h ▸ hb.stack)
  exact ⟨hframe, houter, hb.anchors, hb.document⟩

theorem Bounded.push (hb : b.Bounded) (ht : t.AllNodes Tree.Leads) : (b.push t).Bounded := by
  unfold Builder.push
  split
  · refine ⟨hb.stack, hb.anchors, fun u hu => ?_⟩
    obtain rfl := Option.some.inj hu
    exact ht
  · rename_i anchor pos items outer hstack
    obtain ⟨⟨hpos, hitems⟩, houter⟩ := hb.outer hstack
    exact ⟨List.forall_mem_cons.mpr ⟨⟨hpos, List.forall_mem_cons.mpr ⟨ht, hitems⟩⟩, houter.stack⟩,
      hb.anchors, hb.document⟩
  · rename_i anchor pos entries outer hstack
    obtain ⟨⟨hpos, hentries, -⟩, houter⟩ := hb.outer hstack
    refine ⟨List.forall_mem_cons.mpr ⟨⟨hpos, hentries, fun u hu => ?_⟩, houter.stack⟩,
      hb.anchors, hb.document⟩
    obtain rfl := Option.some.inj hu
    exact ht
  · rename_i anchor pos entries key outer hstack
    obtain ⟨⟨hpos, hentries, hkey⟩, houter⟩ := hb.outer hstack
    exact ⟨List.forall_mem_cons.mpr ⟨⟨hpos, List.forall_mem_cons.mpr
      ⟨⟨hkey key rfl, ht⟩, hentries⟩, fun _ h => nomatch h⟩, houter.stack⟩, hb.anchors,
      hb.document⟩

theorem Bounded.close (hb : b.Bounded) : (b.close lines).Bounded := by
  unfold Builder.close
  split
  · exact hb
  · rename_i anchor pos items outer hstack
    obtain ⟨⟨hpos, hitems⟩, houter⟩ := hb.outer hstack
    have ht : (sequenceOf lines pos items.reverse).AllNodes Tree.Leads :=
      allNodes_sequenceOf hpos fun u hu => hitems u (List.mem_reverse.mp hu)
    exact (houter.remember anchor ht).push ht
  · rename_i anchor pos entries key outer hstack
    obtain ⟨⟨hpos, hentries, -⟩, houter⟩ := hb.outer hstack
    have ht : (mappingOf pos entries.reverse).AllNodes Tree.Leads :=
      allNodes_mappingOf hpos fun e he => hentries e (List.mem_reverse.mp he)
    exact (houter.remember anchor ht).push ht

/-- **One event** keeps all nodes in order. -/
theorem Bounded.step (hb : b.Bounded) {e : Event} (he : 1 ≤ e.mark.line) :
    (b.step lines e).Bounded := by
  have hpos := counts_positionOf he
  have hscalar : ∀ text, (Tree.scalar text (positionOf e.mark)).AllNodes Tree.Leads := fun text =>
    Tree.allNodes_iff.mpr ⟨⟨hpos, fun u hu => nomatch hu⟩, fun u hu => nomatch hu⟩
  unfold Builder.step
  dsimp only
  split
  · exact (hb.remember _ (hscalar _)).push (hscalar _)
  · rename_i id _
    refine hb.push ?_
    cases hid : b.anchors.lookup id with
    | none => exact hscalar ""
    | some u =>
      obtain ⟨before, after, hsplit, -⟩ := List.lookup_eq_some_iff.mp hid
      exact hb.anchors (id, u) (by simp [hsplit])
  · exact ⟨List.forall_mem_cons.mpr ⟨⟨hpos, fun _ h => absurd h List.not_mem_nil⟩, hb.stack⟩,
      hb.anchors, hb.document⟩
  · exact ⟨List.forall_mem_cons.mpr ⟨⟨hpos, fun _ h => absurd h List.not_mem_nil,
      fun _ h => nomatch h⟩, hb.stack⟩, hb.anchors, hb.document⟩
  · exact hb.close
  · exact hb.close
  · exact hb
  · exact hb

/-- **All events** keep all nodes in order. -/
theorem Bounded.run (hb : b.Bounded) {es : List Event} (hes : ∀ e ∈ es, 1 ≤ e.mark.line) :
    (b.run lines es).Bounded := by
  induction es generalizing b with
  | nil => exact hb
  | cons e es ih =>
    obtain ⟨he, hes⟩ := List.forall_mem_cons.mp hes
    exact ih (hb.step he) hes

end Builder

/-! ## Subtractions -/

/-- Subtraction that is given up below zero. -/
def minus? (a b : Nat) : Option Nat := if b ≤ a then some (a - b) else none

theorem minus?_eq {a b : Nat} (h : b ≤ a) : minus? a b = some (a - b) := if_pos h

/-- The search for a dash, line by line.  Lines count from 1, so the text of the line `line` is at
`line - 1`, and there is none for 0.  Without fuel the search is given up, too. -/
def dashUpTo? (lines : List (List Char)) :
    (fuel line : Nat) → (limit : Option Nat) → Option (Option Position)
  | 0, _, _ => none
  | fuel + 1, line, limit =>
    match (minus? line 1).bind fun n => lines[n]? with
    | none => some none
    | some whole =>
      match lastDash? (within limit whole) with
      | some i => some (some ⟨line, i + 1⟩)
      | none =>
        if (within limit whole).all Text.isBlank then
          (minus? line 1).bind fun above => dashUpTo? lines fuel above none
        else some none

/-- The dash of an item, searched for before its column. -/
def dashBefore? (lines : List (List Char)) (item : Position) : Option Position := do
  let limit ← minus? item.column 1
  let found ← dashUpTo? lines (item.line + 1) item.line (some limit)
  return found.getD (usualDash item)

namespace Builder

/-- A sequence, located at its bracket or at its first dash. -/
def sequenceOf? (lines : List (List Char)) (start : Position) (items : List Tree) : Option Tree :=
  match items with
  | [] => some (.sequence [] start)
  | first :: _ =>
    if isFlow start first then some (.sequence items start)
    else (dashBefore? lines first.pos).map (.sequence items)

/-- Finishes the innermost open container. -/
def close? (lines : List (List Char)) (b : Builder) : Option Builder :=
  match b.stack with
  | [] => some b
  | .sequence anchor pos items :: outer =>
    (sequenceOf? lines pos items.reverse).map fun t =>
      ({ b with stack := outer }.remember anchor t).push t
  | .mapping anchor pos entries _ :: outer =>
    let t := mappingOf pos entries.reverse
    some (({ b with stack := outer }.remember anchor t).push t)

/-- Takes one event. -/
def step? (lines : List (List Char)) (b : Builder) (e : Event) : Option Builder :=
  match e.kind with
  | .sequenceEnd => b.close? lines
  | .mappingEnd => b.close? lines
  | _ => some (b.step lines e)

/-- Takes events one after the other. -/
def run? (lines : List (List Char)) (b : Builder) (es : List Event) : Option Builder :=
  es.foldlM (step? lines) b

end Builder

/-- The search goes up one line at a time and ends at the first. -/
theorem dashUpTo?_eq {fuel line : Nat} (hfuel : line < fuel) (limit : Option Nat) :
    dashUpTo? lines fuel line limit = some (dashUpTo lines line limit) := by
  induction fuel generalizing line limit with
  | zero => exact absurd hfuel (Nat.not_lt_zero _)
  | succ fuel ih =>
    cases line with
    | zero => rfl
    | succ n =>
      have hn : minus? (n + 1) 1 = some n := rfl
      rw [dashUpTo?, dashUpTo_succ, hn, Option.bind_some, Option.bind_some]
      cases lines[n]? with
      | none => rfl
      | some whole =>
        rw [Option.bind_some]
        dsimp only
        cases lastDash? (within limit whole) with
        | some i => rfl
        | none =>
          rw [ih (Nat.lt_of_succ_lt_succ hfuel)]
          dsimp only
          split <;> rfl

theorem dashBefore?_eq {item : Position} (h : item.Counts) :
    dashBefore? lines item = some (dashBefore lines item) := by
  rw [dashBefore?, minus?_eq h.2, Option.bind_eq_bind, Option.bind_some,
    dashUpTo?_eq (Nat.lt_succ_self _)]
  rfl

namespace Builder

variable {b : Builder} {pos : Position}

theorem sequenceOf?_eq {items : List Tree} (hitems : ∀ t ∈ items, t.pos.Counts) :
    sequenceOf? lines pos items = some (sequenceOf lines pos items) := by
  cases items with
  | nil => rfl
  | cons first others =>
    rw [sequenceOf?, sequenceOf, dashBefore?_eq (hitems first List.mem_cons_self)]
    split <;> rfl

theorem close?_eq (hb : b.Bounded) : b.close? lines = some (b.close lines) := by
  obtain ⟨stack, anchors, document⟩ := b
  cases stack with
  | nil => rfl
  | cons f outer =>
    cases f with
    | sequence anchor pos items =>
      obtain ⟨⟨-, hitems⟩, -⟩ := hb.outer rfl
      have hcounts : ∀ t ∈ items.reverse, t.pos.Counts := fun t ht =>
        (Tree.allNodes_iff.mp (hitems t (List.mem_reverse.mp ht))).1.counts
      exact congrArg (Option.map _) (sequenceOf?_eq hcounts)
    | mapping anchor pos entries key => rfl

theorem step?_eq (hb : b.Bounded) (e : Event) : b.step? lines e = some (b.step lines e) := by
  obtain ⟨kind, mark⟩ := e
  cases kind with
  | sequenceEnd => exact close?_eq hb
  | mappingEnd => exact close?_eq hb
  | _ => rfl

/-- **The builder never gives up.** -/
theorem run?_eq (hb : b.Bounded) {es : List Event} (hes : ∀ e ∈ es, 1 ≤ e.mark.line) :
    b.run? lines es = some (b.run lines es) := by
  induction es generalizing b with
  | nil => rfl
  | cons e es ih =>
    obtain ⟨he, hes⟩ := List.forall_mem_cons.mp hes
    rw [run?, List.foldlM_cons, step?_eq hb]
    exact ih (hb.step he) hes

/-- **Containers start before what they hold.**  Whatever the lines are and whatever events come
whose marks count lines from 1, every node of the document is counted from 1, and no sequence is
behind its first item and no mapping behind its first key.  On the way nothing is taken from less
than it is.  If the events are those of a document, there is one. -/
theorem nodes_lead (lines : List (List Char)) (es : List Event)
    (hmarks : ∀ e ∈ es, 1 ≤ e.mark.line) :
    (∀ t, (empty.run lines es).document = some t → t.AllNodes Tree.Leads) ∧
      empty.run? lines es = some (empty.run lines es) ∧
      ∀ start inner stop, Nested 1 inner →
        es = ⟨.documentStart, start⟩ :: (inner ++ [⟨.documentEnd, stop⟩]) →
        ∃ t, (empty.run lines es).document = some t := by
  refine ⟨(bounded_empty.run hmarks).document, run?_eq bounded_empty hmarks, ?_⟩
  rintro start inner stop hnested rfl
  obtain ⟨o, rfl⟩ := Outline.nested_iff.mp hnested
  exact ⟨_, congrArg Builder.document (run_enclosed o start stop)⟩

/-- A sequence of a sequence and its copy, read with lines that are not those of the events.  The
dash of the inner one is found two lines above its item, and that of the outer one is guessed. -/
theorem nodes_lead_with_other_lines :
    ∃ es : List Event, (∀ e ∈ es, 1 ≤ e.mark.line) ∧ ∃ t,
      (empty.run [['-', ' '], [' '], ['x']] es).document = some t ∧ t.AllNodes Tree.Leads ∧
        t = .sequence [.sequence [.scalar "x" ⟨3, 1⟩] ⟨1, 1⟩,
          .sequence [.scalar "x" ⟨3, 1⟩] ⟨1, 1⟩] ⟨1, 1⟩ := by
  let o : Outline := .sequence none ⟨4, 3, 0⟩ ⟨9, 5, 0⟩
    [.sequence (some 1) ⟨4, 3, 0⟩ ⟨6, 4, 0⟩ [.scalar .plain "x" false none ⟨4, 3, 0⟩],
      .alias 1 ⟨6, 4, 0⟩]
  let es : List Event := ⟨.documentStart, ⟨0, 1, 0⟩⟩ :: (o.events ++ [⟨.documentEnd, ⟨9, 5, 0⟩⟩])
  have hmarks : ∀ e ∈ es, 1 ≤ e.mark.line := by decide
  obtain ⟨hleads, -, hsome⟩ := nodes_lead [['-', ' '], [' '], ['x']] es hmarks
  obtain ⟨t, ht⟩ := hsome _ _ _ (Outline.nested_iff.mpr ⟨o, rfl⟩) rfl
  exact ⟨es, hmarks, t, ht, hleads t ht, Option.some.inj (ht.symm.trans rfl)⟩

end Builder
end Document
end LintLocator
