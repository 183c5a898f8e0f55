import LintLocator.Proofs.Document.Streaming
import LintLocator.Proofs.Yaml.GrammarSteps
import LintLocator.Proofs.Yaml.LexerOrder

/-!
# Where the nodes of a document stand

The grammar has no recursion either: it gives one event after the other.  That the events of a
document are nested, and in which order they stand in the text, is shown from behind.  `Meets`
says of events that they meet what the grammar expects, and a step in front of them adds an event
to a node that begins earlier (`meets_of_step`).

What comes out is `Outline.Stands`.  Each node stands behind the starts of the sequences around it.
A sequence starts at its bracket or its first dash, except that a sequence which is a key or a value
may start behind its first dash, and then at most blanks and a comment stand between the two.
-/

namespace LintLocator
namespace Document

open Yaml (Event EventKind Expecting Grammar InOrder Mark Token)

namespace Outline

/-- The node stands behind a mark.  Where `inline` is set, it is a key or a value. -/
inductive Stands (text : List Char) : (inline : Bool) → WithBot Mark → Outline → Prop where
  | scalar {inline : Bool} {m : WithBot Mark} {style : Yaml.Style} {s : String} {tagged : Bool}
      {anchor : Option Nat} {mark : Mark} (behind : m < mark) :
      Stands text inline m (.scalar style s tagged anchor mark)
  | alias {inline : Bool} {m : WithBot Mark} {id : Nat} {mark : Mark} (behind : m < mark) :
      Stands text inline m (.alias id mark)
  | sequence {inline : Bool} {m : WithBot Mark} {anchor : Option Nat} {start stop : Mark}
      {items : List Outline} (behind : m < start)
      (indicator : start.IsAt text '[' ∨ start.IsAt text '-')
      (inside : ∀ o ∈ items, Stands text false start o) :
      Stands text inline m (.sequence anchor start stop items)
  | inline {m : WithBot Mark} {anchor : Option Nat} {start stop : Mark} {items : List Outline}
      (behind : m < start) (follows : ∃ d, Mark.Follows text d start)
      (dash : ∀ d, Mark.IsBeside text d start → m < d) (nonempty : items ≠ [])
      (inside : ∀ o ∈ items, Stands text false m o) :
      Stands text true m (.sequence anchor start stop items)
  | mapping {inline : Bool} {m : WithBot Mark} {anchor : Option Nat} {start stop : Mark}
      {entries : List (Outline × Outline)} (behind : m < start)
      (inside : ∀ o ∈ entries.flatMap fun e => [e.1, e.2], Stands text true m o) :
      Stands text inline m (.mapping anchor start stop entries)

end Outline

/-! ## What is expected -/

/-- How many nodes may come before something else than `x` is expected. -/
def Counts : Expecting → Nat → Prop
  | .node, n => n = 1
  | .content, n => n = 1
  | .flowValue, n => n = 1
  | .missingValue, n => n = 1
  | .blockEntry, _ => True
  | .inlineEntry, _ => True
  | .flowEntry _, _ => True
  | .blockKey, n => Even n
  | .flowKey _, n => Even n
  | .blockValue, n => Even (n + 1)
  | .pairKey, n => n = 2
  | .pairValue, n => n = 1
  | .pairEnd _, n => n = 0
  | .document _, _ => False
  | .documentEnd, _ => False

/-- The event that ends a collection of which `x` is a part that is expected. -/
def closing? : Expecting → Option EventKind
  | .blockEntry => some .sequenceEnd
  | .inlineEntry => some .sequenceEnd
  | .flowEntry _ => some .sequenceEnd
  | .blockKey => some .mappingEnd
  | .flowKey _ => some .mappingEnd
  | .blockValue => some .mappingEnd
  | .pairKey => some .mappingEnd
  | .pairValue => some .mappingEnd
  | .pairEnd _ => some .mappingEnd
  | _ => none

/-- The events are those of nodes with a property, and of the ends of collections, that are expected
up to the end of the document. -/
inductive Meets (N : Bool → Outline → Prop) : List Expecting → List Event → Prop where
  | ended (after : List Expecting) : Meets N (.documentEnd :: after) []
  | nodes {x : Expecting} {after : List Expecting} {os : List Outline} {ends es : List Event}
      (count : Counts x os.length) (nodes : ∀ o ∈ os, N x.isPart o)
      (closed : ends.map Event.kind = (closing? x).toList) (rest : Meets N after es) :
      Meets N (x :: after) (Outline.itemEvents os ++ (ends ++ es))

namespace Meets

variable {N N' : Bool → Outline → Prop} {x y : Expecting} {after stack ys : List Expecting}
  {es : List Event} {e : Event} {o : Outline}

theorem mono (h : Meets N stack es) (hN : ∀ inline o, N inline o → N' inline o) :
    Meets N' stack es := by
  induction h with
  | ended after => exact .ended after
  | nodes count nodes closed _ ih => exact .nodes count (fun o ho => hN _ o (nodes o ho)) closed ih

/-- More nodes of a collection come in front. -/
theorem append {us : List Outline} (h : Meets N (y :: after) es) (hy : y ≠ .documentEnd)
    (hcount : ∀ n, Counts y n → Counts x (us.length + n)) (hpart : y.isPart = x.isPart)
    (hclosing : closing? y = closing? x) (hus : ∀ o ∈ us, N x.isPart o) :
    Meets N (x :: after) (Outline.itemEvents us ++ es) := by
  cases h with
  | ended => exact absurd rfl hy
  | @nodes _ _ os ends _ count nodes closed rest =>
    rw [← List.append_assoc, ← Outline.itemEvents_append]
    refine .nodes ?_ ?_ (by rw [closed, hclosing]) rest
    · rw [List.length_append]
      exact hcount os.length count
    · exact List.forall_mem_append.mpr ⟨hus, fun o ho => hpart ▸ nodes o ho⟩

/-- A node comes in front. -/
theorem cons (h : Meets N (y :: after) es) (hy : y ≠ .documentEnd)
    (hcount : ∀ n, Counts y n → Counts x (1 + n)) (hpart : y.isPart = x.isPart)
    (hclosing : closing? y = closing? x) (ho : N x.isPart o) :
    Meets N (x :: after) (o.events ++ es) := by
  have hone : Meets N (x :: after) (Outline.itemEvents [o] ++ es) :=
    h.append hy hcount hpart hclosing (List.forall_mem_singleton.mpr ho)
  rwa [Outline.itemEvents_singleton] at hone

/-- A node that is expected alone comes in front. -/
theorem single (h : Meets N after es) (hcount : Counts x 1) (hclosing : closing? x = none)
    (ho : N x.isPart o) : Meets N (x :: after) (o.events ++ es) := by
  have hclosed : ([] : List Event).map Event.kind = (closing? x).toList := by
    rw [hclosing]
    rfl
  have hone := Meets.nodes hcount (List.forall_mem_singleton.mpr ho) hclosed h
  rwa [Outline.itemEvents_singleton] at hone

/-- A key comes in front of what is expected behind it: its value and further entries. -/
theorem key (h : Meets N (x :: .flowKey false :: after) es) (hx : ∀ n, Counts x n → n = 1)
    (hclosing : closing? x = none) (hpart : x.isPart = true) (ho : N true o) (first : Bool) :
    Meets N (.flowKey first :: after) (o.events ++ es) := by
  cases h with
  | ended => exact Bool.noConfusion hpart
  | @nodes _ _ os ends es count nodes closed rest =>
    obtain ⟨value, rfl⟩ := List.length_eq_one_iff.mp (hx os.length count)
    rw [hclosing, Option.toList_none, List.map_eq_nil_iff] at closed
    obtain rfl := closed
    have heven : ∀ n, Even n → Even (2 + n) := fun n hn => Even.add ⟨1, rfl⟩ hn
    have hnodes : ∀ u ∈ [o, value], N true u :=
      List.forall_mem_cons.mpr ⟨ho, fun u hu => hpart ▸ nodes u hu⟩
    have hboth : Meets N (.flowKey first :: after) (Outline.itemEvents [o, value] ++ es) :=
      rest.append (by simp) heven rfl rfl hnodes
    rwa [Outline.itemEvents_cons, List.append_assoc] at hboth

/-- **A node comes in front of what is expected behind it.** -/
theorem of_turns (hturns : Expecting.Turns (x :: after) ys) (h : Meets N ys es)
    (ho : N x.isPart o) : Meets N (x :: after) (o.events ++ es) := by
  have hodd : ∀ n, Even n → Even (1 + n + 1) := by
    intro n hn
    rw [Nat.add_right_comm]
    exact Even.add ⟨1, rfl⟩ hn
  cases hturns with
  | node => exact h.single rfl rfl ho
  | content => exact h.single rfl rfl ho
  | flowValue => exact h.single rfl rfl ho
  | missingValue => exact h.single rfl rfl ho
  | blockEntry => exact h.cons (by simp) (fun _ => id) rfl rfl ho
  | inlineEntry => exact h.cons (by simp) (fun _ => id) rfl rfl ho
  | flowEntry first => exact h.cons (by simp) (fun _ => id) rfl rfl ho
  | blockKey =>
    exact h.cons (by simp) (fun n (hn : Even (n + 1)) => Nat.add_comm n 1 ▸ hn) rfl rfl ho
  | blockValue => exact h.cons (by simp) hodd rfl rfl ho
  | pairKey => exact h.cons (by simp) (fun n (hn : n = 1) => congrArg (1 + ·) hn) rfl rfl ho
  | pairValue mark => exact h.cons (by simp) (fun n (hn : n = 0) => congrArg (1 + ·) hn) rfl rfl ho
  | flowKey first => exact h.key (fun _ => id) rfl rfl ho first
  | loneKey first => exact h.key (fun _ => id) rfl rfl ho first

/-- The end of a collection comes in front of what is expected behind it. -/
theorem of_closes (hcloses : Expecting.Closes x e.kind) (h : Meets N after es) :
    Meets N (x :: after) (e :: es) := by
  have hnone : ∀ o ∈ ([] : List Outline), N x.isPart o := fun o ho => absurd ho List.not_mem_nil
  have hall : ∀ kind, e.kind = kind → Counts x ([] : List Outline).length →
      closing? x = some kind → Meets N (x :: after) (e :: es) := by
    intro kind hkind hcount hclosing
    have hend : [e].map Event.kind = (closing? x).toList := by
      rw [hclosing, ← hkind]
      rfl
    exact .nodes hcount hnone hend h
  generalize hkind : e.kind = kind at hcloses
  cases hcloses with
  | blockEntry => exact hall _ hkind trivial rfl
  | inlineEntry => exact hall _ hkind trivial rfl
  | flowEntry first => exact hall _ hkind trivial rfl
  | blockKey => exact hall _ hkind Even.zero rfl
  | flowKey first => exact hall _ hkind Even.zero rfl
  | pairEnd mark => exact hall _ hkind rfl rfl

/-- What comes behind the start of a sequence: its items and its end. -/
theorem exists_items {anchor : Option Nat} (hopens : Expecting.Opens (.sequenceStart anchor) x)
    (h : Meets N (x :: after) es) :
    ∃ items stop later, es = Outline.itemEvents items ++ ⟨.sequenceEnd, stop⟩ :: later ∧
      (∀ o ∈ items, N false o) ∧ Meets N after later := by
  have hx : x.isPart = false ∧ closing? x = some .sequenceEnd := by
    cases hopens with
    | blockEntry => exact ⟨rfl, rfl⟩
    | inlineEntry => exact ⟨rfl, rfl⟩
    | flowEntry => exact ⟨rfl, rfl⟩
  obtain ⟨hpart, hclosing⟩ := hx
  cases h with
  | ended => exact absurd hclosing (by simp [closing?])
  | @nodes _ _ items ends later count nodes closed rest =>
    rw [hclosing, Option.toList_some] at closed
    obtain ⟨⟨kind, stop⟩, rfl, hkind⟩ := List.map_eq_singleton_iff.mp closed
    obtain rfl : kind = _ := hkind
    exact ⟨items, stop, later, rfl, fun o ho => hpart ▸ nodes o ho, rest⟩

/-- What comes behind the start of a mapping: its entries and its end. -/
theorem exists_entries {anchor : Option Nat} (hopens : Expecting.Opens (.mappingStart anchor) x)
    (h : Meets N (x :: after) es) :
    ∃ entries stop later, es = Outline.entryEvents entries ++ ⟨.mappingEnd, stop⟩ :: later ∧
      (∀ o ∈ entries.flatMap fun e => [e.1, e.2], N true o) ∧ Meets N after later := by
  have hx : x.isPart = true ∧ closing? x = some .mappingEnd ∧ ∀ n, Counts x n → Even n := by
    cases hopens with
    | blockKey => exact ⟨rfl, rfl, fun _ => id⟩
    | flowKey => exact ⟨rfl, rfl, fun _ => id⟩
    | pairKey => exact ⟨rfl, rfl, fun n hn => ⟨1, hn⟩⟩
  obtain ⟨hpart, hclosing, heven⟩ := hx
  cases h with
  | ended => exact absurd hclosing (by simp [closing?])
  | @nodes _ _ os ends later count nodes closed rest =>
    rw [hclosing, Option.toList_some] at closed
    obtain ⟨⟨kind, stop⟩, rfl, hkind⟩ := List.map_eq_singleton_iff.mp closed
    obtain rfl : kind = _ := hkind
    obtain ⟨entries, rfl⟩ := Outline.exists_entries (heven _ count)
    refine ⟨entries, stop, later, ?_, fun o ho => hpart ▸ nodes o ho, rest⟩
    rw [Outline.entryEvents_eq]
    rfl

end Meets

/-! ## One step -/

variable {text : List Char} {g h : Grammar} {x : Expecting} {after : List Expecting} {e : Event}
  {es : List Event}

/-- The node stands where whatever is still to be read stands. -/
def StandsAbove (text : List Char) (g : Grammar) (inline : Bool) (o : Outline) : Prop :=
  ∀ m, g.Above text m → o.Stands text inline m

/-- **An event in front.**  If the events behind a step meet what is expected there, so do those
with the event of the step. -/
theorem meets_of_step (horder : InOrder text g.tokens) (hstack : g.stack = x :: after)
    (hx : x.isInside = true) (hstep : g.step = .event e h)
    (hnext : ∀ e' ∈ es.head?, ∃ k, h.step = .event e' k)
    (hes : Meets (StandsAbove text h) h.stack es) :
    Meets (StandsAbove text g) g.stack (e :: es) := by
  obtain ⟨ts, -, habove, hproceeds⟩ := Grammar.step_cases horder hstack hx hstep
  have hmono : h.tokens <:+ ts → ∀ inline o, StandsAbove text h inline o →
      StandsAbove text g inline o := by
    intro hsuffix inline o ho m hm
    exact ho m (.inl ((habove m hm).suffix hsuffix))
  rw [hstack]
  rcases hproceeds with ⟨ys, hturns, hbegins⟩ | ⟨hcloses, hlater, hsuffix⟩
  · have hm := hmono hbegins.suffix
    obtain ⟨kind, mark⟩ := e
    rcases hbegins.stack with ⟨hys, style, s, tagged, anchor, hkind⟩ | ⟨hys, id, hkind⟩ |
      ⟨y, hopens, hys⟩
    · obtain rfl : kind = _ := hkind
      refine Meets.of_turns hturns (o := .scalar style s tagged anchor mark) (hys ▸ hes.mono hm) ?_
      exact fun m hm => .scalar (hbegins.mark m (habove m hm))
    · obtain rfl : kind = _ := hkind
      refine Meets.of_turns hturns (o := .alias id mark) (hys ▸ hes.mono hm) ?_
      exact fun m hm => .alias (hbegins.mark m (habove m hm))
    · rw [hys] at hes
      have hkind : (∃ anchor, kind = .sequenceStart anchor) ∨
          ∃ anchor, kind = .mappingStart anchor := by
        cases hopens <;> simp
      rcases hkind with ⟨anchor, rfl⟩ | ⟨anchor, rfl⟩
      · obtain ⟨items, stop, later, rfl, hitems, hlater⟩ := hes.exists_items hopens
        have hnode := Meets.of_turns hturns (o := .sequence anchor mark stop items)
          (hlater.mono hm) ?_
        · rw [Outline.events_sequence_append] at hnode
          exact hnode
        intro m hm'
        have hbehind := hbegins.mark m (habove m hm')
        rcases hbegins.start anchor rfl with ⟨hat, hstart⟩ | ⟨hinline, hfollows, hdash, hitem⟩
        · exact .sequence hbehind hat fun o ho => hitems o ho mark hstart
        · rw [hinline]
          refine .inline hbehind hfollows (hdash m (habove m hm')) ?_ ?_
          · rintro rfl
            obtain ⟨k, hk⟩ := hnext _ rfl
            exact hitem _ k hk rfl
          · exact fun o ho => hm false o (hitems o ho) m hm'
      · obtain ⟨entries, stop, later, rfl, hentries, hlater⟩ := hes.exists_entries hopens
        have hnode := Meets.of_turns hturns (o := .mapping anchor mark stop entries)
          (hlater.mono hm) ?_
        · rw [Outline.events_mapping_append] at hnode
          exact hnode
        intro m hm'
        exact .mapping (hbegins.mark m (habove m hm')) fun o ho => hm true o (hentries o ho) m hm'
  · exact Meets.of_closes hcloses (hlater ▸ hes.mono (hmono hsuffix))

/-! ## One document -/

/-- A document has begun, and its end is expected. -/
def Inside (stack : List Expecting) : Prop :=
  ∃ xs after, stack = xs ++ .documentEnd :: after ∧ ∀ x ∈ xs, x.isInside = true

theorem Inside.append {xs stack : List Expecting} (h : Inside stack)
    (hxs : ∀ x ∈ xs, x.isInside = true) : Inside (xs ++ stack) := by
  obtain ⟨ys, after, rfl, hys⟩ := h
  exact ⟨xs ++ ys, after, (List.append_assoc _ _ _).symm, List.forall_mem_append.mpr ⟨hxs, hys⟩⟩

theorem Inside.cons {stack : List Expecting} (h : Inside stack) (hx : x.isInside = true) :
    Inside (x :: stack) := by
  have hxs : ∀ y ∈ [x], y.isInside = true := List.forall_mem_singleton.mpr hx
  exact h.append hxs

/-- Behind the start of a document its content is expected, and then its end. -/
theorem Inside.of_start {stack : List Expecting} (hx : x = .node ∨ x = .content)
    (hstack : stack = x :: .documentEnd :: after) : Inside stack := by
  refine ⟨[x], after, hstack, List.forall_mem_singleton.mpr ?_⟩
  rcases hx with rfl | rfl
  · rfl
  · rfl

/-- A step inside of a document does not leave it. -/
theorem inside_of_step (horder : InOrder text g.tokens) (hstack : g.stack = x :: after)
    (hx : x.isInside = true) (hafter : Inside after) (hstep : g.step = .event e h) :
    Inside h.stack ∧ e.kind ≠ .documentEnd ∧ h.tokens <:+ g.tokens := by
  obtain ⟨ts, hts, -, hproceeds⟩ := Grammar.step_cases horder hstack hx hstep
  obtain ⟨kind, mark⟩ := e
  rcases hproceeds with ⟨ys, hturns, hbegins⟩ | ⟨hcloses, hlater, hsuffix⟩
  · have hys : Inside ys := by
      cases hturns with
      | node => exact hafter
      | content => exact hafter
      | flowValue => exact hafter
      | missingValue => exact hafter
      | flowKey first => exact (hafter.cons rfl).cons rfl
      | loneKey first => exact (hafter.cons rfl).cons rfl
      | _ => exact hafter.cons rfl
    rcases hbegins.stack with ⟨hstack, _, _, _, _, hkind⟩ | ⟨hstack, _, hkind⟩ | ⟨y, hopens, hstack⟩
    · obtain rfl : kind = _ := hkind
      exact ⟨hstack ▸ hys, EventKind.noConfusion, hbegins.suffix.trans hts⟩
    · obtain rfl : kind = _ := hkind
      exact ⟨hstack ▸ hys, EventKind.noConfusion, hbegins.suffix.trans hts⟩
    · rw [hstack]
      refine ⟨hys.cons ?_, ?_, hbegins.suffix.trans hts⟩
      · cases hopens <;> rfl
      · rintro rfl
        cases hopens
  · refine ⟨hlater ▸ hafter, ?_, hsuffix.trans hts⟩
    rintro rfl
    cases hcloses

/-- The first event is that of the first step. -/
theorem step_of_head? {fuel : Nat} (he : e ∈ (Grammar.steps fuel g).1.head?) :
    ∃ k, g.step = .event e k := by
  cases fuel with
  | zero => exact absurd he (by simp)
  | succ fuel =>
    cases hstep : g.step with
    | failed => exact absurd he (by simp [Grammar.steps_of_failed hstep])
    | done => exact absurd he (by simp [Grammar.steps_of_done hstep])
    | event e' k =>
      rw [Grammar.steps_of_event hstep, List.head?_cons, Option.mem_some_iff] at he
      exact ⟨k, by rw [he]⟩

/-- The events are those from some place on where a document may start, in a part of the tokens. -/
def Resumes (ts : List Token) (es : List Event) : Prop :=
  ∃ fuel g bare after, es = (Grammar.steps fuel g).1 ∧ g.stack = .document bare :: after ∧
    g.tokens <:+ ts

/-- What comes before the end of a document meets what is expected. -/
theorem exists_body {fuel : Nat} {es later : List Event} (horder : InOrder text g.tokens)
    (hinside : Inside g.stack)
    (hfirst : firstDocument? (Grammar.steps fuel g).1 = some (es, later)) :
    ∃ body mark, es = body ++ [⟨.documentEnd, mark⟩] ∧
      Meets (StandsAbove text g) g.stack body ∧ Resumes g.tokens later := by
  induction fuel generalizing g es with
  | zero => exact absurd hfirst (by simp)
  | succ fuel ih =>
    cases hstep : g.step with
    | failed => exact absurd hfirst (by simp [Grammar.steps_of_failed hstep])
    | done => exact absurd hfirst (by simp [Grammar.steps_of_done hstep])
    | event e h =>
      rw [Grammar.steps_of_event hstep, firstDocument?_cons] at hfirst
      obtain ⟨xs, after, hstack, hxs⟩ := hinside
      cases xs with
      | nil =>
        obtain ⟨hkind, hsuffix, bare, hlater⟩ := Grammar.step_of_ended hstack hstep
        rw [if_pos hkind] at hfirst
        obtain ⟨rfl, rfl⟩ := Prod.mk.inj (Option.some.inj hfirst)
        obtain ⟨kind, mark⟩ := e
        obtain rfl : kind = _ := hkind
        refine ⟨[], mark, rfl, ?_, fuel, h, bare, after, rfl, hlater, hsuffix⟩
        rw [hstack]
        exact .ended after
      | cons x xs =>
        obtain ⟨hx, hxs⟩ := List.forall_mem_cons.mp hxs
        obtain ⟨hinside, hkind, hsuffix⟩ :=
          inside_of_step horder hstack hx ⟨xs, after, rfl, hxs⟩ hstep
        rw [if_neg hkind] at hfirst
        obtain ⟨⟨es', later'⟩, hfirst', hpair⟩ := Option.map_eq_some_iff.mp hfirst
        obtain ⟨rfl, rfl⟩ := Prod.mk.inj hpair
        obtain ⟨body, mark, rfl, hbody, fuel', k, bare, after', hlater, hk, hsuffix'⟩ :=
          ih (horder.suffix hsuffix) hinside hfirst'
        refine ⟨e :: body, mark, rfl, ?_, fuel', k, bare, after', hlater, hk,
          hsuffix'.trans hsuffix⟩
        refine meets_of_step horder hstack hx hstep (fun e' he' => ?_) hbody
        have hhead : e' ∈ (Grammar.steps fuel h).1.head? := by
          rw [eq_append_of_firstDocument? hfirst', List.append_assoc, List.head?_append, he']
          rfl
        exact step_of_head? hhead

/-- Where one node is expected before the end, the events are those of a node. -/
theorem exists_root {N : Bool → Outline → Prop} (hx : x = .node ∨ x = .content)
    (hes : Meets N (x :: .documentEnd :: after) es) : ∃ o : Outline, es = o.events ∧ N false o := by
  have hsingle : x.isPart = false ∧ closing? x = none ∧ ∀ n, Counts x n → n = 1 := by
    rcases hx with rfl | rfl
    · exact ⟨rfl, rfl, fun _ => id⟩
    · exact ⟨rfl, rfl, fun _ => id⟩
  obtain ⟨hpart, hclosing, hone⟩ := hsingle
  cases hes with
  | ended => exact absurd hx (by simp)
  | @nodes _ _ os ends later count nodes closed rest =>
    obtain ⟨o, rfl⟩ := List.length_eq_one_iff.mp (hone os.length count)
    rw [hclosing, Option.toList_none, List.map_eq_nil_iff] at closed
    obtain rfl := closed
    refine ⟨o, ?_, hpart ▸ nodes o (List.mem_singleton_self o)⟩
    cases rest with
    | ended => rw [Outline.itemEvents_singleton]; exact List.append_nil _
    | nodes count => exact count.elim

/-- **The events of one document.**  They are those of an outline, and its nodes stand where they
should. -/
theorem exists_outline {bare : Bool} {fuel : Nat} {es later : List Event}
    (horder : InOrder text g.tokens) (hstack : g.stack = .document bare :: after)
    (hfirst : firstDocument? (Grammar.steps fuel g).1 = some (es, later)) :
    ∃ (o : Outline) (start stop : Mark),
      es = ⟨.documentStart, start⟩ :: (o.events ++ [⟨.documentEnd, stop⟩]) ∧
        o.Stands text false ⊥ ∧ Resumes g.tokens later := by
  cases fuel with
  | zero => exact absurd hfirst (by simp)
  | succ fuel =>
    cases hstep : g.step with
    | failed => exact absurd hfirst (by simp [Grammar.steps_of_failed hstep])
    | done => exact absurd hfirst (by simp [Grammar.steps_of_done hstep])
    | event e h =>
      rw [Grammar.steps_of_event hstep] at hfirst
      obtain ⟨kind, start⟩ := e
      obtain ⟨hkind, hsuffix, x, hx, hinner⟩ := Grammar.step_of_document hstack hstep
      obtain rfl : kind = _ := hkind
      rw [firstDocument?_cons, if_neg EventKind.noConfusion] at hfirst
      obtain ⟨⟨es', later'⟩, hfirst', hpair⟩ := Option.map_eq_some_iff.mp hfirst
      obtain ⟨rfl, rfl⟩ := Prod.mk.inj hpair
      obtain ⟨body, stop, rfl, hbody, fuel', k, bare', after', hlater, hk, hsuffix'⟩ :=
        exists_body (horder.suffix hsuffix) (.of_start hx hinner) hfirst'
      rw [hinner] at hbody
      obtain ⟨o, rfl, ho⟩ := exists_root hx hbody
      exact ⟨o, start, stop, rfl, ho ⊥ (.inl (Yaml.ahead_bot text h.tokens)), fuel', k, bare',
        after', hlater, hk, hsuffix'.trans hsuffix⟩

/-! ## All documents -/

/-- A document that comes from the events of an outline. -/
def ComesFrom (text : List Char) (lines : List (List Char)) (es : List Event) (t : Tree) : Prop :=
  ∃ (o : Outline) (start stop : Mark),
    ⟨.documentStart, start⟩ :: (o.events ++ [⟨.documentEnd, stop⟩]) <:+: es ∧
      o.Stands text false ⊥ ∧ t = (o.denote lines []).1

/-- Each document that is handed out comes from an outline.  By induction on how many are asked for:
behind a document the events resume where another one may start. -/
theorem comesFrom_of_take {ts : List Token} (horder : InOrder text ts) {t : Tree} (fuel : Nat)
    (s : Stream) (hs : Resumes ts s.events) (ht : .document t ∈ s.take fuel) :
    ComesFrom text s.lines s.events t := by
  induction fuel generalizing s with
  | zero => exact absurd ht List.not_mem_nil
  | succ fuel ih =>
    have hlater : ∀ u : Stream, u.lines = s.lines → u.events <:+ s.events → Resumes ts u.events →
        .document t ∈ u.take fuel → ComesFrom text s.lines s.events t := by
      intro u hlines hsuffix hu ht
      obtain ⟨o, start, stop, hevents, hstands, hdenote⟩ := ih u hu ht
      exact ⟨o, start, stop, hevents.trans hsuffix.isInfix, hstands, hlines ▸ hdenote⟩
    obtain ⟨fuel', g, bare, after, hevents, hstack, htokens⟩ := hs
    rw [Stream.take] at ht
    cases hnext : s.next with
    | mk answer u =>
      cases answer with
      | none => exact absurd ht (by simp [hnext])
      | some d =>
        simp only [hnext] at ht
        obtain ⟨hlines, ⟨rfl, hnone⟩ | ⟨es, v, hfirst, hrun, rfl⟩⟩ := cases_of_next hnext
        · refine hlater u hlines (hnone ▸ List.nil_suffix) ?_ ?_
          · exact ⟨0, g, bare, after, hnone, hstack, htokens⟩
          · rcases List.mem_cons.mp ht with ht | ht
            · exact absurd ht (by simp)
            · exact ht
        · obtain ⟨o, start, stop, rfl, hstands, fuel'', h, bare', after', hrest, hh, hsuffix⟩ :=
            exists_outline (horder.suffix htokens) hstack (hevents ▸ hfirst)
          have hall := eq_append_of_firstDocument? hfirst
          rw [Builder.run_enclosed] at hrun
          rcases List.mem_cons.mp ht with ht | ht
          · obtain rfl := Decoded.document.inj ht
            refine ⟨o, start, stop, ?_, hstands, (Option.some.inj hrun).symm⟩
            rw [hall]
            exact List.prefix_append _ _ |>.isInfix
          · exact hlater u hlines (hall ▸ List.suffix_append _ _)
              ⟨fuel'', h, bare', after', hrest, hh, hsuffix.trans htokens⟩ ht

/-- **Every document of a text comes from an outline** whose nodes stand where they should. -/
theorem comesFrom_of_mem_decodeAll {source : String} {t : Tree}
    (ht : .document t ∈ decodeAll source) :
    ComesFrom (source.toList.takeWhile fun c => c != '\x00') (Text.lines source.toList)
      (Yaml.EventStream.ofTokens (Yaml.TokenStream.ofText source.toList)).events t :=
  comesFrom_of_take (Yaml.TokenStream.inOrder_ofText source.toList) _ (Stream.ofText source.toList)
    ⟨_, Grammar.start _, true, [], rfl, rfl, List.suffix_refl _⟩ ht

end Document
end LintLocator
