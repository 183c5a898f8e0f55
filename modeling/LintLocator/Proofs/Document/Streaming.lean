import LintLocator.Document.Stream
import LintLocator.Proofs.Document.Building

/-!
# From events to documents

The events of a text are cut where documents end, and the builder makes a tree of each part.

* `firstDocument?_enclosed`, `eq_append_of_firstDocument?`: where the events are cut;
* `eq_of_events_infix`: one document comes from one outline;
* `cases_of_next`: what a stream hands out;
* `toList_of_one`: the events of one document become one tree.
-/

namespace LintLocator
namespace Document

open Yaml (Event EventKind Mark)

/-! ## Where documents end -/

/-- The event neither starts nor ends a document. -/
def IsOfNode (e : Event) : Prop := e.kind ≠ .documentStart ∧ e.kind ≠ .documentEnd

theorem isOfNode_of_nested {n : Nat} {es : List Event} (h : Nested n es) :
    ∀ e ∈ es, IsOfNode e := by
  have henclosed : ∀ {first last : Event} {inner es : List Event}, IsOfNode first →
      IsOfNode last → (∀ e ∈ inner, IsOfNode e) → (∀ e ∈ es, IsOfNode e) →
      ∀ e ∈ first :: (inner ++ last :: es), IsOfNode e := by
    intro first last inner es hfirst hlast hinner hes
    exact List.forall_mem_cons.mpr ⟨hfirst,
      List.forall_mem_append.mpr ⟨hinner, List.forall_mem_cons.mpr ⟨hlast, hes⟩⟩⟩
  induction h with
  | nil => exact fun e he => absurd he List.not_mem_nil
  | scalar style text tagged anchor mark _ ih =>
    exact List.forall_mem_cons.mpr ⟨⟨EventKind.noConfusion, EventKind.noConfusion⟩, ih⟩
  | «alias» id mark _ ih =>
    exact List.forall_mem_cons.mpr ⟨⟨EventKind.noConfusion, EventKind.noConfusion⟩, ih⟩
  | sequence anchor start stop _ _ hitems ih =>
    exact henclosed ⟨EventKind.noConfusion, EventKind.noConfusion⟩
      ⟨EventKind.noConfusion, EventKind.noConfusion⟩ hitems ih
  | mapping anchor start stop _ _ _ hentries ih =>
    exact henclosed ⟨EventKind.noConfusion, EventKind.noConfusion⟩
      ⟨EventKind.noConfusion, EventKind.noConfusion⟩ hentries ih

/-- The events of one document are those of one outline. -/
theorem eq_of_events_infix {o u : Outline} {start stop start' stop' : Mark}
    (h : ⟨.documentStart, start⟩ :: (u.events ++ [⟨.documentEnd, stop⟩]) <:+:
      ⟨.documentStart, start'⟩ :: (o.events ++ [⟨.documentEnd, stop'⟩])) : u = o := by
  obtain ⟨before, behind, h⟩ := h
  cases before with
  | nil =>
    obtain ⟨-, hrest⟩ := List.cons.inj h
    rw [List.append_eq, List.append_assoc] at hrest
    exact (u.eq_of_events_append hrest).1
  | cons e before =>
    obtain ⟨-, hrest⟩ := List.cons.inj h
    have hnested : Nested 1 o.events := Outline.nested_iff.mpr ⟨o, rfl⟩
    have hall : ∀ e ∈ o.events ++ [⟨.documentEnd, stop'⟩], e.kind ≠ .documentStart :=
      List.forall_mem_append.mpr ⟨fun e he => (isOfNode_of_nested hnested e he).1,
        List.forall_mem_singleton.mpr EventKind.noConfusion⟩
    have hmem : ⟨.documentStart, start⟩ ∈ o.events ++ [⟨.documentEnd, stop'⟩] := by
      rw [← hrest]
      simp
    exact absurd rfl (hall _ hmem)

/-- The first document goes up to the first event that ends one. -/
theorem firstDocument?_append {es : List Event} (h : ∀ e ∈ es, e.kind ≠ .documentEnd) (mark : Mark)
    (later : List Event) :
    firstDocument? (es ++ ⟨.documentEnd, mark⟩ :: later) =
      some (es ++ [⟨.documentEnd, mark⟩], later) := by
  induction es with
  | nil => rfl
  | cons e es ih =>
    obtain ⟨he, hes⟩ := List.forall_mem_cons.mp h
    rw [List.cons_append, firstDocument?_cons, if_neg he, ih hes]
    rfl

/-- Where no document ends, there is none to be cut off. -/
theorem firstDocument?_eq_none_iff {es : List Event} :
    firstDocument? es = none ↔ ∀ e ∈ es, e.kind ≠ .documentEnd := by
  induction es with
  | nil => exact ⟨fun _ e he => absurd he List.not_mem_nil, fun _ => rfl⟩
  | cons e es ih =>
    rw [firstDocument?_cons, List.forall_mem_cons, ← ih]
    split
    · simp [*]
    · simp [*]

/-- The events of a document in front of others are cut off whole. -/
theorem firstDocument?_enclosed (o : Outline) (start stop : Mark) (later : List Event) :
    firstDocument? (⟨.documentStart, start⟩ :: (o.events ++ [⟨.documentEnd, stop⟩]) ++ later) =
      some (⟨.documentStart, start⟩ :: (o.events ++ [⟨.documentEnd, stop⟩]), later) := by
  have hnested : Nested 1 o.events := Outline.nested_iff.mpr ⟨o, rfl⟩
  have hnone : ∀ e ∈ (⟨.documentStart, start⟩ : Event) :: o.events, e.kind ≠ .documentEnd :=
    List.forall_mem_cons.mpr ⟨EventKind.noConfusion, fun e he =>
      (isOfNode_of_nested hnested e he).2⟩
  rw [← List.cons_append, List.append_assoc]
  exact firstDocument?_append hnone stop later

/-- What is cut off is what the events start with. -/
theorem eq_append_of_firstDocument? {es later all : List Event}
    (hfirst : firstDocument? all = some (es, later)) : all = es ++ later := by
  induction all generalizing es with
  | nil => exact absurd hfirst (by simp)
  | cons e all ih =>
    rw [firstDocument?_cons] at hfirst
    split at hfirst
    · obtain ⟨rfl, rfl⟩ := Prod.mk.inj (Option.some.inj hfirst)
      rfl
    · obtain ⟨⟨es', later'⟩, hfirst', hpair⟩ := Option.map_eq_some_iff.mp hfirst
      obtain ⟨rfl, rfl⟩ := Prod.mk.inj hpair
      rw [ih hfirst', List.cons_append]

/-! ## What is handed out -/

/-- What a stream hands out is the next document, or the news that there is none. -/
theorem cases_of_next {s u : Stream} {d : Decoded} (hnext : s.next = (some d, u)) :
    u.lines = s.lines ∧
      (d = .malformed ∧ u.events = [] ∨
        ∃ es t, firstDocument? s.events = some (es, u.events) ∧
          (Builder.empty.run s.lines es).document = some t ∧ d = .document t) := by
  rw [Stream.next] at hnext
  split at hnext
  · exact absurd (Prod.mk.inj hnext).1 (by simp)
  · split at hnext
    · split at hnext
      · obtain ⟨hd, rfl⟩ := Prod.mk.inj hnext
        exact ⟨rfl, .inl ⟨(Option.some.inj hd).symm, rfl⟩⟩
      · exact absurd (Prod.mk.inj hnext).1 (by simp)
    · next es later hfirst =>
      split at hnext
      · next t ht =>
        obtain ⟨hd, rfl⟩ := Prod.mk.inj hnext
        exact ⟨rfl, .inr ⟨es, t, hfirst, ht, (Option.some.inj hd).symm⟩⟩
      · exact absurd (Prod.mk.inj hnext).1 (by simp)

/-- **The events of one document become one tree.** -/
theorem toList_of_one (lines : List (List Char)) (o : Outline) (m₁ m₂ : Mark) :
    (Stream.ofEvents lines
      ⟨⟨.documentStart, m₁⟩ :: (o.events ++ [⟨.documentEnd, m₂⟩]), false⟩).toList =
        [.document (o.denote lines []).1] := by
  have hfirst : firstDocument? (⟨.documentStart, m₁⟩ :: (o.events ++ [⟨.documentEnd, m₂⟩])) =
      some (⟨.documentStart, m₁⟩ :: (o.events ++ [⟨.documentEnd, m₂⟩]), []) := by
    simpa using firstDocument?_enclosed o m₁ m₂ []
  have hrun : (Builder.empty.run lines
      (⟨.documentStart, m₁⟩ :: (o.events ++ [⟨.documentEnd, m₂⟩]))).document =
        some (o.denote lines []).1 := by
    rw [Builder.run_enclosed]
  simp only [Stream.toList, Stream.ofEvents, Stream.take, Stream.next, Bool.false_eq_true, if_false,
    hfirst, hrun]
  rfl

theorem decodeAll_of_one {source : List Char} {o : Outline} {m₁ m₂ : Mark}
    (h : Yaml.EventStream.ofTokens (Yaml.TokenStream.ofText source) =
      ⟨⟨.documentStart, m₁⟩ :: (o.events ++ [⟨.documentEnd, m₂⟩]), false⟩) :
    decodeAll (String.ofList source) = [.document (o.denote (Text.lines source) []).1] := by
  rw [decodeAll, String.toList_ofList, Stream.ofText, h, toList_of_one]

end Document
end LintLocator
