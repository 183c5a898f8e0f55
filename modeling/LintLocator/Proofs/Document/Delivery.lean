import LintLocator.Proofs.Document.OutlineOrder

/-!
# What a stream hands out, call by call

A stream is asked for documents one by one, and whoever asks may stop or go on asking as long as he
likes.  What the answers are is said here for every call.  The events of a text are those of some
complete documents, and behind them the text is over or goes wrong (`eventsOf`).  The answers are
the documents in their order, each made of its own events and of nothing else, then the news that
the text goes wrong if it does, and nothing for ever after.

* `Enclosed`, `Ending`, `eventsOf`: how the events of a text are put together;
* `exists_eventsOf_ofTokens`: the events of every text are;
* `answers`, `answers_in_order`: what is handed out.
-/

namespace LintLocator
namespace Document

open Yaml (Event EventKind EventStream Expecting Grammar InOrder Mark Token TokenStream)

/-- A complete document as it is told by its events. -/
structure Enclosed where
  start : Mark
  root : Outline
  stop : Mark

/-- The events of a document, from its start to its end. -/
def Enclosed.events (d : Enclosed) : List Event :=
  ⟨.documentStart, d.start⟩ :: (d.root.events ++ [⟨.documentEnd, d.stop⟩])

/-- The tree that a document stands for.  Nothing but its own events goes into it; only the place of
a dash is looked up in the lines of the text. -/
def Enclosed.tree (lines : List (List Char)) (d : Enclosed) : Tree := (d.root.denote lines []).1

/-- What comes behind the complete documents of a text. -/
inductive Ending where
  /-- Nothing: the text is over. -/
  | complete
  /-- The text goes wrong.  A document may have begun before, but it has not come to its end. -/
  | broken (begun : List Event) (unended : ∀ e ∈ begun, e.kind ≠ .documentEnd)

namespace Ending

/-- The events behind the last complete document. -/
def begun : Ending → List Event
  | complete => []
  | broken begun _ => begun

/-- Whether the text goes wrong. -/
def failed : Ending → Bool
  | complete => false
  | broken .. => true

/-- What is said about the end of the text. -/
def news : Ending → List Decoded
  | complete => []
  | broken .. => [.malformed]

theorem length_news_le (z : Ending) : z.news.length ≤ 1 := by
  cases z with
  | complete => exact Nat.zero_le 1
  | broken begun unended => exact Nat.le_refl 1

theorem kind_ne_of_mem_begun (z : Ending) : ∀ e ∈ z.begun, e.kind ≠ .documentEnd := by
  cases z with
  | complete => exact fun e he => absurd he List.not_mem_nil
  | broken begun unended => exact unended

end Ending

/-- The events of complete documents, and what comes behind them. -/
def eventsOf (ds : List Enclosed) (z : Ending) : EventStream :=
  ⟨ds.flatMap Enclosed.events ++ z.begun, z.failed⟩

/-- What is to be handed out: each document once, in order, and then what is said about the end. -/
def answers (lines : List (List Char)) (ds : List Enclosed) (z : Ending) : List Decoded :=
  ds.map (fun d => .document (d.tree lines)) ++ z.news

/-! ## One call -/

namespace Stream

variable {s : Stream} {lines : List (List Char)} {as : List Decoded}

/-- The stream that is left after `n` calls. -/
def after : (n : Nat) → Stream → Stream
  | 0, s => s
  | n + 1, s => after n s.next.2

/-- The first document is handed out, and the others are left. -/
theorem next_of_cons (lines : List (List Char)) (d : Enclosed) (ds : List Enclosed) (z : Ending) :
    (ofEvents lines (eventsOf (d :: ds) z)).next =
      (some (.document (d.tree lines)), ofEvents lines (eventsOf ds z)) := by
  have hfirst : firstDocument? (eventsOf (d :: ds) z).events =
      some (d.events, (eventsOf ds z).events) := by
    rw [eventsOf, List.flatMap_cons, List.append_assoc]
    exact firstDocument?_enclosed d.root d.start d.stop _
  have hrun : (Builder.empty.run lines d.events).document = some (d.tree lines) :=
    congrArg Builder.document (Builder.run_enclosed d.root d.start d.stop)
  simp only [next, ofEvents, Bool.false_eq_true, if_false, hfirst, hrun]
  rfl

/-- Behind the documents there is only the news about the end, and then the stream is finished. -/
theorem next_of_nil (lines : List (List Char)) (z : Ending) :
    (ofEvents lines (eventsOf [] z)).next = (z.news.head?, ⟨lines, [], z.failed, true⟩) := by
  have hnone : firstDocument? (eventsOf [] z).events = none :=
    firstDocument?_eq_none_iff.mpr z.kind_ne_of_mem_begun
  simp only [next, ofEvents, Bool.false_eq_true, if_false, hnone]
  cases z with
  | complete => rfl
  | broken begun unended => rfl

/-- A finished stream hands out nothing and stays as it is. -/
theorem next_of_finished (h : s.finished = true) : s.next = (none, s) := by
  rw [next, if_pos h]

/-! ## Any number of calls -/

theorem next_after_of_finished (h : s.finished = true) (n : Nat) : (s.after n).next.1 = none := by
  induction n with
  | zero => rw [after, next_of_finished h]
  | succ n ih => rwa [after, next_of_finished h]

/-- Every call is answered from the list. -/
theorem next_after (lines : List (List Char)) (ds : List Enclosed) (z : Ending) (n : Nat) :
    ((ofEvents lines (eventsOf ds z)).after n).next.1 = (answers lines ds z)[n]? := by
  induction ds generalizing n with
  | nil =>
    have hanswers : answers lines [] z = z.news := rfl
    cases n with
    | zero => rw [after, next_of_nil, hanswers, List.head?_eq_getElem?]
    | succ n =>
      have hlength : z.news.length ≤ n + 1 := Nat.le_trans z.length_news_le (Nat.le_add_left 1 n)
      rw [after, next_of_nil, next_after_of_finished rfl, hanswers,
        List.getElem?_eq_none hlength]
  | cons d ds ih =>
    cases n with
    | zero => rw [after, next_of_cons]; rfl
    | succ n => rw [after, next_of_cons, ih]; rfl

/-- Asking up to a number of times gives the first answers. -/
theorem take_eq_of_next_after (h : ∀ n, (s.after n).next.1 = as[n]?) (fuel : Nat) :
    s.take fuel = as.take fuel := by
  induction fuel generalizing s as with
  | zero => rfl
  | succ fuel ih =>
    have hfirst : s.next.1 = as[0]? := h 0
    rw [take]
    cases hnext : s.next with
    | mk answer u =>
      rw [hnext] at hfirst
      cases as with
      | nil =>
        obtain rfl : answer = none := hfirst
        rfl
      | cons a as =>
        obtain rfl : answer = some a := hfirst
        have hlater : ∀ n, (u.after n).next.1 = as[n]? := by
          intro n
          have hn := h (n + 1)
          rwa [after, hnext] at hn
        exact congrArg (a :: ·) (ih hlater)

/-- Asking until there is no answer any more gives all of them. -/
theorem toList_eq (lines : List (List Char)) (ds : List Enclosed) (z : Ending) :
    (ofEvents lines (eventsOf ds z)).toList = answers lines ds z := by
  have hevents : ds.length ≤ (ds.flatMap Enclosed.events).length := by
    induction ds with
    | nil => exact Nat.le_refl 0
    | cons d ds ih =>
      rw [List.flatMap_cons, List.length_append, List.length_cons, Enclosed.events,
        List.length_cons]
      omega
  have hfuel : (answers lines ds z).length ≤ (ofEvents lines (eventsOf ds z)).events.length + 2 := by
    have hnews := z.length_news_le
    simp only [answers, ofEvents, eventsOf, List.length_append, List.length_map]
    omega
  rw [toList, take_eq_of_next_after (next_after lines ds z), List.take_of_length_le hfuel]

end Stream

/-! ## The events of a text -/

variable {text : List Char} {g : Grammar} {ts : List Token} {es : List Event}

/-- Where the end of a document is expected, the text is not over. -/
theorem step_ne_done (h : Inside g.stack) : g.step ≠ .done := by
  have hread : ∀ read : Option (Event × Grammar), Grammar.Step.ofEvent? read ≠ .done := by
    intro read
    cases read with
    | none => exact Grammar.Step.noConfusion
    | some pair => exact Grammar.Step.noConfusion
  obtain ⟨xs, after, hstack, hxs⟩ := h
  cases xs with
  | nil =>
    rw [Grammar.step, hstack]
    exact hread _
  | cons x xs =>
    have hx : x.isInside = true := hxs x List.mem_cons_self
    rw [Grammar.step, hstack]
    cases x with
    | document bare => exact absurd hx Bool.noConfusion
    | missingValue =>
      cases g.peek? with
      | none => exact Grammar.Step.noConfusion
      | some token => exact Grammar.Step.noConfusion
    | pairEnd mark => exact Grammar.Step.noConfusion
    | _ => exact hread _

/-- Events that resume where a document may start are those of complete documents, up to some that
end none. -/
theorem exists_enclosed_of_resumes (horder : InOrder text ts) (hes : Resumes ts es) :
    ∃ (ds : List Enclosed) (rest : List Event), es = ds.flatMap Enclosed.events ++ rest ∧
      ∀ e ∈ rest, e.kind ≠ .documentEnd := by
  induction hn : es.length using Nat.strong_induction_on generalizing es with
  | _ n ih =>
    subst hn
    cases hfirst : firstDocument? es with
    | none => exact ⟨[], es, rfl, firstDocument?_eq_none_iff.mp hfirst⟩
    | some parts =>
      obtain ⟨es', later⟩ := parts
      obtain ⟨fuel, g, bare, after, rfl, hstack, htokens⟩ := hes
      obtain ⟨o, start, stop, rfl, -, fuel', g', bare', after', hlater, hstack', htokens'⟩ :=
        exists_outline (horder.suffix htokens) hstack hfirst
      have hall := eq_append_of_firstDocument? hfirst
      have hless : later.length < (Grammar.steps fuel g).1.length := by
        rw [hall, List.length_append, List.length_cons]
        omega
      obtain ⟨ds, rest, hsplit, hrest⟩ := ih _ hless
        ⟨fuel', g', bare', after', hlater, hstack', htokens'.trans htokens⟩ rfl
      refine ⟨⟨start, o, stop⟩ :: ds, rest, ?_, hrest⟩
      rw [hall, hsplit, List.flatMap_cons, List.append_assoc]
      rfl

/-- Unless the text goes wrong, its last event ends a document.  Where a document has begun, there
is such an event. -/
theorem kind_getLast?_of_steps {fuel : Nat} (horder : InOrder text g.tokens)
    (h : (Grammar.steps fuel g).2 = false) :
    ((∃ bare after, g.stack = .document bare :: after) →
      ∀ e ∈ (Grammar.steps fuel g).1.getLast?, e.kind = .documentEnd) ∧
    (Inside g.stack → ∃ e ∈ (Grammar.steps fuel g).1.getLast?, e.kind = .documentEnd) := by
  induction fuel generalizing g with
  | zero => exact absurd h (by simp)
  | succ fuel ih =>
    cases hstep : g.step with
    | failed => exact absurd h (by simp [Grammar.steps_of_failed hstep])
    | done =>
      refine ⟨fun _ e he => absurd he ?_, fun hin => absurd hstep (step_ne_done hin)⟩
      simp [Grammar.steps_of_done hstep]
    | event e k =>
      rw [Grammar.steps_of_event hstep] at h ⊢
      have hbegun : k.tokens <:+ g.tokens → Inside k.stack →
          ∃ e' ∈ (e :: (Grammar.steps fuel k).1).getLast?, e'.kind = .documentEnd := by
        intro hsuffix hin
        obtain ⟨e', he', hkind⟩ := (ih (horder.suffix hsuffix) h).2 hin
        exact ⟨e', by rw [List.getLast?_cons, he']; rfl, hkind⟩
      refine ⟨?_, ?_⟩
      · rintro ⟨bare, after, hstack⟩ e' he'
        obtain ⟨-, hsuffix, x, hx, hk⟩ := Grammar.step_of_document hstack hstep
        obtain ⟨e'', he'', hkind⟩ := hbegun hsuffix (.of_start hx hk)
        rwa [Option.mem_unique he' he'']
      · rintro ⟨xs, after, hstack, hxs⟩
        cases xs with
        | nil =>
          obtain ⟨hkind, hsuffix, bare, hk⟩ := Grammar.step_of_ended hstack hstep
          rw [List.getLast?_cons]
          cases hlast : (Grammar.steps fuel k).1.getLast? with
          | none => exact ⟨e, rfl, hkind⟩
          | some e' =>
            exact ⟨e', rfl, (ih (horder.suffix hsuffix) h).1 ⟨bare, after, hk⟩ e' hlast⟩
        | cons x xs =>
          obtain ⟨hx, hxs⟩ := List.forall_mem_cons.mp hxs
          obtain ⟨hin, -, hsuffix⟩ := inside_of_step horder hstack hx ⟨xs, after, rfl, hxs⟩ hstep
          exact hbegun hsuffix hin

/-- **The events of every text are those of complete documents and what comes behind them.** -/
theorem exists_eventsOf_ofTokens (source : List Char) :
    ∃ ds z, EventStream.ofTokens (TokenStream.ofText source) = eventsOf ds z := by
  let tokens := (TokenStream.ofText source).tokens
  let fuel := 8 * tokens.length + 8
  have horder : InOrder _ tokens := TokenStream.inOrder_ofText source
  obtain ⟨ds, rest, hsplit, hrest⟩ := exists_enclosed_of_resumes horder
    ⟨fuel, Grammar.start tokens, true, [], rfl, rfl, List.suffix_refl tokens⟩
  have hstream : EventStream.ofTokens (TokenStream.ofText source) =
      ⟨ds.flatMap Enclosed.events ++ rest, (Grammar.steps fuel (Grammar.start tokens)).2⟩ := by
    rw [← hsplit]
    rfl
  cases hfailed : (Grammar.steps fuel (Grammar.start tokens)).2 with
  | true => exact ⟨ds, .broken rest hrest, by rw [hstream, hfailed]; rfl⟩
  | false =>
    have hlast := (kind_getLast?_of_steps (g := Grammar.start tokens) horder hfailed).1 ⟨true, [], rfl⟩
    -- an event behind the last complete document would end a document
    have hnone : rest = [] := by
      rcases List.eq_nil_or_concat rest with hnil | ⟨init, e, rfl⟩
      · exact hnil
      · have hmem : e ∈ (Grammar.steps fuel (Grammar.start tokens)).1.getLast? := by
          rw [hsplit, List.concat_eq_append, ← List.append_assoc, List.getLast?_concat]
          rfl
        exact absurd (hlast e hmem) (hrest e (by simp))
    exact ⟨ds, .complete, by rw [hstream, hfailed, hnone]; rfl⟩

/-! ## All calls -/

/-- **The answers come in order.**  Where the events are those of some complete documents and what
comes behind them, each call is answered from the list of the documents' own trees, with the news
about a broken end behind them, and there is no answer any more when the list is used up.  Asking to
the end gives this list.  The events of every text are of this kind. -/
theorem answers_in_order :
    (∀ lines ds z, (∀ n, ((Stream.ofEvents lines (eventsOf ds z)).after n).next.1 =
        (answers lines ds z)[n]?) ∧
      (Stream.ofEvents lines (eventsOf ds z)).toList = answers lines ds z) ∧
    ∀ source : String, ∃ ds z,
      EventStream.ofTokens (TokenStream.ofText source.toList) = eventsOf ds z ∧
        decodeAll source = answers (Text.lines source.toList) ds z := by
  refine ⟨fun lines ds z => ⟨Stream.next_after lines ds z, Stream.toList_eq lines ds z⟩,
    fun source => ?_⟩
  obtain ⟨ds, z, hevents⟩ := exists_eventsOf_ofTokens source.toList
  refine ⟨ds, z, hevents, ?_⟩
  rw [decodeAll, Stream.ofText, hevents, Stream.toList_eq]

/-- An anchor of the first document is none in the second one, so the alias there is empty. -/
example (m : Mark) :
    (Stream.ofEvents []
      (eventsOf [⟨m, .scalar .plain "x" false (some 1) m, m⟩, ⟨m, .alias 1 m, m⟩]
        (.broken [⟨.documentStart, m⟩] (by simp)))).toList =
      [.document (.scalar "x" (positionOf m)), .document (.scalar "" (positionOf m)), .malformed] := rfl

end Document
end LintLocator
