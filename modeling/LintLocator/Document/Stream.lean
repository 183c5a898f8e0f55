import LintLocator.Document.Builder
import LintLocator.Text.Lines
import LintLocator.Yaml.Grammar
import LintLocator.Yaml.Lexer

/-!
# The documents of a text

A file may hold several documents.  They are handed out one by one, so that a caller who has found
what it wants is not stopped by what is wrong further below.  When the text turns out not to be
YAML, this is said once, and the document in which it happens is lost; then the stream is over.
-/

namespace LintLocator
namespace Document

open Yaml (Event EventStream TokenStream)

/-- What a stream hands out: a document, or the news that the text goes wrong. -/
inductive Decoded where
  | document (t : Tree)
  | malformed
  deriving Inhabited

/-- The documents that are still to be handed out. -/
structure Stream where
  lines : List (List Char)
  events : List Event
  /-- Whether the text goes wrong behind the events. -/
  failed : Bool
  finished : Bool
  deriving Inhabited

/-- The events up to the end of the first document, and those after it. -/
def firstDocument? : List Event → Option (List Event × List Event)
  | [] => none
  | e :: es =>
    if e.kind = .documentEnd then some ([e], es)
    else (firstDocument? es).map fun p => (e :: p.1, p.2)

@[simp] theorem firstDocument?_nil : firstDocument? [] = none := rfl

theorem firstDocument?_cons (e : Event) (es : List Event) :
    firstDocument? (e :: es) =
      if e.kind = .documentEnd then some ([e], es)
      else (firstDocument? es).map fun p => (e :: p.1, p.2) := rfl

namespace Stream

def ofEvents (lines : List (List Char)) (s : EventStream) : Stream :=
  ⟨lines, s.events, s.failed, false⟩

/-- The documents of a text. -/
def ofText (source : List Char) : Stream :=
  ofEvents (Text.lines source) (EventStream.ofTokens (TokenStream.ofText source))

/-- Hands out the next document, if there is one. -/
def next (s : Stream) : Option Decoded × Stream :=
  if s.finished then (none, s)
  else
    match firstDocument? s.events with
    | none =>
      (if s.failed then some .malformed else none, { s with events := [], finished := true })
    | some (events, later) =>
      match (Builder.empty.run s.lines events).document with
      | some t => (some (.document t), { s with events := later })
      | none => (none, { s with events := later, finished := true })

/-- Hands out at most `fuel` documents. -/
def take : (fuel : Nat) → Stream → List Decoded
  | 0, _ => []
  | fuel + 1, s =>
    match s.next with
    | (some d, t) => d :: take fuel t
    | (none, _) => []

/-- Hands out all documents.  Each but the last answer uses up an event. -/
def toList (s : Stream) : List Decoded := s.take (s.events.length + 2)

end Stream

/-- All documents of a text, and whether it goes wrong behind them. -/
def decodeAll (source : String) : List Decoded := (Stream.ofText source.toList).toList

/-- The first document of a text, if it has one; what comes after it does not matter. -/
def decodeFirst (source : String) : Option Decoded := (Stream.ofText source.toList).next.1

end Document
end LintLocator
