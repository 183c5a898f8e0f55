import LintLocator.Failure

/-!
# Work that leaves a trace

A run starts linters, notes things in its log and writes lines, and it may stop in the middle with
a failure.  What it has done until then stays done: a failure does not take back a line that has
been written.  So a piece of work comes to a result *and* a trace, and the trace is there in
either case.

What a linter answers can depend on what was started before it, so a piece of work is a function
of the past.  The past is never read for anything else, and work only ever adds to it.

* `RunEvent`, `Progress`, `Work` --- what happens, what has come of it, and what is to be done;
* `Work.bind` --- one thing after the other: traces are appended and the first failure ends it;
* `Work.each` --- the same for every member of a list.
-/

namespace LintLocator

/-- Something that happens in the course of a run. -/
inductive RunEvent where
  /-- A linter has been started. -/
  | started (call : LinterCall)
  | noted (entry : LogEntry)
  /-- Something has been written to the output. -/
  | wrote (text : String)
  deriving DecidableEq, Repr, Inhabited

namespace RunEvent

def call? : RunEvent → Option LinterCall
  | started call => some call
  | _ => none

def entry? : RunEvent → Option LogEntry
  | noted entry => some entry
  | _ => none

def text? : RunEvent → Option String
  | wrote text => some text
  | _ => none

/-- The linters started in a trace. -/
def calls (trace : List RunEvent) : List LinterCall := trace.filterMap call?

/-- The log of a trace. -/
def log (trace : List RunEvent) : List LogEntry := trace.filterMap entry?

/-- Everything that was written in a trace. -/
def output (trace : List RunEvent) : String := String.join (trace.filterMap text?)

@[simp] theorem calls_append (s t : List RunEvent) : calls (s ++ t) = calls s ++ calls t :=
  List.filterMap_append

@[simp] theorem log_append (s t : List RunEvent) : log (s ++ t) = log s ++ log t :=
  List.filterMap_append

end RunEvent

/-- What a piece of work has come to, and how. -/
structure Progress (α : Type) where
  result : Except Failure α
  trace : List RunEvent

namespace Progress

variable {α : Type}

/-- The linters that were started. -/
def calls (p : Progress α) : List LinterCall := RunEvent.calls p.trace

/-- What was noted. -/
def log (p : Progress α) : List LogEntry := RunEvent.log p.trace

/-- What was written. -/
def output (p : Progress α) : String := RunEvent.output p.trace

end Progress

/-- A piece of work, which goes on from what has happened before. -/
def Work (α : Type) : Type := (past : List RunEvent) → Progress α

namespace Work

variable {α β : Type}

/-- Nothing to do: the result is there already. -/
def done (a : α) : Work α := fun _ => ⟨.ok a, []⟩

/-- Gives up. -/
def fail (f : Failure) : Work α := fun _ => ⟨.error f, []⟩

/-- Does one thing and nothing else. -/
def doing (e : RunEvent) : Work Unit := fun _ => ⟨.ok (), [e]⟩

/-- Notes something in the log. -/
def note (entry : LogEntry) : Work Unit := doing (.noted entry)

/-- The linters that have been started so far. -/
def calls : Work (List LinterCall) := fun past => ⟨.ok (RunEvent.calls past), []⟩

/-- Goes on with the result of `w`.  If there is none, the failure of `w` is the end. -/
def bind (w : Work α) (next : α → Work β) : Work β := fun past =>
  match (w past).result with
  | .error f => ⟨.error f, (w past).trace⟩
  | .ok a =>
    let p := next a (past ++ (w past).trace)
    ⟨p.result, (w past).trace ++ p.trace⟩

instance : Monad Work where
  pure := done
  bind := bind

/-- Work that is over as soon as it is asked for. -/
def ofExcept : Except Failure α → Work α
  | .ok a => done a
  | .error f => fail f

/-- Work of which the outcome is known. -/
def ofOutcome (o : Outcome Failure α) : Work α := fun _ => ⟨o.result, o.log.map .noted⟩

/-- The same work as seen from an activity around it, of which its failure then speaks. -/
def within (a : Activity) (w : Work α) : Work α := fun past =>
  match (w past).result with
  | .error f => ⟨.error (f.within a), (w past).trace⟩
  | .ok _ => w past

/-- Does the same for every member of a list, one after the other. -/
def each (f : α → Work β) : List α → Work (List β)
  | [] => done []
  | a :: as => do
    let b ← f a
    let bs ← each f as
    return b :: bs

/-- All that comes of doing the same for every member of a list. -/
def gather (f : α → Work (List β)) (as : List α) : Work (List β) := do
  let bs ← each f as
  return bs.flatten

/-- The sum of the numbers that come of doing the same for every member of a list. -/
def total (f : α → Work Nat) (as : List α) : Work Nat := do
  let ns ← each f as
  return ns.foldr (· + ·) 0

/-- Does the work, with nothing behind it. -/
def run (w : Work α) : Progress α := w []

theorem pure_apply (a : α) (past : List RunEvent) : (pure a : Work α) past = ⟨.ok a, []⟩ := rfl

theorem bind_apply_of_ok {w : Work α} {next : α → Work β} {past : List RunEvent} {a : α}
    (h : (w past).result = .ok a) :
    (w >>= next) past =
      ⟨(next a (past ++ (w past).trace)).result,
        (w past).trace ++ (next a (past ++ (w past).trace)).trace⟩ := by
  change bind w next past = _
  simp only [bind, h]

theorem bind_apply_of_error {w : Work α} {next : α → Work β} {past : List RunEvent} {f : Failure}
    (h : (w past).result = .error f) : (w >>= next) past = ⟨.error f, (w past).trace⟩ := by
  change bind w next past = _
  simp only [bind, h]

end Work
end LintLocator
