/-!
# The log

What is worth telling besides the result is handed back together with it, in the order in which
it came up.  Whoever started the work decides what becomes of it.
-/

namespace LintLocator

/-- How much an entry of the log matters. -/
inductive LogLevel where
  | warn
  | debug
  deriving DecidableEq, Repr, Inhabited

/-- The name under which a log shows a level. -/
def LogLevel.name : LogLevel → String
  | .warn => "WARN"
  | .debug => "DEBUG"

/-- One line of the log. -/
structure LogEntry where
  level : LogLevel
  text : String
  deriving DecidableEq, Repr, Inhabited

namespace LogEntry

def warn (text : String) : LogEntry := ⟨.warn, text⟩

def debug (text : String) : LogEntry := ⟨.debug, text⟩

end LogEntry

/-- The result of some work, or the error that ended it, and what was noted on the way. -/
structure Outcome (ε α : Type) where
  result : Except ε α
  log : List LogEntry

namespace Outcome

variable {ε α : Type}

/-- Success with nothing to note. -/
def done (a : α) : Outcome ε α := ⟨.ok a, []⟩

/-- Failure with nothing to note. -/
def failed (e : ε) : Outcome ε α := ⟨.error e, []⟩

/-- The same outcome after something has been noted. -/
def after (entry : LogEntry) (o : Outcome ε α) : Outcome ε α := ⟨o.result, entry :: o.log⟩

@[simp] theorem result_after (entry : LogEntry) (o : Outcome ε α) :
    (o.after entry).result = o.result := rfl

@[simp] theorem log_after (entry : LogEntry) (o : Outcome ε α) :
    (o.after entry).log = entry :: o.log := rfl

end Outcome
end LintLocator
