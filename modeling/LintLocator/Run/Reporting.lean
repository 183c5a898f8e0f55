import LintLocator.Document.Locate
import LintLocator.Lint.Report
import LintLocator.Run.Options
import LintLocator.Run.Surroundings

/-!
# From reports to lines of output

A message begins with a fragment of a path, and a delimiter stands behind it.  The fragment leads
to a node of the reported file, and the position of the node completes the diagnostic.  A message
without the delimiter says nothing about where it belongs and is left out with a warning; a
fragment that leads nowhere ends the run.
-/

namespace LintLocator

namespace RunOptions

/-- Writes a diagnostic as a line of its own. -/
def print (o : RunOptions) (s : Surroundings) (d : Diagnostic) : Work Unit :=
  s.write (d.format o.template ++ "\n")

/-- The position of the node that a fragment leads to. -/
def locate (s : Surroundings) (filename fragment : String) : Work Position :=
  let found := Document.resolve s.files (s.pathOf filename) ("$." ++ fragment)
  Work.ofOutcome
    ⟨found.result.mapError fun e => ⟨[.processing fragment], .notLocated e⟩, found.log⟩

/-- The two parts of a message, if it has a delimiter. -/
def splitMessage (delimiter message : String) : Option (String × String) :=
  (Text.breakOn delimiter.toList message.toList).map fun parts =>
    (String.ofList parts.1, String.ofList parts.2)

/-- Prints what a message says about a file, and tells how many lines that takes. -/
def printMessage (o : RunOptions) (s : Surroundings) (filename delimiter message : String) :
    Work Nat :=
  match splitMessage delimiter message with
  | none => do
    Work.note (.warn ("ignoring unsupported output: " ++ message))
    return 0
  | some (fragment, text) => do
    let position ← locate s filename fragment
    (o.print s ⟨filename, position, text⟩).within (.printing text)
    return 1

/-- Prints the messages of a report, and tells how many lines that takes. -/
def printReport (o : RunOptions) (s : Surroundings) (delimiter : String) (r : Report) : Work Nat :=
  Work.total (o.printMessage s r.filename delimiter) r.messages

end RunOptions
end LintLocator
