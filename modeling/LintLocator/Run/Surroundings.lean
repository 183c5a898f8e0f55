import LintLocator.Glob.Expansion
import LintLocator.Run.Work

/-!
# What surrounds a run

A run sees files, linters and an output.  The linters are programs of others: all there is to
know about one is what it hands back when it is started, and that may depend on the linters that
were started before.
-/

namespace LintLocator

/-- What a linter hands back when it ends. -/
structure LinterOutput where
  stdout : List UInt8 := []
  stderr : List UInt8 := []
  /-- The exit status; linters that have found something do not end with zero. -/
  status : Nat := 0
  deriving DecidableEq, Repr, Inhabited

/-- Everything outside of a run that it can see. -/
structure Surroundings where
  files : FileTree
  /-- The path of the folder in which the run takes place. -/
  folder : String
  /-- What a linter hands back after the calls `before`; nothing if it is not installed. -/
  answer : (before : List LinterCall) → (call : LinterCall) → Option LinterOutput
  /-- Whether the output takes what is written to it. -/
  writable : Bool := true

namespace Surroundings

/-- The path of a file that is named relative to the folder of the run. -/
def pathOf (s : Surroundings) (name : String) : String := FileTree.joinPath s.folder name

/-- Notes what is remarkable about how a linter ended. -/
def noteEnd (call : LinterCall) (output : LinterOutput) : Work Unit := do
  if output.status != 0 then
    Work.note (.debug
      (call.render ++ " exited with exit status: " ++ toString output.status))
  if !output.stderr.isEmpty then
    Work.note (.debug (call.linter.program ++ " stderr: " ++ Utf8.decodeShown output.stderr))

/-- Starts a linter and waits for its output.  However it ends, its output counts. -/
def start (s : Surroundings) (call : LinterCall) : Work (List UInt8) := do
  Work.note (.debug ("running " ++ call.render))
  match s.answer (← Work.calls) call with
  | none => Work.fail ⟨[.running call], .notInstalled⟩
  | some output =>
    Work.doing (.started call)
    noteEnd call output
    return output.stdout

/-- The files that match a pattern.  It is worth a warning if there are none. -/
def filesMatching (s : Surroundings) (pattern : String) : Work (List String) := do
  let files ← Work.ofExcept (Glob.expand s.files s.folder pattern)
  if files.isEmpty then
    Work.note (.warn ("no files match " ++ pattern))
  return files

/-- Writes to the output. -/
def write (s : Surroundings) (text : String) : Work Unit :=
  if s.writable then Work.doing (.wrote text) else Work.fail (.because .outputClosed)

end Surroundings
end LintLocator
