import LintLocator.CommandLine.Command
import LintLocator.Run

/-!
# The program

A run that prints nothing ends with status 0, so that it can guard a pipeline.  A run that prints
something ends with status 1 and so does one that fails; the error output tells which it was.
Status 2 is left to arguments that are no command.
-/

namespace LintLocator

/-- How the program ends, and what it has done. -/
structure Execution where
  status : Nat
  calls : List LinterCall := []
  stdout : String := ""
  stderr : String := ""
  deriving DecidableEq, Repr, Inhabited

/-- A text in which every line but the first begins with `margin`. -/
def indentFurther (margin text : String) : String :=
  Text.joinWith ("\n" ++ margin) ((Text.splitOn ['\n'] text.toList).map String.ofList)

/-- A number in at least five columns. -/
def inFiveColumns (n : Nat) : String :=
  String.ofList (List.replicate (5 - (toString n).length) ' ') ++ toString n

/-- The causes of a failure, numbered if there are several. -/
def causeLines : List String → List String
  | [] => []
  | [cause] => ["    " ++ indentFurther "    " cause]
  | causes => causes.zipIdx.map fun c => inFiveColumns c.2 ++ ": " ++ indentFurther "       " c.1

/-- What is said about a failure: the outermost link, and the others as its causes. -/
def Failure.describe (f : Failure) : String :=
  match f.chain with
  | [] => ""
  | [link] => link
  | link :: causes => link ++ "\n\nCaused by:\n" ++ Text.joinWith "\n" (causeLines causes)

/-- What is said about a number of printed diagnostics. -/
def foundText (n : Nat) : String :=
  "found " ++ toString n ++ " linter " ++ if n > 1 then "errors" else "error"

namespace Execution

/-- The last words of a program that does not succeed. -/
def errorLine (text : String) : String := "Error: " ++ text ++ "\n"

/-- The end of the program after a run. -/
def ofRun (p : Progress Nat) : Execution :=
  match p.result with
  | .ok 0 => ⟨0, p.calls, p.output, ""⟩
  | .ok n => ⟨1, p.calls, p.output, errorLine (foundText n)⟩
  | .error f => ⟨1, p.calls, p.output, errorLine f.describe⟩

section

variable {p : Progress Nat}

theorem ofRun_of_zero (h : p.result = .ok 0) : ofRun p = ⟨0, p.calls, p.output, ""⟩ := by
  rw [ofRun, h]
  rfl

theorem ofRun_of_found {n : Nat} (h : p.result = .ok (n + 1)) :
    ofRun p = ⟨1, p.calls, p.output, errorLine (foundText (n + 1))⟩ := by
  rw [ofRun, h]
  rfl

theorem ofRun_of_error {f : Failure} (h : p.result = .error f) :
    ofRun p = ⟨1, p.calls, p.output, errorLine f.describe⟩ := by
  rw [ofRun, h]

end

end Execution

namespace Command

/-- The name and the version of the program. -/
def versionText : String := "conflint 0.2.1"

/-- How the program is used. -/
def usageText : String :=
  "Usage: conflint run [-c|--config FILE] [-e|--efm TEMPLATE] [-d|--delim DELIMITER]"

/-- Carries out a command. -/
def execute (s : Surroundings) : Command → Execution
  | version => ⟨0, [], versionText ++ "\n", ""⟩
  | run options => .ofRun (options.run s).run

/-- Carries out what the arguments ask for. -/
def executeArguments (s : Surroundings) (arguments : List String) : Execution :=
  match read? arguments with
  | some command => command.execute s
  | none => ⟨2, [], "", usageText ++ "\n"⟩

end Command
end LintLocator
