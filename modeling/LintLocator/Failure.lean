import LintLocator.Document.LocateError
import LintLocator.Log

/-!
# Failures of a run

A run can fail in many places.  A failure tells what was being done, from the whole to the part,
and then the cause.  Of a text in a foreign format it is only said that it is malformed, and the
format's name stands for the details.
-/

namespace LintLocator

/-- The linters that can be run. -/
inductive Linter where
  | conftest
  | kubeval
  deriving DecidableEq, Repr, Inhabited

/-- The program that is started. -/
def Linter.program : Linter → String
  | .conftest => "conftest"
  | .kubeval => "kubeval"

/-- A linter's program and what it is started with. -/
structure LinterCall where
  linter : Linter
  arguments : List String
  deriving DecidableEq, Repr, Inhabited

/-- The call as one would type it. -/
def LinterCall.render (c : LinterCall) : String :=
  c.linter.program ++ " " ++ Text.joinWith " " c.arguments

/-- The foreign formats whose texts a run reads. -/
inductive Format where
  | json
  | yaml
  | toml
  | glob
  deriving DecidableEq, Repr, Inhabited

/-- What stands for the details of what is wrong with a text. -/
def Format.tag : Format → String
  | .json => "<json>"
  | .yaml => "<yaml>"
  | .toml => "<toml>"
  | .glob => "<glob>"

/-- What a run is doing. -/
inductive Activity where
  | readingSettings (path : String)
  | parsingSettings (path : String)
  | searching (pattern : String)
  | running (call : LinterCall)
  /-- Looking at what a linter has written about `target`. -/
  | checking (linter : Linter) (target : String)
  | decoding (linter : Linter)
  /-- Locating the part of a message that names a node. -/
  | processing (fragment : String)
  | printing (text : String)
  deriving DecidableEq, Repr, Inhabited

/-- The activity as failures speak of it. -/
def Activity.describe : Activity → String
  | .readingSettings path => "Failed to read config file " ++ path
  | .parsingSettings path => "Failed to parse config file " ++ path
  | .searching pattern => "searching files matching " ++ pattern
  | .running call => "running " ++ call.render
  | .checking linter target => "running " ++ linter.program ++ " on " ++ target
  | .decoding linter => "decoding " ++ linter.program ++ " output"
  | .processing fragment => "processing " ++ fragment
  | .printing text => "printing " ++ text

/-- What makes a run fail. -/
inductive FailureCause where
  | malformed (format : Format)
  | unreadable (e : ReadError)
  | notLocated (e : LocateError)
  /-- There is no such program. -/
  | notInstalled
  | outputClosed

/-- The cause in words. -/
def FailureCause.message : FailureCause → String
  | .malformed format => format.tag
  | .unreadable e => e.message
  | .notLocated e => e.message
  | .notInstalled => ReadError.notFound.message
  | .outputClosed => "output closed"

/-- A cause and what was being done, the outermost activity first. -/
structure Failure where
  during : List Activity
  cause : FailureCause

namespace Failure

/-- A failure of which nothing is known but the cause. -/
def because (cause : FailureCause) : Failure := ⟨[], cause⟩

/-- The failure as seen from an activity around it. -/
def within (a : Activity) (f : Failure) : Failure := ⟨a :: f.during, f.cause⟩

/-- The links of the failure, from the outermost activity to the cause. -/
def chain (f : Failure) : List String := f.during.map Activity.describe ++ [f.cause.message]

/-- The whole failure on one line. -/
def message (f : Failure) : String := Text.joinWith ": " f.chain

end Failure
end LintLocator
