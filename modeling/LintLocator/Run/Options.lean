import LintLocator.Diagnostic

/-!
# The options of a run
-/

namespace LintLocator

/-- What stands between the path and the text in a message, unless something else is said. -/
def defaultDelimiter : String := ": "

/-- What can be chosen about a run. -/
structure RunOptions where
  /-- Where the settings are, relative to the folder of the run. -/
  settingsFile : String := "conflint.yaml"
  /-- How diagnostics are written. -/
  template : String := Diagnostic.defaultTemplate
  /-- What stands between the path and the text in a message of conftest. -/
  delimiter : String := defaultDelimiter
  deriving DecidableEq, Repr, Inhabited

end LintLocator
