/-!
# Jobs

A job says which files a linter is to check and how.  Files are given by patterns.  Everything but
the patterns is passed on to the linter, except `failOnWarn`, which says whether its warnings
count.
-/

namespace LintLocator

/-- A job for conftest, which checks files against a policy. -/
structure ConftestJob where
  files : List String := []
  policy : String := ""
  /-- The format in which conftest is to read the files. -/
  input : Option String := none
  combine : Bool := false
  /-- Whether warnings are reported like failures. -/
  failOnWarn : Bool := false
  data : List String := []
  allNamespaces : Bool := false
  namespaces : List String := []
  deriving DecidableEq, Repr, Inhabited

/-- A job for kubeval, which checks files against the schemas of their resources. -/
structure KubevalJob where
  files : List String := []
  strict : Bool := false
  /-- Where schemas are looked for, the first place being asked first. -/
  schemaLocations : List String := []
  ignoreMissingSchemas : Bool := false
  ignoredFilenamePatterns : List String := []
  skipKinds : List String := []
  deriving DecidableEq, Repr, Inhabited

/-- All jobs of a run.  Those for conftest come first. -/
structure Settings where
  conftest : List ConftestJob := []
  kubeval : List KubevalJob := []
  deriving DecidableEq, Repr, Inhabited

end LintLocator
