import LintLocator.Lint.Job
import LintLocator.Text.Split

/-!
# What a linter is started with

Each option of a job contributes its own run of arguments, and options that are not in use
contribute none.  Lists are passed as one argument with commas between the members.
-/

namespace LintLocator

namespace Lint

/-- An option without a value. -/
def switch (flag : String) (on : Bool) : List String := if on then [flag] else []

/-- An option whose value is a list; an empty list is not passed at all. -/
def listed (flag : String) (values : List String) : List String :=
  if values.isEmpty then [] else [flag, Text.joinWith "," values]

end Lint

open Lint

namespace ConftestJob

/-- The input format is passed only if there is one to speak of. -/
def inputArguments (job : ConftestJob) : List String :=
  match job.input with
  | some format => if format == "" then [] else ["-i", format]
  | none => []

/-- The arguments for checking some files. -/
def arguments (job : ConftestJob) (files : List String) : List String :=
  ["test"] ++ files ++ ["-p", job.policy, "-o", "json"] ++ job.inputArguments ++
    switch "--combine" job.combine ++ switch "--all-namespaces" job.allNamespaces ++
    listed "--data" job.data ++ listed "--namespace" job.namespaces

end ConftestJob

namespace KubevalJob

/-- The first schema location has an option of its own. -/
def schemaArguments (job : KubevalJob) : List String :=
  match job.schemaLocations with
  | [] => []
  | first :: more =>
    ["--schema-location", first] ++ listed "--additional-schema-locations" more

/-- The arguments for checking a file. -/
def arguments (job : KubevalJob) (file : String) : List String :=
  [file, "-o", "json"] ++ switch "--strict" job.strict ++
    switch "--ignore-missing-schemas" job.ignoreMissingSchemas ++
    listed "--ignored-filename-patterns" job.ignoredFilenamePatterns ++
    listed "--skip-kinds" job.skipKinds ++ job.schemaArguments

end KubevalJob
end LintLocator
