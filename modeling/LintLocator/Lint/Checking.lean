import LintLocator.Lint.Arguments
import LintLocator.Lint.Decoding
import LintLocator.Run.Surroundings

/-!
# Doing a job

conftest is started once for each pattern, with all files that match it.  kubeval is started once
for each file.  A job makes all of its calls before anything is done with the reports.
-/

namespace LintLocator

namespace ConftestJob

/-- The reports about the files that match a pattern. -/
def check (job : ConftestJob) (s : Surroundings) (pattern : String) : Work (List Report) := do
  let files ← s.filesMatching pattern
  if files.isEmpty then
    return []
  else
    let output ← s.start ⟨.conftest, job.arguments files⟩
    (Work.ofExcept (Lint.conftestReports output job.failOnWarn)).within
      (.checking .conftest pattern)

/-- The reports of the job, in the order of its patterns. -/
def reports (job : ConftestJob) (s : Surroundings) : Work (List Report) :=
  Work.gather (job.check s) job.files

end ConftestJob

namespace KubevalJob

/-- The reports about a file. -/
def check (job : KubevalJob) (s : Surroundings) (file : String) : Work (List Report) := do
  let output ← s.start ⟨.kubeval, job.arguments file⟩
  (Work.ofOutcome (Lint.kubevalReports output file)).within (.checking .kubeval file)

/-- The reports about the files that match a pattern. -/
def checkAll (job : KubevalJob) (s : Surroundings) (pattern : String) : Work (List Report) := do
  let files ← s.filesMatching pattern
  Work.gather (job.check s) files

/-- The reports of the job, in the order of its patterns. -/
def reports (job : KubevalJob) (s : Surroundings) : Work (List Report) :=
  Work.gather (job.checkAll s) job.files

end KubevalJob
end LintLocator
