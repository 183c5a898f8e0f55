import LintLocator.Lint.Checking
import LintLocator.Run.Reporting
import LintLocator.Settings.Load

/-!
# A run

A run loads its settings and does the jobs in them, those for conftest before those for kubeval.
The reports of a job are printed before the next job begins.  So when a run fails in the middle of
a job, everything about the jobs before it has been printed already.

The messages of kubeval always have the same delimiter; that of conftest's is whatever the policy
puts there, and so it is an option.
-/

namespace LintLocator
namespace RunOptions

/-- Does a job for conftest, and tells how many lines it has printed. -/
def doConftestJob (o : RunOptions) (s : Surroundings) (job : ConftestJob) : Work Nat := do
  let reports ← job.reports s
  Work.total (o.printReport s o.delimiter) reports

/-- Does a job for kubeval, and tells how many lines it has printed. -/
def doKubevalJob (o : RunOptions) (s : Surroundings) (job : KubevalJob) : Work Nat := do
  let reports ← job.reports s
  Work.total (o.printReport s defaultDelimiter) reports

/-- Does all jobs of the settings, and tells how many lines have been printed. -/
def run (o : RunOptions) (s : Surroundings) : Work Nat := do
  let settings ← Work.ofExcept (Settings.load s.files (s.pathOf o.settingsFile))
  let fromConftest ← Work.total (o.doConftestJob s) settings.conftest
  let fromKubeval ← Work.total (o.doKubevalJob s) settings.kubeval
  return fromConftest + fromKubeval

end RunOptions
end LintLocator
