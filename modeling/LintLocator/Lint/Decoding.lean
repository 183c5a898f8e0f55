import LintLocator.Failure
import LintLocator.Lint.Report

/-!
# From a linter's output to reports
-/

namespace LintLocator
namespace Lint

/-- The failure to understand the output of a linter. -/
def undecodable (linter : Linter) : Failure := ⟨[.decoding linter], .malformed .json⟩

/-- The reports in an output of conftest. -/
def conftestReports (output : List UInt8) (failOnWarn : Bool) : Except Failure (List Report) :=
  match ConftestResult.readAll? output with
  | some results => .ok (results.map (ConftestResult.report failOnWarn))
  | none => .error (undecodable .conftest)

/-- The reports in an output of kubeval about a file. -/
def kubevalReports (output : List UInt8) (file : String) : Outcome Failure (List Report) :=
  match KubevalResult.readAll? output with
  | some results => ⟨.ok (results.map (KubevalResult.report file)),
      results.map (KubevalResult.note file)⟩
  | none => .failed (undecodable .kubeval)

end Lint
end LintLocator
