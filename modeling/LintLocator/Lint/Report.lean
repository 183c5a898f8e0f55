import LintLocator.Json.Value
import LintLocator.Log

/-!
# What linters report

A linter writes a JSON array with one record for each thing it has looked at.  An output that is
blank says that there is nothing to report.  Records may hold more than is read here.

* conftest names the file in each record and tells failures from warnings.
* kubeval has one record for each resource in the one file it was started for; the name of the
  file in a record only serves the log, because it need not be the path that kubeval was given.
-/

namespace LintLocator

/-- The messages of a linter about a file. -/
structure Report where
  filename : String
  messages : List String
  deriving DecidableEq, Repr, Inhabited

namespace Report

/-- Whether an output holds nothing but ASCII blanks. -/
def isBlankOutput (output : List UInt8) : Bool :=
  output.all fun b => b == 0x20 || b == 0x09 || b == 0x0A || b == 0x0C || b == 0x0D

/-- Reads the records of an output. -/
def records? {α : Type} (read : Json.Value → Option α) (output : List UInt8) : Option (List α) :=
  if isBlankOutput output then some []
  else
    match Json.Value.read? output with
    | some (.array items) => items.mapM read
    | _ => none

end Report

/-- What conftest found in a file. -/
structure ConftestResult where
  filename : String
  warnings : List String
  failures : List String
  deriving DecidableEq, Repr, Inhabited

namespace ConftestResult

/-- Reads the record of a finding, which is all about its message. -/
def message? (v : Json.Value) : Option String :=
  match v.fields? ["msg"] with
  | some [some msg] => msg.text?
  | _ => none

def ofJson? (v : Json.Value) : Option ConftestResult :=
  match v.fields? ["filename", "warnings", "failures"] with
  | some [some filename, warnings, failures] => do
    return {
      filename := ← filename.text?
      warnings := ← Json.Value.listField? message? warnings
      failures := ← Json.Value.listField? message? failures }
  | _ => none

def readAll? (output : List UInt8) : Option (List ConftestResult) := Report.records? ofJson? output

/-- What is to be reported: failures always, and behind them the warnings if they count. -/
def report (failOnWarn : Bool) (r : ConftestResult) : Report :=
  ⟨r.filename, r.failures ++ if failOnWarn then r.warnings else []⟩

end ConftestResult

/-- What kubeval found in a resource. -/
structure KubevalResult where
  filename : String
  kind : String
  status : String
  errors : List String
  deriving DecidableEq, Repr, Inhabited

namespace KubevalResult

def ofJson? (v : Json.Value) : Option KubevalResult :=
  match v.fields? ["filename", "kind", "status", "errors"] with
  | some [filename, kind, status, errors] => do
    return {
      filename := ← Json.Value.textField? filename
      kind := ← Json.Value.textField? kind
      status := ← Json.Value.textField? status
      errors := ← Json.Value.listField? Json.Value.text? errors }
  | _ => none

def readAll? (output : List UInt8) : Option (List KubevalResult) := Report.records? ofJson? output

/-- What is to be reported about the file that kubeval was started for. -/
def report (file : String) (r : KubevalResult) : Report := ⟨file, r.errors⟩

/-- What the log says about the resource. -/
def note (file : String) (r : KubevalResult) : LogEntry :=
  .debug ("kubeval " ++ file ++ " (" ++ r.filename ++ "): " ++ r.kind ++ " " ++ r.status)

end KubevalResult
end LintLocator
