import LintLocator.Lint.Job

/-!
# What settings look like

Settings can be written in more than one format.  What they consist of is said once, here: the names
of the fields and what each of them holds.  A format says how fields, lists, texts and flags are
written in it.

Every field may be left out, and a field with an unknown name means nothing.
-/

namespace LintLocator

/-- How the parts of settings are written in the values `ν` of a format.  Reading them may fail,
and may have other effects, in `m`. -/
structure Encoding (m : Type → Type) (ν : Type) where
  /-- The fields of a record, given the names of all fields in their order. -/
  fields : List String → ν → m (String → Option ν)
  list : ν → m (List ν)
  text : ν → m String
  flag : ν → m Bool
  /-- A text that may be absent although its field is there. -/
  optionalText : ν → m (Option String)

namespace Encoding

variable {m : Type → Type} {ν : Type} [Monad m]

/-- Reads a field, which has a default value when it is left out. -/
def field {α : Type} (read : ν → m α) (default : α) : Option ν → m α
  | none => pure default
  | some v => read v

/-- Reads a list of texts. -/
def texts (e : Encoding m ν) (v : ν) : m (List String) := do
  (← e.list v).mapM e.text

def conftestJob (e : Encoding m ν) (v : ν) : m ConftestJob := do
  let get ← e.fields ["files", "policy", "input", "combine", "failOnWarn", "data",
    "allNamespaces", "namespaces"] v
  let files ← field e.texts [] (get "files")
  let policy ← field e.text "" (get "policy")
  let input ← field e.optionalText none (get "input")
  let combine ← field e.flag false (get "combine")
  let failOnWarn ← field e.flag false (get "failOnWarn")
  let data ← field e.texts [] (get "data")
  let allNamespaces ← field e.flag false (get "allNamespaces")
  let namespaces ← field e.texts [] (get "namespaces")
  return { files, policy, input, combine, failOnWarn, data, allNamespaces, namespaces }

def kubevalJob (e : Encoding m ν) (v : ν) : m KubevalJob := do
  let get ← e.fields ["files", "strict", "schemaLocations", "ignoreMissingSchemas",
    "ignoredFilenamePatterns", "skipKinds"] v
  let files ← field e.texts [] (get "files")
  let strict ← field e.flag false (get "strict")
  let schemaLocations ← field e.texts [] (get "schemaLocations")
  let ignoreMissingSchemas ← field e.flag false (get "ignoreMissingSchemas")
  let ignoredFilenamePatterns ← field e.texts [] (get "ignoredFilenamePatterns")
  let skipKinds ← field e.texts [] (get "skipKinds")
  return {
    files, strict, schemaLocations, ignoreMissingSchemas, ignoredFilenamePatterns, skipKinds }

/-- Reads settings. -/
def settings (e : Encoding m ν) (v : ν) : m Settings := do
  let get ← e.fields ["conftest", "kubeval"] v
  let conftest ← field (fun w => do (← e.list w).mapM e.conftestJob) [] (get "conftest")
  let kubeval ← field (fun w => do (← e.list w).mapM e.kubevalJob) [] (get "kubeval")
  return { conftest, kubeval }

end Encoding
end LintLocator
