import LintLocator.Failure
import LintLocator.FileTree.Reading
import LintLocator.Settings.FromToml
import LintLocator.Settings.FromYaml

/-!
# Loading settings

The format of a settings file is told by its name: the extension `toml` stands for TOML, and
everything else is YAML.  A name that begins with its only dot has no extension.
-/

namespace LintLocator
namespace Settings

/-- The formats of settings. -/
inductive Dialect where
  | yaml
  | toml
  deriving DecidableEq, Repr, Inhabited

namespace Dialect

/-- The format as failures speak of it. -/
def format : Dialect → Format
  | yaml => .yaml
  | toml => .toml

/-- Reads settings in a format. -/
def read? : Dialect → String → Option Settings
  | yaml, source => ofYaml? source
  | toml, source => ofToml? source

end Dialect

/-- The name of the file that a path leads to: its last part that leads anywhere.  A path that ends
in `..` leads to no name. -/
def fileName? (path : String) : Option String :=
  match (FileTree.pathParts path).reverse.dropWhile fun p => p == "" || p == "." with
  | [] => none
  | last :: _ => if last == ".." then none else some last

/-- What stands behind the last dot of a name, if something stands before it. -/
def extension? (name : String) : Option String :=
  match Text.splitOn ['.'] name.toList with
  | [] => none
  | first :: more =>
    match more.getLast? with
    | none => none
    | some last => if first.isEmpty && more.length == 1 then none else some (String.ofList last)

/-- The format of the settings at a path. -/
def dialectOf (path : String) : Dialect :=
  if (fileName? path).bind extension? == some "toml" then .toml else .yaml

/-- Reads settings in a format. -/
def parse (dialect : Dialect) (source : String) : Except Failure Settings :=
  match dialect.read? source with
  | some settings => .ok settings
  | none => .error (.because (.malformed dialect.format))

/-- Loads the settings at a path. -/
def load (files : FileTree) (path : String) : Except Failure Settings :=
  match files.read path with
  | .error e => .error ⟨[.readingSettings path], .unreadable e⟩
  | .ok source =>
    match parse (dialectOf path) source with
    | .ok settings => .ok settings
    | .error f => .error (f.within (.parsingSettings path))

end Settings
end LintLocator
