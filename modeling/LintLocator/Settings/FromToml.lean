import LintLocator.Settings.Encoding
import LintLocator.Toml.Reader

/-!
# Settings in TOML

A record is a table, or an array whose items are the values of the fields in their order.
-/

namespace LintLocator
namespace Toml
namespace Value

/-- The field of a record, for records of both kinds. -/
def fields? (names : List String) : Value → Option (String → Option Value)
  | .table _ entries => some fun name => entries.lookup name
  | .array items => some fun name => (names.zip items).lookup name
  | _ => none

/-- The items of a list, which is an array or stands under headers in double brackets. -/
def items? : Value → Option (List Value)
  | .array items => some items
  | .tables elements => some elements.reverse
  | _ => none

def text? : Value → Option String
  | .text s => some s
  | _ => none

def flag? : Value → Option Bool
  | .boolean b => some b
  | _ => none

/-- How settings are written in TOML. -/
def encoding : Encoding Option Value where
  fields := fields?
  list := items?
  text := text?
  flag := flag?
  optionalText v := v.text?.map some

end Value
end Toml

namespace Settings

/-- Reads settings in TOML. -/
def ofToml? (source : String) : Option Settings :=
  (Toml.read? source.toList).bind Toml.Value.encoding.settings

end Settings
end LintLocator
