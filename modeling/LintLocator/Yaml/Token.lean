import LintLocator.Yaml.Cursor

/-!
# Tokens

The layout of a YAML text is made of indentation, indicators and quotes.  Its tokens say the same
without layout: where collections start and end, which of their parts come next, and the scalars
with their texts decoded.
-/

namespace LintLocator
namespace Yaml

/-- How a scalar is written. -/
inductive Style where
  | plain
  | singleQuoted
  | doubleQuoted
  | literal
  | folded
  deriving DecidableEq, Repr, Inhabited

/-- What a token says. -/
inductive TokenKind where
  | streamEnd
  | versionDirective (major minor : Nat)
  /-- A handle and the text that it stands for; directives of unknown names are empty ones. -/
  | tagDirective (handle replacement : List Char)
  | documentStart
  | documentEnd
  | blockSequenceStart
  | blockMappingStart
  | blockEnd
  | flowSequenceStart
  | flowSequenceEnd
  | flowMappingStart
  | flowMappingEnd
  | blockEntry
  | flowEntry
  | key
  | value
  | alias (name : List Char)
  | anchor (name : List Char)
  | tag (handle suffix : List Char)
  | scalar (style : Style) (text : List Char)
  deriving DecidableEq, Repr, Inhabited

/-- A token and where it stands. -/
structure Token where
  kind : TokenKind
  mark : Mark
  deriving DecidableEq, Repr, Inhabited

/-- The tokens of a text in order.  They are cut off where the text is not YAML. -/
structure TokenStream where
  tokens : List Token
  failed : Bool
  deriving DecidableEq, Repr, Inhabited

end Yaml
end LintLocator
