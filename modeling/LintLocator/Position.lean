/-!
# Positions in a text

A position is what an editor shows in its status line: lines and columns count from 1, and a
column counts characters, not bytes.
-/

namespace LintLocator

/-- A line and a column, both counted from 1. -/
structure Position where
  line : Nat
  column : Nat
  deriving DecidableEq, Repr, Inhabited

namespace Position

/-- The order in which positions are met when the text is read. -/
def before (p q : Position) : Bool :=
  p.line < q.line || (p.line == q.line && p.column < q.column)

/-- The usual way to write a position, line first. -/
def render (p : Position) : String := toString p.line ++ ":" ++ toString p.column

end Position
end LintLocator
