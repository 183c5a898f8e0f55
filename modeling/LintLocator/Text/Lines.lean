import LintLocator.Text.Split

/-!
# The lines of a text

Every line feed ends a line, and a carriage return directly before it is not part of the line.
What follows the last line feed is a line only if it is not empty.
-/

namespace LintLocator
namespace Text

/-- The line without the carriage return at its end. -/
def dropReturn (line : List Char) : List Char :=
  if line.getLast? == some '\r' then line.dropLast else line

/-- The lines between pieces that line feeds separate. -/
def linesOfPieces : List (List Char) → List (List Char)
  | [] => []
  | [last] => if last.isEmpty then [] else [last]
  | line :: next :: r => dropReturn line :: linesOfPieces (next :: r)

/-- The lines of a text. -/
def lines (s : List Char) : List (List Char) := linesOfPieces (splitOn ['\n'] s)

@[simp] theorem lines_nil : lines [] = [] := rfl

end Text
end LintLocator
