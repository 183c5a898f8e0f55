import LintLocator.Yaml.Cursor

/-!
# The gaps between the words of a scalar

A scalar may go on over several lines, and its line breaks are not content: one break stands for a
space, several stand for one break less.  What stands for a gap is known only when the next word
comes, and at the end of a scalar it stands for nothing, so a gap is collected first and turned
into text later.
-/

namespace LintLocator
namespace Yaml

/-- Blanks and line breaks since the last word of a scalar. -/
structure Gap where
  /-- The blanks before the first break, the last of them first. -/
  blanks : List Char
  /-- Whether a line has ended in the gap. -/
  broken : Bool
  /-- Whether the first line ended by itself and not by an escape. -/
  folds : Bool
  /-- The number of further lines that ended. -/
  emptyLines : Nat
  deriving DecidableEq, Repr, Inhabited

namespace Gap

def none : Gap := ⟨[], false, false, 0⟩

/-- The gap that starts with an escaped line break. -/
def escaped : Gap := ⟨[], true, false, 0⟩

/-- The text that a gap stands for between two words. -/
def text (g : Gap) : List Char :=
  if g.broken then
    if g.folds && g.emptyLines == 0 then [' '] else List.replicate g.emptyLines '\n'
  else g.blanks.reverse

/-- A gap with one more blank, which counts only on the line of the last word. -/
def addBlank (g : Gap) (c : Char) : Gap :=
  if g.broken then g else { g with blanks := c :: g.blanks }

/-- A gap with the break that ends the line of the last word. -/
def breakLine (g : Gap) : Gap := { g with blanks := [], broken := true, folds := true }

/-- A gap with the break that ends a line without words. -/
def addEmptyLine (g : Gap) : Gap := { g with emptyLines := g.emptyLines + 1 }

@[simp] theorem text_none : none.text = [] := rfl

@[simp] theorem text_escaped : escaped.text = [] := rfl

end Gap
end Yaml
end LintLocator
