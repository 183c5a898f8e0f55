import LintLocator.Position
import LintLocator.Text.Blank

/-!
# The dash before an item

A block sequence starts at the `-` of its first item.  What is known of that item is where its
content starts, and between the two there may be blanks, an anchor, a tag, a comment and the ends
of lines.  So the dash is searched for backwards from the content: on its line, and above it as long
as the lines are blank.  Where the search fails, the dash is taken to stand two columns before the
item, which is where it is usually written.
-/

namespace LintLocator
namespace Document

/-- The place of the last dash that is followed by a blank or by nothing. -/
def lastDash? : List Char → Option Nat
  | [] => none
  | c :: r =>
    match lastDash? r with
    | some i => some (i + 1)
    | none => if c == '-' && (r.head?.all Text.isBlank) then some 0 else none

/-- Searches the line with the number `line`, of which only the first `limit` characters count,
and blank lines above it. -/
def dashUpTo (lines : List (List Char)) : (line : Nat) → (limit : Option Nat) → Option Position
  | 0, _ => none
  | n + 1, limit =>
    match lines[n]? with
    | none => none
    | some whole =>
      let searched := match limit with
        | some k => whole.take k
        | none => whole
      match lastDash? searched with
      | some i => some ⟨n + 1, i + 1⟩
      | none => if searched.all Text.isBlank then dashUpTo lines n none else none

/-- Where the dash is taken to stand if it cannot be found. -/
def usualDash (item : Position) : Position := ⟨item.line, max (item.column - 2) 1⟩

/-- The position of the dash that introduces an item. -/
def dashBefore (lines : List (List Char)) (item : Position) : Position :=
  (dashUpTo lines item.line (some (item.column - 1))).getD (usualDash item)

end Document
end LintLocator
