import LintLocator.Position
import LintLocator.Text.Split

/-!
# Diagnostics and how they are written

How a diagnostic is written is up to whoever reads it, so it is given by a template: `%f`, `%l`,
`%c` and `%m` are slots for the file, the line, the column and the message, and everything else
stands for itself.  The template is cut into pieces before anything is filled in.  A message that
looks like a template is therefore never taken for one.

A percent sign that does not begin a slot stands for itself *alone*: in `%%m` the first one is
text and the second one begins a slot.
-/

namespace LintLocator

/-- A message of a linter and the place it is about. -/
structure Diagnostic where
  file : String
  position : Position
  message : String
  deriving DecidableEq, Repr, Inhabited

namespace Diagnostic

/-- The parts of a diagnostic that a template can ask for. -/
inductive Slot where
  | file
  | line
  | column
  | message
  deriving DecidableEq, Repr, Inhabited

namespace Slot

/-- The letter behind the percent sign. -/
def letter : Slot → Char
  | file => 'f'
  | line => 'l'
  | column => 'c'
  | message => 'm'

/-- The slot with a letter. -/
def ofLetter? : Char → Option Slot
  | 'f' => some file
  | 'l' => some line
  | 'c' => some column
  | 'm' => some message
  | _ => none

@[simp] theorem ofLetter?_letter (s : Slot) : ofLetter? s.letter = some s := by cases s <;> rfl

end Slot

/-- What a template consists of. -/
inductive Piece where
  | literal (c : Char)
  | slot (s : Slot)
  deriving DecidableEq, Repr, Inhabited

namespace Piece

/-- The piece as it is written in a template. -/
def source : Piece → List Char
  | literal c => [c]
  | slot s => ['%', s.letter]

/-- What the piece becomes for a diagnostic. -/
def fill (d : Diagnostic) : Piece → List Char
  | literal c => [c]
  | slot .file => d.file.toList
  | slot .line => (toString d.position.line).toList
  | slot .column => (toString d.position.column).toList
  | slot .message => d.message.toList

end Piece

/-- The slot that two characters of a template begin. -/
def slotAt? (c next : Char) : Option Slot := if c = '%' then Slot.ofLetter? next else none

theorem slotAt?_eq (c next : Char) :
    slotAt? c next = if c = '%' then Slot.ofLetter? next else none := rfl

/-- The pieces of a template. -/
def pieces : List Char → List Piece
  | [] => []
  | [c] => [.literal c]
  | c :: next :: r =>
    match slotAt? c next with
    | some s => .slot s :: pieces r
    | none => .literal c :: pieces (next :: r)

@[simp] theorem pieces_nil : pieces [] = [] := rfl

theorem pieces_cons_of_slot {c next : Char} {s : Slot} (h : slotAt? c next = some s)
    (r : List Char) : pieces (c :: next :: r) = .slot s :: pieces r := by
  rw [pieces, h]

theorem pieces_cons_of_none {c next : Char} (h : slotAt? c next = none) (r : List Char) :
    pieces (c :: next :: r) = .literal c :: pieces (next :: r) := by
  rw [pieces, h]

/-- The template used when none is given. -/
def defaultTemplate : String := "%f:%l:%c: %m"

/-- The diagnostic as a template wants it. -/
def format (d : Diagnostic) (template : String) : String :=
  String.ofList ((pieces template.toList).flatMap (Piece.fill d))

end Diagnostic
end LintLocator
