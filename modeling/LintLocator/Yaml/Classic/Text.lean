import LintLocator.Yaml.Cursor

/-!
# Characters and lines in the older form of YAML

Documents are read in the current form of YAML, settings in the older one, which is stricter in
most places and has its own idea of a line: a NEL, a line separator and a paragraph separator end
lines too.  The last two are content even where a line break is not, so they are kept as they are
while all other breaks count as line feeds.

Characters that cannot be printed may not stand in a text at all, not even in comments.
-/

namespace LintLocator
namespace Yaml
namespace Classic

def isBreak (c : Char) : Bool :=
  c == '\n' || c == '\r' || c == '\u0085' || c == '\u2028' || c == '\u2029'

/-- The characters that separate tokens. -/
def isGap (c : Char) : Bool := isSpace c || isBreak c

/-- The characters that may stand in a text. -/
def isPrintable (c : Char) : Bool :=
  let n := c.toNat
  n == 0x09 || n == 0x0A || n == 0x0D || (0x20 ≤ n && n ≤ 0x7E) || n == 0x85 ||
    (0xA0 ≤ n && n ≤ 0xD7FF) || (0xE000 ≤ n && n ≤ 0xFFFD) || 0x10000 ≤ n

/-- The place behind a line break of `n` characters. -/
def nextLine (c : Cursor) (n : Nat) : Cursor :=
  ⟨c.rest.drop n, ⟨c.mark.index + n, c.mark.line + 1, 0⟩, true⟩

/-- Passes a line break, if one comes next, and tells what it counts as. -/
def takeBreak (c : Cursor) : Option Char × Cursor :=
  match c.rest with
  | '\r' :: '\n' :: _ => (some '\n', nextLine c 2)
  | '\u2028' :: _ => (some '\u2028', nextLine c 1)
  | '\u2029' :: _ => (some '\u2029', nextLine c 1)
  | ch :: _ => if isBreak ch then (some '\n', nextLine c 1) else (none, c)
  | [] => (none, c)

def skipBreak (c : Cursor) : Cursor := (takeBreak c).2

/-- Passes all that is left of the line. -/
def skipLine (c : Cursor) : Cursor := (c.takeWhile fun ch => !isBreak ch).2

/-- Passes blanks. -/
def skipBlanks (c : Cursor) : Cursor := c.skipBlanksWhile isSpace

/-- Passes blanks and a comment, behind which the line has to end, and passes its end. -/
def skipToNextLine (c : Cursor) : Option Cursor :=
  let d := skipBlanks c
  let e := if startsWith (· == '#') d.rest then skipLine d else d
  if endsOrStartsWith isBreak e.rest then some (skipBreak e) else none

/-- Whether the text goes on, at the start of a line, with a mark between documents. -/
def atDocumentMark (c : Cursor) : Bool :=
  c.mark.col == 0 &&
    match c.rest with
    | '-' :: '-' :: '-' :: r => endsOrStartsWith isGap r
    | '.' :: '.' :: '.' :: r => endsOrStartsWith isGap r
    | _ => false

end Classic
end Yaml
end LintLocator
