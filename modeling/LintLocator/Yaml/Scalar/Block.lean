import LintLocator.Yaml.Cursor

/-!
# Block scalars

A block scalar is announced on one line and stands on the lines below it that are indented far
enough.  A literal one keeps its line breaks, a folded one joins its lines as plain scalars do,
except around lines that are indented further.  The header may say how far the lines are indented;
if it does not, the first line that holds something decides.  It may also say what becomes of the
breaks at the end.

The scalar is located at its first line and not at its header, unless the text ends before one.
-/

namespace LintLocator
namespace Yaml

/-- What becomes of the line breaks at the end. -/
inductive Chomping where
  | strip
  | clip
  | keep
  deriving DecidableEq, Repr, Inhabited

/-- What the header of a block scalar says; an indentation of 0 stands for none. -/
structure BlockHeader where
  chomping : Chomping
  increment : Nat
  deriving DecidableEq, Repr, Inhabited

namespace BlockHeader

/-- The chomping that a character asks for. -/
def chomping? (s : List Char) : Option Chomping :=
  match s with
  | '+' :: _ => some .keep
  | '-' :: _ => some .strip
  | _ => none

/-- Reads the indentation digit, which may be missing but may not be 0. -/
def readIncrement (c : Cursor) : Option (Nat × Cursor) :=
  match c.rest with
  | ch :: _ =>
    if ch == '0' then none
    else if ch.isDigit then some (ch.toNat - '0'.toNat, c.skip 1)
    else some (0, c)
  | [] => some (0, c)

/-- Reads the header behind the indicator: a digit and a chomping in either order. -/
def read (c : Cursor) : Option (BlockHeader × Cursor) :=
  match chomping? c.rest with
  | some chomping => (readIncrement (c.skip 1)).map fun p => (⟨chomping, p.1⟩, p.2)
  | none =>
    match readIncrement c with
    | none => none
    | some (0, d) => some (⟨.clip, 0⟩, d)
    | some (increment, d) =>
      match chomping? d.rest with
      | some chomping => some (⟨chomping, increment⟩, d.skip 1)
      | none => some (⟨.clip, increment⟩, d)

end BlockHeader

/-- Passes empty lines and the indentation of the line behind them.  The answer starts with the
number of lines passed, which is added to `lines`. -/
def skipBlockIndent (indent : Nat) : (fuel lines : Nat) → Cursor → Nat × Cursor
  | 0, lines, c => (lines, c)
  | fuel + 1, lines, c =>
    let spaces := (c.rest.takeWhile (· == ' ')).length
    let d := c.skipBlanks (min spaces (indent - c.mark.col))
    if startsWith isBreak d.rest then skipBlockIndent indent fuel (lines + 1) d.skipBreak
    else (lines, d)

/-- Passes empty lines and all spaces of the line behind them.  The answer starts with the widest
indentation met and the number of lines passed. -/
def findBlockIndent : (fuel widest lines : Nat) → Cursor → Nat × Nat × Cursor
  | 0, widest, lines, c => (widest, lines, c)
  | fuel + 1, widest, lines, c =>
    let d := c.skipBlanksWhile (· == ' ')
    let wider := max widest d.mark.col
    if startsWith isBreak d.rest then findBlockIndent fuel wider (lines + 1) d.skipBreak
    else (wider, lines, d)

/-- A block scalar part way through: its text with the last character first, whether the last
line has ended, the number of empty lines behind it, and whether it started with a blank. -/
structure BlockText where
  text : List Char
  ended : Bool
  emptyLines : Nat
  indented : Bool
  deriving DecidableEq, Repr, Inhabited

namespace BlockText

/-- The text of a block scalar with the breaks before the next line. -/
def join (folded : Bool) (t : BlockText) (nextIndented : Bool) : List Char :=
  let empty := List.replicate t.emptyLines '\n'
  if folded && t.ended && !t.indented && !nextIndented then
    if t.emptyLines == 0 then ' ' :: t.text else empty ++ t.text
  else empty ++ (if t.ended then '\n' :: t.text else t.text)

/-- Reads the lines that start at the column `indent`. -/
def readLines (folded : Bool) (indent : Nat) :
    (fuel : Nat) → BlockText → Cursor → BlockText × Cursor
  | 0, t, c => (t, c)
  | fuel + 1, t, c =>
    if c.mark.col != indent || c.atEnd || (indent == 0 && atDocumentEnd c.rest) then (t, c)
    else
      let indented := startsWith isSpace c.rest
      let before := t.join folded indented
      let (line, d) := c.takeWhile fun ch => !isBreak ch
      let text := line.reverse ++ before
      if d.atEnd then (⟨text, false, 0, indented⟩, d)
      else
        let (lines, e) := skipBlockIndent indent d.rest.length 0 d.skipBreak
        readLines folded indent fuel ⟨text, true, lines, indented⟩ e

/-- The whole text, in order, where `cut` tells that the text ended inside the last line. -/
def finish (t : BlockText) (chomping : Chomping) (cut : Bool) : List Char :=
  let ending :=
    match chomping with
    | .strip => []
    | _ => (if t.ended then ['\n'] else []) ++ (if cut then ['\n'] else [])
  let kept := if chomping == .keep then List.replicate t.emptyLines '\n' else []
  t.text.reverse ++ ending ++ kept

end BlockText

/-- The text of a block scalar without lines, at the end of which the whole text ends.  `lines` are
the empty lines below the header's own. -/
def emptyBlock (chomping : Chomping) (headerEnded : Bool) (lines : Nat) : List Char :=
  if !headerEnded then []
  else
    match chomping with
    | .strip => []
    | .clip => ['\n']
    | .keep => List.replicate (max lines 1) '\n'

/-- Reads the lines below a header whose own line ends at `c`.  The answer starts with the place of
the scalar.  `indent` is the indentation of the collection that the scalar stands in. -/
def readBlockBody (folded : Bool) (indent : Int) (header : BlockHeader) (start : Mark)
    (c : Cursor) : Option (Mark × List Char × Cursor) :=
  let d := c.skipBreak
  if startsWith (· == '\t') d.rest then none
  else
    let fuel := d.rest.length + 1
    let (column, lines, e) :=
      if header.increment = 0 then
        let (widest, lines, e) := findBlockIndent fuel 0 0 d
        let least := max widest (indent + 1).toNat
        (if 0 < indent then max least 1 else least, lines, e)
      else
        let column := if 0 ≤ indent then indent.toNat + header.increment else header.increment
        let (lines, e) := skipBlockIndent column fuel 0 d
        (column, lines, e)
    if e.atEnd then
      some (start, emptyBlock header.chomping (e.mark.line != start.line) lines, e)
    else if e.mark.col < column && indent < e.column then none
    else
      let (t, f) := BlockText.readLines folded column fuel ⟨[], false, lines, false⟩ e
      let cut := f.atEnd && max column 1 ≤ f.mark.col
      some (e.mark, t.finish header.chomping cut, f)

/-- Reads a block scalar.  The answer starts with its place. -/
def readBlock (folded : Bool) (indent : Int) (c : Cursor) :
    Option (Mark × List Char × Cursor) := do
  let (header, d) ← BlockHeader.read (c.skip 1)
  let e ← d.skipToLineEnd
  readBlockBody folded indent header c.mark e

end Yaml
end LintLocator
