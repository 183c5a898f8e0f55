import LintLocator.Yaml.Classic.Text
import LintLocator.Yaml.Scalar.Block
import LintLocator.Yaml.Scalar.Quoted

/-!
# Scalars in the older form of YAML

The three ways to write a scalar are those of the current form.  What differs is which breaks fold,
where a tab may stand, that the text after a quoted scalar is left to whoever reads on, and that a
colon directly before an indicator is an error inside flow collections.
-/

namespace LintLocator
namespace Yaml
namespace Classic

/-! ## Gaps -/

/-- Blanks and line breaks since the last word of a scalar. -/
structure Gap where
  /-- The blanks before the first break, the last of them first. -/
  blanks : List Char
  /-- Whether a line has ended. -/
  broken : Bool
  /-- What the first break counts as; an escaped one counts as nothing. -/
  first : Option Char
  /-- What the further breaks count as, the last of them first. -/
  later : List Char
  deriving DecidableEq, Repr, Inhabited

namespace Gap

def none : Gap := ⟨[], false, .none, []⟩

/-- The gap that starts with an escaped line break. -/
def escaped : Gap := ⟨[], true, .none, []⟩

/-- The text that a gap stands for between two words. -/
def text (g : Gap) : List Char :=
  if !g.broken then g.blanks.reverse
  else
    match g.first with
    | some '\n' => if g.later.isEmpty then [' '] else g.later.reverse
    | some c => c :: g.later.reverse
    | .none => g.later.reverse

/-- A gap with one more blank, which counts only on the line of the last word. -/
def addBlank (g : Gap) (c : Char) : Gap :=
  if g.broken then g else { g with blanks := c :: g.blanks }

/-- A gap with one more break. -/
def addBreak (g : Gap) (c : Option Char) : Gap :=
  if g.broken then { g with later := c.toList ++ g.later }
  else ⟨[], true, c, []⟩

end Gap

/-- Reads a gap.  Where `indent` is given, a tab may not stand further out than it on any line but
the first. -/
def readGap (indent : Option Int) : (fuel : Nat) → Gap → Cursor → Option (Gap × Cursor)
  | 0, g, c => some (g, c)
  | fuel + 1, g, c =>
    match c.rest with
    | [] => some (g, c)
    | ch :: _ =>
      if isSpace ch then
        if g.broken && ch == '\t' && indent.any fun n => c.column < n then none
        else readGap indent fuel (g.addBlank ch) (c.skip 1)
      else if isBreak ch then
        let (b, d) := takeBreak c
        readGap indent fuel (g.addBreak b) d
      else some (g, c)

/-! ## Plain scalars -/

/-- What a colon inside a flow collection may not stand directly before. -/
def isColonTrap (c : Char) : Bool := isFlow c || c == '?'

/-- The characters up to the next blank, break or indicator that ends a plain scalar. -/
def plainWord? (inFlow : Bool) : List Char → Option (List Char)
  | [] => some []
  | c :: r =>
    if isGap c then some []
    else if inFlow && c == ':' && startsWith isColonTrap r then none
    else if (c == ':' && endsOrStartsWith isGap r) || (inFlow && isFlow c) then some []
    else (plainWord? inFlow r).map (c :: ·)

/-- Reads words and the gaps between them.  The text so far is given, and answered, with its last
character first; the answer also tells whether a line has ended behind the last word. -/
def readPlainWords (inFlow : Bool) (indent : Int) :
    (fuel : Nat) → (text : List Char) → Gap → Cursor → Option (List Char × Bool × Cursor)
  | 0, text, g, c => some (text, g.broken, c)
  | fuel + 1, text, g, c =>
    if atDocumentMark c || startsWith (· == '#') c.rest then some (text, g.broken, c)
    else
      match plainWord? inFlow c.rest with
      | none => none
      | some word =>
        let longer := if word.isEmpty then text else word.reverse ++ g.text.reverse ++ text
        let before := if word.isEmpty then g else Gap.none
        let d := c.skip word.length
        if !startsWith isGap d.rest then some (longer, before.broken, d)
        else
          match readGap (some indent) d.rest.length before d with
          | none => none
          | some (gap, e) =>
            if !inFlow && e.column < indent then some (longer, gap.broken, e)
            else readPlainWords inFlow indent fuel longer gap e

/-- Reads a plain scalar whose lines are indented by at least `indent`. -/
def readPlain (inFlow : Bool) (indent : Int) (c : Cursor) : Option (List Char × Bool × Cursor) :=
  (readPlainWords inFlow indent (c.rest.length + 1) [] Gap.none c).map fun p =>
    (p.1.reverse, p.2)

/-! ## Quoted scalars -/

/-- Reads the characters up to a blank, a break or the closing quote.  The text so far is given,
and answered, with its last character first; the answer also tells whether it stopped behind an
escaped line break. -/
def readQuotedWord (quote : Char) :
    (fuel : Nat) → (text : List Char) → Cursor → Option (List Char × Bool × Cursor)
  | 0, text, c => some (text, false, c)
  | fuel + 1, text, c =>
    match c.rest with
    | [] => some (text, false, c)
    | ch :: r =>
      if isGap ch then some (text, false, c)
      else if ch == quote then
        if quote == '\'' && startsWith (· == '\'') r then
          readQuotedWord quote fuel ('\'' :: text) (c.skip 2)
        else some (text, false, c)
      else if quote == '"' && ch == '\\' then
        if startsWith isBreak r then some (text, true, skipBreak (c.skip 1))
        else
          match readEscape (c.skip 1) with
          | some (char, d) => readQuotedWord quote fuel (char :: text) d
          | none => none
      else readQuotedWord quote fuel (ch :: text) (c.skip 1)

/-- Reads words and the gaps between them up to the closing quote and passes it. -/
def readQuotedWords (quote : Char) :
    (fuel : Nat) → (text : List Char) → Cursor → Option (List Char × Cursor)
  | 0, _, _ => none
  | fuel + 1, text, c =>
    if atDocumentMark c || c.atEnd then none
    else
      match readQuotedWord quote c.rest.length text c with
      | none => none
      | some (longer, escaped, d) =>
        if startsWith (· == quote) d.rest then some (longer, d.skip 1)
        else
          match readGap none d.rest.length (if escaped then Gap.escaped else Gap.none) d with
          | none => none
          | some (gap, e) => readQuotedWords quote fuel (gap.text.reverse ++ longer) e

/-- Reads a scalar between quotes. -/
def readQuoted (quote : Char) (c : Cursor) : Option (List Char × Cursor) :=
  (readQuotedWords quote (c.rest.length + 1) [] (c.skip 1)).map fun p => (p.1.reverse, p.2)

/-! ## Block scalars -/

/-- Passes empty lines and the indentation of the line behind them, where an indentation of 0 is
not known yet and takes in all spaces.  The answer holds the widest indentation met and the breaks,
the last of them first.  A tab may not stand in the indentation. -/
def readBlockBreaks (indent : Nat) :
    (fuel widest : Nat) → (breaks : List Char) → Cursor → Option (Nat × List Char × Cursor)
  | 0, widest, breaks, c => some (widest, breaks, c)
  | fuel + 1, widest, breaks, c =>
    let spaces := (c.rest.takeWhile (· == ' ')).length
    let d := c.skipBlanks (if indent = 0 then spaces else min spaces (indent - c.mark.col))
    let wider := max widest d.mark.col
    if startsWith (· == '\t') d.rest && (indent = 0 || d.mark.col < indent) then none
    else
      match takeBreak d with
      | (some b, e) => readBlockBreaks indent fuel wider (b :: breaks) e
      | (none, _) => some (wider, breaks, d)

/-- A block scalar part way through: its text with the last character first, the break behind its
last line, the further breaks with the last of them first, and whether the last line started with a
blank. -/
structure BlockText where
  text : List Char
  ending : Option Char
  breaks : List Char
  indented : Bool
  deriving DecidableEq, Repr, Inhabited

namespace BlockText

/-- The text with the breaks before the next line. -/
def join (folded : Bool) (t : BlockText) (nextIndented : Bool) : List Char :=
  let folds := folded && t.ending == some '\n' && !t.indented && !nextIndented
  let ending := if folds then (if t.breaks.isEmpty then [' '] else []) else t.ending.toList
  t.breaks ++ ending ++ t.text

/-- Reads the lines that start at the column `indent`. -/
def readLines (folded : Bool) (indent : Nat) :
    (fuel : Nat) → BlockText → Cursor → Option (BlockText × Cursor)
  | 0, t, c => some (t, c)
  | fuel + 1, t, c =>
    if c.mark.col != indent || c.atEnd then some (t, c)
    else
      let indented := startsWith isSpace c.rest
      let (line, d) := c.takeWhile fun ch => !isBreak ch
      let text := line.reverse ++ t.join folded indented
      let (ending, e) := takeBreak d
      match readBlockBreaks indent (e.rest.length + 1) 0 [] e with
      | none => none
      | some (_, breaks, f) => readLines folded indent fuel ⟨text, ending, breaks, indented⟩ f

/-- The whole text, in order. -/
def finish (chomping : Chomping) (t : BlockText) : List Char :=
  let ending := if chomping == .strip then [] else t.ending.toList
  let kept := if chomping == .keep then t.breaks.reverse else []
  t.text.reverse ++ ending ++ kept

end BlockText

/-- Reads a block scalar in a collection of the indentation `indent`. -/
def readBlock (folded : Bool) (indent : Int) (c : Cursor) : Option (List Char × Cursor) := do
  let (header, d) ← BlockHeader.read (c.skip 1)
  let e ← skipToNextLine d
  let given :=
    if header.increment = 0 then 0
    else if 0 ≤ indent then indent.toNat + header.increment
    else header.increment
  let (widest, breaks, f) ← readBlockBreaks given (e.rest.length + 1) 0 [] e
  let column := if given = 0 then max (max widest (indent + 1).toNat) 1 else given
  let (t, g) ← BlockText.readLines folded column (f.rest.length + 1) ⟨[], none, breaks, false⟩ f
  return (t.finish header.chomping, g)

end Classic
end Yaml
end LintLocator
