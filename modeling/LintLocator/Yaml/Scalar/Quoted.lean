import LintLocator.Yaml.Scalar.Gap

/-!
# Quoted scalars

Between single quotes only the quote itself is special, and it is written twice.  Between double
quotes a backslash starts an escape, which may be an escaped line break: then the next line goes on
where this one stopped.

Only some things may follow the closing quote, so that text after it is not lost by accident.
-/

namespace LintLocator
namespace Yaml

/-! ## Escapes -/

/-- The character for an escape that is one letter. -/
def letterEscape? (c : Char) : Option Char :=
  match c with
  | '0' => some '\x00'
  | 'a' => some '\x07'
  | 'b' => some '\x08'
  | 't' => some '\t'
  | '\t' => some '\t'
  | 'n' => some '\n'
  | 'v' => some '\x0b'
  | 'f' => some '\x0c'
  | 'r' => some '\r'
  | 'e' => some '\x1b'
  | ' ' => some ' '
  | '"' => some '"'
  | '/' => some '/'
  | '\\' => some '\\'
  | 'N' => some '\u0085'
  | '_' => some '\u00a0'
  | 'L' => some '\u2028'
  | 'P' => some '\u2029'
  | _ => none

/-- The number of digits behind a letter that announces the code of a character. -/
def codeEscape? (c : Char) : Option Nat :=
  match c with
  | 'x' => some 2
  | 'u' => some 4
  | 'U' => some 8
  | _ => none

/-- Reads an escape behind its backslash.  A code has to be that of a character. -/
def readEscape (c : Cursor) : Option (Char × Cursor) :=
  match c.rest with
  | [] => none
  | letter :: r =>
    match letterEscape? letter, codeEscape? letter with
    | some char, _ => some (char, c.skip 1)
    | none, some n =>
      if r.length < n then none
      else
        match (hexValue? 0 (r.take n)).bind charOfCode? with
        | some char => some (char, c.skip (n + 1))
        | none => none
    | none, none => none

/-! ## Words and gaps -/

/-- Reads the characters up to a blank, a break or the closing quote.  The text so far is given,
and answered, with its last character first; the answer also tells whether it stopped behind an
escaped line break. -/
def readQuotedWord (quote : Char) :
    (fuel : Nat) → (text : List Char) → Cursor → Option (List Char × Bool × Cursor)
  | 0, text, c => some (text, false, c)
  | fuel + 1, text, c =>
    match c.rest with
    | [] => some (text, false, c)
    | ch :: r =>
      if isGap ch then some (text, false, c)
      else if ch == quote then
        if quote == '\'' && startsWith (· == '\'') r then
          readQuotedWord quote fuel ('\'' :: text) (c.skip 2)
        else some (text, false, c)
      else if quote == '"' && ch == '\\' then
        if startsWith isBreak r then some (text, true, (c.skip 1).skipBreak)
        else
          match readEscape (c.skip 1) with
          | some (char, d) => readQuotedWord quote fuel (char :: text) d
          | none => none
      else readQuotedWord quote fuel (ch :: text) (c.skip 1)

/-- Reads the gap behind a word.  A tab may not stand inside the indentation. -/
def readQuotedGap (indent : Int) : (fuel : Nat) → Gap → Cursor → Option (Gap × Cursor)
  | 0, g, c => some (g, c)
  | fuel + 1, g, c =>
    match c.rest with
    | [] => some (g, c)
    | ch :: _ =>
      if isSpace ch then
        if g.broken && ch == '\t' && c.column < indent then none
        else readQuotedGap indent fuel (g.addBlank ch) (c.skipBlanks 1)
      else if isBreak ch then
        readQuotedGap indent fuel (if g.broken then g.addEmptyLine else g.breakLine) c.skipBreak
      else some (g, c)

/-- Reads words and the gaps between them up to the closing quote and passes it. -/
def readQuotedWords (quote : Char) (indent : Int) :
    (fuel : Nat) → (text : List Char) → Cursor → Option (List Char × Cursor)
  | 0, _, _ => none
  | fuel + 1, text, c =>
    if (c.mark.col == 0 && atDocumentMark c.rest) || c.atEnd || c.column < indent then none
    else
      match readQuotedWord quote c.rest.length text c with
      | none => none
      | some (longer, escaped, d) =>
        if startsWith (· == quote) d.rest then some (longer, d.skip 1)
        else
          let before := if escaped then Gap.escaped else Gap.none
          match readQuotedGap indent d.rest.length before d with
          | none => none
          | some (gap, e) => readQuotedWords quote indent fuel (gap.text.reverse ++ longer) e

/-- Whether what follows a quoted scalar may follow it.  Outside of flow collections a key stands
on one line. -/
def mayFollowQuoted (inFlow oneLine : Bool) (s : List Char) : Bool :=
  endsOrStartsWith isBreak s ||
    startsWith (fun c => (inFlow && (c == ',' || c == '}' || c == ']')) ||
      (c == ':' && (inFlow || oneLine))) s

/-- Reads a scalar between quotes whose lines are indented by at least `indent`, and the blanks
behind it. -/
def readQuoted (quote : Char) (inFlow : Bool) (indent : Int) (c : Cursor) :
    Option (List Char × Cursor) := do
  let (text, d) ← readQuotedWords quote indent (c.rest.length + 1) [] (c.skip 1)
  let (_, e) ← d.skipMargin true
  if mayFollowQuoted inFlow (c.mark.line == e.mark.line) e.rest then some (text.reverse, e)
  else none

end Yaml
end LintLocator
