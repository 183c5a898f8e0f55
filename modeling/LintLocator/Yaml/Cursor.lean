/-!
# A place in a text

Everything that reads YAML moves a `Cursor` through the text.  It holds what is still to be read
and the `Mark` of the place: how many characters have been passed, the line and the column.

A cursor also knows whether only blanks have been passed on its line.  Indentation is made of
exactly those blanks, and where a tab may stand depends on it, so it is kept instead of being
searched for backwards.

A line ends at a line feed, at a carriage return, or at both in this order; no other character
ends a line.  A NUL ends the text.
-/

namespace LintLocator
namespace Yaml

/-- A place in a text.  Lines count from 1, columns and characters from 0. -/
structure Mark where
  index : Nat
  line : Nat
  col : Nat
  deriving DecidableEq, Repr, Inhabited

/-! ## Classes of characters -/

def isSpace (c : Char) : Bool := c == ' ' || c == '\t'

def isBreak (c : Char) : Bool := c == '\n' || c == '\r'

/-- The characters that separate tokens. -/
def isGap (c : Char) : Bool := isSpace c || isBreak c

/-- The characters that delimit flow collections and their entries. -/
def isFlow (c : Char) : Bool := c == ',' || c == '[' || c == ']' || c == '{' || c == '}'

/-- The characters of handles and directive names. -/
def isWord (c : Char) : Bool := c.isAlphanum || c == '_' || c == '-'

def hexDigit? (c : Char) : Option Nat :=
  if c.isDigit then some (c.toNat - '0'.toNat)
  else if 'a' ≤ c ∧ c ≤ 'f' then some (c.toNat - 'a'.toNat + 10)
  else if 'A' ≤ c ∧ c ≤ 'F' then some (c.toNat - 'A'.toNat + 10)
  else none

/-- The value of a run of hexadecimal digits that follows digits of value `acc`. -/
def hexValue? (acc : Nat) : List Char → Option Nat
  | [] => some acc
  | c :: r => (hexDigit? c).bind fun d => hexValue? (acc * 16 + d) r

/-- The character with a code, if it is the code of a character. -/
def charOfCode? (n : Nat) : Option Char :=
  if n < 0xD800 || (0xDFFF < n && n < 0x110000) then some (Char.ofNat n) else none

/-- Whether the text goes on with a character of a class. -/
def startsWith (p : Char → Bool) : List Char → Bool
  | [] => false
  | c :: _ => p c

/-- Whether the text is over or goes on with a character of a class. -/
def endsOrStartsWith (p : Char → Bool) : List Char → Bool
  | [] => true
  | c :: _ => p c

/-- Whether the text goes on with a mark that starts or ends a document. -/
def atDocumentMark : List Char → Bool
  | '-' :: '-' :: '-' :: r => endsOrStartsWith isGap r
  | '.' :: '.' :: '.' :: r => endsOrStartsWith isGap r
  | _ => false

/-- Whether the text goes on with the mark that ends a document. -/
def atDocumentEnd : List Char → Bool
  | '.' :: '.' :: '.' :: r => endsOrStartsWith isGap r
  | _ => false

/-! ## Cursors -/

/-- What is still to be read, where that is, and whether only blanks precede it on its line. -/
structure Cursor where
  rest : List Char
  mark : Mark
  fresh : Bool
  deriving DecidableEq, Repr, Inhabited

namespace Cursor

/-- The start of a text, which goes on to its first NUL. -/
def ofText (s : List Char) : Cursor :=
  ⟨s.takeWhile fun c => c != '\x00', ⟨0, 1, 0⟩, true⟩

def atEnd (c : Cursor) : Bool := c.rest.isEmpty

/-- The column as a number that can be compared with an indentation. -/
def column (c : Cursor) : Int := c.mark.col

/-- Passes `n` characters of a line. -/
def skip (c : Cursor) (n : Nat) : Cursor :=
  ⟨c.rest.drop n, { c.mark with index := c.mark.index + n, col := c.mark.col + n }, false⟩

/-- Passes `n` blanks, which leave a fresh line fresh. -/
def skipBlanks (c : Cursor) (n : Nat) : Cursor :=
  ⟨c.rest.drop n, { c.mark with index := c.mark.index + n, col := c.mark.col + n }, c.fresh⟩

/-- Passes a line break, if one comes next. -/
def skipBreak (c : Cursor) : Cursor :=
  match c.rest with
  | '\r' :: '\n' :: r => ⟨r, ⟨c.mark.index + 2, c.mark.line + 1, 0⟩, true⟩
  | '\r' :: r => ⟨r, ⟨c.mark.index + 1, c.mark.line + 1, 0⟩, true⟩
  | '\n' :: r => ⟨r, ⟨c.mark.index + 1, c.mark.line + 1, 0⟩, true⟩
  | _ => c

/-- The characters of a class that come next, and the place behind them. -/
def takeWhile (c : Cursor) (p : Char → Bool) : List Char × Cursor :=
  match c.rest.takeWhile p with
  | [] => ([], c)
  | taken => (taken, c.skip taken.length)

/-- Passes the blanks of a class that come next. -/
def skipBlanksWhile (c : Cursor) (p : Char → Bool) : Cursor :=
  c.skipBlanks (c.rest.takeWhile p).length

/-- Passes all that is left of the line. -/
def skipLine (c : Cursor) : Cursor := (c.takeWhile fun ch => !isBreak ch).2

/-- What was found between a token and the rest of its line. -/
structure Margin where
  tab : Bool
  space : Bool
  deriving DecidableEq, Repr, Inhabited

/-- Passes blanks and a comment behind them.  A comment that nothing separates from the token
before it is an error.  Where tabs do not separate, the first tab ends the margin. -/
def skipMargin (c : Cursor) (tabs : Bool) : Option (Margin × Cursor) :=
  let isSeparator := fun ch => ch == ' ' || (tabs && ch == '\t')
  let blanks := c.rest.takeWhile isSeparator
  let margin : Margin := ⟨blanks.contains '\t', blanks.contains ' '⟩
  let behind := c.skipBlanks blanks.length
  if startsWith (· == '#') behind.rest then
    if margin.tab || margin.space then some (margin, behind.skipLine) else none
  else some (margin, behind)

/-- Passes blanks of both kinds and a comment behind them, up to the end of the line, if nothing
else is left on it. -/
def skipToLineEnd (c : Cursor) : Option Cursor :=
  match c.skipMargin true with
  | some (_, d) => if endsOrStartsWith isBreak d.rest then some d else none
  | none => none

end Cursor
end Yaml
end LintLocator
